import Kolla.Lib.Dict
import Kolla.Lib.LinePattern
import Kolla.Lib.Posix

/-!
# Merging template overrides

`_merge_overrides` of `kolla/image/kolla_worker.py` puts the template overrides
together: the first one as it is, and the others without their `extends` header, which
it takes out with a regular expression for lines.

`merged_iff` says when nothing but the tag goes: it has to stand alone on its line, and
no other line may look like a header.  A tag over several lines stays as a rule; where it
does not, the lines have to be headers each, or what is left of them to read as the text
around the tag.
-/

namespace Kolla.Build

open Kolla.Lib Kolla.Lib.LinePattern

/-! ## `_merge_overrides` -/

/-- `extends`. -/
def extendsWord : List Char := ['e', 'x', 't', 'e', 'n', 'd', 's']

/-- The pattern between the first `.*` and the newline. -/
def headerItems : List Item :=
  chars ['\x7b', '%'] ++ .star :: (chars extendsWord ++ [.star])

/-- `re.sub(r'.*\{\%.*extends.*\n', '', cont)`. -/
def removeHeader (cont : List Char) : List Char :=
  subst (matchItems ([.star] ++ headerItems ++ [.char '\n'])) [] cont

/-- `_merge_overrides`, where `read` is the text of a file, if it can be read.  Without
overrides there is no first one. -/
def mergeOverrides (read : Path → Option (List Char)) :
    List Path → Option (Dict String (List Char))
  | [] => none
  | first :: rest => do
    let tplContent ← read first
    let tplContent ← rest.foldlM (fun tplContent override => do
      let cont ← read override
      pure (tplContent ++ removeHeader cont)) tplContent
    pure [(Path.basename first, tplContent)]

/-! ## Overrides with a tag -/

/-- An `extends` tag of a template. -/
def IsExtendsTag (tag : List Char) : Prop :=
  ∃ sign blanks body, tag = ['\x7b', '%'] ++ sign ++ blanks ++ extendsWord ++ body ++ ['%', '\x7d'] ∧
    sign ∈ [[], ['-'], ['+']] ∧ ∀ c ∈ blanks, c.isWhitespace = true

/-- The text of an override: a tag, and what is before and after it. -/
structure Override where
  pre : List Char
  tag : List Char
  post : List Char
  isTag : IsExtendsTag tag

def Override.text (o : Override) : List Char := o.pre ++ o.tag ++ o.post

/-- The tag is gone and everything else is there.  A newline after the tag may go with
it. -/
def TagRemoved (o : Override) (part : List Char) : Prop :=
  part = o.pre ++ o.post ∨ ∃ rest, o.post = '\n' :: rest ∧ part = o.pre ++ rest

/-- A line that the pattern takes for a header. -/
def Header (line : List Char) : Prop := Fits (.star :: headerItems) line

/-- What is before the tag on its line. -/
def Override.start (o : Override) : List Char := o.pre.rtakeWhile (· ≠ '\n')

/-- What is after the tag on its line. -/
def Override.before (o : Override) : List Char := o.post.takeWhile (· ≠ '\n')

/-- The lines that the tag is on. -/
def Override.tagLines (o : Override) : List (List Char) :=
  (o.start ++ o.tag ++ o.before).splitOn '\n'

/-- The tag stands alone on its line, or on lines that are headers each, and no other
line that ends is a header. -/
structure Clean (o : Override) : Prop where
  starts : Whole o.pre
  ends : o.post.head? = some '\n'
  headers : ∀ line ∈ o.tagLines, Header line
  others : ∀ line ∈ terminated o.pre ++ terminated o.post, ¬ Header line

/-- One of the lines that the tag is on is left, and reads as the text around the tag. -/
structure Lucky (o : Override) : Prop where
  left : ∃ above below, o.tagLines = above ++ (o.start ++ o.before) :: below ∧
    (∀ line ∈ above ++ below, Header line) ∧
      if '\n' ∈ o.post then ¬ Header (o.start ++ o.before) else below = []
  others : ∀ line ∈ terminated o.pre ++ terminated o.post, ¬ Header line

/-- A header has the opening of a tag and the word after it. -/
theorem header_iff {line : List Char} :
    Header line ↔ ∃ a b c, line = a ++ ['\x7b', '%'] ++ b ++ extendsWord ++ c := by
  unfold Header headerItems
  constructor
  · rintro ⟨a, rest, rfl, h⟩
    obtain ⟨tail, rfl, b, rest, htail, h⟩ := fits_chars_append.mp h
    obtain ⟨tail', rfl, c, rest', htail', hrest'⟩ := fits_chars_append.mp h
    obtain rfl : rest' = [] := hrest'
    exact ⟨a, b, c, by rw [htail, htail']; simp⟩
  · rintro ⟨a, b, c, rfl⟩
    refine ⟨a, ['\x7b', '%'] ++ (b ++ (extendsWord ++ c)), by simp, ?_⟩
    exact fits_chars_append.mpr ⟨_, rfl, b, _, rfl, fits_chars_append.mpr ⟨_, rfl, c, [], by simp, rfl⟩⟩

theorem not_header_nil : ¬ Header [] := by
  rw [header_iff]
  rintro ⟨a, b, c, h⟩
  simp at h

theorem newline_not_mem : Item.char '\n' ∉ headerItems := by decide

theorem removeHeader_eq (cont : List Char) : removeHeader cont = dropFitting headerItems cont := rfl

namespace Override

variable (o : Override)

theorem tag_ne_nil : o.tag ≠ [] := by
  obtain ⟨sign, blanks, body, htag, -⟩ := o.isTag
  rw [htag]
  simp

theorem tagLines_of_line {o : Override} (hline : '\n' ∉ o.tag) :
    o.tagLines = [o.start ++ o.tag ++ o.before] := by
  refine List.splitOn_eq_singleton ?_
  simp only [List.mem_append, not_or]
  exact ⟨⟨fun h => by simpa using List.mem_rtakeWhile_imp h, hline⟩,
    fun h => by simpa using List.mem_takeWhile_imp h⟩

/-- The line with the tag is a header. -/
theorem header_of_line {o : Override} (hline : '\n' ∉ o.tag) : ∀ line ∈ o.tagLines, Header line := by
  obtain ⟨sign, blanks, body, htag, -⟩ := o.isTag
  rw [tagLines_of_line hline, List.forall_mem_singleton, header_iff, htag]
  exact ⟨o.start, sign ++ blanks, body ++ ['%', '\x7d'] ++ o.before, by simp⟩

end Override

/-! ## What is left of an override -/

theorem removeHeader_eq_self {text : List Char} :
    removeHeader text = text ↔ ∀ line ∈ terminated text, ¬ Header line :=
  dropFitting_eq_self newline_not_mem

/-- A header with some text before it is one. -/
theorem Header.append {line : List Char} (h : Header line) (start : List Char) :
    Header (start ++ line) := by
  obtain ⟨a, b, c, rfl⟩ := header_iff.mp h
  exact header_iff.mpr ⟨start ++ a, b, c, by simp⟩

/-- What is left of a text has no headers. -/
theorem no_header_left {text left : List Char} (h : removeHeader text = left) :
    ∀ line ∈ terminated left, ¬ Header line := by
  rw [← removeHeader_eq_self, ← h]
  exact dropFitting_dropFitting newline_not_mem text

/-- What comes after the beginning of a line has no headers if the whole has none. -/
theorem no_header_after {start rest : List Char} (hstart : '\n' ∉ start)
    (h : ∀ line ∈ terminated (start ++ rest), ¬ Header line) : ∀ line ∈ terminated rest, ¬ Header line := by
  by_cases hrest : '\n' ∈ rest
  · obtain ⟨line, more, rfl, hline⟩ := List.eq_append_cons_of_mem hrest
    have hfirst : '\n' ∉ start ++ line := by simp [hstart, hline]
    rw [← List.append_assoc, terminated_line hfirst, List.forall_mem_cons] at h
    rw [terminated_line hline, List.forall_mem_cons]
    exact ⟨fun hheader => h.1 (hheader.append start), h.2⟩
  · rw [terminated_last hrest]
    exact fun line hmem => absurd hmem List.not_mem_nil

section Lines

variable {o : Override} {whole start before rest : List Char}

theorem start_eq (hpre : o.pre = whole ++ start) (hwhole : Whole whole) (hstart : '\n' ∉ start) :
    o.start = start := by
  have hkept : ∀ c ∈ start.reverse, decide (c ≠ '\n') = true := fun c hc =>
    decide_eq_true fun heq => hstart (heq ▸ List.mem_reverse.mp hc)
  rw [Override.start, hpre, List.rtakeWhile, List.reverse_append, List.takeWhile_append_of_pos hkept]
  rcases hwhole with rfl | hlast
  · simp
  · obtain ⟨init, rfl⟩ := List.getLast?_eq_some_iff.mp hlast
    simp

theorem before_eq (hpost : o.post = before ++ '\n' :: rest) (hbefore : '\n' ∉ before) :
    o.before = before := by
  have hkept : ∀ c ∈ before, decide (c ≠ '\n') = true := fun c hc =>
    decide_eq_true fun heq => hbefore (heq ▸ hc)
  rw [Override.before, hpost, List.takeWhile_append_of_pos hkept]
  simp

theorem before_eq_post (hpost : '\n' ∉ o.post) : o.before = o.post :=
  List.takeWhile_eq_self_iff.mpr fun _ hc => decide_eq_true fun heq => hpost (heq ▸ hc)

/-- What is left where the line of the tag ends. -/
theorem removeHeader_text (hpre : o.pre = whole ++ start) (hpost : o.post = before ++ '\n' :: rest)
    (hwhole : Whole whole) : removeHeader o.text
      = removeHeader whole ++ (removeHeader (start ++ o.tag ++ before ++ ['\n']) ++ removeHeader rest) := by
  have htext : o.text = whole ++ ((start ++ o.tag ++ before ++ ['\n']) ++ rest) := by
    simp [Override.text, hpre, hpost]
  rw [htext, removeHeader_eq, dropFitting_append newline_not_mem hwhole,
    dropFitting_append newline_not_mem (whole_concat _)]
  rfl

/-- The text around the tag is left just if one line is and reads as this. -/
theorem left_around_iff (hpre : o.pre = whole ++ start) (hpost : o.post = before ++ '\n' :: rest)
    (hwhole : Whole whole) (hstart : '\n' ∉ start) (hbefore : '\n' ∉ before) :
    removeHeader o.text = o.pre ++ o.post ↔ Lucky o := by
  have hline : '\n' ∉ start ++ before := by simp [hstart, hbefore]
  have hnewline : '\n' ∈ o.post := by simp [hpost]
  have hmid := @dropFitting_eq_line _ newline_not_mem _ _ (whole_concat (start ++ o.tag ++ before)) hline
  rw [terminated_concat] at hmid
  have haround : o.pre ++ o.post = whole ++ ((start ++ before ++ ['\n']) ++ rest) := by
    simp [hpre, hpost]
  rw [removeHeader_text hpre hpost hwhole, haround]
  constructor
  · intro h
    have hkept := no_header_left ((removeHeader_text hpre hpost hwhole).trans h)
    rw [terminated_append hwhole, terminated_append (whole_concat _), terminated_concat,
      List.splitOn_eq_singleton hline, List.forall_mem_append, List.forall_mem_append,
      List.forall_mem_singleton] at hkept
    obtain ⟨hw, haround, hr⟩ := hkept
    rw [removeHeader_eq_self.mpr hw, removeHeader_eq_self.mpr hr] at h
    obtain ⟨above, below, hlines, hheaders, hnot⟩ :=
      hmid.mp (List.append_cancel_right (List.append_cancel_left h))
    refine ⟨⟨above, below, ?_, hheaders, ?_⟩, ?_⟩
    · rw [Override.tagLines, start_eq hpre hwhole hstart, before_eq hpost hbefore, hlines]
    · rw [if_pos hnewline, start_eq hpre hwhole hstart, before_eq hpost hbefore]
      exact hnot
    · have hbeforeline : ¬ Header before := fun h => haround (h.append start)
      rw [hpre, hpost, terminated_append hwhole, terminated_last hstart, List.append_nil,
        terminated_line hbefore, List.forall_mem_append, List.forall_mem_cons]
      exact ⟨hw, hbeforeline, hr⟩
  · intro h
    obtain ⟨above, below, hlines, hheaders, hnot⟩ := h.left
    rw [if_pos hnewline, start_eq hpre hwhole hstart, before_eq hpost hbefore] at hnot
    rw [Override.tagLines, start_eq hpre hwhole hstart, before_eq hpost hbefore] at hlines
    have hothers := h.others
    rw [hpre, hpost, terminated_append hwhole, terminated_last hstart, List.append_nil,
      terminated_line hbefore, List.forall_mem_append, List.forall_mem_cons] at hothers
    rw [removeHeader_eq_self.mpr hothers.1, removeHeader_eq_self.mpr hothers.2.2,
      removeHeader_eq (start ++ o.tag ++ before ++ ['\n']), hmid.mpr ⟨above, below, hlines, hheaders, hnot⟩]

/-- The newline goes with the tag just if there is nothing around the tag. -/
theorem left_without_newline_iff (hpre : o.pre = whole ++ start) (hpost : o.post = '\n' :: rest)
    (hwhole : Whole whole) (hstart : '\n' ∉ start) :
    removeHeader o.text = o.pre ++ rest ↔ Clean o := by
  have hpost' : o.post = [] ++ '\n' :: rest := hpost
  have hmid := @dropFitting_eq_nil _ newline_not_mem _ (whole_concat (start ++ o.tag))
  rw [terminated_concat] at hmid
  have htext := removeHeader_text hpre hpost' hwhole
  rw [List.append_nil (start ++ o.tag)] at htext
  have hlines : o.tagLines = (start ++ o.tag).splitOn '\n' := by
    rw [Override.tagLines, start_eq hpre hwhole hstart, before_eq hpost' List.not_mem_nil, List.append_nil]
  have hafter : terminated o.post = [] :: terminated rest := by
    rw [hpost', terminated_line List.not_mem_nil]
  have hall : (∀ line ∈ terminated o.pre ++ terminated o.post, ¬ Header line) ↔
      removeHeader whole = whole ∧ removeHeader rest = rest := by
    rw [hpre, hafter, terminated_append hwhole, terminated_last hstart, List.append_nil,
      List.forall_mem_append, List.forall_mem_cons, removeHeader_eq_self, removeHeader_eq_self]
    exact and_congr_right fun _ => and_iff_right not_header_nil
  rw [hpre, List.append_assoc]
  constructor
  · intro h
    have hkept := no_header_left h
    rw [terminated_append hwhole, List.forall_mem_append] at hkept
    have hw : removeHeader whole = whole := removeHeader_eq_self.mpr hkept.1
    have hr : removeHeader rest = rest := removeHeader_eq_self.mpr (no_header_after hstart hkept.2)
    rw [htext, hw, hr] at h
    have hleft : removeHeader (start ++ o.tag ++ ['\n']) = start :=
      List.append_cancel_right (List.append_cancel_left h)
    obtain rfl : start = [] := by
      refine eq_nil_of_whole hstart ?_
      rw [← hleft]
      exact whole_dropFitting newline_not_mem (whole_concat _)
    refine ⟨?_, by rw [hpost]; rfl, by rw [hlines]; exact hmid.mp hleft, hall.mpr ⟨hw, hr⟩⟩
    rw [hpre, List.append_nil]
    exact hwhole
  · intro h
    obtain rfl : start = [] :=
      (start_eq hpre hwhole hstart).symm.trans (start_eq (by simp) h.starts List.not_mem_nil)
    have hheaders := h.headers
    rw [hlines] at hheaders
    obtain ⟨hw, hr⟩ := hall.mp h.others
    rw [htext, hw, hr, removeHeader_eq (_ ++ ['\n']), hmid.mpr hheaders]

/-- Where the line of the tag does not end, the text around it is left just if that
line is the one that reads as this. -/
theorem left_last_iff (hpre : o.pre = whole ++ start) (hwhole : Whole whole) (hstart : '\n' ∉ start)
    (hpost : '\n' ∉ o.post) : removeHeader o.text = o.pre ++ o.post ↔ Lucky o := by
  obtain ⟨above, last, hsplit, habove, hlast⟩ := exists_lines (start ++ o.tag)
  have hline : '\n' ∉ last ++ o.post := by simp [hlast, hpost]
  have htext : removeHeader o.text = removeHeader whole ++ (removeHeader above ++ (last ++ o.post)) := by
    have hwholetext : o.text = whole ++ (above ++ (last ++ o.post)) := by
      rw [Override.text, hpre, List.append_assoc whole, hsplit, List.append_assoc, List.append_assoc]
    rw [hwholetext, removeHeader_eq, dropFitting_append newline_not_mem hwhole,
      dropFitting_append newline_not_mem habove, dropFitting_last hline]
    rfl
  have hlines : o.tagLines = terminated above ++ [last ++ o.post] := by
    rw [Override.tagLines, start_eq hpre hwhole hstart, before_eq_post hpost, hsplit, List.append_assoc,
      splitOn_append habove hline]
  have hothers : (∀ line ∈ terminated o.pre ++ terminated o.post, ¬ Header line) ↔
      removeHeader whole = whole := by
    rw [terminated_last hpost, List.append_nil, hpre, terminated_append hwhole, terminated_last hstart,
      List.append_nil, removeHeader_eq_self]
  rw [htext]
  constructor
  · intro h
    have hkept := no_header_left (htext.trans h)
    rw [hpre, List.append_assoc, terminated_append hwhole, List.forall_mem_append] at hkept
    have hw : removeHeader whole = whole := removeHeader_eq_self.mpr hkept.1
    rw [hw, hpre, List.append_assoc] at h
    have hleft : removeHeader above ++ last = start := by
      have hcancel := List.append_cancel_left h
      rw [← List.append_assoc] at hcancel
      exact List.append_cancel_right hcancel
    have hnil : removeHeader above = [] := by
      refine eq_nil_of_whole (fun hmem => hstart ?_) (whole_dropFitting newline_not_mem habove)
      rw [← hleft]
      exact List.mem_append_left _ hmem
    rw [hnil, List.nil_append] at hleft
    refine ⟨⟨terminated above, [], ?_, ?_, ?_⟩, hothers.mpr hw⟩
    · rw [hlines, hleft, start_eq hpre hwhole hstart, before_eq_post hpost]
    · rw [List.append_nil]
      exact (dropFitting_eq_nil newline_not_mem habove).mp hnil
    · rw [if_neg hpost]
  · intro h
    obtain ⟨headers, below, heq, hheaders, hbelow⟩ := h.left
    rw [if_neg hpost] at hbelow
    rw [hlines, hbelow, start_eq hpre hwhole hstart, before_eq_post hpost] at heq
    obtain ⟨rfl, hsame⟩ := List.append_inj' heq rfl
    rw [hbelow, List.append_nil] at hheaders
    have hnil : removeHeader above = [] := (dropFitting_eq_nil newline_not_mem habove).mpr hheaders
    rw [hothers.mp h.others, hnil, (List.cons_eq_cons.mp hsame).1, hpre, List.nil_append,
      List.append_assoc]

end Lines

/-- What is left of an override is the text without the tag just if the tag stands alone
on its line, or one of its lines reads as what is around it. -/
theorem removed_iff (o : Override) : TagRemoved o (removeHeader o.text) ↔ Clean o ∨ Lucky o := by
  obtain ⟨whole, start, hpre, hwhole, hstart⟩ := exists_lines o.pre
  unfold TagRemoved
  by_cases hnewline : '\n' ∈ o.post
  · obtain ⟨before, rest, hpost, hbefore⟩ := List.eq_append_cons_of_mem hnewline
    rw [left_around_iff hpre hpost hwhole hstart hbefore, or_comm]
    refine or_congr_left ⟨?_, fun h => ?_⟩
    · rintro ⟨rest, hrest, h⟩
      exact (left_without_newline_iff hpre hrest hwhole hstart).mp h
    · obtain ⟨rest, hrest⟩ := List.head?_eq_some_iff.mp h.ends
      exact ⟨rest, hrest, (left_without_newline_iff hpre hrest hwhole hstart).mpr h⟩
  · rw [left_last_iff hpre hwhole hstart hnewline, or_comm]
    refine or_congr_left (iff_of_false ?_ fun h => hnewline (List.mem_of_head? h.ends))
    rintro ⟨rest, hrest, -⟩
    rw [hrest] at hnewline
    exact hnewline List.mem_cons_self

/-- For a tag on one line it is enough to look around it. -/
theorem removed_of_line {o : Override} (hline : '\n' ∉ o.tag) :
    TagRemoved o (removeHeader o.text) ↔ Whole o.pre ∧ o.post.head? = some '\n' ∧
      ∀ line ∈ terminated o.pre ++ terminated o.post, ¬ Header line := by
  rw [removed_iff]
  constructor
  · rintro (hclean | hlucky)
    · exact ⟨hclean.starts, hclean.ends, hclean.others⟩
    · obtain ⟨above, below, hlines, -⟩ := hlucky.left
      rw [Override.tagLines_of_line hline] at hlines
      have hsame : o.start ++ o.tag ++ o.before = o.start ++ o.before := by
        cases above with
        | nil => exact (List.cons_eq_cons.mp hlines).1
        | cons line above => simp at hlines
      exact absurd (by simpa using hsame) o.tag_ne_nil
  · rintro ⟨hstarts, hends, hothers⟩
    exact Or.inl ⟨hstarts, hends, Override.header_of_line hline, hothers⟩

/-! ## The merged template -/

section Merge

variable {read : Path → Option (List Char)} {o : Path → Override} {first : Path} {rest : List Path}

theorem mergeOverrides_eq (hread : ∀ p ∈ first :: rest, read p = some (o p).text) :
    mergeOverrides read (first :: rest) = some [(Path.basename first,
      (o first).text ++ rest.flatMap fun p => removeHeader (o p).text)] := by
  obtain ⟨hfirst, hrest⟩ := List.forall_mem_cons.mp hread
  have hfold : ∀ content, rest.foldlM (fun tplContent override => do
        let cont ← read override
        pure (tplContent ++ removeHeader cont)) content
      = some (content ++ rest.flatMap fun p => removeHeader (o p).text) := by
    clear hread
    induction rest with
    | nil => exact fun content => by simp
    | cons p rest ih =>
      intro content
      obtain ⟨hp, hrest⟩ := List.forall_mem_cons.mp hrest
      rw [List.foldlM_cons, hp]
      exact (ih hrest _).trans (by simp)
  rw [mergeOverrides, hfirst]
  change (rest.foldlM _ (o first).text >>= fun content => some [(Path.basename first, content)]) = _
  rw [hfold]
  rfl

/-- The merged template is the first text and what is left of the others, and the tag is
all that is missing of these just if they are clean, or the text around it is left by
luck. -/
theorem merged_iff (hread : ∀ p ∈ first :: rest, read p = some (o p).text) :
    mergeOverrides read (first :: rest) = some [(Path.basename first,
        (o first).text ++ rest.flatMap fun p => removeHeader (o p).text)] ∧
      ((∀ p ∈ rest, TagRemoved (o p) (removeHeader (o p).text)) ↔
        ∀ p ∈ rest, Clean (o p) ∨ Lucky (o p)) :=
  ⟨mergeOverrides_eq hread, forall₂_congr fun p _ => removed_iff (o p)⟩

end Merge

/-! ## Two overrides -/

/-- The tag on a line of its own, and a block. -/
def ownLine : Override where
  pre := []
  tag := "\x7b% extends parent_template %\x7d".toList
  post := "\n\x7b% block base_footer %\x7dRUN a\x7b% endblock %\x7d\n".toList
  isTag := by
    refine ⟨[], [' '], " parent_template ".toList, by decide +kernel, by decide +kernel, ?_⟩
    intro c hc
    rw [List.mem_singleton.mp hc]
    decide

/-- The block is on the line of the tag. -/
def sameLine : Override := { ownLine with post := ownLine.post.tail }

/-- `merged_iff` for two files with the tag on a line of its own. -/
theorem merged_ownLine :
    mergeOverrides (fun _ => some ownLine.text) [["a.j2"], ["b.j2"]]
        = some [("a.j2", ownLine.text ++ ownLine.post.tail)] ∧
      TagRemoved ownLine (removeHeader ownLine.text) := by
  obtain ⟨hmerge, hremoved⟩ := @merged_iff (fun _ => some ownLine.text) (fun _ => ownLine) ["a.j2"]
    [["b.j2"]] fun _ _ => rfl
  have hclean : Clean ownLine :=
    (@left_without_newline_iff ownLine [] [] ownLine.post.tail rfl (by decide +kernel) (Or.inl rfl)
      (by decide)).mp (by decide +kernel)
  exact ⟨hmerge.trans (by decide +kernel), hremoved.mpr (fun _ _ => Or.inl hclean) ["b.j2"] (by simp)⟩

/-- The block of the second file is lost. -/
theorem sameLine_lost :
    mergeOverrides (fun p => some (if p = ["b.j2"] then sameLine.text else ownLine.text))
        [["a.j2"], ["b.j2"]] = some [("a.j2", ownLine.text)] ∧
      removeHeader sameLine.text = [] ∧ ¬ TagRemoved sameLine (removeHeader sameLine.text) := by
  have hlost : removeHeader sameLine.text = [] := by decide +kernel
  refine ⟨by decide +kernel, hlost, ?_⟩
  rw [hlost]
  rintro (h | ⟨rest, hrest, -⟩)
  · exact absurd h (by decide +kernel)
  · have hhead : sameLine.post.head? = some '\n' := by rw [hrest]; rfl
    exact absurd hhead (by decide +kernel)

end Kolla.Build
