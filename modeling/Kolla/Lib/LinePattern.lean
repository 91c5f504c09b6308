import Kolla.Lib.Substitution

/-!
# Patterns for lines

A pattern is here a list of characters and of `.*`, read as a backtracking matcher
reads it: `.*` takes as much of the line as it can, and less if the rest does not
match then.

A pattern that begins with `.*` and ends with a newline matches whole lines, so to
substitute it by nothing is to drop the lines that fit it (`dropFitting_line`).  To
search for a text and `.*` at the beginning of a line is to look for the first line
that begins with the text (`searchLine_chars_star`).
-/

namespace Kolla.Lib.LinePattern

/-- A part of a pattern. -/
inductive Item where
  | char (c : Char)
  | star
deriving DecidableEq, Repr

/-- `.*` and what comes after it. -/
def starThen (next : List Char → Option ℕ) : List Char → Option ℕ
  | [] => next []
  | c :: text =>
    if c = '\n' then next (c :: text)
    else
      match starThen next text with
      | some n => some (n + 1)
      | none => next (c :: text)

/-- The length of the match that the text begins with. -/
def matchItems : List Item → List Char → Option ℕ
  | [], _ => some 0
  | .char _ :: _, [] => none
  | .char c :: items, d :: text => if c = d then (matchItems items text).map (· + 1) else none
  | .star :: items, text => starThen (matchItems items) text

/-- The pattern of a text that stands for itself. -/
def chars (text : List Char) : List Item := text.map .char

/-- The whole line fits the pattern. -/
def Fits : List Item → List Char → Prop
  | [], line => line = []
  | .char c :: items, line => ∃ rest, line = c :: rest ∧ Fits items rest
  | .star :: items, line => ∃ pre rest, line = pre ++ rest ∧ Fits items rest

theorem fits_chars_append {text : List Char} {items : List Item} {line : List Char} :
    Fits (chars text ++ items) line ↔ ∃ rest, line = text ++ rest ∧ Fits items rest := by
  induction text generalizing line with
  | nil => exact ⟨fun h => ⟨line, rfl, h⟩, fun ⟨_, hline, h⟩ => hline ▸ h⟩
  | cons c text ih =>
    constructor
    · rintro ⟨rest, rfl, h⟩
      obtain ⟨rest', rfl, h'⟩ := ih.mp h
      exact ⟨rest', rfl, h'⟩
    · rintro ⟨rest, rfl, h⟩
      exact ⟨text ++ rest, rfl, ih.mpr ⟨rest, rfl, h⟩⟩

/-! ## Matches -/

variable {items : List Item} {line rest : List Char}

theorem starThen_eq_some {next : List Char → Option ℕ} {text : List Char} {k : ℕ}
    (h : starThen next text = some k) :
    ∃ pre suf n, text = pre ++ suf ∧ '\n' ∉ pre ∧ next suf = some n ∧ k = pre.length + n := by
  induction text generalizing k with
  | nil => exact ⟨[], [], k, rfl, List.not_mem_nil, h, by simp⟩
  | cons c text ih =>
    have hhere : next (c :: text) = some k → ∃ pre suf n, c :: text = pre ++ suf ∧ '\n' ∉ pre ∧
        next suf = some n ∧ k = pre.length + n :=
      fun h => ⟨[], c :: text, k, rfl, List.not_mem_nil, h, by simp⟩
    rw [starThen] at h
    split at h
    · exact hhere h
    · rename_i hc
      cases hrest : starThen next text with
      | none =>
        rw [hrest] at h
        exact hhere h
      | some m =>
        rw [hrest] at h
        obtain ⟨pre, suf, n, rfl, hpre, hnext, rfl⟩ := ih hrest
        refine ⟨c :: pre, suf, n, rfl, ?_, hnext, ?_⟩
        · rw [List.mem_cons, not_or]
          exact ⟨fun heq => hc heq.symm, hpre⟩
        · rw [← Option.some.inj h, List.length_cons]
          omega

theorem starThen_ne_none {next : List Char → Option ℕ} {pre suf : List Char} (hpre : '\n' ∉ pre)
    (h : next suf ≠ none) : starThen next (pre ++ suf) ≠ none := by
  induction pre with
  | nil =>
    cases suf with
    | nil => exact h
    | cons c suf =>
      rw [List.nil_append, starThen]
      split
      · exact h
      · cases hrest : starThen next suf with
        | none => exact h
        | some m => nofun
  | cons c pre ih =>
    rw [List.mem_cons, not_or] at hpre
    have hrest := ih hpre.2
    obtain ⟨m, hm⟩ := Option.ne_none_iff_exists'.mp hrest
    rw [List.cons_append, starThen, if_neg fun heq => hpre.1 heq.symm, hm]
    nofun

/-- A pattern with a newline at its end matches up to the end of the line. -/
theorem length_of_match (hitems : .char '\n' ∉ items) (hline : '\n' ∉ line) {k : ℕ}
    (h : matchItems (items ++ [.char '\n']) (line ++ '\n' :: rest) = some k) :
    Fits items line ∧ k = line.length + 1 := by
  induction items generalizing line k with
  | nil =>
    cases line with
    | nil =>
      refine ⟨rfl, ?_⟩
      have : some 1 = some k := h
      rw [← Option.some.inj this, List.length_nil]
    | cons c line =>
      rw [List.mem_cons, not_or] at hline
      rw [List.nil_append, List.cons_append, matchItems, if_neg hline.1] at h
      cases h
  | cons item items ih =>
    rw [List.mem_cons, not_or] at hitems
    cases item with
    | char c =>
      cases line with
      | nil =>
        rw [List.cons_append, List.nil_append, matchItems, if_neg fun heq => hitems.1 (by rw [heq])] at h
        cases h
      | cons d line =>
        rw [List.mem_cons, not_or] at hline
        rw [List.cons_append, List.cons_append, matchItems] at h
        split at h
        · rename_i hcd
          subst hcd
          obtain ⟨n, hn, rfl⟩ := Option.map_eq_some_iff.mp h
          obtain ⟨hfits, rfl⟩ := ih hitems.2 hline.2 hn
          exact ⟨⟨line, rfl, hfits⟩, rfl⟩
        · cases h
    | star =>
      obtain ⟨pre, suf, n, htext, hpre, hn, rfl⟩ := starThen_eq_some h
      -- the part that `.*` takes ends within the line
      obtain ⟨line', rfl, rfl⟩ : ∃ line', line = pre ++ line' ∧ suf = line' ++ '\n' :: rest := by
        rcases List.append_eq_append_iff.mp htext with ⟨mid, rfl, hmid⟩ | ⟨mid, rfl, hmid⟩
        · cases mid with
          | nil => exact ⟨[], by simp, by simpa using hmid.symm⟩
          | cons c mid =>
            rw [List.cons_append, List.cons.injEq] at hmid
            exact absurd (hmid.1 ▸ List.mem_append_right line List.mem_cons_self) hpre
        · exact ⟨mid, rfl, hmid⟩
      have hline' : '\n' ∉ line' := fun hmem => hline (List.mem_append_right _ hmem)
      obtain ⟨hfits, rfl⟩ := ih hitems.2 hline' hn
      exact ⟨⟨pre, line', rfl, hfits⟩, by rw [List.length_append]; omega⟩

theorem match_of_fits (hline : '\n' ∉ line) (h : Fits items line) :
    matchItems (items ++ [.char '\n']) (line ++ '\n' :: rest) ≠ none := by
  induction items generalizing line with
  | nil =>
    obtain rfl : line = [] := h
    nofun
  | cons item items ih =>
    cases item with
    | char c =>
      obtain ⟨line, rfl, h⟩ := h
      have hrest := ih (fun hmem => hline (List.mem_cons_of_mem _ hmem)) h
      rw [List.cons_append, List.cons_append, matchItems, if_pos rfl, Ne, Option.map_eq_none_iff]
      exact hrest
    | star =>
      obtain ⟨pre, line, rfl, h⟩ := h
      have hrest := ih (fun hmem => hline (List.mem_append_right _ hmem)) h
      rw [List.append_assoc]
      exact starThen_ne_none (fun hmem => hline (List.mem_append_left _ hmem)) hrest

/-- Without a newline there is no match. -/
theorem no_match {text : List Char} (htext : '\n' ∉ text) :
    matchItems (items ++ [.char '\n']) text = none := by
  induction items generalizing text with
  | nil =>
    cases text with
    | nil => rfl
    | cons c text =>
      rw [List.mem_cons, not_or] at htext
      rw [List.nil_append, matchItems, if_neg htext.1]
  | cons item items ih =>
    cases item with
    | char c =>
      cases text with
      | nil => rfl
      | cons d text =>
        rw [List.cons_append, matchItems, ih fun hmem => htext (List.mem_cons_of_mem _ hmem)]
        split <;> rfl
    | star =>
      by_contra hsome
      obtain ⟨k, hk⟩ := Option.ne_none_iff_exists'.mp hsome
      obtain ⟨pre, suf, n, rfl, -, hn, -⟩ := starThen_eq_some hk
      have hnone : matchItems (items ++ [.char '\n']) suf = none :=
        ih fun hmem => htext (List.mem_append_right _ hmem)
      cases hnone.symm.trans hn

/-! ## Dropping lines -/

/-- The text without the lines that fit the pattern. -/
def dropFitting (items : List Item) (text : List Char) : List Char :=
  subst (matchItems (.star :: items ++ [.char '\n'])) [] text

/-- A line that fits is dropped, and any other one is kept. -/
theorem dropFitting_line (hitems : .char '\n' ∉ items) (hline : '\n' ∉ line) :
    (Fits (.star :: items) line → dropFitting items (line ++ '\n' :: rest) = dropFitting items rest) ∧
      (¬ Fits (.star :: items) line →
        dropFitting items (line ++ '\n' :: rest) = line ++ '\n' :: dropFitting items rest) := by
  have hstar : Item.char '\n' ∉ .star :: items := by simpa using hitems
  constructor
  · intro hfits
    obtain ⟨k, hk⟩ := Option.ne_none_iff_exists'.mp (@match_of_fits _ _ rest hline hfits)
    obtain ⟨-, rfl⟩ := length_of_match hstar hline hk
    have hmatch := @subst_match _ _ ([] : List Char) (line ++ ['\n']) rest (by simp) (by simpa using hk)
    simpa [dropFitting] using hmatch
  · intro hfits
    have hkeep := @subst_keep _ (matchItems (.star :: items ++ [.char '\n'])) ([] : List Char)
      (line ++ ['\n']) rest ?_
    · simpa [dropFitting] using hkeep
    · rintro suf hne ⟨pre, hsuf⟩
      obtain ⟨suf, c, rfl⟩ := (List.eq_nil_or_concat' suf).resolve_left hne
      rw [← List.append_assoc] at hsuf
      obtain ⟨rfl, hc⟩ := List.append_inj' hsuf rfl
      obtain rfl : c = '\n' := by simpa using hc
      by_contra hsome
      obtain ⟨k, hk⟩ := Option.ne_none_iff_exists'.mp hsome
      rw [List.append_assoc, List.singleton_append] at hk
      obtain ⟨⟨pre', rest', hsplit, hfits'⟩, -⟩ := length_of_match hstar
        (fun hmem => hline (List.mem_append_right _ hmem)) hk
      exact hfits ⟨pre ++ pre', rest', by rw [hsplit, List.append_assoc], hfits'⟩

/-- What comes after the last newline is kept. -/
theorem dropFitting_last {text : List Char} (htext : '\n' ∉ text) : dropFitting items text = text := by
  have hkeep := @subst_keep _ (matchItems (.star :: items ++ [.char '\n'])) ([] : List Char) text [] ?_
  · simpa [dropFitting] using hkeep
  · rintro suf - ⟨pre, rfl⟩
    rw [List.append_nil]
    exact no_match fun hmem => htext (List.mem_append_right _ hmem)

/-! ## Lines -/

/-- The lines that end with a newline. -/
def terminated (text : List Char) : List (List Char) := (text.splitOn '\n').dropLast

/-- The text is empty or ends with a newline. -/
def Whole (text : List Char) : Prop := text = [] ∨ text.getLast? = some '\n'

theorem terminated_last {text : List Char} (htext : '\n' ∉ text) : terminated text = [] := by
  rw [terminated, List.splitOn_eq_singleton htext]
  rfl

theorem terminated_line (hline : '\n' ∉ line) (rest : List Char) :
    terminated (line ++ '\n' :: rest) = line :: terminated rest := by
  rw [terminated, List.splitOn_append_cons_self_of_not_mem hline, List.dropLast_cons_of_ne_nil
    (List.splitOn_ne_nil _ _), terminated]

/-- Induction over the lines of a text. -/
theorem line_induction {P : List Char → Prop} (hlast : ∀ text, '\n' ∉ text → P text)
    (hline : ∀ line rest, '\n' ∉ line → P rest → P (line ++ '\n' :: rest)) (text : List Char) :
    P text := by
  induction hlen : text.length using Nat.strong_induction_on generalizing text with
  | _ n ih =>
    by_cases hmem : '\n' ∈ text
    · obtain ⟨line, rest, rfl, hnot⟩ := List.eq_append_cons_of_mem hmem
      refine hline line rest hnot (ih rest.length ?_ rest rfl)
      rw [← hlen, List.length_append, List.length_cons]
      omega
    · exact hlast text hmem

theorem whole_line_iff (rest : List Char) : Whole (line ++ '\n' :: rest) ↔ Whole rest := by
  unfold Whole
  rw [List.getLast?_append]
  cases rest with
  | nil => simp
  | cons c rest => simp [List.getLast?_cons]

theorem eq_nil_of_whole {text : List Char} (htext : '\n' ∉ text) (h : Whole text) : text = [] := by
  refine h.resolve_right fun hlast => htext ?_
  exact List.mem_of_getLast? hlast

/-- A text is some lines and the beginning of another one. -/
theorem exists_lines (text : List Char) : ∃ whole start, text = whole ++ start ∧ Whole whole ∧
    '\n' ∉ start := by
  induction text using line_induction with
  | hlast text htext => exact ⟨[], text, rfl, Or.inl rfl, htext⟩
  | hline line rest _ ih =>
    obtain ⟨whole, start, rfl, hwhole, hstart⟩ := ih
    exact ⟨line ++ '\n' :: whole, start, by simp, (whole_line_iff whole).mpr hwhole, hstart⟩

/-- Lines are dropped from each part of a text. -/
theorem dropFitting_append (hitems : .char '\n' ∉ items) {whole : List Char} (hwhole : Whole whole)
    (rest : List Char) :
    dropFitting items (whole ++ rest) = dropFitting items whole ++ dropFitting items rest := by
  induction whole using line_induction with
  | hlast text htext =>
    obtain rfl := eq_nil_of_whole htext hwhole
    rfl
  | hline line whole hline ih =>
    have hih := ih ((whole_line_iff whole).mp hwhole)
    rw [List.append_assoc, List.cons_append]
    by_cases hfits : Fits (.star :: items) line
    · rw [(dropFitting_line hitems hline).1 hfits, (dropFitting_line hitems hline).1 hfits, hih]
    · rw [(dropFitting_line hitems hline).2 hfits, (dropFitting_line hitems hline).2 hfits, hih,
        List.append_assoc, List.cons_append]

/-- Either no line fits and all are kept, or the text is shorter afterwards. -/
theorem dropFitting_cases (hitems : .char '\n' ∉ items) (text : List Char) :
    (∀ line ∈ terminated text, ¬ Fits (.star :: items) line) ∧ dropFitting items text = text ∨
      (∃ line ∈ terminated text, Fits (.star :: items) line) ∧
        (dropFitting items text).length < text.length := by
  induction text using line_induction with
  | hlast text htext =>
    rw [terminated_last htext]
    exact Or.inl ⟨fun line hmem => absurd hmem List.not_mem_nil, dropFitting_last htext⟩
  | hline line rest hline ih =>
    rw [terminated_line hline, List.length_append, List.length_cons]
    by_cases hfits : Fits (.star :: items) line
    · rw [(dropFitting_line hitems hline).1 hfits]
      refine Or.inr ⟨⟨line, List.mem_cons_self, hfits⟩, ?_⟩
      rcases ih with ⟨-, heq⟩ | ⟨-, hlt⟩
      · rw [heq]
        omega
      · omega
    · rw [(dropFitting_line hitems hline).2 hfits, List.length_append, List.length_cons]
      rcases ih with ⟨hall, heq⟩ | ⟨⟨line', hmem, hfits'⟩, hlt⟩
      · exact Or.inl ⟨List.forall_mem_cons.mpr ⟨hfits, hall⟩, by rw [heq]⟩
      · exact Or.inr ⟨⟨line', List.mem_cons_of_mem _ hmem, hfits'⟩, by omega⟩

theorem dropFitting_eq_self (hitems : .char '\n' ∉ items) {text : List Char} :
    dropFitting items text = text ↔ ∀ line ∈ terminated text, ¬ Fits (.star :: items) line := by
  rcases dropFitting_cases hitems text with ⟨hall, heq⟩ | ⟨⟨line, hmem, hfits⟩, hlt⟩
  · exact iff_of_true heq hall
  · refine iff_of_false (fun heq => ?_) fun hall => hall line hmem hfits
    rw [heq] at hlt
    exact lt_irrefl _ hlt

/-- A second time there is nothing to drop. -/
theorem dropFitting_dropFitting (hitems : .char '\n' ∉ items) (text : List Char) :
    dropFitting items (dropFitting items text) = dropFitting items text := by
  induction text using line_induction with
  | hlast text htext => rw [dropFitting_last htext, dropFitting_last htext]
  | hline line rest hline ih =>
    by_cases hfits : Fits (.star :: items) line
    · rw [(dropFitting_line hitems hline).1 hfits, ih]
    · rw [(dropFitting_line hitems hline).2 hfits, (dropFitting_line hitems hline).2 hfits, ih]

theorem terminated_append {whole : List Char} (hwhole : Whole whole) (rest : List Char) :
    terminated (whole ++ rest) = terminated whole ++ terminated rest := by
  induction whole using line_induction with
  | hlast text htext =>
    obtain rfl := eq_nil_of_whole htext hwhole
    rfl
  | hline line whole hline ih =>
    rw [List.append_assoc, List.cons_append, terminated_line hline, terminated_line hline,
      ih ((whole_line_iff whole).mp hwhole), List.cons_append]

/-- The lines of a text to which a newline is added. -/
theorem terminated_concat (text : List Char) : terminated (text ++ ['\n']) = text.splitOn '\n' := by
  induction text using line_induction with
  | hlast text htext =>
    rw [terminated_line htext, terminated_last List.not_mem_nil, List.splitOn_eq_singleton htext]
  | hline line rest hline ih =>
    rw [List.append_assoc, List.cons_append, terminated_line hline, ih,
      List.splitOn_append_cons_self_of_not_mem hline]

theorem whole_concat (text : List Char) : Whole (text ++ ['\n']) :=
  Or.inr List.getLast?_concat

theorem splitOn_append {whole start : List Char} (hwhole : Whole whole) (hstart : '\n' ∉ start) :
    (whole ++ start).splitOn '\n' = terminated whole ++ [start] := by
  rw [← terminated_concat, List.append_assoc, terminated_append hwhole, terminated_line hstart,
    terminated_last List.not_mem_nil]

theorem whole_dropFitting (hitems : .char '\n' ∉ items) {text : List Char} (htext : Whole text) :
    Whole (dropFitting items text) := by
  induction text using line_induction with
  | hlast text hlast =>
    rw [dropFitting_last hlast]
    exact htext
  | hline line rest hline ih =>
    have hrest := ih ((whole_line_iff rest).mp htext)
    by_cases hfits : Fits (.star :: items) line
    · rw [(dropFitting_line hitems hline).1 hfits]
      exact hrest
    · rw [(dropFitting_line hitems hline).2 hfits]
      exact (whole_line_iff _).mpr hrest

/-- Nothing is left of some lines just if they all fit. -/
theorem dropFitting_eq_nil (hitems : .char '\n' ∉ items) {text : List Char} (htext : Whole text) :
    dropFitting items text = [] ↔ ∀ line ∈ terminated text, Fits (.star :: items) line := by
  induction text using line_induction with
  | hlast text hlast =>
    obtain rfl := eq_nil_of_whole hlast htext
    simp [terminated_last hlast, dropFitting_last hlast]
  | hline line rest hline ih =>
    rw [terminated_line hline, List.forall_mem_cons, ← ih ((whole_line_iff rest).mp htext)]
    by_cases hfits : Fits (.star :: items) line
    · rw [(dropFitting_line hitems hline).1 hfits, and_iff_right hfits]
    · rw [(dropFitting_line hitems hline).2 hfits]
      exact iff_of_false (by simp) fun h => hfits h.1

/-- One line is left just if it is the only one that does not fit. -/
theorem dropFitting_eq_line (hitems : .char '\n' ∉ items) {text line : List Char} (htext : Whole text)
    (hline : '\n' ∉ line) :
    dropFitting items text = line ++ ['\n'] ↔
      ∃ above below, terminated text = above ++ line :: below ∧
        (∀ other ∈ above ++ below, Fits (.star :: items) other) ∧ ¬ Fits (.star :: items) line := by
  induction text using line_induction with
  | hlast text hlast =>
    obtain rfl := eq_nil_of_whole hlast htext
    rw [dropFitting_last hlast, terminated_last hlast]
    simp
  | hline first rest hfirst ih =>
    have hrest := (whole_line_iff rest).mp htext
    rw [terminated_line hfirst]
    by_cases hfits : Fits (.star :: items) first
    · rw [(dropFitting_line hitems hfirst).1 hfits, ih hrest]
      constructor
      · rintro ⟨above, below, hlines, hothers, hnot⟩
        exact ⟨first :: above, below, by rw [hlines, List.cons_append],
          List.forall_mem_cons.mpr ⟨hfits, hothers⟩, hnot⟩
      · rintro ⟨above, below, hlines, hothers, hnot⟩
        cases above with
        | nil =>
          obtain ⟨rfl, -⟩ := List.cons_eq_cons.mp hlines
          exact absurd hfits hnot
        | cons other above =>
          obtain ⟨-, hlines⟩ := List.cons_eq_cons.mp hlines
          exact ⟨above, below, hlines, (List.forall_mem_cons.mp hothers).2, hnot⟩
    · rw [(dropFitting_line hitems hfirst).2 hfits]
      constructor
      · intro heq
        obtain ⟨rfl, hnil⟩ : first = line ∧ dropFitting items rest = [] := by
          have hlines := congrArg terminated heq
          rw [terminated_line hfirst, terminated_line hline] at hlines
          obtain ⟨rfl, -⟩ := List.cons_eq_cons.mp hlines
          exact ⟨rfl, by simpa using heq⟩
        exact ⟨[], terminated rest, rfl, (dropFitting_eq_nil hitems hrest).mp hnil, hfits⟩
      · rintro ⟨above, below, hlines, hothers, hnot⟩
        cases above with
        | nil =>
          obtain ⟨rfl, rfl⟩ := List.cons_eq_cons.mp hlines
          rw [(dropFitting_eq_nil hitems hrest).mpr hothers]
        | cons other above =>
          obtain ⟨rfl, -⟩ := List.cons_eq_cons.mp hlines
          exact absurd (hothers first List.mem_cons_self) hfits

/-! ## The first line that begins with a text -/

/-- `re.search` of `^` and the pattern under `re.MULTILINE`: the first match that
begins where a line begins. -/
def searchFrom (items : List Item) : Bool → List Char → Option (List Char)
  | start, [] => if start then (matchItems items []).map fun _ => [] else none
  | start, c :: text =>
    match if start then matchItems items (c :: text) else none with
    | some n => some ((c :: text).take n)
    | none => searchFrom items (c = '\n') text

def searchLine (items : List Item) (text : List Char) : Option (List Char) :=
  searchFrom items true text

/-- What comes after a line. -/
def Ends (rest : List Char) : Prop := rest = [] ∨ ∃ more, rest = '\n' :: more

theorem starThen_line (hline : '\n' ∉ line) (hrest : Ends rest) :
    starThen (matchItems []) (line ++ rest) = some line.length := by
  induction line with
  | nil =>
    obtain rfl | ⟨more, rfl⟩ := hrest
    · rfl
    · rw [List.nil_append, starThen, if_pos rfl]
      rfl
  | cons c line ih =>
    rw [List.mem_cons, not_or] at hline
    rw [List.cons_append, starThen, if_neg fun heq => hline.1 heq.symm, ih hline.2]
    rfl

/-- A text and `.*` match a whole line or nothing of it. -/
theorem match_chars_star {pre : List Char} (hpre : '\n' ∉ pre) (hline : '\n' ∉ line)
    (hrest : Ends rest) : matchItems (chars pre ++ [.star]) (line ++ rest)
      = if pre <+: line then some line.length else none := by
  induction pre generalizing line with
  | nil =>
    rw [if_pos List.nil_prefix]
    exact starThen_line hline hrest
  | cons c pre ih =>
    rw [List.mem_cons, not_or] at hpre
    have hcons : chars (c :: pre) ++ [.star] = .char c :: (chars pre ++ [.star]) := rfl
    rw [hcons]
    cases line with
    | nil =>
      rw [if_neg (by simp), List.nil_append]
      obtain rfl | ⟨more, rfl⟩ := hrest
      · rfl
      · rw [matchItems, if_neg fun heq => hpre.1 heq.symm]
    | cons d line =>
      rw [List.mem_cons, not_or] at hline
      rw [List.cons_append, matchItems, ih hpre.2 hline.2]
      by_cases hcd : c = d
      · by_cases hprefix : pre <+: line
        · simp [hcd, hprefix]
        · simp [hcd, hprefix]
      · simp [hcd]

/-- Within a line nothing is found. -/
theorem searchFrom_inside (hline : '\n' ∉ line) (rest : List Char) :
    searchFrom items false (line ++ '\n' :: rest) = searchFrom items true rest := by
  induction line with
  | nil => rfl
  | cons c line ih =>
    rw [List.mem_cons, not_or] at hline
    have hc : decide (c = '\n') = false := decide_eq_false fun heq => hline.1 heq.symm
    rw [List.cons_append, searchFrom, hc]
    exact ih hline.2

theorem searchFrom_inside_last {text : List Char} (htext : '\n' ∉ text) :
    searchFrom items false text = none := by
  induction text with
  | nil => rfl
  | cons c text ih =>
    rw [List.mem_cons, not_or] at htext
    have hc : decide (c = '\n') = false := decide_eq_false fun heq => htext.1 heq.symm
    rw [searchFrom, hc]
    exact ih htext.2

/-- What is found where a line begins. -/
theorem searchFrom_start {text : List Char} {n : ℕ} (h : matchItems items text = some n) :
    searchFrom items true text = some (text.take n) := by
  cases text with
  | nil =>
    rw [searchFrom, if_pos rfl, h]
    simp
  | cons c text => rw [searchFrom, if_pos rfl, h]

theorem searchFrom_start_none {text : List Char} (h : matchItems items text = none) :
    searchFrom items true text = searchFrom items false text := by
  cases text with
  | nil =>
    rw [searchFrom, if_pos rfl, h]
    rfl
  | cons c text =>
    rw [searchFrom, if_pos rfl, h]
    rfl

/-- A text and `.*` are found at the first line that begins with the text. -/
theorem searchLine_chars_star {pre : List Char} (hpre : '\n' ∉ pre) (text : List Char) :
    searchLine (chars pre ++ [.star]) text
      = (text.splitOn '\n').find? fun line => decide (pre <+: line) := by
  unfold searchLine
  induction text using line_induction with
  | hlast text htext =>
    have hmatch := match_chars_star hpre htext (Or.inl rfl)
    rw [List.append_nil] at hmatch
    rw [List.splitOn_eq_singleton htext]
    by_cases hprefix : pre <+: text
    · rw [if_pos hprefix] at hmatch
      rw [searchFrom_start hmatch, List.take_length, List.find?_cons_of_pos (by simpa using hprefix)]
    · rw [if_neg hprefix] at hmatch
      rw [searchFrom_start_none hmatch, searchFrom_inside_last htext,
        List.find?_cons_of_neg (by simpa using hprefix), List.find?_nil]
  | hline line rest hline ih =>
    have hmatch := match_chars_star hpre hline (Or.inr ⟨rest, rfl⟩)
    rw [List.splitOn_append_cons_self_of_not_mem hline]
    by_cases hprefix : pre <+: line
    · rw [if_pos hprefix] at hmatch
      rw [searchFrom_start hmatch, List.take_left, List.find?_cons_of_pos (by simpa using hprefix)]
    · rw [if_neg hprefix] at hmatch
      rw [searchFrom_start_none hmatch, searchFrom_inside hline,
        List.find?_cons_of_neg (by simpa using hprefix), ih]

end Kolla.Lib.LinePattern
