import Kolla.Lib.Substitution
import Mathlib.Data.List.Basic
import Mathlib.Data.List.DropRight

/-!
# The options for the domains

`obtain_or_renew_certificate` of `letsencrypt-lego/letsencrypt-certificates.sh` makes
the options of `lego` out of a list of names with three substitutions of `sed`.  The
last one puts a blank before each two hyphens in a row, those of the names included.

`domains_iff` says for which names the shell reads back one option for each name: no
name may have two hyphens in a row, and only the last one may end with a hyphen.
-/

namespace Kolla.LetsEncrypt

open Kolla.Lib

/-! ## The shell -/

/-- A character at which an expansion is split. -/
def isBlank (c : Char) : Bool := c = ' ' || c = '\t' || c = '\n'

/-- The words of an expansion without quotes. -/
def splitWords (text : List Char) : List (List Char) :=
  (text.splitOnP isBlank).filter (· ≠ [])

/-- What the `echo` of bash takes for its options. -/
def isEchoOption : List Char → Bool
  | '-' :: c :: cs => (c :: cs).all fun c => c = 'n' || c = 'e' || c = 'E'
  | _ => false

/-- What `echo` prints.  There are no escapes in the names, so `-e` and `-E` make no
difference. -/
def echo (args : List (List Char)) : List Char :=
  [' '].intercalate (args.dropWhile isEchoOption) ++
    if (args.takeWhile isEchoOption).any ('n' ∈ ·) then [] else ['\n']

/-- The lines of a text. -/
def lines (text : List Char) : List (List Char) :=
  if (text.splitOn '\n').getLast? = some [] then (text.splitOn '\n').dropLast
  else text.splitOn '\n'

/-- `sed`, which runs its script on each line. -/
def sed (script : List Char → List Char) (input : List Char) : List Char :=
  (lines input).flatMap fun line => script line ++ ['\n']

/-- `$(…)`, without the newlines at the end. -/
def commandSubstitution (output : List Char) : List Char := output.rdropWhile (· = '\n')

/-! ## The options -/

/-- The last substitution: a blank before each two hyphens in a row. -/
def spaceDashes (text : List Char) : List Char := subst (literal ['-', '-']) [' ', '-', '-'] text

/-- `domains=`. -/
def flag : List Char := ['d', 'o', 'm', 'a', 'i', 'n', 's', '=']

/-- The three substitutions: a comma in front, an option for each comma, and the
blanks. -/
def domainScript (line : List Char) : List Char :=
  spaceDashes (subst (literal [',']) ('-' :: '-' :: flag) (',' :: line))

/-- `certificate_domain_opts`. -/
def certificateDomainOpts (certificateFqdns : List Char) : List Char :=
  commandSubstitution (sed domainScript (echo (splitWords certificateFqdns)))

/-- A letter, a digit, a dot or a hyphen. -/
def isNameChar (c : Char) : Bool := c.isAlphanum || c = '.' || c = '-'

structure DnsName where
  chars : List Char
  nonempty : chars ≠ []
  admissible : ∀ c ∈ chars, isNameChar c = true

/-- `certificate_fqdns`. -/
def fqdns (names : List DnsName) : List Char := [','].intercalate (names.map DnsName.chars)

/-- The option for one name. -/
def DnsName.option (name : DnsName) : List Char := '-' :: '-' :: (flag ++ name.chars)

/-- No two hyphens stand in a row. -/
def NoDouble (text : List Char) : Prop := ¬ ['-', '-'] <:+: text

/-- The names that the substitutions leave as they are. -/
structure Separable (names : List DnsName) : Prop where
  single : ∀ name ∈ names, NoDouble name.chars
  closed : ∀ name ∈ names.dropLast, name.chars.getLast? ≠ some '-'

/-! ## Words -/

theorem splitWords_blank (text : List Char) : splitWords (' ' :: text) = splitWords text := by
  have := List.splitOnP_append_cons [] text (show isBlank ' ' = true from rfl)
  rw [List.nil_append] at this
  rw [splitWords, this]
  simp [List.splitOnP_nil, splitWords]

theorem splitWords_word {word rest : List Char} (hne : word ≠ [])
    (hword : ∀ c ∈ word, isBlank c = false) (hrest : rest = [] ∨ ∃ rest', rest = ' ' :: rest') :
    splitWords (word ++ rest) = word :: splitWords rest := by
  rcases hrest with rfl | ⟨rest, rfl⟩
  · rw [List.append_nil, splitWords, List.splitOnP_eq_singleton hword]
    simp [hne, splitWords, List.splitOnP_nil]
  · rw [splitWords_blank, splitWords, List.splitOnP_append_cons _ _ rfl,
      List.splitOnP_eq_singleton hword]
    simp [hne, splitWords]

/-! ## Hyphens in a row -/

theorem noDouble_append {pre text : List Char} (hpre : '-' ∉ pre) :
    NoDouble (pre ++ text) ↔ NoDouble text := by
  unfold NoDouble
  induction pre with
  | nil => rfl
  | cons c pre ih =>
    have hc : '-' ≠ c := fun heq => hpre (heq ▸ List.mem_cons_self)
    have hrest := ih fun hmem => hpre (List.mem_cons_of_mem _ hmem)
    rw [List.cons_append, List.infix_cons_iff, List.cons_prefix_cons, ← hrest]
    simp [hc]

theorem literal_dashes {text : List Char} :
    literal ['-', '-'] text = none ↔ ¬ ∃ rest, text = '-' :: '-' :: rest := by
  rw [literal_eq_none, not_iff_not]
  constructor
  · rintro ⟨rest, rfl⟩
    exact ⟨rest, rfl⟩
  · rintro ⟨rest, rfl⟩
    exact ⟨rest, rfl⟩

theorem spaceDashes_dashes (rest : List Char) :
    spaceDashes ('-' :: '-' :: rest) = ' ' :: '-' :: '-' :: spaceDashes rest :=
  subst_match (List.cons_ne_nil _ _) (literal_append ['-', '-'] rest)

/-- A text up to the next two hyphens in a row. -/
theorem exists_cut (text : List Char) :
    ∃ pre rest, text = pre ++ rest ∧ NoDouble pre ∧ spaceDashes text = pre ++ spaceDashes rest ∧
      (rest = [] ∨ (∃ rest', rest = '-' :: '-' :: rest') ∧ pre.getLast? ≠ some '-') := by
  induction text with
  | nil => exact ⟨[], [], rfl, by simp [NoDouble], rfl, Or.inl rfl⟩
  | cons c text ih =>
    by_cases hdashes : ∃ rest', c :: text = '-' :: '-' :: rest'
    · exact ⟨[], c :: text, rfl, by simp [NoDouble], rfl, Or.inr ⟨hdashes, nofun⟩⟩
    · obtain ⟨pre, rest, rfl, hpre, hspace, hrest⟩ := ih
      refine ⟨c :: pre, rest, rfl, ?_, ?_, ?_⟩
      · rw [NoDouble, List.infix_cons_iff, not_or]
        refine ⟨?_, hpre⟩
        rintro ⟨rest', hrest'⟩
        exact hdashes ⟨rest' ++ rest, by rw [← List.cons_append, ← hrest']; rfl⟩
      · rw [spaceDashes, subst_cons (literal_dashes.mpr hdashes), List.cons_append]
        exact congrArg (c :: ·) hspace
      · refine hrest.imp_right fun ⟨⟨rest', hrest'⟩, hlast⟩ => ⟨⟨rest', hrest'⟩, ?_⟩
        cases pre with
        | nil =>
          rintro ⟨⟩
          exact hdashes ⟨'-' :: rest', by rw [hrest']; rfl⟩
        | cons d pre => rwa [List.getLast?_cons_cons]

/-! ## One option for each name -/

namespace DnsName

variable (name : DnsName)

theorem hyphen_not_mem : '-' ∉ flag := by decide

theorem isBlank_option : ∀ c ∈ name.option, isBlank c = false := by
  intro c hc
  have hflag : ('-' :: '-' :: flag).all (fun c => !isBlank c) = true := by decide
  rw [option, ← List.cons_append, ← List.cons_append] at hc
  rcases List.mem_append.mp hc with hc | hc
  · simpa using List.all_eq_true.mp hflag c hc
  · have hname := name.admissible c hc
    by_contra hblank
    rw [Bool.not_eq_false] at hblank
    simp only [isBlank, Bool.or_eq_true, decide_eq_true_iff, or_assoc] at hblank
    rcases hblank with rfl | rfl | rfl <;> exact absurd hname (by decide)

theorem getLast?_option : (flag ++ name.chars).getLast? = name.chars.getLast? := by
  rw [List.getLast?_append, List.getLast?_eq_some_getLast name.nonempty]
  rfl

end DnsName

/-- The options of the names, one after the other. -/
def joined (names : List DnsName) : List Char := names.flatMap DnsName.option

theorem dropLast_cons_of_ne_nil {name : DnsName} {names : List DnsName} (h : names ≠ []) :
    (name :: names).dropLast = name :: names.dropLast := by
  obtain ⟨name', names, rfl⟩ := List.exists_cons_of_ne_nil h
  rfl

theorem separable_cons {name : DnsName} {names : List DnsName} :
    Separable (name :: names) ↔ NoDouble name.chars ∧
      (names ≠ [] → name.chars.getLast? ≠ some '-') ∧ Separable names := by
  constructor
  · intro h
    refine ⟨h.single _ List.mem_cons_self, fun hne => h.closed _ ?_,
      fun x hx => h.single x (List.mem_cons_of_mem _ hx), fun x hx => h.closed x ?_⟩
    · rw [dropLast_cons_of_ne_nil hne]
      exact List.mem_cons_self
    · have hne : names ≠ [] := by
        rintro rfl
        cases hx
      rw [dropLast_cons_of_ne_nil hne]
      exact List.mem_cons_of_mem _ hx
  · rintro ⟨hsingle, hclosed, h⟩
    constructor
    · intro x hx
      rcases List.mem_cons.mp hx with rfl | hx
      · exact hsingle
      · exact h.single x hx
    · intro x hx
      by_cases hne : names = []
      · subst hne
        cases hx
      · rw [dropLast_cons_of_ne_nil hne] at hx
        rcases List.mem_cons.mp hx with rfl | hx
        · exact hclosed hne
        · exact h.closed x hx

theorem joined_starts {names : List DnsName} (h : names ≠ []) :
    ∃ rest, joined names = '-' :: '-' :: rest := by
  obtain ⟨name, names, rfl⟩ := List.exists_cons_of_ne_nil h
  exact ⟨_, rfl⟩

/-- In a name that ends with another character and has no two hyphens in a row there
is no match. -/
theorem spaceDashes_option {name : DnsName} {names : List DnsName} (hsingle : NoDouble name.chars)
    (hclosed : names ≠ [] → name.chars.getLast? ≠ some '-') :
    spaceDashes (joined (name :: names)) = ' ' :: (name.option ++ spaceDashes (joined names)) := by
  have hjoined : joined (name :: names)
      = '-' :: '-' :: ((flag ++ name.chars) ++ joined names) := rfl
  rw [hjoined, spaceDashes_dashes, spaceDashes, subst_keep]
  · rfl
  · rintro suf hne ⟨pre, hsuf⟩
    refine literal_dashes.mpr ?_
    rintro ⟨rest, hrest⟩
    have hno := (noDouble_append DnsName.hyphen_not_mem).mpr hsingle
    cases suf with
    | nil => exact hne rfl
    | cons c suf =>
      rw [List.cons_append, List.cons.injEq] at hrest
      obtain ⟨rfl, hrest⟩ := hrest
      cases suf with
      | nil =>
        -- the hyphen is the last character of the name
        have hnames : names ≠ [] := by
          rintro rfl
          cases hrest
        refine hclosed hnames ?_
        rw [← name.getLast?_option, ← hsuf]
        simp
      | cons d suf =>
        rw [List.cons_append, List.cons.injEq] at hrest
        obtain ⟨rfl, -⟩ := hrest
        exact hno ⟨pre, suf, by rw [← hsuf]; simp⟩

/-- The words are the options just for names that are left as they are. -/
theorem splitWords_joined_iff (names : List DnsName) :
    splitWords (spaceDashes (joined names)) = names.map DnsName.option ↔ Separable names := by
  induction names with
  | nil => exact ⟨fun _ => ⟨nofun, nofun⟩, fun _ => rfl⟩
  | cons name names ih =>
    rw [separable_cons]
    constructor
    · intro h
      obtain ⟨pre, rest, htext, hpre, hspace, hrest⟩ :=
        exists_cut (flag ++ name.chars ++ joined names)
      have hjoined : spaceDashes (joined (name :: names))
          = ' ' :: (('-' :: '-' :: pre) ++ spaceDashes rest) := by
        rw [List.cons_append, List.cons_append, ← hspace, ← spaceDashes_dashes]
        rfl
      have hnext : spaceDashes rest = [] ∨ ∃ rest', spaceDashes rest = ' ' :: rest' := by
        rcases hrest with rfl | ⟨⟨rest', rfl⟩, -⟩
        · exact Or.inl rfl
        · exact Or.inr ⟨_, spaceDashes_dashes rest'⟩
      have hchars : ∀ c ∈ '-' :: '-' :: pre, isBlank c = false := by
        intro c hc
        have hall : c ∈ joined (name :: names) := by
          change c ∈ '-' :: '-' :: (flag ++ name.chars ++ joined names)
          rw [htext]
          simp only [List.mem_cons, List.mem_append] at hc ⊢
          tauto
        obtain ⟨x, -, hx⟩ := List.mem_flatMap.mp hall
        exact x.isBlank_option c hx
      rw [hjoined, splitWords_blank, splitWords_word (List.cons_ne_nil _ _) hchars hnext,
        List.map_cons, List.cons.injEq] at h
      obtain ⟨hword, hwords⟩ := h
      obtain rfl : pre = flag ++ name.chars := by simpa [DnsName.option] using hword
      obtain rfl : joined names = rest := List.append_cancel_left htext
      refine ⟨(noDouble_append DnsName.hyphen_not_mem).mp hpre, fun hne => ?_, ih.mp hwords⟩
      rcases hrest with hnil | ⟨-, hlast⟩
      · obtain ⟨rest, hdashes⟩ := joined_starts hne
        rw [hnil] at hdashes
        cases hdashes
      · rwa [name.getLast?_option] at hlast
    · rintro ⟨hsingle, hclosed, hnames⟩
      have hnext : spaceDashes (joined names) = [] ∨
          ∃ rest', spaceDashes (joined names) = ' ' :: rest' := by
        by_cases hne : names = []
        · subst hne
          exact Or.inl rfl
        · obtain ⟨rest, hrest⟩ := joined_starts hne
          exact Or.inr ⟨_, by rw [hrest, spaceDashes_dashes]⟩
      have hne : name.option ≠ [] := List.cons_ne_nil _ _
      have hword := splitWords_word hne name.isBlank_option hnext
      rw [spaceDashes_option hsingle hclosed, splitWords_blank, hword, ih.mpr hnames, List.map_cons]

/-! ## The value of the variable -/

/-- Elements without the one that is replaced stay. -/
theorem flatMap_keep {x : Char} {repl text : List Char} (h : x ∉ text) :
    (text.flatMap fun y => if y = x then repl else [y]) = text := by
  induction text with
  | nil => rfl
  | cons y text ih =>
    have hy : y ≠ x := fun heq => h (heq ▸ List.mem_cons_self)
    rw [List.flatMap_cons, if_neg hy, ih fun hmem => h (List.mem_cons_of_mem _ hmem)]
    rfl

theorem DnsName.isNameChar_ne {name : DnsName} {c : Char} (hc : isNameChar c = false) :
    c ∉ name.chars := fun hmem => by
  rw [name.admissible c hmem] at hc
  cases hc

theorem fqdns_cons_cons (name name' : DnsName) (names : List DnsName) :
    fqdns (name :: name' :: names) = name.chars ++ ',' :: fqdns (name' :: names) := by
  simp [fqdns, List.intercalate]

/-- Each comma and the name after it become an option. -/
theorem subst_comma (name : DnsName) (names : List DnsName) :
    subst (literal [',']) ('-' :: '-' :: flag) (',' :: fqdns (name :: names))
      = joined (name :: names) := by
  induction names generalizing name with
  | nil =>
    have hkeep := @flatMap_keep ',' ('-' :: '-' :: flag) name.chars (DnsName.isNameChar_ne rfl)
    rw [subst_singleton, List.flatMap_cons, if_pos rfl]
    simp [fqdns, hkeep, joined, DnsName.option]
  | cons name' names ih =>
    have hkeep := @flatMap_keep ',' ('-' :: '-' :: flag) name.chars (DnsName.isNameChar_ne rfl)
    have hih := ih name'
    rw [subst_singleton] at hih ⊢
    rw [fqdns_cons_cons, List.flatMap_cons, if_pos rfl, List.flatMap_append, hkeep, hih]
    simp [joined, DnsName.option]

theorem mem_fqdns {names : List DnsName} {c : Char} (h : c ∈ fqdns names) :
    isNameChar c = true ∨ c = ',' := by
  induction names with
  | nil => cases h
  | cons name names ih =>
    cases names with
    | nil =>
      rw [fqdns, List.map_singleton, List.intercalate_singleton] at h
      exact Or.inl (name.admissible c h)
    | cons name' names =>
      rw [fqdns_cons_cons, List.mem_append, List.mem_cons] at h
      rcases h with h | rfl | h
      · exact Or.inl (name.admissible c h)
      · exact Or.inr rfl
      · exact ih h

theorem isBlank_fqdns {names : List DnsName} {c : Char} (h : c ∈ fqdns names) :
    isBlank c = false := by
  by_contra hblank
  rw [Bool.not_eq_false] at hblank
  simp only [isBlank, Bool.or_eq_true, decide_eq_true_iff, or_assoc] at hblank
  rcases hblank with rfl | rfl | rfl <;> exact absurd (mem_fqdns h) (by decide)

theorem fqdns_ne_nil (name : DnsName) (names : List DnsName) : fqdns (name :: names) ≠ [] := by
  cases names with
  | nil =>
    rw [fqdns, List.map_singleton, List.intercalate_singleton]
    exact name.nonempty
  | cons name' names =>
    rw [fqdns_cons_cons]
    simp

theorem splitWords_newline (text : List Char) : splitWords (text ++ ['\n']) = splitWords text := by
  rw [splitWords, List.splitOnP_append_cons _ _ rfl]
  simp [List.splitOnP_nil, splitWords]

/-- The newlines that `$(…)` drops make no difference to the words. -/
theorem splitWords_commandSubstitution (output : List Char) :
    splitWords (commandSubstitution output) = splitWords output := by
  rw [commandSubstitution]
  induction output using List.reverseRecOn with
  | nil => rfl
  | append_singleton output c ih =>
    by_cases hc : c = '\n'
    · subst hc
      rw [List.rdropWhile_concat_pos _ _ _ (by simp), ih, splitWords_newline]
    · rw [List.rdropWhile_concat_neg _ _ _ (by simpa using hc)]

theorem lines_newline {text : List Char} (h : '\n' ∉ text) : lines (text ++ ['\n']) = [text] := by
  have hsplit : (text ++ ['\n']).splitOn '\n' = [text, []] := by
    rw [List.splitOn_append_cons_self_of_not_mem h]
    rfl
  rw [lines, hsplit]
  rfl

/-- The one word that is echoed comes through the pipe as it is. -/
theorem words_of_echo {text : List Char} (h : '\n' ∉ text) :
    splitWords (commandSubstitution (sed domainScript (text ++ ['\n'])))
      = splitWords (domainScript text) := by
  rw [splitWords_commandSubstitution, sed, lines_newline h, List.flatMap_singleton,
    splitWords_newline]

theorem echo_eq (word : List Char) :
    echo [word] = if isEchoOption word then (if 'n' ∈ word then [] else ['\n'])
      else word ++ ['\n'] := by
  cases hoption : isEchoOption word <;> simp [echo, hoption]

/-- The shell reads one option for each name, in order, just if the names are left as
they are and `echo` prints them. -/
theorem domains_iff (name : DnsName) (names : List DnsName) :
    splitWords (certificateDomainOpts (fqdns (name :: names)))
        = (name :: names).map DnsName.option ↔
      Separable (name :: names) ∧ isEchoOption (fqdns (name :: names)) = false := by
  have hword : splitWords (fqdns (name :: names)) = [fqdns (name :: names)] := by
    have := splitWords_word (fqdns_ne_nil name names) (fun c hc => isBlank_fqdns hc) (Or.inl rfl)
    rwa [List.append_nil] at this
  have hnewline : '\n' ∉ fqdns (name :: names) := fun hmem => by
    have := isBlank_fqdns hmem
    cases this
  rw [certificateDomainOpts, hword, echo_eq]
  cases hoption : isEchoOption (fqdns (name :: names)) with
  | false =>
    rw [if_neg Bool.false_ne_true, words_of_echo hnewline, domainScript, subst_comma,
      splitWords_joined_iff]
    simp
  | true =>
    -- without a name there is no option, or one without a value
    rw [if_pos rfl]
    refine iff_of_false (fun h => ?_) (by simp)
    split at h
    · cases h
    · have hempty : splitWords (commandSubstitution (sed domainScript ['\n']))
          = ['-' :: '-' :: flag] := by decide
      rw [hempty, List.map_cons, List.cons.injEq] at h
      have hchars : name.chars = [] := by simpa [DnsName.option] using h.1
      exact name.nonempty hchars

/-- A name with a punycode label. -/
def punycodeName : DnsName where
  chars := "xn--a.example".toList
  nonempty := by decide +kernel
  admissible := List.all_eq_true.mp (by decide +kernel)

/-- The name is read as two words, and the option has the first half of it. -/
theorem punycode_cut :
    splitWords (certificateDomainOpts (fqdns [punycodeName]))
        = ["--domains=xn".toList, "--a.example".toList] ∧
      ¬ splitWords (certificateDomainOpts (fqdns [punycodeName]))
        = [punycodeName].map DnsName.option := by
  decide +kernel

end Kolla.LetsEncrypt
