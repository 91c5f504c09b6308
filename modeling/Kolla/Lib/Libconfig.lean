import Mathlib

/-!
# Reading libconfig files

The part of libconfig's grammar that files of scalars, groups and lists
need.  `lex` turns a text into tokens: a string stands between double
quotes, and in it a backslash starts one of the escapes
`\a \b \f \n \r \t \v \\ \" \xHH` or stands for itself.  `parse` reads the
tokens: adjacent strings are one string, groups stand in braces, lists in
parentheses, a setting may end in `;` or `,`, and no group names a setting
twice.  Arrays, hexadecimal, 64-bit and floating-point numbers and
`@include` are refused.

Two results are for a writer of such files:

* `Lexes` says which tokens a piece of text adds wherever it stands, and
  the lemmas about it follow the pieces that a writer puts down;
* `clean_of_read`: if the strings read from a text are those that were put
  between its quotes, none of them contains a quote or an escape.  A reader
  that misses a closing quote is ahead of the writer from then on.
-/

namespace Kolla.Lib.Libconfig

/-! ## Tokens -/

inductive Token
  | name (s : List Char)
  | str (s : List Char)
  | int (n : ℤ)
  | bool (b : Bool)
  | assign
  | semicolon
  | comma
  | openBrace
  | closeBrace
  | openParen
  | closeParen
  deriving DecidableEq

def isSpace (c : Char) : Bool := c = ' ' || c = '\t' || c = '\n' || c = '\r' || c = '\x0c'

def isNameStart (c : Char) : Bool := c.isAlpha || c = '*'

def isNameChar (c : Char) : Bool := c.isAlpha || c.isDigit || c = '-' || c = '_' || c = '*'

/-- The value of a hexadecimal digit. -/
def hexDigit (c : Char) : Option ℕ :=
  if c.isDigit then some (c.toNat - 48)
  else if 'a' ≤ c ∧ c ≤ 'f' then some (c.toNat - 87)
  else if 'A' ≤ c ∧ c ≤ 'F' then some (c.toNat - 55)
  else none

/-- The escapes of one character. -/
def simpleEscape : Char → Option Char
  | 'a' => some '\x07'
  | 'b' => some '\x08'
  | 'f' => some '\x0c'
  | 'n' => some '\n'
  | 'r' => some '\r'
  | 't' => some '\t'
  | 'v' => some '\x0b'
  | '\\' => some '\\'
  | '"' => some '"'
  | _ => none

/-- `xHH` at the start of a text. -/
def hexEscape : List Char → Option Char
  | x :: a :: b :: _ =>
    if x = 'x' then do return Char.ofNat (16 * (← hexDigit a) + (← hexDigit b)) else none
  | _ => none

/-- What follows a backslash: the character it stands for and how many
characters that takes, or nothing. -/
def escape (cs : List Char) : Option (Char × ℕ) :=
  match cs with
  | [] => none
  | c :: _ =>
    match simpleEscape c with
    | some e => some (e, 1)
    | none => (hexEscape cs).map fun e => (e, 3)

/-- One character of a string, and how many more it takes. -/
def readChar (c : Char) (cs : List Char) : Char × ℕ :=
  if c = '\\' then (escape cs).getD (c, 0) else (c, 0)

/-- A string after its opening quote: its value, and how many characters it
takes, the closing quote included.  The first `n` characters belong to the
escape before them. -/
def readString : ℕ → List Char → Option (List Char × ℕ)
  | _, [] => none
  | n + 1, _ :: cs => (readString n cs).map fun r => (r.1, r.2 + 1)
  | 0, c :: cs =>
    if c = '"' then some ([], 1)
    else (readString (readChar c cs).2 cs).map fun r => ((readChar c cs).1 :: r.1, r.2 + 1)

/-- The length of a comment after `/*`, up to the end of an open one. -/
def commentLength : List Char → ℕ
  | [] => 0
  | '*' :: '/' :: _ => 2
  | _ :: cs => commentLength cs + 1

/-- The length of a comment after its first slash. -/
def slashComment : List Char → Option ℕ
  | '/' :: cs => some ((cs.takeWhile (· ≠ '\n')).length + 1)
  | '*' :: cs => some (commentLength cs + 1)
  | _ => none

/-- Names and the two booleans. -/
def word (s : List Char) : Token :=
  if s.map Char.toLower = ['t', 'r', 'u', 'e'] then .bool true
  else if s.map Char.toLower = ['f', 'a', 'l', 's', 'e'] then .bool false
  else .name s

/-- The digits of a number, with the sign put to it.  It may not go on in
another notation, and it has 32 bits. -/
def number (negative : Bool) (cs : List Char) : Option (Token × ℕ) :=
  let digits := cs.takeWhile Char.isDigit
  let n : ℤ := if negative then -Nat.ofDigitChars 10 digits 0 else Nat.ofDigitChars 10 digits 0
  let ends := match cs.drop digits.length with
    | [] => true
    | c :: _ => !(isNameChar c || c = '.')
  if digits ≠ [] ∧ ends = true ∧ -2 ^ 31 ≤ n ∧ n < 2 ^ 31 then some (.int n, digits.length)
  else none

def punctuation : Char → Option Token
  | '=' => some .assign
  | ':' => some .assign
  | ';' => some .semicolon
  | ',' => some .comma
  | '{' => some .openBrace
  | '}' => some .closeBrace
  | '(' => some .openParen
  | ')' => some .closeParen
  | _ => none

/-- What starts with `c`: a token, unless it is blank or a comment, and how
many characters of `cs` it takes. -/
def next (c : Char) (cs : List Char) : Option (Option Token × ℕ) :=
  if c = '"' then (readString 0 cs).map fun r => (some (.str r.1), r.2)
  else if isSpace c then some (none, 0)
  else if c = '#' then some (none, (cs.takeWhile (· ≠ '\n')).length)
  else if c = '/' then (slashComment cs).map fun n => (none, n)
  else if isNameStart c then
    some (some (word (c :: cs.takeWhile isNameChar)), (cs.takeWhile isNameChar).length)
  else if c.isDigit then (number false (c :: cs)).map fun r => (some r.1, r.2 - 1)
  else if c = '-' ∨ c = '+' then (number (c = '-') cs).map fun r => (some r.1, r.2)
  else (punctuation c).map fun t => (some t, 0)

/-- The tokens of a text, whose first `n` characters belong to the token
before it. -/
def lexFrom : ℕ → List Char → Option (List Token)
  | _, [] => some []
  | n + 1, _ :: cs => lexFrom n cs
  | 0, c :: cs =>
    match next c cs with
    | none => none
    | some (t, n) => (lexFrom n cs).map (t.toList ++ ·)

def lex (text : List Char) : Option (List Token) := lexFrom 0 text

/-! ## Strings -/

/-- What follows a backslash, up to the end of the string, makes an escape
with it.  At its end the backslash takes the closing quote. -/
def startsEscape : List Char → Bool
  | [] => true
  | c :: cs => (escape (c :: cs)).isSome

/-- No quote and no escape. -/
def Clean : List Char → Prop
  | [] => True
  | c :: cs => c ≠ '"' ∧ (c = '\\' → startsEscape cs = false) ∧ Clean cs

instance decidableClean : (v : List Char) → Decidable (Clean v)
  | [] => inferInstanceAs (Decidable True)
  | c :: cs =>
    have := decidableClean cs
    inferInstanceAs (Decidable (c ≠ '"' ∧ (c = '\\' → startsEscape cs = false) ∧ Clean cs))

theorem escape_pos {cs : List Char} {e : Char × ℕ} (h : escape cs = some e) : 0 < e.2 := by
  cases cs with
  | nil => cases h
  | cons c cs =>
    simp only [escape] at h
    split at h
    · cases h
      exact Nat.one_pos
    · obtain ⟨x, -, rfl⟩ := Option.map_eq_some_iff.mp h
      exact Nat.succ_pos 2

/-- The quote that closes a string ends no escape. -/
theorem escape_quote {body rest : List Char} :
    escape (body ++ '"' :: rest) = none ↔ startsEscape body = false := by
  have hhex : ∀ c cs, hexEscape (c :: cs ++ '"' :: rest) = hexEscape (c :: cs) := by
    intro c cs
    rcases cs with _ | ⟨a, _ | ⟨b, cs⟩⟩
    · cases rest <;> simp [hexEscape, hexDigit]
    · simp [hexEscape, hexDigit]
    · rfl
  cases body with
  | nil => simp [escape, simpleEscape, startsEscape]
  | cons c cs =>
    rw [startsEscape, Option.isSome_eq_false_iff, Option.isNone_iff_eq_none]
    simp only [List.cons_append, escape]
    rw [← List.cons_append, hhex]

/-- The string up to a closing quote, and what it takes.  It is never longer
than what it was read from, and as long only if it is the same and clean. -/
theorem readString_sound {n : ℕ} {cs : List Char} {r : List Char × ℕ}
    (h : readString n cs = some r) :
    ∃ body rest, cs = body ++ '"' :: rest ∧ r.2 = body.length + 1 ∧
      r.1.length + n ≤ body.length ∧ (r.1.length = body.length → r.1 = body ∧ Clean body) := by
  induction cs generalizing n r with
  | nil => cases n <;> cases h
  | cons c cs ih =>
    cases n with
    | succ n =>
      obtain ⟨r, hr, rfl⟩ := Option.map_eq_some_iff.mp h
      obtain ⟨body, rest, rfl, hk, hle, -⟩ := ih hr
      refine ⟨c :: body, rest, rfl, by simp [hk], by simp; omega, fun heq => ?_⟩
      simp at heq
      omega
    | zero =>
      by_cases hc : c = '"'
      · subst hc
        cases h
        exact ⟨[], cs, rfl, rfl, Nat.le_refl _, fun _ => ⟨rfl, trivial⟩⟩
      · rw [readString, if_neg hc] at h
        obtain ⟨r, hr, rfl⟩ := Option.map_eq_some_iff.mp h
        obtain ⟨body, rest, rfl, hk, hle, hclean⟩ := ih hr
        refine ⟨c :: body, rest, rfl, by simp [hk], by simp; omega, fun heq => ?_⟩
        simp only [List.length_cons, Nat.add_right_cancel_iff] at heq
        obtain ⟨hbody, hrest⟩ := hclean heq
        -- no escape started at `c`, or the value would be shorter
        have hnone : c = '\\' → escape (body ++ '"' :: rest) = none := by
          intro hb
          cases he : escape (body ++ '"' :: rest) with
          | none => rfl
          | some e =>
            have hpos := escape_pos he
            simp only [readChar, hb, if_true, he, Option.getD_some] at hle
            omega
        have hchar : (readChar c (body ++ '"' :: rest)).1 = c := by
          by_cases hb : c = '\\'
          · simp [readChar, hb, hnone hb]
          · simp [readChar, hb]
        refine ⟨?_, hc, fun hb => escape_quote.mp (hnone hb), hrest⟩
        rw [hchar, hbody]

/-- A clean string reads back. -/
theorem readString_clean {v : List Char} (h : Clean v) (rest : List Char) :
    readString 0 (v ++ '"' :: rest) = some (v, v.length + 1) := by
  induction v with
  | nil => rfl
  | cons c cs ih =>
    obtain ⟨hq, hb, hcs⟩ := h
    have hchar : readChar c (cs ++ '"' :: rest) = (c, 0) := by
      by_cases hc : c = '\\'
      · simp [readChar, hc, escape_quote.mpr (hb hc)]
      · simp [readChar, hc]
    rw [List.cons_append, readString, if_neg hq, hchar, ih hcs]
    rfl

/-! ## Pieces of text -/

/-- Wherever the text stands, it adds these tokens. -/
def Lexes (text : List Char) (tokens : List Token) : Prop :=
  ∀ rest, lex (text ++ rest) = (lex rest).map (tokens ++ ·)

/-- The name of a setting. -/
def isName : List Char → Bool
  | [] => false
  | c :: cs => isNameStart c && cs.all isNameChar && word (c :: cs) = .name (c :: cs)

theorem lexFrom_skip (taken rest : List Char) : lexFrom taken.length (taken ++ rest) = lex rest := by
  induction taken with
  | nil => rfl
  | cons c cs ih =>
    change lexFrom cs.length (cs ++ rest) = _
    exact ih

theorem lex_cons {c : Char} {taken rest : List Char} {t : Option Token}
    (h : next c (taken ++ rest) = some (t, taken.length)) :
    lex (c :: (taken ++ rest)) = (lex rest).map (t.toList ++ ·) := by
  rw [lex, lexFrom, h]
  exact congrArg (Option.map (t.toList ++ ·)) (lexFrom_skip taken rest)

theorem Lexes.nil : Lexes [] [] := by
  intro rest
  simp

theorem Lexes.append {text text' : List Char} {tokens tokens' : List Token}
    (h : Lexes text tokens) (h' : Lexes text' tokens') :
    Lexes (text ++ text') (tokens ++ tokens') := by
  intro rest
  rw [List.append_assoc, h, h', Option.map_map]
  simp [Function.comp_def]

theorem Lexes.lex {text : List Char} {tokens : List Token} (h : Lexes text tokens) :
    lex text = some tokens := by
  have := h []
  simpa [Libconfig.lex, lexFrom] using this

theorem Lexes.char {c : Char} {t : Option Token} (h : ∀ rest, next c rest = some (t, 0)) :
    Lexes [c] t.toList := by
  intro rest
  have hnext : next c ([] ++ rest) = some (t, ([] : List Char).length) := h rest
  exact lex_cons hnext

theorem Lexes.space {c : Char} (h : isSpace c = true) : Lexes [c] [] := by
  refine Lexes.char (t := none) fun rest => ?_
  have hq : c ≠ '"' := by
    rintro rfl
    cases h
  simp [next, hq, h]

/-- The tokens of a text of blanks and punctuation. -/
def marks : List Char → Option (List Token)
  | [] => some []
  | c :: cs => if isSpace c then marks cs else do return (← punctuation c) :: (← marks cs)

theorem Lexes.marks {text : List Char} {tokens : List Token}
    (h : Libconfig.marks text = some tokens) : Lexes text tokens := by
  induction text generalizing tokens with
  | nil =>
    cases h
    exact Lexes.nil
  | cons c cs ih =>
    rw [Libconfig.marks] at h
    split at h
    · rename_i hspace
      exact (Lexes.space hspace).append (ih h)
    · obtain ⟨t, ht, h⟩ := Option.bind_eq_some_iff.mp h
      obtain ⟨ts, hts, h⟩ := Option.bind_eq_some_iff.mp h
      cases h
      have hnext : ∀ rest, next c rest = some (some t, 0) := by
        intro rest
        unfold punctuation at ht
        split at ht <;> cases ht <;> rfl
      exact (Lexes.char hnext).append (ih hts)

/-- A clean string between its quotes. -/
theorem Lexes.str {v : List Char} (h : Clean v) : Lexes ('"' :: (v ++ ['"'])) [.str v] := by
  intro rest
  have hread := readString_clean h rest
  have hnext : next '"' (v ++ ['"'] ++ rest) = some (some (.str v), (v ++ ['"']).length) := by
    rw [List.append_assoc, List.singleton_append, next, if_pos rfl, hread]
    simp
  exact lex_cons hnext

theorem takeWhile_stop {p : Char → Bool} {body rest : List Char} {c : Char}
    (hbody : ∀ d ∈ body, p d = true) (hc : p c = false) :
    (body ++ c :: rest).takeWhile p = body := by
  rw [List.takeWhile_append_of_pos hbody, List.takeWhile_cons_of_neg (by simp [hc]), List.append_nil]

/-- What a name starts with starts nothing else. -/
theorem next_nameStart {c : Char} (h : isNameStart c = true) (cs : List Char) :
    next c cs = some (some (word (c :: cs.takeWhile isNameChar)),
      (cs.takeWhile isNameChar).length) := by
  have hne : ∀ d, isNameStart d = false → c ≠ d := by
    rintro d hd rfl
    rw [hd] at h
    cases h
  have hspace : isSpace c = false := by
    simp only [isSpace, Bool.or_eq_false_iff, decide_eq_false_iff_not]
    exact ⟨⟨⟨⟨hne _ rfl, hne _ rfl⟩, hne _ rfl⟩, hne _ rfl⟩, hne _ rfl⟩
  rw [next, if_neg (hne _ rfl), if_neg (by simp [hspace]), if_neg (hne _ rfl), if_neg (hne _ rfl),
    if_pos h]

/-- A word and the blank after it. -/
theorem Lexes.word {c d : Char} {cs : List Char} (hc : isNameStart c = true)
    (hcs : ∀ e ∈ cs, isNameChar e = true) (hd : isSpace d = true) :
    Lexes (c :: cs ++ [d]) [Libconfig.word (c :: cs)] := by
  have hstop : isNameChar d = false := by
    simp only [isSpace, Bool.or_eq_true, decide_eq_true_eq] at hd
    rcases hd with (((rfl | rfl) | rfl) | rfl) | rfl <;> rfl
  intro rest
  have htake : (cs ++ (d :: rest)).takeWhile isNameChar = cs := takeWhile_stop hcs hstop
  have hnext : next c (cs ++ (d :: rest)) = some (some (Libconfig.word (c :: cs)), cs.length) := by
    rw [next_nameStart hc, htake]
  have hlex := lex_cons hnext
  have hspace := Lexes.space hd rest
  simp only [List.cons_append, List.append_assoc, List.nil_append] at hlex hspace ⊢
  rw [hlex, hspace, Option.map_map]
  rfl

theorem Lexes.name {s : List Char} {d : Char} (hs : isName s = true) (hd : isSpace d = true) :
    Lexes (s ++ [d]) [.name s] := by
  cases s with
  | nil => cases hs
  | cons c cs =>
    simp only [isName, Bool.and_eq_true, List.all_eq_true, decide_eq_true_eq] at hs
    rw [← hs.2]
    exact Lexes.word hs.1.1 hs.1.2 hd

/-- The digits of a number, followed by a blank. -/
theorem number_digits {negative : Bool} {m : ℕ} {n : ℤ} {d : Char} (rest : List Char)
    (hn : n = if negative then -(m : ℤ) else (m : ℤ)) (hrange : -2 ^ 31 ≤ n ∧ n < 2 ^ 31)
    (hd : isSpace d = true) :
    number negative (Nat.toDigits 10 m ++ d :: rest) =
      some (.int n, (Nat.toDigits 10 m).length) := by
  have hdigit : Char.isDigit d = false ∧ isNameChar d = false ∧ d ≠ '.' := by
    simp only [isSpace, Bool.or_eq_true, decide_eq_true_eq] at hd
    rcases hd with (((rfl | rfl) | rfl) | rfl) | rfl <;> decide
  have htake : (Nat.toDigits 10 m ++ d :: rest).takeWhile Char.isDigit = Nat.toDigits 10 m :=
    takeWhile_stop (fun c hc => Nat.isDigit_of_mem_toDigits (by decide) (by decide) hc) hdigit.1
  subst hn
  simp only [number, htake, List.drop_left, Nat.ofDigitChars_ten_toDigits]
  rw [if_pos]
  exact ⟨Nat.toDigits_ne_nil, by simp [hdigit.2.1, hdigit.2.2], hrange⟩

/-- What a digit starts is a number. -/
theorem next_digit {c : Char} (h : c.isDigit = true) (cs : List Char) :
    next c cs = (number false (c :: cs)).map fun r => (some r.1, r.2 - 1) := by
  have hne : ∀ d : Char, d.isDigit = false → c ≠ d := by
    rintro d hd rfl
    rw [hd] at h
    cases h
  have hspace : isSpace c = false := by
    simp only [isSpace, Bool.or_eq_false_iff, decide_eq_false_iff_not]
    exact ⟨⟨⟨⟨hne _ rfl, hne _ rfl⟩, hne _ rfl⟩, hne _ rfl⟩, hne _ rfl⟩
  have hstart : isNameStart c = false := by
    simp only [isNameStart, Bool.or_eq_false_iff, decide_eq_false_iff_not]
    refine ⟨?_, hne _ rfl⟩
    simp only [Char.isDigit, Char.isAlpha, Char.isUpper, Char.isLower, Bool.and_eq_true,
      decide_eq_true_eq, Bool.or_eq_false_iff, Bool.and_eq_false_iff, decide_eq_false_iff_not,
      ge_iff_le, UInt32.le_iff_toNat_le] at h ⊢
    have h9 : '9'.val.toNat = 57 := rfl
    have hA : 'A'.val.toNat = 65 := rfl
    have ha : 'a'.val.toNat = 97 := rfl
    omega
  rw [next, if_neg (hne _ rfl), if_neg (by simp [hspace]), if_neg (hne _ rfl), if_neg (hne _ rfl),
    if_neg (by simp [hstart]), if_pos h]

/-- A number and the blank after it. -/
theorem Lexes.int {n : ℤ} {d : Char} (hrange : -2 ^ 31 ≤ n ∧ n < 2 ^ 31) (hd : isSpace d = true) :
    Lexes ((toString n).toList ++ [d]) [.int n] := by
  intro rest
  have hspace := Lexes.space hd rest
  cases n with
  | ofNat m =>
    have hnum : number false (Nat.toDigits 10 m ++ d :: rest) = _ :=
      number_digits rest (m := m) rfl hrange hd
    have htext : (toString (Int.ofNat m)).toList = Nat.toDigits 10 m := Nat.toList_repr
    rw [htext]
    cases hdigits : Nat.toDigits 10 m with
    | nil => exact absurd hdigits Nat.toDigits_ne_nil
    | cons c cs =>
      have hc : c.isDigit = true :=
        Nat.isDigit_of_mem_toDigits (b := 10) (n := m) (by decide) (by decide)
          (hdigits ▸ List.mem_cons_self)
      rw [hdigits] at hnum
      have hnext : next c (cs ++ (d :: rest)) = some (some (.int m), cs.length) := by
        rw [next_digit hc, ← List.cons_append, hnum]
        rfl
      have hlex := lex_cons hnext
      simp only [List.cons_append, List.append_assoc, List.nil_append] at hlex hspace ⊢
      rw [hlex, hspace, Option.map_map]
      rfl
  | negSucc m =>
    have hnum : number true (Nat.toDigits 10 (m + 1) ++ d :: rest) = _ :=
      number_digits rest (m := m + 1) (n := Int.negSucc m) rfl hrange hd
    have htext : (toString (Int.negSucc m)).toList = '-' :: Nat.toDigits 10 (m + 1) := by
      change ("-" ++ (m + 1).repr).toList = _
      rw [String.toList_append, Nat.toList_repr]
      rfl
    have hnext : next '-' (Nat.toDigits 10 (m + 1) ++ (d :: rest)) =
        some (some (.int (Int.negSucc m)), (Nat.toDigits 10 (m + 1)).length) := by
      change (number true _).map _ = _
      rw [hnum]
      rfl
    have hlex := lex_cons hnext
    rw [htext]
    simp only [List.cons_append, List.append_assoc, List.nil_append] at hlex hspace ⊢
    rw [hlex, hspace, Option.map_map]
    rfl

/-! ## Settings -/

inductive Scalar
  | str (s : List Char)
  | int (n : ℤ)
  | bool (b : Bool)
  deriving DecidableEq

/-- The value of a setting. -/
inductive Setting
  | scalar (s : Scalar)
  | group (members : List (List Char × Setting))
  | list (items : List Setting)

/-- The strings that follow a string. -/
def moreStrings : List Token → List Char × List Token
  | .str s :: tokens => (s ++ (moreStrings tokens).1, (moreStrings tokens).2)
  | tokens => ([], tokens)

/-- The end of a setting. -/
def dropEnd : List Token → List Token
  | .semicolon :: tokens => tokens
  | .comma :: tokens => tokens
  | tokens => tokens

mutual

/-- Settings with distinct names, as many as follow. -/
def parseMembers : ℕ → List Token → Option (List (List Char × Setting) × List Token)
  | 0, _ => none
  | fuel + 1, tokens =>
    match tokens with
    | .name k :: .assign :: tokens =>
      (parseValue fuel tokens).bind fun value =>
        (parseMembers fuel (dropEnd value.2)).bind fun more =>
          if k ∈ more.1.map Prod.fst then none else some ((k, value.1) :: more.1, more.2)
    | tokens => some ([], tokens)

def parseValue : ℕ → List Token → Option (Setting × List Token)
  | 0, _ => none
  | fuel + 1, tokens =>
    match tokens with
    | .openBrace :: tokens =>
      (parseMembers fuel tokens).bind fun members =>
        match members.2 with
        | .closeBrace :: tokens => some (.group members.1, tokens)
        | _ => none
    | .openParen :: tokens => (parseItems fuel tokens).map fun r => (.list r.1, r.2)
    | .str s :: tokens =>
      some (.scalar (.str (s ++ (moreStrings tokens).1)), (moreStrings tokens).2)
    | .int n :: tokens => some (.scalar (.int n), tokens)
    | .bool b :: tokens => some (.scalar (.bool b), tokens)
    | _ => none

/-- The items of a list, up to its closing parenthesis. -/
def parseItems : ℕ → List Token → Option (List Setting × List Token)
  | 0, _ => none
  | fuel + 1, tokens =>
    match tokens with
    | .closeParen :: tokens => some ([], tokens)
    | tokens =>
      (parseValue fuel tokens).bind fun value =>
        match value.2 with
        | .comma :: tokens => (parseItems fuel tokens).map fun r => (value.1 :: r.1, r.2)
        | .closeParen :: tokens => some ([value.1], tokens)
        | _ => none

end

/-- The settings of a file. -/
def parse (text : List Char) : Option (List (List Char × Setting)) :=
  (lex text).bind fun tokens =>
    (parseMembers (tokens.length + 1) tokens).bind fun r => if r.2 = [] then some r.1 else none

/-! ## The strings of a file -/

def Scalar.strings : Scalar → List (List Char)
  | .str s => [s]
  | _ => []

mutual

/-- The strings of a value, in the order of the file. -/
def Setting.strings : Setting → List (List Char)
  | .scalar s => s.strings
  | .group members => memberStrings members
  | .list items => itemStrings items

def memberStrings : List (List Char × Setting) → List (List Char)
  | [] => []
  | (_, value) :: members => value.strings ++ memberStrings members

def itemStrings : List Setting → List (List Char)
  | [] => []
  | item :: items => item.strings ++ itemStrings items

end

/-- The string of a token. -/
def Token.str? : Token → Option (List Char)
  | .str s => some s
  | _ => none

/-- The strings in a list of tokens. -/
def strs (tokens : List Token) : List (List Char) := tokens.filterMap Token.str?

/-- The first list spells the second one: each string is put together from
one or more tokens. -/
inductive Spells : List (List Char) → List (List Char) → Prop
  | nil : Spells [] []
  | cons {words strings : List (List Char)} {v : List Char} (w : List Char)
      (more : List (List Char)) (hv : w ++ more.flatten = v) (h : Spells words strings) :
      Spells (w :: more ++ words) (v :: strings)

theorem Spells.append {words words' strings strings' : List (List Char)} (h : Spells words strings)
    (h' : Spells words' strings') : Spells (words ++ words') (strings ++ strings') := by
  induction h with
  | nil => exact h'
  | cons w more hv h ih =>
    rw [List.append_assoc, List.cons_append]
    exact Spells.cons w more hv ih

section Took

variable {t : Token} {tokens tokens' rest : List Token} {strings strings' : List (List Char)}

/-- From `tokens` to `rest` these strings are spelled. -/
def Took (tokens rest : List Token) (strings : List (List Char)) : Prop :=
  ∃ words, strs tokens = words ++ strs rest ∧ Spells words strings

theorem Took.refl : Took tokens tokens [] := ⟨[], rfl, .nil⟩

theorem Took.trans (h : Took tokens tokens' strings) (h' : Took tokens' rest strings') :
    Took tokens rest (strings ++ strings') := by
  obtain ⟨words, hw, hs⟩ := h
  obtain ⟨words', hw', hs'⟩ := h'
  exact ⟨words ++ words', by rw [hw, hw', List.append_assoc], hs.append hs'⟩

/-- A token that is no string. -/
theorem Took.skip (ht : t.str? = none) (h : Took tokens rest strings) :
    Took (t :: tokens) rest strings := by
  obtain ⟨words, hw, hs⟩ := h
  exact ⟨words, by rw [← hw, strs, List.filterMap_cons_none ht, strs], hs⟩

theorem took_dropEnd : Took tokens (dropEnd tokens) [] := by
  rcases tokens with _ | ⟨t, tokens⟩
  · exact Took.refl
  · cases t with
    | semicolon => exact Took.refl.skip rfl
    | comma => exact Took.refl.skip rfl
    | _ => exact Took.refl

theorem took_moreStrings (s : List Char) :
    Took (.str s :: tokens) (moreStrings tokens).2 [s ++ (moreStrings tokens).1] := by
  have hmore : ∀ tokens : List Token, ∃ more : List (List Char),
      strs tokens = more ++ strs (moreStrings tokens).2 ∧ more.flatten = (moreStrings tokens).1 := by
    intro tokens
    induction tokens with
    | nil => exact ⟨[], rfl, rfl⟩
    | cons t tokens ih =>
      cases t with
      | str w =>
        obtain ⟨more, hm, hf⟩ := ih
        refine ⟨w :: more, ?_, ?_⟩
        · change w :: strs tokens = _
          rw [hm]
          rfl
        · rw [List.flatten_cons, hf]
          rfl
      | _ => exact ⟨[], rfl, rfl⟩
  obtain ⟨more, hm, hf⟩ := hmore tokens
  refine ⟨s :: more, ?_, ?_⟩
  · change s :: strs tokens = _
    rw [hm]
    rfl
  · have := Spells.cons s more (congrArg (s ++ ·) hf) .nil
    rwa [List.append_nil] at this

/-- The parser passes over no string: the strings of what it returns are
spelled by the tokens that it took. -/
theorem parse_took (fuel : ℕ) :
    (∀ tokens r, parseMembers fuel tokens = some r → Took tokens r.2 (memberStrings r.1)) ∧
    (∀ tokens r, parseValue fuel tokens = some r → Took tokens r.2 r.1.strings) ∧
    (∀ tokens r, parseItems fuel tokens = some r → Took tokens r.2 (itemStrings r.1)) := by
  induction fuel with
  | zero =>
    refine ⟨fun _ _ h => ?_, fun _ _ h => ?_, fun _ _ h => ?_⟩
    · cases h
    · cases h
    · cases h
  | succ fuel ih =>
    obtain ⟨ihm, ihv, ihi⟩ := ih
    refine ⟨fun tokens r h => ?_, fun tokens r h => ?_, fun tokens r h => ?_⟩
    · unfold parseMembers at h
      split at h
      · obtain ⟨value, hvalue, h⟩ := Option.bind_eq_some_iff.mp h
        obtain ⟨more, hmore, h⟩ := Option.bind_eq_some_iff.mp h
        split at h
        · cases h
        · cases h
          have htook := ((ihv _ _ hvalue).trans took_dropEnd).trans (ihm _ _ hmore)
          rw [List.append_nil] at htook
          exact (htook.skip rfl).skip rfl
      · cases h
        exact Took.refl
    · unfold parseValue at h
      split at h
      · obtain ⟨members, hmembers, h⟩ := Option.bind_eq_some_iff.mp h
        split at h
        · rename_i rest hrest
          cases h
          have htook := (ihm _ _ hmembers).trans (hrest ▸ Took.refl.skip rfl : Took _ rest [])
          rw [List.append_nil] at htook
          exact htook.skip rfl
        · cases h
      · obtain ⟨items, hitems, h⟩ := Option.map_eq_some_iff.mp h
        cases h
        exact (ihi _ _ hitems).skip rfl
      · cases h
        exact took_moreStrings _
      · cases h
        exact Took.refl.skip rfl
      · cases h
        exact Took.refl.skip rfl
      · cases h
    · unfold parseItems at h
      split at h
      · cases h
        exact Took.refl.skip rfl
      · obtain ⟨value, hvalue, h⟩ := Option.bind_eq_some_iff.mp h
        split at h
        · rename_i rest hrest
          obtain ⟨items, hitems, h⟩ := Option.map_eq_some_iff.mp h
          cases h
          exact (ihv _ _ hvalue).trans (hrest ▸ (ihi _ _ hitems).skip rfl)
        · rename_i rest hrest
          cases h
          have htook := (ihv _ _ hvalue).trans (hrest ▸ Took.refl.skip rfl : Took _ rest [])
          exact htook
        · cases h

end Took

/-! ## Strings that keep their quotes -/

/-- The strings that stand between the quotes of a text. -/
inductive Quoted : List Char → List (List Char) → Prop
  | plain {gap : List Char} (hgap : '"' ∉ gap) : Quoted gap []
  | str {gap text : List Char} {strings : List (List Char)} (v : List Char) (hgap : '"' ∉ gap)
      (h : Quoted text strings) : Quoted (gap ++ '"' :: (v ++ '"' :: text)) (v :: strings)

theorem Quoted.single (v : List Char) : Quoted ('"' :: (v ++ ['"'])) [v] :=
  Quoted.str v List.not_mem_nil (Quoted.plain List.not_mem_nil)

theorem Quoted.append {text text' : List Char} {strings strings' : List (List Char)}
    (h : Quoted text strings) (h' : Quoted text' strings') :
    Quoted (text ++ text') (strings ++ strings') := by
  induction h with
  | @plain gap hgap =>
    cases h' with
    | plain hgap' => exact Quoted.plain (by simp [hgap, hgap'])
    | @str gap' text strings v hgap' h =>
      rw [← List.append_assoc]
      exact Quoted.str v (by simp [hgap, hgap']) h
  | @str gap text strings v hgap h ih =>
    have := Quoted.str v hgap ih
    simpa using this

theorem number_str {negative : Bool} {cs : List Char} {r : Token × ℕ}
    (h : number negative cs = some r) : r.1.str? = none := by
  simp only [number, Option.ite_none_right_eq_some] at h
  cases h.2
  rfl

theorem punctuation_str {c : Char} {t : Token} (h : punctuation c = some t) : t.str? = none := by
  unfold punctuation at h
  split at h <;> cases h <;> rfl

theorem next_str {c : Char} {cs : List Char} {t : Token} {n : ℕ}
    (h : next c cs = some (some t, n)) (hc : c ≠ '"') : t.str? = none := by
  rw [next, if_neg hc] at h
  split at h
  · cases h
  split at h
  · cases h
  split at h
  · obtain ⟨_, -, h⟩ := Option.map_eq_some_iff.mp h
    cases h
  split at h
  · cases h
    rw [word]
    split
    · rfl
    · split <;> rfl
  split at h
  · obtain ⟨r, hr, h⟩ := Option.map_eq_some_iff.mp h
    cases h
    exact number_str hr
  split at h
  · obtain ⟨r, hr, h⟩ := Option.map_eq_some_iff.mp h
    cases h
    exact number_str hr
  · obtain ⟨u, hu, h⟩ := Option.map_eq_some_iff.mp h
    cases h
    exact punctuation_str hu

/-- Where the first string of a text is read, and what is left after it. -/
theorem lexFrom_strs {n : ℕ} {text : List Char} {tokens : List Token} {w : List Char}
    {words : List (List Char)} (h : lexFrom n text = some tokens) (hw : strs tokens = w :: words) :
    ∃ before body rest tokens', text = before ++ '"' :: (body ++ '"' :: rest) ∧
      w.length ≤ body.length ∧ (w.length = body.length → w = body ∧ Clean body) ∧
      lex rest = some tokens' ∧ strs tokens' = words := by
  induction text generalizing n tokens with
  | nil =>
    cases n <;> cases h <;> cases hw
  | cons c cs ih =>
    cases n with
    | succ n =>
      obtain ⟨before, body, rest, tokens', rfl, hrest⟩ := ih (n := n) h hw
      exact ⟨c :: before, body, rest, tokens', rfl, hrest⟩
    | zero =>
      rw [lexFrom] at h
      split at h
      · cases h
      · rename_i t n hnext
        obtain ⟨tokens', hlex, rfl⟩ := Option.map_eq_some_iff.mp h
        by_cases hc : c = '"'
        · subst hc
          obtain ⟨r, hread, heq⟩ := Option.map_eq_some_iff.mp hnext
          cases heq
          obtain ⟨body, rest, rfl, hn, hle, hclean⟩ := readString_sound hread
          change r.1 :: strs tokens' = w :: words at hw
          cases hw
          refine ⟨[], body, rest, tokens', rfl, hle, hclean, ?_, rfl⟩
          have hskip := lexFrom_skip (body ++ ['"']) rest
          rw [List.append_assoc, List.singleton_append] at hskip
          rw [← hskip, ← hlex, hn]
          simp
        · have hnone : strs t.toList = [] := by
            cases t with
            | none => rfl
            | some t => exact List.filterMap_cons_none (next_str hnext hc)
          rw [strs, List.filterMap_append, ← strs, ← strs, hnone, List.nil_append] at hw
          obtain ⟨before, body, rest, tokens', rfl, hrest⟩ := ih hlex hw
          exact ⟨c :: before, body, rest, tokens', rfl, hrest⟩

/-- The same for the tokens of one string.  More than one token takes more
characters than they spell. -/
theorem lex_spelled {text : List Char} {tokens : List Token} {w : List Char}
    {more words : List (List Char)} (h : lex text = some tokens)
    (hw : strs tokens = w :: more ++ words) :
    ∃ before body rest tokens', text = before ++ '"' :: (body ++ '"' :: rest) ∧
      (w ++ more.flatten).length ≤ body.length ∧
      ((w ++ more.flatten).length = body.length → w ++ more.flatten = body ∧ Clean body) ∧
      lex rest = some tokens' ∧ strs tokens' = words := by
  induction more generalizing text tokens w with
  | nil =>
    rw [List.flatten_nil, List.append_nil]
    exact lexFrom_strs h hw
  | cons w' more ih =>
    obtain ⟨before, body, rest, tokens', rfl, hle, -, hlex, hrest⟩ := lexFrom_strs h hw
    obtain ⟨before', body', rest', tokens'', rfl, hle', -, hlex', hrest'⟩ := ih hlex hrest
    refine ⟨before, body ++ '"' :: (before' ++ '"' :: body'), rest', tokens'', by simp, ?_, ?_,
      hlex', hrest'⟩
    · simp at hle' ⊢
      omega
    · intro heq
      simp at heq hle'
      omega

theorem suffix_of_gap {gap u m : List Char} (hgap : '"' ∉ gap) (h : '"' :: u <:+ gap ++ m) :
    '"' :: u <:+ m := by
  induction gap with
  | nil => exact h
  | cons c gap ih =>
    rcases List.suffix_cons_iff.mp h with heq | hsuffix
    · exact absurd ((List.cons.inj heq).1 ▸ List.mem_cons_self) hgap
    · exact ih (fun hmem => hgap (List.mem_cons_of_mem _ hmem)) hsuffix

/-- A reader inside a text whose strings it reads as they were put there is
not right behind a quote, and the strings are clean.  The induction is on
the strings: one that is not clean, or that is read late, puts the reader
behind the quote that opens the next one. -/
theorem clean_of_spells {text text' : List Char} {strings : List (List Char)}
    {tokens : List Token} (hquoted : Quoted text strings) (htext : text' <:+ text)
    (hlex : lex text' = some tokens) (hspells : Spells (strs tokens) strings) :
    (∀ v ∈ strings, Clean v) ∧ ¬ '"' :: text' <:+ text := by
  induction hquoted generalizing text' tokens with
  | plain hgap =>
    exact ⟨List.forall_mem_nil _, fun h => hgap (h.subset List.mem_cons_self)⟩
  | @str gap text strings v hgap _ ih =>
    generalize hwords : strs tokens = words at hspells
    cases hspells with
    | @cons words _ _ w more hv hspells =>
      obtain ⟨before, body, rest, tokens', rfl, hle, hclean, hlex', rfl⟩ := lex_spelled hlex hwords
      rw [hv] at hle hclean
      -- the reader stands at a quote, and the gap has none
      have hat : '"' :: (body ++ '"' :: rest) <:+ '"' :: (v ++ '"' :: text) :=
        suffix_of_gap hgap ((List.suffix_append _ _).trans htext)
      have hafter : '"' :: rest <:+ '"' :: (v ++ '"' :: text) :=
        (List.suffix_append ('"' :: body) ('"' :: rest)).trans hat
      have hsub : text <:+ '"' :: (v ++ '"' :: text) := ⟨'"' :: v ++ ['"'], by simp⟩
      have hlength := hat.length_le
      simp only [List.length_cons, List.length_append] at hlength
      have hrest : rest <:+ text :=
        List.suffix_of_suffix_length_le ((List.suffix_cons _ _).trans hafter) hsub (by omega)
      obtain ⟨hstrings, hahead⟩ := ih hrest hlex' hspells
      have hexact : text.length ≤ rest.length := by
        by_contra hlt
        exact hahead (List.suffix_of_suffix_length_le hafter hsub
          (by simp only [List.length_cons]; omega))
      obtain ⟨heq, hbody⟩ := hclean (by omega)
      refine ⟨List.forall_mem_cons.mpr ⟨heq ▸ hbody, hstrings⟩, fun hbehind => ?_⟩
      have := (suffix_of_gap hgap hbehind).length_le
      simp only [List.length_cons, List.length_append] at this
      omega

/-- If a file gives back the strings that stand between its quotes, they
are clean. -/
theorem clean_of_read {text : List Char} {strings : List (List Char)}
    {members : List (List Char × Setting)} (hquoted : Quoted text strings)
    (hparse : parse text = some members) (hstrings : memberStrings members = strings) :
    ∀ v ∈ strings, Clean v := by
  obtain ⟨tokens, hlex, hparse⟩ := Option.bind_eq_some_iff.mp hparse
  obtain ⟨r, hr, hend⟩ := Option.bind_eq_some_iff.mp hparse
  split at hend
  · rename_i hnil
    cases hend
    obtain ⟨words, hwords, hspells⟩ := (parse_took _).1 _ _ hr
    rw [hnil, strs, strs, List.filterMap_nil, List.append_nil] at hwords
    rw [← hwords, hstrings] at hspells
    exact (clean_of_spells hquoted List.suffix_rfl hlex hspells).1
  · cases hend

/-! ## Tokens that parse -/

def Scalar.token : Scalar → Token
  | .str s => .str s
  | .int n => .int n
  | .bool b => .bool b

mutual

/-- The tokens of a value, with commas between the items of a list and no
ends after settings. -/
def Setting.tokens : Setting → List Token
  | .scalar s => [s.token]
  | .group members => .openBrace :: (memberTokens members ++ [.closeBrace])
  | .list items => .openParen :: (itemTokens items ++ [.closeParen])

def memberTokens : List (List Char × Setting) → List Token
  | [] => []
  | (k, value) :: members => .name k :: .assign :: (value.tokens ++ memberTokens members)

def itemTokens : List Setting → List Token
  | [] => []
  | [item] => item.tokens
  | item :: item' :: items => item.tokens ++ .comma :: itemTokens (item' :: items)

end

mutual

/-- No group names a setting twice. -/
def Setting.Distinct : Setting → Prop
  | .scalar _ => True
  | .group members => (members.map Prod.fst).Nodup ∧ DistinctMembers members
  | .list items => DistinctItems items

def DistinctMembers : List (List Char × Setting) → Prop
  | [] => True
  | (_, value) :: members => value.Distinct ∧ DistinctMembers members

def DistinctItems : List Setting → Prop
  | [] => True
  | item :: items => item.Distinct ∧ DistinctItems items

end

/-- What may follow a group of settings. -/
def closes : List Token → Bool
  | [] => true
  | .closeBrace :: _ => true
  | _ => false

/-- What may follow a value without becoming part of it. -/
def apart : List Token → Bool
  | .str _ :: _ => false
  | _ => true

theorem moreStrings_apart {tokens : List Token} (h : apart tokens = true) :
    moreStrings tokens = ([], tokens) := by
  rcases tokens with _ | ⟨t, tokens⟩
  · rfl
  · cases t <;> first | rfl | cases h

theorem memberTokens_append (members : List (List Char × Setting)) {rest : List Token}
    (h : closes rest = true) :
    apart (memberTokens members ++ rest) = true ∧
      dropEnd (memberTokens members ++ rest) = memberTokens members ++ rest := by
  rcases members with _ | ⟨⟨k, v⟩, members⟩
  · rcases rest with _ | ⟨t, rest⟩
    · exact ⟨rfl, rfl⟩
    · cases t <;> first | exact ⟨rfl, rfl⟩ | cases h
  · exact ⟨rfl, rfl⟩

theorem parseItems_value (fuel : ℕ) (v : Setting) (tokens : List Token) :
    parseItems (fuel + 1) (v.tokens ++ tokens) =
      (parseValue fuel (v.tokens ++ tokens)).bind fun value =>
        match value.2 with
        | .comma :: tokens => (parseItems fuel tokens).map fun r => (value.1 :: r.1, r.2)
        | .closeParen :: tokens => some ([value.1], tokens)
        | _ => none := by
  cases v with
  | scalar s => cases s <;> rfl
  | group members => rfl
  | list items => rfl

/-- The tokens of a value parse to the value, if there is fuel for their
number. -/
theorem parse_tokens (fuel : ℕ) :
    (∀ members rest, (memberTokens members).length < fuel → (members.map Prod.fst).Nodup →
      DistinctMembers members → closes rest = true →
      parseMembers fuel (memberTokens members ++ rest) = some (members, rest)) ∧
    (∀ value rest, value.tokens.length < fuel → value.Distinct → apart rest = true →
      parseValue fuel (value.tokens ++ rest) = some (value, rest)) ∧
    (∀ items rest, (itemTokens items).length + 1 < fuel → DistinctItems items →
      parseItems fuel (itemTokens items ++ .closeParen :: rest) = some (items, rest)) := by
  induction fuel with
  | zero =>
    refine ⟨fun _ _ h => ?_, fun _ _ h => ?_, fun _ _ h => ?_⟩
    · cases h
    · cases h
    · cases h
  | succ fuel ih =>
    obtain ⟨ihm, ihv, ihi⟩ := ih
    refine ⟨fun members rest hfuel hnodup hdistinct hrest => ?_,
      fun value rest hfuel hdistinct hrest => ?_, fun items rest hfuel hdistinct => ?_⟩
    · rcases members with _ | ⟨⟨k, v⟩, members⟩
      · rcases rest with _ | ⟨t, rest⟩
        · rfl
        · cases t <;> first | rfl | cases hrest
      · obtain ⟨hapart, hdrop⟩ := memberTokens_append members hrest
        rw [List.map_cons, List.nodup_cons] at hnodup
        simp only [memberTokens, List.length_cons, List.length_append] at hfuel
        have hvalue := ihv v _ (by omega) hdistinct.1 hapart
        have hmembers := ihm members rest (by omega) hnodup.2 hdistinct.2 hrest
        rw [memberTokens, List.cons_append, List.cons_append, List.append_assoc]
        change (parseValue fuel _).bind _ = _
        rw [hvalue, Option.bind_some, hdrop, hmembers, Option.bind_some, if_neg hnodup.1]
    · cases value with
      | scalar s =>
        cases s with
        | str s =>
          change some (Setting.scalar (.str (s ++ (moreStrings rest).1)), (moreStrings rest).2) = _
          rw [moreStrings_apart hrest, List.append_nil]
        | int n => rfl
        | bool b => rfl
      | group members =>
        simp only [Setting.tokens, List.length_cons, List.length_append] at hfuel
        have hmembers := ihm members (.closeBrace :: rest) (by omega) hdistinct.1 hdistinct.2 rfl
        rw [Setting.tokens, List.cons_append, List.append_assoc]
        change (parseMembers fuel (memberTokens members ++ .closeBrace :: rest)).bind _ = _
        rw [hmembers]
        rfl
      | list items =>
        simp only [Setting.tokens, List.length_cons, List.length_append] at hfuel
        have hitems := ihi items rest (by omega) hdistinct
        rw [Setting.tokens, List.cons_append, List.append_assoc]
        change (parseItems fuel (itemTokens items ++ .closeParen :: rest)).map _ = _
        rw [hitems]
        rfl
    · rcases items with _ | ⟨item, _ | ⟨item', items⟩⟩
      · rfl
      · rw [itemTokens] at hfuel
        have hvalue := ihv item (.closeParen :: rest) (by omega) hdistinct.1 rfl
        rw [itemTokens, parseItems_value, hvalue]
        rfl
      · simp only [itemTokens, List.length_cons, List.length_append] at hfuel
        have hvalue := ihv item (.comma :: (itemTokens (item' :: items) ++ .closeParen :: rest))
          (by omega) hdistinct.1 rfl
        have hitems := ihi (item' :: items) rest (by omega) hdistinct.2
        rw [itemTokens, List.append_assoc, List.cons_append, parseItems_value, hvalue]
        change (parseItems fuel _).map _ = _
        rw [hitems]
        rfl

/-- A text that lexes to the tokens of settings with distinct names parses
to the settings. -/
theorem Lexes.parse {text : List Char} {members : List (List Char × Setting)}
    (h : Lexes text (memberTokens members)) (hnodup : (members.map Prod.fst).Nodup)
    (hdistinct : DistinctMembers members) : parse text = some members := by
  have hmembers := (parse_tokens ((memberTokens members).length + 1)).1 members []
    (Nat.lt_succ_self _) hnodup hdistinct rfl
  rw [List.append_nil] at hmembers
  rw [Libconfig.parse, h.lex, Option.bind_some, hmembers]
  rfl

end Kolla.Lib.Libconfig
