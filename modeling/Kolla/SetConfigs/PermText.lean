import Kolla.SetConfigs.Exclusion
import Kolla.SetConfigs.Limits
import Mathlib.Data.Nat.Digits.Defs
import Mathlib.Tactic.IntervalCases

/-!
# Octal permissions

`perm` is documented as the octal form of a mode.  `set_perms` puts an `o` after the
first character of a text of four and gives the rest to `int(perm, base=0)`, so that
texts of octal digits are read in three ways (`intBase0_octal`): a text of four
characters in base eight, one with another leading zero as zero or not at all, and
all others in base ten.  The number is read after the owner has changed.

`Honoured` says what the text is for, and `honoured_iff` when that is what happens.
-/

namespace Kolla.SetConfigs

open Kolla.Lib

variable {β : Type}

/-! ## Octal digits -/

/-- A text of octal digits. -/
structure OctalText (cs : List Char) : Prop where
  ne_nil : cs ≠ []
  octal : ∀ c ∈ cs, '0' ≤ c ∧ c ≤ '7'

/-- The number that the digits denote. -/
def valueIn (base : ℕ) (cs : List Char) : ℕ :=
  Nat.ofDigits base (cs.reverse.map fun c => c.toNat - '0'.toNat)

theorem valueIn_cons (base : ℕ) (c : Char) (cs : List Char) :
    valueIn base (c :: cs) = valueIn base cs + base ^ cs.length * (c.toNat - '0'.toNat) := by
  rw [valueIn, List.reverse_cons, List.map_append, Nat.ofDigits_append, List.length_map,
    List.length_reverse, List.map_singleton, Nat.ofDigits_singleton, valueIn]

/-- An octal digit is one of eight characters. -/
theorem mem_of_octal {c : Char} (h : '0' ≤ c ∧ c ≤ '7') :
    c ∈ ['0', '1', '2', '3', '4', '5', '6', '7'] := by
  obtain ⟨hlo, hhi⟩ := h
  have hlo' : 48 ≤ c.toNat := hlo
  have hhi' : c.toNat ≤ 55 := hhi
  rw [← Char.ofNat_toNat c]
  generalize c.toNat = n at hlo' hhi'
  interval_cases n <;> decide

/-- What the functions that read numbers make of an octal digit. -/
structure Read (c : Char) : Prop where
  ascii : c.toNat < 128
  visible : isSpace c = false
  value : digitValue c = some (c.toNat - '0'.toNat)
  lt_eight : c.toNat - '0'.toNat < 8
  zero : c.toNat - '0'.toNat = 0 → c = '0'
  not_mark : c ∉ ['_', '-', '+', 'x', 'X', 'o', 'O', 'b', 'B']

theorem read_of_octal {c : Char} (h : '0' ≤ c ∧ c ≤ '7') : Read c := by
  have hmem := mem_of_octal h
  simp only [List.mem_cons, List.not_mem_nil, or_false] at hmem
  rcases hmem with rfl | rfl | rfl | rfl | rfl | rfl | rfl | rfl <;>
    exact ⟨by decide, by decide, by decide, by decide, by decide, by decide⟩

/-- Digits go on from the value of the digits before them. -/
theorem readDigits_octal {base : ℕ} (hbase : 8 ≤ base) {cs : List Char}
    (hcs : ∀ c ∈ cs, '0' ≤ c ∧ c ≤ '7') (value : ℕ) :
    readDigits base value true cs = some (value * base ^ cs.length + valueIn base cs) := by
  induction cs generalizing value with
  | nil => simp [readDigits, valueIn]
  | cons c cs ih =>
    have hread := read_of_octal (hcs c List.mem_cons_self)
    have hmark : c ≠ '_' := fun h => hread.not_mark (by simp [h])
    rw [readDigits, if_neg hmark, hread.value]
    dsimp only
    rw [if_pos (lt_of_lt_of_le hread.lt_eight hbase),
      ih (fun d hd => hcs d (List.mem_cons_of_mem c hd)), valueIn_cons, List.length_cons]
    congr 1
    ring

theorem readDigits_of_octal {base : ℕ} (hbase : 8 ≤ base) {cs : List Char} (hcs : OctalText cs) :
    readDigits base 0 false cs = some (valueIn base cs) := by
  cases cs with
  | nil => exact absurd rfl hcs.ne_nil
  | cons c cs =>
    have hread := read_of_octal (hcs.octal c List.mem_cons_self)
    have hmark : c ≠ '_' := fun h => hread.not_mark (by simp [h])
    rw [readDigits, if_neg hmark, hread.value]
    dsimp only
    rw [if_pos (lt_of_lt_of_le hread.lt_eight hbase),
      readDigits_octal hbase fun d hd => hcs.octal d (List.mem_cons_of_mem c hd), valueIn_cons]
    congr 1
    ring

theorem valueIn_eq_zero {base : ℕ} (hbase : base ≠ 0) {cs : List Char} (hcs : OctalText cs) :
    valueIn base cs = 0 ↔ ∀ c ∈ cs, c = '0' := by
  constructor
  · intro h c hc
    refine (read_of_octal (hcs.octal c hc)).zero ?_
    exact Nat.digits_zero_of_eq_zero hbase h _ (List.mem_map_of_mem (List.mem_reverse.mpr hc))
  · intro h
    have hzeros : (cs.reverse.map fun c => c.toNat - '0'.toNat) = List.replicate cs.length 0 := by
      refine List.eq_replicate_iff.mpr ⟨by simp, fun d hd => ?_⟩
      obtain ⟨c, hc, rfl⟩ := List.mem_map.mp hd
      rw [h c (List.mem_reverse.mp hc)]
      rfl
    rw [valueIn, hzeros, Nat.ofDigits_replicate_zero]

/-! ## How they are read -/

/-- The text raises: four characters that do not begin with a zero, a leading zero
before something else than zeros, or more than a C `int` holds. -/
def Refused (cs : List Char) : Prop :=
  if cs.length = 4 then cs.head? ≠ some '0'
  else if cs.head? = some '0' then ∃ c ∈ cs, c ≠ '0'
  else 2 ^ 31 ≤ valueIn 10 cs

/-- The number that `int(perm, base=0)` makes of the patched text. -/
def literal (cs : List Char) : Option ℕ :=
  if cs.length = 4 then
    if cs.head? = some '0' then some (valueIn 8 cs) else none
  else if cs.head? = some '0' then
    if ∀ c ∈ cs, c = '0' then some 0 else none
  else some (valueIn 10 cs)

/-- A number without a leading zero is read in base ten. -/
theorem readNumber_of_head {c : Char} (hc : c ≠ '0') (cs : List Char) :
    readNumber (c :: cs) = readDigits 10 0 false (c :: cs) := by
  unfold readNumber
  split <;> simp_all

/-- After a leading zero, octal digits are no prefix. -/
theorem readNumber_zero {cs : List Char} (hcs : ∀ c ∈ cs, '0' ≤ c ∧ c ≤ '7') :
    readNumber ('0' :: cs) = (readDigits 10 0 false ('0' :: cs)).filter (· = 0) := by
  have hmark : ∀ d ∈ ['x', 'X', 'o', 'O', 'b', 'B'], ∀ ds, cs ≠ d :: ds := by
    rintro d hd ds rfl
    have hread := (read_of_octal (hcs d List.mem_cons_self)).not_mark
    simp only [List.mem_cons, List.not_mem_nil, or_false, not_or] at hd hread
    tauto
  unfold readNumber
  split <;> simp_all

theorem readSigned_of_digit {c : Char} (hc : c ∉ ['_', '-', '+', 'x', 'X', 'o', 'O', 'b', 'B'])
    (cs : List Char) : readSigned (c :: cs) = (readNumber (c :: cs)).map fun n => (n : ℤ) := by
  unfold readSigned
  split <;> simp_all

/-- In visible ASCII nothing is converted and nothing is stripped. -/
theorem intBase0_of_visible {toAscii : Char → Char} (hascii : ∀ c, c.toNat < 128 → toAscii c = c)
    {cs : List Char} (hcs : ∀ c ∈ cs, c.toNat < 128 ∧ isSpace c = false) :
    intBase0 toAscii cs = readSigned cs := by
  have hmap : cs.map toAscii = cs := by
    conv_rhs => rw [← List.map_id cs]
    exact List.map_congr_left fun c hc => hascii c (hcs c hc).1
  have hdrop : cs.dropWhile isSpace = cs := by
    cases cs with
    | nil => rfl
    | cons c cs => rw [List.dropWhile_cons, if_neg (by simp [(hcs c List.mem_cons_self).2])]
  have hrdrop : cs.rdropWhile isSpace = cs := by
    rw [List.rdropWhile_eq_self_iff]
    intro hne
    rw [(hcs _ (List.getLast_mem hne)).2]
    exact Bool.false_ne_true
  rw [intBase0, hmap, hdrop, hrdrop]

/-- Four digits: the patch makes an octal literal of those that begin with a zero, and
no number of the others. -/
theorem readSigned_patched {a : Char} {cs : List Char} (hcs : OctalText (a :: cs))
    (hne : cs ≠ []) :
    readSigned (a :: 'o' :: cs) = if a = '0' then some (valueIn 8 (a :: cs) : ℤ) else none := by
  have ha := read_of_octal (hcs.octal a List.mem_cons_self)
  have htail : OctalText cs := ⟨hne, fun c hc => hcs.octal c (List.mem_cons_of_mem a hc)⟩
  rw [readSigned_of_digit ha.not_mark]
  split
  · rename_i hzero
    subst hzero
    have hprefixed : readPrefixed 8 cs = readDigits 8 0 false cs := by
      unfold readPrefixed
      split
      · exact absurd (read_of_octal (htail.octal '_' List.mem_cons_self)).not_mark (by simp)
      · rfl
    have hvalue : valueIn 8 ('0' :: cs) = valueIn 8 cs := by rw [valueIn_cons]; rfl
    have hnumber : readNumber ('0' :: 'o' :: cs) = readPrefixed 8 cs := rfl
    rw [hnumber, hprefixed, readDigits_of_octal le_rfl htail, hvalue]
    rfl
  · rename_i hzero
    have hmark : a ≠ '_' := fun h => ha.not_mark (by simp [h])
    have ho : readDigits 10 (0 * 10 + (a.toNat - '0'.toNat)) true ('o' :: cs) = none := rfl
    rw [readNumber_of_head hzero, readDigits, if_neg hmark, ha.value]
    dsimp only
    rw [if_pos (lt_trans ha.lt_eight (by decide)), ho]
    rfl

/-- Another number of digits: they are read in base ten. -/
theorem readSigned_unpatched {a : Char} {cs : List Char} (hcs : OctalText (a :: cs)) :
    readSigned (a :: cs) = if a = '0' then
        if ∀ c ∈ a :: cs, c = '0' then some 0 else none
      else some (valueIn 10 (a :: cs) : ℤ) := by
  have ha := read_of_octal (hcs.octal a List.mem_cons_self)
  rw [readSigned_of_digit ha.not_mark]
  split
  · rename_i hzero
    subst hzero
    rw [readNumber_zero fun c hc => hcs.octal c (List.mem_cons_of_mem _ hc),
      readDigits_of_octal (by decide) hcs]
    split
    · rename_i hall
      rw [(valueIn_eq_zero (by decide) hcs).mpr hall]
      rfl
    · rename_i hall
      rw [Option.filter_some, if_neg]
      · rfl
      · simpa using fun h => hall ((valueIn_eq_zero (by decide) hcs).mp h)
  · rename_i hzero
    rw [readNumber_of_head hzero, readDigits_of_octal (by decide) hcs]
    rfl

/-- `int(perm, base=0)` after the patch, for a text of octal digits. -/
theorem intBase0_octal {toAscii : Char → Char} (hascii : ∀ c, c.toNat < 128 → toAscii c = c)
    {cs : List Char} (hcs : OctalText cs) :
    intBase0 toAscii (patchPerm cs) = (literal cs).map Nat.cast := by
  have hread : ∀ c ∈ cs, c.toNat < 128 ∧ isSpace c = false := fun c hc =>
    ⟨(read_of_octal (hcs.octal c hc)).ascii, (read_of_octal (hcs.octal c hc)).visible⟩
  by_cases hfour : cs.length = 4
  · obtain ⟨a, b, c, d, rfl⟩ : ∃ a b c d, cs = [a, b, c, d] := by
      match cs, hfour with
      | [a, b, c, d], _ => exact ⟨a, b, c, d, rfl⟩
    have hb : b ≠ 'o' := fun h => (read_of_octal (hcs.octal b (by simp))).not_mark (by simp [h])
    have hpatch : patchPerm [a, b, c, d] = [a, 'o', b, c, d] := by rw [patchPerm, if_pos hb]
    rw [hpatch, intBase0_of_visible hascii, readSigned_patched hcs (by simp)]
    · rw [literal, if_pos hfour]
      by_cases ha : a = '0'
      · simp [ha]
      · simp [ha]
    · intro x hx
      rcases List.mem_cons.mp hx with rfl | hx
      · exact hread x List.mem_cons_self
      · rcases List.mem_cons.mp hx with rfl | hx
        · decide
        · exact hread x (List.mem_cons_of_mem a hx)
  · have hpatch : patchPerm cs = cs := by
      unfold patchPerm
      split
      · exact absurd rfl hfour
      · rfl
    rw [hpatch, intBase0_of_visible hascii hread, literal, if_neg hfour]
    cases cs with
    | nil => exact absurd rfl hcs.ne_nil
    | cons a cs =>
      rw [readSigned_unpatched hcs]
      by_cases ha : a = '0'
      · by_cases hall : ∀ c ∈ a :: cs, c = '0'
        · rw [if_pos ha, if_pos hall, if_pos (by simp [ha]), if_pos hall]
          rfl
        · rw [if_pos ha, if_neg hall, if_pos (by simp [ha]), if_neg hall]
          rfl
      · rw [if_neg ha, if_neg (by simpa using ha)]
        rfl

/-- The number that is read, where the text is not refused. -/
def reading (cs : List Char) : ℕ :=
  if cs.head? = some '0' then valueIn 8 cs else valueIn 10 cs

theorem valueIn_lt {cs : List Char} (hcs : OctalText cs) : valueIn 8 cs < 8 ^ cs.length := by
  have hlt := @Nat.ofDigits_lt_base_pow_length 8
    (cs.reverse.map fun c => c.toNat - '0'.toNat) (by decide) ?_
  · rwa [List.length_map, List.length_reverse] at hlt
  · intro d hd
    obtain ⟨c, hc, rfl⟩ := List.mem_map.mp hd
    exact (read_of_octal (hcs.octal c (List.mem_reverse.mp hc))).lt_eight

theorem literal_of_not_refused {cs : List Char} (hcs : OctalText cs) (h : ¬ Refused cs) :
    literal cs = some (reading cs) ∧ reading cs < 2 ^ 31 := by
  unfold Refused at h
  unfold literal reading
  by_cases hfour : cs.length = 4
  · rw [if_pos hfour, not_not] at h
    have hlt := valueIn_lt hcs
    rw [hfour] at hlt
    rw [if_pos hfour, if_pos h, if_pos h]
    exact ⟨rfl, lt_trans hlt (by decide)⟩
  · rw [if_neg hfour] at h ⊢
    by_cases hzero : cs.head? = some '0'
    · rw [if_pos hzero, not_exists] at h
      have hall : ∀ c ∈ cs, c = '0' := fun c hc => not_not.mp fun hne => h c ⟨hc, hne⟩
      rw [if_pos hzero, if_pos hall, if_pos hzero, (valueIn_eq_zero (by decide) hcs).mpr hall]
      exact ⟨rfl, by decide⟩
    · rw [if_neg hzero, not_le] at h
      rw [if_neg hzero, if_neg hzero]
      exact ⟨rfl, h⟩

theorem literal_of_refused {cs : List Char} (h : Refused cs) {v : ℕ} (hv : literal cs = some v) :
    2 ^ 31 ≤ v := by
  unfold Refused at h
  unfold literal at hv
  by_cases hfour : cs.length = 4
  · rw [if_pos hfour] at h hv
    rw [if_neg h] at hv
    cases hv
  · rw [if_neg hfour] at h hv
    by_cases hzero : cs.head? = some '0'
    · rw [if_pos hzero] at h hv
      obtain ⟨c, hc, hne⟩ := h
      rw [if_neg fun hall => hne (hall c hc)] at hv
      cases hv
    · rw [if_neg hzero] at h hv
      cases hv
      exact h

/-- The permissions that can be set are those that are not refused. -/
theorem permOk_iff {sys : System β} (hascii : ∀ c, c.toNat < 128 → sys.toAscii c = c)
    {perm : String} (hperm : OctalText perm.toList) :
    sys.PermOk (some perm) ↔ ¬ Refused perm.toList := by
  constructor
  · intro hok hrefused
    have hne : perm ≠ "" := fun h => hperm.ne_nil (by simp [h])
    obtain ⟨mode, hmode, hrange⟩ := hok perm rfl hne
    rw [intBase0_octal hascii hperm] at hmode
    obtain ⟨v, hv, rfl⟩ := Option.map_eq_some_iff.mp hmode
    have hle := literal_of_refused hrefused hv
    have hlt := (hrange v (by simp)).2
    omega
  · rintro hno text ⟨⟩ -
    obtain ⟨hliteral, hlt⟩ := literal_of_not_refused hperm hno
    have hrange : ConfigFile.InRange ((reading perm.toList : ℕ) : ℤ) := by
      constructor <;> omega
    refine ⟨reading perm.toList, by rw [intBase0_octal hascii hperm, hliteral]; rfl, fun m hm => ?_⟩
    rcases List.mem_pair.mp hm with rfl | rfl
    · exact hrange
    · exact (ConfigFile.inRange_withExecute _).mpr hrange

/-! ## Modes -/

/-- The mode that a number is for: in a directory, each read bit brings the execute
bit with it. -/
def modeOf (isDir : Bool) (v : ℕ) : ℕ :=
  if isDir then v ||| (v &&& 0o444) >>> 2 else v

theorem or_two_pow_of_testBit {p e : ℕ} (h : p.testBit e = false) : p ||| 2 ^ e = p + 2 ^ e := by
  refine Nat.eq_of_testBit_eq fun i => ?_
  rw [Nat.testBit_or, Nat.testBit_two_pow, Nat.add_comm]
  rcases lt_trichotomy i e with hlt | rfl | hgt
  · rw [Nat.testBit_two_pow_add_gt hlt, decide_eq_false (by omega), Bool.or_false]
  · rw [Nat.testBit_two_pow_add_eq, h, decide_eq_true rfl]
    rfl
  · -- nothing is carried out of the bit that was clear
    obtain ⟨k, rfl⟩ : ∃ k, i = e + 1 + k := ⟨i - (e + 1), by omega⟩
    rw [Nat.testBit_eq_decide_div_mod_eq, decide_eq_false_iff_not] at h
    have hdiv : (2 ^ e + p) / 2 ^ (e + 1) = p / 2 ^ (e + 1) := by
      rw [pow_succ, ← Nat.div_div_eq_div_mul, ← Nat.div_div_eq_div_mul,
        Nat.add_div_left _ (Nat.two_pow_pos e)]
      omega
    rw [decide_eq_false (by omega), Bool.or_false, Nat.add_comm _ k, ← Nat.testBit_div_two_pow,
      ← Nat.testBit_div_two_pow, hdiv]

/-- One of the three steps of `withExecute`. -/
def withBit (read execute : ℕ) (p : ℤ) : ℤ :=
  if p.testBit read ∧ ¬ p.testBit execute then p + 2 ^ execute else p

theorem withBit_natCast (read execute p : ℕ) :
    withBit read execute p = ((p ||| if p.testBit read then 2 ^ execute else 0 : ℕ) : ℤ) := by
  have hcast : ∀ k, (p : ℤ).testBit k = p.testBit k := fun _ => rfl
  rw [withBit, hcast, hcast]
  cases hread : p.testBit read with
  | false => simp
  | true =>
    cases hexecute : p.testBit execute with
    | false =>
      rw [if_pos (by simp), if_pos rfl, or_two_pow_of_testBit hexecute]
      push_cast
      rfl
    | true =>
      have hset : p ||| 2 ^ execute = p := by
        refine Nat.eq_of_testBit_eq fun i => ?_
        rw [Nat.testBit_or, Nat.testBit_two_pow]
        by_cases hi : execute = i
        · rw [← hi, hexecute, Bool.true_or]
        · rw [decide_eq_false hi, Bool.or_false]
      rw [if_neg (by simp), if_pos rfl, hset]

/-- The three bits of `0o444`. -/
theorem testBit_read (i : ℕ) : Nat.testBit 0o444 (2 + i)
    = (decide (0 = i) || decide (3 = i) || decide (6 = i)) := by
  have hall : ∀ i < 7, Nat.testBit 0o444 (2 + i)
      = (decide (0 = i) || decide (3 = i) || decide (6 = i)) := by decide
  by_cases hi : i < 7
  · exact hall i hi
  · have hlt : 0o444 < 2 ^ (2 + i) :=
      lt_of_lt_of_le (by decide : 0o444 < 2 ^ 9) (Nat.pow_le_pow_right (by decide) (by omega))
    rw [Nat.testBit_lt_two_pow hlt, decide_eq_false (by omega), decide_eq_false (by omega),
      decide_eq_false (by omega)]
    rfl

theorem withExecute_natCast (v : ℕ) : withExecute v = modeOf true v := by
  have hsteps : withExecute v = withBit 2 0 (withBit 5 3 (withBit 8 6 v)) := rfl
  have hbit : ∀ (b : Bool) (e i : ℕ), (if b then 2 ^ e else 0 : ℕ).testBit i
      = (b && decide (e = i)) := by
    intro b e i
    cases b with
    | false => simp
    | true => simp [Nat.testBit_two_pow]
  rw [hsteps, withBit_natCast, withBit_natCast, withBit_natCast, modeOf, if_pos rfl]
  congr 1
  refine Nat.eq_of_testBit_eq fun i => ?_
  simp only [Nat.testBit_or, hbit, Nat.testBit_shiftRight, Nat.testBit_and, testBit_read]
  by_cases h0 : 0 = i
  · subst h0
    simp
  · by_cases h3 : 3 = i
    · subst h3
      simp
    · by_cases h6 : 6 = i
      · subst h6
        simp
      · simp [h0, h3, h6]

/-- What the kernel keeps of the number that is read. -/
theorem toNat_ofInt_modeOf (isDir : Bool) (v : ℕ) :
    (BitVec.ofInt 12 (if isDir then withExecute v else v)).toNat = modeOf isDir v % 2 ^ 12 := by
  have hmode : (if isDir then withExecute v else (v : ℤ)) = ((modeOf isDir v : ℕ) : ℤ) := by
    cases isDir with
    | true => exact withExecute_natCast v
    | false => rfl
  rw [hmode, BitVec.ofInt_natCast, BitVec.toNat_ofNat]

theorem modeOf_lt {isDir : Bool} {v : ℕ} (hv : v < 2 ^ 12) : modeOf isDir v < 2 ^ 12 := by
  unfold modeOf
  split
  · refine Nat.or_lt_two_pow hv (lt_of_le_of_lt (Nat.shiftRight_le _ _) ?_)
    exact lt_of_le_of_lt Nat.and_le_left hv
  · exact hv

/-! ## Entries that are refused -/

namespace System

/-- The owner of an entry. -/
def Owned (sys : System β) (permission : Permission) (uid gid : ℕ) : Prop :=
  ∃ owner, permission.owner.get = some owner ∧
    sys.passwd.lookup (splitOwner owner).1 = some uid ∧
    sys.group.lookup (splitOwner owner).2 = some gid

variable {sys : System β} {permission : Permission} {perm : String} {path pattern : Path}
  {uid gid : ℕ} {w : World β} {l : Loc} {n : Node β}

/-- A text that is refused raises where the mode would be set. -/
theorem setMode_of_refused (hrefused : ¬ sys.PermOk (some perm)) (path : Path) (w : World β) :
    ∃ e, sys.setMode path perm w = .error e w := by
  unfold setMode
  cases hmode : intBase0 sys.toAscii (patchPerm perm.toList) with
  | none => exact ⟨.valueError, rfl⟩
  | some mode =>
    dsimp only
    rw [SetConfigs.tree_bind]
    have hrange : ¬ ConfigFile.InRange (if sys.isdir w.tree path then withExecute mode else mode) := by
      intro hrange
      have hmode' : ConfigFile.InRange mode := by
        split at hrange
        · exact (ConfigFile.inRange_withExecute mode).mp hrange
        · exact hrange
      refine hrefused fun text htext _ => ?_
      cases htext
      refine ⟨mode, hmode, fun m hm => ?_⟩
      rcases List.mem_pair.mp hm with rfl | rfl
      · exact hmode'
      · exact (ConfigFile.inRange_withExecute mode).mpr hmode'
    have hraise : sys.chmod path (if sys.isdir w.tree path then withExecute mode else mode) w
        = .error .overflowError w := by
      unfold ConfigFile.InRange at hrange
      rw [chmod, if_neg hrange]
      rfl
    exact ⟨.overflowError, tryCatch_of_error hraise⟩

/-- The owner has changed when the text is refused. -/
theorem setPerms_of_refused (hrefused : ¬ sys.PermOk (some perm)) (hne : perm ≠ "") (hw : Calm w)
    (hfind : sys.find w.tree true path = .found l n) (uid gid : ℕ) :
    ∃ e w', sys.setPerms path uid gid (some perm) w = .error e w' ∧
      ∀ l', w'.tree.lookup l' = if l' = l then some (withAttr n ⟨chownMode n n.attr.mode, uid, gid⟩)
        else w.tree.lookup l' := by
  obtain ⟨w', hchown, -, hl⟩ := chown_of_calm hw hfind uid gid
  obtain ⟨e, hmode⟩ := setMode_of_refused hrefused path w'
  have hexists : sys.pathExists w.tree path = true := by
    rw [pathExists, look_of_find hfind]
    rfl
  refine ⟨e, w', ?_, hl⟩
  rw [setPerms, SetConfigs.tree_bind, SetConfigs.when, if_pos hexists, bind_of_ok hchown]
  exact (congrFun (if_pos hne) w').trans hmode

/-- The first match that exists is given the owner, and nothing else happens. -/
theorem handlePermission_of_refused (howned : Owned sys permission uid gid)
    (hperm : permission.perm.get = some perm) (hne : perm ≠ "")
    (hrefused : ¬ sys.PermOk (some perm)) (hpath : permission.path.get = some pattern) (hw : Calm w)
    {dest : Path} (hdest : (sys.glob w.tree pattern).find? (sys.pathExists w.tree) = some dest)
    (hfind : sys.find w.tree true dest = .found l n) :
    ∃ e w', sys.handlePermission permission w = .error e w' ∧
      ∀ l', w'.tree.lookup l' = if l' = l then some (withAttr n ⟨chownMode n n.attr.mode, uid, gid⟩)
        else w.tree.lookup l' := by
  obtain ⟨owner, howner, huser, hgroup⟩ := howned
  obtain ⟨e, w', hset, hl⟩ := setPerms_of_refused hrefused hne hw hfind uid gid
  refine ⟨e, w', ?_, hl⟩
  have huser' : sys.getpwnam (splitOwner owner).1 = pure uid := by rw [getpwnam, huser]
  have hgroup' : sys.getgrnam (splitOwner owner).2 = pure gid := by rw [getgrnam, hgroup]
  rw [handlePermission, howner, userGroup, pure_bind, huser', pure_bind, hgroup', pure_bind,
    hpath, hperm]
  dsimp only
  rw [SetConfigs.tree_bind]
  refine forM_of_error hdest ?_ (bind_of_error hset)
  -- a match that does not exist is passed over
  intro d hd
  have hnone : sys.look w.tree d = none := by
    rwa [pathExists, Option.isSome_eq_false_iff, Option.isNone_iff_eq_none] at hd
  have hpass : sys.setPerms d uid gid (some perm) w = .ok () w := by
    rw [setPerms, SetConfigs.tree_bind, SetConfigs.when, if_neg (by simp [hd])]
    rfl
  have hdir : sys.isdir w.tree d = false := by
    rw [← Bool.not_eq_true, isdir_iff]
    rintro ⟨loc, a, h⟩
    rw [look_of_find h] at hnone
    cases hnone
  rw [bind_of_ok hpass, SetConfigs.tree_bind, SetConfigs.when, if_neg (by simp [hdir])]
  rfl

/-- Without an owner nothing happens. -/
theorem handlePermission_of_unowned (h : ∀ uid gid, ¬ Owned sys permission uid gid) (w : World β) :
    ∃ e, sys.handlePermission permission w = .error e w := by
  unfold handlePermission
  cases howner : permission.owner.get with
  | none => exact ⟨.typeError, rfl⟩
  | some owner =>
    rw [userGroup, pure_bind]
    cases huser : sys.passwd.lookup (splitOwner owner).1 with
    | none =>
      have hraise : sys.getpwnam (splitOwner owner).1 = (throw .keyError : Os β ℕ) := by
        rw [getpwnam, huser]
      rw [hraise]
      exact ⟨.keyError, rfl⟩
    | some uid =>
      cases hgroup : sys.group.lookup (splitOwner owner).2 with
      | none =>
        have hreturn : sys.getpwnam (splitOwner owner).1 = (pure uid : Os β ℕ) := by
          rw [getpwnam, huser]
        have hraise : sys.getgrnam (splitOwner owner).2 = (throw .keyError : Os β ℕ) := by
          rw [getgrnam, hgroup]
        rw [hreturn, pure_bind, hraise]
        exact ⟨.keyError, rfl⟩
      | some gid => exact absurd ⟨owner, howner, huser, hgroup⟩ (h uid gid)

/-! ## What the text is for -/

/-- The entry gives the node the mode that is meant, or it raises and leaves the owner
and the mode of the node alone. -/
def Honoured (sys : System β) (permission : Permission) (v : ℕ) (w : World β) (l : Loc)
    (n : Node β) : Prop :=
  match sys.handlePermissions [permission] w with
  | .ok _ w' => ∃ n', w'.tree.lookup l = some n' ∧ n'.attr.mode.toNat = modeOf n.isDir v
  | .error _ w' => ∃ n', w'.tree.lookup l = some n' ∧ n'.attr = n.attr

/-- The run that raises: it is harmless where the first match is another node, or has
the owner and the mode that `chown` leaves. -/
theorem honoured_of_refused (howned : Owned sys permission uid gid)
    (hperm : permission.perm.get = some perm) (hne : perm ≠ "")
    (hrefused : ¬ sys.PermOk (some perm)) (hpath : permission.path.get = some pattern) (hw : Calm w)
    (hmatch : path ∈ sys.glob w.tree pattern) (hfind : sys.find w.tree true path = .found l n)
    (v : ℕ) :
    sys.Honoured permission v w l n ↔
      ∀ dest, (sys.glob w.tree pattern).find? (sys.pathExists w.tree) = some dest →
        l ∈ sys.leadsTo w.tree dest → n.attr = ⟨chownMode n n.attr.mode, uid, gid⟩ := by
  have hn := lookup_of_resolve hfind
  have hexists : sys.pathExists w.tree path = true := by
    rw [pathExists, look_of_find hfind]
    rfl
  obtain ⟨dest, hdest⟩ := Option.isSome_iff_exists.mp
    (List.find?_isSome.mpr ⟨path, hmatch, hexists⟩)
  have hdest' : sys.pathExists w.tree dest = true := List.find?_some hdest
  obtain ⟨m, hm⟩ := Option.isSome_iff_exists.mp hdest'
  obtain ⟨l₀, hl₀⟩ := find_of_look hm
  obtain ⟨e, w', hrun, hl⟩ := handlePermission_of_refused howned hperm hne hrefused hpath hw hdest hl₀
  have hrun' : sys.handlePermissions [permission] w = .error e w' := bind_of_error hrun
  have hleads : l ∈ sys.leadsTo w.tree dest ↔ l = l₀ := by
    constructor
    · rintro ⟨n', hn'⟩
      rw [hl₀] at hn'
      cases hn'
      rfl
    · rintro rfl
      exact ⟨m, hl₀⟩
  rw [Honoured, hrun']
  dsimp only
  rw [hl, hdest]
  by_cases heq : l = l₀
  · subst heq
    obtain rfl : m = n := by
      rw [lookup_of_resolve hl₀] at hn
      exact Option.some.inj hn
    rw [if_pos rfl]
    constructor
    · rintro ⟨n', hn', hattr⟩ _ _ -
      cases hn'
      rw [withAttr_attr (isLink_of_resolve hfind)] at hattr
      exact hattr.symm
    · intro h
      refine ⟨_, rfl, ?_⟩
      rw [withAttr_attr (isLink_of_resolve hfind)]
      exact (h dest rfl (hleads.mpr rfl)).symm
  · rw [if_neg heq]
    constructor
    · rintro - _ hdest' hmem
      cases hdest'
      exact absurd (hleads.mp hmem) heq
    · intro _
      exact ⟨n, hn, rfl⟩

/-- The attributes that an entry with octal digits gives. -/
theorem grant_attr (hoctal : OctalText perm.toList)
    (hascii : ∀ c, c.toNat < 128 → sys.toAscii c = c) (hset : ¬ Refused perm.toList)
    (hlink : n.isLink = false) :
    ((sys.grant uid gid (some perm)).map n).attr.uid = uid ∧
      ((sys.grant uid gid (some perm)).map n).attr.gid = gid ∧
      ((sys.grant uid gid (some perm)).map n).attr.mode.toNat
        = modeOf n.isDir (reading perm.toList) % 2 ^ 12 := by
  have hne : perm ≠ "" := fun h => hoctal.ne_nil (by simp [h])
  have hgranted : sys.grantedMode (some perm) n.isDir
      = some (if n.isDir then withExecute (reading perm.toList) else reading perm.toList) := by
    rw [grantedMode, if_pos hne, intBase0_octal hascii hoctal,
      (literal_of_not_refused hoctal hset).1]
    rfl
  have hattr : ((sys.grant uid gid (some perm)).map n).attr
      = sys.grantedAttr uid gid (some perm) n := withAttr_attr hlink _
  rw [hattr, grantedAttr, hgranted, ← toNat_ofInt_modeOf]
  exact ⟨rfl, rfl, rfl⟩

/-- The run that returns: it is right where the two readings are one mode. -/
theorem honoured_of_set (howned : Owned sys permission uid gid)
    (hperm : permission.perm.get = some perm) (hoctal : OctalText perm.toList)
    (hascii : ∀ c, c.toNat < 128 → sys.toAscii c = c) (hset : ¬ Refused perm.toList)
    (hsearch : SearchOk sys (permission.exclude.get.getD []))
    (hpath : permission.path.get = some pattern) (hw : Calm w)
    (hmatch : path ∈ sys.glob w.tree pattern) (hfind : sys.find w.tree true path = .found l n)
    (v : ℕ) :
    sys.Honoured permission v w l n ↔
      modeOf n.isDir (reading perm.toList) % 2 ^ 12 = modeOf n.isDir v := by
  have hok := (permOk_iff hascii hoctal).mpr hset
  obtain ⟨w', hrun, -, hp⟩ := handlePermission_of_calm
    (⟨hpath, howned, hperm ▸ hok, hsearch⟩ : Feasible sys permission pattern uid gid) hw
  have hl := hp.inside l ⟨path, hmatch, Or.inl ⟨n, hfind⟩⟩
  rw [lookup_of_resolve hfind, hperm, Option.map_some] at hl
  rw [Honoured, handlePermissions_singleton hrun]
  dsimp only
  rw [hl]
  obtain ⟨-, -, hmode⟩ := @grant_attr _ sys perm uid gid n hoctal hascii hset (isLink_of_resolve hfind)
  constructor
  · rintro ⟨n', hn', hv⟩
    cases hn'
    rw [← hmode, hv]
  · intro h
    exact ⟨_, rfl, hmode.trans h⟩

theorem Owned.unique {uid' gid' : ℕ} (h : Owned sys permission uid gid)
    (h' : Owned sys permission uid' gid') : uid' = uid ∧ gid' = gid := by
  obtain ⟨owner, howner, huser, hgroup⟩ := h
  obtain ⟨owner', howner', huser', hgroup'⟩ := h'
  rw [howner] at howner'
  cases howner'
  rw [huser] at huser'
  rw [hgroup] at hgroup'
  cases huser'
  cases hgroup'
  exact ⟨rfl, rfl⟩

/-- A text that begins with a zero and is not refused has few digits. -/
theorem valueIn_lt_of_set {cs : List Char} (hcs : OctalText cs) (hset : ¬ Refused cs)
    (hzero : cs.head? = some '0') : valueIn 8 cs < 2 ^ 12 := by
  by_cases hfour : cs.length = 4
  · have hlt := valueIn_lt hcs
    rwa [hfour] at hlt
  · rw [Refused, if_neg hfour, if_pos hzero, not_exists] at hset
    have hall : ∀ c ∈ cs, c = '0' := fun c hc => not_not.mp fun hne => hset c ⟨hc, hne⟩
    rw [(valueIn_eq_zero (by decide) hcs).mpr hall]
    decide

/-- A text of octal digits is honoured just if it is refused before the node has
changed, or it is not refused and begins with a zero or denotes the same mode in base
ten. -/
theorem honoured_iff (hperm : permission.perm.get = some perm) (hoctal : OctalText perm.toList)
    (hascii : ∀ c, c.toNat < 128 → sys.toAscii c = c)
    (hsearch : SearchOk sys (permission.exclude.get.getD []))
    (hpath : permission.path.get = some pattern) (hw : Calm w)
    (hmatch : path ∈ sys.glob w.tree pattern) (hfind : sys.find w.tree true path = .found l n) :
    sys.Honoured permission (valueIn 8 perm.toList) w l n ↔
      ∀ uid gid, Owned sys permission uid gid →
        (Refused perm.toList →
          ∀ dest, (sys.glob w.tree pattern).find? (sys.pathExists w.tree) = some dest →
            l ∈ sys.leadsTo w.tree dest → n.attr = ⟨chownMode n n.attr.mode, uid, gid⟩) ∧
        (¬ Refused perm.toList → perm.toList.head? = some '0' ∨
          modeOf n.isDir (valueIn 10 perm.toList) % 2 ^ 12
            = modeOf n.isDir (valueIn 8 perm.toList)) := by
  by_cases howned : ∃ uid gid, Owned sys permission uid gid
  · obtain ⟨uid, gid, howned⟩ := howned
    have hall : ∀ {P : ℕ → ℕ → Prop},
        (∀ uid gid, Owned sys permission uid gid → P uid gid) ↔ P uid gid := by
      intro P
      refine ⟨fun h => h uid gid howned, fun h uid' gid' howned' => ?_⟩
      obtain ⟨rfl, rfl⟩ := howned.unique howned'
      exact h
    rw [hall]
    by_cases hrefused : Refused perm.toList
    · have hne : perm ≠ "" := fun h => hoctal.ne_nil (by simp [h])
      have hraises : ¬ sys.PermOk (some perm) := fun h => (permOk_iff hascii hoctal).mp h hrefused
      rw [honoured_of_refused howned hperm hne hraises hpath hw hmatch hfind]
      exact ⟨fun h => ⟨fun _ => h, fun h' => absurd hrefused h'⟩, fun h => h.1 hrefused⟩
    · rw [honoured_of_set howned hperm hoctal hascii hrefused hsearch hpath hw hmatch hfind, reading]
      have hsame : perm.toList.head? = some '0' → modeOf n.isDir (valueIn 8 perm.toList) % 2 ^ 12
          = modeOf n.isDir (valueIn 8 perm.toList) := fun hzero =>
        Nat.mod_eq_of_lt (modeOf_lt (valueIn_lt_of_set hoctal hrefused hzero))
      by_cases hzero : perm.toList.head? = some '0'
      · rw [if_pos hzero]
        exact ⟨fun _ => ⟨fun h => absurd h hrefused, fun _ => Or.inl hzero⟩, fun _ => hsame hzero⟩
      · rw [if_neg hzero]
        exact ⟨fun h => ⟨fun h' => absurd h' hrefused, fun _ => Or.inr h⟩,
          fun h => (h.2 hrefused).resolve_left hzero⟩
  · have hno : ∀ uid gid, ¬ Owned sys permission uid gid := fun uid gid h => howned ⟨uid, gid, h⟩
    obtain ⟨e, hrun⟩ := handlePermission_of_unowned hno w
    have hrun' : sys.handlePermissions [permission] w = .error e w := bind_of_error hrun
    refine iff_of_true ?_ fun uid gid h => absurd h (hno uid gid)
    rw [Honoured, hrun']
    exact ⟨n, lookup_of_resolve hfind, rfl⟩

/-! ## Three digits -/

/-- One file goes to another user. -/
def filePermission (perm : String) : Permission where
  path := .given ["", "data", "a.key"]
  owner := .given "nova"
  recurse := .absent
  perm := .given perm
  exclude := .absent

/-- `honoured_iff` for four digits. -/
theorem honoured_four :
    searchSystem.Honoured (filePermission "0640") (valueIn 8 "0640".toList) ⟨keyTree, []⟩
      ["data", "a.key"] (rootFile "k") := by
  have hdigits : "0640".toList.all (fun c => decide ('0' ≤ c ∧ c ≤ '7')) = true := by
    decide +kernel
  have hoctal : OctalText "0640".toList :=
    ⟨by decide +kernel, fun c hc => of_decide_eq_true (List.all_eq_true.mp hdigits c hc)⟩
  have hcalm : Calm (⟨keyTree, []⟩ : World Content) := fun _ h => by cases h
  refine (@honoured_iff _ searchSystem (filePermission "0640") "0640" ["", "data", "a.key"]
    ["", "data", "a.key"] ⟨keyTree, []⟩ ["data", "a.key"] (rootFile "k") rfl hoctal
    (fun _ _ => rfl) ?_ rfl hcalm (by decide +kernel) (by decide +kernel)).mpr ?_
  · rintro e he
    cases he
  · intro uid gid _
    exact ⟨fun h => absurd (by decide +kernel) h, fun _ => Or.inl (by decide +kernel)⟩

/-- `644` is read in base ten, which is `0o1204`. -/
theorem three_digits :
    ¬ searchSystem.Honoured (filePermission "644") (valueIn 8 "644".toList) ⟨keyTree, []⟩
      ["data", "a.key"] (rootFile "k") := by
  intro h
  have hrun := eq_ok_of_answer (r := searchSystem.handlePermissions [filePermission "644"]
    ⟨keyTree, []⟩) (a := ()) (by decide +kernel)
  rw [Honoured, hrun] at h
  obtain ⟨n, hn, hmode⟩ := h
  have hset : ((exitState (searchSystem.handlePermissions [filePermission "644"]
      ⟨keyTree, []⟩)).tree.lookup ["data", "a.key"]).map (fun n => n.attr.mode.toNat)
        = some 0o1204 := by decide +kernel
  rw [hn, Option.map_some, hmode] at hset
  exact absurd hset (by decide +kernel)

end System

end Kolla.SetConfigs
