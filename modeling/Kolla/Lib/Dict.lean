import Mathlib.Data.List.Basic
import Mathlib.Data.List.Nodup

/-!
# Insertion-ordered dictionaries

A Python `dict` as an association list.  Assigning to a key that is
present replaces its value in place, and assigning to a new key appends,
so iteration follows the order of the first assignments.
-/

namespace Kolla.Lib

/-- The items of a dictionary, in iteration order. -/
abbrev Dict (κ ν : Type) := List (κ × ν)

namespace Dict

variable {κ ν : Type} [DecidableEq κ]

/-- `d.keys()`. -/
def keys (d : Dict κ ν) : List κ := d.map Prod.fst

/-- `d.values()`. -/
def values (d : Dict κ ν) : List ν := d.map Prod.snd

/-- `d[key] = value`. -/
def insert : Dict κ ν → κ → ν → Dict κ ν
  | [], key, value => [(key, value)]
  | (k, v) :: rest, key, value =>
    if k = key then (key, value) :: rest else (k, v) :: insert rest key value

omit [DecidableEq κ] in
@[simp] theorem keys_nil : keys ([] : Dict κ ν) = [] := rfl

omit [DecidableEq κ] in
@[simp] theorem keys_cons (e : κ × ν) (d : Dict κ ν) : keys (e :: d) = e.1 :: keys d := rfl

omit [DecidableEq κ] in
theorem mem_keys_of_mem {d : Dict κ ν} {key : κ} {value : ν} (h : (key, value) ∈ d) :
    key ∈ d.keys :=
  List.mem_map_of_mem h

omit [DecidableEq κ] in
theorem exists_of_mem_keys {d : Dict κ ν} {key : κ} (h : key ∈ d.keys) :
    ∃ value, (key, value) ∈ d := by
  obtain ⟨⟨k, v⟩, hmem, rfl⟩ := List.mem_map.mp h
  exact ⟨v, hmem⟩

/-- The keys after an assignment. -/
theorem mem_keys_insert {d : Dict κ ν} {key k : κ} {value : ν} :
    k ∈ (d.insert key value).keys ↔ k = key ∨ k ∈ d.keys := by
  induction d with
  | nil => simp [insert]
  | cons e d ih =>
    obtain ⟨k', v⟩ := e
    by_cases hk : k' = key
    · subst hk
      simp [insert]
    · simp only [insert, hk, if_false, keys_cons, List.mem_cons, ih]
      tauto

/-- An assignment keeps the keys distinct. -/
theorem nodup_keys_insert {d : Dict κ ν} (h : d.keys.Nodup) (key : κ) (value : ν) :
    (d.insert key value).keys.Nodup := by
  induction d with
  | nil => simp [insert]
  | cons e d ih =>
    obtain ⟨k, v⟩ := e
    rw [keys_cons, List.nodup_cons] at h
    by_cases hk : k = key
    · subst hk
      simpa [insert] using h
    · simp only [insert, hk, if_false, keys_cons, List.nodup_cons]
      refine ⟨?_, ih h.2⟩
      rw [mem_keys_insert, not_or]
      exact ⟨hk, h.1⟩

/-- The items after an assignment: the new one, and the old ones under
other keys. -/
theorem mem_insert {d : Dict κ ν} (h : d.keys.Nodup) {key : κ} {value : ν} {e : κ × ν} :
    e ∈ d.insert key value ↔ e = (key, value) ∨ e ∈ d ∧ e.1 ≠ key := by
  induction d with
  | nil => simp [insert]
  | cons e' d ih =>
    obtain ⟨k, v⟩ := e'
    rw [keys_cons, List.nodup_cons] at h
    by_cases hk : k = key
    · subst hk
      simp only [insert, if_true, List.mem_cons]
      constructor
      · rintro (rfl | hmem)
        · exact Or.inl rfl
        · refine Or.inr ⟨Or.inr hmem, ?_⟩
          rintro rfl
          exact h.1 (mem_keys_of_mem hmem)
      · rintro (rfl | ⟨rfl | hmem, hne⟩)
        · exact Or.inl rfl
        · exact absurd rfl hne
        · exact Or.inr hmem
    · simp only [insert, hk, if_false, List.mem_cons, ih h.2]
      constructor
      · rintro (rfl | rfl | ⟨hmem, hne⟩)
        · exact Or.inr ⟨Or.inl rfl, hk⟩
        · exact Or.inl rfl
        · exact Or.inr ⟨Or.inr hmem, hne⟩
      · rintro (rfl | ⟨rfl | hmem, hne⟩)
        · exact Or.inr (Or.inl rfl)
        · exact Or.inl rfl
        · exact Or.inr (Or.inr ⟨hmem, hne⟩)

end Dict

end Kolla.Lib
