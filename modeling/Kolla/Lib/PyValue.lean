import Kolla.Lib.Dict
import Kolla.Lib.Program
import Mathlib

/-!
# Values that a YAML loader makes

Texts, integers, lists and dictionaries of Python, and values of other kinds, of
which `Runtime` gives what the operations need to know.  `item` is the subscript,
`contains` the operator `in`, `elements` what a loop goes through, and `update` the
method of a dictionary.
-/

namespace Kolla.Lib

/-- A key of a dictionary. -/
inductive PyKey (α : Type) where
  | str (s : String)
  | int (n : ℤ)
  | other (a : α)
  deriving DecidableEq

inductive PyValue (α : Type) where
  | str (s : String)
  | int (n : ℤ)
  | other (a : α)
  | list (xs : List (PyValue α))
  | dict (items : List (PyKey α × PyValue α))

inductive PyFailure where
  | typeError
  | keyError
  | valueError
  | osError
  | yamlError
  deriving DecidableEq

/-- What `str`, `==`, `iter`, `in` and `hash` make of values. -/
structure Runtime (α : Type) where
  format : PyValue α → String
  eqv : PyValue α → PyValue α → Bool
  iterate : α → Option (List (PyValue α))
  holds : α → String → Option Bool
  hashable : α → Bool
  format_str : ∀ s, format (.str s) = s
  eqv_str : ∀ s s', eqv (.str s) (.str s') = decide (s = s')

variable {α : Type} [DecidableEq α]

def PyKey.toValue : PyKey α → PyValue α
  | .str s => .str s
  | .int n => .int n
  | .other a => .other a

namespace PyValue

/-- `value[key]`. -/
def item : PyValue α → String → Except PyFailure (PyValue α)
  | .dict items, key =>
    match items.lookup (.str key) with
    | some value => .ok value
    | none => .error .keyError
  | _, _ => .error .typeError

/-- `value[key] = new`. -/
def setItem : PyValue α → String → PyValue α → Except PyFailure (PyValue α)
  | .dict items, key, new => .ok (.dict (Dict.insert items (.str key) new))
  | _, _, _ => .error .typeError

end PyValue

namespace Runtime

variable (rt : Runtime α)

/-- `hash(value)` for a key. -/
def key : PyValue α → Except PyFailure (PyKey α)
  | .str s => .ok (.str s)
  | .int n => .ok (.int n)
  | .other a => if rt.hashable a then .ok (.other a) else .error .typeError
  | _ => .error .typeError

/-- `text in value`. -/
def contains (text : String) : PyValue α → Except PyFailure Bool
  | .str s => .ok (decide (text.toList <:+: s.toList))
  | .int _ => .error .typeError
  | .other a =>
    match rt.holds a text with
    | some b => .ok b
    | none => .error .typeError
  | .list xs => .ok (xs.any (rt.eqv (.str text)))
  | .dict items => .ok (items.lookup (.str text)).isSome

/-- `list(value)`. -/
def elements : PyValue α → Except PyFailure (List (PyValue α))
  | .str s => .ok (s.toList.map fun c => .str (String.singleton c))
  | .int _ => .error .typeError
  | .other a =>
    match rt.iterate a with
    | some xs => .ok xs
    | none => .error .typeError
  | .list xs => .ok xs
  | .dict items => .ok (items.map fun e => e.1.toValue)

/-- `config.update(value)`: the items of a dictionary, or pairs. -/
def update (config : Dict (PyKey α) (PyValue α)) :
    PyValue α → Except PyFailure (Dict (PyKey α) (PyValue α))
  | .dict items => .ok (items.foldl (fun config e => Dict.insert config e.1 e.2) config)
  | value => do
    let pairs ← rt.elements value
    pairs.foldlM (fun config pair => do
      match ← rt.elements pair with
      | [key, value] => return Dict.insert config (← rt.key key) value
      | _ => throw .valueError) config

end Runtime

/-! ## Subscripts -/

theorem Dict.lookup_insert {κ ν : Type} [DecidableEq κ] (d : Dict κ ν) (key : κ) (value : ν)
    (k : κ) : (d.insert key value).lookup k = if k = key then some value else d.lookup k := by
  induction d with
  | nil =>
    by_cases hk : k = key
    · simp [Dict.insert, hk]
    · simp [Dict.insert, List.lookup_cons, beq_eq_false_iff_ne.mpr hk, hk]
  | cons e d ih =>
    obtain ⟨k', v⟩ := e
    by_cases hk' : k' = key
    · subst hk'
      by_cases hk : k = k'
      · simp [Dict.insert, hk]
      · simp [Dict.insert, List.lookup_cons, beq_eq_false_iff_ne.mpr hk, hk]
    · rw [Dict.insert, if_neg hk', List.lookup_cons, List.lookup_cons, ih]
      by_cases hk : k = k'
      · subst hk
        simp [hk']
      · simp [beq_eq_false_iff_ne.mpr hk]

namespace PyValue

/-- A key that a value does not contain is not one of its items. -/
theorem item_of_not_contains {rt : Runtime α} {value : PyValue α} {key : String}
    (h : rt.contains key value = .ok false) : ∃ e, value.item key = .error e := by
  cases value with
  | dict items =>
    rw [Runtime.contains, Except.ok.injEq, Option.isSome_eq_false_iff,
      Option.isNone_iff_eq_none] at h
    exact ⟨.keyError, by rw [item, h]⟩
  | str s => exact ⟨.typeError, rfl⟩
  | int n => exact ⟨.typeError, rfl⟩
  | other a => exact ⟨.typeError, rfl⟩
  | list xs => exact ⟨.typeError, rfl⟩

end PyValue

end Kolla.Lib
