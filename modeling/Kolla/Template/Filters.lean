import Kolla.Lib.Dict
import Mathlib.Data.List.Count
import Mathlib.Data.List.Basic

/-!
# Customised package lists

The filter `customizable` of `kolla/template/filters.py`.  A template
overrides a list, or it appends to the list and removes from it.

The loop over the removals takes out one occurrence at a time, so the
filter removes an element as often as the list of removals names it
(`count_removed`).  That is all occurrences if and only if there are no more
of them than that (`customizable_eq_iff`).
-/

namespace Kolla.Template

open Kolla.Lib

variable {α : Type} [DecidableEq α]

/-- The variables of a template that the filter looks at. -/
structure Context (α : Type) where
  imageName : String
  lists : Dict String (List α)

/-- The beginning of the names of the three variables. -/
def customName (context : Context α) (callType : String) : String :=
  String.ofList (context.imageName.toList.map fun c => if c = '-' then '_' else c)
    ++ "_" ++ callType ++ "_"

/-- One removal: `val_list.remove(removal)` takes out the first occurrence. -/
def removeOne (valList : List α) (removal : α) : List α :=
  if removal ∈ valList then valList.erase removal else valList

/-- `customizable`; an undefined list is left alone. -/
def customizable (context : Context α) (valList : Option (List α)) (callType : String) :
    Option (List α) :=
  match valList with
  | none => none
  | some valList =>
    let name := customName context callType
    match context.lists.lookup (name ++ "override") with
    | some override => some override
    | none =>
      let valList := valList ++ (context.lists.lookup (name ++ "append")).getD []
      some (((context.lists.lookup (name ++ "remove")).getD []).foldl removeOne valList)

/-! ## The removals -/

theorem removeOne_eq_erase (valList : List α) (removal : α) :
    removeOne valList removal = valList.erase removal := by
  rw [removeOne]
  split
  · rfl
  · rename_i hmem
    rw [List.erase_of_not_mem hmem]

/-- Each removal takes out one occurrence, as long as there is one. -/
theorem count_removed (removals valList : List α) (x : α) :
    (removals.foldl removeOne valList).count x = valList.count x - removals.count x := by
  induction removals generalizing valList with
  | nil => simp
  | cons removal removals ih =>
    rw [List.foldl_cons, ih, removeOne_eq_erase, List.count_cons]
    by_cases hx : removal = x
    · subst hx
      rw [List.count_erase_self]
      simp
      omega
    · rw [List.count_erase_of_ne (Ne.symm hx)]
      simp [hx]

/-- A removal does not change what is kept of the list. -/
theorem filter_removed {removals : List α} {keep : α → Bool}
    (hkeep : ∀ x ∈ removals, keep x = false) (valList : List α) :
    (removals.foldl removeOne valList).filter keep = valList.filter keep := by
  induction removals generalizing valList with
  | nil => rfl
  | cons removal removals ih =>
    obtain ⟨hremoval, hremovals⟩ := List.forall_mem_cons.mp hkeep
    rw [List.foldl_cons, ih hremovals, removeOne_eq_erase, ← List.erase_filter, List.erase_of_not_mem]
    rw [List.mem_filter]
    rintro ⟨-, hk⟩
    rw [hremoval] at hk
    cases hk

/-- What is removed is removed throughout if and only if the list of
removals names it often enough. -/
theorem removed_eq_filter_iff (removals valList : List α) :
    removals.foldl removeOne valList = valList.filter (· ∉ removals) ↔
      ∀ x ∈ removals, valList.count x ≤ removals.count x := by
  constructor
  · intro h x hx
    have hcount := count_removed removals valList x
    rw [h, List.count_eq_zero_of_not_mem (by simp [hx])] at hcount
    omega
  · intro h
    have hgone : ∀ x ∈ removals.foldl removeOne valList, decide (x ∉ removals) = true := by
      intro x hx
      rw [decide_eq_true_eq]
      intro hremoved
      have hcount := count_removed removals valList x
      have hpos := List.count_pos_iff.mpr hx
      have hle := h x hremoved
      omega
    have hkeep : ∀ x ∈ removals, decide (x ∉ removals) = false := by simp
    rw [← filter_removed hkeep valList, List.filter_eq_self.mpr hgone]

/-! ## The filter -/

/-- The lists that the template customises a list with. -/
def Context.appended (context : Context α) (callType : String) : List α :=
  (context.lists.lookup (customName context callType ++ "append")).getD []

def Context.removed (context : Context α) (callType : String) : List α :=
  (context.lists.lookup (customName context callType ++ "remove")).getD []

/-- Without an override, the filter gives the list and what is appended to it
less everything that is removed, if and only if no removed element occurs more
often than it is removed. -/
theorem customizable_eq_iff {context : Context α} {callType : String}
    (hoverride : context.lists.lookup (customName context callType ++ "override") = none)
    (valList : List α) :
    customizable context (some valList) callType
        = some ((valList ++ context.appended callType).filter (· ∉ context.removed callType)) ↔
      ∀ x ∈ context.removed callType,
        (valList ++ context.appended callType).count x ≤ (context.removed callType).count x := by
  rw [← removed_eq_filter_iff, customizable]
  simp only [hoverride, Option.some_inj]
  rfl

/-- A template that removes one package. -/
def horizonContext : Context String where
  imageName := "horizon-base"
  lists := [("horizon_base_packages_remove", ["locales"])]

/-- `customizable_eq_iff` for a package that occurs once. -/
theorem customizable_locales :
    customizable horizonContext (some ["apache2", "locales"]) "packages" = some ["apache2"] :=
  (@customizable_eq_iff _ _ horizonContext "packages" (by decide +kernel)
    ["apache2", "locales"]).mpr (by decide +kernel)

/-- Of a package that occurs twice, one is left. -/
theorem repeated_left :
    horizonContext.lists.lookup (customName horizonContext "packages" ++ "override") = none ∧
      customizable horizonContext (some ["locales", "apache2", "locales"]) "packages"
        ≠ some ((["locales", "apache2", "locales"] ++ horizonContext.appended "packages").filter
            (· ∉ horizonContext.removed "packages")) := by
  decide +kernel

end Kolla.Template
