import Mathlib.Data.List.Basic
import Mathlib.Data.List.Infix

/-!
# Keeping what nothing kept earlier masks

`keepUnmasked mask kept xs` goes through `xs` and appends each element to
`kept`, unless one that is kept already masks it.  With a mask that holds of
every element and itself the result is a set of distinct elements, and going
through `xs` a second time changes nothing (`keepUnmasked_again`).  It is the
list of distinct elements in the order of their first appearance exactly if
none of these masks a later one (`keepUnmasked_eq_eraseDups_iff`).
-/

namespace Kolla.Lib

variable {α : Type} {mask : α → α → Bool} {kept xs ys : List α} {x : α}

/-- Appends `x`, unless an element of `kept` masks it. -/
def keepOne (mask : α → α → Bool) (kept : List α) (x : α) : List α :=
  if kept.any (mask · x) then kept else kept ++ [x]

def keepUnmasked (mask : α → α → Bool) (kept xs : List α) : List α :=
  xs.foldl (keepOne mask) kept

@[simp] theorem keepUnmasked_nil : keepUnmasked mask kept [] = kept := rfl

theorem keepUnmasked_append :
    keepUnmasked mask kept (xs ++ ys) = keepUnmasked mask (keepUnmasked mask kept xs) ys :=
  List.foldl_append

theorem keepOne_prefix : kept <+: keepOne mask kept x := by
  rw [keepOne]
  split
  · exact List.prefix_rfl
  · exact List.prefix_append _ _

theorem keepUnmasked_prefix : kept <+: keepUnmasked mask kept xs := by
  induction xs generalizing kept with
  | nil => exact List.prefix_rfl
  | cons x xs ih => exact keepOne_prefix.trans ih

theorem mem_of_mem_keepUnmasked (h : x ∈ keepUnmasked mask kept xs) : x ∈ kept ∨ x ∈ xs := by
  induction xs generalizing kept with
  | nil => exact .inl h
  | cons y xs ih =>
    rcases ih h with hy | hx
    · rw [keepOne] at hy
      split at hy
      · exact .inl hy
      · rcases List.mem_append.mp hy with hx | hx
        · exact .inl hx
        · exact .inr (by simp [List.mem_singleton.mp hx])
    · exact .inr (List.mem_cons_of_mem _ hx)

theorem any_of_prefix {kept' : List α} (h : kept <+: kept') (hx : kept.any (mask · x)) :
    kept'.any (mask · x) := by
  obtain ⟨y, hy, hmask⟩ := List.any_eq_true.mp hx
  exact List.any_eq_true.mpr ⟨y, h.subset hy, hmask⟩

/-- Once gone through, an element is masked. -/
theorem any_keepUnmasked (hrefl : ∀ x, mask x x = true) (hx : x ∈ xs) :
    (keepUnmasked mask kept xs).any (mask · x) := by
  induction xs generalizing kept with
  | nil => cases hx
  | cons y xs ih =>
    rcases List.mem_cons.mp hx with rfl | hx
    · have hkept : (keepOne mask kept x).any (mask · x) := by
        rw [keepOne]
        split
        · assumption
        · simp [hrefl]
      have hrest : keepOne mask kept x <+: keepUnmasked mask kept (x :: xs) := keepUnmasked_prefix
      exact any_of_prefix hrest hkept
    · exact ih hx

theorem keepUnmasked_of_masked (h : ∀ x ∈ xs, kept.any (mask · x)) :
    keepUnmasked mask kept xs = kept := by
  induction xs with
  | nil => rfl
  | cons x xs ih =>
    have hx : keepOne mask kept x = kept := if_pos (h x (by simp))
    rw [keepUnmasked, List.foldl_cons, hx]
    exact ih fun y hy => h y (by simp [hy])

/-- Going through the elements of an earlier pass again changes nothing. -/
theorem keepUnmasked_again (hrefl : ∀ x, mask x x = true) :
    keepUnmasked mask (keepUnmasked mask kept xs) (xs ++ ys)
      = keepUnmasked mask kept (xs ++ ys) := by
  rw [keepUnmasked_append, keepUnmasked_append,
    keepUnmasked_of_masked fun x hx => any_keepUnmasked hrefl hx]

/-- What is kept is not masked by what was kept before it. -/
theorem pairwise_keepUnmasked (h : kept.Pairwise fun x y => mask x y = false) :
    (keepUnmasked mask kept xs).Pairwise fun x y => mask x y = false := by
  induction xs generalizing kept with
  | nil => exact h
  | cons x xs ih =>
    refine ih ?_
    rw [keepOne]
    split
    · exact h
    · rename_i hx
      refine List.pairwise_append.mpr ⟨h, List.pairwise_singleton _ _, fun y hy z hz => ?_⟩
      rw [List.mem_singleton.mp hz]
      by_contra hmask
      exact hx (List.any_eq_true.mpr ⟨y, hy, by simpa using hmask⟩)

/-- The pass is the removal of duplicates among what nothing masks yet. -/
theorem keepUnmasked_eq_eraseDupsBy : keepUnmasked mask kept xs
    = kept ++ (xs.filter fun x => !kept.any (mask · x)).eraseDupsBy fun x y => mask y x := by
  induction xs generalizing kept with
  | nil => simp
  | cons x xs ih =>
    have hstep : keepUnmasked mask kept (x :: xs) = keepUnmasked mask (keepOne mask kept x) xs := rfl
    rw [hstep, ih, keepOne]
    cases hx : kept.any (mask · x) with
    | true => simp [hx]
    | false =>
      have hrest : (xs.filter fun y => !(kept ++ [x]).any (mask · y))
          = (xs.filter fun y => !kept.any (mask · y)).filter fun y => mask x y = false := by
        rw [List.filter_filter]
        refine List.filter_congr fun y _ => ?_
        rw [List.any_append, List.any_cons, List.any_nil, Bool.or_false, Bool.not_or, Bool.and_comm]
        cases mask x y <;> rfl
      rw [if_neg Bool.false_ne_true, List.filter_cons_of_pos (by simp [hx]), List.eraseDupsBy_cons,
        hrest, List.append_assoc, List.singleton_append]

/-- Every distinct element is kept exactly if none of them masks one that
appears after it. -/
theorem keepUnmasked_eq_eraseDups_iff [BEq α] [LawfulBEq α] (hrefl : ∀ x, mask x x = true) :
    keepUnmasked mask [] xs = xs.eraseDups ↔ xs.eraseDups.Pairwise fun a b => mask a b = false := by
  induction xs using List.reverseRecOn with
  | nil => simp
  | append_singleton xs x ih =>
    rw [keepUnmasked_append, List.eraseDups_append]
    by_cases hx : x ∈ xs
    · have hmasked : keepUnmasked mask (keepUnmasked mask [] xs) [x] = keepUnmasked mask [] xs :=
        keepUnmasked_of_masked fun y hy => by
          rw [List.mem_singleton.mp hy]
          exact any_keepUnmasked hrefl hx
      have hnone : [x].removeAll xs = [] := by simp [List.removeAll, hx]
      rw [hmasked, hnone, List.eraseDups_nil, List.append_nil]
      exact ih
    · have hsome : [x].removeAll xs = [x] := by simp [List.removeAll, hx]
      have hone : keepUnmasked mask (keepUnmasked mask [] xs) [x]
          = keepOne mask (keepUnmasked mask [] xs) x := rfl
      have hdups : [x].eraseDups = [x] := by simp [List.eraseDups_cons]
      rw [hsome, hone, keepOne, hdups, List.pairwise_append]
      split_ifs with hmasked
      · -- `x` is left out, so the two lists differ, and some kept element masks `x`
        refine iff_of_false (fun h => hx ?_) fun h => ?_
        · have hmem : x ∈ keepUnmasked mask [] xs := by simp [h]
          simpa using mem_of_mem_keepUnmasked hmem
        · rw [ih.mpr h.1] at hmasked
          obtain ⟨y, hy, hyx⟩ := List.any_eq_true.mp hmasked
          simp [h.2.2 y hy x (by simp)] at hyx
      · constructor
        · intro h
          have hkept := List.append_cancel_right h
          refine ⟨ih.mp hkept, List.pairwise_singleton _ _, fun y hy z hz => ?_⟩
          rw [List.mem_singleton.mp hz]
          by_contra hyx
          exact hmasked (List.any_eq_true.mpr ⟨y, hkept ▸ hy, by simpa using hyx⟩)
        · intro h
          rw [ih.mpr h.1]

end Kolla.Lib
