import Mathlib.Data.List.Infix

/-!
# One tree laid over another

A tree is here what it has at each list of names: `src rel = some c`, or `none`.
`Overlaid leaf src old new` says that `new` is `src` laid over `old`: it has what
`src` has, and what `old` has wherever `src` has nothing, except below a leaf of
`src`.

The relation determines `new` (`Overlaid.unique`), laying the same tree over the
result changes nothing (`Overlaid.again`), and over nothing the result is the
tree itself (`Overlaid.eq_of_none`).  `stack` lays several trees over one another
(`stack_eq_findSome`).
-/

namespace Kolla.Lib

variable {κ γ : Type}

/-- There is a leaf on the way. -/
def Hidden (leaf : γ → Prop) (src : List κ → Option γ) (rel : List κ) : Prop :=
  ∃ init c, init <+: rel ∧ src init = some c ∧ leaf c

theorem Hidden.cons {leaf : γ → Prop} {src : List κ → Option γ} {x : κ} {rel : List κ}
    (h : Hidden leaf (fun rel => src (x :: rel)) rel) : Hidden leaf src (x :: rel) := by
  obtain ⟨init, c, hinit, hc, hleaf⟩ := h
  exact ⟨x :: init, c, List.cons_prefix_cons.mpr ⟨rfl, hinit⟩, hc, hleaf⟩

structure Overlaid (leaf : γ → Prop) (src old new : List κ → Option γ) : Prop where
  there : ∀ rel c, src rel = some c → new rel = some c
  gone : ∀ rel, src rel = none → Hidden leaf src rel → new rel = none
  kept : ∀ rel, src rel = none → ¬ Hidden leaf src rel → new rel = old rel

namespace Overlaid

variable {leaf : γ → Prop} {src old old' new new' : List κ → Option γ}

/-- What was there before counts only where the source has nothing. -/
theorem congr (h : Overlaid leaf src old new) (hold : ∀ rel, src rel = none → old' rel = old rel) :
    Overlaid leaf src old' new :=
  ⟨h.there, h.gone, fun rel hnone hfree => (h.kept rel hnone hfree).trans (hold rel hnone).symm⟩

/-- There is one way to lay a tree over another. -/
theorem unique (h : Overlaid leaf src old new) (h' : Overlaid leaf src old new') : new = new' := by
  funext rel
  cases hsrc : src rel with
  | some c => rw [h.there rel c hsrc, h'.there rel c hsrc]
  | none =>
    by_cases hhidden : Hidden leaf src rel
    · rw [h.gone rel hsrc hhidden, h'.gone rel hsrc hhidden]
    · rw [h.kept rel hsrc hhidden, h'.kept rel hsrc hhidden]

/-- A tree that lies there already. -/
theorem again (h : Overlaid leaf src old new) : Overlaid leaf src new new :=
  ⟨h.there, h.gone, fun _ _ _ => rfl⟩

theorem eq_of_none (h : Overlaid leaf src old new) (hold : ∀ rel, old rel = none) : new = src := by
  funext rel
  cases hsrc : src rel with
  | some c => exact h.there rel c hsrc
  | none =>
    by_cases hhidden : Hidden leaf src rel
    · exact h.gone rel hsrc hhidden
    · rw [h.kept rel hsrc hhidden, hold]

/-- Nothing laid over a tree. -/
theorem of_none (hsrc : ∀ rel, src rel = none) (hnew : ∀ rel, new rel = old rel) :
    Overlaid leaf src old new := by
  refine ⟨fun rel c h => ?_, fun rel _ ⟨init, c, _, h, _⟩ => ?_, fun rel _ _ => hnew rel⟩
  · rw [hsrc] at h
    cases h
  · rw [hsrc] at h
    cases h

/-- A leaf laid over a tree. -/
theorem of_leaf {c : γ} (hroot : src [] = some c) (hleaf : leaf c)
    (hnew : ∀ rel, new rel = src rel) :
    Overlaid leaf src old new := by
  refine ⟨fun rel c h => (hnew rel).trans h, fun rel h _ => (hnew rel).trans h, ?_⟩
  exact fun rel _ hfree => absurd ⟨[], c, List.nil_prefix, hroot, hleaf⟩ hfree

/-- An inner node laid over a tree, entry by entry. -/
theorem of_entries {c : γ} (hroot : src [] = some c) (hinner : ¬ leaf c) (hnew : new [] = some c)
    (hentries : ∀ x, Overlaid leaf (fun rel => src (x :: rel)) (fun rel => old (x :: rel))
      fun rel => new (x :: rel)) : Overlaid leaf src old new := by
  have hhidden : ∀ x rel, Hidden leaf src (x :: rel) → Hidden leaf (fun rel => src (x :: rel)) rel := by
    rintro x rel ⟨init, d, hinit, hd, hleaf⟩
    cases init with
    | nil =>
      rw [hroot] at hd
      cases hd
      exact absurd hleaf hinner
    | cons y init =>
      obtain ⟨rfl, hinit'⟩ := List.cons_prefix_cons.mp hinit
      exact ⟨init, d, hinit', hd, hleaf⟩
  constructor
  · intro rel d h
    cases rel with
    | nil =>
      rw [hroot] at h
      rw [hnew, h]
    | cons x rel => exact (hentries x).there rel d h
  · intro rel h hhid
    cases rel with
    | nil =>
      rw [hroot] at h
      cases h
    | cons x rel => exact (hentries x).gone rel h (hhidden x rel hhid)
  · intro rel h hfree
    cases rel with
    | nil =>
      rw [hroot] at h
      cases h
    | cons x rel => exact (hentries x).kept rel h (mt Hidden.cons hfree)

end Overlaid

/-! ## Layers

Where no leaf stands over an inner node there is nothing to hide, and the upper tree
counts wherever it has something. -/

/-- `new` has what `upper` has, and what `lower` has where `upper` has nothing. -/
def Over (upper lower new : List κ → Option γ) : Prop :=
  ∀ rel, new rel = (upper rel).or (lower rel)

/-- Each layer lies over the ones before it. -/
def stack (lower : List κ → Option γ) (layers : List (List κ → Option γ)) : List κ → Option γ :=
  layers.foldl (fun lower upper rel => (upper rel).or (lower rel)) lower

theorem stack_append (lower : List κ → Option γ) (layers layers' : List (List κ → Option γ)) :
    stack lower (layers ++ layers') = stack (stack lower layers) layers' :=
  List.foldl_append

/-- The last layer that has something counts. -/
theorem stack_eq_findSome (lower : List κ → Option γ) (layers : List (List κ → Option γ))
    (rel : List κ) :
    stack lower layers rel = (layers.reverse.findSome? fun layer => layer rel).or (lower rel) := by
  induction layers using List.reverseRecOn with
  | nil => rfl
  | append_singleton layers upper ih =>
    rw [stack_append, List.reverse_append, List.reverse_singleton, List.singleton_append,
      List.findSome?_cons]
    change (upper rel).or (stack lower layers rel) = _
    cases hupper : upper rel with
    | none => simpa [hupper] using ih
    | some c => simp

end Kolla.Lib
