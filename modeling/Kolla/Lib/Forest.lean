import Mathlib.Data.Finset.Card
import Mathlib.Data.Finset.Dedup
import Mathlib.Logic.Relation

/-!
# Parent links

A forest given by its parent links alone: `par : ι → Option ι`.
`Ancestor par x a` follows at least one link, and `Acyclic par` says that
nothing is its own ancestor.

Only finitely many nodes are ever a parent in the uses of this module, and
then an acyclic link structure has a rank: `exists_rank` counts the
ancestors of a node.  Every walk towards the roots is bounded by it
(`Acyclic.exists_rank`), and every induction over the forest is an
induction on it.

A walk may have nodes of its own at which it stops.  It ends from every start
if every cycle has such a node (`exists_rank_of_exits`); on a cycle without one
every node has a parent that is no exit (`Ancestor.stays`).
-/

namespace Kolla.Lib

variable {ι : Type}

/-- `a` is reached from `x` by following parent links, at least one. -/
def Ancestor (par : ι → Option ι) : ι → ι → Prop :=
  Relation.TransGen (fun x p => par x = some p)

/-- Nothing is its own ancestor. -/
def Acyclic (par : ι → Option ι) : Prop :=
  ∀ x, ¬ Ancestor par x x

variable {par : ι → Option ι}

theorem Ancestor.single {x p : ι} (h : par x = some p) : Ancestor par x p :=
  Relation.TransGen.single h

theorem Ancestor.head {x p a : ι} (h : par x = some p) (ha : Ancestor par p a) :
    Ancestor par x a :=
  Relation.TransGen.head h ha

theorem Ancestor.tail {x a b : ι} (h : Ancestor par x a) (hb : par a = some b) :
    Ancestor par x b :=
  Relation.TransGen.tail h hb

theorem Ancestor.trans {x y z : ι} (h : Ancestor par x y) (h' : Ancestor par y z) :
    Ancestor par x z :=
  Relation.TransGen.trans h h'

/-- The ancestors of a node are its parent and the ancestors of its
parent. -/
theorem ancestor_iff {x a : ι} :
    Ancestor par x a ↔ ∃ p, par x = some p ∧ (a = p ∨ Ancestor par p a) := by
  constructor
  · intro h
    obtain ⟨p, hp, hrest⟩ := Relation.TransGen.head'_iff.mp h
    rcases Relation.reflTransGen_iff_eq_or_transGen.mp hrest with he | ht
    · exact ⟨p, hp, Or.inl he⟩
    · exact ⟨p, hp, Or.inr ht⟩
  · rintro ⟨p, hp, rfl | ht⟩
    · exact Ancestor.single hp
    · exact Ancestor.head hp ht

/-- A root has no ancestor. -/
theorem not_ancestor_of_none {x a : ι} (h : par x = none) : ¬ Ancestor par x a := by
  intro ha
  obtain ⟨p, hp, _⟩ := ancestor_iff.mp ha
  rw [h] at hp
  cases hp

/-- Every ancestor is the parent of something. -/
theorem Ancestor.exists_child {x a : ι} (h : Ancestor par x a) :
    ∃ y, par y = some a := by
  obtain ⟨y, _, hy⟩ := Relation.TransGen.tail'_iff.mp h
  exact ⟨y, hy⟩

/-- A property that passes from every node to its parent passes to every
ancestor. -/
theorem Ancestor.upward {P : ι → Prop} (hup : ∀ x p, par x = some p → P x → P p)
    {x a : ι} (h : Ancestor par x a) (hx : P x) : P a := by
  induction h with
  | single hp => exact hup _ _ hp hx
  | tail _ hp ih => exact hup _ _ hp ih

theorem Ancestor.mono {par' : ι → Option ι} (hle : ∀ x p, par x = some p → par' x = some p)
    {x a : ι} (h : Ancestor par x a) : Ancestor par' x a :=
  Relation.TransGen.mono hle x a h

/-- On a cycle every ancestor of a node leads back to it. -/
theorem Ancestor.back {x a : ι} (hx : Ancestor par x x) (ha : Ancestor par x a) :
    Ancestor par a x := by
  refine ha.upward (P := fun y => Ancestor par y x) (fun y p hp hy => ?_) hx
  obtain ⟨q, hq, hrest⟩ := ancestor_iff.mp hy
  obtain rfl : p = q := Option.some.inj (hp.symm.trans hq)
  rcases hrest with rfl | hrest
  · exact hx
  · exact hrest

/-- On a cycle every ancestor of a node has a parent, an ancestor as well. -/
theorem Ancestor.stays {x a : ι} (hx : Ancestor par x x) (ha : Ancestor par x a) :
    ∃ p, par a = some p ∧ Ancestor par x p := by
  obtain ⟨p, hp, _⟩ := ancestor_iff.mp (hx.back ha)
  exact ⟨p, hp, ha.tail hp⟩

/-- When every parent is one of finitely many nodes, an acyclic forest has
a rank that grows from parent to child and stays below their number. -/
theorem Acyclic.exists_rank (hac : Acyclic par) {nodes : List ι}
    (hnodes : ∀ x p, par x = some p → p ∈ nodes) :
    ∃ rank : ι → ℕ, (∀ x p, par x = some p → rank p < rank x) ∧
      ∀ x, rank x ≤ nodes.length := by
  classical
  refine ⟨fun x => (nodes.toFinset.filter (Ancestor par x)).card, ?_, ?_⟩
  · intro x p hp
    refine Finset.card_lt_card (Finset.ssubset_iff_of_subset ?_ |>.mpr ?_)
    · intro a ha
      rw [Finset.mem_filter] at ha ⊢
      exact ⟨ha.1, Ancestor.head hp ha.2⟩
    · refine ⟨p, ?_, ?_⟩
      · rw [Finset.mem_filter, List.mem_toFinset]
        exact ⟨hnodes x p hp, Ancestor.single hp⟩
      · rw [Finset.mem_filter]
        exact fun h => hac p h.2
  · intro x
    exact (Finset.card_filter_le _ _).trans (List.toFinset_card_le nodes)

/-- The links without those that lead to an exit. -/
def cut (par : ι → Option ι) (stop : ι → Bool) (x : ι) : Option ι :=
  (par x).filter fun p => !stop p

theorem cut_eq_some {stop : ι → Bool} {x p : ι} :
    cut par stop x = some p ↔ par x = some p ∧ stop p = false := by
  rw [cut, Option.filter_eq_some_iff, Bool.not_eq_true']

/-- If every cycle has an exit, nothing but exits is left of it. -/
theorem acyclic_cut {stop : ι → Bool}
    (hexit : ∀ x, Ancestor par x x → ∃ a, Ancestor par x a ∧ stop a = true) :
    Acyclic (cut par stop) := by
  intro x hx
  have hle : ∀ y p, cut par stop y = some p → par y = some p :=
    fun y p hp => (cut_eq_some.mp hp).1
  obtain ⟨a, ha, hstop⟩ := hexit x (hx.mono hle)
  have hcut : Ancestor (cut par stop) x a := by
    refine ha.upward (P := fun y => Ancestor (cut par stop) x y) (fun y p hp hy => ?_) hx
    obtain ⟨q, hq, hxq⟩ := hx.stays hy
    obtain rfl : p = q := Option.some.inj (hp.symm.trans (hle y q hq))
    exact hxq
  obtain ⟨y, hy⟩ := hcut.exists_child
  rw [(cut_eq_some.mp hy).2] at hstop
  cases hstop

/-- If every cycle has an exit, there is a rank that grows from parent to
child, unless the parent is an exit. -/
theorem exists_rank_of_exits {stop : ι → Bool}
    (hexit : ∀ x, Ancestor par x x → ∃ a, Ancestor par x a ∧ stop a = true)
    {nodes : List ι} (hnodes : ∀ x p, par x = some p → p ∈ nodes) :
    ∃ rank : ι → ℕ, (∀ x p, par x = some p → stop p = false → rank p < rank x) ∧
      ∀ x, rank x ≤ nodes.length := by
  obtain ⟨rank, hrank, hbound⟩ := (acyclic_cut hexit).exists_rank
    (fun x p hp => hnodes x p (cut_eq_some.mp hp).1)
  exact ⟨rank, fun x p hp hs => hrank x p (cut_eq_some.mpr ⟨hp, hs⟩), hbound⟩

/-- A rank that grows from parent to child excludes a cycle. -/
theorem acyclic_of_rank (rank : ι → ℕ) (hrank : ∀ x p, par x = some p → rank p < rank x) :
    Acyclic par := by
  have hlt : ∀ x a, Ancestor par x a → rank a < rank x := by
    intro x a h
    induction h with
    | single hp => exact hrank _ _ hp
    | tail _ hp ih => exact (hrank _ _ hp).trans ih
  exact fun x hx => Nat.lt_irrefl _ (hlt x x hx)

end Kolla.Lib
