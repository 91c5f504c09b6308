import Kolla.Build.Filter

/-!
# Cycles of FROM lines

Nothing checks the `FROM` lines for cycles, and `find_parents` links an image
whose line names itself, or several that name each other, as it does any
other.  The two walks of `filter_images` differ there.  The second one stops
at an image that is matched already, so it ends whatever the links are.  The
first one stops at a root, at an image of the set or at one that is marked, and
on a cycle without any of these it does not end.

`filterImages_ends_iff` says when the loops end.
-/

namespace Kolla.Build

open Kolla.Lib

variable {ι : Type} [DecidableEq ι] {h₀ : Heap ι}

section Loop

variable {names : List String} {x : ι}

/-- On a cycle with nothing of the set above it, the walk of the first pass
runs out of any fuel. -/
theorem checkAncestors_loops (hx : Ancestor h₀.parents x x)
    (hno : ∀ a, Ancestor h₀.parents x a → (h₀ a).name ∉ names) {h : Heap ι}
    (hso : StatusOnly h₀ h) (hsound : ∀ y, (h y).status = .unbuildable → Unbuildable names h₀ y) :
    ∀ (fuel : ℕ) (y : ι), Ancestor h₀.parents x y → checkAncestors names fuel h y = none := by
  intro fuel
  induction fuel with
  | zero => exact fun _ _ => rfl
  | succ fuel ih =>
    intro y hy
    obtain ⟨p, hp, hxp⟩ := hx.stays hy
    have hpar : (h y).parent = some p := (hso.parent y).trans hp
    have hgo : ¬ ((h p).name ∈ names ∨ (h p).status = .unbuildable) := by
      rintro (hn | hu)
      · exact hno p hxp (by rwa [← hso.name p])
      · rcases hsound p hu with hn | ⟨a, ha, hn⟩
        · exact hno p hxp hn
        · exact hno a (hxp.trans ha) hn
    simp only [checkAncestors, hpar, if_neg hgo]
    exact ih p hxp

/-- An image on such a cycle stops the first pass. -/
theorem firstPass_loops {conf : FilterConf} {images : List ι}
    (hne : unbuildableNames conf ≠ []) (hun : ∀ x, (h₀ x).status = .unprocessed)
    (hmem : x ∈ images) (hx : Ancestor h₀.parents x x)
    (hno : ∀ a, Ancestor h₀.parents x a → (h₀ a).name ∉ unbuildableNames conf) (fuel : ℕ) :
    firstPass conf fuel images h₀ = none := by
  rw [firstPass, if_neg hne, Option.eq_none_iff_forall_ne_some]
  intro h' he
  obtain ⟨h, h'', ⟨pre, hinv⟩, hstep⟩ :=
    foldlM_reaches (P := fun h => ∃ pre, UnbuildableInv h₀ (unbuildableNames conf) pre h) he
      ⟨[], UnbuildableInv.start hun⟩
      (fun y _ _ _ hb hpre => hpre.elim fun pre hinv => ⟨pre ++ [y], hinv.step hb⟩) hmem
  have hname : (h x).name ∉ unbuildableNames conf := by
    rw [hinv.statusOnly.name x]
    exact hno x hx
  rw [markUnbuildable, if_neg hname,
    checkAncestors_loops hx hno hinv.statusOnly (fun y hy => hinv.sound hy) fuel x hx] at hstep
  cases hstep

end Loop

/-- The loops of `filter_images` end if and only if the call fails before them,
or there is no unbuildable image to look for, or every image that is its own
ancestor has an ancestor named in the set. -/
theorem filterImages_ends_iff (images : ImageList ι) (hfresh : Fresh h₀) (conf : FilterConf) :
    (∃ fuel, filterImages conf fuel images.refs (findParents h₀ images.refs) ≠ .ok none) ↔
      (∃ message, filterPatterns conf = .error message) ∨
        PassEnds (unbuildableNames conf) (findParents h₀ images.refs) := by
  have hl := findParents_linked hfresh images.refs
  have hun : ∀ x, (findParents h₀ images.refs x).status = .unprocessed := by
    intro x
    rw [findParents_status]
    exact hfresh.status x
  cases hpat : filterPatterns conf with
  | error message =>
    refine iff_of_true ⟨0, ?_⟩ (Or.inl ⟨message, rfl⟩)
    simp [filterImages, hpat]
  | ok patterns =>
    constructor
    · rintro ⟨fuel, hends⟩
      right
      by_contra hnot
      rw [PassEnds, not_or] at hnot
      obtain ⟨hne, hcycle⟩ := hnot
      push Not at hcycle
      obtain ⟨x, hx, hno⟩ := hcycle
      obtain ⟨y, hy, _⟩ := ancestor_iff.mp hx
      have hloop := firstPass_loops hne hun (hl.child_mem x y hy) hx hno fuel
      exact hends (by simp [filterImages, hpat, hloop])
    · rintro (⟨message, he⟩ | hends)
      · cases he
      · obtain ⟨h', he, _⟩ := filterImages_selected hl hends hun hpat
          (Nat.lt_succ_self images.refs.length)
        exact ⟨_, by rw [he]; simp⟩

theorem filterImages_ends_sample :
    (∃ fuel, filterImages sampleConf fuel sampleImages.refs
        (findParents sampleHeap sampleImages.refs) ≠ .ok none) ↔
      (∃ message, filterPatterns sampleConf = .error message) ∨
        PassEnds (unbuildableNames sampleConf) (findParents sampleHeap sampleImages.refs) :=
  filterImages_ends_iff sampleImages sampleHeap_fresh sampleConf

/-- Two images whose `FROM` lines name each other. -/
def cycleHeap : Heap (Fin 2)
  | 0 => freshImage "nova-base" "ns/nova-base:1" "ns/nova-api:1"
  | 1 => freshImage "nova-api" "ns/nova-api:1" "ns/nova-base:1"

/-- The image `cinder` cannot be built on the base of `sampleConf`. -/
def cycleConf : FilterConf := { sampleConf with unbuildableImages := [("rocky", ["cinder"])] }

theorem cycleHeap_loops :
    Fresh cycleHeap ∧
      ∀ fuel, filterImages cycleConf fuel [0, 1] (findParents cycleHeap [0, 1]) = .ok none := by
  refine ⟨by constructor <;> decide, fun fuel => ?_⟩
  have hpar : ∀ x, (findParents cycleHeap [0, 1]).parents x = some (1 - x) := by
    decide +kernel
  have hnames : ∀ x, (findParents cycleHeap [0, 1] x).name ∉ unbuildableNames cycleConf := by
    decide +kernel
  have hcycle : Ancestor (findParents cycleHeap [0, 1]).parents 0 0 :=
    (Ancestor.single (hpar 0)).tail (hpar 1)
  have hloop : firstPass cycleConf fuel [0, 1] (findParents cycleHeap [0, 1]) = none :=
    firstPass_loops (by decide +kernel) (by decide +kernel) List.mem_cons_self hcycle
      (fun a _ => hnames a) fuel
  have hpat : filterPatterns cycleConf = .ok ["nova"] := rfl
  simp [filterImages, hpat, hloop]

end Kolla.Build
