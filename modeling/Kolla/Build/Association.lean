import Kolla.Build.Filter
import Mathlib.Data.List.Count
import Mathlib.Data.List.Sublists

/-!
# Repeated canonical names

`find_parents` is to "associate all images with parents and children".  It
runs over the values of `sort_images`, and of several images with one
canonical name only the last is a value.  `findParents_associated_iff` says
what this costs: the links are complete if and only if no image with a parent
in the list is followed by another image of its own canonical name.
-/

namespace Kolla.Build

open Kolla.Lib

variable {ι : Type}

/-- A later image of the list has the canonical name of `x`. -/
def Shadowed (h : Heap ι) (images : List ι) (x : ι) : Prop :=
  ∃ y, [x, y].Sublist images ∧ (h y).canonicalName = (h x).canonicalName

/-- The parent name of `x` is the canonical name of an image of the list. -/
def ParentListed (h : Heap ι) (images : List ι) (x : ι) : Prop :=
  ∃ y ∈ images, (h y).canonicalName = (h x).parentName

/-- Every image of the list has the parent that it names and is one of its
children, once; the others have no parent, and the children of an image have
it as their parent. -/
structure Associated [DecidableEq ι] (h : Heap ι) (images : List ι) : Prop where
  parent : ∀ x ∈ images, ParentListed h images x →
    ∃ p ∈ images, (h x).parent = some p ∧ (h p).canonicalName = (h x).parentName ∧
      (h p).children.count x = 1
  root : ∀ x ∈ images, ¬ ParentListed h images x → (h x).parent = none
  child : ∀ x ∈ images, ∀ y ∈ (h x).children, (h y).parent = some x

/-! ## The values of `sort_images` -/

theorem pair_sublist_concat {x y z : ι} {xs : List ι} :
    [x, y].Sublist (xs ++ [z]) ↔ [x, y].Sublist xs ∨ x ∈ xs ∧ y = z := by
  rw [show ([x, y] : List ι) = [x] ++ [y] from rfl, List.sublist_append_iff]
  constructor
  · rintro ⟨as, bs, he, ha, hb⟩
    rcases List.sublist_singleton.mp hb with rfl | rfl
    · exact Or.inl (by rw [he, List.append_nil]; exact ha)
    · obtain ⟨rfl, hy⟩ := List.append_inj' he rfl
      exact Or.inr ⟨List.singleton_sublist.mp ha, by simpa using hy⟩
  · rintro (h | ⟨hx, rfl⟩)
    · exact ⟨[x] ++ [y], [], by simp, h, List.nil_sublist _⟩
    · exact ⟨[x], [y], rfl, List.singleton_sublist.mpr hx, List.Sublist.refl _⟩

theorem shadowed_concat {h : Heap ι} {images : List ι} {x z : ι} :
    Shadowed h (images ++ [z]) x ↔
      Shadowed h images x ∨ x ∈ images ∧ (h z).canonicalName = (h x).canonicalName := by
  simp only [Shadowed, pair_sublist_concat]
  constructor
  · rintro ⟨y, hs | ⟨hx, rfl⟩, hn⟩
    · exact Or.inl ⟨y, hs, hn⟩
    · exact Or.inr ⟨hx, hn⟩
  · rintro (⟨y, hs, hn⟩ | ⟨hx, hn⟩)
    · exact ⟨y, Or.inl hs, hn⟩
    · exact ⟨z, Or.inr ⟨hx, rfl⟩, hn⟩

theorem Shadowed.mem {h : Heap ι} {images : List ι} {x : ι} (hs : Shadowed h images x) :
    x ∈ images := by
  obtain ⟨y, hs, _⟩ := hs
  exact hs.subset List.mem_cons_self

/-- The items of `sort_images` are the images that no later image shadows. -/
theorem mem_sortImages {h : Heap ι} {images : List ι} (hnd : images.Nodup) {name : String}
    {x : ι} :
    (name, x) ∈ sortImages h images ↔
      name = (h x).canonicalName ∧ x ∈ images ∧ ¬ Shadowed h images x := by
  induction images using List.reverseRecOn generalizing name x with
  | nil => simp [sortImages]
  | append_singleton images z ih =>
    rw [← List.concat_eq_append, List.nodup_concat] at hnd
    have hlast : sortImages h (images ++ [z])
        = (sortImages h images).insert (h z).canonicalName z := by
      simp [sortImages]
    rw [hlast, Dict.mem_insert (sortImages_keys_nodup h images), ih hnd.2, shadowed_concat]
    simp only [Prod.mk.injEq, List.mem_append, List.mem_singleton]
    constructor
    · rintro (⟨rfl, rfl⟩ | ⟨⟨rfl, hx, hns⟩, hne⟩)
      · exact ⟨rfl, Or.inr rfl, fun hs => hnd.1 (hs.elim Shadowed.mem And.left)⟩
      · exact ⟨rfl, Or.inl hx, fun hs => hs.elim hns fun hn => hne hn.2.symm⟩
    · rintro ⟨rfl, hx | rfl, hns⟩
      · rw [not_or, not_and] at hns
        exact Or.inr ⟨⟨rfl, hx, hns.1⟩, fun hn => hns.2 hx hn.symm⟩
      · exact Or.inl ⟨rfl, rfl⟩

/-- Of the images with one canonical name, the last is in `sort_images`. -/
theorem exists_mem_sortImages {h : Heap ι} {images : List ι} {y : ι} (hy : y ∈ images) :
    ∃ p, ((h y).canonicalName, p) ∈ sortImages h images := by
  refine Dict.exists_of_mem_keys ?_
  induction images using List.reverseRecOn with
  | nil => cases hy
  | append_singleton images z ih =>
    have hlast : sortImages h (images ++ [z])
        = (sortImages h images).insert (h z).canonicalName z := by
      simp [sortImages]
    rw [hlast, Dict.mem_keys_insert]
    rcases List.mem_append.mp hy with hy | hy
    · exact Or.inr (ih hy)
    · exact Or.inl (by rw [List.mem_singleton.mp hy])

/-! ## The links -/

section Links

variable [DecidableEq ι] {h : Heap ι}

theorem findParents_names (h : Heap ι) (images : List ι) (x : ι) :
    (findParents h images x).canonicalName = (h x).canonicalName ∧
      (findParents h images x).parentName = (h x).parentName := by
  rw [findParents_frame]
  exact ⟨rfl, rfl⟩

theorem parentListed_findParents {images : List ι} {x : ι} :
    ParentListed (findParents h images) images x ↔ ParentListed h images x := by
  simp only [ParentListed, findParents_names]

/-- An image has a parent if and only if it names one of the list and is not
shadowed. -/
theorem findParents_isSome (hfresh : Fresh h) {images : List ι} (hnd : images.Nodup) {x : ι}
    (hx : x ∈ images) :
    (∃ p, (findParents h images x).parent = some p) ↔
      ParentListed h images x ∧ ¬ Shadowed h images x := by
  simp only [findParents_parent hfresh]
  have hvalue : x ∈ (sortImages h images).values ↔ ¬ Shadowed h images x := by
    constructor
    · intro hv
      obtain ⟨⟨name, y⟩, he, rfl⟩ := List.mem_map.mp hv
      exact ((mem_sortImages hnd).mp he).2.2
    · intro hns
      exact List.mem_map.mpr ⟨_, (mem_sortImages hnd).mpr ⟨rfl, hx, hns⟩, rfl⟩
  rw [exists_and_left, hvalue, and_comm]
  refine and_congr_left fun _ => ⟨?_, ?_⟩
  · rintro ⟨p, hp⟩
    exact ⟨p, sortImages_value_mem h images hp, (sortImages_key h images hp).symm⟩
  · rintro ⟨y, hy, hn⟩
    rw [← hn]
    exact exists_mem_sortImages hy

/-- The links of `find_parents` are complete if and only if no image that
names a parent of the list is shadowed. -/
theorem findParents_associated_iff (hfresh : Fresh h) (images : ImageList ι) :
    Associated (findParents h images.refs) images.refs ↔
      ∀ x ∈ images.refs, ParentListed h images.refs x → ¬ Shadowed h images.refs x := by
  have hl := findParents_linked hfresh images.refs
  constructor
  · intro ha x hx hp
    obtain ⟨p, _, hpar, _⟩ := ha.parent x hx (parentListed_findParents.mpr hp)
    exact ((findParents_isSome hfresh images.distinct hx).mp ⟨p, hpar⟩).2
  · intro hns
    refine ⟨fun x hx hp => ?_, fun x hx hp => ?_, fun x _ y hy => (hl.child_iff y x).mp hy⟩
    · have hp' := parentListed_findParents.mp hp
      obtain ⟨p, hpar⟩ :=
        (findParents_isSome hfresh images.distinct hx).mpr ⟨hp', hns x hx hp'⟩
      refine ⟨p, hl.parent_mem x p hpar, hpar, ?_, ?_⟩
      · rw [(findParents_names h _ p).1, (findParents_names h _ x).2]
        exact (sortImages_key h _ ((findParents_parent hfresh _ x p).mp hpar).2).symm
      · exact List.count_eq_one_of_mem (hl.children_nodup p) ((hl.child_iff x p).mpr hpar)
    · rw [Option.eq_none_iff_forall_ne_some]
      intro p hpar
      exact hp (parentListed_findParents.mpr
        ((findParents_isSome hfresh images.distinct hx).mp ⟨p, hpar⟩).1)

end Links

theorem sampleHeap_associated :
    Associated (findParents sampleHeap sampleImages.refs) sampleImages.refs ↔
      ∀ x ∈ sampleImages.refs, ParentListed sampleHeap sampleImages.refs x →
        ¬ Shadowed sampleHeap sampleImages.refs x :=
  findParents_associated_iff sampleHeap_fresh sampleImages

/-- Two directories of the name `nova-api`, with the same `FROM` line. -/
def twiceHeap : Heap (Fin 3)
  | 0 => freshImage "base" "ns/base:1" "centos:9"
  | 1 => freshImage "nova-api" "ns/nova-api:1" "ns/base:1"
  | 2 => freshImage "nova-api" "ns/nova-api:1" "ns/base:1"

/-- The first of the two has no parent. -/
theorem twiceHeap_parent :
    Fresh twiceHeap ∧ ParentListed twiceHeap [0, 1, 2] 1 ∧
      (findParents twiceHeap [0, 1, 2] 1).parent = none ∧
      ¬ Associated (findParents twiceHeap [0, 1, 2]) [0, 1, 2] := by
  have hlisted : ParentListed twiceHeap [0, 1, 2] 1 := ⟨0, by decide, rfl⟩
  have hnone : (findParents twiceHeap [0, 1, 2] 1).parent = none := by decide +kernel
  refine ⟨by constructor <;> decide, hlisted, hnone, fun ha => ?_⟩
  obtain ⟨p, _, hpar, _⟩ := ha.parent 1 (by decide) (parentListed_findParents.mpr hlisted)
  rw [hnone] at hpar
  cases hpar

end Kolla.Build
