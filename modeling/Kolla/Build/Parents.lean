import Kolla.Build.KollaWorker

/-!
# The links of `find_parents`

`find_parents` visits every pair of images, so the links are the closed
form one expects: `findParents_parent` for the parent of an image and
`findParents_children` for the children.  The two agree
(`findParents_linked`), and that is all the rest of the development uses.

Two images with one canonical name share a key of `sort_images`.  The
earlier one is not among the values, so it is left without a parent and
without children.
-/

namespace Kolla.Build

open Kolla.Lib

variable {ι : Type}

/-! ## The dictionary of canonical names -/

/-- `sort_images` after a prefix of the list. -/
private theorem sortImages_aux (h : Heap ι) (images : List ι) :
    ∀ d : Dict String ι, d.keys.Nodup → (∀ e ∈ d, e.1 = (h e.2).canonicalName) →
      (images.foldl (fun d x => d.insert (h x).canonicalName x) d).keys.Nodup ∧
      ∀ e ∈ images.foldl (fun d x => d.insert (h x).canonicalName x) d,
        e.1 = (h e.2).canonicalName ∧ (e ∈ d ∨ e.2 ∈ images) := by
  induction images with
  | nil => exact fun d hd hk => ⟨hd, fun e he => ⟨hk e he, Or.inl he⟩⟩
  | cons x images ih =>
    intro d hd hk
    have hins : ∀ e ∈ d.insert (h x).canonicalName x, e.1 = (h e.2).canonicalName := by
      intro e he
      rcases (Dict.mem_insert hd).mp he with rfl | ⟨he, _⟩
      · rfl
      · exact hk e he
    obtain ⟨hnd, hmem⟩ := ih _ (Dict.nodup_keys_insert hd _ x) hins
    refine ⟨hnd, fun e he => ⟨(hmem e he).1, ?_⟩⟩
    rcases (hmem e he).2 with hd' | hi
    · rcases (Dict.mem_insert hd).mp hd' with rfl | ⟨hd', _⟩
      · exact Or.inr (by simp)
      · exact Or.inl hd'
    · exact Or.inr (by simp [hi])

theorem sortImages_keys_nodup (h : Heap ι) (images : List ι) :
    (sortImages h images).keys.Nodup :=
  (sortImages_aux h images [] (by simp) (by simp)).1

theorem sortImages_key (h : Heap ι) (images : List ι) {e : String × ι}
    (he : e ∈ sortImages h images) : e.1 = (h e.2).canonicalName :=
  ((sortImages_aux h images [] (by simp) (by simp)).2 e he).1

theorem sortImages_value_mem (h : Heap ι) (images : List ι) {e : String × ι}
    (he : e ∈ sortImages h images) : e.2 ∈ images := by
  simpa using ((sortImages_aux h images [] (by simp) (by simp)).2 e he).2

/-- No image is twice among the values: its canonical name is the key. -/
theorem sortImages_values_nodup (h : Heap ι) (images : List ι) :
    (sortImages h images).values.Nodup := by
  refine List.Nodup.of_map (fun x => (h x).canonicalName) ?_
  have hmap : (sortImages h images).values.map (fun x => (h x).canonicalName)
      = (sortImages h images).keys := by
    rw [Dict.values, Dict.keys, List.map_map]
    exact List.map_congr_left (fun e he => (sortImages_key h images he).symm)
  rw [hmap]
  exact sortImages_keys_nodup h images

variable [DecidableEq ι]


/-! ## One link -/

section Link

variable (h : Heap ι) (p x y : ι)

@[simp] theorem link_parent :
    (h.link p x y).parent = if y = x then some p else (h y).parent := by
  by_cases hyx : y = x
  · subst hyx
    simp [Heap.link]
  · by_cases hyp : y = p
    · subst hyp
      simp [Heap.link, hyx]
    · simp [Heap.link, hyx, hyp]

@[simp] theorem link_children :
    (h.link p x y).children
      = if y = p then (h y).children ++ [x] else (h y).children := by
  by_cases hyx : y = x
  · subst hyx
    by_cases hyp : y = p
    · subst hyp
      simp [Heap.link]
    · simp [Heap.link, hyp]
  · by_cases hyp : y = p
    · subst hyp
      simp [Heap.link, hyx]
    · simp [Heap.link, hyx, hyp]

/-- A link changes nothing but the two ends of the link. -/
theorem link_frame :
    h.link p x y
      = { h y with parent := (h.link p x y).parent, children := (h.link p x y).children } := by
  by_cases hyx : y = x
  · subst hyx
    by_cases hyp : y = p
    · subst hyp
      simp [Heap.link]
    · simp [Heap.link, hyp]
  · by_cases hyp : y = p
    · subst hyp
      simp [Heap.link, hyx]
    · simp [Heap.link, hyx, hyp]

@[simp] theorem link_parentName : (h.link p x y).parentName = (h y).parentName := by
  rw [link_frame]

end Link

/-! ## The inner loop -/

@[simp] theorem linkChildren_nil (h : Heap ι) (name : String) (p : ι) :
    linkChildren h name p [] = h := rfl

theorem linkChildren_cons (h : Heap ι) (name : String) (p x : ι) (images : List ι) :
    linkChildren h name p (x :: images)
      = linkChildren (if (h x).parentName = name then h.link p x else h) name p images := rfl

@[simp] theorem linkChildren_parentName (h : Heap ι) (name : String) (p : ι)
    (images : List ι) (y : ι) :
    (linkChildren h name p images y).parentName = (h y).parentName := by
  induction images generalizing h with
  | nil => rfl
  | cons x images ih =>
    rw [linkChildren_cons, ih]
    split <;> simp

theorem linkChildren_parent (h : Heap ι) (name : String) (p : ι) (images : List ι) (y : ι) :
    (linkChildren h name p images y).parent
      = if y ∈ images ∧ (h y).parentName = name then some p else (h y).parent := by
  induction images generalizing h with
  | nil => simp
  | cons x images ih =>
    rw [linkChildren_cons, ih]
    by_cases hx : (h x).parentName = name
    · by_cases hyx : y = x
      · subst hyx
        simp [hx]
      · simp [hx, hyx]
    · by_cases hyx : y = x
      · subst hyx
        simp [hx]
      · simp [hx, hyx]

theorem linkChildren_children (h : Heap ι) (name : String) (p : ι) (images : List ι) (y : ι) :
    (linkChildren h name p images y).children
      = if y = p then
          (h y).children ++ images.filter (fun x => (h x).parentName = name)
        else (h y).children := by
  induction images generalizing h with
  | nil => simp
  | cons x images ih =>
    rw [linkChildren_cons, ih]
    by_cases hx : (h x).parentName = name
    · by_cases hyp : y = p
      · subst hyp
        simp [hx]
      · simp [hx, hyp]
    · simp [hx]

theorem linkChildren_frame (h : Heap ι) (name : String) (p : ι) (images : List ι) (y : ι) :
    linkChildren h name p images y
      = { h y with
          parent := (linkChildren h name p images y).parent
          children := (linkChildren h name p images y).children } := by
  induction images generalizing h with
  | nil => rfl
  | cons x images ih =>
    rw [linkChildren_cons]
    split
    · rw [ih, link_frame]
    · exact ih h

/-! ## The outer loop -/

/-- The outer loop over the items that are left. -/
def linkItems (images : List ι) (h : Heap ι) (items : Dict String ι) : Heap ι :=
  items.foldl (fun h item => linkChildren h item.1 item.2 images) h

@[simp] theorem linkItems_nil (images : List ι) (h : Heap ι) : linkItems images h [] = h := rfl

theorem linkItems_cons (images : List ι) (h : Heap ι) (e : String × ι) (items : Dict String ι) :
    linkItems images h (e :: items) = linkItems images (linkChildren h e.1 e.2 images) items :=
  rfl

theorem linkItems_parent (images : List ι) (items : Dict String ι) (hkeys : items.keys.Nodup)
    (h : Heap ι) (y p : ι) :
    (linkItems images h items y).parent = some p ↔
      (y ∈ images ∧ ((h y).parentName, p) ∈ items) ∨
      ((h y).parent = some p ∧ ¬ (y ∈ images ∧ (h y).parentName ∈ items.keys)) := by
  induction items generalizing h with
  | nil => simp
  | cons e items ih =>
    obtain ⟨name, q⟩ := e
    rw [Dict.keys_cons, List.nodup_cons] at hkeys
    rw [linkItems_cons, ih hkeys.2, linkChildren_parent, linkChildren_parentName]
    by_cases hy : y ∈ images ∧ (h y).parentName = name
    · obtain ⟨hy, rfl⟩ := hy
      have hno : ∀ q, ((h y).parentName, q) ∉ items :=
        fun q hq => hkeys.1 (Dict.mem_keys_of_mem hq)
      have hnk : (h y).parentName ∉ Dict.keys items := hkeys.1
      simp [hy, hno, hnk, eq_comm]
    · rw [if_neg hy]
      have hne : y ∈ images → (h y).parentName ≠ name := fun hm he => hy ⟨hm, he⟩
      by_cases hm : y ∈ images
      · simp [hm, hne hm]
      · simp [hm]

theorem linkItems_children (images : List ι) (items : Dict String ι) (h : Heap ι) (p : ι) :
    (linkItems images h items p).children
      = (h p).children ++ (items.filter (fun e => e.2 = p)).flatMap
          (fun e => images.filter (fun x => (h x).parentName = e.1)) := by
  induction items generalizing h with
  | nil => simp
  | cons e items ih =>
    obtain ⟨name, q⟩ := e
    rw [linkItems_cons, ih, linkChildren_children]
    simp only [linkChildren_parentName]
    by_cases hq : q = p
    · subst hq
      simp
    · simp [hq, Ne.symm hq]

theorem linkItems_frame (images : List ι) (items : Dict String ι) (h : Heap ι) (y : ι) :
    linkItems images h items y
      = { h y with
          parent := (linkItems images h items y).parent
          children := (linkItems images h items y).children } := by
  induction items generalizing h with
  | nil => rfl
  | cons e items ih =>
    rw [linkItems_cons, ih, linkChildren_frame]

/-! ## The links -/

/-- What `find_parents` guarantees: the children of an image are exactly
the images that have it as their parent, each once, and both are in the
list. -/
structure Linked (h : Heap ι) (images : List ι) : Prop where
  child_iff : ∀ x p, x ∈ (h p).children ↔ (h x).parent = some p
  children_nodup : ∀ p, (h p).children.Nodup
  child_mem : ∀ x p, (h x).parent = some p → x ∈ images
  parent_mem : ∀ x p, (h x).parent = some p → p ∈ images

theorem findParents_parent {h : Heap ι} (hfresh : Fresh h) (images : List ι) (x p : ι) :
    (findParents h images x).parent = some p ↔
      x ∈ (sortImages h images).values ∧ ((h x).parentName, p) ∈ sortImages h images := by
  have hlink := linkItems_parent (sortImages h images).values (sortImages h images)
    (sortImages_keys_nodup h images) h x p
  rw [hfresh.parent x] at hlink
  simpa [findParents, linkItems] using hlink

theorem findParents_children {h : Heap ι} (hfresh : Fresh h) (images : List ι) (p : ι) :
    (findParents h images p).children
      = ((sortImages h images).filter (fun e => e.2 = p)).flatMap
          (fun e => (sortImages h images).values.filter (fun x => (h x).parentName = e.1)) := by
  have hlink := linkItems_children (sortImages h images).values (sortImages h images) h p
  rw [hfresh.children p, List.nil_append] at hlink
  exact hlink

/-- `find_parents` changes the links only. -/
theorem findParents_frame (h : Heap ι) (images : List ι) (x : ι) :
    findParents h images x
      = { h x with
          parent := (findParents h images x).parent
          children := (findParents h images x).children } :=
  linkItems_frame _ _ h x

theorem findParents_linked {h : Heap ι} (hfresh : Fresh h) (images : List ι) :
    Linked (findParents h images) images where
  child_iff x p := by
    rw [findParents_parent hfresh, findParents_children hfresh]
    simp only [List.mem_flatMap, List.mem_filter, decide_eq_true_eq]
    constructor
    · rintro ⟨⟨name, q⟩, ⟨hmem, rfl⟩, hx, rfl⟩
      exact ⟨hx, hmem⟩
    · rintro ⟨hx, hmem⟩
      exact ⟨((h x).parentName, p), ⟨hmem, rfl⟩, hx, rfl⟩
  children_nodup p := by
    rw [findParents_children hfresh, List.nodup_flatMap]
    refine ⟨fun e _ => (sortImages_values_nodup h images).filter _, ?_⟩
    have hkeys : (sortImages h images).Pairwise (fun e e' => e.1 ≠ e'.1) :=
      List.pairwise_map.mp (sortImages_keys_nodup h images)
    refine (hkeys.filter _).imp ?_
    intro e e' hne x hx hx'
    simp only [List.mem_filter, decide_eq_true_eq] at hx hx'
    exact hne (hx.2.symm.trans hx'.2)
  child_mem x p hp := by
    obtain ⟨hx, _⟩ := (findParents_parent hfresh images x p).mp hp
    obtain ⟨e, he, rfl⟩ := List.mem_map.mp hx
    exact sortImages_value_mem h images he
  parent_mem x p hp := by
    obtain ⟨_, hmem⟩ := (findParents_parent hfresh images x p).mp hp
    exact sortImages_value_mem h images hmem

@[simp] theorem findParents_status (h : Heap ι) (images : List ι) (x : ι) :
    (findParents h images x).status = (h x).status := by
  rw [findParents_frame]

end Kolla.Build
