import Kolla.Build.Filter
import Mathlib

/-!
# The dependency tree

`list_dependencies` of `kolla/image/kolla_worker.py`: the nested dictionary
that is dumped for the images with status `MATCHED`.

The tree starts at the last image of the list that has no parent and goes
down through `MATCHED` images.  `listDependencies_iff` says when nothing is
lost on the way: every `MATCHED` image belongs to that root's tree, and
between the two no image is skipped.
-/

namespace Kolla.Build

open Kolla.Lib

/-- An entry of the dump: a bare name, or a dictionary with one key. -/
inductive Ancestry
  | name (name : String)
  | node (name : String) (children : List Ancestry)

/-- What `list_dependencies` does.  Without a parentless image `base` is
unbound. -/
inductive Dependencies
  | nothingMatched
  | unbound
  | tree (ancestry : Ancestry)

namespace Ancestry

/-- The name an entry stands for. -/
def root : Ancestry → String
  | name n => n
  | node n _ => n

mutual

/-- All names of an entry, from the top. -/
def names : Ancestry → List String
  | name n => [n]
  | node n children => n :: namesOf children

def namesOf : List Ancestry → List String
  | [] => []
  | t :: ts => t.names ++ namesOf ts

end

mutual

/-- The pairs of a node's name and the name of an entry directly under
it. -/
def edges : Ancestry → List (String × String)
  | name _ => []
  | node n children => children.map (fun t => (n, t.root)) ++ edgesOf children

def edgesOf : List Ancestry → List (String × String)
  | [] => []
  | t :: ts => t.edges ++ edgesOf ts

end

end Ancestry

section Listing

variable {ι : Type}

/-- `list_children`, with the entries that it appends to `children`. -/
def listChildren (h : Heap ι) : ℕ → List ι → Option (List Ancestry)
  | 0, _ => none
  | fuel + 1, images =>
    (images.filter fun image => (h image).status = .matched).mapM fun image =>
      if (h image).children = [] then some (.name (h image).name)
      else (listChildren h fuel (h image).children).map (.node (h image).name)

/-- `base` after the first loop of `list_dependencies`. -/
def lastRoot (h : Heap ι) (images : List ι) : Option ι :=
  images.foldl (fun base image => if (h image).parent = none then some image else base) none

/-- `KollaWorker.list_dependencies`. -/
def listDependencies (h : Heap ι) (fuel : ℕ) (images : List ι) : Option Dependencies :=
  if images.any fun image => (h image).status = .matched then
    match lastRoot h images with
    | none => some .unbound
    | some base =>
      (listChildren h fuel (h base).children).map fun children =>
        .tree (.node (h base).name children)
  else some .nothingMatched

/-- Every `MATCHED` image is in the dump once, directly under its parent if
it has one. -/
structure Listing (h : Heap ι) (images : List ι) (t : Ancestry) : Prop where
  once : ∀ x ∈ images, (h x).status = .matched → t.names.count (h x).name = 1
  under : ∀ x ∈ images, (h x).status = .matched →
    ∀ p, (h x).parent = some p → ((h p).name, (h x).name) ∈ t.edges

/-- Every `MATCHED` image is `base` or descends from it, and between the two
no image is `SKIPPED`. -/
def Reached (h : Heap ι) (images : List ι) (base : ι) : Prop :=
  ∀ x ∈ images, (h x).status = .matched → x = base ∨ Ancestor h.parents x base ∧
    ∀ a, Ancestor h.parents x a → a ≠ base → (h a).status ≠ .skipped

end Listing

/-! ## The images of the dump -/

section Preorder

variable {ι : Type} {h : Heap ι} {images : List ι} {fuel : ℕ}

/-- The images behind the entries of `list_children`. -/
def preorder (h : Heap ι) : ℕ → List ι → List ι
  | 0, _ => []
  | fuel + 1, images =>
    (images.filter fun image => (h image).status = .matched).flatMap fun image =>
      image :: preorder h fuel (h image).children

theorem mapM_cons_eq_some {α β : Type} {f : α → Option β} {x : α} {xs : List α} {ys : List β} :
    (x :: xs).mapM f = some ys ↔ ∃ y zs, f x = some y ∧ xs.mapM f = some zs ∧ ys = y :: zs := by
  rw [List.mapM_cons]
  constructor
  · intro h
    obtain ⟨y, hy, hrest⟩ := Option.bind_eq_some_iff.mp h
    obtain ⟨zs, hzs, hys⟩ := Option.bind_eq_some_iff.mp hrest
    exact ⟨y, zs, hy, hzs, (Option.some.inj hys).symm⟩
  · rintro ⟨y, zs, hy, hzs, rfl⟩
    rw [hy, hzs]
    rfl

theorem namesOf_listChildren {ts : List Ancestry} (ht : listChildren h fuel images = some ts) :
    Ancestry.namesOf ts = (preorder h fuel images).map fun x => (h x).name := by
  induction fuel generalizing images ts with
  | zero => cases ht
  | succ fuel ih =>
    rw [listChildren] at ht
    rw [preorder]
    generalize images.filter _ = xs at ht ⊢
    induction xs generalizing ts with
    | nil =>
      cases ht
      rfl
    | cons x xs ihx =>
      obtain ⟨t, ts, hx, hxs, rfl⟩ := mapM_cons_eq_some.mp ht
      have hnames : t.names
          = (x :: preorder h fuel (h x).children).map fun x => (h x).name := by
        split at hx
        · rename_i hleaf
          cases hx
          cases fuel <;> simp [Ancestry.names, hleaf, preorder]
        · obtain ⟨cs, hcs, rfl⟩ := Option.map_eq_some_iff.mp hx
          rw [Ancestry.names, ih hcs, List.map_cons]
      rw [Ancestry.namesOf, hnames, ihx hxs, List.flatMap_cons, List.map_append]

theorem root_of_entry {x : ι} {t : Ancestry}
    (hx : (if (h x).children = [] then some (.name (h x).name)
      else (listChildren h fuel (h x).children).map (.node (h x).name)) = some t) :
    t.root = (h x).name := by
  split at hx
  · cases hx
    rfl
  · obtain ⟨cs, -, rfl⟩ := Option.map_eq_some_iff.mp hx
    rfl

/-- The roots of the entries are the `MATCHED` images of the list. -/
theorem roots_listChildren {ts : List Ancestry} (ht : listChildren h fuel images = some ts)
    {x : ι} (hx : x ∈ images) (hm : (h x).status = .matched) :
    (h x).name ∈ ts.map Ancestry.root := by
  cases fuel with
  | zero => cases ht
  | succ fuel =>
    rw [listChildren] at ht
    have hmem : x ∈ images.filter fun image => (h image).status = .matched := by simp [hx, hm]
    generalize images.filter _ = xs at ht hmem
    induction xs generalizing ts with
    | nil => cases hmem
    | cons y ys ih =>
      obtain ⟨t, ts, hy, hys, rfl⟩ := mapM_cons_eq_some.mp ht
      rcases List.mem_cons.mp hmem with rfl | hmem
      · simp [root_of_entry hy]
      · exact List.mem_cons_of_mem _ (ih hys hmem)

theorem edgesOf_listChildren {ts : List Ancestry} (ht : listChildren h fuel images = some ts)
    {p c : ι} (hp : p ∈ preorder h fuel images) (hc : c ∈ (h p).children)
    (hm : (h c).status = .matched) : ((h p).name, (h c).name) ∈ Ancestry.edgesOf ts := by
  induction fuel generalizing images ts with
  | zero => cases ht
  | succ fuel ih =>
    rw [listChildren] at ht
    rw [preorder] at hp
    generalize images.filter _ = xs at ht hp
    induction xs generalizing ts with
    | nil => cases hp
    | cons x xs ihx =>
      obtain ⟨t, ts, hx, hxs, rfl⟩ := mapM_cons_eq_some.mp ht
      rw [Ancestry.edgesOf, List.mem_append]
      rw [List.flatMap_cons, List.mem_append] at hp
      rcases hp with hp | hp
      · refine .inl ?_
        split at hx
        · rename_i hleaf
          rcases List.mem_cons.mp hp with rfl | hp
          · rw [hleaf] at hc
            cases hc
          · rw [hleaf] at hp
            cases fuel <;> simp [preorder] at hp
        · obtain ⟨cs, hcs, rfl⟩ := Option.map_eq_some_iff.mp hx
          rw [Ancestry.edges, List.mem_append]
          rcases List.mem_cons.mp hp with rfl | hp
          · obtain ⟨t, ht, hroot⟩ := List.mem_map.mp (roots_listChildren hcs hc hm)
            exact .inl (List.mem_map.mpr ⟨t, ht, by rw [hroot]⟩)
          · exact .inr (ih hcs hp)
      · exact .inr (ihx hxs hp)

end Preorder

/-! ## The subtree of an image -/

section Subtree

variable {ι : Type} {h : Heap ι} {images : List ι} {fuel : ℕ}

/-- `x` is a child of `p` that the dump goes into. -/
def Step (h : Heap ι) (p x : ι) : Prop := (h x).parent = some p ∧ (h x).status = .matched

theorem Linked.mem_filter_children (hl : Linked h images) {p x : ι} :
    (x ∈ (h p).children.filter fun image => (h image).status = .matched) ↔ Step h p x := by
  rw [List.mem_filter, hl.child_iff, decide_eq_true_iff, Step]

theorem Linked.preorder_sound (hl : Linked h images) {p x : ι}
    (hx : x ∈ preorder h fuel (h p).children) : Relation.TransGen (Step h) p x := by
  induction fuel generalizing p with
  | zero => cases hx
  | succ fuel ih =>
    rw [preorder] at hx
    obtain ⟨c, hc, hx⟩ := List.mem_flatMap.mp hx
    have hstep := hl.mem_filter_children.mp hc
    rcases List.mem_cons.mp hx with rfl | hx
    · exact .single hstep
    · exact .head hstep (ih hx)

theorem Linked.preorder_complete (hl : Linked h images) {rank : ι → ℕ}
    (hrank : ∀ x p, h.parents x = some p → rank p < rank x)
    (hbound : ∀ x, rank x ≤ images.length) {p x : ι} (hfuel : images.length - rank p < fuel)
    (hx : Relation.TransGen (Step h) p x) : x ∈ preorder h fuel (h p).children := by
  induction fuel generalizing p with
  | zero => omega
  | succ fuel ih =>
    rw [preorder, List.mem_flatMap]
    rcases Relation.TransGen.head'_iff.mp hx with ⟨c, hstep, hrest⟩
    refine ⟨c, hl.mem_filter_children.mpr hstep, List.mem_cons.mpr ?_⟩
    have hlt := hrank c p hstep.1
    have hle := hbound c
    rcases Relation.reflTransGen_iff_eq_or_transGen.mp hrest with heq | hrest
    · exact .inl heq
    · exact .inr (ih (by omega) hrest)

theorem Linked.listChildren_isSome (hl : Linked h images) {rank : ι → ℕ}
    (hrank : ∀ x p, h.parents x = some p → rank p < rank x)
    (hbound : ∀ x, rank x ≤ images.length) {p : ι} (hfuel : images.length - rank p < fuel) :
    ∃ ts, listChildren h fuel (h p).children = some ts := by
  induction fuel generalizing p with
  | zero => omega
  | succ fuel ih =>
    rw [listChildren]
    have hchild : ∀ c ∈ (h p).children.filter fun image => (h image).status = .matched,
        (h c).parent = some p := fun c hc => (hl.mem_filter_children.mp hc).1
    generalize (h p).children.filter _ = xs at hchild ⊢
    induction xs with
    | nil => exact ⟨[], rfl⟩
    | cons c cs ihc =>
      obtain ⟨ts, hts⟩ := ihc fun d hd => hchild d (List.mem_cons_of_mem _ hd)
      have hlt := hrank c p (hchild c (by simp))
      have hle := hbound c
      obtain ⟨ts', hts'⟩ := @ih c (by omega)
      by_cases hleaf : (h c).children = []
      · exact ⟨_, mapM_cons_eq_some.mpr ⟨_, _, if_pos hleaf, hts, rfl⟩⟩
      · refine ⟨.node (h c).name ts' :: ts, mapM_cons_eq_some.mpr ⟨_, _, ?_, hts, rfl⟩⟩
        rw [if_neg hleaf, hts', Option.map_some]

theorem ancestor_of_step {p x : ι} (h' : Relation.TransGen (Step h) p x) :
    Ancestor h.parents x p := by
  induction h' with
  | single hstep => exact .single hstep.1
  | tail _ hstep ih => exact .head hstep.1 ih

/-- Two siblings have no descendant in common. -/
theorem eq_of_common (hac : Acyclic h.parents) {p c d x : ι} (hc : Step h p c) (hd : Step h p d)
    (hcx : Relation.ReflTransGen (Step h) c x) (hdx : Relation.ReflTransGen (Step h) d x) :
    c = d := by
  have hunique : Relator.RightUnique (Function.swap (Step h)) := fun x a b ha hb =>
    Option.some.inj (ha.1.symm.trans hb.1)
  -- above a sibling stands `p`, which is no descendant of the other one
  have hno : ∀ {c d : ι}, Step h p c → Step h p d →
      Relation.ReflTransGen (Function.swap (Step h)) c d → c = d := by
    intro c d hc hd hcd
    rcases Relation.ReflTransGen.cases_head hcd with heq | ⟨q, hq, hqd⟩
    · exact heq
    · obtain rfl : p = q := Option.some.inj (hc.1.symm.trans hq.1)
      rcases Relation.reflTransGen_iff_eq_or_transGen.mp (Relation.reflTransGen_swap.mp hqd) with
        heq | hpd
      · exact absurd (Ancestor.single (heq ▸ hd.1)) (hac p)
      · exact absurd (Ancestor.tail (ancestor_of_step hpd) hd.1) (hac p)
  rcases Relation.ReflTransGen.total_of_right_unique hunique
    (Relation.reflTransGen_swap.mpr hcx) (Relation.reflTransGen_swap.mpr hdx) with hcd | hdc
  · exact hno hc hd hcd
  · exact (hno hd hc hdc).symm

theorem Linked.preorder_nodup (hl : Linked h images) (hac : Acyclic h.parents) (p : ι) :
    (preorder h fuel (h p).children).Nodup := by
  induction fuel generalizing p with
  | zero => exact List.nodup_nil
  | succ fuel ih =>
    rw [preorder, List.nodup_flatMap]
    have hbelow : ∀ {c x : ι}, x ∈ c :: preorder h fuel (h c).children →
        Relation.ReflTransGen (Step h) c x := by
      intro c x hx
      rcases List.mem_cons.mp hx with rfl | hx
      · exact .refl
      · exact (hl.preorder_sound hx).to_reflTransGen
    constructor
    · intro c _
      exact List.nodup_cons.mpr ⟨fun hc => hac c (ancestor_of_step (hl.preorder_sound hc)), ih c⟩
    · have hdistinct := (hl.children_nodup p).filter fun image => (h image).status = .matched
      refine List.Pairwise.imp_of_mem ?_ hdistinct
      intro c d hc hd hne x hcx hdx
      exact hne (eq_of_common hac (hl.mem_filter_children.mp hc) (hl.mem_filter_children.mp hd)
        (hbelow hcx) (hbelow hdx))

end Subtree

/-! ## The dump -/

section Dump

variable {ι : Type} {h : Heap ι} {images : List ι} {fuel : ℕ}

theorem lastRoot_eq_some {base : ι} (hb : lastRoot h images = some base) :
    base ∈ images ∧ (h base).parent = none := by
  induction images using List.reverseRecOn with
  | nil => cases hb
  | append_singleton images x ih =>
    rw [lastRoot, List.foldl_append, List.foldl_cons, List.foldl_nil] at hb
    split at hb
    · rename_i hx
      cases hb
      exact ⟨by simp, hx⟩
    · obtain ⟨hmem, hroot⟩ := ih hb
      exact ⟨List.mem_append_left _ hmem, hroot⟩

theorem exists_lastRoot {x : ι} (hx : x ∈ images) (hroot : (h x).parent = none) :
    ∃ base, lastRoot h images = some base := by
  induction images using List.reverseRecOn with
  | nil => cases hx
  | append_singleton images y ih =>
    rw [lastRoot, List.foldl_append, List.foldl_cons, List.foldl_nil]
    by_cases hy : (h y).parent = none
    · exact ⟨y, if_pos hy⟩
    · rw [if_neg hy]
      refine ih ((List.mem_append.mp hx).resolve_right fun hx => ?_)
      rw [List.mem_singleton.mp hx] at hroot
      exact hy hroot

/-- Above every image of the list stands one without a parent. -/
theorem Linked.exists_root (hl : Linked h images) {rank : ι → ℕ}
    (hrank : ∀ x p, h.parents x = some p → rank p < rank x) {x : ι} (hx : x ∈ images) :
    ∃ r ∈ images, (h r).parent = none := by
  induction hn : rank x using Nat.strong_induction_on generalizing x with
  | _ n ih =>
    subst hn
    cases hp : (h x).parent with
    | none => exact ⟨x, hx, hp⟩
    | some p => exact ih (rank p) (hrank x p hp) (hl.parent_mem x p hp) rfl

/-- The dump of the tree below `base` lists a `MATCHED` image exactly if
the image is `base` or is reached from it through `MATCHED` images. -/
theorem Linked.listing_iff (hl : Linked h images) (hac : Acyclic h.parents)
    (hnames : (images.map fun x => (h x).name).Nodup) {base : ι} (hbase : base ∈ images)
    (hroot : (h base).parent = none) {ts : List Ancestry} (hfuel : images.length < fuel)
    (ht : listChildren h fuel (h base).children = some ts) :
    Listing h images (.node (h base).name ts) ↔
      ∀ x ∈ images, (h x).status = .matched → x = base ∨ Relation.TransGen (Step h) base x := by
  obtain ⟨rank, hrank, hbound⟩ := hac.exists_rank hl.parent_mem
  have hinj : ∀ {x y : ι}, x ∈ images → y ∈ images → (h x).name = (h y).name → x = y :=
    fun hx hy => List.inj_on_of_nodup_map hnames hx hy
  have hlisted : Ancestry.names (.node (h base).name ts)
      = (base :: preorder h fuel (h base).children).map fun x => (h x).name := by
    rw [Ancestry.names, namesOf_listChildren ht, List.map_cons]
  have hmem : ∀ {x : ι}, x ∈ base :: preorder h fuel (h base).children → x ∈ images := by
    intro x hx
    rcases List.mem_cons.mp hx with rfl | hx
    · exact hbase
    · obtain ⟨p, hp, -⟩ := ancestor_iff.mp (ancestor_of_step (hl.preorder_sound hx))
      exact hl.child_mem x p hp
  have hdeep : ∀ p, images.length - rank p < fuel := fun p => by omega
  have hiff : ∀ x, x ∈ base :: preorder h fuel (h base).children ↔
      x = base ∨ Relation.TransGen (Step h) base x := by
    intro x
    rw [List.mem_cons]
    exact or_congr_right ⟨hl.preorder_sound, hl.preorder_complete hrank hbound (hdeep base)⟩
  constructor
  · intro hlisting x hx hm
    have hcount := hlisting.once x hx hm
    rw [hlisted] at hcount
    have hpos := Nat.lt_of_lt_of_eq Nat.one_pos hcount.symm
    obtain ⟨y, hy, hname⟩ := List.mem_map.mp (List.count_pos_iff.mp hpos)
    obtain rfl := hinj (hmem hy) hx hname
    exact (hiff _).mp hy
  · intro hall
    refine ⟨fun x hx hm => ?_, fun x hx hm p hp => ?_⟩
    · have hnodup : (base :: preorder h fuel (h base).children).Nodup :=
        List.nodup_cons.mpr ⟨fun hb => hac base (ancestor_of_step (hl.preorder_sound hb)),
          hl.preorder_nodup hac base⟩
      rw [hlisted]
      refine List.count_eq_one_of_mem (hnodup.map_on fun y hy z hz hyz => ?_) ?_
      · exact hinj (hmem hy) (hmem hz) hyz
      · exact List.mem_map_of_mem ((hiff x).mpr (hall x hx hm))
    · rw [Ancestry.edges, List.mem_append]
      rcases hall x hx hm with rfl | hpath
      · rw [hroot] at hp
        cases hp
      · obtain ⟨q, hbq, hqx⟩ := Relation.TransGen.tail'_iff.mp hpath
        obtain rfl : p = q := Option.some.inj (hp.symm.trans hqx.1)
        have hchild : x ∈ (h p).children := (hl.child_iff x p).mpr hp
        rcases Relation.reflTransGen_iff_eq_or_transGen.mp hbq with rfl | hbp
        · obtain ⟨t, htmem, hname⟩ := List.mem_map.mp (roots_listChildren ht hchild hm)
          exact .inl (List.mem_map.mpr ⟨t, htmem, by rw [hname]⟩)
        · have hp := hl.preorder_complete hrank hbound (hdeep base) hbp
          exact .inr (edgesOf_listChildren ht hp hchild hm)

end Dump

/-! ## After `filter_images` -/

section Filtered

variable {ι : Type} [DecidableEq ι] {images : ImageList ι} {h : Heap ι}

omit [DecidableEq ι] in
theorem matched_of_step {p x : ι} (h' : Relation.TransGen (Step h) p x) :
    (h x).status = .matched := by
  obtain ⟨q, -, hstep⟩ := Relation.TransGen.tail'_iff.mp h'
  exact hstep.2

omit [DecidableEq ι] in
theorem matched_between {base x a : ι} (hroot : (h base).parent = none)
    (hpath : Relation.TransGen (Step h) base x) (ha : Ancestor h.parents x a) (hne : a ≠ base) :
    (h a).status = .matched := by
  induction hpath with
  | single hstep =>
    obtain ⟨p, hp, hpa⟩ := ancestor_iff.mp ha
    obtain rfl := Option.some.inj (hp.symm.trans hstep.1)
    rcases hpa with rfl | hpa
    · exact absurd rfl hne
    · exact absurd hpa (not_ancestor_of_none hroot)
  | tail hy hstep ih =>
    obtain ⟨p, hp, hpa⟩ := ancestor_iff.mp ha
    obtain rfl := Option.some.inj (hp.symm.trans hstep.1)
    rcases hpa with rfl | hpa
    · exact matched_of_step hy
    · exact ih hpa

/-- A `MATCHED` image is reached from a root through `MATCHED` images
exactly if it descends from the root and no image on the way is
`SKIPPED`. -/
theorem Prepared.reached_iff (hprep : Prepared images h) (hac : Acyclic h.parents) {base x : ι}
    (hroot : (h base).parent = none) (hm : (h x).status = .matched) :
    Relation.TransGen (Step h) base x ↔ Ancestor h.parents x base ∧
      ∀ a, Ancestor h.parents x a → a ≠ base → (h a).status ≠ .skipped := by
  constructor
  · intro hpath
    refine ⟨ancestor_of_step hpath, fun a ha hne => ?_⟩
    rw [matched_between hroot hpath ha hne]
    decide
  · rintro ⟨hbase, hskip⟩
    induction hbase using Relation.TransGen.head_induction_on with
    | single hp => exact .single ⟨hp, hm⟩
    | @head y p hp hbase ih =>
      have hne : p ≠ base := by
        rintro rfl
        exact not_ancestor_of_none hroot hbase
      have hmp : (h p).status = .matched :=
        (hprep.parent_matched hac hp hm).resolve_right (hskip p (.single hp) hne)
      exact .tail (ih hmp fun a ha => hskip a (.head hp ha)) ⟨hp, hm⟩

end Filtered

/-- `list_dependencies` on linked and filtered images with distinct names:
the dump has every `MATCHED` image once and under its parent exactly if
every `MATCHED` image belongs to the tree of the last parentless image, and
no image strictly between the two is `SKIPPED`. -/
theorem listDependencies_iff {ι : Type} [DecidableEq ι] {images : ImageList ι} {h : Heap ι}
    (hprep : Prepared images h) (hac : Acyclic h.parents)
    (hnames : (images.refs.map fun x => (h x).name).Nodup)
    (hmatched : ∃ x ∈ images.refs, (h x).status = .matched) {fuel : ℕ}
    (hfuel : images.refs.length < fuel) :
    ∃ base t, lastRoot h images.refs = some base ∧
      listDependencies h fuel images.refs = some (.tree t) ∧
      (Listing h images.refs t ↔ Reached h images.refs base) := by
  have hl := hprep.linked
  obtain ⟨rank, hrank, hbound⟩ := hac.exists_rank hl.parent_mem
  obtain ⟨x, hx, hm⟩ := hmatched
  obtain ⟨r, hr, hroot⟩ := hl.exists_root hrank hx
  obtain ⟨base, hbase⟩ := exists_lastRoot hr hroot
  obtain ⟨hbmem, hbroot⟩ := lastRoot_eq_some hbase
  have hdeep : images.refs.length - rank base < fuel := by omega
  obtain ⟨ts, hts⟩ := hl.listChildren_isSome hrank hbound hdeep
  refine ⟨base, .node (h base).name ts, hbase, ?_, ?_⟩
  · have hany : (images.refs.any fun image => (h image).status = .matched) = true :=
      List.any_eq_true.mpr ⟨x, hx, decide_eq_true hm⟩
    rw [listDependencies, if_pos hany, hbase]
    dsimp only
    rw [hts, Option.map_some]
  · rw [hl.listing_iff hac hnames hbmem hbroot hfuel hts]
    refine forall₂_congr fun y hy => imp_congr_right fun hmy => or_congr_right ?_
    exact hprep.reached_iff hac hbroot hmy

/-- In the sample `base` is skipped and `nova` stands right below it. -/
theorem listDependencies_iff_sample :
    ∃ base t, lastRoot sampleImage sampleImages.refs = some base ∧
      listDependencies sampleImage 4 sampleImages.refs = some (.tree t) ∧
      (Listing sampleImage sampleImages.refs t ↔ Reached sampleImage sampleImages.refs base) :=
  listDependencies_iff sampleImage_prepared sampleImage_acyclic (by decide) ⟨1, by decide⟩
    (by decide)

/-! ## A skipped image in between

`base`, its child `nova-base` and that one's child `nova-api`, where parents
are skipped. -/

def chainHeap : Heap (Fin 3)
  | 0 => freshImage "base" "ns/base:1" "centos:9"
  | 1 => freshImage "nova-base" "ns/nova-base:1" "ns/base:1"
  | 2 => freshImage "nova-api" "ns/nova-api:1" "ns/nova-base:1"

def chainImages : ImageList (Fin 3) := ⟨List.finRange 3, List.nodup_finRange 3⟩

def chainConf : FilterConf := { sampleConf with regex := [] }

def chainImage : Heap (Fin 3) :=
  match filterImages chainConf 4 chainImages.refs (findParents chainHeap chainImages.refs) with
  | .ok (some h) => h
  | _ => chainHeap

theorem chainImage_prepared : Prepared chainImages chainImage :=
  ⟨chainHeap, chainConf, 4, by constructor <;> decide, rfl⟩

/-- `nova-api` is `MATCHED` and not in the dump. -/
theorem matched_not_listed :
    Prepared chainImages chainImage ∧ Acyclic chainImage.parents ∧
      (chainImages.refs.map fun x => (chainImage x).name).Nodup ∧
      (chainImage 2).status = .matched ∧
      listDependencies chainImage 4 chainImages.refs = some (.tree (.node "base" [])) ∧
      ¬ Listing chainImage chainImages.refs (.node "base" []) := by
  refine ⟨chainImage_prepared, acyclic_of_rank (fun x => x) (by decide), by decide, by decide,
    rfl, fun h => ?_⟩
  have honce := h.once 2 (by decide) (by decide)
  revert honce
  decide

end Kolla.Build
