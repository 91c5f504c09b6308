import Kolla.Lib.Transition
import Kolla.Lib.Forest
import Kolla.Build.Parents
import Mathlib

/-!
# What `filter_images` selects

`filter_images` makes three passes over the images.  Each pass changes
statuses only (`StatusOnly`), and each is described by what the finished
statuses mean in terms of the links and the names.

* `Unbuildable`: the image or one of its ancestors is in the set of
  unbuildable names.  `UnbuildableInv` is the invariant of the first pass.
  An ancestor that the walk finds marked is one that an earlier iteration
  marked, so the early exit is sound.
* `Requested`: the image passes the filter, or a buildable descendant
  does.  `MatchInv` is the invariant of the second pass.  Its part
  `upward` says that the matched images are closed under parents, which is
  why the walk may stop at the first matched one.
* `SkipRule`: the third pass looks at one image at a time.

`filterImages_selected` puts the three together, for enough fuel, and
`filterImages_perm` says that the order of the list is of no account.
-/

namespace Kolla.Build

open Kolla.Lib

variable {ι : Type}

/-- The parent links of a heap. -/
def Heap.parents (h : Heap ι) (x : ι) : Option ι := (h x).parent

/-- The two heaps differ in statuses only. -/
def StatusOnly (h h' : Heap ι) : Prop :=
  ∀ x, h' x = { h x with status := (h' x).status }

namespace StatusOnly

variable {h h' h'' : Heap ι}

theorem refl (h : Heap ι) : StatusOnly h h := fun _ => rfl

theorem trans (h₁ : StatusOnly h h') (h₂ : StatusOnly h' h'') : StatusOnly h h'' := by
  intro x
  rw [h₂ x, h₁ x]

theorem name (hs : StatusOnly h h') (x : ι) : (h' x).name = (h x).name := by
  rw [hs x]

theorem canonicalName (hs : StatusOnly h h') (x : ι) :
    (h' x).canonicalName = (h x).canonicalName := by
  rw [hs x]

theorem parent (hs : StatusOnly h h') (x : ι) : (h' x).parent = (h x).parent := by
  rw [hs x]

theorem children (hs : StatusOnly h h') (x : ι) : (h' x).children = (h x).children := by
  rw [hs x]

theorem parents (hs : StatusOnly h h') : h'.parents = h.parents :=
  funext hs.parent

/-- Two heaps with the same statuses that both come from `h` are equal. -/
theorem eq_of_status (h₁ : StatusOnly h h') (h₂ : StatusOnly h h'')
    (hst : ∀ x, (h' x).status = (h'' x).status) : h' = h'' := by
  funext x
  rw [h₁ x, h₂ x, hst x]

end StatusOnly

/-! ## The meaning of the statuses -/

/-- The image or one of its ancestors is named in the set. -/
def Unbuildable (names : List String) (h : Heap ι) (x : ι) : Prop :=
  (h x).name ∈ names ∨ ∃ a, Ancestor h.parents x a ∧ (h a).name ∈ names

/-- There is no filter, or the image passes it, or a descendant that can be
built passes it. -/
def Requested (names : List String) (filter : Option (String → Bool)) (h : Heap ι) (x : ι) :
    Prop :=
  match filter with
  | none => True
  | some search =>
    search (h x).name = true ∨
      ∃ d, Ancestor h.parents d x ∧ ¬ Unbuildable names h d ∧ search (h d).name = true

/-- A requested image is skipped when it exists already and existing images
are skipped, or when it has a child and parents are skipped. -/
def SkipRule (conf : FilterConf) (h : Heap ι) (x : ι) : Prop :=
  (conf.skipExisting = true ∧ conf.inEngineCache (h x).canonicalName = true) ∨
    (conf.skipParents = true ∧ (h x).children ≠ [])

/-- The filter of the second pass. -/
def nameFilter (conf : FilterConf) (patterns : List String) : Option (String → Bool) :=
  if patterns = [] then none else some (conf.search patterns)

/-- The outcome of `filter_images` on the images of the list. -/
structure Selected (conf : FilterConf) (patterns : List String) (images : List ι)
    (h h' : Heap ι) : Prop where
  statusOnly : StatusOnly h h'
  unbuildable : ∀ x ∈ images,
    ((h' x).status = .unbuildable ↔ Unbuildable (unbuildableNames conf) h x)
  skipped : ∀ x ∈ images,
    ((h' x).status = .skipped ↔ ¬ Unbuildable (unbuildableNames conf) h x ∧
      Requested (unbuildableNames conf) (nameFilter conf patterns) h x ∧ SkipRule conf h x)
  matched : ∀ x ∈ images,
    ((h' x).status = .matched ↔ ¬ Unbuildable (unbuildableNames conf) h x ∧
      Requested (unbuildableNames conf) (nameFilter conf patterns) h x ∧ ¬ SkipRule conf h x)
  unmatched : ∀ x ∈ images,
    ((h' x).status = .unmatched ↔ ¬ Unbuildable (unbuildableNames conf) h x ∧
      ¬ Requested (unbuildableNames conf) (nameFilter conf patterns) h x)

/-- Where the first pass ends: there is nothing to look for, or every image
that is its own ancestor has an ancestor named in the set. -/
def PassEnds (names : List String) (h : Heap ι) : Prop :=
  names = [] ∨ ∀ x, Ancestor h.parents x x → ∃ a, Ancestor h.parents x a ∧ (h a).name ∈ names

theorem PassEnds.of_acyclic {names : List String} {h : Heap ι} (hac : Acyclic h.parents) :
    PassEnds names h :=
  Or.inr fun x hx => absurd hx (hac x)

theorem Unbuildable.of_ancestor {names : List String} {h : Heap ι} {x a : ι}
    (ha : Ancestor h.parents x a) (hu : Unbuildable names h a) : Unbuildable names h x := by
  rcases hu with hn | ⟨b, hb, hn⟩
  · exact Or.inr ⟨a, ha, hn⟩
  · exact Or.inr ⟨b, ha.trans hb, hn⟩

variable [DecidableEq ι]

/-! ## One status assignment -/

section SetStatus

variable (h : Heap ι) (x y : ι) (st : Status)

@[simp] theorem setStatus_status :
    (h.setStatus x st y).status = if y = x then st else (h y).status := by
  by_cases hyx : y = x
  · subst hyx
    simp [Heap.setStatus]
  · simp [Heap.setStatus, hyx]

theorem setStatus_statusOnly : StatusOnly h (h.setStatus x st) := by
  intro y
  by_cases hyx : y = x
  · subst hyx
    simp [Heap.setStatus]
  · simp [Heap.setStatus, hyx]

@[simp] theorem setStatus_parent : (h.setStatus x st y).parent = (h y).parent :=
  (setStatus_statusOnly h x st).parent y

@[simp] theorem setStatus_name : (h.setStatus x st y).name = (h y).name :=
  (setStatus_statusOnly h x st).name y

end SetStatus

/-! ## The first pass -/

section FirstPass

variable {h₀ : Heap ι} {names : List String} {rank : ι → ℕ}

/-- The walk of the first pass, if it ends, finds no ancestor in the set, or
it marks one ancestor that cannot be built. -/
theorem checkAncestors_cases :
    ∀ {fuel : ℕ} {h : Heap ι} {x : ι} {r : Heap ι × Bool},
      checkAncestors names fuel h x = some r → StatusOnly h₀ h →
      (∀ y, (h y).status = .unbuildable → Unbuildable names h₀ y) →
      (r = (h, true) ∧ ∀ a, Ancestor h₀.parents x a → (h₀ a).name ∉ names) ∨
        ∃ a, r = (h.setStatus a .unbuildable, false) ∧
          Ancestor h₀.parents x a ∧ Unbuildable names h₀ a := by
  intro fuel
  induction fuel with
  | zero => exact fun he => by cases he
  | succ fuel ih =>
    intro h x r he hso hsound
    have hpar : (h x).parent = h₀.parents x := hso.parent x
    rw [checkAncestors, hpar] at he
    cases hp : h₀.parents x with
    | none =>
      left
      rw [hp] at he
      exact ⟨(Option.some.inj he).symm, fun a ha => absurd ha (not_ancestor_of_none hp)⟩
    | some p =>
      simp only [hp] at he
      by_cases hstop : (h p).name ∈ names ∨ (h p).status = .unbuildable
      · right
        rw [if_pos hstop] at he
        refine ⟨p, (Option.some.inj he).symm, Ancestor.single hp, ?_⟩
        rcases hstop with hn | hs
        · rw [hso.name p] at hn
          exact Or.inl hn
        · exact hsound p hs
      · rw [if_neg hstop] at he
        rcases ih he hso hsound with ⟨hr, hnone⟩ | ⟨a, hr, ha, hu⟩
        · left
          refine ⟨hr, fun a ha => ?_⟩
          obtain ⟨q, hq, haq⟩ := ancestor_iff.mp ha
          rw [hp, Option.some.injEq] at hq
          subst hq
          rcases haq with rfl | haq
          · rw [← hso.name a]
            exact fun hn => hstop (Or.inl hn)
          · exact hnone a haq
        · exact Or.inr ⟨a, hr, Ancestor.head hp ha, hu⟩

/-- The walk of the first pass ends within the rank of the image.  The rank
grows from parent to child, unless the parent is named in the set. -/
theorem checkAncestors_ends
    (hrank : ∀ x p, h₀.parents x = some p → (h₀ p).name ∉ names → rank p < rank x) :
    ∀ {fuel : ℕ} {h : Heap ι} {x : ι}, rank x < fuel → StatusOnly h₀ h →
      ∃ r, checkAncestors names fuel h x = some r := by
  intro fuel
  induction fuel with
  | zero => exact fun hlt => absurd hlt (Nat.not_lt_zero _)
  | succ fuel ih =>
    intro h x hlt hso
    have hpar : (h x).parent = h₀.parents x := hso.parent x
    rw [checkAncestors, hpar]
    cases hp : h₀.parents x with
    | none => exact ⟨_, rfl⟩
    | some p =>
      by_cases hstop : (h p).name ∈ names ∨ (h p).status = .unbuildable
      · exact ⟨_, if_pos hstop⟩
      · have hname : (h₀ p).name ∉ names := fun hn => hstop (Or.inl (by rwa [hso.name p]))
        have hfuel : rank p < fuel := by
          have := hrank x p hp hname
          omega
        simp only [if_neg hstop]
        exact ih hfuel hso

/-- The invariant of the first pass, after the images `pre`. -/
structure UnbuildableInv (h₀ : Heap ι) (names : List String) (pre : List ι) (h : Heap ι) :
    Prop where
  statusOnly : StatusOnly h₀ h
  kinds : ∀ x, (h x).status = .unprocessed ∨
    (h x).status = .unbuildable ∧ Unbuildable names h₀ x
  seen : ∀ x ∈ pre, Unbuildable names h₀ x → (h x).status = .unbuildable

omit [DecidableEq ι] in
theorem UnbuildableInv.sound {pre : List ι} {h : Heap ι}
    (hinv : UnbuildableInv h₀ names pre h) {x : ι} (hx : (h x).status = .unbuildable) :
    Unbuildable names h₀ x := by
  rcases hinv.kinds x with hu | ⟨_, hu⟩
  · rw [hx] at hu
    cases hu
  · exact hu

/-- Marking an image that cannot be built keeps the invariant. -/
theorem UnbuildableInv.mark {pre : List ι} {h : Heap ι}
    (hinv : UnbuildableInv h₀ names pre h) {x : ι} (hx : Unbuildable names h₀ x) :
    UnbuildableInv h₀ names (pre ++ [x]) (h.setStatus x .unbuildable) where
  statusOnly := hinv.statusOnly.trans (setStatus_statusOnly h x _)
  kinds y := by
    rw [setStatus_status]
    split
    · rename_i hyx
      subst hyx
      exact Or.inr ⟨rfl, hx⟩
    · exact hinv.kinds y
  seen y hy hu := by
    rw [setStatus_status]
    split
    · rfl
    · rename_i hyx
      rw [List.mem_append, List.mem_singleton] at hy
      exact hinv.seen y (hy.resolve_right hyx) hu

/-- Marking an ancestor only, without a claim about a further image. -/
theorem UnbuildableInv.markOther {pre : List ι} {h : Heap ι}
    (hinv : UnbuildableInv h₀ names pre h) {a : ι} (ha : Unbuildable names h₀ a) :
    UnbuildableInv h₀ names pre (h.setStatus a .unbuildable) := by
  obtain ⟨hso, hkinds, hseen⟩ := hinv.mark ha
  exact ⟨hso, hkinds, fun x hx => hseen x (by simp [hx])⟩

/-- One iteration of the first pass, if its walk ends. -/
theorem UnbuildableInv.step {fuel : ℕ} {pre : List ι} {h h' : Heap ι} {x : ι}
    (hinv : UnbuildableInv h₀ names pre h) (he : markUnbuildable names fuel h x = some h') :
    UnbuildableInv h₀ names (pre ++ [x]) h' := by
  rw [markUnbuildable] at he
  split at he
  · rename_i hn
    cases he
    rw [hinv.statusOnly.name x] at hn
    exact hinv.mark (Or.inl hn)
  · rename_i hn
    simp only [Option.bind_eq_bind, Option.pure_def, Option.bind_eq_some_iff,
      Option.some.injEq] at he
    obtain ⟨r, hr, rfl⟩ := he
    rcases checkAncestors_cases hr hinv.statusOnly (fun y hy => hinv.sound hy) with
      ⟨rfl, hnone⟩ | ⟨a, rfl, ha, hu⟩
    · refine ⟨hinv.statusOnly, hinv.kinds, fun y hy hu => ?_⟩
      rw [List.mem_append, List.mem_singleton] at hy
      rcases hy with hy | rfl
      · exact hinv.seen y hy hu
      · rw [hinv.statusOnly.name y] at hn
        rcases hu with hn' | ⟨a, ha, hn'⟩
        · exact absurd hn' hn
        · exact absurd hn' (hnone a ha)
    · exact (hinv.markOther hu).mark (hu.of_ancestor ha)

theorem markUnbuildable_inv
    (hrank : ∀ x p, h₀.parents x = some p → (h₀ p).name ∉ names → rank p < rank x)
    {fuel : ℕ} {pre : List ι} {h : Heap ι} {x : ι} (hfuel : rank x < fuel)
    (hinv : UnbuildableInv h₀ names pre h) :
    ∃ h', markUnbuildable names fuel h x = some h' ∧
      UnbuildableInv h₀ names (pre ++ [x]) h' := by
  have hends : ∃ h', markUnbuildable names fuel h x = some h' := by
    rw [markUnbuildable]
    split
    · exact ⟨_, rfl⟩
    · obtain ⟨r, hr⟩ := checkAncestors_ends hrank hfuel hinv.statusOnly
      exact ⟨_, by rw [hr]; rfl⟩
  obtain ⟨h', he⟩ := hends
  exact ⟨h', he, hinv.step he⟩

omit [DecidableEq ι] in
theorem UnbuildableInv.start (hun : ∀ x, (h₀ x).status = .unprocessed) :
    UnbuildableInv h₀ names [] h₀ :=
  ⟨StatusOnly.refl h₀, fun x => Or.inl (hun x), fun x hx => by cases hx⟩

/-- The first pass as a whole. -/
theorem firstPass_spec {conf : FilterConf} {images : List ι}
    (hexit : PassEnds (unbuildableNames conf) h₀)
    (hmem : ∀ x p, h₀.parents x = some p → p ∈ images)
    {fuel : ℕ} (hfuel : images.length < fuel) (hun : ∀ x, (h₀ x).status = .unprocessed) :
    ∃ h, firstPass conf fuel images h₀ = some h ∧
      UnbuildableInv h₀ (unbuildableNames conf) images h := by
  have hstart : UnbuildableInv h₀ (unbuildableNames conf) [] h₀ := UnbuildableInv.start hun
  rw [firstPass]
  split
  · rename_i hnil
    refine ⟨h₀, rfl, hstart.statusOnly, hstart.kinds, fun x _ hu => ?_⟩
    rw [hnil] at hu
    rcases hu with hn | ⟨a, _, hn⟩ <;> cases hn
  · rename_i hne
    have hstop : ∀ x, Ancestor h₀.parents x x →
        ∃ a, Ancestor h₀.parents x a ∧ decide ((h₀ a).name ∈ unbuildableNames conf) = true :=
      fun x hx => by simpa using hexit.resolve_left hne x hx
    obtain ⟨rank, hrank, hbound⟩ := exists_rank_of_exits hstop hmem
    have hrank' : ∀ x p, h₀.parents x = some p → (h₀ p).name ∉ unbuildableNames conf →
        rank p < rank x := fun x p hp hn => hrank x p hp (by simpa using hn)
    exact foldlM_total hstart
      (fun pre x _ h _ hinv => markUnbuildable_inv hrank' ((hbound x).trans_lt hfuel) hinv)

end FirstPass

/-! ## The second pass -/

section SecondPass

variable {h₀ h₁ : Heap ι} {names : List String} {search : String → Bool} {images : List ι}

/-- How many images of the list are not matched. -/
def unmatchedCount (images : List ι) (h : Heap ι) : ℕ :=
  images.countP fun x => (h x).status ≠ .matched

omit [DecidableEq ι] in
theorem unmatchedCount_le (images : List ι) (h : Heap ι) :
    unmatchedCount images h ≤ images.length :=
  List.countP_le_length

/-- Each step of the walk matches one image more. -/
theorem unmatchedCount_setStatus_lt {h : Heap ι} {p : ι} (hp : p ∈ images)
    (hst : (h p).status ≠ .matched) :
    unmatchedCount images (h.setStatus p .matched) < unmatchedCount images h := by
  have hle : ∀ xs : List ι,
      unmatchedCount xs (h.setStatus p .matched) ≤ unmatchedCount xs h := by
    intro xs
    refine List.countP_mono_left fun x _ hx => ?_
    rw [setStatus_status] at hx
    split at hx
    · simp at hx
    · exact hx
  have hsplit : ∀ pre suf (g : Heap ι), unmatchedCount (pre ++ p :: suf) g
      = unmatchedCount pre g + (if (g p).status ≠ .matched then 1 else 0)
        + unmatchedCount suf g := by
    intro pre suf g
    simp only [unmatchedCount, List.countP_append, List.countP_cons, decide_eq_true_eq]
    omega
  obtain ⟨pre, suf, rfl⟩ := List.append_of_mem hp
  have hpre := hle pre
  have hsuf := hle suf
  rw [hsplit, hsplit, if_pos hst, if_neg (by simp)]
  omega

/-- The walk of the second pass, started at a matched image.  Each step
matches one image more, so it ends within the number of the others, also on a
cycle.  It matches ancestors of the image only, and afterwards the parent of
every matched image is matched, provided that this held before for every image
but the one the walk starts at. -/
theorem matchAncestors_spec (hmem : ∀ x p, h₀.parents x = some p → p ∈ images) :
    ∀ (fuel : ℕ) (h : Heap ι) (x : ι), unmatchedCount images h < fuel → StatusOnly h₀ h →
      (h x).status = .matched →
      (∀ y p, y ≠ x → h₀.parents y = some p → (h y).status = .matched →
        (h p).status = .matched) →
      ∃ h', matchAncestors fuel h x = some h' ∧ StatusOnly h₀ h' ∧
        (∀ y, (h' y).status = (h y).status ∨
          Ancestor h₀.parents x y ∧ (h' y).status = .matched) ∧
        ∀ y p, h₀.parents y = some p → (h' y).status = .matched →
          (h' p).status = .matched := by
  intro fuel
  induction fuel with
  | zero => exact fun _ _ hlt => absurd hlt (Nat.not_lt_zero _)
  | succ fuel ih =>
    intro h x hlt hso hx hup
    have hpar : (h x).parent = h₀.parents x := hso.parent x
    cases hp : h₀.parents x with
    | none =>
      refine ⟨h, by simp [matchAncestors, hpar, hp], hso, fun y => Or.inl rfl, ?_⟩
      intro y p hy hst
      refine hup y p ?_ hy hst
      rintro rfl
      rw [hp] at hy
      cases hy
    | some p =>
      by_cases hm : (h p).status = .matched
      · refine ⟨h, by simp [matchAncestors, hpar, hp, hm], hso, fun y => Or.inl rfl, ?_⟩
        intro y q hy hst
        by_cases hyx : y = x
        · subst hyx
          rw [hp, Option.some.injEq] at hy
          exact hy ▸ hm
        · exact hup y q hyx hy hst
      · have hfuel : unmatchedCount images (h.setStatus p .matched) < fuel := by
          have := unmatchedCount_setStatus_lt (hmem x p hp) hm
          omega
        have hstep : matchAncestors (fuel + 1) h x
            = matchAncestors fuel (h.setStatus p .matched) p := by
          simp [matchAncestors, hpar, hp, hm]
        obtain ⟨h', he, hso', hch, hup'⟩ := ih (h.setStatus p .matched) p hfuel
          (hso.trans (setStatus_statusOnly h p _)) (by simp) (by
            intro y q hyp hy hst
            rw [setStatus_status, if_neg hyp] at hst
            rw [setStatus_status]
            split
            · rfl
            · rename_i hqp
              refine hup y q ?_ hy hst
              rintro rfl
              rw [hp, Option.some.injEq] at hy
              exact hqp hy.symm)
        refine ⟨h', hstep.trans he, hso', fun y => ?_, hup'⟩
        rcases hch y with hsame | ⟨ha, hst⟩
        · rw [setStatus_status] at hsame
          split at hsame
          · rename_i hyp
            subst hyp
            exact Or.inr ⟨Ancestor.single hp, hsame⟩
          · exact Or.inl hsame
        · exact Or.inr ⟨Ancestor.head hp ha, hst⟩

/-- The invariant of the second pass, after the images `pre`.  `h₁` is the
heap that the first pass left. -/
structure MatchInv (h₀ h₁ : Heap ι) (names : List String) (search : String → Bool)
    (pre : List ι) (h : Heap ι) : Prop where
  statusOnly : StatusOnly h₀ h
  kinds : ∀ x, (h x).status ∈ [.unprocessed, .unbuildable, .matched, .unmatched]
  unbuildable : ∀ x, (h x).status = .unbuildable ↔ (h₁ x).status = .unbuildable
  upward : ∀ x p, h₀.parents x = some p → (h x).status = .matched → (h p).status = .matched
  sound : ∀ x, (h x).status = .matched →
    ¬ Unbuildable names h₀ x ∧ Requested names (some search) h₀ x
  complete : ∀ x ∈ pre, ¬ Unbuildable names h₀ x → search (h₀ x).name = true →
    (h x).status = .matched
  seen : ∀ x ∈ pre, (h x).status ≠ .unprocessed

/-- An image that passes the filter becomes matched together with its
ancestors. -/
theorem MatchInv.match {fuel : ℕ} {pre : List ι} {h : Heap ι} {x : ι}
    (hmem : ∀ x p, h₀.parents x = some p → p ∈ images) (hfuel : images.length < fuel)
    (hsound : ∀ y, (h₁ y).status = .unbuildable → Unbuildable names h₀ y)
    (hinv : MatchInv h₀ h₁ names search pre h) (hx : ¬ Unbuildable names h₀ x)
    (hname : search (h₀ x).name = true) :
    ∃ h', matchAncestors fuel (h.setStatus x .matched) x = some h' ∧
      MatchInv h₀ h₁ names search (pre ++ [x]) h' := by
  obtain ⟨h', he, hso, hch, hup⟩ := matchAncestors_spec hmem fuel
    (h.setStatus x .matched) x ((unmatchedCount_le _ _).trans_lt hfuel) (hinv.statusOnly.trans (setStatus_statusOnly h x _))
    (by simp) (by
      intro y p hyx hy hst
      rw [setStatus_status, if_neg hyx] at hst
      rw [setStatus_status]
      split
      · rfl
      · exact hinv.upward y p hy hst)
  -- every status is the old one, or the image is `x` or an ancestor of it and is matched
  have hcases : ∀ y, (h' y).status = (h y).status ∨
      (y = x ∨ Ancestor h₀.parents x y) ∧ (h' y).status = .matched := by
    intro y
    rcases hch y with hsame | ⟨ha, hst⟩
    · rw [setStatus_status] at hsame
      split at hsame
      · rename_i hyx
        exact Or.inr ⟨Or.inl hyx, hsame⟩
      · exact Or.inl hsame
    · exact Or.inr ⟨Or.inr ha, hst⟩
  have hbuild : ∀ y, y = x ∨ Ancestor h₀.parents x y → ¬ Unbuildable names h₀ y := by
    rintro y (rfl | ha)
    · exact hx
    · exact fun hu => hx (hu.of_ancestor ha)
  have hkeep : ∀ y, (h y).status = .matched → (h' y).status = .matched := by
    intro y hy
    rcases hcases y with hsame | ⟨_, hst⟩
    · exact hsame.trans hy
    · exact hst
  refine ⟨h', he, hso, ?_, ?_, hup, ?_, ?_, ?_⟩
  · intro y
    rcases hcases y with hsame | ⟨_, hst⟩
    · rw [hsame]
      exact hinv.kinds y
    · rw [hst]
      decide
  · intro y
    rcases hcases y with hsame | ⟨hy, hst⟩
    · rw [hsame]
      exact hinv.unbuildable y
    · rw [hst]
      exact iff_of_false (by decide) (fun hu => hbuild y hy (hsound y hu))
  · intro y hst
    rcases hcases y with hsame | ⟨hy, _⟩
    · exact hinv.sound y (hsame ▸ hst)
    · refine ⟨hbuild y hy, ?_⟩
      rcases hy with rfl | ha
      · exact Or.inl hname
      · exact Or.inr ⟨x, ha, hx, hname⟩
  · intro y hy hyu hyn
    rw [List.mem_append, List.mem_singleton] at hy
    rcases hy with hy | rfl
    · exact hkeep y (hinv.complete y hy hyu hyn)
    · rcases hch y with hsame | ⟨_, hst⟩
      · rw [setStatus_status, if_pos rfl] at hsame
        exact hsame
      · exact hst
  · intro y hy
    rw [List.mem_append, List.mem_singleton] at hy
    rcases hcases y with hsame | ⟨_, hst⟩
    · rcases hy with hy | rfl
      · rw [hsame]
        exact hinv.seen y hy
      · rcases hch y with hsame' | ⟨_, hst⟩
        · rw [setStatus_status, if_pos rfl] at hsame'
          rw [hsame']
          decide
        · rw [hst]
          decide
    · rw [hst]
      decide

/-- An image that does not pass the filter and is not needed yet becomes
unmatched. -/
theorem MatchInv.unmatch {pre : List ι} {h : Heap ι} {x : ι}
    (hinv : MatchInv h₀ h₁ names search pre h)
    (hst : (h x).status ∉ [Status.matched, .unbuildable])
    (hname : search (h₀ x).name ≠ true) :
    MatchInv h₀ h₁ names search (pre ++ [x]) (h.setStatus x .unmatched) := by
  simp only [List.mem_cons, List.not_mem_nil, or_false, not_or] at hst
  have hne : ∀ y st, (h.setStatus x .unmatched y).status = st → st ≠ .unmatched →
      y ≠ x ∧ (h y).status = st := by
    intro y st hy hst'
    rw [setStatus_status] at hy
    split at hy
    · exact absurd hy.symm hst'
    · rename_i hyx
      exact ⟨hyx, hy⟩
  refine ⟨hinv.statusOnly.trans (setStatus_statusOnly h x _), ?_, ?_, ?_, ?_, ?_, ?_⟩
  · intro y
    rw [setStatus_status]
    split
    · decide
    · exact hinv.kinds y
  · intro y
    rw [setStatus_status]
    split
    · rename_i hyx
      subst hyx
      rw [← hinv.unbuildable y]
      simp [hst.2]
    · exact hinv.unbuildable y
  · intro y p hy hm
    have hm' := (hne y _ hm (by decide)).2
    rw [setStatus_status]
    split
    · rename_i hpx
      subst hpx
      exact absurd (hinv.upward y p hy hm') hst.1
    · exact hinv.upward y p hy hm'
  · intro y hm
    exact hinv.sound y (hne y _ hm (by decide)).2
  · intro y hy hyu hyn
    rw [setStatus_status]
    split
    · rename_i hyx
      subst hyx
      exact absurd hyn hname
    · rename_i hyx
      rw [List.mem_append, List.mem_singleton] at hy
      exact hinv.complete y (hy.resolve_right hyx) hyu hyn
  · intro y hy
    rw [setStatus_status]
    split
    · decide
    · rename_i hyx
      rw [List.mem_append, List.mem_singleton] at hy
      exact hinv.seen y (hy.resolve_right hyx)

theorem markMatched_inv (hmem : ∀ x p, h₀.parents x = some p → p ∈ images)
    {fuel : ℕ} {pre : List ι} {h : Heap ι} {x : ι} (hfuel : images.length < fuel)
    (hsound : ∀ y, (h₁ y).status = .unbuildable → Unbuildable names h₀ y)
    (hx : Unbuildable names h₀ x → (h₁ x).status = .unbuildable)
    (hinv : MatchInv h₀ h₁ names search pre h) :
    ∃ h', markMatched search fuel h x = some h' ∧
      MatchInv h₀ h₁ names search (pre ++ [x]) h' := by
  have hnameEq : (h x).name = (h₀ x).name := hinv.statusOnly.name x
  by_cases hst : (h x).status ∈ [Status.matched, .unbuildable]
  · refine ⟨h, by rw [markMatched, if_pos hst], hinv.statusOnly, hinv.kinds,
      hinv.unbuildable, hinv.upward, hinv.sound, ?_, ?_⟩
    · intro y hy hyu hyn
      rw [List.mem_append, List.mem_singleton] at hy
      rcases hy with hy | rfl
      · exact hinv.complete y hy hyu hyn
      · simp only [List.mem_cons, List.not_mem_nil, or_false] at hst
        rcases hst with hm | hu
        · exact hm
        · exact absurd (hsound y ((hinv.unbuildable y).mp hu)) hyu
    · intro y hy
      rw [List.mem_append, List.mem_singleton] at hy
      rcases hy with hy | rfl
      · exact hinv.seen y hy
      · intro hun
        rw [hun] at hst
        revert hst
        decide
  · rw [markMatched, if_neg hst, hnameEq]
    by_cases hname : search (h₀ x).name = true
    · rw [if_pos hname]
      refine hinv.match hmem hfuel hsound (fun hu => ?_) hname
      exact hst (by simp [(hinv.unbuildable x).mpr (hx hu)])
    · rw [if_neg hname]
      exact ⟨_, rfl, hinv.unmatch hst hname⟩

end SecondPass

/-! ## Passes that treat the images one by one -/

/-- A loop whose body rewrites one image in place, by a function that a
second application does not change, rewrites every image of the list. -/
theorem foldl_update_pointwise (g : Image ι → Image ι) (hg : ∀ i, g (g i) = g i)
    (images : List ι) (h : Heap ι) (y : ι) :
    images.foldl (fun h x => Function.update h x (g (h x))) h y
      = if y ∈ images then g (h y) else h y := by
  induction images generalizing h with
  | nil => simp
  | cons x images ih =>
    rw [List.foldl_cons, ih]
    by_cases hyx : y = x
    · subst hyx
      simp [hg]
    · simp [hyx]

/-- The status that the second pass without a filter gives one image. -/
def allStatus (i : Image ι) : Image ι :=
  if i.status ≠ .unbuildable then { i with status := .matched } else i

omit [DecidableEq ι] in
theorem allStatus_idem (i : Image ι) : allStatus (allStatus i) = allStatus i := by
  unfold allStatus
  by_cases hi : i.status = .unbuildable <;> simp [hi]

theorem markAll_eq_update (h : Heap ι) (x : ι) :
    markAll h x = Function.update h x (allStatus (h x)) := by
  unfold markAll allStatus
  split
  · rfl
  · rw [Function.update_eq_self]

/-- The status that the third pass gives one image. -/
def skipStatus (conf : FilterConf) (i : Image ι) : Image ι :=
  if i.status ≠ .matched then i
  else if conf.skipExisting && conf.inEngineCache i.canonicalName then
    { i with status := .skipped }
  else if conf.skipParents && !i.children.isEmpty then { i with status := .skipped }
  else i

omit [DecidableEq ι] in
theorem skipStatus_idem (conf : FilterConf) (i : Image ι) :
    skipStatus conf (skipStatus conf i) = skipStatus conf i := by
  unfold skipStatus
  by_cases hm : i.status = .matched
  · by_cases he : (conf.skipExisting && conf.inEngineCache i.canonicalName) = true
    · simp [hm, he]
    · by_cases hc : (conf.skipParents && !i.children.isEmpty) = true
      · simp [hm, he, hc]
      · simp [hm, he, hc]
  · simp [hm]

theorem markSkipped_eq_update (conf : FilterConf) (h : Heap ι) (x : ι) :
    markSkipped conf h x = Function.update h x (skipStatus conf (h x)) := by
  unfold markSkipped skipStatus
  split_ifs
  · rw [Function.update_eq_self]
  · rfl
  · rfl
  · rw [Function.update_eq_self]

/-! ## What no pass touches -/

section Frame

variable {h₀ : Heap ι} {images : List ι}

/-- The heap differs from `h₀` in the statuses of images of the list only. -/
structure FrameInv (h₀ : Heap ι) (images : List ι) (h : Heap ι) : Prop where
  statusOnly : StatusOnly h₀ h
  outside : ∀ x, x ∉ images → h x = h₀ x

omit [DecidableEq ι] in
theorem FrameInv.refl (h₀ : Heap ι) (images : List ι) : FrameInv h₀ images h₀ :=
  ⟨StatusOnly.refl h₀, fun _ _ => rfl⟩

theorem FrameInv.setStatus {h : Heap ι} (hinv : FrameInv h₀ images h) {x : ι}
    (hx : x ∈ images) (st : Status) : FrameInv h₀ images (h.setStatus x st) := by
  refine ⟨hinv.statusOnly.trans (setStatus_statusOnly h x st), fun y hy => ?_⟩
  have hyx : y ≠ x := fun he => hy (he ▸ hx)
  rw [Heap.setStatus, Function.update_of_ne hyx]
  exact hinv.outside y hy

theorem checkAncestors_frame {names : List String} (hl : Linked h₀ images) :
    ∀ (fuel : ℕ) (h : Heap ι) (x : ι) (r : Heap ι × Bool), FrameInv h₀ images h →
      checkAncestors names fuel h x = some r → FrameInv h₀ images r.1 := by
  intro fuel
  induction fuel with
  | zero => exact fun _ _ _ _ he => by cases he
  | succ fuel ih =>
    intro h x r hinv he
    rw [checkAncestors] at he
    split at he
    · cases he
      exact hinv
    · rename_i p hp
      rw [hinv.statusOnly.parent x] at hp
      split at he
      · cases he
        exact hinv.setStatus (hl.parent_mem x p hp) _
      · exact ih h p r hinv he

theorem markUnbuildable_frame {names : List String} {fuel : ℕ} (hl : Linked h₀ images)
    {h h' : Heap ι} {x : ι} (hx : x ∈ images) (he : markUnbuildable names fuel h x = some h')
    (hinv : FrameInv h₀ images h) : FrameInv h₀ images h' := by
  rw [markUnbuildable] at he
  split at he
  · cases he
    exact hinv.setStatus hx _
  · simp only [Option.bind_eq_bind, Option.pure_def, Option.bind_eq_some_iff,
      Option.some.injEq] at he
    obtain ⟨r, hr, hh'⟩ := he
    have hrinv := checkAncestors_frame hl fuel h x r hinv hr
    rw [← hh']
    split
    · exact hrinv
    · exact hrinv.setStatus hx _

theorem matchAncestors_frame (hl : Linked h₀ images) :
    ∀ (fuel : ℕ) (h h' : Heap ι) (x : ι), FrameInv h₀ images h →
      matchAncestors fuel h x = some h' → FrameInv h₀ images h' := by
  intro fuel
  induction fuel with
  | zero => exact fun _ _ _ _ he => by cases he
  | succ fuel ih =>
    intro h h' x hinv he
    rw [matchAncestors] at he
    split at he
    · cases he
      exact hinv
    · rename_i p hp
      rw [hinv.statusOnly.parent x] at hp
      split at he
      · exact ih _ h' p (hinv.setStatus (hl.parent_mem x p hp) _) he
      · cases he
        exact hinv

theorem markMatched_frame {search : String → Bool} {fuel : ℕ} (hl : Linked h₀ images)
    {h h' : Heap ι} {x : ι} (hx : x ∈ images) (he : markMatched search fuel h x = some h')
    (hinv : FrameInv h₀ images h) : FrameInv h₀ images h' := by
  rw [markMatched] at he
  split at he
  · cases he
    exact hinv
  · split at he
    · exact matchAncestors_frame hl fuel _ h' x (hinv.setStatus hx _) he
    · cases he
      exact hinv.setStatus hx _

/-- A pass that treats the images of the list one by one keeps the frame. -/
theorem foldl_frame {f : Heap ι → ι → Heap ι} {xs : List ι} (hxs : ∀ x ∈ xs, x ∈ images)
    (hf : ∀ h x, f h x = h ∨ ∃ st, f h x = h.setStatus x st) {h : Heap ι}
    (hinv : FrameInv h₀ images h) : FrameInv h₀ images (xs.foldl f h) := by
  induction xs generalizing h with
  | nil => exact hinv
  | cons x xs ih =>
    rw [List.foldl_cons]
    refine ih (fun y hy => hxs y (by simp [hy])) ?_
    rcases hf h x with he | ⟨st, he⟩
    · rw [he]
      exact hinv
    · rw [he]
      exact hinv.setStatus (hxs x (by simp)) st

theorem firstPass_frame {conf : FilterConf} {fuel : ℕ} (hl : Linked h₀ images) {h : Heap ι}
    (he : firstPass conf fuel images h₀ = some h) : FrameInv h₀ images h := by
  rw [firstPass] at he
  split at he
  · cases he
    exact FrameInv.refl h₀ images
  · exact foldlM_preserves he (FrameInv.refl h₀ images)
      (fun x hx _ _ hb => markUnbuildable_frame hl hx hb)

theorem secondPass_frame {conf : FilterConf} {patterns : List String} {fuel : ℕ}
    (hl : Linked h₀ images) {h h' : Heap ι} (hinv : FrameInv h₀ images h)
    (he : secondPass conf patterns fuel images h = some h') : FrameInv h₀ images h' := by
  rw [secondPass] at he
  split at he
  · cases he
    refine foldl_frame (fun x hx => hx) (fun h x => ?_) hinv
    unfold markAll
    split
    · exact Or.inr ⟨_, rfl⟩
    · exact Or.inl rfl
  · exact foldlM_preserves he hinv (fun x hx _ _ hb => markMatched_frame hl hx hb)

theorem thirdPass_frame {conf : FilterConf} {h : Heap ι} (hinv : FrameInv h₀ images h) :
    FrameInv h₀ images (thirdPass conf images h) := by
  refine foldl_frame (fun x hx => hx) (fun h x => ?_) hinv
  unfold markSkipped
  split_ifs
  · exact Or.inl rfl
  · exact Or.inr ⟨_, rfl⟩
  · exact Or.inr ⟨_, rfl⟩
  · exact Or.inl rfl

/-- The three passes of a call that ends. -/
theorem filterImages_eq_some {conf : FilterConf} {fuel : ℕ} {h h' : Heap ι} :
    filterImages conf fuel images h = .ok (some h') ↔
      ∃ patterns h₁ h₂, filterPatterns conf = .ok patterns ∧
        firstPass conf fuel images h = some h₁ ∧
        secondPass conf patterns fuel images h₁ = some h₂ ∧ thirdPass conf images h₂ = h' := by
  rw [filterImages]
  cases filterPatterns conf with
  | error e => simp
  | ok patterns => simp [Option.bind_eq_some_iff, Option.map_eq_some_iff]

/-- `filter_images` changes statuses of the images of its list only,
whatever the links are. -/
theorem filterImages_frame {conf : FilterConf} {fuel : ℕ} (hl : Linked h₀ images)
    {h' : Heap ι} (he : filterImages conf fuel images h₀ = .ok (some h')) :
    FrameInv h₀ images h' := by
  obtain ⟨patterns, h₁, h₂, _, hfirst, hsecond, rfl⟩ := filterImages_eq_some.mp he
  exact thirdPass_frame (secondPass_frame hl (firstPass_frame hl hfirst) hsecond)

end Frame

/-! ## More fuel -/

section Fuel

variable {fuel fuel' : ℕ}

theorem checkAncestors_mono {names : List String} (hle : fuel ≤ fuel') {h : Heap ι} {x : ι}
    {r : Heap ι × Bool} (he : checkAncestors names fuel h x = some r) :
    checkAncestors names fuel' h x = some r := by
  induction fuel generalizing fuel' x with
  | zero => cases he
  | succ fuel ih =>
    obtain ⟨fuel', rfl⟩ : ∃ n, fuel' = n + 1 := ⟨fuel' - 1, by omega⟩
    rw [checkAncestors] at he ⊢
    split at he
    · exact he
    · split at he
      · rename_i hp hstop
        rw [if_pos hstop]
        exact he
      · rename_i hp hstop
        rw [if_neg hstop]
        exact ih (by omega) he

theorem markUnbuildable_mono {names : List String} (hle : fuel ≤ fuel') {h h' : Heap ι} {x : ι}
    (he : markUnbuildable names fuel h x = some h') : markUnbuildable names fuel' h x = some h' := by
  unfold markUnbuildable at he ⊢
  split at he
  · rename_i hname
    rw [if_pos hname]
    exact he
  · rename_i hname
    rw [if_neg hname]
    simp only [Option.bind_eq_bind, Option.bind_eq_some_iff] at he ⊢
    obtain ⟨r, hr, hrest⟩ := he
    exact ⟨r, checkAncestors_mono hle hr, hrest⟩

theorem matchAncestors_mono (hle : fuel ≤ fuel') {h h' : Heap ι} {x : ι}
    (he : matchAncestors fuel h x = some h') : matchAncestors fuel' h x = some h' := by
  induction fuel generalizing fuel' h x with
  | zero => cases he
  | succ fuel ih =>
    obtain ⟨fuel', rfl⟩ : ∃ n, fuel' = n + 1 := ⟨fuel' - 1, by omega⟩
    rw [matchAncestors] at he ⊢
    split at he
    · exact he
    · split at he
      · rename_i hp hgo
        rw [if_pos hgo]
        exact ih (by omega) he
      · rename_i hp hgo
        rw [if_neg hgo]
        exact he

theorem markMatched_mono {search : String → Bool} (hle : fuel ≤ fuel') {h h' : Heap ι} {x : ι}
    (he : markMatched search fuel h x = some h') : markMatched search fuel' h x = some h' := by
  unfold markMatched at he ⊢
  split at he
  · rename_i hdone
    rw [if_pos hdone]
    exact he
  · rename_i hdone
    rw [if_neg hdone]
    split at he
    · rename_i hname
      rw [if_pos hname]
      exact matchAncestors_mono hle he
    · rename_i hname
      rw [if_neg hname]
      exact he

/-- A call that ended ends in the same way with more fuel. -/
theorem filterImages_mono {conf : FilterConf} {images : List ι} (hle : fuel ≤ fuel')
    {h h' : Heap ι} (he : filterImages conf fuel images h = .ok (some h')) :
    filterImages conf fuel' images h = .ok (some h') := by
  obtain ⟨patterns, h₁, h₂, hpat, hfirst, hsecond, hthird⟩ := filterImages_eq_some.mp he
  refine filterImages_eq_some.mpr ⟨patterns, h₁, h₂, hpat, ?_, ?_, hthird⟩
  · rw [firstPass] at hfirst ⊢
    split at hfirst
    · rename_i hnames
      rw [if_pos hnames]
      exact hfirst
    · rename_i hnames
      rw [if_neg hnames]
      exact foldlM_mono (fun _ _ _ hx => markUnbuildable_mono hle hx) hfirst
  · rw [secondPass] at hsecond ⊢
    split at hsecond
    · rename_i hnone
      rw [if_pos hnone]
      exact hsecond
    · rename_i hnone
      rw [if_neg hnone]
      exact foldlM_mono (fun _ _ _ hx => markMatched_mono hle hx) hsecond

end Fuel

/-! ## The three passes together -/

section Together

variable {h₀ : Heap ι} {images : List ι}

/-- The second pass, with or without a filter, matches the requested images
among those that can be built. -/
theorem secondPass_spec (conf : FilterConf) (patterns : List String) {fuel : ℕ}
    {h₁ : Heap ι} (hl : Linked h₀ images) (hfuel : images.length < fuel)
    (hinv : UnbuildableInv h₀ (unbuildableNames conf) images h₁) :
    ∃ h₂, secondPass conf patterns fuel images h₁ = some h₂ ∧
      ∀ x ∈ images,
        ((h₂ x).status = .unbuildable ↔ Unbuildable (unbuildableNames conf) h₀ x) ∧
        ((h₂ x).status = .matched ↔ ¬ Unbuildable (unbuildableNames conf) h₀ x ∧
          Requested (unbuildableNames conf) (nameFilter conf patterns) h₀ x) ∧
        ((h₂ x).status = .unmatched ↔ ¬ Unbuildable (unbuildableNames conf) h₀ x ∧
          ¬ Requested (unbuildableNames conf) (nameFilter conf patterns) h₀ x) := by
  have hfirst : ∀ x ∈ images,
      ((h₁ x).status = .unbuildable ↔ Unbuildable (unbuildableNames conf) h₀ x) :=
    fun x hx => ⟨fun hu => hinv.sound hu, hinv.seen x hx⟩
  rw [secondPass, nameFilter]
  split
  · refine ⟨images.foldl markAll h₁, rfl, fun x hx => ?_⟩
    have hstatus : images.foldl markAll h₁ x = allStatus (h₁ x) := by
      have hfun : (markAll : Heap ι → ι → Heap ι)
          = fun h x => Function.update h x (allStatus (h x)) :=
        funext fun h => funext fun x => markAll_eq_update h x
      rw [hfun, foldl_update_pointwise allStatus allStatus_idem, if_pos hx]
    rw [hstatus, allStatus, ← hfirst x hx]
    by_cases hu : (h₁ x).status = .unbuildable
    · simp [hu]
    · simp [hu, Requested]
  · have hstart : MatchInv h₀ h₁ (unbuildableNames conf) (conf.search patterns) [] h₁ := by
      have hno : ∀ x, (h₁ x).status ≠ .matched := by
        intro x hm
        rcases hinv.kinds x with hs | ⟨hs, _⟩ <;> rw [hm] at hs <;> cases hs
      refine ⟨hinv.statusOnly, fun x => ?_, fun x => Iff.rfl, fun x p _ hm => absurd hm (hno x),
        fun x hm => absurd hm (hno x), fun x hx => absurd hx (List.not_mem_nil),
        fun x hx => absurd hx (List.not_mem_nil)⟩
      rcases hinv.kinds x with hs | ⟨hs, _⟩ <;> rw [hs] <;> decide
    have hstep : ∀ pre x suf h, images = pre ++ x :: suf →
        MatchInv h₀ h₁ (unbuildableNames conf) (conf.search patterns) pre h →
        ∃ h', markMatched (conf.search patterns) fuel h x = some h' ∧
          MatchInv h₀ h₁ (unbuildableNames conf) (conf.search patterns) (pre ++ [x]) h' := by
      intro pre x suf h hxs hinv'
      have hx : x ∈ images := by simp [hxs]
      exact markMatched_inv hl.parent_mem hfuel (fun y hy => hinv.sound hy) (hfirst x hx).mpr hinv'
    obtain ⟨h₂, he, hinv₂⟩ := foldlM_total hstart hstep
    refine ⟨h₂, he, fun x hx => ?_⟩
    have hun : (h₂ x).status = .unbuildable ↔ Unbuildable (unbuildableNames conf) h₀ x :=
      (hinv₂.unbuildable x).trans (hfirst x hx)
    have hmatch : (h₂ x).status = .matched ↔ ¬ Unbuildable (unbuildableNames conf) h₀ x ∧
        Requested (unbuildableNames conf) (some (conf.search patterns)) h₀ x := by
      refine ⟨hinv₂.sound x, ?_⟩
      rintro ⟨hxu, hname | ⟨d, hd, hdu, hdname⟩⟩
      · exact hinv₂.complete x hx hxu hname
      · -- the descendant has a parent, so it is in the list and was matched itself
        obtain ⟨p, hp, _⟩ := ancestor_iff.mp hd
        exact hd.upward hinv₂.upward
          (hinv₂.complete d (hl.child_mem d p hp) hdu hdname)
    refine ⟨hun, hmatch, ?_⟩
    have hkinds := hinv₂.kinds x
    simp only [List.mem_cons, List.not_mem_nil, or_false] at hkinds
    rcases hkinds with hs | hs | hs | hs
    · exact absurd hs (hinv₂.seen x hx)
    · rw [← hun, hs]
      simp
    · have hreq := hmatch.mp hs
      rw [hs]
      simp [hreq.1, hreq.2]
    · have hnu : ¬ Unbuildable (unbuildableNames conf) h₀ x := by
        rw [← hun, hs]
        decide
      have hnr : ¬ Requested (unbuildableNames conf) (some (conf.search patterns)) h₀ x := by
        intro hr
        have := hmatch.mpr ⟨hnu, hr⟩
        rw [hs] at this
        cases this
      rw [hs]
      simp [hnu, hnr]

theorem thirdPass_apply (conf : FilterConf) (images : List ι) (h : Heap ι) {x : ι}
    (hx : x ∈ images) : thirdPass conf images h x = skipStatus conf (h x) := by
  have hfun : markSkipped conf = fun (h : Heap ι) x => Function.update h x (skipStatus conf (h x)) :=
    funext fun h => funext fun x => markSkipped_eq_update conf h x
  rw [thirdPass, hfun, foldl_update_pointwise (skipStatus conf) (skipStatus_idem conf), if_pos hx]

omit [DecidableEq ι] in
/-- The third pass turns the matched images under the skip rule into
skipped ones and leaves the others as they are. -/
theorem skipStatus_status (conf : FilterConf) {h h₀ : Heap ι} (hs : StatusOnly h₀ h) (x : ι) :
    (SkipRule conf h₀ x → (h x).status = .matched →
      (skipStatus conf (h x)).status = .skipped) ∧
    (¬ (SkipRule conf h₀ x ∧ (h x).status = .matched) →
      (skipStatus conf (h x)).status = (h x).status) := by
  have hcan := hs.canonicalName x
  have hch := hs.children x
  unfold skipStatus SkipRule
  rw [← hcan, ← hch]
  split_ifs with h1 h2 h3
  · exact ⟨fun _ hm => absurd hm h1, fun _ => rfl⟩
  · simp only [Bool.and_eq_true] at h2
    refine ⟨fun _ _ => rfl, fun hno => absurd ⟨Or.inl h2, not_not.mp h1⟩ hno⟩
  · simp only [Bool.and_eq_true, Bool.not_eq_true', List.isEmpty_eq_false_iff] at h3
    refine ⟨fun _ _ => rfl, fun hno => absurd ⟨Or.inr h3, not_not.mp h1⟩ hno⟩
  · simp only [Bool.and_eq_true] at h2
    simp only [Bool.and_eq_true, Bool.not_eq_true', List.isEmpty_eq_false_iff] at h3
    exact ⟨fun hr _ => absurd hr (not_or.mpr ⟨h2, h3⟩), fun _ => rfl⟩

/-- If the first pass ends, `filter_images` ends with the selected statuses. -/
theorem filterImages_selected {conf : FilterConf} {patterns : List String}
    (hl : Linked h₀ images) (hexit : PassEnds (unbuildableNames conf) h₀)
    (hun : ∀ x, (h₀ x).status = .unprocessed) (hpat : filterPatterns conf = .ok patterns)
    {fuel : ℕ} (hfuel : images.length < fuel) :
    ∃ h', filterImages conf fuel images h₀ = .ok (some h') ∧
      Selected conf patterns images h₀ h' := by
  obtain ⟨h₁, hfirst, hinv₁⟩ := firstPass_spec hexit hl.parent_mem hfuel hun
  obtain ⟨h₂, hsecond, hspec⟩ := secondPass_spec conf patterns hl hfuel hinv₁
  have hframe₂ := secondPass_frame hl (firstPass_frame hl hfirst) hsecond
  refine ⟨thirdPass conf images h₂,
    filterImages_eq_some.mpr ⟨patterns, h₁, h₂, hpat, hfirst, hsecond, rfl⟩,
    (thirdPass_frame hframe₂).statusOnly, ?_, ?_, ?_, ?_⟩
  all_goals
    intro x hx
    obtain ⟨hu, hm, hn⟩ := hspec x hx
    obtain ⟨hskip, hkeep⟩ := skipStatus_status conf hframe₂.statusOnly x
    rw [thirdPass_apply conf images h₂ hx]
    by_cases hrule : SkipRule conf h₀ x ∧ (h₂ x).status = .matched
    · have hreq := hm.mp hrule.2
      rw [hskip hrule.1 hrule.2]
      simp [hreq.1, hreq.2, hrule.1]
    · rw [hkeep hrule]
      by_cases hrule' : SkipRule conf h₀ x
      · have hnm : (h₂ x).status ≠ .matched := fun h => hrule ⟨hrule', h⟩
        grind
      · grind

end Together

/-! ## The outcome does not depend on the order -/

section Order

variable {h₀ h' h'' : Heap ι} {images images' : List ι} {conf : FilterConf}
  {patterns : List String}

omit [DecidableEq ι] in
/-- The selected statuses are determined by the links and the names. -/
theorem Selected.status_eq (hs : Selected conf patterns images h₀ h')
    (hs' : Selected conf patterns images' h₀ h'') {x : ι} (hx : x ∈ images)
    (hx' : x ∈ images') : (h' x).status = (h'' x).status := by
  by_cases hu : Unbuildable (unbuildableNames conf) h₀ x
  · rw [(hs.unbuildable x hx).mpr hu, (hs'.unbuildable x hx').mpr hu]
  · by_cases hr : Requested (unbuildableNames conf) (nameFilter conf patterns) h₀ x
    · by_cases hk : SkipRule conf h₀ x
      · rw [(hs.skipped x hx).mpr ⟨hu, hr, hk⟩, (hs'.skipped x hx').mpr ⟨hu, hr, hk⟩]
      · rw [(hs.matched x hx).mpr ⟨hu, hr, hk⟩, (hs'.matched x hx').mpr ⟨hu, hr, hk⟩]
    · rw [(hs.unmatched x hx).mpr ⟨hu, hr⟩, (hs'.unmatched x hx').mpr ⟨hu, hr⟩]

omit [DecidableEq ι] in
theorem Linked.perm (hl : Linked h₀ images) (hp : images'.Perm images) : Linked h₀ images' where
  child_iff := hl.child_iff
  children_nodup := hl.children_nodup
  child_mem x p hx := hp.mem_iff.mpr (hl.child_mem x p hx)
  parent_mem x p hx := hp.mem_iff.mpr (hl.parent_mem x p hx)

/-- Whatever the order of the list, `filter_images` leaves the same heap. -/
theorem filterImages_perm (hl : Linked h₀ images) (hac : Acyclic h₀.parents)
    (hun : ∀ x, (h₀ x).status = .unprocessed) (hpat : filterPatterns conf = .ok patterns)
    {fuel : ℕ} (hfuel : images.length < fuel) (hp : images'.Perm images) :
    filterImages conf fuel images' h₀ = filterImages conf fuel images h₀ := by
  obtain ⟨h', he', hs'⟩ := filterImages_selected hl (PassEnds.of_acyclic hac) hun hpat hfuel
  obtain ⟨h'', he'', hs''⟩ := filterImages_selected (hl.perm hp) (PassEnds.of_acyclic hac) hun hpat
    (hp.length_eq.trans_lt hfuel)
  have hsame : h'' = h' := by
    refine hs''.statusOnly.eq_of_status hs'.statusOnly fun x => ?_
    by_cases hx : x ∈ images
    · exact hs''.status_eq hs' (hp.mem_iff.mpr hx) hx
    · rw [(filterImages_frame hl he').outside x hx,
        (filterImages_frame (hl.perm hp) he'').outside x (fun h => hx (hp.mem_iff.mp h))]
  rw [he', he'', hsame]

end Order

/-- `filter_images` after `find_parents`, for links without a cycle: with
enough fuel it ends, every status means what `Selected` says, and the same
images in another order end with the same statuses. -/
theorem filterImages_outcome (images : ImageList ι) {h₀ : Heap ι} (hfresh : Fresh h₀)
    (hac : Acyclic (findParents h₀ images.refs).parents) {conf : FilterConf}
    {patterns : List String} (hpat : filterPatterns conf = .ok patterns) {fuel : ℕ}
    (hfuel : images.refs.length < fuel) :
    ∃ h', filterImages conf fuel images.refs (findParents h₀ images.refs) = .ok (some h') ∧
      Selected conf patterns images.refs (findParents h₀ images.refs) h' ∧
      ∀ order : List ι, order.Perm images.refs →
        filterImages conf fuel order (findParents h₀ images.refs) = .ok (some h') := by
  have hl := findParents_linked hfresh images.refs
  have hun : ∀ x, (findParents h₀ images.refs x).status = .unprocessed := by
    intro x
    rw [findParents_status]
    exact hfresh.status x
  obtain ⟨h', he, hs⟩ := filterImages_selected hl (PassEnds.of_acyclic hac) hun hpat hfuel
  exact ⟨h', he, hs, fun order hp => (filterImages_perm hl hac hun hpat hfuel hp).trans he⟩

/-! ## No image is left unprocessed -/

section Processed

variable {h h' : Heap ι} {images : List ι} {conf : FilterConf} {fuel : ℕ}

/-- The statuses that the second pass gives. -/
def secondStatuses : List Status := [.matched, .unmatched, .unbuildable]

theorem matchAncestors_status {x : ι} (he : matchAncestors fuel h x = some h') (y : ι) :
    (h' y).status = (h y).status ∨ (h' y).status = .matched := by
  induction fuel generalizing h x with
  | zero => cases he
  | succ fuel ih =>
    rw [matchAncestors] at he
    split at he
    · cases he
      exact Or.inl rfl
    · rename_i p hp
      split at he
      · rcases ih he with hy | hy
        · rw [setStatus_status] at hy
          split at hy
          · exact Or.inr hy
          · exact Or.inl hy
        · exact Or.inr hy
      · cases he
        exact Or.inl rfl

theorem markMatched_processed {search : String → Bool} {x : ι}
    (he : markMatched search fuel h x = some h') :
    (h' x).status ∈ secondStatuses ∧
      ∀ y, (h y).status ∈ secondStatuses → (h' y).status ∈ secondStatuses := by
  rw [markMatched] at he
  split at he
  · rename_i hst
    cases he
    refine ⟨?_, fun _ hy => hy⟩
    rcases List.mem_cons.mp hst with hst | hst
    · simp [secondStatuses, hst]
    · simp [secondStatuses, List.mem_singleton.mp hst]
  · split at he
    · have hafter := matchAncestors_status he
      constructor
      · rcases hafter x with hx | hx
        · rw [hx, setStatus_status, if_pos rfl]
          decide
        · rw [hx]
          decide
      · intro y hy
        rcases hafter y with hy' | hy'
        · rw [hy', setStatus_status]
          split
          · decide
          · exact hy
        · rw [hy']
          decide
    · cases he
      refine ⟨by rw [setStatus_status, if_pos rfl]; decide, fun y hy => ?_⟩
      rw [setStatus_status]
      split
      · decide
      · exact hy

theorem foldlM_markMatched_processed {search : String → Bool} {xs : List ι}
    (he : xs.foldlM (markMatched search fuel) h = some h') :
    (∀ y, (h y).status ∈ secondStatuses → (h' y).status ∈ secondStatuses) ∧
      ∀ x ∈ xs, (h' x).status ∈ secondStatuses := by
  induction xs generalizing h with
  | nil =>
    cases he
    exact ⟨fun _ hy => hy, by simp⟩
  | cons x xs ih =>
    obtain ⟨u, hu, hrest⟩ := Option.bind_eq_some_iff.mp he
    obtain ⟨hx, hkeep⟩ := markMatched_processed hu
    obtain ⟨hkeep', hxs⟩ := ih hrest
    refine ⟨fun y hy => hkeep' y (hkeep y hy), fun y hy => ?_⟩
    rcases List.mem_cons.mp hy with rfl | hy
    · exact hkeep' y hx
    · exact hxs y hy

theorem secondPass_processed {patterns : List String}
    (he : secondPass conf patterns fuel images h = some h') {x : ι} (hx : x ∈ images) :
    (h' x).status ∈ secondStatuses := by
  rw [secondPass] at he
  split at he
  · have hfun : markAll = fun (h : Heap ι) x => Function.update h x (allStatus (h x)) :=
      funext fun h => funext fun x => markAll_eq_update h x
    cases he
    rw [hfun, foldl_update_pointwise allStatus allStatus_idem, if_pos hx, allStatus]
    split
    · exact List.mem_cons_self
    · rename_i hst
      rw [not_not.mp hst]
      decide
  · exact (foldlM_markMatched_processed he).2 x hx

/-- After `filter_images` an image of the list is matched or has one of the
statuses that `build_queue` passes over, whatever the links are. -/
theorem filterImages_processed (he : filterImages conf fuel images h = .ok (some h')) {x : ι}
    (hx : x ∈ images) :
    (h' x).status = .matched ∨ (h' x).status ∈ [Status.unmatched, .skipped, .unbuildable] := by
  obtain ⟨patterns, h₁, h₂, -, -, hsecond, rfl⟩ := filterImages_eq_some.mp he
  have hst := secondPass_processed hsecond hx
  rw [thirdPass_apply conf images h₂ hx, skipStatus]
  split_ifs
  · rcases List.mem_cons.mp hst with hst | hst
    · exact Or.inl hst
    · refine Or.inr ?_
      rcases List.mem_cons.mp hst with hst | hst
      · simp [hst]
      · simp [List.mem_singleton.mp hst]
  · exact Or.inr (by simp)
  · exact Or.inr (by simp)
  · rename_i hm _ _
    exact Or.inl (not_not.mp hm)

end Processed

/-! ## What `build_queue` starts from -/

section Prepared

variable {ι : Type} [DecidableEq ι] {images : ImageList ι} {image : Heap ι}

/-- The images as `find_parents` and `filter_images` leave them, for some
options. -/
def Prepared (images : ImageList ι) (image : Heap ι) : Prop :=
  ∃ h₀ conf fuel, Fresh h₀ ∧
    filterImages conf fuel images.refs (findParents h₀ images.refs) = .ok (some image)

omit [DecidableEq ι] in
theorem Linked.of_statusOnly {h h' : Heap ι} {images : List ι} (hl : Linked h images)
    (hs : StatusOnly h h') : Linked h' images where
  child_iff x p := by
    rw [hs.children, hs.parent]
    exact hl.child_iff x p
  children_nodup p := by
    rw [hs.children]
    exact hl.children_nodup p
  child_mem x p hx := hl.child_mem x p (by rwa [hs.parent] at hx)
  parent_mem x p hx := hl.parent_mem x p (by rwa [hs.parent] at hx)

theorem Prepared.linked (h : Prepared images image) :
    Linked image images.refs := by
  obtain ⟨h₀, conf, fuel, hfresh, he⟩ := h
  have hl := findParents_linked hfresh images.refs
  exact hl.of_statusOnly (filterImages_frame hl he).statusOnly

/-- For links without a cycle, the statuses are the selected ones. -/
theorem Prepared.selected (hprep : Prepared images image) (hac : Acyclic image.parents) :
    ∃ conf patterns h, h.parents = image.parents ∧
      Selected conf patterns images.refs h image := by
  obtain ⟨h₀, conf, fuel, hfresh, he⟩ := hprep
  have hl := findParents_linked hfresh images.refs
  have hparents := (filterImages_frame hl he).statusOnly.parents
  have hun : ∀ x, (findParents h₀ images.refs x).status = .unprocessed := by
    intro x
    rw [findParents_status]
    exact hfresh.status x
  obtain ⟨patterns, _, _, hpat, -⟩ := filterImages_eq_some.mp he
  obtain ⟨h', he', hs⟩ := filterImages_selected hl (PassEnds.of_acyclic (hparents ▸ hac)) hun hpat
    (Nat.lt_succ_of_le (Nat.le_max_left images.refs.length fuel))
  have hmono := filterImages_mono (Nat.le_succ_of_le (Nat.le_max_right images.refs.length fuel)) he
  rw [hmono] at he'
  cases he'
  exact ⟨conf, patterns, _, hparents.symm, hs⟩

theorem Prepared.processed (hprep : Prepared images image) {x : ι} (hx : x ∈ images.refs) :
    (image x).status = .matched ∨ (image x).status ∈ [Status.unmatched, .skipped, .unbuildable] := by
  obtain ⟨_, _, _, -, he⟩ := hprep
  exact filterImages_processed he hx

/-- The parent of a matched image is matched or skipped. -/
theorem Prepared.parent_matched (hprep : Prepared images image) (hac : Acyclic image.parents)
    {x p : ι} (hp : (image x).parent = some p) (hx : (image x).status = .matched) :
    (image p).status = .matched ∨ (image p).status = .skipped := by
  have hl := hprep.linked
  obtain ⟨conf, patterns, h, hparents, hs⟩ := hprep.selected hac
  have hanc : Ancestor h.parents x p := Ancestor.single (by rw [hparents]; exact hp)
  obtain ⟨hnu, hreq, -⟩ := (hs.matched x (hl.child_mem x p hp)).mp hx
  have hpnu : ¬ Unbuildable (unbuildableNames conf) h p :=
    fun hu => hnu (hu.of_ancestor hanc)
  have hpreq : Requested (unbuildableNames conf) (nameFilter conf patterns) h p := by
    unfold Requested at hreq ⊢
    cases hfilter : nameFilter conf patterns with
    | none => trivial
    | some search =>
      rw [hfilter] at hreq
      rcases hreq with hname | ⟨d, hd, hdnu, hname⟩
      · exact Or.inr ⟨x, hanc, hnu, hname⟩
      · exact Or.inr ⟨d, hd.trans hanc, hdnu, hname⟩
  have hmem := hl.parent_mem x p hp
  by_cases hrule : SkipRule conf h p
  · exact Or.inr ((hs.skipped p hmem).mpr ⟨hpnu, hpreq, hrule⟩)
  · exact Or.inl ((hs.matched p hmem).mpr ⟨hpnu, hpreq, hrule⟩)

end Prepared

/-! ## A small run

`base` with the children `nova` and `cinder`; the filter asks for
`nova`. -/

/-- An image as `build_image_list` creates it. -/
def freshImage (name canonicalName parentName : String) : Image ι where
  name := name
  canonicalName := canonicalName
  parentName := parentName
  status := .unprocessed
  parent := none
  children := []
  source := none
  plugins := []
  additions := []

/-- The three images, by their position. -/
def sampleHeap : Heap (Fin 3)
  | 0 => freshImage "base" "ns/base:1" "centos:9"
  | 1 => freshImage "nova" "ns/nova:1" "ns/base:1"
  | 2 => freshImage "cinder" "ns/cinder:1" "ns/base:1"

/-- The list of the three images. -/
def sampleImages : ImageList (Fin 3) := ⟨[2, 0, 1], by decide⟩

/-- A filter for `nova`. -/
def sampleConf : FilterConf where
  regex := ["nova"]
  profile := []
  profiles := fun _ => []
  base := "rocky"
  baseArch := "x86_64"
  enableUnbuildable := false
  unbuildableImages := [("debian", ["cinder"])]
  search := fun patterns name => decide (name ∈ patterns)
  skipExisting := false
  skipParents := true
  inEngineCache := fun _ => false

theorem sampleHeap_fresh : Fresh sampleHeap := by
  constructor <;> decide

theorem sampleHeap_acyclic : Acyclic (findParents sampleHeap sampleImages.refs).parents :=
  acyclic_of_rank (fun x => if x = 0 then 0 else 1) (by decide)

theorem filterImages_outcome_sample :
    ∃ h', filterImages sampleConf 4 sampleImages.refs
        (findParents sampleHeap sampleImages.refs) = .ok (some h') ∧
      Selected sampleConf ["nova"] sampleImages.refs
        (findParents sampleHeap sampleImages.refs) h' ∧
      ∀ order : List (Fin 3), order.Perm sampleImages.refs →
        filterImages sampleConf 4 order (findParents sampleHeap sampleImages.refs)
          = .ok (some h') :=
  filterImages_outcome sampleImages sampleHeap_fresh sampleHeap_acyclic rfl (by decide)

/-- The sample images after `filter_images`. -/
def sampleImage : Heap (Fin 3) :=
  match filterImages sampleConf 4 sampleImages.refs
    (findParents sampleHeap sampleImages.refs) with
  | .ok (some h) => h
  | _ => sampleHeap

theorem sampleImage_prepared : Prepared sampleImages sampleImage :=
  ⟨sampleHeap, sampleConf, 4, sampleHeap_fresh, rfl⟩

theorem sampleImage_acyclic : Acyclic sampleImage.parents :=
  acyclic_of_rank (fun x => if x = 0 then 0 else 1) (by decide)

end Kolla.Build
