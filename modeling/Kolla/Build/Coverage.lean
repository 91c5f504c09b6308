import Kolla.Build.WaitingLoop

/-!
# No image is lost

An image that `filter_images` left `MATCHED` hangs below matched images,
up to a root or a skipped image (`Prepared.parent_matched`).  So there are
two ways to a `BuildTask` for it, and both are taken.  `build_queue`
creates those of the roots, and the followups of a built image create
those of its children (`Covered`).

Once the queues are drained every task that was issued is done, and a
task that is done has either succeeded or used up its attempts (`Tally`).
The induction of `matched_covered` goes down the forest: an image without
a `BuildTask` has a parent that was not built, and this parent has used up
its attempts or has no `BuildTask` either.
-/

namespace Kolla.Build

open Kolla.Lib

variable {ι : Type} [DecidableEq ι]

/-! ## Both ways to a task are taken -/

section Covered

variable {conf : Conf} {image : Heap ι} {images : List ι} {s s' : Sys ι}

/-- The roots and the wanted children of built images have their tasks, and
built images are handed to the push queue. -/
structure Covered (conf : Conf) (image : Heap ι) (images : List ι) (s : Sys ι) : Prop where
  root : ∀ x ∈ images, isRoot image x = true → .build x ∈ issued s.log
  child : ∀ x y, .ended (.build x) true ∈ s.log → y ∈ (image x).children →
    (image y).status ∉ unwanted → .build y ∈ issued s.log
  push : ∀ x, .ended (.build x) true ∈ s.log → conf.push = true → .pushInto x ∈ issued s.log

/-- Where an `ended` event comes from. -/
theorem WorkerMove.ended_cases {i : ℕ} (h : WorkerMove conf image s i s') {t : Task ι} {b : Bool}
    (hmem : .ended t b ∈ s'.log) :
    .ended t b ∈ s.log ∨ s.worker i = .ended t b ∧
      s'.log = .ended t b :: (if b then followups conf image s.status t else []).map .issued
        ++ s.log := by
  cases h with
  | take | takeTombstone | putTombstone | put => exact Or.inl (by simpa using hmem)
  | exhaust | allPut => exact Or.inl hmem
  | begin | finish => exact Or.inl (by simpa using hmem)
  | @follow u hpc =>
    rw [goto_log, emit_log, List.mem_append, List.mem_cons] at hmem
    rcases hmem with (heq | hmem) | hmem
    · cases heq
      exact Or.inr ⟨hpc, rfl⟩
    · simp at hmem
    · exact Or.inl hmem
  | @giveUp u hpc =>
    rw [goto_log, emit_log, List.mem_append, List.mem_singleton] at hmem
    rcases hmem with heq | hmem
    · cases heq
      exact Or.inr ⟨hpc, rfl⟩
    · exact Or.inl hmem
  | @run u k pc e hpc he =>
    refine Or.inl ?_
    have hnone : .ended t b ∉ e.events := by
      cases he with
      | work outcome =>
        obtain ⟨st, called, next, heq, -⟩ := workEffect_eq conf image s.status
          _ k outcome
        rw [heq]
        cases called <;> simp
      | _ => simp
    exact (List.mem_append.mp hmem).resolve_left hnone

/-- `Covered` survives a step. -/
theorem Covered.preserved (h : Covered conf image images s) (hacc : Account conf image s)
    {a : Action} (hstep : step conf image s a = some s') : Covered conf image images s' := by
  obtain ⟨events, hlog⟩ := step_log hstep
  have hkept : ∀ t, t ∈ issued s.log → t ∈ issued s'.log := fun t ht => by
    rw [hlog, issued_append]
    exact List.mem_append_right _ ht
  -- where the task of `x` has just ended, its followups are issued
  have hfollow : ∀ x t, .ended (.build x) true ∈ s'.log →
      (.ended (.build x) true ∈ s.log → t ∈ issued s.log) →
      t ∈ followups conf image s.status (.build x) → t ∈ issued s'.log := by
    intro x t hend hold ht
    rcases step_cases hstep with ⟨i, hi, hmove⟩ | hmove
    · rcases hmove.ended_cases hend with hbefore | ⟨hpc, hnew⟩
      · exact hkept _ (hold hbefore)
      · rw [hnew, issued_append]
        refine List.mem_append_left _ ?_
        rw [issued_cons, if_pos rfl, issued_map]
        exact List.mem_append_right _ ht
    · exact hkept _ (hold (hmove.frame.2.2.1 ▸ hend))
  refine ⟨fun x hx hroot => hkept _ (h.root x hx hroot), fun x y hend hy hwanted => ?_,
    fun x hend hpush => ?_⟩
  · by_cases hissued : .build y ∈ issued s.log
    · exact hkept _ hissued
    · refine hfollow x _ hend (fun hold => h.child x y hold hy hwanted) ?_
      refine mem_followups.mpr (Or.inr ⟨y, hy, ?_, rfl⟩)
      rw [hacc.frame y hissued]
      exact hwanted
  · exact hfollow x _ hend (fun hold => h.push x hold hpush)
      (mem_followups.mpr (Or.inl ⟨hpush, rfl⟩))

theorem covered (hl : Linked image images) (hnodup : images.Nodup)
    (hr : Reachable (step conf image) (initial image images) s) :
    Covered conf image images s := by
  have hnone : ∀ x, .ended (.build x) true ∉ (initial image images).log := by
    intro x
    simp [initial]
  refine hr.invariant (P := Covered conf image images) ⟨?_, ?_, ?_⟩ ?_
  · intro x hx hroot
    change .build x ∈ issued ((initialTasks image images).map .issued)
    rw [issued_map]
    exact mem_initialTasks.mpr ⟨x, hx, hroot, rfl⟩
  · exact fun x y hend => absurd hend (hnone x)
  · exact fun x hend => absurd hend (hnone x)
  · intro u a v hu hcov hstep
    exact hcov.preserved (account hl hnodup hu) hstep

end Covered

/-! ## A task that is done has succeeded or used up its attempts -/

section Tallies

variable {conf : Conf} {image : Heap ι} {images : List ι} {s s' : Sys ι} {i : ℕ}

/-- All attempts of a task have begun. -/
def AllAttempted (conf : Conf) (log : List (Event ι)) (t : Task ι) : Prop :=
  ∀ k ≤ conf.retries, .attempt t k ∈ log

/-- What the log says about the task of a worker. -/
def WorkerPc.Tally (conf : Conf) (log : List (Event ι)) : WorkerPc ι → Prop
  | .attempt t k => k ≤ conf.retries + 1 ∧ ∀ j < k, .attempt t j ∈ log
  | .running t k _ => k ≤ conf.retries ∧ ∀ j ≤ k, .attempt t j ∈ log
  | .ended t success => success = false → AllAttempted conf log t
  | .putting t _ => ∃ success, .ended t success ∈ log
  | .finishing t => ∃ success, .ended t success ∈ log
  | _ => True

/-- What the log says about the tasks of the workers, and about the tasks
that ended. -/
structure Tally (conf : Conf) (s : Sys ι) : Prop where
  worker : ∀ i, (s.worker i).Tally conf s.log
  ended : ∀ t, .ended t false ∈ s.log → AllAttempted conf s.log t
  retired : ∀ t, .retired t ∈ s.log → ∃ success, .ended t success ∈ s.log

omit [DecidableEq ι] in
theorem WorkerPc.Tally.mono {pc : WorkerPc ι} {log : List (Event ι)} (h : pc.Tally conf log)
    (events : List (Event ι)) : pc.Tally conf (events ++ log) := by
  have hkept : ∀ {e : Event ι}, e ∈ log → e ∈ events ++ log := List.mem_append_right _
  cases pc with
  | idle | tombstone | dead => trivial
  | attempt t k => exact ⟨h.1, fun j hj => hkept (h.2 j hj)⟩
  | running t k pc => exact ⟨h.1, fun j hj => hkept (h.2 j hj)⟩
  | ended t success => exact fun hs k hk => hkept (h hs k hk)
  | putting t rest => exact h.imp fun _ he => hkept he
  | finishing t => exact h.imp fun _ he => hkept he

/-- A step of a worker keeps the tally of its own task. -/
theorem WorkerMove.tally (h : WorkerMove conf image s i s') (hi : (s.worker i).Tally conf s.log) :
    (s'.worker i).Tally conf s'.log := by
  cases h with
  | take | takeTombstone | putTombstone => simp [WorkerPc.Tally]
  | finish => simp [WorkerPc.Tally]
  | @begin t k hpc hk =>
    rw [hpc] at hi
    rw [goto_worker, Function.update_self]
    refine ⟨Nat.le_of_lt_succ hk, fun j hj => ?_⟩
    rcases Nat.lt_or_eq_of_le hj with hlt | rfl
    · exact List.mem_cons_of_mem _ (hi.2 j hlt)
    · exact List.mem_cons_self
  | @exhaust t k hpc hk =>
    rw [hpc] at hi
    rw [goto_worker, Function.update_self]
    exact fun _ j hj => hi.2 j (by omega)
  | @run t k pc e hpc he =>
    rw [hpc] at hi
    change WorkerPc.Tally conf (e.events ++ s.log)
      (Function.update s.worker i (e.next.workerPc t k) i)
    rw [Function.update_self]
    cases e.next with
    | goOn pc' =>
      have hpc' : (WorkerPc.running t k pc').Tally conf s.log := hi
      exact hpc'.mono _
    | failed =>
      exact ⟨by have := hi.1; omega,
        fun j hj => List.mem_append_right _ (hi.2 j (Nat.le_of_lt_succ hj))⟩
    | succeeded => exact fun h => by cases h
  | @follow t hpc =>
    rw [goto_worker, Function.update_self]
    exact ⟨true, List.mem_cons_self⟩
  | @giveUp t hpc =>
    rw [goto_worker, Function.update_self]
    exact ⟨false, List.mem_cons_self⟩
  | @put t next rest hpc =>
    rw [hpc] at hi
    rw [goto_worker, Function.update_self, goto_log, setQueue_log]
    exact hi
  | @allPut t hpc =>
    rw [hpc] at hi
    rw [goto_worker, Function.update_self]
    exact hi

/-- Where a `retired` event comes from. -/
theorem WorkerMove.retired_cases (h : WorkerMove conf image s i s') {t : Task ι}
    (hmem : .retired t ∈ s'.log) : .retired t ∈ s.log ∨ s.worker i = .finishing t := by
  cases h with
  | take | takeTombstone | putTombstone | put => exact Or.inl (by simpa using hmem)
  | exhaust | allPut => exact Or.inl hmem
  | begin | follow | giveUp => exact Or.inl (by simpa using hmem)
  | @finish u hpc =>
    rw [goto_log, emit_log, setQueue_log, List.mem_append, List.mem_singleton] at hmem
    rcases hmem with heq | hmem
    · cases heq
      exact Or.inr hpc
    · exact Or.inl hmem
  | @run u k pc e hpc he =>
    refine Or.inl ?_
    have hnone : .retired t ∉ e.events := by
      cases he with
      | work outcome =>
        obtain ⟨st, called, next, heq, -⟩ := workEffect_eq conf image s.status
          _ k outcome
        rw [heq]
        cases called <;> simp
      | _ => simp
    exact (List.mem_append.mp hmem).resolve_left hnone

/-- `Tally` holds in every reachable state. -/
theorem tally (hr : Reachable (step conf image) (initial image images) s) : Tally conf s := by
  refine hr.invariant (P := Tally conf) ⟨fun i => trivial, ?_, ?_⟩ ?_
  · intro t hmem
    have : .ended t false ∈ (initialTasks image images).map Event.issued := hmem
    simp at this
  · intro t hmem
    have : .retired t ∈ (initialTasks image images).map Event.issued := hmem
    simp at this
  · intro u a v hu htally hstep
    obtain ⟨events, hlog⟩ := step_log hstep
    have hkept : ∀ {e : Event ι}, e ∈ u.log → e ∈ v.log := fun he => by
      rw [hlog]
      exact List.mem_append_right _ he
    rcases step_cases hstep with ⟨i, hi, hmove⟩ | hmove
    · refine ⟨fun j => ?_, fun t hmem => ?_, fun t hmem => ?_⟩
      · by_cases hj : j = i
        · rw [hj]
          exact hmove.tally (htally.worker i)
        · rw [hmove.worker_frame hj, hlog]
          exact (htally.worker j).mono events
      · rcases hmove.ended_cases hmem with hold | ⟨hpc, -⟩
        · exact fun k hk => hkept (htally.ended t hold k hk)
        · have hworker := htally.worker i
          rw [hpc] at hworker
          exact fun k hk => hkept (hworker rfl k hk)
      · rcases hmove.retired_cases hmem with hold | hpc
        · obtain ⟨success, hend⟩ := htally.retired t hold
          exact ⟨success, hkept hend⟩
        · have hworker := htally.worker i
          rw [hpc] at hworker
          obtain ⟨success, hend⟩ := hworker
          exact ⟨success, hkept hend⟩
    · obtain ⟨-, hworker, hlog', -⟩ := hmove.frame
      exact ⟨by rw [hworker, hlog']; exact htally.worker, by rw [hlog']; exact htally.ended,
        by rw [hlog']; exact htally.retired⟩

end Tallies

/-! ## The result -/

section Result

variable {conf : Conf} {image : Heap ι} {images : List ι} {s : Sys ι}

/-- `a` is reached from `x` through matched images only. -/
def MatchedAncestor (image : Heap ι) : ι → ι → Prop :=
  Relation.TransGen fun x p => (image x).parent = some p ∧ (image p).status = .matched

/-- The `BuildTask` of the image was run and used up all its attempts
without success. -/
def Exhausted (conf : Conf) (log : List (Event ι)) (x : ι) : Prop :=
  .ended (.build x) false ∈ log ∧ AllAttempted conf log (.build x)

/-- In a drained state a task that was issued was attempted and has
ended. -/
theorem Drained.ended (h : Drained s)
    (hr : Reachable (step conf image) (initial image images) s) {t : Task ι}
    (ht : t ∈ issued s.log) :
    .attempt t 0 ∈ s.log ∧ ∃ success, .ended t success ∈ s.log := by
  obtain ⟨hissued, hstarted⟩ := h.retired hr t
  have hpos := List.count_pos_iff.mpr ht
  refine ⟨mem_started.mp (List.count_pos_iff.mp (by omega)), ?_⟩
  exact (tally hr).retired t (mem_retired.mp (List.count_pos_iff.mp (by omega)))

/-- The image that an event is about. -/
def Event.about : Event ι → ι
  | .issued t => t.image
  | .attempt t _ => t.image
  | .parentCheck x _ _ => x
  | .worked x _ _ => x
  | .engine x => x
  | .pushed x _ _ => x
  | .ended t _ => t.image
  | .retired t => t.image

/-- The events of a step inside `run` are about the image of its task. -/
theorem RunMove.about_of_event {status : ι → Status} {t : Task ι} {k : ℕ} {pc : RunPc}
    {e : RunEffect ι} (h : RunMove conf image status t k pc e) {ev : Event ι}
    (hev : ev ∈ e.events) : ev.about = t.image := by
  cases h with
  | @work x k outcome =>
    obtain ⟨st, called, next, heq, -⟩ := workEffect_eq conf image status x k
      outcome
    rw [heq] at hev
    rcases List.mem_cons.mp hev with rfl | hmem
    · rfl
    · cases called
      · cases hmem
      · rw [List.mem_singleton.mp hmem]
        rfl
  | skip | enter | refuse | start | built | failed | pushDone | pushFailed => cases hev
  | refused | passed | pushInto | push =>
    rw [List.mem_singleton.mp hev]
    rfl

/-- A new event is about the image of the worker's task, or it is a new
task. -/
theorem WorkerMove.about_of_event {s' : Sys ι} {i : ℕ} (h : WorkerMove conf image s i s')
    {ev : Event ι} (hev : ev ∈ s'.log) :
    ev ∈ s.log ∨ (∃ t, (s.worker i).task? = some t ∧ ev.about = t.image) ∨
      ∃ t, ev = .issued t := by
  cases h with
  | take | takeTombstone | putTombstone | put => exact Or.inl (by simpa using hev)
  | exhaust | allPut => exact Or.inl hev
  | @begin t k hpc hk =>
    rcases List.mem_cons.mp hev with rfl | hold
    · exact Or.inr (Or.inl ⟨t, by rw [hpc]; rfl, rfl⟩)
    · exact Or.inl hold
  | @run t k pc e hpc he =>
    rcases List.mem_append.mp hev with hnew | hold
    · exact Or.inr (Or.inl ⟨t, by rw [hpc]; rfl, he.about_of_event hnew⟩)
    · exact Or.inl hold
  | @follow t hpc =>
    rw [goto_log, emit_log, List.cons_append, List.mem_cons, List.mem_append, List.mem_map] at hev
    rcases hev with rfl | ⟨u, -, rfl⟩ | hold
    · exact Or.inr (Or.inl ⟨t, by rw [hpc]; rfl, rfl⟩)
    · exact Or.inr (Or.inr ⟨u, rfl⟩)
    · exact Or.inl hold
  | @giveUp t hpc =>
    rcases List.mem_cons.mp hev with rfl | hold
    · exact Or.inr (Or.inl ⟨t, by rw [hpc]; rfl, rfl⟩)
    · exact Or.inl hold
  | @finish t hpc =>
    rw [goto_log, emit_log, setQueue_log, List.mem_append, List.mem_singleton] at hev
    rcases hev with rfl | hold
    · exact Or.inr (Or.inl ⟨t, by rw [hpc]; rfl, rfl⟩)
    · exact Or.inl hold

/-- Whatever happens, happens to an image with a `BuildTask`. -/
theorem build_issued_of_event (hl : Linked image images) (hnodup : images.Nodup)
    (hr : Reachable (step conf image) (initial image images) s) {ev : Event ι}
    (hev : ev ∈ s.log) : .build ev.about ∈ issued s.log := by
  revert hev
  refine hr.invariant (P := fun s => ev ∈ s.log → .build ev.about ∈ issued s.log) ?_ ?_
  · intro hev
    obtain ⟨t, ht, rfl⟩ := List.mem_map.mp hev
    obtain ⟨x, -, -, rfl⟩ := mem_initialTasks.mp ht
    exact mem_issued.mpr hev
  · intro u a v hu ih hstep hev
    obtain ⟨events, hlog⟩ := step_log hstep
    have hkept : ∀ {t}, t ∈ issued u.log → t ∈ issued v.log := fun ht => by
      rw [hlog, issued_append]
      exact List.mem_append_right _ ht
    rcases step_cases hstep with ⟨i, hi, hmove⟩ | hmove
    · rcases hmove.about_of_event hev with hold | ⟨t, ht, himage⟩ | ⟨t, rfl⟩
      · exact hkept (ih hold)
      · rw [himage]
        exact hkept ((account hl hnodup hu).build_issued hu (issued_of_task hu ht))
      · exact (account hl hnodup (hu.tail hstep)).build_issued (hu.tail hstep)
          (mem_issued.mpr hev)
    · exact hkept (ih (hmove.frame.2.2.1 ▸ hev))

end Result

/-- Once the queues are drained, every matched image had its `BuildTask`
run or hangs, through matched images, below one whose `BuildTask` used up
its attempts. -/
theorem matched_covered {images : ImageList ι} {image : Heap ι} (hprep : Prepared images image)
    (hac : Acyclic image.parents) {conf : Conf} {s : Sys ι}
    (hr : Reachable (step conf image) (initial image images.refs) s) (hdrained : Drained s)
    {x : ι} (hx : x ∈ images.refs) (hmatched : (image x).status = .matched) :
    .attempt (.build x) 0 ∈ s.log ∨ ∃ a, MatchedAncestor image x a ∧ Exhausted conf s.log a := by
  have hl := hprep.linked
  have hcov := covered hl images.distinct hr
  obtain ⟨rank, hrank, -⟩ := hac.exists_rank hl.parent_mem
  have hwanted : ∀ y, (image y).status = .matched → (image y).status ∉ unwanted := by
    intro y hy
    rw [hy]
    decide
  have hrun : ∀ {y}, .build y ∈ issued s.log → .attempt (.build y) 0 ∈ s.log :=
    fun hy => (hdrained.ended hr hy).1
  induction hn : rank x using Nat.strong_induction_on generalizing x with
  | _ n ih =>
    cases hparent : (image x).parent with
    | none =>
      refine Or.inl (hrun (hcov.root x hx ?_))
      simp [isRoot, hparent, hwanted x hmatched]
    | some p =>
      rcases hprep.parent_matched hac hparent hmatched with hp | hp
      · have hstep : (image x).parent = some p ∧ (image p).status = .matched := ⟨hparent, hp⟩
        rcases ih (rank p) (hn ▸ hrank x p hparent) (hl.parent_mem x p hparent) hp rfl with
          hattempt | ⟨a, ha, hex⟩
        · -- the parent was run: it succeeded, or it is the one with no attempts left
          have hissued : .build p ∈ issued s.log := by
            have hcount := hdrained.retired hr (.build p)
            have hpos := List.count_pos_iff.mpr (mem_started.mpr hattempt)
            exact List.count_pos_iff.mp (by omega)
          obtain ⟨-, success, hend⟩ := hdrained.ended hr hissued
          cases success with
          | true =>
            exact Or.inl (hrun (hcov.child p x hend ((hl.child_iff x p).mpr hparent)
              (hwanted x hmatched)))
          | false =>
            exact Or.inr ⟨p, Relation.TransGen.single hstep, hend, (tally hr).ended _ hend⟩
        · exact Or.inr ⟨a, Relation.TransGen.head hstep ha, hex⟩
      · refine Or.inl (hrun (hcov.root x hx ?_))
        simp [isRoot, hparent, hp, hwanted x hmatched]

/-- Every matched image is covered, and no image that is unmatched, skipped
or unbuildable is ever given to the engine, to be built or to be pushed. -/
theorem no_image_lost {images : ImageList ι} {image : Heap ι} (hprep : Prepared images image)
    (hac : Acyclic image.parents) {conf : Conf} {s : Sys ι}
    (hr : Reachable (step conf image) (initial image images.refs) s) :
    (Drained s → ∀ x ∈ images.refs, (image x).status = .matched →
      .attempt (.build x) 0 ∈ s.log ∨
        ∃ a, MatchedAncestor image x a ∧ Exhausted conf s.log a) ∧
      ∀ x, (image x).status ∈ [.unmatched, .skipped, .unbuildable] →
        .engine x ∉ s.log ∧ ∀ k outcome, .pushed x k outcome ∉ s.log := by
  have hl := hprep.linked
  refine ⟨fun hdrained x hx hm => matched_covered hprep hac hr hdrained hx hm, ?_⟩
  intro x hx
  have hnone : ∀ ev ∈ s.log, ev.about ≠ x := by
    rintro ev hev rfl
    exact ((account hl images.distinct hr).build _
      (build_issued_of_event hl images.distinct hr hev)).1 hx
  exact ⟨fun hev => hnone _ hev rfl, fun k outcome hev => hnone _ hev rfl⟩

theorem no_image_lost_sample :
    ∃ s, Reachable (step sampleBuildConf sampleImage) (initial sampleImage sampleImages.refs) s ∧
      s.main = .tombPush ∧
      (Drained s → ∀ x ∈ sampleImages.refs, (sampleImage x).status = .matched →
        .attempt (.build x) 0 ∈ s.log ∨
          ∃ a, MatchedAncestor sampleImage x a ∧ Exhausted sampleBuildConf s.log a) ∧
      ∀ x, (sampleImage x).status ∈ [.unmatched, .skipped, .unbuildable] →
        .engine x ∉ s.log ∧ ∀ k outcome, .pushed x k outcome ∉ s.log := by
  obtain ⟨s, hr, hs⟩ := exists_reachable (step sampleBuildConf sampleImage)
    (s := initial sampleImage sampleImages.refs) sampleActions
    (f := fun s => s.main) (b := .tombPush) (by decide)
  exact ⟨s, hr, hs, no_image_lost sampleImage_prepared sampleImage_acyclic hr⟩

end Kolla.Build
