import Kolla.Build.Determinism

/-!
# Push retries and parent checks

With pushing enabled the status of a built image is written once more, by
its `PushTask`, while the builders of its children read it.  Between a
failed push attempt and the next one the status is an error, and a child
whose parent check falls there fails with `PARENT_ERROR`.  The child
retries on its own schedule, so all its attempts can fall into one such
gap, although a later push attempt succeeds: `push_race` is such a run.

`matched_built_iff` says exactly when this does not happen.  In a drained
run in which every build attempt past the parent check succeeds and every
image is pushed at last, all matched images end `BUILT` if and only if no
`BuildTask` has its last attempt refused.
-/

namespace Kolla.Build

open Kolla.Lib

variable {ι : Type} [DecidableEq ι]

section Runs

variable {images : ImageList ι} {image : Heap ι} {conf : Conf} {s : Sys ι}

/-- A status that no `BuildTask` passes over is `MATCHED`. -/
theorem Prepared.matched_of_wanted (hprep : Prepared images image) (hac : Acyclic image.parents)
    {x : ι} (hx : x ∈ images.refs) (hwanted : (image x).status ∉ unwanted) :
    (image x).status = .matched := by
  obtain ⟨conf, patterns, h, -, hs⟩ := hprep.selected hac
  simp only [unwanted, List.mem_cons, List.not_mem_nil, or_false, not_or] at hwanted
  obtain ⟨hunmatched, hskipped, hunbuildable⟩ := hwanted
  rw [hs.unmatched x hx] at hunmatched
  rw [hs.skipped x hx] at hskipped
  rw [hs.unbuildable x hx] at hunbuildable
  rw [hs.matched x hx]
  tauto

/-- An image with a `BuildTask` is in the list. -/
theorem mem_of_issued (hl : Linked image images.refs)
    (hr : Reachable (step conf image) (initial image images.refs) s) {x : ι}
    (hx : .build x ∈ issued s.log) : x ∈ images.refs := by
  revert hx
  refine hr.invariant (P := fun s => .build x ∈ issued s.log → x ∈ images.refs) ?_ ?_
  · intro hx
    change .build x ∈ issued ((initialTasks image images.refs).map .issued) at hx
    rw [issued_map] at hx
    obtain ⟨y, hy, -, heq⟩ := mem_initialTasks.mp hx
    cases heq
    exact hy
  · intro u a v hu ih hstep hx
    obtain ⟨-, hroot | ⟨p, hp, -⟩⟩ := (account hl images.distinct (hu.tail hstep)).build x hx
    · by_cases hold : .build x ∈ issued u.log
      · exact ih hold
      · obtain ⟨start, close, new, hflow, hb⟩ := step_flow hstep
        have hissued := hb.issued (.build x)
        have hzero := List.count_eq_zero.mpr hold
        have hpos := List.count_pos_iff.mpr hx
        have hnew : .build x ∈ new := List.count_pos_iff.mp (by omega)
        cases hflow with
        | quiet | start | close => cases hnew
        | queue z => simp at hnew
        | follow p _ =>
          rcases mem_followups.mp hnew with ⟨-, heq⟩ | ⟨z, hz, -, heq⟩
          · cases heq
          · cases heq
            exact hl.child_mem x p ((hl.child_iff x p).mp hz)
    · exact hl.child_mem x p hp

/-- When no last attempt is refused and no attempt past the parent check
fails, every `BuildTask` succeeds. -/
theorem built_of_not_refused (hl : Linked image images.refs)
    (hr : Reachable (step conf image) (initial image images.refs) s) (hdrained : Drained s)
    (hbuild : ∀ x k outcome, .worked x k outcome ∈ s.log →
      (attemptResult conf (image x) outcome).2 = true)
    (hchecks : ∀ x parent, .parentCheck x conf.retries parent ∈ s.log →
      parentFailed parent = false) {x : ι} (hx : .build x ∈ issued s.log) :
    .ended (.build x) true ∈ s.log := by
  obtain ⟨-, success, hend⟩ := hdrained.ended hr hx
  cases success with
  | true => exact hend
  | false =>
    have hover : Failed conf (image x) (tries (.build x) s.log) (conf.retries + 1) :=
      (attempts hl images.distinct hr).ended _ _ hend
    obtain ⟨r, hmem⟩ := (hover.mem_iff conf.retries).mpr (Nat.lt_succ_self _)
    have hres := hover.result hmem
    rcases try_of_mem hmem with ⟨y, -, rfl | ⟨outcome, rfl⟩⟩ | ⟨y, outcome, heq, -⟩
    · obtain ⟨parent, hcheck, hfailed⟩ := refused_mem.mp hmem
      rw [hchecks x parent hcheck] at hfailed
      cases hfailed
    · rw [Try.result, hbuild x _ outcome (worked_mem.mp hmem)] at hres
      cases hres
    · cases heq

/-- A built image whose push succeeds at last ends `BUILT`. -/
theorem status_of_pushed (hl : Linked image images.refs) (hpush : conf.push = true)
    (hr : Reachable (step conf image) (initial image images.refs) s) (hdrained : Drained s)
    (hpushed : ∀ x, .attempt (.push x) 0 ∈ s.log →
      ∃ k outcome, .pushed x k outcome ∈ s.log ∧ pushStatus outcome = .built) {x : ι}
    (hend : .ended (.build x) true ∈ s.log) : s.status x = .built := by
  have hatt := attempts hl images.distinct hr
  have hinto := (covered hl images.distinct hr).push x hend hpush
  obtain ⟨-, _, hinto'⟩ := hdrained.ended hr hinto
  obtain ⟨-, hissued⟩ := hatt.ended _ _ hinto'
  obtain ⟨hattempt, success, hend'⟩ := hdrained.ended hr (mem_issued.mpr hissued)
  have hover := hatt.ended _ _ hend'
  rw [hdrained.status hl images.distinct hr]
  cases success with
  | true =>
    obtain ⟨k, r, rest, -, hlist, -, hres⟩ := hover
    rw [current_push hlist]
    exact result_built hres
  | false =>
    obtain ⟨k, outcome, hmem, hbuilt⟩ := hpushed x hattempt
    have hres := Failed.result hover (pushed_mem.mpr hmem)
    rw [Try.result, hbuilt] at hres
    cases hres

/-- The last attempt at a `BuildTask`, when it fails, decides the status. -/
theorem status_of_last (hl : Linked image images.refs)
    (hr : Reachable (step conf image) (initial image images.refs) s) (hdrained : Drained s) {x : ι}
    {r : Try} (hmem : (conf.retries, r) ∈ tries (.build x) s.log)
    (hfail : (r.result conf (image x)).2 = false) :
    s.status x = (r.result conf (image x)).1 := by
  have hatt := attempts hl images.distinct hr
  have hacc := account hl images.distinct hr
  have hx : .build x ∈ issued s.log := by
    by_contra hno
    rw [tries_of_not_issued hr hno] at hmem
    cases hmem
  obtain ⟨-, success, hend⟩ := hdrained.ended hr hx
  have hover := hatt.ended _ _ hend
  cases success with
  | true =>
    obtain ⟨k, r', rest, hk, hlist, hrest, hres⟩ := hover
    rw [hlist] at hmem
    rcases List.mem_cons.mp hmem with heq | hold
    · cases heq
      rw [show (r.result conf (image x)).2 = true from hres] at hfail
      cases hfail
    · have := (hrest.mem_iff conf.retries).mp ⟨_, hold⟩
      omega
  | false =>
    have hlist : Failed conf (image x) (tries (.build x) s.log) (conf.retries + 1) := hover
    have hunpushed : tries (.push x) s.log = [] := by
      refine tries_of_not_issued hr fun hpush => ?_
      have hend' := (hacc.pushInto x (issued_of_spent hr (hacc.push x hpush))).2
      obtain ⟨k, r', rest, hk, heq, -, hres⟩ := hatt.ended _ _ hend'
      have hno := hlist.result (heq ▸ List.mem_cons_self)
      rw [hres] at hno
      cases hno
    rw [hdrained.status hl images.distinct hr]
    generalize htries : tries (.build x) s.log = l at hlist hmem
    cases hlist with
    | @cons rest k r' hrest hr' =>
      rw [current_build hunpushed htries]
      rcases List.mem_cons.mp hmem with heq | hold
      · cases heq
        rfl
      · have := (hrest.mem_iff conf.retries).mp ⟨_, hold⟩
        omega

/-- A `BuildTask` whose last attempt is refused leaves `PARENT_ERROR`. -/
theorem status_of_refused (hl : Linked image images.refs)
    (hr : Reachable (step conf image) (initial image images.refs) s) (hdrained : Drained s) {x : ι}
    {parent : Option Status} (hcheck : .parentCheck x conf.retries parent ∈ s.log)
    (hfailed : parentFailed parent = true) : s.status x = .parentError :=
  status_of_last hl hr hdrained (refused_mem.mpr ⟨parent, hcheck, hfailed⟩) rfl

end Runs

/-- In a drained run in which every attempt past the parent check succeeds
and every push succeeds at last, the matched images all end `BUILT` if and
only if no `BuildTask` has the parent check of its last attempt read an
error. -/
theorem matched_built_iff {images : ImageList ι} {image : Heap ι}
    (hprep : Prepared images image) (hac : Acyclic image.parents) {conf : Conf}
    (hpush : conf.push = true) {s : Sys ι}
    (hr : Reachable (step conf image) (initial image images.refs) s) (hdrained : Drained s)
    (hbuild : ∀ x k outcome, .worked x k outcome ∈ s.log →
      (attemptResult conf (image x) outcome).2 = true)
    (hpushed : ∀ x, .attempt (.push x) 0 ∈ s.log →
      ∃ k outcome, .pushed x k outcome ∈ s.log ∧ pushStatus outcome = .built) :
    (∀ x ∈ images.refs, (image x).status = .matched → s.status x = .built) ↔
      ∀ x parent, .parentCheck x conf.retries parent ∈ s.log → parentFailed parent = false := by
  have hl := hprep.linked
  constructor
  · intro hbuilt x parent hcheck
    by_contra hfailed
    rw [Bool.not_eq_false] at hfailed
    have herror := status_of_refused hl hr hdrained hcheck hfailed
    have hissued := build_issued_of_event hl images.distinct hr hcheck
    have hwanted := ((account hl images.distinct hr).build _ hissued).1
    have hx := mem_of_issued hl hr hissued
    rw [hbuilt x hx (hprep.matched_of_wanted hac hx hwanted)] at herror
    cases herror
  · intro hchecks x hx hmatched
    have hcov := covered hl images.distinct hr
    refine status_of_pushed hl hpush hr hdrained hpushed
      (built_of_not_refused hl hr hdrained hbuild hchecks ?_)
    rcases matched_covered hprep hac hr hdrained hx hmatched with hattempt | ⟨a, -, hend, -⟩
    · exact started_issued hr (mem_started.mpr hattempt)
    · -- no task ends without success, so none can stand in the way
      have hissued := build_issued_of_event hl images.distinct hr hend
      obtain ⟨k, r, rest, hk, heq, -, hres⟩ := (attempts hl images.distinct hr).ended _ _
        (built_of_not_refused hl hr hdrained hbuild hchecks hissued)
      have hover : Failed conf (image a) (tries (.build a) s.log) (conf.retries + 1) :=
        (attempts hl images.distinct hr).ended _ _ hend
      have hno := hover.result (heq ▸ List.mem_cons_self)
      rw [show (r.result conf (image a)).2 = true from hres] at hno
      cases hno

/-- A push that the registry refuses. -/
def badPush : PushOutcome := ⟨[.errorDetail], none⟩

/-- `nova` is built, and its push goes through in the second attempt. -/
def repairedActions : List Action :=
  workerSteps 0 5 ++ [.worker 0 (.attempt goodAttempt)] ++ workerSteps 0 11 ++
    workerSteps 1 2 ++ [.worker 1 (.push badPush)] ++ workerSteps 1 2 ++
    [.worker 1 (.push goodPush)] ++ workerSteps 1 4 ++ [.main, .main]

theorem matched_built_iff_sample :
    ∃ s, Reachable (step sampleBuildConf sampleImage) (initial sampleImage sampleImages.refs) s ∧
      Drained s ∧ .pushed 1 0 badPush ∈ s.log ∧ s.status 1 = .built ∧
      ((∀ x ∈ sampleImages.refs, (sampleImage x).status = .matched → s.status x = .built) ↔
        ∀ x parent, .parentCheck x sampleBuildConf.retries parent ∈ s.log →
          parentFailed parent = false) := by
  let log : List (Event (Fin 3)) := [.retired (.push 1), .ended (.push 1) true,
    .pushed 1 1 goodPush, .attempt (.push 1) 1, .pushed 1 0 badPush, .attempt (.push 1) 0,
    .retired (.pushInto 1), .ended (.pushInto 1) true,
    .issued (.push 1), .attempt (.pushInto 1) 0, .retired (.build 1), .ended (.build 1) true,
    .issued (.pushInto 1), .worked 1 0 goodAttempt, .engine 1, .parentCheck 1 0 (some .skipped),
    .attempt (.build 1) 0, .issued (.build 1)]
  obtain ⟨s, hr, hs⟩ := exists_reachable (step sampleBuildConf sampleImage)
    (s := initial sampleImage sampleImages.refs) repairedActions
    (f := fun s => (s.main, s.status 1, s.log)) (b := (.tombPush, .built, log)) rfl
  rw [Prod.mk.injEq, Prod.mk.injEq] at hs
  obtain ⟨hmain, hstatus, hlog⟩ := hs
  have hdrained := (phase hr).drained (by rw [hmain]; rfl)
  refine ⟨s, hr, hdrained, by simp [hlog, log], hstatus,
    matched_built_iff sampleImage_prepared sampleImage_acyclic rfl hr hdrained ?_ ?_⟩
  · intro x k outcome hmem
    rw [hlog] at hmem
    simp only [log, List.mem_cons, Event.worked.injEq, reduceCtorEq, false_or, List.not_mem_nil,
      or_false] at hmem
    obtain ⟨rfl, rfl, rfl⟩ := hmem
    rfl
  · intro x hmem
    rw [hlog] at hmem ⊢
    simp only [log, List.mem_cons, Event.attempt.injEq, Task.push.injEq, reduceCtorEq, false_and,
      and_true, false_or, List.not_mem_nil, or_false] at hmem
    rcases hmem with ⟨rfl, -⟩ | rfl <;> exact ⟨1, goodPush, by simp [log], rfl⟩

/-! ## The race

`base` is pushed in its second attempt, and both attempts at its child
`nova` fall between the two. -/

/-- The two images, by their position. -/
def raceHeap : Heap (Fin 2)
  | 0 => freshImage "base" "ns/base:1" "centos:9"
  | 1 => freshImage "nova" "ns/nova:1" "ns/base:1"

/-- The list of the two images. -/
def raceImages : ImageList (Fin 2) := ⟨[0, 1], by decide⟩

/-- No filter, nothing unbuildable and nothing skipped. -/
def raceFilter : FilterConf where
  regex := []
  profile := []
  profiles := fun _ => []
  base := "rocky"
  baseArch := "x86_64"
  enableUnbuildable := true
  unbuildableImages := []
  search := fun _ _ => false
  skipExisting := false
  skipParents := false
  inEngineCache := fun _ => false

/-- The two images after `filter_images`. -/
def raceImage : Heap (Fin 2) :=
  match filterImages raceFilter 3 raceImages.refs (findParents raceHeap raceImages.refs) with
  | .ok (some h) => h
  | _ => raceHeap

theorem raceImage_prepared : Prepared raceImages raceImage :=
  ⟨raceHeap, raceFilter, 3, by constructor <;> decide, rfl⟩

theorem raceImage_acyclic : Acyclic raceImage.parents :=
  acyclic_of_rank (fun x => if x = 0 then 0 else 1) (by decide)

/-- `base` is built and handed to the push queue; its first push fails;
both attempts at `nova` find the parent in error; the second push
succeeds. -/
def raceActions : List Action :=
  workerSteps 0 5 ++ [.worker 0 (.attempt goodAttempt)] ++ workerSteps 0 12 ++
    workerSteps 1 2 ++ [.worker 1 (.push badPush)] ++ workerSteps 1 2 ++
    workerSteps 0 14 ++ [.worker 1 (.push goodPush)] ++ workerSteps 1 4 ++ [.main, .main]

/-- The repaired push makes the child fail: every attempt past the parent
check succeeds and `base` is pushed, but `nova` ends with `PARENT_ERROR`. -/
theorem push_race :
    Prepared raceImages raceImage ∧ Acyclic raceImage.parents ∧
      ∃ s, Reachable (step sampleBuildConf raceImage) (initial raceImage raceImages.refs) s ∧
        Drained s ∧
        (∀ x k outcome, .worked x k outcome ∈ s.log →
          (attemptResult sampleBuildConf (raceImage x) outcome).2 = true) ∧
        (∀ x, .attempt (.push x) 0 ∈ s.log →
          ∃ k outcome, .pushed x k outcome ∈ s.log ∧ pushStatus outcome = .built) ∧
        s.status 0 = .built ∧ (raceImage 1).status = .matched ∧ s.status 1 = .parentError := by
  let log : List (Event (Fin 2)) := [.retired (.push 0), .ended (.push 0) true,
    .pushed 0 1 goodPush, .retired (.build 1), .ended (.build 1) false,
    .parentCheck 1 1 (some .pushError), .attempt (.build 1) 1,
    .parentCheck 1 0 (some .pushError), .attempt (.build 1) 0, .attempt (.push 0) 1,
    .pushed 0 0 badPush, .attempt (.push 0) 0, .retired (.pushInto 0),
    .ended (.pushInto 0) true, .issued (.push 0), .attempt (.pushInto 0) 0, .retired (.build 0),
    .ended (.build 0) true, .issued (.pushInto 0), .issued (.build 1), .worked 0 0 goodAttempt,
    .engine 0, .parentCheck 0 0 none, .attempt (.build 0) 0, .issued (.build 0)]
  refine ⟨raceImage_prepared, raceImage_acyclic, ?_⟩
  obtain ⟨s, hr, hs⟩ := exists_reachable (step sampleBuildConf raceImage)
    (s := initial raceImage raceImages.refs) raceActions
    (f := fun s => (s.main, s.status 0, s.status 1, s.log))
    (b := (.tombPush, .built, .parentError, log)) rfl
  rw [Prod.mk.injEq, Prod.mk.injEq, Prod.mk.injEq] at hs
  obtain ⟨hmain, hbase, hnova, hlog⟩ := hs
  refine ⟨s, hr, (phase hr).drained (by rw [hmain]; rfl), ?_, ?_, hbase, rfl, hnova⟩
  · intro x k outcome hmem
    rw [hlog] at hmem
    simp only [log, List.mem_cons, Event.worked.injEq, reduceCtorEq, false_or, List.not_mem_nil,
      or_false] at hmem
    obtain ⟨rfl, rfl, rfl⟩ := hmem
    rfl
  · intro x hmem
    rw [hlog] at hmem ⊢
    simp only [log, List.mem_cons, Event.attempt.injEq, Task.push.injEq, reduceCtorEq, false_and,
      and_true, false_or, List.not_mem_nil, or_false] at hmem
    rcases hmem with ⟨rfl, -⟩ | rfl <;> exact ⟨1, goodPush, by simp [log], rfl⟩

end Kolla.Build
