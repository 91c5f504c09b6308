import Kolla.Build.AttemptSteps
import Kolla.Build.PushRetries
import Kolla.Build.Summary

/-!
# The statuses at the end of a run

`builder` writes `BUILDING` before its first step, and not every way out
of it writes the status again: an exception from `process_source`, an
archive of a plugin that is no tar file or has unsafe names, and a
directory that cannot be packed all leave `BUILDING` behind
(`LeavesBuilding`).  `WorkerThread.run` catches the exception and counts
the attempt as failed, without touching the status.

The followups of an image are queued after a success only.  The images
below one that was not built therefore stay `MATCHED`, and no builder gets
to write their `PARENT_ERROR`.

`allFinal_iff` says that these are the only two ways.
-/

namespace Kolla.Build

open Kolla.Lib

/-- The statuses that a complete run may leave. -/
def Status.isFinal (status : Status) : Prop :=
  status ∈ [.built, .unmatched, .skipped, .unbuildable] ∨ status ∈ statusErrors

section Statements

variable {ι : Type} (conf : Conf) (image : Heap ι) (images : List ι) (s : Sys ι)

/-- No image is left in between, and below an image whose build failed
stands `PARENT_ERROR`. -/
structure AllFinal : Prop where
  final : ∀ x ∈ images, (s.status x).isFinal
  below : ∀ x ∈ images, ∀ p, (image x).parent = some p → (image x).status = .matched →
    .ended (.build p) false ∈ s.log → s.status x = .parentError

/-- The steps of an attempt went through, up to the status `BUILT`. -/
def GoesThrough (i : Image ι) (outcome : AttemptOutcome) : Prop :=
  BuildDone conf i outcome ∧ SquashPasses conf i outcome.squash

/-- No last attempt is left by an exit that writes no status, and every
matched image with matched images below has an attempt that goes
through. -/
structure WaysOut : Prop where
  last : ∀ x outcome, .worked x conf.retries outcome ∈ s.log →
    ¬ LeavesBuilding conf (image x) outcome
  parents : ∀ x ∈ images, ∀ p, (image x).parent = some p → (image x).status = .matched →
    (image p).status = .matched →
      ∃ k outcome, .worked p k outcome ∈ s.log ∧ GoesThrough conf (image p) outcome

end Statements

/-! ## The status that an attempt leaves -/

section Attempts

variable {ι : Type} {conf : Conf} {i : Image ι}

theorem pushStatus_isFinal (outcome : PushOutcome) : (pushStatus outcome).isFinal := by
  rw [pushStatus]
  split
  · exact Or.inr (by decide)
  · cases outcome.raised with
    | none => exact Or.inl (by decide)
    | some e => cases e <;> exact Or.inr (by decide)

/-- Only an attempt that is left without a status leaves a status that is
not final. -/
theorem Try.isFinal {r : Try} (h : ∀ outcome, r = .worked outcome → ¬ LeavesBuilding conf i outcome) :
    (r.result conf i).1.isFinal := by
  cases r with
  | refused => exact Or.inr (by simp [Try.result, statusErrors])
  | pushed outcome => exact pushStatus_isFinal outcome
  | worked outcome =>
    obtain ⟨hiff, hends⟩ := attemptResult_building_iff i outcome
    rcases hends (mt hiff.mp (h outcome rfl)) with hbuilt | herror
    · exact Or.inl (by simp [Try.result, hbuilt])
    · exact Or.inr herror

theorem goesThrough_iff {outcome : AttemptOutcome} :
    GoesThrough conf i outcome ↔ (attemptResult conf i outcome).2 = true := by
  rw [GoesThrough, ← attemptResult_built_iff]
  constructor
  · intro h
    rw [h]
  · intro h
    exact Prod.ext (attemptResult_built h) h

end Attempts

/-! ## Runs -/

section Runs

variable {ι : Type} [DecidableEq ι] {images : ImageList ι} {image : Heap ι} {conf : Conf} {s : Sys ι}

/-- A build that succeeded has an attempt that went through. -/
theorem goesThrough_of_ended (hl : Linked image images.refs)
    (hr : Reachable (step conf image) (initial image images.refs) s) {x : ι}
    (hend : .ended (.build x) true ∈ s.log) :
    ∃ k outcome, .worked x k outcome ∈ s.log ∧ GoesThrough conf (image x) outcome := by
  obtain ⟨k, r, rest, -, hlist, -, hres⟩ := (attempts hl images.distinct hr).ended _ _ hend
  have hmem : (k, r) ∈ tries (.build x) s.log := hlist ▸ List.mem_cons_self
  rcases try_of_mem hmem with ⟨y, -, rfl | ⟨outcome, rfl⟩⟩ | ⟨y, outcome, heq, -⟩
  · cases hres
  · exact ⟨k, outcome, worked_mem.mp hmem, goesThrough_iff.mpr hres⟩
  · cases heq

/-- An attempt that goes through makes the build a success. -/
theorem ended_of_goesThrough (hl : Linked image images.refs)
    (hr : Reachable (step conf image) (initial image images.refs) s) {x : ι}
    {k : ℕ} {outcome : AttemptOutcome} (hmem : .worked x k outcome ∈ s.log)
    (hgoes : GoesThrough conf (image x) outcome) {success : Bool}
    (hend : .ended (.build x) success ∈ s.log) : success = true := by
  cases success with
  | true => rfl
  | false =>
    have hover : Failed conf (image x) (tries (.build x) s.log) (conf.retries + 1) :=
      (attempts hl images.distinct hr).ended _ _ hend
    have hres := hover.result (worked_mem.mpr hmem)
    rw [Try.result, goesThrough_iff.mp hgoes] at hres
    cases hres

/-- In a drained run an image with a `BuildTask` ends in a final status, if
its last attempt is not left without a status. -/
theorem status_isFinal (hl : Linked image images.refs)
    (hr : Reachable (step conf image) (initial image images.refs) s) (hdrained : Drained s) {x : ι}
    (hlast : ∀ outcome, .worked x conf.retries outcome ∈ s.log →
      ¬ LeavesBuilding conf (image x) outcome)
    (hissued : .build x ∈ issued s.log) : (s.status x).isFinal := by
  have hatt := attempts hl images.distinct hr
  obtain ⟨-, success, hend⟩ := hdrained.ended hr hissued
  have hover := hatt.ended _ _ hend
  cases success with
  | true =>
    -- the build succeeded, so the status is `BUILT` or that of the last push
    obtain ⟨k, r, rest, -, hlist, -, hres⟩ := hover
    rw [hdrained.status hl images.distinct hr]
    cases hpush : tries (.push x) s.log with
    | nil =>
      rw [current_build hpush hlist, result_built hres]
      exact Or.inl (by decide)
    | cons head rest =>
      obtain ⟨k', r'⟩ := head
      rw [current_push hpush]
      refine Try.isFinal fun outcome hworked => ?_
      rcases try_of_mem (hpush ▸ List.mem_cons_self : (k', r') ∈ tries (.push x) s.log) with
        ⟨y, heq, -⟩ | ⟨y, o, -, hr'⟩
      · cases heq
      · rw [hr'] at hworked
        cases hworked
  | false =>
    have hlist : Failed conf (image x) (tries (.build x) s.log) (conf.retries + 1) := hover
    obtain ⟨r, hmem⟩ := (hlist.mem_iff conf.retries).mpr (Nat.lt_succ_self _)
    rw [status_of_last hl hr hdrained hmem (hlist.result hmem)]
    refine Try.isFinal fun outcome hworked => hlast outcome ?_
    exact worked_mem.mp (hworked ▸ hmem)

/-- Under `WaysOut` every matched image has its `BuildTask`. -/
theorem WaysOut.issued (hways : WaysOut conf image images.refs s) (hprep : Prepared images image)
    (hac : Acyclic image.parents)
    (hr : Reachable (step conf image) (initial image images.refs) s) (hdrained : Drained s) {x : ι}
    (hx : x ∈ images.refs) (hm : (image x).status = .matched) : .build x ∈ issued s.log := by
  have hl := hprep.linked
  have hcov : Covered conf image images.refs s := covered hl images.distinct hr
  have hwanted : (image x).status ∉ unwanted := by
    rw [hm]
    decide
  cases hparent : (image x).parent with
  | none => exact hcov.root x hx (by simp [isRoot, hparent, hwanted])
  | some p =>
    rcases hprep.parent_matched hac hparent hm with hp | hp
    · obtain ⟨k, outcome, hmem, hgoes⟩ := hways.parents x hx p hparent hm hp
      have hissued := build_issued_of_event hl images.distinct hr hmem
      obtain ⟨-, success, hend⟩ := hdrained.ended hr hissued
      obtain rfl := ended_of_goesThrough hl hr hmem hgoes hend
      exact hcov.child p x hend ((hl.child_iff x p).mpr hparent) hwanted
    · exact hcov.root x hx (by simp [isRoot, hparent, hp, hwanted])

end Runs

/-- In a drained run every image ends in a final status, with `PARENT_ERROR`
below a failed build, if and only if no last attempt is left by an exit that
writes no status and every matched image with matched images below has an
attempt that goes through. -/
theorem allFinal_iff {ι : Type} [DecidableEq ι] {images : ImageList ι} {image : Heap ι}
    (hprep : Prepared images image) (hac : Acyclic image.parents) {conf : Conf} {s : Sys ι}
    (hr : Reachable (step conf image) (initial image images.refs) s) (hdrained : Drained s) :
    AllFinal image images.refs s ↔ WaysOut conf image images.refs s := by
  have hl := hprep.linked
  have hacc := account hl images.distinct hr
  constructor
  · intro hall
    refine ⟨fun x outcome hmem hleaves => ?_, fun x hx p hparent hm hp => ?_⟩
    · -- an attempt that leaves `BUILDING` is no success, so it decides the status
      have hbuilding := (attemptResult_building_iff (image x) outcome).1.mpr hleaves
      have hfail : (attemptResult conf (image x) outcome).2 = false := by
        by_contra hno
        rw [attemptResult_built (by simpa using hno)] at hbuilding
        cases hbuilding
      have hstatus := status_of_last hl hr hdrained (worked_mem.mpr hmem) hfail
      have hx := mem_of_issued hl hr (build_issued_of_event hl images.distinct hr hmem)
      have hfinal := hall.final x hx
      rw [hstatus, Try.result, hbuilding] at hfinal
      revert hfinal
      simp [Status.isFinal, statusErrors]
    · have hissued : .build x ∈ issued s.log := by
        by_contra hno
        have hfinal := hall.final x hx
        rw [hacc.frame x hno, hm] at hfinal
        revert hfinal
        simp [Status.isFinal, statusErrors]
      obtain ⟨-, hroot | ⟨q, hq, -, hend⟩⟩ := hacc.build x hissued
      · simp [isRoot, hparent, hp] at hroot
      · rw [hparent, Option.some.injEq] at hq
        exact hq ▸ goesThrough_of_ended hl hr hend
  · intro hways
    refine ⟨fun x hx => ?_, fun x hx p hparent hm hend => ?_⟩
    · rcases hprep.processed hx with hm | hunwanted
      · exact status_isFinal hl hr hdrained (hways.last x)
          (hways.issued hprep hac hr hdrained hx hm)
      · rw [status_of_unwanted hl images.distinct hr hunwanted]
        refine Or.inl (List.mem_cons_of_mem _ ?_)
        exact hunwanted
    · -- a failed build of `p` leaves no attempt that goes through
      have hissued := build_issued_of_event hl images.distinct hr hend
      have hp := hprep.matched_of_wanted hac (hl.parent_mem x p hparent) (hacc.build p hissued).1
      obtain ⟨k, outcome, hmem, hgoes⟩ := hways.parents x hx p hparent hm hp
      cases ended_of_goesThrough hl hr hmem hgoes hend

/-- A build that the engine reports an error for. -/
def badAttempt : AttemptOutcome := { goodAttempt with stream := [.errorDetail] }

/-- `base` is built in the second attempt, and `nova` in none. -/
def failingActions : List Action :=
  workerSteps 0 5 ++ [.worker 0 (.attempt badAttempt)] ++ workerSteps 0 5 ++
    [.worker 0 (.attempt goodAttempt)] ++ workerSteps 0 12 ++ workerSteps 1 2 ++
    [.worker 1 (.push goodPush)] ++ workerSteps 1 2 ++ workerSteps 0 5 ++
    [.worker 0 (.attempt badAttempt)] ++ workerSteps 0 5 ++ [.worker 0 (.attempt badAttempt)] ++
    workerSteps 0 4 ++ workerSteps 1 2 ++ [.main, .main]

theorem allFinal_iff_sample :
    ∃ s, Reachable (step sampleBuildConf raceImage) (initial raceImage raceImages.refs) s ∧
      s.status 0 = .built ∧ s.status 1 = .error ∧ AllFinal raceImage raceImages.refs s := by
  obtain ⟨s, hr, hs⟩ := exists_reachable (step sampleBuildConf raceImage)
    (s := initial raceImage raceImages.refs) failingActions
    (f := fun s => (s.main, s.status 0, s.status 1,
      s.log.all fun
        | .worked x _ outcome =>
          decide ((attemptResult sampleBuildConf (raceImage x) outcome).1 ≠ .building)
        | _ => true,
      s.log.any fun
        | .worked x _ outcome =>
          decide (x = 0) && (attemptResult sampleBuildConf (raceImage x) outcome).2
        | _ => false))
    (b := (.tombPush, .built, .error, true, true)) (by decide +kernel)
  rw [Prod.mk.injEq, Prod.mk.injEq, Prod.mk.injEq, Prod.mk.injEq] at hs
  obtain ⟨hmain, hbase, hnova, hleft, hgoes⟩ := hs
  refine ⟨s, hr, hbase, hnova, (allFinal_iff raceImage_prepared raceImage_acyclic hr
    ((phase hr).drained (by rw [hmain]; rfl))).mpr ⟨fun x outcome hmem => ?_, ?_⟩⟩
  · rw [← (attemptResult_building_iff (raceImage x) outcome).1]
    exact of_decide_eq_true (List.all_eq_true.mp hleft _ hmem)
  · intro x _ p hparent _ _
    have hp : ∀ x p : Fin 2, (raceImage x).parent = some p → p = 0 := by decide
    obtain rfl := hp x p hparent
    obtain ⟨e, he, hworked⟩ := List.any_eq_true.mp hgoes
    cases e with
    | worked x k outcome =>
      obtain ⟨hx, hsuccess⟩ := (Bool.and_eq_true _ _).mp hworked
      obtain rfl : x = 0 := of_decide_eq_true hx
      exact ⟨k, outcome, he, goesThrough_iff.mpr hsuccess⟩
    | _ => cases hworked

/-! ## An archive that is no tar file -/

/-- `base` has a plugin, and `nova` is built on it. -/
def stuckHeap : Heap (Fin 2)
  | 0 => { freshImage "base" "ns/base:1" "centos:9" with
      plugins := [some ⟨"base-plugin-a", .url, "a.tar.gz", "", true, []⟩] }
  | 1 => freshImage "nova" "ns/nova:1" "ns/base:1"

/-- The two images after `filter_images`. -/
def stuckImage : Heap (Fin 2) :=
  match filterImages raceFilter 3 raceImages.refs (findParents stuckHeap raceImages.refs) with
  | .ok (some h) => h
  | _ => stuckHeap

/-- The plugin arrives, but `tarfile` does not know it. -/
def notTarAttempt : AttemptOutcome :=
  { goodAttempt with plugins := { goodAttempt.plugins with archives := fun _ => .notTar } }

/-- Both attempts at `base` end at the archive. -/
def stuckActions : List Action :=
  workerSteps 0 5 ++ [.worker 0 (.attempt notTarAttempt)] ++ workerSteps 0 5 ++
    [.worker 0 (.attempt notTarAttempt)] ++ workerSteps 0 4 ++ [.main, .main]

/-- The run is over, `base` is left `BUILDING` and `nova` is left
`MATCHED`. -/
theorem left_in_between :
    Prepared raceImages stuckImage ∧ Acyclic stuckImage.parents ∧
      ∃ s, Reachable (step sampleBuildConf stuckImage) (initial stuckImage raceImages.refs) s ∧
        Drained s ∧ s.status 0 = .building ∧ s.status 1 = .matched ∧
        ¬ AllFinal stuckImage raceImages.refs s := by
  refine ⟨⟨stuckHeap, raceFilter, 3, by constructor <;> decide, rfl⟩,
    acyclic_of_rank (fun x => if x = 0 then 0 else 1) (by decide), ?_⟩
  obtain ⟨s, hr, hs⟩ := exists_reachable (step sampleBuildConf stuckImage)
    (s := initial stuckImage raceImages.refs) stuckActions
    (f := fun s => (s.main, s.status 0, s.status 1)) (b := (.tombPush, .building, .matched)) rfl
  rw [Prod.mk.injEq, Prod.mk.injEq] at hs
  obtain ⟨hmain, hbase, hnova⟩ := hs
  refine ⟨s, hr, (phase hr).drained (by rw [hmain]; rfl), hbase, hnova, fun hall => ?_⟩
  have hfinal := hall.final 0 (by decide)
  rw [hbase] at hfinal
  revert hfinal
  simp [Status.isFinal, statusErrors]

end Kolla.Build
