import Kolla.Lib.Forest
import Kolla.Build.Filter
import Kolla.Build.Accounting

/-!
# The order in which images are built

`BuildTask`s are created in two places: `build_queue` creates those of the
roots, and the followups of a built image create those of its children.
The invariant `Account` says that the two places never meet.  It gives
every task that was issued a *cause* that is spent: a `BuildTask` that is
no root has the `BuildTask` of its parent, which ended with success.  A
second `BuildTask` of an image would need the same cause, and a task is
spent once.

`Account` needs the links (`Linked`) and the statuses that
`filter_images` left, but no absence of cycles: a `BuildTask` on a cycle
would have to be its own cause.

`build_discipline` is the result.
-/

namespace Kolla.Build

open Kolla.Lib

variable {ι : Type} [DecidableEq ι]

/-! ## What a step leaves alone -/

section Frames

variable {conf : Conf} {image : Heap ι} {s s' : Sys ι} {i : ℕ}

/-- A step inside `run` writes the status of the image of its task only. -/
theorem RunMove.status_frame {status : ι → Status} {t : Task ι} {k : ℕ} {pc : RunPc}
    {e : RunEffect ι} (h : RunMove conf image status t k pc e) {y : ι} (hy : y ≠ t.image) :
    e.status y = status y := by
  cases h with
  | skip | enter | refused | passed | built | failed | pushInto | pushDone | pushFailed => rfl
  | refuse | start | push => exact Function.update_of_ne hy _ _
  | work outcome =>
    obtain ⟨st, called, next, he, -⟩ := workEffect_eq conf image status _ k
      outcome
    rw [he]
    exact Function.update_of_ne hy _ _

/-- A step of a worker writes a status inside `run` only. -/
theorem WorkerMove.status_frame (h : WorkerMove conf image s i s') :
    s'.status = s.status ∨ ∃ t k pc, s.worker i = .running t k pc ∧
      ∀ y, y ≠ t.image → s'.status y = s.status y := by
  cases h with
  | run hpc he => exact Or.inr ⟨_, _, _, hpc, fun y hy => he.status_frame hy⟩
  | take | takeTombstone | putTombstone | put | finish => exact Or.inl (by simp)
  | begin | exhaust | follow | giveUp | allPut => exact Or.inl rfl

end Frames

/-! ## Every task has a cause -/

section Causes

variable {conf : Conf} {image : Heap ι} {images : List ι} {s s' : Sys ι}

/-- Every issued task has a cause, and images whose `BuildTask` was not
issued keep their status. -/
structure Account (conf : Conf) (image : Heap ι) (s : Sys ι) : Prop where
  once : ∀ t, (issued s.log).count t ≤ 1
  build : ∀ y, .build y ∈ issued s.log → (image y).status ∉ unwanted ∧
    (isRoot image y = true ∨ ∃ p, (image y).parent = some p ∧
      0 < s.spentCount conf (.build p) ∧ .ended (.build p) true ∈ s.log)
  pushInto : ∀ x, .pushInto x ∈ issued s.log →
    0 < s.spentCount conf (.build x) ∧ .ended (.build x) true ∈ s.log
  push : ∀ x, .push x ∈ issued s.log → 0 < s.spentCount conf (.pushInto x)
  frame : ∀ y, .build y ∉ issued s.log → s.status y = (image y).status

/-- A task that is spent was issued. -/
theorem issued_of_spent (hr : Reachable (step conf image) (initial image images) s) {t : Task ι}
    (h : 0 < s.spentCount conf t) : t ∈ issued s.log := by
  have := (balance hr t).1
  exact List.count_pos_iff.mp (by omega)

/-- A task that is being tried was issued. -/
theorem issued_of_tried (hr : Reachable (step conf image) (initial image images) s) {t : Task ι}
    (h : 0 < s.triedCount conf t) : t ∈ issued s.log := by
  have := (balance hr t).1
  exact List.count_pos_iff.mp (by omega)

/-- A task in the middle of `run` is being tried. -/
theorem tried_of_running (hr : Reachable (step conf image) (initial image images) s) {i : ℕ}
    {t : Task ι} {k : ℕ} {pc : RunPc} (hpc : s.worker i = .running t k pc) :
    0 < s.triedCount conf t := by
  have hi : i < conf.workers := lt_workers hr (by rw [hpc]; simp)
  have hle := le_sum hi fun j => (s.worker j).tried.count t
  rw [hpc] at hle
  exact lt_of_lt_of_le (by simp [WorkerPc.tried]) hle

theorem issued_of_running (hr : Reachable (step conf image) (initial image images) s) {i : ℕ}
    {t : Task ι} {k : ℕ} {pc : RunPc} (hpc : s.worker i = .running t k pc) :
    t ∈ issued s.log :=
  issued_of_tried hr (tried_of_running hr hpc)

/-- A task that is being tried is not spent. -/
theorem Account.not_spent (hacc : Account conf image s)
    (hr : Reachable (step conf image) (initial image images) s) {t : Task ι}
    (h : 0 < s.triedCount conf t) : ¬ 0 < s.spentCount conf t := by
  have := (balance hr t).1
  have := hacc.once t
  omega

/-- An image with an issued task has an issued `BuildTask`. -/
theorem Account.build_issued (hacc : Account conf image s)
    (hr : Reachable (step conf image) (initial image images) s) {t : Task ι}
    (h : t ∈ issued s.log) : .build t.image ∈ issued s.log := by
  cases t with
  | build x => exact h
  | pushInto x => exact issued_of_spent hr (hacc.pushInto x h).1
  | push x =>
    have hinto := issued_of_spent hr (hacc.push x h)
    exact issued_of_spent hr (hacc.pushInto x hinto).1

/-- The statuses after a step: an image whose `BuildTask` was not issued
keeps its own. -/
theorem Account.frame_step (hacc : Account conf image s)
    (hr : Reachable (step conf image) (initial image images) s) {a : Action}
    (h : step conf image s a = some s') {y : ι} (hy : .build y ∉ issued s.log) :
    s'.status y = (image y).status := by
  rw [← hacc.frame y hy]
  rcases step_cases h with ⟨i, hi, hmove⟩ | hmove
  · rcases hmove.status_frame with heq | ⟨t, k, pc, hpc, hframe⟩
    · rw [heq]
    · refine hframe y ?_
      rintro rfl
      exact hy (hacc.build_issued hr (issued_of_running hr hpc))
  · rw [hmove.frame.1]

/-- A child that `followups` issues a task for has none yet. -/
theorem Account.child_not_issued (hacc : Account conf image s)
    (hr : Reachable (step conf image) (initial image images) s) (hl : Linked image images) {x y : ι}
    (hx : 0 < s.triedCount conf (.build x)) (hy : y ∈ (image x).children) :
    .build y ∉ issued s.log := by
  intro hissued
  have hparent := (hl.child_iff y x).mp hy
  obtain ⟨-, hroot | ⟨p, hp, hspent, -⟩⟩ := hacc.build y hissued
  · -- a root has no parent or a skipped one, and a skipped image has no task
    rw [isRoot, hparent] at hroot
    simp only [Bool.and_eq_true, decide_eq_true_eq] at hroot
    have hwanted := (hacc.build x (issued_of_tried hr hx)).1
    rw [hroot.2] at hwanted
    exact hwanted (by decide)
  · rw [hparent] at hp
    cases hp
    exact hacc.not_spent hr hx hspent

omit [DecidableEq ι] in
theorem mem_followups {status : ι → Status} {x : ι} {t : Task ι} :
    t ∈ followups conf image status (.build x) ↔
      (conf.push = true ∧ t = .pushInto x) ∨
        ∃ y ∈ (image x).children, status y ∉ unwanted ∧ t = .build y := by
  cases hpush : conf.push <;>
    simp only [followups, hpush, ↓reduceIte, Bool.false_eq_true, List.nil_append, List.mem_append,
      List.mem_singleton, List.mem_map, List.mem_filter, decide_eq_true_eq, true_and, false_and,
      false_or] <;>
    grind

omit [DecidableEq ι] in
theorem followups_nodup (hl : Linked image images) (status : ι → Status) (x : ι) :
    (followups conf image status (.build x)).Nodup := by
  have hchildren : (((image x).children.filter fun y => decide (status y ∉ unwanted)).map
      Task.build).Nodup :=
    ((hl.children_nodup x).filter _).map fun a b h => Task.build.inj h
  rw [followups]
  refine List.Nodup.append ?_ hchildren ?_
  · split <;> simp
  · intro t ht ht'
    obtain ⟨y, -, rfl⟩ := List.mem_map.mp ht'
    split at ht <;> simp at ht

/-- The tasks of a step are issued for the first time. -/
theorem Account.new_not_issued (hacc : Account conf image s)
    (hr : Reachable (step conf image) (initial image images) s) (hl : Linked image images)
    {start close new : List (Task ι)} (hflow : Flow conf image s s' start close new)
    (hb : Balance conf s s' start close new) : new.Nodup ∧ ∀ t ∈ new, t ∉ issued s.log := by
  cases hflow with
  | quiet | start | close => simp
  | queue x =>
    refine ⟨List.nodup_singleton _, fun t ht => ?_⟩
    rw [List.mem_singleton.mp ht]
    exact fun h => hacc.not_spent hr (hb.closed _ (List.mem_singleton_self _)) (hacc.push x h)
  | follow x hlog =>
    have htried := hb.closed _ (List.mem_singleton_self _)
    refine ⟨followups_nodup hl _ x, fun t ht => ?_⟩
    rcases mem_followups.mp ht with ⟨-, rfl⟩ | ⟨y, hy, -, rfl⟩
    · exact fun h => hacc.not_spent hr htried (hacc.pushInto x h).1
    · exact hacc.child_not_issued hr hl htried hy

/-- `Account` survives a step. -/
theorem Account.preserved (hacc : Account conf image s)
    (hr : Reachable (step conf image) (initial image images) s) (hl : Linked image images)
    {a : Action} (h : step conf image s a = some s') : Account conf image s' := by
  obtain ⟨start, close, new, hflow, hb⟩ := step_flow h
  obtain ⟨hnodup, hnew⟩ := hacc.new_not_issued hr hl hflow hb
  obtain ⟨events, hlog⟩ := step_log h
  have hmem : ∀ t, t ∈ issued s'.log ↔ t ∈ issued s.log ∨ t ∈ new := by
    intro t
    have := hb.issued t
    rw [← List.count_pos_iff, ← List.count_pos_iff, ← List.count_pos_iff]
    omega
  have hspent : ∀ t, 0 < s.spentCount conf t → 0 < s'.spentCount conf t := by
    intro t ht
    have := hb.spent t
    omega
  have hkept : ∀ e, e ∈ s.log → e ∈ s'.log := fun e he => hlog ▸ List.mem_append_right _ he
  refine ⟨?_, ?_, ?_, ?_, ?_⟩
  · intro t
    have hcount := hb.issued t
    have hone := hacc.once t
    by_cases ht : t ∈ new
    · have hzero := List.count_eq_zero.mpr (hnew t ht)
      have := List.nodup_iff_count_le_one.mp hnodup t
      omega
    · have := List.count_eq_zero.mpr ht
      omega
  · intro y hy
    rcases (hmem _).mp hy with hold | hin
    · obtain ⟨hwanted, hroot | ⟨p, hp, hsp, hend⟩⟩ := hacc.build y hold
      · exact ⟨hwanted, Or.inl hroot⟩
      · exact ⟨hwanted, Or.inr ⟨p, hp, hspent _ hsp, hkept _ hend⟩⟩
    · cases hflow with
      | quiet | start | close => cases hin
      | queue x => simp at hin
      | follow x hend =>
        rcases mem_followups.mp hin with ⟨-, heq⟩ | ⟨z, hz, hwanted, heq⟩
        · cases heq
        · cases heq
          rw [hacc.frame y (hnew _ hin)] at hwanted
          refine ⟨hwanted, Or.inr ⟨x, (hl.child_iff y x).mp hz, ?_, hend⟩⟩
          have := hb.spent (.build x)
          simp at this
          omega
  · intro x hx
    rcases (hmem _).mp hx with hold | hin
    · exact ⟨hspent _ (hacc.pushInto x hold).1, hkept _ (hacc.pushInto x hold).2⟩
    · cases hflow with
      | quiet | start | close => cases hin
      | queue z => simp at hin
      | follow z hend =>
        rcases mem_followups.mp hin with ⟨-, heq⟩ | ⟨y, -, -, heq⟩
        · cases heq
          refine ⟨?_, hend⟩
          have := hb.spent (.build x)
          simp at this
          omega
        · cases heq
  · intro x hx
    rcases (hmem _).mp hx with hold | hin
    · exact hspent _ (hacc.push x hold)
    · cases hflow with
      | quiet | start | close => cases hin
      | queue z =>
        cases List.mem_singleton.mp hin
        have := hb.spent (.pushInto x)
        simp at this
        omega
      | follow z hend =>
        rcases mem_followups.mp hin with ⟨-, heq⟩ | ⟨y, -, -, heq⟩ <;> cases heq
  · intro y hy
    exact hacc.frame_step hr h fun hold => hy ((hmem _).mpr (Or.inl hold))

omit [DecidableEq ι] in
theorem mem_initialTasks {t : Task ι} :
    t ∈ initialTasks image images ↔ ∃ x ∈ images, isRoot image x = true ∧ t = .build x := by
  simp only [initialTasks, List.mem_map, List.mem_filter]
  grind

/-- `Account` holds at the start. -/
theorem Account.start (hnodup : images.Nodup) : Account conf image (initial image images) := by
  have hissued : issued (initial image images).log = initialTasks image images :=
    issued_map _
  refine ⟨?_, ?_, ?_, ?_, fun y _ => rfl⟩
  · intro t
    rw [hissued]
    exact List.nodup_iff_count_le_one.mp ((hnodup.filter _).map fun a b h => Task.build.inj h) t
  · intro y hy
    rw [hissued] at hy
    obtain ⟨x, -, hroot, heq⟩ := mem_initialTasks.mp hy
    cases heq
    refine ⟨?_, Or.inl hroot⟩
    simp only [isRoot, Bool.and_eq_true, decide_eq_true_eq] at hroot
    exact hroot.1
  · intro x hx
    rw [hissued] at hx
    obtain ⟨y, -, -, heq⟩ := mem_initialTasks.mp hx
    cases heq
  · intro x hx
    rw [hissued] at hx
    obtain ⟨y, -, -, heq⟩ := mem_initialTasks.mp hx
    cases heq

/-- `Account` holds in every reachable state. -/
theorem account (hl : Linked image images) (hnodup : images.Nodup)
    (hr : Reachable (step conf image) (initial image images) s) :
    Account conf image s :=
  hr.invariant (P := Account conf image) (.start hnodup)
    fun _ _ _ hu hacc hstep => hacc.preserved hu hl hstep

end Causes

/-! ## The workers and the images -/

/-- The image that a worker processes: the one of its task, until the
attempts are over. -/
def WorkerPc.processing : WorkerPc ι → Option ι
  | .attempt t _ => some t.image
  | .running t _ _ => some t.image
  | _ => none

section Workers

variable {conf : Conf} {image : Heap ι} {images : List ι} {s : Sys ι} {t u : Task ι} {i j : ℕ}

/-- A worker that has a task adds to the count of that task. -/
theorem WorkerPc.count_of_task {pc : WorkerPc ι} (h : pc.task? = some t) :
    1 ≤ pc.waiting.count t + pc.tried.count t + pc.spent.count t := by
  cases pc with
  | idle | tombstone | dead => cases h
  | attempt u k =>
    cases h
    cases k <;> simp [WorkerPc.waiting, WorkerPc.tried, WorkerPc.spent]
  | running u k pc =>
    cases h
    simp [WorkerPc.waiting, WorkerPc.tried, WorkerPc.spent]
  | ended u success =>
    cases h
    cases t <;> simp [WorkerPc.waiting, WorkerPc.tried, WorkerPc.spent]
  | putting u rest =>
    cases h
    simp [WorkerPc.waiting, WorkerPc.tried, WorkerPc.spent]
  | finishing u =>
    cases h
    simp [WorkerPc.waiting, WorkerPc.tried, WorkerPc.spent]

theorem lt_workers_of_task (hr : Reachable (step conf image) (initial image images) s)
    (hti : (s.worker i).task? = some t) : i < conf.workers := by
  refine lt_workers hr fun hidle => ?_
  rw [hidle] at hti
  cases hti

/-- The task of a worker was issued. -/
theorem issued_of_task (hr : Reachable (step conf image) (initial image images) s)
    (hti : (s.worker i).task? = some t) : t ∈ issued s.log := by
  have hi := lt_workers_of_task hr hti
  have hbal := (balance hr t).1
  have hcount := WorkerPc.count_of_task hti
  have hwait := le_sum hi fun k => (s.worker k).waiting.count t
  have htried := le_sum hi fun k => (s.worker k).tried.count t
  have hspent := le_sum hi fun k => (s.worker k).spent.count t
  rw [Sys.waitingCount, Sys.triedCount, Sys.spentCount] at hbal
  exact List.count_pos_iff.mp (by omega)

/-- Two workers never have the same task. -/
theorem Account.task_unique (hacc : Account conf image s)
    (hr : Reachable (step conf image) (initial image images) s) (hij : i ≠ j)
    (hti : (s.worker i).task? = some t) (htj : (s.worker j).task? = some t) : False := by
  have hi := lt_workers_of_task hr hti
  have hj := lt_workers_of_task hr htj
  have hone := hacc.once t
  have hbal := (balance hr t).1
  have hci := WorkerPc.count_of_task hti
  have hcj := WorkerPc.count_of_task htj
  have hwait := add_le_sum hi hj hij fun k => (s.worker k).waiting.count t
  have htried := add_le_sum hi hj hij fun k => (s.worker k).tried.count t
  have hspent := add_le_sum hi hj hij fun k => (s.worker k).spent.count t
  rw [Sys.waitingCount, Sys.triedCount, Sys.spentCount] at hbal
  omega

/-- A worker that processes an image has a task that is not spent. -/
theorem processing_not_spent (hacc : Account conf image s)
    (hr : Reachable (step conf image) (initial image images) s) {x : ι}
    (hx : (s.worker i).processing = some x) :
    ∃ t, (s.worker i).task? = some t ∧ t.image = x ∧ t ∈ issued s.log ∧
      ¬ 0 < s.spentCount conf t := by
  have hi : i < conf.workers := by
    refine lt_workers hr fun hidle => ?_
    rw [hidle] at hx
    cases hx
  have hkey : ∀ t, (s.worker i).waiting = [t] ∨ (s.worker i).tried = [t] →
      t ∈ issued s.log ∧ ¬ 0 < s.spentCount conf t := by
    intro t ht
    have hone := hacc.once t
    have hbal := (balance hr t).1
    have hwait := le_sum hi fun k => (s.worker k).waiting.count t
    have htried := le_sum hi fun k => (s.worker k).tried.count t
    have hpos : 1 ≤ (s.worker i).waiting.count t + (s.worker i).tried.count t := by
      rcases ht with h | h <;> rw [h] <;> simp
    rw [Sys.waitingCount, Sys.triedCount] at hbal
    exact ⟨List.count_pos_iff.mp (by omega), by omega⟩
  cases hpc : s.worker i with
  | attempt t k =>
    rw [hpc] at hx hkey
    cases hx
    refine ⟨t, rfl, rfl, hkey t ?_⟩
    cases k
    · exact Or.inl rfl
    · exact Or.inr rfl
  | running t k pc =>
    rw [hpc] at hx hkey
    cases hx
    exact ⟨t, rfl, rfl, hkey t (Or.inr rfl)⟩
  | _ =>
    rw [hpc] at hx
    cases hx

/-- Two tasks of one image that were issued and are not spent are the same
task. -/
theorem Account.unspent_unique (hacc : Account conf image s)
    (hr : Reachable (step conf image) (initial image images) s)
    (ht : t ∈ issued s.log) (hu : u ∈ issued s.log) (hnt : ¬ 0 < s.spentCount conf t)
    (hnu : ¬ 0 < s.spentCount conf u) (himage : t.image = u.image) : t = u := by
  have hbuild : ∀ {x}, .pushInto x ∈ issued s.log → 0 < s.spentCount conf (.build x) :=
    fun h => (hacc.pushInto _ h).1
  have hinto : ∀ {x}, .push x ∈ issued s.log → 0 < s.spentCount conf (.pushInto x) :=
    fun h => hacc.push _ h
  have hboth : ∀ {x}, .push x ∈ issued s.log → 0 < s.spentCount conf (.build x) :=
    fun h => hbuild (issued_of_spent hr (hinto h))
  cases t with
  | build x =>
    cases u with
    | build y => exact congrArg Task.build himage
    | pushInto y =>
      cases (himage : x = y)
      exact absurd (hbuild hu) hnt
    | push y =>
      cases (himage : x = y)
      exact absurd (hboth hu) hnt
  | pushInto x =>
    cases u with
    | build y =>
      cases (himage : x = y)
      exact absurd (hbuild ht) hnu
    | pushInto y => exact congrArg Task.pushInto himage
    | push y =>
      cases (himage : x = y)
      exact absurd (hinto hu) hnt
  | push x =>
    cases u with
    | build y =>
      cases (himage : x = y)
      exact absurd (hboth ht) hnu
    | pushInto y =>
      cases (himage : x = y)
      exact absurd (hinto ht) hnu
    | push y => exact congrArg Task.push himage

/-- Two workers never process the same image. -/
theorem Account.processing_unique (hacc : Account conf image s)
    (hr : Reachable (step conf image) (initial image images) s) (hij : i ≠ j) {x : ι}
    (hxi : (s.worker i).processing = some x) (hxj : (s.worker j).processing = some x) : False := by
  obtain ⟨t, hti, htx, htissued, htspent⟩ := processing_not_spent hacc hr hxi
  obtain ⟨u, huj, hux, huissued, huspent⟩ := processing_not_spent hacc hr hxj
  have htu := hacc.unspent_unique hr htissued huissued htspent huspent (htx.trans hux.symm)
  exact hacc.task_unique hr hij hti (htu ▸ huj)

/-- Where the builder of an image is entered, the parent has been built or
skipped. -/
theorem Account.entered (hacc : Account conf image s) {x : ι}
    (hissued : .build x ∈ issued s.log) :
    (image x).parent = none ∨ ∃ p, (image x).parent = some p ∧
      (s.status p = .skipped ∨ .ended (.build p) true ∈ s.log) := by
  obtain ⟨-, hroot | ⟨p, hp, -, hend⟩⟩ := hacc.build x hissued
  · cases hparent : (image x).parent with
    | none => exact Or.inl rfl
    | some p =>
      rw [isRoot, hparent] at hroot
      simp only [Bool.and_eq_true, decide_eq_true_eq] at hroot
      refine Or.inr ⟨p, rfl, Or.inl ?_⟩
      rw [hacc.frame p ?_, hroot.2]
      intro hp
      have hwanted := (hacc.build p hp).1
      rw [hroot.2] at hwanted
      exact hwanted (by decide)
  · exact Or.inr ⟨p, hp, Or.inr hend⟩

end Workers

/-- In every state of every run: an image has one `BuildTask` at most; no
task is in the hands of two workers, and no image is processed by two; and
a builder is entered only when there is no parent, or the parent is
skipped, or the `BuildTask` of the parent has ended with success. -/
theorem build_discipline {images : ImageList ι} {image : Heap ι} (hprep : Prepared images image)
    {conf : Conf} {s : Sys ι}
    (hr : Reachable (step conf image) (initial image images.refs) s) :
    (∀ x, (issued s.log).count (.build x) ≤ 1) ∧
      (∀ i j t, i ≠ j → (s.worker i).task? = some t → (s.worker j).task? ≠ some t) ∧
      (∀ i j x, i ≠ j → (s.worker i).processing = some x →
        (s.worker j).processing ≠ some x) ∧
      (∀ i x k, s.worker i = .running (.build x) k .enter →
        (image x).parent = none ∨ ∃ p, (image x).parent = some p ∧
          (s.status p = .skipped ∨ .ended (.build p) true ∈ s.log)) := by
  have hacc := account hprep.linked images.distinct hr
  refine ⟨fun x => hacc.once _, ?_, ?_, ?_⟩
  · intro i j t hij hti htj
    exact hacc.task_unique hr hij hti htj
  · intro i j x hij hxi hxj
    exact hacc.processing_unique hr hij hxi hxj
  · intro i x k hpc
    exact hacc.entered (issued_of_running hr hpc)

/-! ## A small run

The three images of the sample list with `base` skipped: the only root is
`nova`, and one build worker enters its builder. -/

/-- One build worker, one push worker and one retry. -/
def sampleBuildConf : Conf where
  retries := 1
  push := true
  threads := 1
  pushThreads := 1
  engine := .podman
  squash := false
  debianArch := "amd64"
  sha256 := fun _ => ""

theorem build_discipline_sample :
    ∃ s, Reachable (step sampleBuildConf sampleImage) (initial sampleImage sampleImages.refs) s ∧
      s.worker 0 = .running (.build 1) 0 .enter ∧
      (∀ x, (issued s.log).count (.build x) ≤ 1) ∧
      (∀ i j t, i ≠ j → (s.worker i).task? = some t → (s.worker j).task? ≠ some t) ∧
      (∀ i j x, i ≠ j → (s.worker i).processing = some x →
        (s.worker j).processing ≠ some x) ∧
      (∀ i x k, s.worker i = .running (.build x) k .enter →
        (sampleImage x).parent = none ∨ ∃ p, (sampleImage x).parent = some p ∧
          (s.status p = .skipped ∨ .ended (.build p) true ∈ s.log)) := by
  obtain ⟨s, hr, hpc⟩ := exists_reachable (step sampleBuildConf sampleImage)
    (s := initial sampleImage sampleImages.refs) [.worker 0 .none, .worker 0 .none]
    (f := fun s => s.worker 0) (b := .running (.build 1) 0 .enter) (by decide)
  exact ⟨s, hr, hpc, build_discipline sampleImage_prepared hr⟩

end Kolla.Build
