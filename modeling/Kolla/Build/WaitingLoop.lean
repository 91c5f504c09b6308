import Kolla.Build.Discipline

/-!
# When the main thread leaves its waiting loop

The loop reads `build_queue.unfinished_tasks` and, when that is zero,
`push_queue.unfinished_tasks`, while the workers go on.  The counters of
the two queues are never read together, so the order of the reads matters.

* `Counted`: before the tombstones, the counter of a queue is the number
  of its elements and of the workers that have a task from it.
* A worker puts the followups before `task_done`, and nobody but a build
  worker puts anything into the build queue.  So a build queue without
  unfinished tasks stays without (`BuildIdle`), and this is what the second
  read relies on.
* `Drained`: no task is queued or in the hands of a worker.  Nothing but
  tombstones moves afterwards.

`Phase` puts the three together, by what the main thread is doing.
-/

namespace Kolla.Build

open Kolla.Lib

variable {ι : Type} [DecidableEq ι]

/-! ## The counters before the tombstones -/

section Counters

variable {conf : Conf} {image : Heap ι} {images : List ι} {s s' : Sys ι} {i : ℕ}

/-- Whether worker `i` has a task from the queue of a kind. -/
def busyAt (conf : Conf) (kind : Kind) (i : ℕ) (pc : WorkerPc ι) : ℕ :=
  if workerKind conf i = kind ∧ pc.task?.isSome = true then 1 else 0

/-- How many workers have a task from the queue of a kind. -/
def Sys.busy (conf : Conf) (s : Sys ι) (kind : Kind) : ℕ :=
  ∑ i ∈ Finset.range conf.workers, busyAt conf kind i (s.worker i)

/-- There are no tombstones, and the counters count the elements and the
busy workers. -/
structure Counted (conf : Conf) (s : Sys ι) : Prop where
  items : ∀ kind, .tombstone ∉ (s.queue kind).items
  alive : ∀ i, s.worker i ≠ .tombstone ∧ s.worker i ≠ .dead
  unfinished : ∀ kind,
    (s.queue kind).unfinished = (s.queue kind).items.length + s.busy conf kind

omit [DecidableEq ι] in
/-- A step of worker `i` keeps the counters right, when the change of each
counter is the change of its queue and of that worker. -/
theorem Counted.of_update (h : Counted conf s) (hi : i < conf.workers) {pc : WorkerPc ι}
    (hw : s'.worker = Function.update s.worker i pc)
    (hitems : ∀ kind, .tombstone ∉ (s'.queue kind).items)
    (halive : pc ≠ .tombstone ∧ pc ≠ .dead)
    (hcount : ∀ kind, (s.queue kind).unfinished
        = (s.queue kind).items.length + s.busy conf kind →
      busyAt conf kind i (s.worker i) ≤ s.busy conf kind →
      (s'.queue kind).unfinished + busyAt conf kind i (s.worker i)
        = (s'.queue kind).items.length + s.busy conf kind + busyAt conf kind i pc) :
    Counted conf s' where
  items := hitems
  alive j := by
    rw [hw]
    by_cases hj : j = i
    · rw [hj, Function.update_self]
      exact halive
    · rw [Function.update_of_ne hj]
      exact h.alive j
  unfinished kind := by
    have hsum := sum_update hi (busyAt conf kind) s.worker pc
    have hle := le_sum hi fun j => busyAt conf kind j (s.worker j)
    have hkind := hcount kind (h.unfinished kind) hle
    rw [Sys.busy] at hkind
    rw [Sys.busy, hw]
    omega

omit [DecidableEq ι] in
/-- A step of worker `i` at its own queue: the other counter is not concerned. -/
theorem Counted.of_queue (h : Counted conf s) (hi : i < conf.workers) {pc : WorkerPc ι}
    {q : TaskQueue ι} (hw : s'.worker = Function.update s.worker i pc)
    (hqueue : ∀ kind, s'.queue kind = if kind = workerKind conf i then q else s.queue kind)
    (hitems : .tombstone ∉ q.items) (halive : pc ≠ .tombstone ∧ pc ≠ .dead)
    (hcount : ∀ n, (s.queue (workerKind conf i)).unfinished
        = (s.queue (workerKind conf i)).items.length + n →
      (if (s.worker i).task?.isSome = true then 1 else 0) ≤ n →
      q.unfinished + (if (s.worker i).task?.isSome = true then 1 else 0)
        = q.items.length + n + if pc.task?.isSome = true then 1 else 0) :
    Counted conf s' := by
  refine h.of_update hi hw (fun kind => ?_) halive fun kind hkind hle => ?_
  · rw [hqueue]
    split
    · exact hitems
    · exact h.items kind
  · rw [hqueue]
    by_cases hown : kind = workerKind conf i
    · subst hown
      simp only [busyAt, true_and, if_true] at hle ⊢
      exact hcount _ hkind hle
    · simp only [busyAt, Ne.symm hown, false_and, if_false, if_neg hown, Nat.add_zero]
      exact hkind

omit [DecidableEq ι] in
theorem task?_workerPc (next : RunNext) (t : Task ι) (k : ℕ) :
    (next.workerPc t k).task? = some t := by
  cases next <;> rfl

/-- The counters stay right. -/
theorem Counted.preserved (h : Counted conf s) (hi : i < conf.workers)
    (hmove : WorkerMove conf image s i s') : Counted conf s' := by
  -- a step that leaves the queues alone and keeps the task
  have hlocal : ∀ {pc : WorkerPc ι}, s'.worker = Function.update s.worker i pc →
      (∀ kind, s'.queue kind = s.queue kind) → pc.task?.isSome = (s.worker i).task?.isSome →
      pc ≠ .tombstone ∧ pc ≠ .dead → Counted conf s' := by
    intro pc hw hqueue htask halive
    refine h.of_update hi hw (fun kind => hqueue kind ▸ h.items kind) halive ?_
    intro kind hcount hle
    rw [hqueue, hcount, busyAt, busyAt, htask]
  cases hmove with
  | @take t items hpc hq =>
    refine h.of_queue hi (by simp; rfl) (fun kind => by rw [goto_queue, queue_setQueue]) ?_ (by simp)
      fun n hn hle => ?_
    · have hnone := h.items (workerKind conf i)
      rw [hq] at hnone
      exact fun hmem => hnone (List.mem_cons_of_mem _ hmem)
    · rw [hq, List.length_cons] at hn
      simp only [hpc, WorkerPc.task?, Option.isSome, hn]
      simp
      omega
  | @takeTombstone items hpc hq =>
    exact absurd (hq ▸ List.mem_cons_self) (h.items (workerKind conf i))
  | putTombstone hpc => exact absurd hpc (h.alive i).1
  | begin hpc hk =>
    exact hlocal rfl (fun kind => by simp) (by rw [hpc]; rfl) (by simp)
  | exhaust hpc hk =>
    exact hlocal rfl (fun kind => by simp) (by rw [hpc]; rfl) (by simp)
  | @run t k pc e hpc he =>
    have htask : (e.next.workerPc t k).task?.isSome = (s.worker i).task?.isSome := by
      rw [task?_workerPc, hpc]
      rfl
    have halive : e.next.workerPc t k ≠ .tombstone ∧ e.next.workerPc t k ≠ .dead := by
      cases e.next <;> exact ⟨by rintro ⟨⟩, by rintro ⟨⟩⟩
    rcases he.put_eq with hput | ⟨x, rfl, hput⟩
    · refine hlocal rfl (fun kind => ?_) htask halive
      cases kind <;> simp [RunEffect.apply, Sys.queue, hput]
    · refine h.of_update hi rfl ?_ halive ?_
      · intro kind
        have hnone := h.items kind
        cases kind <;> simpa [RunEffect.apply, Sys.queue, hput, TaskQueue.put] using hnone
      · intro kind hcount hle
        rw [busyAt, busyAt, htask]
        cases kind with
        | build =>
          simp only [Sys.queue] at hcount
          simp only [RunEffect.apply, Sys.queue, hcount]
        | push =>
          simp only [Sys.queue] at hcount
          simp only [RunEffect.apply, Sys.queue, hput, TaskQueue.put, List.length_append,
            List.length_singleton, hcount]
          omega
  | follow hpc =>
    exact hlocal rfl (fun kind => by simp) (by rw [hpc]; rfl) (by simp)
  | giveUp hpc =>
    exact hlocal rfl (fun kind => by simp) (by rw [hpc]; rfl) (by simp)
  | @put t next rest hpc =>
    refine h.of_queue hi (by simp; rfl) (fun kind => by rw [goto_queue, queue_setQueue]) ?_ (by simp)
      fun n hn hle => ?_
    · simpa [TaskQueue.put] using h.items (workerKind conf i)
    · simp only [hpc, WorkerPc.task?, Option.isSome, if_true, TaskQueue.put, List.length_append,
        List.length_singleton, hn]
      omega
  | allPut hpc =>
    exact hlocal rfl (fun kind => by simp) (by rw [hpc]; rfl) (by simp)
  | @finish t hpc =>
    refine h.of_queue hi (by simp; rfl)
      (fun kind => by rw [goto_queue, emit_queue, queue_setQueue]) ?_ (by simp) fun n hn hle => ?_
    · exact h.items (workerKind conf i)
    · simp only [hpc, WorkerPc.task?, Option.isSome, TaskQueue.taskDone] at hle ⊢
      simp at hle ⊢
      omega

omit [DecidableEq ι] in
theorem length_foldl_put (tasks : List (Task ι)) (q : TaskQueue ι) :
    (tasks.foldl (fun q t => q.put (.task t)) q).items = q.items ++ tasks.map .task ∧
      (tasks.foldl (fun q t => q.put (.task t)) q).unfinished = q.unfinished + tasks.length := by
  induction tasks generalizing q with
  | nil => simp
  | cons t tasks ih =>
    rw [List.foldl_cons]
    refine ⟨(ih _).1.trans ?_, (ih _).2.trans ?_⟩
    · simp [TaskQueue.put]
    · simp [TaskQueue.put]
      omega

omit [DecidableEq ι] in
theorem Counted.start : Counted conf (initial image images) := by
  have hfold := length_foldl_put (initialTasks image images) ⟨[], 0⟩
  refine ⟨?_, fun i => ⟨by rintro ⟨⟩, by rintro ⟨⟩⟩, ?_⟩
  · intro kind
    cases kind with
    | build =>
      change Item.tombstone ∉ (buildQueue image images).items
      rw [buildQueue, hfold.1]
      simp
    | push => exact List.not_mem_nil
  · intro kind
    have hbusy : (initial image images).busy conf kind = 0 :=
      Finset.sum_eq_zero fun i _ => by simp [busyAt, initial, WorkerPc.task?]
    rw [hbusy]
    cases kind with
    | build =>
      change (buildQueue image images).unfinished = (buildQueue image images).items.length + 0
      rw [buildQueue, hfold.1, hfold.2]
      simp
    | push => rfl

omit [DecidableEq ι] in
/-- A counter that is zero: the queue is empty and its workers are
idle. -/
theorem Counted.idle_of_zero (h : Counted conf s)
    (hout : ∀ i, conf.workers ≤ i → s.worker i = .idle) {kind : Kind}
    (hzero : (s.queue kind).unfinished = 0) :
    (s.queue kind).items = [] ∧ ∀ i, workerKind conf i = kind → s.worker i = .idle := by
  have hcount := h.unfinished kind
  refine ⟨List.length_eq_zero_iff.mp (by omega), fun i hi => ?_⟩
  by_cases hlt : i < conf.workers
  · have hle := le_sum hlt fun j => busyAt conf kind j (s.worker j)
    have hbusy : busyAt conf kind i (s.worker i) = 0 := by
      rw [Sys.busy] at hcount
      omega
    have htask : (s.worker i).task? = none := by
      rw [busyAt] at hbusy
      simpa [hi] using hbusy
    obtain ⟨htomb, hdead⟩ := h.alive i
    cases hpc : s.worker i with
    | idle => rfl
    | tombstone => exact absurd hpc htomb
    | dead => exact absurd hpc hdead
    | _ =>
      rw [hpc] at htask
      cases htask
  · exact hout i (by omega)

end Counters

/-! ## From the first read to the tombstones -/

section Phases

variable {conf : Conf} {image : Heap ι} {images : List ι} {s s' : Sys ι} {i : ℕ}

/-- The build queue is empty and the build workers are idle. -/
def BuildIdle (conf : Conf) (s : Sys ι) : Prop :=
  s.buildQueue.items = [] ∧ ∀ i, workerKind conf i = .build → s.worker i = .idle

/-- No task is queued or in the hands of a worker. -/
def Drained (s : Sys ι) : Prop :=
  (∀ kind, (s.queue kind).tasks = []) ∧ ∀ i, (s.worker i).task? = none

/-- What holds while the main thread is at a point of its program. -/
def Phase (conf : Conf) (s : Sys ι) : Prop :=
  match s.main with
  | .readBuild => Counted conf s
  | .readPush => Counted conf s ∧ BuildIdle conf s
  | .tombPush => Drained s
  | .tombBuild => Drained s
  | .joining => Drained s

/-- Idle build workers stay idle, whatever the push workers do. -/
theorem BuildIdle.preserved (h : BuildIdle conf s)
    (hmove : WorkerMove conf image s i s') : BuildIdle conf s' := by
  obtain ⟨hitems, hidle⟩ := h
  -- the worker that moves serves the push queue
  have hkind : workerKind conf i = .push := by
    cases hi : workerKind conf i with
    | push => rfl
    | build =>
      have hpc := hidle i hi
      cases hmove with
      | take _ hq | takeTombstone _ hq =>
        rw [hi] at hq
        exact absurd (hq.symm.trans hitems) (by simp)
      | putTombstone h | begin h | exhaust h | run h | follow h | giveUp h | put h | allPut h
      | finish h => exact absurd (h.symm.trans hpc) (by simp)
  refine ⟨?_, fun j hj => ?_⟩
  · cases hmove with
    | take | takeTombstone | putTombstone | finish | put => rw [hkind]; exact hitems
    | begin | exhaust | run | follow | giveUp | allPut => exact hitems
  · rw [hmove.worker_frame, hidle j hj]
    rintro rfl
    rw [hkind] at hj
    cases hj

/-- After the loop only tombstones move, and nothing is logged. -/
theorem Drained.preserved (h : Drained s) (hmove : WorkerMove conf image s i s') :
    Drained s' ∧ s'.log = s.log := by
  obtain ⟨htasks, htask⟩ := h
  have hworker : ∀ {pc : WorkerPc ι}, pc.task? = none → ∀ j,
      (Function.update s.worker i pc j).task? = none := by
    intro pc hpc j
    by_cases hj : j = i
    · rw [hj, Function.update_self]
      exact hpc
    · rw [Function.update_of_ne hj]
      exact htask j
  cases hmove with
  | take _ hq =>
    have hcons := tasks_eq_cons hq
    rw [htasks] at hcons
    cases hcons
  | @takeTombstone items hpc hq =>
    refine ⟨⟨fun kind => ?_, fun j => ?_⟩, by simp⟩
    · rw [goto_queue, queue_setQueue]
      split
      · exact (tasks_eq_tail hq).symm.trans (htasks _)
      · exact htasks kind
    · rw [goto_worker, setQueue_worker]
      exact hworker rfl j
  | putTombstone hpc =>
    refine ⟨⟨fun kind => ?_, fun j => ?_⟩, by simp⟩
    · rw [goto_queue, queue_setQueue]
      split
      · rw [tasks_put_tombstone]
        exact htasks _
      · exact htasks kind
    · rw [goto_worker, setQueue_worker]
      exact hworker rfl j
  | begin h | exhaust h | run h | follow h | giveUp h | put h | allPut h | finish h =>
    have hnone := htask i
    rw [h] at hnone
    cases hnone

theorem Drained.main (h : Drained s) (hmove : MainMove s s') : Drained s' := by
  obtain ⟨htasks, htask⟩ := h
  refine ⟨fun kind => ?_, by rw [hmove.frame.2.1]; exact htask⟩
  cases hmove with
  | sleep | buildDone | again | leave => exact htasks kind
  | tombPush | tombBuild =>
    have hbuild : s.buildQueue.tasks = [] := htasks .build
    have hpush : s.pushQueue.tasks = [] := htasks .push
    cases kind <;> simp [Sys.queue, hbuild, hpush]

/-- In every state of a run, the phase of the main thread says what is
left. -/
theorem phase (hr : Reachable (step conf image) (initial image images) s) : Phase conf s := by
  refine hr.invariant (P := Phase conf) Counted.start ?_
  intro u a v hu hphase hstep
  have hout : ∀ i, conf.workers ≤ i → u.worker i = .idle := by
    intro i hi
    by_contra hne
    have := lt_workers hu hne
    omega
  rcases step_cases hstep with ⟨i, hi, hmove⟩ | hmove
  · have hmain : v.main = u.main := by
      cases hmove with
      | take | takeTombstone | putTombstone | put | finish => simp
      | begin | exhaust | run | follow | giveUp | allPut => rfl
    rw [Phase, hmain]
    rw [Phase] at hphase
    cases hm : u.main <;> rw [hm] at hphase
    · exact hphase.preserved hi hmove
    · exact ⟨hphase.1.preserved hi hmove, hphase.2.preserved hmove⟩
    · exact (hphase.preserved hmove).1
    · exact (hphase.preserved hmove).1
    · exact (hphase.preserved hmove).1
  · rw [Phase] at hphase
    cases hmove with
    | sleep hm hq =>
      rw [hm] at hphase
      rw [Phase, hm]
      exact hphase
    | buildDone hm hq =>
      rw [hm] at hphase
      exact ⟨⟨hphase.items, hphase.alive, hphase.unfinished⟩,
        @Counted.idle_of_zero _ _ _ hphase hout .build hq⟩
    | again hm hq =>
      rw [hm] at hphase
      exact ⟨hphase.1.items, hphase.1.alive, hphase.1.unfinished⟩
    | leave hm hq =>
      rw [hm] at hphase
      obtain ⟨hcounted, hitems, hidle⟩ := hphase
      obtain ⟨hitems', hidle'⟩ := @Counted.idle_of_zero _ _ _ hcounted hout .push hq
      refine ⟨fun kind => ?_, fun i => ?_⟩
      · cases kind with
        | build => exact congrArg (List.filterMap Item.task?) hitems
        | push => exact congrArg (List.filterMap Item.task?) hitems'
      · have hpc : u.worker i = .idle := by
          cases hkind : workerKind conf i with
          | build => exact hidle i hkind
          | push => exact hidle' i hkind
        change (u.worker i).task? = none
        rw [hpc]
        rfl
    | tombPush hm =>
      rw [hm] at hphase
      exact hphase.main (.tombPush hm)
    | tombBuild hm =>
      rw [hm] at hphase
      exact hphase.main (.tombBuild hm)

end Phases

/-- The main thread has left its waiting loop. -/
def MainPc.left : MainPc → Bool
  | .readBuild => false
  | .readPush => false
  | .tombPush => true
  | .tombBuild => true
  | .joining => true

section Left

variable {conf : Conf} {image : Heap ι} {images : List ι} {s s' : Sys ι}

omit [DecidableEq ι] in
theorem Phase.drained (h : Phase conf s) (hm : s.main.left = true) : Drained s := by
  rw [Phase] at h
  cases hpc : s.main <;> rw [hpc] at h hm <;> first | exact h | cases hm

/-- Drained queues stay drained, and nothing happens any more. -/
theorem Drained.forever (h : Drained s) (hr : Reachable (step conf image) s s') :
    Drained s' ∧ s'.log = s.log := by
  refine hr.invariant (P := fun s' => Drained s' ∧ s'.log = s.log) ⟨h, rfl⟩ ?_
  intro u a v _ hu hstep
  rcases step_cases hstep with ⟨i, hi, hmove⟩ | hmove
  · obtain ⟨hdrained, hlog⟩ := hu.1.preserved hmove
    exact ⟨hdrained, hlog.trans hu.2⟩
  · exact ⟨hu.1.main hmove, hmove.frame.2.2.1.trans hu.2⟩

/-- In a drained state every task that was issued is done. -/
theorem Drained.retired (h : Drained s)
    (hr : Reachable (step conf image) (initial image images) s) (t : Task ι) :
    (issued s.log).count t = (retired s.log).count t ∧
      (started s.log).count t = (retired s.log).count t := by
  have hbal := balance hr t
  have hnone : ∀ i, (s.worker i).waiting = [] ∧ (s.worker i).tried = [] ∧
      (s.worker i).spent = [] := by
    intro i
    have htask := h.2 i
    cases hpc : s.worker i with
    | idle | tombstone | dead => exact ⟨rfl, rfl, rfl⟩
    | _ =>
      rw [hpc] at htask
      cases htask
  have hbuild : s.buildQueue.tasks = [] := h.1 .build
  have hpush : s.pushQueue.tasks = [] := h.1 .push
  simp only [Sys.waitingCount, Sys.queuedCount, Sys.triedCount, Sys.spentCount, hbuild, hpush,
    (hnone _).1, (hnone _).2.1, (hnone _).2.2, List.count_nil, Finset.sum_const_zero] at hbal
  omega

end Left

/-- When the main thread leaves its loop: no task is queued or in the hands
of a worker; this stays so, and nothing is logged any more; every task
object that was issued has been attempted, and so has every task that was
ever in a queue. -/
theorem leave_drained {conf : Conf} {image : Heap ι} {images : List ι} {s : Sys ι}
    (hr : Reachable (step conf image) (initial image images) s) (hm : s.main.left = true) :
    Drained s ∧
      (∀ s', Reachable (step conf image) s s' → Drained s' ∧ s'.log = s.log) ∧
      (∀ t, (issued s.log).count t = (started s.log).count t) ∧
      (∀ u, Reachable (step conf image) (initial image images) u →
        Reachable (step conf image) u s →
        ∀ kind, ∀ t ∈ (u.queue kind).tasks, .attempt t 0 ∈ s.log) := by
  have hdrained := (phase hr).drained hm
  have hcount : ∀ t, (issued s.log).count t = (started s.log).count t := by
    intro t
    obtain ⟨hissued, hstarted⟩ := hdrained.retired hr t
    omega
  refine ⟨hdrained, fun s' hs' => hdrained.forever hs', hcount, ?_⟩
  intro u hu hus kind t ht
  have hissued : t ∈ issued u.log := by
    have hpos : 0 < u.queuedCount t := by
      have := List.count_pos_iff.mpr ht
      cases kind <;> simp only [Sys.queue] at this <;> rw [Sys.queuedCount] <;> omega
    have := (balance hu t).1
    rw [Sys.waitingCount] at this
    exact List.count_pos_iff.mp (by omega)
  have hlater : t ∈ issued s.log := mem_issued.mpr (mem_log_of_reachable hus (mem_issued.mp hissued))
  rw [← mem_started, ← List.count_pos_iff, ← hcount]
  exact List.count_pos_iff.mpr hlater

/-! ## A small run

The only build attempt of `nova` succeeds and so does its push. -/

/-- An attempt in which nothing fails. -/
def goodAttempt : AttemptOutcome where
  source := ⟨.response 200 [], .cloned, true, true⟩
  plugins := ⟨fun _ => ⟨.response 200 [], .cloned, true, true⟩, fun _ => .extracted, .created, true⟩
  additions :=
    ⟨fun _ => ⟨.response 200 [], .cloned, true, true⟩, fun _ => .extracted, .created, true⟩
  client := true
  stream := [.output]
  streamEnds := true
  squash := ⟨true, [], true⟩

/-- A push in which nothing fails. -/
def goodPush : PushOutcome := ⟨[.stream], none⟩

/-- Steps of one worker. -/
def workerSteps (i n : ℕ) : List Action := List.replicate n (.worker i .none)

/-- The whole run: worker `0` builds, worker `1` pushes. -/
def sampleActions : List Action :=
  workerSteps 0 5 ++ [.worker 0 (.attempt goodAttempt)] ++ workerSteps 0 11 ++
    workerSteps 1 2 ++ [.worker 1 (.push goodPush)] ++ workerSteps 1 4 ++ [.main, .main]

theorem leave_drained_sample :
    ∃ s, Reachable (step sampleBuildConf sampleImage) (initial sampleImage sampleImages.refs) s ∧
      s.status 1 = .built ∧ Drained s ∧
      (∀ s', Reachable (step sampleBuildConf sampleImage) s s' → Drained s' ∧ s'.log = s.log) ∧
      (∀ t, (issued s.log).count t = (started s.log).count t) ∧
      (∀ u, Reachable (step sampleBuildConf sampleImage)
          (initial sampleImage sampleImages.refs) u →
        Reachable (step sampleBuildConf sampleImage) u s →
        ∀ kind, ∀ t ∈ (u.queue kind).tasks, .attempt t 0 ∈ s.log) := by
  obtain ⟨s, hr, hs⟩ := exists_reachable (step sampleBuildConf sampleImage)
    (s := initial sampleImage sampleImages.refs) sampleActions
    (f := fun s => (s.main, s.status 1)) (b := (.tombPush, .built)) (by decide)
  rw [Prod.mk.injEq] at hs
  exact ⟨s, hr, hs.2, leave_drained hr (by rw [hs.1]; rfl)⟩

end Kolla.Build
