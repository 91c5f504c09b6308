import Kolla.Lib.Potential
import Kolla.Build.PushRetries

/-!
# The run comes to an end

The waiting loop of the main thread polls, so a run can be as long as one
likes.  What is bounded is the work of the workers.

* Every task that can still be issued, every task in a queue and every
  worker has a number of steps that it can still cause, and a step of a
  worker uses one of them up (`WorkerMove.spends`).  A task is issued once,
  so the sum is a potential, and `work_bounded` gives the bound in terms of
  the images, the attempts and the workers.
* A worker that cannot take a step is dead or waits at an empty queue
  (`enabled_cases`).  If this holds of all workers, the counters are zero and
  the main thread goes on, or the tombstones have reached everybody
  (`progress`).

So the run can be brought to its end from every state (`run_completes`), and
a run without end leaves a worker out that could go on (`endless_starves`).
-/

namespace Kolla.Build

open Kolla.Lib

variable {ι : Type} [DecidableEq ι]

/-! ## The steps that are left -/

section Work

/-- The steps of an attempt after this one. -/
def RunPc.stepsLeft : RunPc → ℕ
  | .enter => 5
  | .parentCheck => 4
  | .refuse => 3
  | .start => 3
  | .work => 2
  | .verdict => 1

/-- The steps of the attempts from the `k`-th on. -/
def Conf.attemptsWork (conf : Conf) (k : ℕ) : ℕ := (conf.retries + 1 - k) * 6

/-- The steps that a task in a queue can cause. -/
def Conf.taskWork (conf : Conf) : ℕ := conf.attemptsWork 0 + 4

/-- The steps that a worker can still take without another task from its
queue.  A task that it is going to put counts, with the step that puts it. -/
def WorkerPc.stepsLeft (conf : Conf) : WorkerPc ι → ℕ
  | .idle => 2
  | .tombstone => 1
  | .dead => 0
  | .attempt _ k => conf.attemptsWork k + 5
  | .running _ k pc => conf.attemptsWork (k + 1) + 5 + pc.stepsLeft
  | .ended _ true => 5
  | .ended _ false => 4
  | .putting _ rest => rest.length * (conf.taskWork + 1) + 4
  | .finishing _ => 3

/-- How many tasks are in the queues. -/
def Sys.queued (s : Sys ι) : ℕ := s.buildQueue.tasks.length + s.pushQueue.tasks.length

/-- The steps that the tasks in the queues and the workers can cause. -/
def Sys.load (conf : Conf) (s : Sys ι) : ℕ :=
  s.queued * conf.taskWork + ∑ i ∈ Finset.range conf.workers, (s.worker i).stepsLeft conf

/-- The tasks that there can be. -/
def allTasks (images : List ι) : Finset (Task ι) :=
  (images.flatMap fun x => [.build x, .pushInto x, .push x]).toFinset

/-- The tasks that were not issued. -/
def unissued (images : List ι) (log : List (Event ι)) : Finset (Task ι) :=
  (allTasks images).filter (· ∉ issued log)

/-- The steps that can still be taken. -/
def Sys.potential (conf : Conf) (images : List ι) (s : Sys ι) : ℕ :=
  (unissued images s.log).card * (conf.taskWork + 1) + s.load conf

/-- The bound on the steps of the workers. -/
def workBound (conf : Conf) (images : List ι) : ℕ :=
  3 * images.length * (6 * (conf.retries + 1) + 5) + 2 * conf.workers

/-- A step of a worker. -/
def Action.isWork : Action → Bool
  | .worker _ _ => true
  | .main => false

end Work

/-! ## What a step uses up -/

section Spending

variable {conf : Conf} {image : Heap ι} {s s' : Sys ι} {i : ℕ} {t : Task ι}

omit [DecidableEq ι] in
theorem attemptsWork_succ {k : ℕ} (hk : k < conf.retries + 1) :
    conf.attemptsWork k = conf.attemptsWork (k + 1) + 6 := by
  rw [Conf.attemptsWork, Conf.attemptsWork, ← Nat.succ_mul]
  congr 1
  omega

omit [DecidableEq ι] in
theorem queued_setQueue (kind : Kind) (q : TaskQueue ι) :
    (s.setQueue kind q).queued + (s.queue kind).tasks.length
      = s.queued + q.tasks.length := by
  cases kind <;> simp only [Sys.setQueue, Sys.queue, Sys.queued] <;> omega

omit [DecidableEq ι] in
@[simp] theorem queued_goto (pc : WorkerPc ι) : (s.goto i pc).queued = s.queued := rfl

omit [DecidableEq ι] in
@[simp] theorem queued_emit (events : List (Event ι)) : (s.emit events).queued = s.queued := rfl

omit [DecidableEq ι] in
/-- The load after a step of worker `i` that puts `n` tasks on its list or
on a queue. -/
theorem load_of_update (hi : i < conf.workers) {pc : WorkerPc ι} {n : ℕ}
    (hw : s'.worker = Function.update s.worker i pc)
    (hlt : s'.queued * conf.taskWork + pc.stepsLeft conf
      < s.queued * conf.taskWork + (s.worker i).stepsLeft conf + n * (conf.taskWork + 1)) :
    s'.load conf < s.load conf + n * (conf.taskWork + 1) := by
  have hsum := sum_update hi (fun _ pc => pc.stepsLeft conf) s.worker pc
  rw [Sys.load, Sys.load, hw]
  omega

omit [DecidableEq ι] in
/-- A step of worker `i` at its own queue. -/
theorem load_of_queue (hi : i < conf.workers) {pc : WorkerPc ι} {q : TaskQueue ι}
    (hw : s'.worker = Function.update s.worker i pc)
    (hq : s'.queued = (s.setQueue (workerKind conf i) q).queued)
    (hlt : q.tasks.length * conf.taskWork + pc.stepsLeft conf
      < (s.queue (workerKind conf i)).tasks.length * conf.taskWork
        + (s.worker i).stepsLeft conf) :
    s'.load conf < s.load conf + 0 * (conf.taskWork + 1) := by
  refine load_of_update hi hw ?_
  have hset := congrArg (· * conf.taskWork) (queued_setQueue (s := s) (workerKind conf i) q)
  simp only [Nat.add_mul] at hset
  rw [hq]
  omega

/-- A step inside `run` shortens the attempt. -/
theorem RunMove.work_lt {status : ι → Status} {k : ℕ} {pc : RunPc} {e : RunEffect ι}
    (h : RunMove conf image status t k pc e) :
    (e.next.workerPc t k).stepsLeft conf < (WorkerPc.running t k pc).stepsLeft conf := by
  cases h with
  | skip | enter | refused | passed | refuse | start | built | failed | pushInto | push | pushDone
  | pushFailed =>
    simp only [RunNext.workerPc, WorkerPc.stepsLeft, RunPc.stepsLeft]
    omega
  | work outcome =>
    obtain ⟨st, called, next, he, hnext⟩ := workEffect_eq conf image status _ k outcome
    rw [he]
    rcases hnext with rfl | rfl <;> simp only [RunNext.workerPc, WorkerPc.stepsLeft, RunPc.stepsLeft] <;> omega

/-- What a step inside `run` issues. -/
theorem RunMove.issued_eq {status : ι → Status} {k : ℕ} {pc : RunPc} {e : RunEffect ι}
    (h : RunMove conf image status t k pc e) : issued e.events = e.put.toList := by
  cases h with
  | work outcome =>
    obtain ⟨st, called, next, he, -⟩ := workEffect_eq conf image status _ k outcome
    rw [he]
    cases called <;> rfl
  | _ => rfl

/-- A step of a worker uses up a step: the load becomes less, except for the
tasks that the step issues. -/
theorem WorkerMove.spends (h : WorkerMove conf image s i s') (hi : i < conf.workers) :
    ∃ new, issued s'.log = new ++ issued s.log ∧
      s'.load conf < s.load conf + new.length * (conf.taskWork + 1) := by
  cases h with
  | @take t items hpc hq =>
    refine ⟨[], by simp, load_of_queue hi (by simp; rfl) rfl ?_⟩
    rw [tasks_eq_cons hq, List.length_cons, Nat.succ_mul, hpc]
    simp only [WorkerPc.stepsLeft, Conf.taskWork]
    omega
  | @takeTombstone items hpc hq =>
    refine ⟨[], by simp, load_of_queue hi (by simp; rfl) rfl ?_⟩
    rw [tasks_eq_tail hq, hpc]
    simp only [WorkerPc.stepsLeft]
    omega
  | putTombstone hpc =>
    refine ⟨[], by simp, load_of_queue hi (by simp; rfl) rfl ?_⟩
    rw [tasks_put_tombstone, hpc]
    simp only [WorkerPc.stepsLeft]
    omega
  | @begin t k hpc hk =>
    refine ⟨[], rfl, load_of_update hi rfl ?_⟩
    have := attemptsWork_succ hk
    rw [queued_goto, queued_emit, hpc]
    simp only [WorkerPc.stepsLeft, RunPc.stepsLeft]
    omega
  | exhaust hpc hk =>
    refine ⟨[], rfl, load_of_update hi rfl ?_⟩
    rw [queued_goto, hpc]
    simp only [WorkerPc.stepsLeft]
    omega
  | @run t k pc e hpc he =>
    have hlt := he.work_lt
    refine ⟨e.put.toList, ?_, load_of_update hi rfl ?_⟩
    · rw [RunEffect.apply, issued_append, he.issued_eq]
    · rw [hpc]
      rcases he.put_eq with hput | ⟨x, -, hput⟩
      · simp only [RunEffect.apply, Sys.queued, hput, Option.toList, List.length_nil]
        omega
      · simp only [RunEffect.apply, Sys.queued, hput, Option.toList, List.length_singleton,
          tasks_put_task, List.length_append, ← Nat.add_assoc, Nat.succ_mul]
        omega
  | @follow t hpc =>
    refine ⟨followups conf image s.status t, by simp, load_of_update hi rfl ?_⟩
    rw [queued_goto, queued_emit, hpc]
    simp only [WorkerPc.stepsLeft]
    omega
  | giveUp hpc =>
    refine ⟨[], rfl, load_of_update hi rfl ?_⟩
    rw [queued_goto, queued_emit, hpc]
    simp only [WorkerPc.stepsLeft]
    omega
  | @put t next rest hpc =>
    refine ⟨[], by simp, load_of_queue hi (by simp; rfl) rfl ?_⟩
    rw [tasks_put_task, hpc]
    simp only [WorkerPc.stepsLeft, List.length_append, List.length_cons, List.length_nil,
      Nat.succ_mul]
    omega
  | allPut hpc =>
    refine ⟨[], rfl, load_of_update hi rfl ?_⟩
    rw [queued_goto, hpc]
    simp only [WorkerPc.stepsLeft]
    omega
  | @finish t hpc =>
    refine ⟨[], by simp, load_of_queue hi (by simp; rfl) rfl ?_⟩
    rw [tasks_taskDone, hpc]
    simp only [WorkerPc.stepsLeft]
    omega

omit [DecidableEq ι] in
/-- The main thread leaves the tasks and the workers alone. -/
theorem MainMove.load_eq (h : MainMove s s') : s'.load conf = s.load conf := by
  cases h with
  | sleep | buildDone | again | leave => rfl
  | tombPush | tombBuild => rw [Sys.load, Sys.load, Sys.queued, Sys.queued, tasks_put_tombstone]

end Spending

/-! ## The bound on the work -/

section Bound

variable {conf : Conf} {image : Heap ι} {images : ImageList ι} {s s' : Sys ι} {i : ℕ}

theorem mem_allTasks {images : List ι} {t : Task ι} : t ∈ allTasks images ↔ t.image ∈ images := by
  rw [allTasks, List.mem_toFinset, List.mem_flatMap]
  cases t <;> simp [Task.image]

theorem card_allTasks (images : List ι) : (allTasks images).card ≤ 3 * images.length := by
  refine (List.toFinset_card_le _).trans (Nat.le_of_eq ?_)
  simp [Nat.mul_comm]

/-- The tasks that are issued are taken from those that were not. -/
theorem card_unissued {images : List ι} {log log' : List (Event ι)} {new : List (Task ι)}
    (hlog : issued log' = new ++ issued log) (hnodup : (issued log').Nodup)
    (hin : ∀ t ∈ issued log', t.image ∈ images) :
    (unissued images log').card + new.length ≤ (unissued images log).card := by
  rw [hlog] at hnodup hin
  obtain ⟨hnew, -, hdisj⟩ := List.nodup_append.mp hnodup
  have hsub : new.toFinset ⊆ unissued images log := by
    intro t ht
    rw [List.mem_toFinset] at ht
    exact Finset.mem_filter.mpr ⟨mem_allTasks.mpr (hin t (List.mem_append_left _ ht)),
      fun hold => hdisj t ht t hold rfl⟩
  have hrest : unissued images log' ⊆ unissued images log \ new.toFinset := by
    intro t ht
    obtain ⟨hall, hissued⟩ := Finset.mem_filter.mp ht
    rw [hlog, List.mem_append, not_or] at hissued
    rw [Finset.mem_sdiff, List.mem_toFinset]
    exact ⟨Finset.mem_filter.mpr ⟨hall, hissued.2⟩, hissued.1⟩
  have hle := Finset.card_le_card hrest
  have hsdiff := Finset.card_sdiff_add_card_eq_card hsub
  rw [List.toFinset_card_of_nodup hnew] at hsdiff
  omega

/-- A task is issued once, and is one of the tasks that there can be. -/
theorem issued_once (hl : Linked image images.refs)
    (hr : Reachable (step conf image) (initial image images.refs) s) :
    (issued s.log).Nodup ∧ ∀ t ∈ issued s.log, t.image ∈ images.refs := by
  have hacc := account hl images.distinct hr
  exact ⟨List.nodup_iff_count_le_one.mpr hacc.once,
    fun t ht => mem_of_issued hl hr (hacc.build_issued hr ht)⟩

/-- Where the load becomes less, except for the tasks that are issued, the
potential becomes less. -/
theorem potential_lt {images : List ι} {new : List (Task ι)}
    (hlog : issued s'.log = new ++ issued s.log) (hnodup : (issued s'.log).Nodup)
    (hin : ∀ t ∈ issued s'.log, t.image ∈ images)
    (hload : s'.load conf < s.load conf + new.length * (conf.taskWork + 1)) :
    s'.potential conf images < s.potential conf images := by
  have hmul := Nat.mul_le_mul_right (conf.taskWork + 1) (card_unissued hlog hnodup hin)
  rw [Nat.add_mul] at hmul
  rw [Sys.potential, Sys.potential]
  omega

/-- A step of a worker uses up the potential. -/
theorem potential_worker (hl : Linked image images.refs)
    (hr : Reachable (step conf image) (initial image images.refs) s) {choice : Choice}
    (hstep : step conf image s (.worker i choice) = some s') :
    s'.potential conf images.refs < s.potential conf images.refs := by
  obtain ⟨hnodup, hin⟩ := issued_once hl (hr.tail hstep)
  simp only [step] at hstep
  split at hstep
  · rename_i hi
    obtain ⟨new, hlog, hload⟩ := (workerStep_move hstep).spends hi
    exact potential_lt hlog hnodup hin hload
  · cases hstep

omit [DecidableEq ι] in
theorem potential_main [DecidableEq ι] (h : MainMove s s') :
    s'.potential conf images.refs = s.potential conf images.refs := by
  rw [Sys.potential, Sys.potential, h.load_eq, h.frame.2.2.1]

/-- The work of the workers is paid from the potential. -/
theorem spends (hl : Linked image images.refs) :
    Spends (step conf image) (Reachable (step conf image) (initial image images.refs))
      Action.isWork (Sys.potential conf images.refs) where
  preserved _ _ _ hr hstep := hr.tail hstep
  works s a s' hr hstep hwork := by
    cases a with
    | worker i choice => exact potential_worker hl hr hstep
    | main => cases hwork
  rests s a s' hr hstep hwork := by
    cases a with
    | worker i choice => cases hwork
    | main => exact Nat.le_of_eq (potential_main (mainStep_move hstep))

theorem potential_initial : (initial image images.refs).potential conf images.refs
    ≤ workBound conf images.refs := by
  have hissued : issued (initial image images.refs).log = initialTasks image images.refs :=
    issued_map _
  have hqueued : (initial image images.refs).queued = (initialTasks image images.refs).length := by
    change (buildQueue image images.refs).tasks.length + 0 = _
    rw [tasks_buildQueue]
    rfl
  have hcard : (unissued images.refs (initial image images.refs).log).card
      + (initialTasks image images.refs).length ≤ 3 * images.refs.length := by
    have hnodup : (initialTasks image images.refs).Nodup :=
      (images.distinct.filter _).map fun a b h => Task.build.inj h
    refine (@card_unissued _ _ _ [] _ _ (hissued.trans (List.append_nil _).symm)
      (by rw [hissued]; exact hnodup) fun t ht => ?_).trans
      ((Finset.card_filter_le _ _).trans (card_allTasks images.refs))
    rw [hissued] at ht
    obtain ⟨x, hx, -, rfl⟩ := mem_initialTasks.mp ht
    exact hx
  have hidle : ∑ i ∈ Finset.range conf.workers,
      ((initial image images.refs).worker i).stepsLeft conf = 2 * conf.workers := by
    change ∑ _i ∈ Finset.range conf.workers, 2 = _
    rw [Finset.sum_const, Finset.card_range, smul_eq_mul, Nat.mul_comm]
  have htask : conf.taskWork + 1 = 6 * (conf.retries + 1) + 5 := by
    rw [Conf.taskWork, Conf.attemptsWork, Nat.sub_zero, Nat.mul_comm]
  have hmul := Nat.mul_le_mul_right (conf.taskWork + 1) hcard
  rw [Nat.add_mul] at hmul
  have hqueue : (initialTasks image images.refs).length * conf.taskWork
      ≤ (initialTasks image images.refs).length * (conf.taskWork + 1) :=
    Nat.mul_le_mul_left _ (Nat.le_succ _)
  rw [Sys.potential, Sys.load, workBound, hqueued, hidle, ← htask]
  omega

end Bound

/-- However long a run is, the workers take no more steps in it than the
bound, which depends on the number of images, attempts and workers only. -/
theorem work_bounded {images : ImageList ι} {image : Heap ι} (hprep : Prepared images image)
    {conf : Conf} {actions : List Action} {s : Sys ι}
    (hrun : Run (step conf image) (initial image images.refs) actions s) :
    actions.countP Action.isWork ≤ workBound conf images.refs := by
  have hspent := (spends hprep.linked).run ⟨[], run_nil.mpr rfl⟩ hrun
  have hinit := @potential_initial _ _ conf image images
  omega

/-- The sample run up to the first read of a status. -/
theorem work_bounded_sample :
    [Action.worker 0 .none, .main, .worker 0 .none, .worker 0 .none].countP Action.isWork
      ≤ workBound sampleBuildConf sampleImages.refs := by
  have hrun : ([Action.worker 0 .none, .main, .worker 0 .none, .worker 0 .none].foldlM
      (step sampleBuildConf sampleImage) (initial sampleImage sampleImages.refs)).isSome = true := by
    decide
  obtain ⟨s, hs⟩ := Option.isSome_iff_exists.mp hrun
  exact work_bounded sampleImage_prepared hs

/-! ## Who can go on -/

/-- Worker `i` can take a step. -/
def Enabled (conf : Conf) (image : Heap ι) (s : Sys ι) (i : ℕ) : Prop :=
  ∃ choice s', step conf image s (.worker i choice) = some s'

/-- The threads are through. -/
def Finished (conf : Conf) (s : Sys ι) : Prop :=
  s.main = .joining ∧ ∀ i < conf.workers, s.worker i = .dead

section Enabledness

variable {conf : Conf} {image : Heap ι} {images : ImageList ι} {s s' : Sys ι} {i : ℕ}

/-- An outcome, for the steps that ask for one. -/
def someAttempt : AttemptOutcome where
  source := ⟨.timeout, .cloned, true, true⟩
  plugins := ⟨fun _ => ⟨.timeout, .cloned, true, true⟩, fun _ => .extracted, .created, true⟩
  additions := ⟨fun _ => ⟨.timeout, .cloned, true, true⟩, fun _ => .extracted, .created, true⟩
  client := true
  stream := []
  streamEnds := true
  squash := ⟨true, [], true⟩

/-- The points of `run` that a task comes to. -/
def RunPc.Of : Task ι → RunPc → Prop
  | .build _, _ => True
  | .pushInto _, pc => pc = .enter
  | .push _, pc => pc = .enter ∨ pc = .verdict

/-- A worker inside `run` is at a point of its task. -/
def WorkerPc.Sound : WorkerPc ι → Prop
  | .running t _ pc => pc.Of t
  | _ => True

omit [DecidableEq ι] in
theorem RunMove.sound [DecidableEq ι] {status : ι → Status} {t : Task ι} {k : ℕ} {pc : RunPc}
    {e : RunEffect ι} (h : RunMove conf image status t k pc e) : (e.next.workerPc t k).Sound := by
  cases h with
  | work outcome =>
    obtain ⟨st, called, next, he, hnext⟩ := workEffect_eq conf image status _ k outcome
    rw [he]
    rcases hnext with rfl | rfl <;> exact trivial
  | push => exact Or.inr rfl
  | _ => exact trivial

theorem WorkerMove.sound (h : WorkerMove conf image s i s') : (s'.worker i).Sound := by
  cases h with
  | @begin t k hpc hk =>
    rw [goto_worker, Function.update_self]
    cases t with
    | build x => exact trivial
    | pushInto x => exact rfl
    | push x => exact Or.inl rfl
  | run hpc he =>
    simp only [RunEffect.apply, Function.update_self]
    exact he.sound
  | take | takeTombstone | putTombstone | exhaust | follow | giveUp | put | allPut | finish =>
    simp only [goto_worker, Function.update_self]
    exact trivial

theorem sound (hr : Reachable (step conf image) (initial image images.refs) s) (i : ℕ) :
    (s.worker i).Sound := by
  refine hr.invariant (P := fun s => ∀ i, (s.worker i).Sound) (fun _ => trivial) ?_ i
  intro u a v _ hu hstep j
  rcases step_cases hstep with ⟨i, hi, hmove⟩ | hmove
  · by_cases hj : j = i
    · exact hj ▸ hmove.sound
    · rw [hmove.worker_frame hj]
      exact hu j
  · rw [hmove.frame.2.1]
    exact hu j

/-- At the points of its task a worker can go on. -/
theorem exists_runStep (status : ι → Status) {t : Task ι} (k : ℕ) {pc : RunPc} (h : pc.Of t) :
    ∃ choice e, runStep conf image status t k pc choice = some e := by
  cases t with
  | build x =>
    cases pc with
    | work => exact ⟨.attempt someAttempt, _, rfl⟩
    | _ => exact ⟨.none, _, rfl⟩
  | pushInto x =>
    cases (h : pc = .enter)
    exact ⟨.none, _, rfl⟩
  | push x =>
    rcases h with rfl | rfl
    · exact ⟨.push ⟨[], none⟩, _, rfl⟩
    · exact ⟨.none, _, rfl⟩

/-- A worker that cannot go on is dead or waits at an empty queue. -/
theorem enabled_cases (hi : i < conf.workers) (hsound : (s.worker i).Sound) :
    Enabled conf image s i ∨ s.worker i = .dead ∨
      s.worker i = .idle ∧ (s.queue (workerKind conf i)).items = [] := by
  have hstep : ∀ choice, (workerStep conf image s i choice).isSome = true →
      Enabled conf image s i := by
    intro choice h
    obtain ⟨s', hs'⟩ := Option.isSome_iff_exists.mp h
    exact ⟨_, _, (if_pos hi).trans hs'⟩
  cases hpc : s.worker i with
  | idle =>
    cases hq : (s.queue (workerKind conf i)).items with
    | nil => exact Or.inr (Or.inr ⟨rfl, rfl⟩)
    | cons item items =>
      refine Or.inl ?_
      cases item with
      | task t => exact hstep .none (by simp [workerStep, hpc, hq])
      | tombstone => exact hstep .none (by simp [workerStep, hpc, hq])
  | dead => exact Or.inr (Or.inl rfl)
  | running t k pc =>
    rw [hpc] at hsound
    obtain ⟨choice, e, he⟩ := @exists_runStep _ _ conf image s.status _ k _ hsound
    exact Or.inl (hstep choice (by simp [workerStep, hpc, he]))
  | attempt t k =>
    refine Or.inl ?_
    by_cases hk : k < conf.retries + 1
    · exact hstep .none (by simp [workerStep, hpc, hk])
    · exact hstep .none (by simp [workerStep, hpc, hk])
  | ended t success =>
    refine Or.inl ?_
    cases success <;> exact hstep .none (by simp [workerStep, hpc])
  | putting t rest =>
    refine Or.inl ?_
    cases rest <;> exact hstep .none (by simp [workerStep, hpc])
  | tombstone => exact Or.inl (hstep .none (by simp [workerStep, hpc]))
  | finishing t => exact Or.inl (hstep .none (by simp [workerStep, hpc]))

end Enabledness

/-! ## The tombstones go round -/

section Tombstones

variable {conf : Conf} {image : Heap ι} {images : ImageList ι} {s s' : Sys ι} {i : ℕ} {kind : Kind}

/-- The tombstone of a queue is in it, or one of the first `n` workers is
about to put it back. -/
def Circulates (conf : Conf) (n : ℕ) (s : Sys ι) (kind : Kind) : Prop :=
  .tombstone ∈ (s.queue kind).items ∨
    ∃ i < n, workerKind conf i = kind ∧ s.worker i = .tombstone

/-- The tombstones go round. -/
theorem Circulates.preserved {n : ℕ} (h : Circulates conf n s kind) (hi : i < n)
    (hmove : WorkerMove conf image s i s') : Circulates conf n s' kind := by
  rcases h with hin | ⟨j, hj, hkind, hpc⟩
  · cases hmove with
    | @take t items hidle hq =>
      left
      rw [goto_queue, queue_setQueue]
      split
      · rename_i hk
        rw [hk, hq] at hin
        exact (List.mem_cons.mp hin).resolve_left (by rintro ⟨⟩)
      · exact hin
    | takeTombstone hidle hq =>
      by_cases hk : workerKind conf i = kind
      · exact Or.inr ⟨i, hi, hk, by simp⟩
      · left
        rw [goto_queue, queue_setQueue, if_neg (Ne.symm hk)]
        exact hin
    | putTombstone | put =>
      left
      rw [goto_queue, queue_setQueue]
      split
      · rename_i hk
        exact List.mem_append_left _ (hk ▸ hin)
      · exact hin
    | finish =>
      left
      rw [goto_queue, emit_queue, queue_setQueue]
      split
      · rename_i hk
        exact hk ▸ hin
      · exact hin
    | @run t k pc e hpc he =>
      left
      cases kind with
      | build => exact hin
      | push =>
        simp only [RunEffect.apply, Sys.queue]
        cases e.put with
        | none => exact hin
        | some t => exact List.mem_append_left _ hin
    | begin | exhaust | follow | giveUp | allPut => exact Or.inl (by simpa using hin)
  · by_cases hji : j = i
    · subst hji
      cases hmove with
      | putTombstone => exact Or.inl (by simp [hkind, TaskQueue.put])
      | take h | takeTombstone h | begin h | exhaust h | run h | follow h | giveUp h | put h
      | allPut h | finish h =>
        rw [h] at hpc
        cases hpc
    · exact Or.inr ⟨j, hj, hkind, (hmove.worker_frame hji).trans hpc⟩

/-- The tombstones that the main thread has put go round. -/
theorem circulates (hr : Reachable (step conf image) (initial image images.refs) s) :
    (s.main = .tombBuild ∨ s.main = .joining → Circulates conf conf.workers s .push) ∧
      (s.main = .joining → Circulates conf conf.workers s .build) := by
  refine hr.invariant (P := fun s => (s.main = .tombBuild ∨ s.main = .joining →
    Circulates conf conf.workers s .push) ∧
    (s.main = .joining → Circulates conf conf.workers s .build))
    ⟨fun h => (by rcases h with h | h <;> cases h), fun h => (by cases h)⟩ ?_
  intro u a v hu ih hstep
  rcases step_cases hstep with ⟨i, hi, hmove⟩ | hmove
  · have hmain : v.main = u.main := by
      cases hmove with
      | take | takeTombstone | putTombstone | put | finish => simp
      | begin | exhaust | run | follow | giveUp | allPut => rfl
    exact ⟨fun h => (ih.1 (hmain ▸ h)).preserved hi hmove,
      fun h => (ih.2 (hmain ▸ h)).preserved hi hmove⟩
  · cases hmove with
    | sleep => exact ih
    | buildDone | again | leave => exact ⟨fun h => (by rcases h with h | h <;> cases h), fun h => (by cases h)⟩
    | tombPush hm =>
      exact ⟨fun _ => Or.inl (by simp [Sys.queue, TaskQueue.put]), fun h => (by cases h)⟩
    | tombBuild hm =>
      exact ⟨fun _ => ih.1 (Or.inl hm), fun _ => Or.inl (by simp [Sys.queue, TaskQueue.put])⟩

end Tombstones

/-! ## Until nobody can go on -/

section Ends

variable {conf : Conf} {image : Heap ι} {images : ImageList ι} {s s' : Sys ι} {i : ℕ}

/-- The steps of the main thread after this one, once the counters are zero. -/
def MainPc.stepsLeft : MainPc → ℕ
  | .readBuild => 4
  | .readPush => 3
  | .tombPush => 2
  | .tombBuild => 1
  | .joining => 0

/-- The steps of the workers and of the main thread that are left. -/
def Sys.rank (conf : Conf) (images : List ι) (s : Sys ι) : ℕ :=
  s.potential conf images + s.main.stepsLeft

/-- Before the tombstones, a worker that cannot go on waits at an empty
queue. -/
theorem Counted.waits (h : Counted conf s)
    (hr : Reachable (step conf image) (initial image images.refs) s) (hi : i < conf.workers)
    (hstuck : ¬ Enabled conf image s i) :
    s.worker i = .idle ∧ (s.queue (workerKind conf i)).items = [] :=
  ((enabled_cases hi (sound hr i)).resolve_left hstuck).resolve_left (h.alive i).2

/-- Where no worker can go on and a queue has workers, its counter is zero. -/
theorem Counted.unfinished_eq_zero (h : Counted conf s)
    (hr : Reachable (step conf image) (initial image images.refs) s)
    (hstuck : ∀ i < conf.workers, ¬ Enabled conf image s i) (hi : i < conf.workers) :
    (s.queue (workerKind conf i)).unfinished = 0 := by
  have hbusy : s.busy conf (workerKind conf i) = 0 := by
    refine Finset.sum_eq_zero fun j hj => ?_
    have hj := Finset.mem_range.mp hj
    rw [busyAt, (h.waits hr hj (hstuck j hj)).1]
    simp [WorkerPc.task?]
  rw [h.unfinished, (h.waits hr hi (hstuck i hi)).2, hbusy]
  rfl

/-- Where no worker can go on, the main thread is in front of its next
point, or the run is over. -/
theorem main_goes_on (hr : Reachable (step conf image) (initial image images.refs) s)
    (hthreads : 0 < conf.threads) (hpush : 0 < conf.pushThreads)
    (hstuck : ∀ i < conf.workers, ¬ Enabled conf image s i) :
    Finished conf s ∨ ∃ s', mainStep s = some s' ∧ MainMove s s' ∧
      s'.main.stepsLeft < s.main.stepsLeft := by
  have hphase := phase hr
  rw [Phase] at hphase
  suffices hkey : ∀ m, s.main = m → Finished conf s ∨ ∃ s', mainStep s = some s' ∧
      MainMove s s' ∧ s'.main.stepsLeft < s.main.stepsLeft from hkey _ rfl
  have hstep : ∀ s', mainStep s = some s' → s'.main.stepsLeft < s.main.stepsLeft →
      Finished conf s ∨ ∃ s', mainStep s = some s' ∧ MainMove s s' ∧
        s'.main.stepsLeft < s.main.stepsLeft :=
    fun _ h hlt => Or.inr ⟨_, h, mainStep_move h, hlt⟩
  intro m hm
  cases m with
  | readBuild =>
    rw [hm] at hphase
    have hzero := hphase.unfinished_eq_zero hr hstuck (i := 0)
      (Nat.lt_of_lt_of_le hthreads (Nat.le_add_right _ _))
    rw [workerKind, if_pos hthreads] at hzero
    refine hstep { s with main := .readPush } ?_ (by rw [hm]; exact Nat.lt_succ_self _)
    simp only [mainStep, hm]
    exact if_neg (not_not.mpr hzero)
  | readPush =>
    rw [hm] at hphase
    have hzero := hphase.1.unfinished_eq_zero hr hstuck (i := conf.threads)
      (Nat.lt_add_of_pos_right hpush)
    rw [workerKind, if_neg (Nat.lt_irrefl _)] at hzero
    refine hstep { s with main := .tombPush } ?_ (by rw [hm]; exact Nat.lt_succ_self _)
    simp only [mainStep, hm]
    exact if_neg (not_not.mpr hzero)
  | tombPush =>
    refine hstep { s with pushQueue := s.pushQueue.put .tombstone, main := .tombBuild } ?_
      (by rw [hm]; exact Nat.lt_succ_self _)
    simp only [mainStep, hm]
  | tombBuild =>
    refine hstep { s with buildQueue := s.buildQueue.put .tombstone, main := .joining } ?_
      (by rw [hm]; exact Nat.lt_succ_self _)
    simp only [mainStep, hm]
  | joining =>
    refine Or.inl ⟨hm, fun i hi => ?_⟩
    have hround : ∀ kind, Circulates conf conf.workers s kind := by
      intro kind
      cases kind with
      | build => exact (circulates hr).2 hm
      | push => exact (circulates hr).1 (Or.inr hm)
    rcases enabled_cases hi (sound hr i) with h | h | ⟨-, hempty⟩
    · exact absurd h (hstuck i hi)
    · exact h
    · -- the tombstone is with a worker, and that one can go on
      rcases hround (workerKind conf i) with hin | ⟨j, hj, -, hpc⟩
      · rw [hempty] at hin
        cases hin
      · rcases enabled_cases hj (sound hr j) with h | h | ⟨h, -⟩
        · exact absurd h (hstuck j hj)
        · rw [hpc] at h
          cases h
        · rw [hpc] at h
          cases h

/-- Until the threads are through, somebody can bring the run forward. -/
theorem progress (hl : Linked image images.refs)
    (hr : Reachable (step conf image) (initial image images.refs) s)
    (hthreads : 0 < conf.threads) (hpush : 0 < conf.pushThreads) (hnot : ¬ Finished conf s) :
    ∃ a s', step conf image s a = some s' ∧
      s'.rank conf images.refs < s.rank conf images.refs := by
  by_cases hstuck : ∀ i < conf.workers, ¬ Enabled conf image s i
  · obtain ⟨s', hstep, hmove, hlt⟩ :=
      (main_goes_on hr hthreads hpush hstuck).resolve_left hnot
    refine ⟨.main, s', hstep, ?_⟩
    rw [Sys.rank, Sys.rank, potential_main hmove]
    omega
  · push Not at hstuck
    obtain ⟨i, hi, choice, s', hstep⟩ := hstuck
    refine ⟨.worker i choice, s', hstep, ?_⟩
    have hlt := potential_worker hl hr hstep
    have hmain : s'.main = s.main := by
      rw [step, if_pos hi] at hstep
      cases workerStep_move hstep with
      | take | takeTombstone | putTombstone | put | finish => simp
      | begin | exhaust | run | follow | giveUp | allPut => rfl
    rw [Sys.rank, Sys.rank, hmain]
    omega

/-- Whether a worker can go on depends on that worker, its queue and the
statuses. -/
theorem Enabled.congr (h : Enabled conf image s i) (hworker : s'.worker = s.worker)
    (hqueue : ∀ kind, s'.queue kind = s.queue kind)
    (hr : Reachable (step conf image) (initial image images.refs) s') :
    Enabled conf image s' i := by
  obtain ⟨choice, t, hstep⟩ := h
  have hi : i < conf.workers := by
    by_contra hge
    rw [step, if_neg hge] at hstep
    cases hstep
  rw [step, if_pos hi] at hstep
  rcases enabled_cases hi (sound hr i) with hon | hdead | ⟨hidle, hempty⟩
  · exact hon
  · rw [hworker] at hdead
    simp [workerStep, hdead] at hstep
  · rw [hworker] at hidle
    rw [hqueue] at hempty
    simp [workerStep, hidle, hempty] at hstep

omit [DecidableEq ι] in
/-- Past its loop the main thread does not come back. -/
theorem MainMove.past_loop (h : MainMove s s') (hleft : s.main.left = true) :
    s'.main.left = true ∧ s'.main.stepsLeft < s.main.stepsLeft := by
  cases h with
  | sleep hm | buildDone hm | again hm | leave hm =>
    rw [hm] at hleft
    cases hleft
  | tombPush hm | tombBuild hm =>
    rw [hm]
    exact ⟨rfl, Nat.lt_succ_self _⟩

omit [DecidableEq ι] in
/-- In its loop the main thread reads only. -/
theorem MainMove.polls (h : MainMove s s') (hleft : s'.main.left = false) :
    s'.worker = s.worker ∧ ∀ kind, s'.queue kind = s.queue kind := by
  cases h with
  | sleep | buildDone | again => exact ⟨rfl, fun kind => by cases kind <;> rfl⟩
  | leave | tombPush | tombBuild => cases hleft

end Ends

/-- From every state of every run the threads can be brought to their end:
the main thread has put its tombstones and every worker is dead. -/
theorem run_completes {images : ImageList ι} {image : Heap ι} (hprep : Prepared images image)
    {conf : Conf} (hthreads : 0 < conf.threads) (hpush : 0 < conf.pushThreads) {s : Sys ι}
    (hr : Reachable (step conf image) (initial image images.refs) s) :
    ∃ actions t, Run (step conf image) s actions t ∧ Finished conf t ∧
      actions.length ≤ workBound conf images.refs + 4 := by
  obtain ⟨actions, t, hrun, ht, hle⟩ := Reachable.completes
    (Reachable (step conf image) (initial image images.refs)) (Finished conf)
    (Sys.rank conf images.refs)
    (fun u hu hnot => by
      obtain ⟨a, v, hstep, hlt⟩ := progress hprep.linked hu hthreads hpush hnot
      exact ⟨a, v, hstep, hu.tail hstep, hlt⟩) hr
  refine ⟨actions, t, hrun, ht, hle.trans ?_⟩
  obtain ⟨before, hbefore⟩ := hr
  have hspent := (spends hprep.linked).run ⟨[], run_nil.mpr rfl⟩ hbefore
  have hinit := @potential_initial _ _ conf image images
  have hmain : s.main.stepsLeft ≤ 4 := by cases s.main <;> decide
  rw [Sys.rank]
  omega

theorem run_completes_sample : ∃ actions t,
    Run (step sampleBuildConf sampleImage) (initial sampleImage sampleImages.refs) actions t ∧
      Finished sampleBuildConf t ∧
      actions.length ≤ workBound sampleBuildConf sampleImages.refs + 4 :=
  run_completes sampleImage_prepared (by decide) (by decide) ⟨[], run_nil.mpr rfl⟩

/-- A run without end starves a worker: from some point on the main thread
polls, and there is a worker that could go on all the time and is never
scheduled. -/
theorem endless_starves {images : ImageList ι} {image : Heap ι} (hprep : Prepared images image)
    {conf : Conf} (hthreads : 0 < conf.threads) (hpush : 0 < conf.pushThreads)
    {s : ℕ → Sys ι} {a : ℕ → Action} (hstart : s 0 = initial image images.refs)
    (hrun : Forever (step conf image) s a) :
    ∃ N, ∃ i < conf.workers, ∀ n, N ≤ n → a n = .main ∧ Enabled conf image (s n) i := by
  have hr : ∀ n, Reachable (step conf image) (initial image images.refs) (s n) :=
    hrun.invariant (hstart ▸ ⟨[], run_nil.mpr rfl⟩) fun _ _ _ hu h => hu.tail h
  obtain ⟨N, hrest⟩ := hrun.rests (spends hprep.linked) (hr 0)
  have hmain : ∀ n, N ≤ n → a n = .main := by
    intro n hn
    have hno := hrest n hn
    cases ha : a n with
    | main => rfl
    | worker i choice =>
      rw [ha] at hno
      cases hno
  have hmove : ∀ n, N ≤ n → MainMove (s n) (s (n + 1)) := by
    intro n hn
    have hstep := hrun n
    rw [hmain n hn] at hstep
    exact mainStep_move hstep
  -- the main thread is in its loop, for past it there are two more steps
  have hloop : ∀ n, N ≤ n → (s n).main.left = false := by
    intro n hn
    by_contra hleft
    rw [Bool.not_eq_false] at hleft
    have hpast : ∀ m, n ≤ m → (s m).main.left = true := by
      intro m hm
      induction m, hm using Nat.le_induction with
      | base => exact hleft
      | succ m hm ih => exact ((hmove m (by omega)).past_loop ih).1
    exact not_decreasing (f := fun m => (s m).main.stepsLeft) (N := n) fun m hm =>
      ((hmove m (by omega)).past_loop (hpast m hm)).2
  have hstill : ∀ n, N ≤ n →
      (s n).worker = (s N).worker ∧ ∀ kind, (s n).queue kind = (s N).queue kind := by
    intro n hn
    induction n, hn using Nat.le_induction with
    | base => exact ⟨rfl, fun _ => rfl⟩
    | succ n hn ih =>
      obtain ⟨hworker, hqueue⟩ := (hmove n hn).polls (hloop (n + 1) (by omega))
      exact ⟨hworker.trans ih.1, fun kind => (hqueue kind).trans (ih.2 kind)⟩
  by_cases hstuck : ∀ i < conf.workers, ¬ Enabled conf image (s N) i
  · -- nobody could go on, and the main thread would leave its loop
    refine (not_decreasing (f := fun n => (s n).main.stepsLeft) (N := N) fun n hn => ?_).elim
    have hnone : ∀ i < conf.workers, ¬ Enabled conf image (s n) i := by
      intro i hi hon
      obtain ⟨hworker, hqueue⟩ := hstill n hn
      exact hstuck i hi (hon.congr hworker.symm (fun kind => (hqueue kind).symm) (hr N))
    rcases main_goes_on (hr n) hthreads hpush hnone with ⟨hjoin, -⟩ | ⟨t, ht, -, hlt⟩
    · have hno := hloop n hn
      rw [hjoin] at hno
      cases hno
    · have hstep := hrun n
      rw [hmain n hn, step, ht] at hstep
      cases hstep
      exact hlt
  · push Not at hstuck
    obtain ⟨i, hi, hon⟩ := hstuck
    refine ⟨N, i, hi, fun n hn => ⟨hmain n hn, ?_⟩⟩
    obtain ⟨hworker, hqueue⟩ := hstill n hn
    exact hon.congr hworker hqueue (hr n)

/-- The main thread polls for ever, with `nova` in the queue. -/
theorem endless_starves_sample : ∃ _N : ℕ, ∃ i < sampleBuildConf.workers,
    Enabled sampleBuildConf sampleImage (initial sampleImage sampleImages.refs) i := by
  obtain ⟨N, i, hi, hon⟩ := endless_starves sampleImage_prepared
    (show 0 < sampleBuildConf.threads by decide) (by decide) (s := fun _ => initial sampleImage sampleImages.refs)
    (a := fun _ => .main) rfl fun _ => rfl
  exact ⟨N, i, hi, (hon N le_rfl).2⟩

end Kolla.Build
