import Mathlib.Algebra.BigOperators.Group.Finset.Basic
import Mathlib.Algebra.Order.BigOperators.Group.Finset
import Kolla.Build.WorkerThread

/-!
# Every task is accounted for

A task object is somewhere: in a queue, in the hands of a worker, or done.
It is *waiting* until its first attempt, then it is being *tried*, and it
is *spent* once it has issued the tasks that follow from it.  A
`BuildTask` is spent when its worker turns to the followups, the other
tasks when their attempts are over.

`WorkerMove.flow` says what each step does to the three counts, and
`balance` draws the conclusion for whole runs: the tasks issued are the
tasks waiting, tried and spent, and the first attempts are the tasks tried
and spent.
-/

namespace Kolla.Build

open Kolla.Lib

variable {ι : Type}

/-! ## Projections of a state that has been updated -/

section Projections

variable {s : Sys ι} (kind : Kind) (q : TaskQueue ι) (i : ℕ) (pc : WorkerPc ι)
  (events : List (Event ι))

@[simp] theorem setQueue_worker : (s.setQueue kind q).worker = s.worker := by
  cases kind <;> rfl

@[simp] theorem setQueue_log : (s.setQueue kind q).log = s.log := by
  cases kind <;> rfl

@[simp] theorem setQueue_status : (s.setQueue kind q).status = s.status := by
  cases kind <;> rfl

@[simp] theorem setQueue_main : (s.setQueue kind q).main = s.main := by
  cases kind <;> rfl

@[simp] theorem queue_setQueue (kind' : Kind) :
    (s.setQueue kind q).queue kind' = if kind' = kind then q else s.queue kind' := by
  cases kind <;> cases kind' <;> rfl

@[simp] theorem goto_worker : (s.goto i pc).worker = Function.update s.worker i pc := rfl

@[simp] theorem goto_log : (s.goto i pc).log = s.log := rfl

@[simp] theorem goto_status : (s.goto i pc).status = s.status := rfl

@[simp] theorem goto_main : (s.goto i pc).main = s.main := rfl

@[simp] theorem goto_queue (kind : Kind) : (s.goto i pc).queue kind = s.queue kind := by
  cases kind <;> rfl

@[simp] theorem emit_worker : (s.emit events).worker = s.worker := rfl

@[simp] theorem emit_log : (s.emit events).log = events ++ s.log := rfl

@[simp] theorem emit_status : (s.emit events).status = s.status := rfl

@[simp] theorem emit_main : (s.emit events).main = s.main := rfl

@[simp] theorem emit_queue (kind : Kind) : (s.emit events).queue kind = s.queue kind := by
  cases kind <;> rfl

end Projections

/-! ## Counting tasks -/

/-- The task of a queue element. -/
def Item.task? : Item ι → Option (Task ι)
  | .task t => some t
  | .tombstone => none

/-- The tasks in a queue. -/
def TaskQueue.tasks (q : TaskQueue ι) : List (Task ι) := q.items.filterMap Item.task?

/-- The tasks of a worker that have not been attempted. -/
def WorkerPc.waiting : WorkerPc ι → List (Task ι)
  | .attempt t 0 => [t]
  | .putting _ rest => rest
  | _ => []

/-- The tasks of a worker that have been attempted and have not issued
what follows from them. -/
def WorkerPc.tried : WorkerPc ι → List (Task ι)
  | .attempt t (_ + 1) => [t]
  | .running t _ _ => [t]
  | .ended (.build x) _ => [.build x]
  | _ => []

/-- The tasks of a worker that have issued what follows from them. -/
def WorkerPc.spent : WorkerPc ι → List (Task ι)
  | .ended (.pushInto x) _ => [.pushInto x]
  | .ended (.push x) _ => [.push x]
  | .putting t _ => [t]
  | .finishing t => [t]
  | _ => []

/-- The task that a worker has taken from its queue and not marked as
done. -/
def WorkerPc.task? : WorkerPc ι → Option (Task ι)
  | .idle => none
  | .tombstone => none
  | .dead => none
  | .attempt t _ => some t
  | .running t _ _ => some t
  | .ended t _ => some t
  | .putting t _ => some t
  | .finishing t => some t

/-- The task of an `issued` event. -/
@[simp] def Event.issued? : Event ι → Option (Task ι)
  | .issued t => some t
  | _ => none

/-- The task of a first attempt. -/
@[simp] def Event.started? : Event ι → Option (Task ι)
  | .attempt t 0 => some t
  | _ => none

/-- The task of a `retired` event. -/
@[simp] def Event.retired? : Event ι → Option (Task ι)
  | .retired t => some t
  | _ => none

/-- The tasks that were issued. -/
def issued (log : List (Event ι)) : List (Task ι) := log.filterMap Event.issued?

/-- The tasks that were attempted, once for each first attempt. -/
def started (log : List (Event ι)) : List (Task ι) := log.filterMap Event.started?

/-- The tasks that are done. -/
def retired (log : List (Event ι)) : List (Task ι) := log.filterMap Event.retired?

section Tasks

variable {q : TaskQueue ι} {t : Task ι} {items : List (Item ι)} {log : List (Event ι)}

@[simp] theorem tasks_put_task : (q.put (.task t)).tasks = q.tasks ++ [t] := by
  simp [TaskQueue.tasks, TaskQueue.put, Item.task?]

@[simp] theorem tasks_put_tombstone : (q.put .tombstone).tasks = q.tasks := by
  simp [TaskQueue.tasks, TaskQueue.put, Item.task?]

@[simp] theorem tasks_taskDone : q.taskDone.tasks = q.tasks := rfl

theorem tasks_eq_cons (h : q.items = .task t :: items) :
    q.tasks = t :: (⟨items, q.unfinished⟩ : TaskQueue ι).tasks := by
  simp [TaskQueue.tasks, h, Item.task?]

theorem tasks_eq_tail (h : q.items = .tombstone :: items) :
    q.tasks = (⟨items, q.unfinished⟩ : TaskQueue ι).tasks := by
  rw [TaskQueue.tasks, h]
  rfl

@[simp] theorem issued_cons (e : Event ι) : issued (e :: log) = e.issued?.toList ++ issued log := by
  rw [issued, List.filterMap_cons]
  cases e.issued? <;> rfl

@[simp] theorem started_cons (e : Event ι) :
    started (e :: log) = e.started?.toList ++ started log := by
  rw [started, List.filterMap_cons]
  cases e.started? <;> rfl

@[simp] theorem retired_cons (e : Event ι) :
    retired (e :: log) = e.retired?.toList ++ retired log := by
  rw [retired, List.filterMap_cons]
  cases e.retired? <;> rfl

@[simp] theorem issued_append (l l' : List (Event ι)) : issued (l ++ l') = issued l ++ issued l' :=
  List.filterMap_append

@[simp] theorem started_append (l l' : List (Event ι)) :
    started (l ++ l') = started l ++ started l' :=
  List.filterMap_append

@[simp] theorem retired_append (l l' : List (Event ι)) :
    retired (l ++ l') = retired l ++ retired l' :=
  List.filterMap_append

theorem mem_issued : t ∈ issued log ↔ .issued t ∈ log := by
  simp only [issued, List.mem_filterMap]
  constructor
  · rintro ⟨e, he, heq⟩
    cases e <;> simp only [Event.issued?, Option.some.injEq, reduceCtorEq] at heq
    exact heq ▸ he
  · exact fun h => ⟨_, h, rfl⟩

theorem mem_started : t ∈ started log ↔ .attempt t 0 ∈ log := by
  simp only [started, List.mem_filterMap]
  constructor
  · rintro ⟨e, he, heq⟩
    cases e with
    | attempt u k =>
      cases k <;> simp only [Event.started?, Option.some.injEq, reduceCtorEq] at heq
      exact heq ▸ he
    | _ => simp only [Event.started?, reduceCtorEq] at heq
  · exact fun h => ⟨_, h, rfl⟩

theorem mem_retired : t ∈ retired log ↔ .retired t ∈ log := by
  simp only [retired, List.mem_filterMap]
  constructor
  · rintro ⟨e, he, heq⟩
    cases e <;> simp only [Event.retired?, Option.some.injEq, reduceCtorEq] at heq
    exact heq ▸ he
  · exact fun h => ⟨_, h, rfl⟩

@[simp] theorem issued_map (tasks : List (Task ι)) : issued (tasks.map .issued) = tasks := by
  induction tasks with
  | nil => rfl
  | cons t tasks ih => exact congrArg (t :: ·) ih

@[simp] theorem started_map (tasks : List (Task ι)) : started (tasks.map .issued) = [] := by
  induction tasks with
  | nil => rfl
  | cons t tasks ih => exact ih

@[simp] theorem retired_map (tasks : List (Task ι)) : retired (tasks.map .issued) = [] := by
  induction tasks with
  | nil => rfl
  | cons t tasks ih => exact ih

end Tasks

/-! ## Sums over the workers -/

/-- Moving one summand. -/
theorem sum_update {n i : ℕ} (hi : i < n) (f : ℕ → WorkerPc ι → ℕ) (w : ℕ → WorkerPc ι)
    (pc : WorkerPc ι) :
    (∑ j ∈ Finset.range n, f j (Function.update w i pc j)) + f i (w i)
      = (∑ j ∈ Finset.range n, f j (w j)) + f i pc := by
  have hmem : i ∈ Finset.range n := Finset.mem_range.mpr hi
  have hrest : ∑ j ∈ (Finset.range n).erase i, f j (Function.update w i pc j)
      = ∑ j ∈ (Finset.range n).erase i, f j (w j) :=
    Finset.sum_congr rfl fun j hj => by
      rw [Function.update_of_ne (Finset.ne_of_mem_erase hj)]
  rw [← Finset.add_sum_erase _ _ hmem, ← Finset.add_sum_erase _ (fun j => f j (w j)) hmem, hrest,
    Function.update_self]
  omega

/-- Two different summands are below the sum. -/
theorem add_le_sum {n i j : ℕ} (hi : i < n) (hj : j < n) (hij : i ≠ j) (f : ℕ → ℕ) :
    f i + f j ≤ ∑ k ∈ Finset.range n, f k := by
  rw [← Finset.sum_pair hij]
  refine Finset.sum_le_sum_of_subset fun k hk => ?_
  rw [Finset.mem_insert, Finset.mem_singleton] at hk
  rw [Finset.mem_range]
  rcases hk with rfl | rfl <;> assumption

theorem le_sum {n i : ℕ} (hi : i < n) (f : ℕ → ℕ) : f i ≤ ∑ k ∈ Finset.range n, f k :=
  Finset.single_le_sum (fun _ _ => Nat.zero_le _) (Finset.mem_range.mpr hi)

section Counts

variable [DecidableEq ι] (conf : Conf) (s : Sys ι) (t : Task ι)

/-- How often a task is in a queue. -/
def Sys.queuedCount : ℕ := s.buildQueue.tasks.count t + s.pushQueue.tasks.count t

/-- How often a task is waiting. -/
def Sys.waitingCount : ℕ :=
  s.queuedCount t + ∑ i ∈ Finset.range conf.workers, (s.worker i).waiting.count t

/-- How often a task is being tried. -/
def Sys.triedCount : ℕ := ∑ i ∈ Finset.range conf.workers, (s.worker i).tried.count t

/-- How often a task is spent. -/
def Sys.spentCount : ℕ :=
  (∑ i ∈ Finset.range conf.workers, (s.worker i).spent.count t) + (retired s.log).count t

end Counts

/-! ## What a step does to the counts -/

section Flow

variable [DecidableEq ι] {conf : Conf} {image : Heap ι} {s s' : Sys ι} {t : Task ι} {i : ℕ}

/-- The tasks that start being tried, the tasks that are spent and the
tasks that are issued in one step from `s` to `s'`. -/
inductive Flow (conf : Conf) (image : Heap ι) (s s' : Sys ι) :
    List (Task ι) → List (Task ι) → List (Task ι) → Prop
  | quiet : Flow conf image s s' [] [] []
  | start (t : Task ι) : Flow conf image s s' [t] [] []
  | close (t : Task ι) : Flow conf image s s' [] [t] []
  | queue (x : ι) : Flow conf image s s' [] [.pushInto x] [.push x]
  | follow (x : ι) (hlog : .ended (.build x) true ∈ s'.log) :
      Flow conf image s s' [] [.build x] (followups conf image s.status (.build x))

/-- The counts after a step. -/
structure Balance (conf : Conf) (s s' : Sys ι) (start close new : List (Task ι)) : Prop where
  waiting : ∀ t, s'.waitingCount conf t + start.count t = s.waitingCount conf t + new.count t
  tried : ∀ t, s'.triedCount conf t + close.count t = s.triedCount conf t + start.count t
  spent : ∀ t, s'.spentCount conf t = s.spentCount conf t + close.count t
  issued : ∀ t, (issued s'.log).count t = (issued s.log).count t + new.count t
  started : ∀ t, (started s'.log).count t = (started s.log).count t + start.count t
  closed : ∀ t ∈ close, 0 < s.triedCount conf t

theorem queuedCount_setQueue (kind : Kind) (q : TaskQueue ι) :
    (s.setQueue kind q).queuedCount t + (s.queue kind).tasks.count t
      = s.queuedCount t + q.tasks.count t := by
  cases kind <;> simp only [Sys.setQueue, Sys.queue, Sys.queuedCount] <;> omega

@[simp] theorem queuedCount_goto (pc : WorkerPc ι) :
    (s.goto i pc).queuedCount t = s.queuedCount t := rfl

@[simp] theorem queuedCount_emit (events : List (Event ι)) :
    (s.emit events).queuedCount t = s.queuedCount t := rfl

/-- A step of worker `i` that ends at `pc`: the balance of the system from
the balance of that worker, the queues and the log. -/
theorem Balance.of_update (hi : i < conf.workers) {pc : WorkerPc ι}
    (hw : s'.worker = Function.update s.worker i pc) {start close new : List (Task ι)}
    (hwait : ∀ t, s'.queuedCount t + pc.waiting.count t + start.count t
      = s.queuedCount t + (s.worker i).waiting.count t + new.count t)
    (htried : ∀ t, pc.tried.count t + close.count t
      = (s.worker i).tried.count t + start.count t)
    (hspent : ∀ t, pc.spent.count t + (retired s'.log).count t
      = (s.worker i).spent.count t + (retired s.log).count t + close.count t)
    (hissued : ∀ t, (Build.issued s'.log).count t = (Build.issued s.log).count t + new.count t)
    (hstarted : ∀ t, (Build.started s'.log).count t
      = (Build.started s.log).count t + start.count t)
    (hclose : ∀ t ∈ close, t ∈ (s.worker i).tried) :
    Balance conf s s' start close new where
  waiting t := by
    have hsum := sum_update hi (fun _ pc => pc.waiting.count t) s.worker pc
    have := hwait t
    rw [Sys.waitingCount, Sys.waitingCount, hw]
    omega
  tried t := by
    have hsum := sum_update hi (fun _ pc => pc.tried.count t) s.worker pc
    have := htried t
    rw [Sys.triedCount, Sys.triedCount, hw]
    omega
  spent t := by
    have hsum := sum_update hi (fun _ pc => pc.spent.count t) s.worker pc
    have := hspent t
    rw [Sys.spentCount, Sys.spentCount, hw]
    omega
  issued := hissued
  started := hstarted
  closed t ht := by
    have hle := le_sum hi fun j => (s.worker j).tried.count t
    exact (List.count_pos_iff.mpr (hclose t ht)).trans_le hle

/-- A step that moves nothing between the phases, but perhaps between a
queue and a worker. -/
theorem Balance.of_quiet (hi : i < conf.workers) {pc : WorkerPc ι}
    (hw : s'.worker = Function.update s.worker i pc)
    (hwait : ∀ t, s'.queuedCount t + pc.waiting.count t
      = s.queuedCount t + (s.worker i).waiting.count t)
    (htried : pc.tried = (s.worker i).tried)
    (hspent : (pc.spent ++ retired s'.log) = ((s.worker i).spent ++ retired s.log))
    (hissued : Build.issued s'.log = Build.issued s.log)
    (hstarted : Build.started s'.log = Build.started s.log) :
    Balance conf s s' [] [] [] := by
  refine .of_update hi hw (fun t => by simpa using hwait t) (fun t => by rw [htried]) ?_
    (fun t => by rw [hissued]; rfl) (fun t => by rw [hstarted]; rfl) (by simp)
  intro t
  rw [← List.count_append, hspent, List.count_append]
  rfl

/-- A step of worker `i` at its own queue. -/
theorem Balance.of_queue (hi : i < conf.workers) {pc : WorkerPc ι} {q : TaskQueue ι}
    (hwait : ∀ t, q.tasks.count t + pc.waiting.count t
      = (s.queue (workerKind conf i)).tasks.count t + (s.worker i).waiting.count t)
    (htried : pc.tried = (s.worker i).tried) (hspent : pc.spent = (s.worker i).spent) :
    Balance conf s ((s.setQueue (workerKind conf i) q).goto i pc) [] [] [] := by
  refine .of_quiet hi (by simp) (fun t => ?_) htried (by simp [hspent]) (by simp) (by simp)
  have hset := queuedCount_setQueue (s := s) (t := t) (workerKind conf i) q
  have ht := hwait t
  rw [queuedCount_goto]
  omega

/-- A step in which worker `i` is through with a task. -/
theorem Balance.of_close (hi : i < conf.workers) {pc : WorkerPc ι}
    (hw : s'.worker = Function.update s.worker i pc)
    (hqueued : ∀ u, s'.queuedCount u = s.queuedCount u)
    (hfrom : (s.worker i).waiting = [] ∧ (s.worker i).tried = [t] ∧ (s.worker i).spent = [])
    (hto : pc.waiting = [] ∧ pc.tried = [] ∧ pc.spent = [t])
    (hissued : Build.issued s'.log = Build.issued s.log)
    (hstarted : Build.started s'.log = Build.started s.log)
    (hretired : retired s'.log = retired s.log) :
    Balance conf s s' [] [t] [] := by
  refine .of_update hi hw ?_ ?_ ?_ (fun u => by rw [hissued]; rfl)
    (fun u => by rw [hstarted]; rfl) (fun u hu => by rw [hfrom.2.1]; exact hu)
  · intro u
    rw [hqueued, hto.1, hfrom.1]
  · intro u
    rw [hto.2.1, hfrom.2.1]
    simp
  · intro u
    rw [hto.2.2, hfrom.2.2, hretired]
    simp [Nat.add_comm]

variable (conf image) in
/-- The engine part of `builder` writes the status of its image and logs
what it did. -/
theorem workEffect_eq (status : ι → Status) (x : ι) (k : ℕ) (outcome : AttemptOutcome) :
    ∃ (st : Status) (called : Bool) (next : RunNext), workEffect conf image status x k outcome
        = ⟨Function.update status x st, none,
          .worked x k outcome :: if called then [.engine x] else [], next⟩ ∧
      (next = .goOn .verdict ∨ next = .failed) := by
  unfold workEffect
  simp only
  split
  · exact ⟨_, _, _, rfl, Or.inl rfl⟩
  · exact ⟨_, _, _, rfl, Or.inr rfl⟩

/-- A step inside `run` that goes on or fails, and writes events that are
no part of the account. -/
theorem RunMove.quiet {k : ℕ} {pc : RunPc} {status : ι → Status} {events : List (Event ι)}
    {next : RunNext} (hi : i < conf.workers) (hpc : s.worker i = .running t k pc)
    (hnext : (next.workerPc t k).waiting = [] ∧ (next.workerPc t k).tried = [t] ∧
      (next.workerPc t k).spent = [])
    (hissued : Build.issued events = []) (hstarted : Build.started events = [])
    (hretired : retired events = []) :
    Balance conf s ((⟨status, none, events, next⟩ : RunEffect ι).apply s i t k) [] [] [] := by
  refine .of_quiet hi rfl ?_ ?_ ?_ ?_ ?_
  · intro u
    rw [hnext.1, hpc]
    rfl
  · rw [hnext.2.1, hpc]
    rfl
  · rw [hnext.2.2, hpc]
    simp [RunEffect.apply, hretired, WorkerPc.spent]
  · simp [RunEffect.apply, hissued]
  · simp [RunEffect.apply, hstarted]

/-- Only a `PushIntoQueueTask` puts a task in `run`. -/
theorem RunMove.put_eq {status : ι → Status} {k : ℕ} {pc : RunPc} {e : RunEffect ι}
    (h : RunMove conf image status t k pc e) :
    e.put = none ∨ ∃ x, t = .pushInto x ∧ e.put = some (.push x) := by
  cases h with
  | pushInto => exact Or.inr ⟨_, rfl, rfl⟩
  | work outcome =>
    obtain ⟨st, called, next, he, -⟩ := workEffect_eq conf image status _ k
      outcome
    rw [he]
    exact Or.inl rfl
  | _ => exact Or.inl rfl

/-- What a step inside `run` does to the counts. -/
theorem RunMove.flow {k : ℕ} {pc : RunPc} {e : RunEffect ι}
    (h : RunMove conf image s.status t k pc e) (hi : i < conf.workers)
    (hpc : s.worker i = .running t k pc) :
    ∃ start close new, Flow conf image s (e.apply s i t k) start close new ∧
      Balance conf s (e.apply s i t k) start close new := by
  cases h with
  | skip | enter | refused | passed | refuse | start | built | failed | push | pushFailed =>
    exact ⟨_, _, _, .quiet, RunMove.quiet hi hpc ⟨rfl, rfl, rfl⟩ rfl rfl rfl⟩
  | @work x k outcome =>
    obtain ⟨st, called, next, he, hnext⟩ := workEffect_eq conf image
      s.status x k outcome
    rw [he]
    refine ⟨_, _, _, .quiet, RunMove.quiet hi hpc ?_ ?_ ?_ ?_⟩
    · rcases hnext with rfl | rfl <;> exact ⟨rfl, rfl, rfl⟩
    all_goals cases called <;> rfl
  | @pushInto x k =>
    refine ⟨_, _, _, .queue x, .of_update hi rfl ?_ ?_ ?_ ?_ ?_ ?_⟩
    · intro u
      rw [hpc]
      simp [RunEffect.apply, Sys.queuedCount, RunNext.workerPc, WorkerPc.waiting]
      omega
    · intro u
      rw [hpc]
      simp [RunNext.workerPc, WorkerPc.tried]
    · intro u
      rw [hpc]
      simp [RunEffect.apply, RunNext.workerPc, WorkerPc.spent]
      omega
    · intro u
      simp [RunEffect.apply, List.count_cons]
    · intro u
      rfl
    · intro u hu
      rw [hpc]
      exact hu
  | @pushDone x k _ =>
    exact ⟨_, _, _, .close (.push x), .of_close hi rfl (fun _ => rfl)
      (by rw [hpc]; exact ⟨rfl, rfl, rfl⟩) ⟨rfl, rfl, rfl⟩ rfl rfl rfl⟩

/-- What a step of a worker does to the counts. -/
theorem WorkerMove.flow (h : WorkerMove conf image s i s') (hi : i < conf.workers) :
    ∃ start close new, Flow conf image s s' start close new ∧
      Balance conf s s' start close new := by
  cases h with
  | @take t items hpc hq =>
    refine ⟨_, _, _, .quiet, .of_queue hi (fun u => ?_) (by rw [hpc]; rfl) (by rw [hpc]; rfl)⟩
    rw [tasks_eq_cons hq, hpc, List.count_cons]
    simp only [WorkerPc.waiting, List.count_singleton, List.count_nil]
    omega
  | @takeTombstone items hpc hq =>
    refine ⟨_, _, _, .quiet, .of_queue hi (fun u => ?_) (by rw [hpc]; rfl) (by rw [hpc]; rfl)⟩
    rw [tasks_eq_tail hq, hpc]
    rfl
  | putTombstone hpc =>
    refine ⟨_, _, _, .quiet, .of_queue hi (fun u => ?_) (by rw [hpc]; rfl) (by rw [hpc]; rfl)⟩
    rw [tasks_put_tombstone, hpc]
    rfl
  | @begin t k hpc hk =>
    cases k with
    | zero =>
      refine ⟨_, _, _, .start t, .of_update hi rfl ?_ ?_ ?_ ?_ ?_ ?_⟩
      · intro u
        rw [hpc]
        simp [WorkerPc.waiting]
      · intro u
        rw [hpc]
        simp [WorkerPc.tried]
      · intro u
        rw [hpc]
        simp [WorkerPc.spent]
      · intro u
        rfl
      · intro u
        simp [List.count_cons]
      · intro u hu
        cases hu
    | succ k =>
      exact ⟨_, _, _, .quiet, .of_quiet hi rfl (fun u => by rw [hpc]; rfl) (by rw [hpc]; rfl)
        (by rw [hpc]; rfl) rfl rfl⟩
  | @exhaust t k hpc hk =>
    cases k with
    | zero => exact absurd (Nat.succ_pos _) hk
    | succ k =>
      cases t with
      | build x =>
        exact ⟨_, _, _, .quiet, .of_quiet hi rfl (fun u => by rw [hpc]; rfl) (by rw [hpc]; rfl)
          (by rw [hpc]; rfl) rfl rfl⟩
      | pushInto x =>
        exact ⟨_, _, _, .close (.pushInto x), .of_close hi rfl (fun _ => rfl)
          (by rw [hpc]; exact ⟨rfl, rfl, rfl⟩) ⟨rfl, rfl, rfl⟩ rfl rfl rfl⟩
      | push x =>
        exact ⟨_, _, _, .close (.push x), .of_close hi rfl (fun _ => rfl)
          (by rw [hpc]; exact ⟨rfl, rfl, rfl⟩) ⟨rfl, rfl, rfl⟩ rfl rfl rfl⟩
  | run hpc he => exact he.flow hi hpc
  | @follow t hpc =>
    cases t with
    | build x =>
      refine ⟨_, _, _, .follow x (by simp), .of_update hi rfl ?_ ?_ ?_ ?_ ?_ ?_⟩
      · intro u
        rw [hpc]
        simp [WorkerPc.waiting]
      · intro u
        rw [hpc]
        simp [WorkerPc.tried]
      · intro u
        rw [hpc]
        simp [WorkerPc.spent]
        omega
      · intro u
        simp
        omega
      · intro u
        simp
      · intro u hu
        rw [hpc]
        exact hu
    | pushInto x | push x =>
      exact ⟨_, _, _, .quiet, .of_quiet hi rfl (fun u => by rw [hpc]; rfl) (by rw [hpc]; rfl)
        (by rw [hpc]; rfl) rfl rfl⟩
  | @giveUp t hpc =>
    cases t with
    | build x =>
      exact ⟨_, _, _, .close (.build x), .of_close hi rfl (fun _ => rfl)
        (by rw [hpc]; exact ⟨rfl, rfl, rfl⟩) ⟨rfl, rfl, rfl⟩ rfl rfl rfl⟩
    | pushInto x | push x =>
      exact ⟨_, _, _, .quiet, .of_quiet hi rfl (fun u => by rw [hpc]; rfl) (by rw [hpc]; rfl)
        (by rw [hpc]; rfl) rfl rfl⟩
  | @put t next rest hpc =>
    refine ⟨_, _, _, .quiet, .of_queue hi (fun u => ?_) (by rw [hpc]; rfl) (by rw [hpc]; rfl)⟩
    rw [tasks_put_task, hpc, List.count_append]
    simp only [WorkerPc.waiting, List.count_cons, List.count_nil]
    omega
  | @allPut t hpc =>
    exact ⟨_, _, _, .quiet, .of_quiet hi rfl (fun u => by rw [hpc]; rfl) (by rw [hpc]; rfl)
      (by rw [hpc]; rfl) rfl rfl⟩
  | @finish t hpc =>
    refine ⟨_, _, _, .quiet, .of_quiet hi (by simp; rfl) ?_ ?_ ?_ ?_ ?_⟩
    · intro u
      have hset := queuedCount_setQueue (s := s) (t := u) (workerKind conf i)
        (s.queue (workerKind conf i)).taskDone
      rw [tasks_taskDone] at hset
      rw [hpc, queuedCount_goto, queuedCount_emit]
      simp only [WorkerPc.waiting, List.count_nil]
      omega
    · rw [hpc]
      rfl
    · rw [hpc]
      simp [WorkerPc.spent]
    · simp
    · simp

/-- The main thread moves tombstones only. -/
theorem MainMove.frame (h : MainMove s s') :
    s'.status = s.status ∧ s'.worker = s.worker ∧ s'.log = s.log ∧
      ∀ t, s'.queuedCount t = s.queuedCount t := by
  cases h with
  | sleep | buildDone | again | leave => exact ⟨rfl, rfl, rfl, fun _ => rfl⟩
  | tombPush | tombBuild =>
    refine ⟨rfl, rfl, rfl, fun t => ?_⟩
    rw [Sys.queuedCount, Sys.queuedCount, tasks_put_tombstone]

/-- The log grows. -/
theorem step_log {a : Action} (h : step conf image s a = some s') :
    ∃ events, s'.log = events ++ s.log := by
  rcases step_cases h with ⟨i, hi, hmove⟩ | hmove
  · cases hmove with
    | run hpc he => exact ⟨_, rfl⟩
    | begin | follow | giveUp => exact ⟨_, rfl⟩
    | exhaust | allPut => exact ⟨[], rfl⟩
    | take | takeTombstone | putTombstone | put => exact ⟨[], by simp⟩
    | @finish t hpc => exact ⟨[.retired t], by simp⟩
  · exact ⟨[], hmove.frame.2.2.1⟩

/-- An event stays in the log. -/
theorem mem_log_of_reachable (h : Reachable (step conf image) s s') {e : Event ι} (he : e ∈ s.log) :
    e ∈ s'.log := by
  refine h.invariant (P := fun s' => e ∈ s'.log) he ?_
  intro u a v _ hu hstep
  obtain ⟨events, hlog⟩ := step_log hstep
  rw [hlog]
  exact List.mem_append_right _ hu

/-- What a step of the system does to the counts. -/
theorem step_flow {a : Action} (h : step conf image s a = some s') :
    ∃ start close new, Flow conf image s s' start close new ∧
      Balance conf s s' start close new := by
  rcases step_cases h with ⟨i, hi, hmove⟩ | hmove
  · exact hmove.flow hi
  · obtain ⟨-, hworker, hlog, hqueued⟩ := hmove.frame
    refine ⟨_, _, _, .quiet, ⟨?_, ?_, ?_, ?_, ?_, by simp⟩⟩
    all_goals
      intro t
      simp only [Sys.waitingCount, Sys.triedCount, Sys.spentCount, hqueued, hworker, hlog,
        List.count_nil, Nat.add_zero]

end Flow

/-! ## The books of a whole run -/

section Run

variable [DecidableEq ι] {conf : Conf} {image : Heap ι} {images : List ι} {s : Sys ι}

omit [DecidableEq ι] in
theorem tasks_foldl_put (tasks : List (Task ι)) (q : TaskQueue ι) :
    (tasks.foldl (fun q t => q.put (.task t)) q).tasks = q.tasks ++ tasks := by
  induction tasks generalizing q with
  | nil => simp
  | cons t tasks ih =>
    rw [List.foldl_cons, ih, tasks_put_task, List.append_assoc]
    rfl

omit [DecidableEq ι] in
theorem tasks_buildQueue : (buildQueue image images).tasks = initialTasks image images := by
  rw [buildQueue, tasks_foldl_put]
  rfl

/-- The books are balanced: every issued task is waiting, tried or spent,
and it was attempted unless it is waiting. -/
theorem balance (h : Reachable (step conf image) (initial image images) s) (t : Task ι) :
    (issued s.log).count t = s.waitingCount conf t + s.triedCount conf t + s.spentCount conf t ∧
      (started s.log).count t = s.triedCount conf t + s.spentCount conf t := by
  refine h.invariant (P := fun s => (issued s.log).count t
      = s.waitingCount conf t + s.triedCount conf t + s.spentCount conf t ∧
      (started s.log).count t = s.triedCount conf t + s.spentCount conf t) ?_ ?_
  · simp only [initial, issued_map, started_map, retired_map, Sys.waitingCount, Sys.triedCount,
      Sys.spentCount, Sys.queuedCount, tasks_buildQueue, WorkerPc.waiting, WorkerPc.tried,
      WorkerPc.spent, List.count_nil, Finset.sum_const_zero, Nat.add_zero, and_true]
    rfl
  · intro u a v _ hu hstep
    obtain ⟨start, close, new, -, hb⟩ := step_flow hstep
    have := hb.waiting t
    have := hb.tried t
    have := hb.spent t
    have := hb.issued t
    have := hb.started t
    omega

/-- A step of a worker moves that worker only. -/
theorem WorkerMove.worker_frame {s' : Sys ι} {i j : ℕ} (h : WorkerMove conf image s i s')
    (hj : j ≠ i) : s'.worker j = s.worker j := by
  cases h with
  | run hpc he => exact Function.update_of_ne hj _ _
  | take | takeTombstone | putTombstone | put | finish => simp [Function.update_of_ne hj]
  | begin | exhaust | follow | giveUp | allPut => exact Function.update_of_ne hj _ _

/-- There are as many workers as configured. -/
theorem lt_workers (h : Reachable (step conf image) (initial image images) s) {i : ℕ}
    (hi : s.worker i ≠ .idle) : i < conf.workers := by
  by_contra hge
  refine hi (h.invariant (P := fun s => s.worker i = .idle) rfl ?_)
  intro u a v _ hu hstep
  rcases step_cases hstep with ⟨j, hj, hmove⟩ | hmove
  · rw [hmove.worker_frame (by omega), hu]
  · rw [hmove.frame.2.1, hu]

end Run

end Kolla.Build
