import Kolla.Lib.Transition
import Kolla.Build.Tasks

/-!
# The worker threads and the main thread

`kolla/image/build.py`: the build and push workers, their two queues and
the main thread that waits for them, as one transition system.

One step of the system is one access of one thread to something another
thread can see: a queue operation, a read of a counter, or a read or a
write of an image status.  What a thread does in between is local to it.
Two steps are coarser.  The part of `builder` that talks to the engine
(`RunPc.work`) writes the status of its own image several times, and the
model keeps the last write; `followups` reads the statuses of all children
of a built image at once.

Workers `0, …, threads - 1` serve the build queue, and the next
`pushThreads` serve the push queue.  A thread that has not been started
yet is a worker that has not taken a step yet.  There is no keyboard
interrupt, so `should_stop` stays false and is left out.

`Sys.log` is no part of the program.  It records what happened, newest
first, and no step reads it.
-/

namespace Kolla.Build

open Kolla.Lib

/-- A task object: `BuildTask`, `PushIntoQueueTask` or `PushTask` of an
image. -/
inductive Task (ι : Type)
  | build (x : ι)
  | pushInto (x : ι)
  | push (x : ι)
  deriving DecidableEq, Repr

/-- The image of a task. -/
def Task.image {ι : Type} : Task ι → ι
  | .build x => x
  | .pushInto x => x
  | .push x => x

/-- An element of a queue. -/
inductive Item (ι : Type)
  | task (t : Task ι)
  | tombstone
  deriving DecidableEq, Repr

/-- `queue.Queue`: the elements in order, and `unfinished_tasks`. -/
structure TaskQueue (ι : Type) where
  items : List (Item ι)
  unfinished : ℕ

/-- `Queue.put`. -/
def TaskQueue.put {ι : Type} (q : TaskQueue ι) (item : Item ι) : TaskQueue ι :=
  ⟨q.items ++ [item], q.unfinished + 1⟩

/-- `Queue.task_done`. -/
def TaskQueue.taskDone {ι : Type} (q : TaskQueue ι) : TaskQueue ι :=
  { q with unfinished := q.unfinished - 1 }

/-- The two queues. -/
inductive Kind
  | build
  | push
  deriving DecidableEq, Repr

/-- Where a worker is inside `task.run()`. -/
inductive RunPc
  /-- `run` is entered -/
  | enter
  /-- `builder` is about to read the status of the parent -/
  | parentCheck
  /-- `builder` is about to set `PARENT_ERROR` -/
  | refuse
  /-- `builder` is about to set `BUILDING` -/
  | start
  /-- sources, archives and the engine -/
  | work
  /-- `run` is about to read the status and to set `success` -/
  | verdict
  deriving DecidableEq, Repr

/-- Where a worker is inside `WorkerThread.run`. -/
inductive WorkerPc (ι : Type)
  /-- before `queue.get()` -/
  | idle
  /-- has taken the tombstone and is about to put it back -/
  | tombstone
  | dead
  /-- at the head of the loop over the attempts -/
  | attempt (t : Task ι) (k : ℕ)
  | running (t : Task ι) (k : ℕ) (pc : RunPc)
  /-- after the loop over the attempts -/
  | ended (t : Task ι) (success : Bool)
  /-- in the loop over the followups -/
  | putting (t : Task ι) (rest : List (Task ι))
  /-- before `queue.task_done()` -/
  | finishing (t : Task ι)
  deriving DecidableEq

/-- Where the main thread is in `run_build`. -/
inductive MainPc
  | readBuild
  | readPush
  | tombPush
  | tombBuild
  | joining
  deriving DecidableEq, Repr

/-- What happened. -/
inductive Event (ι : Type)
  /-- a task object came into being, for `PushTask` when it was queued -/
  | issued (t : Task ι)
  /-- attempt `k` of a task began -/
  | attempt (t : Task ι) (k : ℕ)
  /-- the parent check of attempt `k` read this status -/
  | parentCheck (x : ι) (k : ℕ) (parent : Option Status)
  /-- attempt `k` past the parent check had this outcome -/
  | worked (x : ι) (k : ℕ) (outcome : AttemptOutcome)
  /-- the engine was asked to build the image -/
  | engine (x : ι)
  /-- attempt `k` at a push had this outcome -/
  | pushed (x : ι) (k : ℕ) (outcome : PushOutcome)
  /-- the attempts of a task were over -/
  | ended (t : Task ι) (success : Bool)
  /-- `task_done` was called for a task -/
  | retired (t : Task ι)

/-- The state of the system. -/
structure Sys (ι : Type) where
  status : ι → Status
  buildQueue : TaskQueue ι
  pushQueue : TaskQueue ι
  worker : ℕ → WorkerPc ι
  main : MainPc
  log : List (Event ι)

namespace Sys

variable {ι : Type}

/-- The queue of a kind. -/
def queue (s : Sys ι) : Kind → TaskQueue ι
  | .build => s.buildQueue
  | .push => s.pushQueue

/-- The state with another queue of a kind. -/
def setQueue (s : Sys ι) (kind : Kind) (q : TaskQueue ι) : Sys ι :=
  match kind with
  | .build => { s with buildQueue := q }
  | .push => { s with pushQueue := q }

/-- The state in which worker `i` is somewhere else. -/
def goto (s : Sys ι) (i : ℕ) (pc : WorkerPc ι) : Sys ι :=
  { s with worker := Function.update s.worker i pc }

/-- The state with these events on top of the log. -/
def emit (s : Sys ι) (events : List (Event ι)) : Sys ι :=
  { s with log := events ++ s.log }

end Sys

/-- The queue that a worker serves. -/
def workerKind (conf : Conf) (i : ℕ) : Kind :=
  if i < conf.threads then .build else .push

/-- The number of workers. -/
def Conf.workers (conf : Conf) : ℕ := conf.threads + conf.pushThreads

/-- The statuses that `build_queue` and `followups` pass over. -/
def unwanted : List Status := [.unmatched, .skipped, .unbuildable]

section Steps

variable {ι : Type} [DecidableEq ι] (conf : Conf) (image : Heap ι)

/-- `BuildTask.followups` of a task that succeeded; other tasks have
none. -/
def followups (status : ι → Status) : Task ι → List (Task ι)
  | .build x =>
    (if conf.push then [.pushInto x] else []) ++
      ((image x).children.filter fun y => decide (status y ∉ unwanted)).map .build
  | .pushInto _ => []
  | .push _ => []

/-- What the environment does in a step that asks it. -/
inductive Choice
  | none
  | attempt (outcome : AttemptOutcome)
  | push (outcome : PushOutcome)

/-- How a step inside `run` goes on. -/
inductive RunNext
  | goOn (pc : RunPc)
  | failed
  | succeeded

/-- The effect of a step inside `run`: the statuses, the task that is put
on the push queue, the events and how it goes on. -/
structure RunEffect (ι : Type) where
  status : ι → Status
  put : Option (Task ι)
  events : List (Event ι)
  next : RunNext

/-- The effect of the engine part of `builder`. -/
def workEffect (status : ι → Status) (x : ι) (k : ℕ) (outcome : AttemptOutcome) :
    RunEffect ι :=
  let events (s : Attempt) : List (Event ι) :=
    .worked x k outcome :: if s.engineCalled then [.engine x] else []
  match buildImage conf (image x) outcome ⟨status x, false⟩ with
  | .ok _ s => ⟨Function.update status x s.status, none, events s, .goOn .verdict⟩
  | .error _ s => ⟨Function.update status x s.status, none, events s, .failed⟩

/-- One step of `BuildTask.run`. -/
def buildStep (status : ι → Status) (x : ι) (k : ℕ) (pc : RunPc) (choice : Choice) :
    Option (RunEffect ι) :=
  match pc with
  | .enter =>
    some ⟨status, none, [], .goOn (if skipsBuild (status x) then .verdict else .parentCheck)⟩
  | .parentCheck =>
    let parent := (image x).parent.map status
    some ⟨status, none, [.parentCheck x k parent],
      .goOn (if parentFailed parent then .refuse else .start)⟩
  | .refuse => some ⟨Function.update status x .parentError, none, [], .goOn .verdict⟩
  | .start => some ⟨Function.update status x .building, none, [], .goOn .work⟩
  | .work =>
    match choice with
    | .attempt outcome => some (workEffect conf image status x k outcome)
    | _ => none
  | .verdict =>
    some ⟨status, none, [], if buildSucceeded (status x) then .succeeded else .failed⟩

/-- One step of `PushTask.run`. -/
def pushStep (status : ι → Status) (x : ι) (k : ℕ) (pc : RunPc) (choice : Choice) :
    Option (RunEffect ι) :=
  match pc, choice with
  | .enter, .push outcome =>
    some ⟨Function.update status x (pushStatus outcome), none, [.pushed x k outcome],
      .goOn .verdict⟩
  | .verdict, _ =>
    some ⟨status, none, [], if pushSucceeded (status x) then .succeeded else .failed⟩
  | _, _ => none

/-- One step of `PushIntoQueueTask.run`. -/
def pushIntoStep (status : ι → Status) (x : ι) (pc : RunPc) : Option (RunEffect ι) :=
  match pc with
  | .enter => some ⟨status, some (.push x), [.issued (.push x)], .succeeded⟩
  | _ => none

/-- One step of `task.run()`. -/
def runStep (status : ι → Status) (t : Task ι) (k : ℕ) (pc : RunPc) (choice : Choice) :
    Option (RunEffect ι) :=
  match t with
  | .build x => buildStep conf image status x k pc choice
  | .pushInto x => pushIntoStep status x pc
  | .push x => pushStep status x k pc choice

/-- Where a worker is after a step inside `run`. -/
def RunNext.workerPc (t : Task ι) (k : ℕ) : RunNext → WorkerPc ι
  | .goOn pc => .running t k pc
  | .failed => .attempt t (k + 1)
  | .succeeded => .ended t true

/-- The state after a step inside `run` of worker `i`. -/
def RunEffect.apply (e : RunEffect ι) (s : Sys ι) (i : ℕ) (t : Task ι) (k : ℕ) : Sys ι where
  status := e.status
  buildQueue := s.buildQueue
  pushQueue :=
    match e.put with
    | none => s.pushQueue
    | some t => s.pushQueue.put (.task t)
  worker := Function.update s.worker i (e.next.workerPc t k)
  main := s.main
  log := e.events ++ s.log

/-- One step of `WorkerThread.run` of worker `i`. -/
def workerStep (s : Sys ι) (i : ℕ) (choice : Choice) : Option (Sys ι) :=
  let kind := workerKind conf i
  match s.worker i with
  | .idle =>
    match (s.queue kind).items with
    | [] => none
    | .task t :: items =>
      some ((s.setQueue kind { s.queue kind with items := items }).goto i (.attempt t 0))
    | .tombstone :: items =>
      some ((s.setQueue kind { s.queue kind with items := items }).goto i .tombstone)
  | .tombstone => some ((s.setQueue kind ((s.queue kind).put .tombstone)).goto i .dead)
  | .dead => none
  | .attempt t k =>
    if k < conf.retries + 1 then
      some ((s.emit [.attempt t k]).goto i (.running t k .enter))
    else
      some (s.goto i (.ended t false))
  | .running t k pc => (runStep conf image s.status t k pc choice).map fun e => e.apply s i t k
  | .ended t true =>
    let tasks := followups conf image s.status t
    some ((s.emit (.ended t true :: tasks.map .issued)).goto i (.putting t tasks))
  | .ended t false => some ((s.emit [.ended t false]).goto i (.finishing t))
  | .putting t (next :: rest) =>
    some ((s.setQueue kind ((s.queue kind).put (.task next))).goto i (.putting t rest))
  | .putting t [] => some (s.goto i (.finishing t))
  | .finishing t =>
    some (((s.setQueue kind (s.queue kind).taskDone).emit [.retired t]).goto i .idle)

/-- One step of the main thread.  Its waiting loop reads the counter of the
build queue and, when that is zero, the counter of the push queue. -/
def mainStep (s : Sys ι) : Option (Sys ι) :=
  match s.main with
  | .readBuild =>
    if s.buildQueue.unfinished ≠ 0 then some s else some { s with main := .readPush }
  | .readPush =>
    if s.pushQueue.unfinished ≠ 0 then some { s with main := .readBuild }
    else some { s with main := .tombPush }
  | .tombPush =>
    some { s with pushQueue := s.pushQueue.put .tombstone, main := .tombBuild }
  | .tombBuild =>
    some { s with buildQueue := s.buildQueue.put .tombstone, main := .joining }
  | .joining => none

/-- Who takes a step. -/
inductive Action
  | worker (i : ℕ) (choice : Choice)
  | main

/-- One step of the system. -/
def step (s : Sys ι) : Action → Option (Sys ι)
  | .worker i choice => if i < conf.workers then workerStep conf image s i choice else none
  | .main => mainStep s

/-- The roots of `build_queue`: the images that are not unwanted and have
no parent, or a parent that is skipped. -/
def isRoot (x : ι) : Bool :=
  decide ((image x).status ∉ unwanted) &&
    match (image x).parent with
    | none => true
    | some p => decide ((image p).status = .skipped)

/-- The tasks that `build_queue` creates. -/
def initialTasks (images : List ι) : List (Task ι) :=
  (images.filter fun x => isRoot image x).map .build

/-- `KollaWorker.build_queue`: a put for every task. -/
def buildQueue (images : List ι) : TaskQueue ι :=
  (initialTasks image images).foldl (fun q t => q.put (.task t)) ⟨[], 0⟩

/-- The state in which `run_build` starts its workers. -/
def initial (images : List ι) : Sys ι where
  status x := (image x).status
  buildQueue := buildQueue image images
  pushQueue := ⟨[], 0⟩
  worker _ := .idle
  main := .readBuild
  log := (initialTasks image images).map .issued

end Steps

/-! ## What one step can do

`RunMove` lists the steps inside `run`, `WorkerMove` the steps of a worker
and `MainMove` those of the main thread, each with its guards.  Every
invariant below is a case analysis over them. -/

section Moves

variable {ι : Type} [DecidableEq ι] {conf : Conf} {image : Heap ι}

/-- A step inside `run`. -/
inductive RunMove (conf : Conf) (image : Heap ι) (status : ι → Status) :
    Task ι → ℕ → RunPc → RunEffect ι → Prop
  | skip {x : ι} {k : ℕ} (h : skipsBuild (status x) = true) :
      RunMove conf image status (.build x) k .enter ⟨status, none, [], .goOn .verdict⟩
  | enter {x : ι} {k : ℕ} (h : skipsBuild (status x) = false) :
      RunMove conf image status (.build x) k .enter ⟨status, none, [], .goOn .parentCheck⟩
  | refused {x : ι} {k : ℕ} (h : parentFailed ((image x).parent.map status) = true) :
      RunMove conf image status (.build x) k .parentCheck
        ⟨status, none, [.parentCheck x k ((image x).parent.map status)], .goOn .refuse⟩
  | passed {x : ι} {k : ℕ} (h : parentFailed ((image x).parent.map status) = false) :
      RunMove conf image status (.build x) k .parentCheck
        ⟨status, none, [.parentCheck x k ((image x).parent.map status)], .goOn .start⟩
  | refuse {x : ι} {k : ℕ} :
      RunMove conf image status (.build x) k .refuse
        ⟨Function.update status x .parentError, none, [], .goOn .verdict⟩
  | start {x : ι} {k : ℕ} :
      RunMove conf image status (.build x) k .start
        ⟨Function.update status x .building, none, [], .goOn .work⟩
  | work {x : ι} {k : ℕ} (outcome : AttemptOutcome) :
      RunMove conf image status (.build x) k .work (workEffect conf image status x k outcome)
  | built {x : ι} {k : ℕ} (h : buildSucceeded (status x) = true) :
      RunMove conf image status (.build x) k .verdict ⟨status, none, [], .succeeded⟩
  | failed {x : ι} {k : ℕ} (h : buildSucceeded (status x) = false) :
      RunMove conf image status (.build x) k .verdict ⟨status, none, [], .failed⟩
  | pushInto {x : ι} {k : ℕ} :
      RunMove conf image status (.pushInto x) k .enter
        ⟨status, some (.push x), [.issued (.push x)], .succeeded⟩
  | push {x : ι} {k : ℕ} (outcome : PushOutcome) :
      RunMove conf image status (.push x) k .enter
        ⟨Function.update status x (pushStatus outcome), none, [.pushed x k outcome],
          .goOn .verdict⟩
  | pushDone {x : ι} {k : ℕ} (h : pushSucceeded (status x) = true) :
      RunMove conf image status (.push x) k .verdict ⟨status, none, [], .succeeded⟩
  | pushFailed {x : ι} {k : ℕ} (h : pushSucceeded (status x) = false) :
      RunMove conf image status (.push x) k .verdict ⟨status, none, [], .failed⟩

/-- A step of worker `i`. -/
inductive WorkerMove (conf : Conf) (image : Heap ι) (s : Sys ι) (i : ℕ) : Sys ι → Prop
  | take {t : Task ι} {items : List (Item ι)} (hpc : s.worker i = .idle)
      (hq : (s.queue (workerKind conf i)).items = .task t :: items) :
      WorkerMove conf image s i
        ((s.setQueue (workerKind conf i)
          { s.queue (workerKind conf i) with items := items }).goto i (.attempt t 0))
  | takeTombstone {items : List (Item ι)} (hpc : s.worker i = .idle)
      (hq : (s.queue (workerKind conf i)).items = .tombstone :: items) :
      WorkerMove conf image s i
        ((s.setQueue (workerKind conf i)
          { s.queue (workerKind conf i) with items := items }).goto i .tombstone)
  | putTombstone (hpc : s.worker i = .tombstone) :
      WorkerMove conf image s i
        ((s.setQueue (workerKind conf i)
          ((s.queue (workerKind conf i)).put .tombstone)).goto i .dead)
  | begin {t : Task ι} {k : ℕ} (hpc : s.worker i = .attempt t k) (hk : k < conf.retries + 1) :
      WorkerMove conf image s i ((s.emit [.attempt t k]).goto i (.running t k .enter))
  | exhaust {t : Task ι} {k : ℕ} (hpc : s.worker i = .attempt t k)
      (hk : ¬ k < conf.retries + 1) :
      WorkerMove conf image s i (s.goto i (.ended t false))
  | run {t : Task ι} {k : ℕ} {pc : RunPc} {e : RunEffect ι}
      (hpc : s.worker i = .running t k pc)
      (he : RunMove conf image s.status t k pc e) :
      WorkerMove conf image s i (e.apply s i t k)
  | follow {t : Task ι} (hpc : s.worker i = .ended t true) :
      WorkerMove conf image s i
        ((s.emit (.ended t true :: (followups conf image s.status t).map .issued)).goto i
          (.putting t (followups conf image s.status t)))
  | giveUp {t : Task ι} (hpc : s.worker i = .ended t false) :
      WorkerMove conf image s i ((s.emit [.ended t false]).goto i (.finishing t))
  | put {t next : Task ι} {rest : List (Task ι)} (hpc : s.worker i = .putting t (next :: rest)) :
      WorkerMove conf image s i
        ((s.setQueue (workerKind conf i)
          ((s.queue (workerKind conf i)).put (.task next))).goto i (.putting t rest))
  | allPut {t : Task ι} (hpc : s.worker i = .putting t []) :
      WorkerMove conf image s i (s.goto i (.finishing t))
  | finish {t : Task ι} (hpc : s.worker i = .finishing t) :
      WorkerMove conf image s i
        (((s.setQueue (workerKind conf i)
          (s.queue (workerKind conf i)).taskDone).emit [.retired t]).goto i .idle)

/-- A step of the main thread. -/
inductive MainMove (s : Sys ι) : Sys ι → Prop
  | sleep (hm : s.main = .readBuild) (hq : s.buildQueue.unfinished ≠ 0) : MainMove s s
  | buildDone (hm : s.main = .readBuild) (hq : s.buildQueue.unfinished = 0) :
      MainMove s { s with main := .readPush }
  | again (hm : s.main = .readPush) (hq : s.pushQueue.unfinished ≠ 0) :
      MainMove s { s with main := .readBuild }
  | leave (hm : s.main = .readPush) (hq : s.pushQueue.unfinished = 0) :
      MainMove s { s with main := .tombPush }
  | tombPush (hm : s.main = .tombPush) :
      MainMove s { s with pushQueue := s.pushQueue.put .tombstone, main := .tombBuild }
  | tombBuild (hm : s.main = .tombBuild) :
      MainMove s { s with buildQueue := s.buildQueue.put .tombstone, main := .joining }

theorem runStep_move {status : ι → Status} {t : Task ι} {k : ℕ} {pc : RunPc} {choice : Choice}
    {e : RunEffect ι} (h : runStep conf image status t k pc choice = some e) :
    RunMove conf image status t k pc e := by
  cases t with
  | build x =>
    cases pc with
    | enter =>
      cases h
      cases hskip : skipsBuild (status x) with
      | false => exact .enter hskip
      | true => exact .skip hskip
    | parentCheck =>
      cases h
      cases hparent : parentFailed ((image x).parent.map status) with
      | false => exact .passed hparent
      | true => exact .refused hparent
    | refuse =>
      cases h
      exact .refuse
    | start =>
      cases h
      exact .start
    | work =>
      cases choice with
      | attempt outcome =>
        cases h
        exact .work outcome
      | _ => cases h
    | verdict =>
      cases h
      cases hbuilt : buildSucceeded (status x) with
      | false => exact .failed hbuilt
      | true => exact .built hbuilt
  | pushInto x =>
    cases pc with
    | enter =>
      cases h
      exact .pushInto
    | _ => cases h
  | push x =>
    cases pc with
    | enter =>
      cases choice with
      | push outcome =>
        cases h
        exact .push outcome
      | _ => cases h
    | verdict =>
      cases h
      cases hpushed : pushSucceeded (status x) with
      | false => exact .pushFailed hpushed
      | true => exact .pushDone hpushed
    | _ => cases h

theorem workerStep_move {s s' : Sys ι} {i : ℕ} {choice : Choice}
    (h : workerStep conf image s i choice = some s') : WorkerMove conf image s i s' := by
  unfold workerStep at h
  simp only at h
  split at h
  · rename_i hpc
    split at h
    · cases h
    · rename_i hq
      cases h
      exact .take hpc hq
    · rename_i hq
      cases h
      exact .takeTombstone hpc hq
  · rename_i hpc
    cases h
    exact .putTombstone hpc
  · cases h
  · rename_i hpc
    split at h
    · rename_i hk
      cases h
      exact .begin hpc hk
    · rename_i hk
      cases h
      exact .exhaust hpc hk
  · rename_i hpc
    obtain ⟨e, he, rfl⟩ := Option.map_eq_some_iff.mp h
    exact .run hpc (runStep_move he)
  · rename_i hpc
    cases h
    exact .follow hpc
  · rename_i hpc
    cases h
    exact .giveUp hpc
  · rename_i hpc
    cases h
    exact .put hpc
  · rename_i hpc
    cases h
    exact .allPut hpc
  · rename_i hpc
    cases h
    exact .finish hpc

omit [DecidableEq ι] in
theorem mainStep_move {s s' : Sys ι} (h : mainStep s = some s') : MainMove s s' := by
  unfold mainStep at h
  split at h
  · rename_i hm
    split at h
    · rename_i hq
      cases h
      exact .sleep hm hq
    · rename_i hq
      cases h
      exact .buildDone hm (not_not.mp hq)
  · rename_i hm
    split at h
    · rename_i hq
      cases h
      exact .again hm hq
    · rename_i hq
      cases h
      exact .leave hm (not_not.mp hq)
  · rename_i hm
    cases h
    exact .tombPush hm
  · rename_i hm
    cases h
    exact .tombBuild hm
  · cases h

/-- A step of the system is a step of a worker or of the main thread. -/
theorem step_cases {s s' : Sys ι} {a : Action} (h : step conf image s a = some s') :
    (∃ i, i < conf.workers ∧ WorkerMove conf image s i s') ∨ MainMove s s' := by
  cases a with
  | worker i choice =>
    simp only [step] at h
    split at h
    · rename_i hi
      exact Or.inl ⟨i, hi, workerStep_move h⟩
    · cases h
  | main => exact Or.inr (mainStep_move h)

end Moves

end Kolla.Build
