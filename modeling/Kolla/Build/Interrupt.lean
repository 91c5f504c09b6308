import Kolla.Build.Progress

/-!
# A keyboard interrupt

The model of the worker threads in `Kolla.Build.WorkerThread` has no
keyboard interrupt.  `Pool` is the rest of `WorkerThread.run`, of `run_build`
and of `join_many` (`kolla/image/build.py`): the main thread starts the
workers one after the other, and at a `KeyboardInterrupt` it sets the
`should_stop` of those in its list, puts the tombstones and joins them.  A
worker reads its flag in front of `queue.get()`, in front of every attempt
and in front of the followups.

The interrupt comes at most once, while the workers are started or at any
point up to the joins.  A second one is left out.

`mirrored` relates the two models.  What a worker does once it has read its
flag is visible to nobody, so a pool with an interrupt has the statuses and
the events of a pool without one in which some workers are slow.  As long as
there is no interrupt the two are equal.  `interrupted_discipline` is what
the order of the builds is worth in an interrupted run.
-/

namespace Kolla.Build

open Kolla.Lib

/-- Where the main thread is, from the start of the workers on. -/
inductive Control
  /-- `n` workers are in the list `workers` -/
  | starting (n : ℕ)
  /-- in the waiting loop or behind it; `Sys.main` says where -/
  | waiting
  /-- in the handler: `j` of the `n` workers in the list have their flag -/
  | stopping (j n : ℕ)
  | tombPush (n : ℕ)
  | tombBuild (n : ℕ)
  /-- in the handler of `join_many` -/
  | joining (n : ℕ)
  deriving DecidableEq, Repr

/-- The interrupt has come. -/
def Control.interrupted : Control → Bool
  | .starting _ => false
  | .waiting => false
  | .stopping _ _ => true
  | .tombPush _ => true
  | .tombBuild _ => true
  | .joining _ => true

/-- The threads with their flags.  Worker `i` is started if it is below
`started`, and `head i` says that it is about to read its flag in front of
`queue.get()`. -/
structure Pool (ι : Type) where
  sys : Sys ι
  started : ℕ
  head : ℕ → Bool
  shouldStop : ℕ → Bool
  control : Control

/-- Who takes a step. -/
inductive PoolAction
  | worker (i : ℕ) (choice : Choice)
  | main
  | interrupt

/-- The worker is in front of `task_done`. -/
def WorkerPc.isFinishing {ι : Type} : WorkerPc ι → Bool
  | .finishing _ => true
  | _ => false

section Steps

variable {ι : Type} [DecidableEq ι] (conf : Conf) (image : Heap ι)

/-- `while not self.should_stop`. -/
def Pool.readFlag (p : Pool ι) (i : ℕ) : Pool ι :=
  { p with
    head := Function.update p.head i false
    sys := if p.shouldStop i then p.sys.goto i .dead else p.sys }

/-- A step of worker `i` that reads no flag, or reads it and goes on.  After
`task_done` it is at the head of its loop again. -/
def Pool.goOn (p : Pool ι) (i : ℕ) (choice : Choice) : Option (Pool ι) :=
  (workerStep conf image p.sys i choice).map fun sys =>
    { p with sys := sys, head := Function.update p.head i (p.sys.worker i).isFinishing }

/-- One step of `WorkerThread.run`. -/
def poolWorkerStep (p : Pool ι) (i : ℕ) (choice : Choice) : Option (Pool ι) :=
  if p.head i then some (p.readFlag i)
  else
    match p.sys.worker i with
    | .attempt t k =>
      if k < conf.retries + 1 ∧ p.shouldStop i = true then
        some { p with sys := p.sys.goto i (.ended t false) }
      else p.goOn conf image i choice
    | .ended t true =>
      if p.shouldStop i then
        some { p with sys := (p.sys.emit [.ended t true]).goto i (.finishing t) }
      else p.goOn conf image i choice
    | _ => p.goOn conf image i choice

/-- One step of the main thread. -/
def poolMainStep (p : Pool ι) : Option (Pool ι) :=
  match p.control with
  | .starting n =>
    if n = conf.workers then some { p with control := .waiting }
    else if p.started = n then some { p with started := n + 1 }
    else some { p with control := .starting (n + 1) }
  | .waiting => (mainStep p.sys).map fun sys => { p with sys := sys }
  | .stopping j n =>
    if j < n then
      some { p with
        shouldStop := Function.update p.shouldStop j true, control := .stopping (j + 1) n }
    else some { p with control := .tombPush n }
  | .tombPush n =>
    some { p with
      sys := p.sys.setQueue .push (p.sys.pushQueue.put .tombstone), control := .tombBuild n }
  | .tombBuild n =>
    some { p with
      sys := p.sys.setQueue .build (p.sys.buildQueue.put .tombstone), control := .joining n }
  | .joining _ => none

/-- `KeyboardInterrupt` in the main thread. -/
def Pool.interrupt (p : Pool ι) : Option (Pool ι) :=
  match p.control with
  | .starting n => some { p with control := .stopping 0 n }
  | .waiting =>
    if p.sys.main = .joining then none else some { p with control := .stopping 0 conf.workers }
  | _ => none

/-- One step of the threads. -/
def poolStep (p : Pool ι) : PoolAction → Option (Pool ι)
  | .worker i choice => if i < p.started then poolWorkerStep conf image p i choice else none
  | .main => poolMainStep conf p
  | .interrupt => p.interrupt conf

/-- The state in front of the start of the workers. -/
def initialPool (images : List ι) : Pool ι where
  sys := initial image images
  started := 0
  head _ := true
  shouldStop _ := false
  control := .starting 0

end Steps

/-! ## What one step can do -/

section Moves

variable {ι : Type} [DecidableEq ι] {conf : Conf} {image : Heap ι} {images : List ι} {p p' : Pool ι}
  {i : ℕ}

/-- A step of worker `i`. -/
inductive PoolMove (conf : Conf) (image : Heap ι) (p : Pool ι) (i : ℕ) : Pool ι → Prop
  | enter (hhead : p.head i = true) (hstop : p.shouldStop i = false) :
      PoolMove conf image p i { p with head := Function.update p.head i false }
  | leave (hhead : p.head i = true) (hstop : p.shouldStop i = true) :
      PoolMove conf image p i
        { p with head := Function.update p.head i false, sys := p.sys.goto i .dead }
  | cutAttempts {t : Task ι} {k : ℕ} (hhead : p.head i = false) (hstop : p.shouldStop i = true)
      (hpc : p.sys.worker i = .attempt t k) :
      PoolMove conf image p i { p with sys := p.sys.goto i (.ended t false) }
  | cutFollowups {t : Task ι} (hhead : p.head i = false) (hstop : p.shouldStop i = true)
      (hpc : p.sys.worker i = .ended t true) :
      PoolMove conf image p i
        { p with sys := (p.sys.emit [.ended t true]).goto i (.finishing t) }
  | goOn {s : Sys ι} (hhead : p.head i = false)
      (hcut : p.shouldStop i = true → (∀ t k, p.sys.worker i = .attempt t k →
        ¬ k < conf.retries + 1) ∧ ∀ t, p.sys.worker i ≠ .ended t true)
      (hmove : WorkerMove conf image p.sys i s) :
      PoolMove conf image p i
        { p with sys := s, head := Function.update p.head i (p.sys.worker i).isFinishing }

theorem poolWorkerStep_move {choice : Choice}
    (h : poolWorkerStep conf image p i choice = some p') : PoolMove conf image p i p' := by
  unfold poolWorkerStep at h
  by_cases hhead : p.head i = true
  · rw [if_pos hhead] at h
    cases h
    rw [Pool.readFlag]
    cases hstop : p.shouldStop i with
    | false => exact .enter hhead hstop
    | true => exact .leave hhead hstop
  · rw [if_neg hhead] at h
    rw [Bool.not_eq_true] at hhead
    have hon : ∀ {p' : Pool ι}, p.goOn conf image i choice = some p' →
        (p.shouldStop i = true → (∀ t k, p.sys.worker i = .attempt t k →
          ¬ k < conf.retries + 1) ∧ ∀ t, p.sys.worker i ≠ .ended t true) →
        PoolMove conf image p i p' := by
      intro p' hstep hcut
      obtain ⟨s, hs, rfl⟩ := Option.map_eq_some_iff.mp hstep
      exact .goOn hhead hcut (workerStep_move hs)
    cases hpc : p.sys.worker i with
    | attempt t k =>
      rw [hpc] at h
      simp only at h
      split at h
      · rename_i hcut
        cases h
        exact .cutAttempts hhead hcut.2 hpc
      · rename_i hcut
        refine hon h fun hstop => ⟨fun u j hu hj => ?_, fun u hu => ?_⟩
        · rw [hpc] at hu
          cases hu
          exact hcut ⟨hj, hstop⟩
        · rw [hpc] at hu
          cases hu
    | ended t success =>
      rw [hpc] at h
      cases success with
      | true =>
        simp only at h
        split at h
        · rename_i hstop
          cases h
          exact .cutFollowups hhead hstop hpc
        · rename_i hstop
          exact hon h fun hstop' => absurd hstop' hstop
      | false =>
        refine hon h fun _ => ⟨fun u j hu => ?_, fun u hu => ?_⟩ <;>
          · rw [hpc] at hu
            cases hu
    | _ =>
      rw [hpc] at h
      refine hon h fun _ => ⟨fun u j hu => ?_, fun u hu => ?_⟩ <;>
        · rw [hpc] at hu
          cases hu

/-- A step of the main thread after the interrupt, or the interrupt. -/
inductive Handling (conf : Conf) (p : Pool ι) : Pool ι → Prop
  | interrupt (n : ℕ) (hn : p.control = .starting n ∨ n = conf.workers ∧ p.control = .waiting) :
      Handling conf p { p with control := .stopping 0 n }
  | flag {j n : ℕ} (hc : p.control = .stopping j n) (hj : j < n) :
      Handling conf p
        { p with shouldStop := Function.update p.shouldStop j true, control := .stopping (j + 1) n }
  | flagged {j n : ℕ} (hc : p.control = .stopping j n) (hj : ¬ j < n) :
      Handling conf p { p with control := .tombPush n }
  | tombPush {n : ℕ} (hc : p.control = .tombPush n) :
      Handling conf p
        { p with
          sys := p.sys.setQueue .push (p.sys.pushQueue.put .tombstone), control := .tombBuild n }
  | tombBuild {n : ℕ} (hc : p.control = .tombBuild n) :
      Handling conf p
        { p with
          sys := p.sys.setQueue .build (p.sys.buildQueue.put .tombstone), control := .joining n }

/-- A step of the main thread before the interrupt. -/
inductive Regular (conf : Conf) (p : Pool ι) : Pool ι → Prop
  | all {n : ℕ} (hc : p.control = .starting n) (hn : n = conf.workers) :
      Regular conf p { p with control := .waiting }
  | start {n : ℕ} (hc : p.control = .starting n) (hn : n ≠ conf.workers) (hs : p.started = n) :
      Regular conf p { p with started := n + 1 }
  | listed {n : ℕ} (hc : p.control = .starting n) (hn : n ≠ conf.workers) (hs : p.started ≠ n) :
      Regular conf p { p with control := .starting (n + 1) }
  | main {s : Sys ι} (hc : p.control = .waiting) (hstep : mainStep p.sys = some s) :
      Regular conf p { p with sys := s }

omit [DecidableEq ι] in
theorem poolMainStep_cases (h : poolMainStep conf p = some p') :
    Regular conf p p' ∨ Handling conf p p' := by
  unfold poolMainStep at h
  split at h
  · rename_i n hc
    split at h
    · rename_i hn
      cases h
      exact Or.inl (.all hc hn)
    · rename_i hn
      split at h
      · rename_i hs
        cases h
        exact Or.inl (.start hc hn hs)
      · rename_i hs
        cases h
        exact Or.inl (.listed hc hn hs)
  · rename_i hc
    obtain ⟨s, hs, rfl⟩ := Option.map_eq_some_iff.mp h
    exact Or.inl (.main hc hs)
  · rename_i j n hc
    split at h
    · rename_i hj
      cases h
      exact Or.inr (.flag hc hj)
    · rename_i hj
      cases h
      exact Or.inr (.flagged hc hj)
  · rename_i n hc
    cases h
    exact Or.inr (.tombPush hc)
  · rename_i n hc
    cases h
    exact Or.inr (.tombBuild hc)
  · cases h

omit [DecidableEq ι] in
theorem interrupt_handling (h : p.interrupt conf = some p') : Handling conf p p' := by
  unfold Pool.interrupt at h
  split at h
  · rename_i n hc
    cases h
    exact .interrupt n (Or.inl hc)
  · rename_i hc
    split at h
    · cases h
    · cases h
      exact .interrupt _ (Or.inr ⟨rfl, hc⟩)
  · cases h

/-- A step of the pool. -/
theorem poolStep_cases {a : PoolAction} (h : poolStep conf image p a = some p') :
    (∃ i, i < p.started ∧ PoolMove conf image p i p') ∨ Regular conf p p' ∨ Handling conf p p' := by
  cases a with
  | worker i choice =>
    simp only [poolStep] at h
    split at h
    · rename_i hi
      exact Or.inl ⟨i, hi, poolWorkerStep_move h⟩
    · cases h
  | main => exact Or.inr (poolMainStep_cases h)
  | interrupt => exact Or.inr (Or.inr (interrupt_handling h))

end Moves

/-! ## The counters and flags of the pool -/

section Invariants

variable {ι : Type} [DecidableEq ι] {conf : Conf} {image : Heap ι} {images : List ι} {p p' : Pool ι}
  {i : ℕ}

/-- What the main thread knows of the workers. -/
structure Guarded (conf : Conf) (p : Pool ι) : Prop where
  started : p.started ≤ conf.workers
  starting : ∀ n, p.control = .starting n → n ≤ p.started
  heads : ∀ i, p.head i = true → p.sys.worker i = .idle
  flags : p.control.interrupted = false → ∀ i, p.shouldStop i = false

theorem PoolMove.frame (h : PoolMove conf image p i p') :
    p'.started = p.started ∧ p'.shouldStop = p.shouldStop ∧ p'.control = p.control := by
  cases h <;> exact ⟨rfl, rfl, rfl⟩

/-- A step of a worker leaves the other workers alone. -/
theorem PoolMove.worker_frame (h : PoolMove conf image p i p') {j : ℕ} (hj : j ≠ i) :
    p'.sys.worker j = p.sys.worker j ∧ p'.head j = p.head j := by
  cases h with
  | enter => exact ⟨rfl, Function.update_of_ne hj _ _⟩
  | leave => exact ⟨Function.update_of_ne hj _ _, Function.update_of_ne hj _ _⟩
  | cutAttempts | cutFollowups => exact ⟨Function.update_of_ne hj _ _, rfl⟩
  | goOn _ _ hmove => exact ⟨hmove.worker_frame hj, Function.update_of_ne hj _ _⟩

/-- A worker at the head of its loop has nothing in its hands. -/
theorem PoolMove.heads (h : PoolMove conf image p i p') (hhead : p'.head i = true) :
    p'.sys.worker i = .idle := by
  cases h with
  | enter | leave => simp at hhead
  | cutAttempts h | cutFollowups h => exact absurd (h.symm.trans hhead) Bool.false_ne_true
  | goOn hno hcut hmove =>
    simp only [Function.update_self] at hhead
    cases hmove with
    | finish hpc => simp
    | take hpc | takeTombstone hpc | putTombstone hpc | begin hpc | exhaust hpc | run hpc
    | follow hpc | giveUp hpc | put hpc | allPut hpc =>
      rw [hpc] at hhead
      cases hhead

omit [DecidableEq ι] in
theorem Handling.worker_eq (h : Handling conf p p') :
    p'.sys.worker = p.sys.worker ∧ p'.head = p.head ∧ p'.started = p.started ∧
      p'.sys.status = p.sys.status ∧ p'.sys.log = p.sys.log ∧
      (∀ kind, (p'.sys.queue kind).tasks = (p.sys.queue kind).tasks) ∧
      p'.control.interrupted = true := by
  cases h with
  | interrupt | flag | flagged => exact ⟨rfl, rfl, rfl, rfl, rfl, fun _ => rfl, rfl⟩
  | tombPush | tombBuild =>
    refine ⟨rfl, rfl, rfl, rfl, rfl, fun kind => ?_, rfl⟩
    cases kind <;> simp [Sys.queue, Sys.setQueue]

omit [DecidableEq ι] in
/-- No flag is taken back. -/
theorem Handling.flag_mono (h : Handling conf p p') (hstop : p.shouldStop i = true) :
    p'.shouldStop i = true := by
  cases h with
  | interrupt | flagged | tombPush | tombBuild => exact hstop
  | @flag j n hc hj =>
    change Function.update p.shouldStop j true i = true
    by_cases hij : i = j
    · rw [hij, Function.update_self]
    · rw [Function.update_of_ne hij, hstop]

omit [DecidableEq ι] in
theorem Regular.frame (h : Regular conf p p') : p'.head = p.head ∧ p'.shouldStop = p.shouldStop ∧
    p.control.interrupted = false ∧ p'.control.interrupted = false ∧
      (p'.sys = p.sys ∨ mainStep p.sys = some p'.sys) := by
  cases h with
  | all hc | start hc | listed hc => exact ⟨rfl, rfl, by rw [hc]; rfl, by simp [Control.interrupted, hc], Or.inl rfl⟩
  | main hc hstep => exact ⟨rfl, rfl, by rw [hc]; rfl, by simp [Control.interrupted, hc], Or.inr hstep⟩

theorem guarded (hr : Reachable (poolStep conf image) (initialPool image images) p) :
    Guarded conf p := by
  refine hr.invariant (P := Guarded conf)
    ⟨Nat.zero_le _, fun n hn => (by cases hn; exact Nat.zero_le _), fun _ _ => rfl, fun _ _ => rfl⟩ ?_
  intro u a v _ hu hstep
  rcases poolStep_cases hstep with ⟨i, hi, hmove⟩ | hreg | hhandle
  · obtain ⟨hstarted, hstop, hcontrol⟩ := hmove.frame
    refine ⟨hstarted ▸ hu.started, fun n hn => hstarted ▸ hu.starting n (hcontrol ▸ hn),
      fun j hj => ?_, fun h j => hstop ▸ hu.flags (hcontrol ▸ h) j⟩
    by_cases hji : j = i
    · exact hji ▸ hmove.heads (hji ▸ hj)
    · obtain ⟨hworker, hhead⟩ := hmove.worker_frame hji
      rw [hworker]
      exact hu.heads j (hhead ▸ hj)
  · obtain ⟨hhead, hstop, hbefore, hafter, hsys⟩ := hreg.frame
    have hworker : v.sys.worker = u.sys.worker := by
      rcases hsys with hsys | hsys
      · rw [hsys]
      · exact (mainStep_move hsys).frame.2.1
    refine ⟨?_, ?_, fun j hj => hworker ▸ hu.heads j (hhead ▸ hj), fun _ j => hstop ▸ hu.flags hbefore j⟩
    · cases hreg with
      | all | listed | main => exact hu.started
      | start hc hn hs =>
        have := hu.started
        change _ + 1 ≤ _
        omega
    · intro n hn
      cases hreg with
      | all => cases hn
      | main hc => exact hu.starting n hn
      | start hc _ hs =>
        have := hu.starting _ hn
        change n ≤ _ + 1
        omega
      | @listed m hc _ hs =>
        have := hu.starting m hc
        cases hn
        change m + 1 ≤ u.started
        omega
  · obtain ⟨hworker, hhead, hstarted, -, -, -, hafter⟩ := hhandle.worker_eq
    refine ⟨hstarted ▸ hu.started, fun n hn => ?_, fun j hj => ?_, fun h => ?_⟩
    · rw [hn] at hafter
      cases hafter
    · rw [hworker]
      exact hu.heads j (hhead ▸ hj)
    · rw [hafter] at h
      cases h

end Invariants

/-! ## The pool and its workers without an interrupt -/

section Mirror

variable {ι : Type} [DecidableEq ι] {conf : Conf} {image : Heap ι} {images : List ι} {p p' : Pool ι}
  {s s' : Sys ι} {i : ℕ}

/-- The worker has nothing to do for its task but to mark it as done. -/
def WorkerPc.closing : WorkerPc ι → Bool
  | .ended _ false => true
  | .finishing _ => true
  | _ => false

/-- The worker has the tombstone or is dead. -/
def WorkerPc.gone : WorkerPc ι → Bool
  | .tombstone => true
  | .dead => true
  | _ => false

/-- The worker is inside `task.run()`. -/
def WorkerPc.inside : WorkerPc ι → Bool
  | .running _ _ _ => true
  | _ => false

/-- Worker `i` comes to its end without another attempt and without
another task. -/
def Pool.Winding (p : Pool ι) (i : ℕ) : Prop :=
  (p.sys.worker i).gone = true ∨
    p.shouldStop i = true ∧ (p.head i = true ∨ (p.sys.worker i).closing = true)

/-- The events that do not depend on how a task was left. -/
def Event.lasting : Event ι → Bool
  | .ended _ _ => false
  | .retired _ => false
  | _ => true

/-- A state of the threads without an interrupt that looks like the pool:
the workers that wind down are somewhere outside of `task.run()`, and all
other workers are where they are in the pool. -/
structure Mirrors (conf : Conf) (p : Pool ι) (s : Sys ι) : Prop where
  status : s.status = p.sys.status
  lasting : s.log.filter Event.lasting = p.sys.log.filter Event.lasting
  sub : s.log ⊆ p.sys.log
  tasks : ∀ kind, (s.queue kind).tasks = (p.sys.queue kind).tasks
  winding : ∀ i, p.Winding i → (s.worker i).inside = false
  others : ∀ i, ¬ p.Winding i → s.worker i = p.sys.worker i
  exact : p.control.interrupted = false → s = p.sys

omit [DecidableEq ι] in
theorem Guarded.outside (h : Guarded conf p) (hw : p.Winding i) :
    (p.sys.worker i).inside = false := by
  rcases hw with hgone | ⟨-, hhead | hclosing⟩
  · cases hpc : p.sys.worker i <;> rw [hpc] at hgone <;> first | rfl | cases hgone
  · rw [h.heads i hhead]
    rfl
  · cases hpc : p.sys.worker i <;> rw [hpc] at hclosing <;> first | rfl | cases hclosing

omit [DecidableEq ι] in
theorem Mirrors.refl (h : Guarded conf p) : Mirrors conf p p.sys where
  status := rfl
  lasting := rfl
  sub := List.Subset.refl _
  tasks _ := rfl
  winding _ hw := h.outside hw
  others _ _ := rfl
  exact _ := rfl

omit [DecidableEq ι] in
/-- The two sides stay alike when worker `i` takes the same step in both. -/
theorem Mirrors.of_update (h : Mirrors conf p s) (hg : Guarded conf p')
    (hinterrupted : p'.control.interrupted = true)
    (hframe : ∀ j, j ≠ i → (p'.Winding j ↔ p.Winding j)) {pc : WorkerPc ι}
    (hw : s'.worker = Function.update s.worker i pc)
    (hpw : p'.sys.worker = Function.update p.sys.worker i pc)
    (hstatus : s'.status = p'.sys.status) (events : List (Event ι)) (hlog : s'.log = events ++ s.log)
    (hplog : p'.sys.log = events ++ p.sys.log)
    (htasks : ∀ kind, (s'.queue kind).tasks = (p'.sys.queue kind).tasks) : Mirrors conf p' s' where
  status := hstatus
  lasting := by rw [hlog, hplog, List.filter_append, List.filter_append, h.lasting]
  sub := by
    rw [hlog, hplog]
    exact List.append_subset.mpr ⟨List.subset_append_left _ _,
      List.Subset.trans h.sub (List.subset_append_right _ _)⟩
  tasks := htasks
  winding j hj := by
    rw [hw]
    by_cases hji : j = i
    · subst hji
      have hout := hg.outside hj
      rw [hpw, Function.update_self] at hout
      rw [Function.update_self]
      exact hout
    · rw [Function.update_of_ne hji]
      exact h.winding j ((hframe j hji).mp hj)
  others j hj := by
    rw [hw, hpw]
    by_cases hji : j = i
    · rw [hji, Function.update_self, Function.update_self]
    · rw [Function.update_of_ne hji, Function.update_of_ne hji]
      exact h.others j fun hno => hj ((hframe j hji).mpr hno)
  exact hno := by
    rw [hinterrupted] at hno
    cases hno

omit [DecidableEq ι] in
/-- A step of worker `i` of the pool for which the mirror waits: afterwards
the worker winds down, or it is where it was. -/
theorem Mirrors.of_wait (h : Mirrors conf p s) (hinterrupted : p'.control.interrupted = true)
    (hframe : ∀ j, j ≠ i → (p'.Winding j ↔ p.Winding j) ∧ p'.sys.worker j = p.sys.worker j)
    (hstatus : p'.sys.status = p.sys.status) (events : List (Event ι))
    (hlog : p'.sys.log = events ++ p.sys.log) (hevents : events.filter Event.lasting = [])
    (htasks : ∀ kind, (p'.sys.queue kind).tasks = (p.sys.queue kind).tasks)
    (hwinding : p'.Winding i → (s.worker i).inside = false)
    (hothers : ¬ p'.Winding i → s.worker i = p'.sys.worker i) : Mirrors conf p' s where
  status := h.status.trans hstatus.symm
  lasting := by rw [hlog, List.filter_append, hevents, List.nil_append, h.lasting]
  sub := by
    rw [hlog]
    exact List.Subset.trans h.sub (List.subset_append_right _ _)
  tasks kind := (h.tasks kind).trans (htasks kind).symm
  winding j hj := by
    by_cases hji : j = i
    · exact hji ▸ hwinding (hji ▸ hj)
    · exact h.winding j ((hframe j hji).1.mp hj)
  others j hj := by
    by_cases hji : j = i
    · exact hji ▸ hothers (hji ▸ hj)
    · rw [(hframe j hji).2]
      exact h.others j fun hno => hj ((hframe j hji).1.mpr hno)
  exact hno := by
    rw [hinterrupted] at hno
    cases hno

/-- Where a worker is free to move, it can take the step. -/
theorem RunMove.exists_runStep {status : ι → Status} {t : Task ι} {k : ℕ} {pc : RunPc}
    {e : RunEffect ι} (h : RunMove conf image status t k pc e) :
    ∃ choice, runStep conf image status t k pc choice = some e := by
  cases h with
  | skip h => exact ⟨.none, by simp [runStep, buildStep, h]⟩
  | enter h => exact ⟨.none, by simp [runStep, buildStep, h]⟩
  | refused h => exact ⟨.none, by simp [runStep, buildStep, h]⟩
  | passed h => exact ⟨.none, by simp [runStep, buildStep, h]⟩
  | refuse => exact ⟨.none, rfl⟩
  | start => exact ⟨.none, rfl⟩
  | work outcome => exact ⟨.attempt outcome, rfl⟩
  | built h => exact ⟨.none, by simp [runStep, buildStep, h]⟩
  | failed h => exact ⟨.none, by simp [runStep, buildStep, h]⟩
  | pushInto => exact ⟨.none, rfl⟩
  | push outcome => exact ⟨.push outcome, rfl⟩
  | pushDone h => exact ⟨.none, by simp [runStep, pushStep, h]⟩
  | pushFailed h => exact ⟨.none, by simp [runStep, pushStep, h]⟩

theorem WorkerMove.exists_step (h : WorkerMove conf image s i s') (hi : i < conf.workers) :
    ∃ a, step conf image s a = some s' := by
  suffices hkey : ∃ choice, workerStep conf image s i choice = some s' by
    obtain ⟨choice, hstep⟩ := hkey
    exact ⟨.worker i choice, (if_pos hi).trans hstep⟩
  cases h with
  | take hpc hq => exact ⟨.none, by simp [workerStep, hpc, hq]⟩
  | takeTombstone hpc hq => exact ⟨.none, by simp [workerStep, hpc, hq]⟩
  | begin hpc hk => exact ⟨.none, by simp [workerStep, hpc, hk]⟩
  | exhaust hpc hk => exact ⟨.none, by simp [workerStep, hpc, hk]⟩
  | run hpc he =>
    obtain ⟨choice, hrun⟩ := he.exists_runStep
    exact ⟨choice, by simp [workerStep, hpc, hrun]⟩
  | putTombstone hpc | follow hpc | giveUp hpc | put hpc | allPut hpc | finish hpc =>
    exact ⟨.none, by simp [workerStep, hpc]⟩

theorem PoolMove.winding_frame (h : PoolMove conf image p i p') {j : ℕ} (hj : j ≠ i) :
    p'.Winding j ↔ p.Winding j := by
  obtain ⟨hworker, hhead⟩ := h.worker_frame hj
  rw [Pool.Winding, Pool.Winding, hworker, hhead, h.frame.2.1]

omit [DecidableEq ι] in
/-- A queue whose first task is `t` has it in front, unless there are
tombstones. -/
theorem items_of_tasks {q : TaskQueue ι} {t : Task ι} {tasks : List (Task ι)}
    (hclean : .tombstone ∉ q.items) (h : q.tasks = t :: tasks) :
    ∃ items, q.items = .task t :: items ∧ ∀ n, (⟨items, n⟩ : TaskQueue ι).tasks = tasks := by
  cases hq : q.items with
  | nil =>
    rw [TaskQueue.tasks, hq] at h
    cases h
  | cons item items =>
    cases item with
    | tombstone =>
      rw [hq] at hclean
      exact absurd List.mem_cons_self hclean
    | task u =>
      rw [tasks_eq_cons hq] at h
      obtain ⟨rfl, htail⟩ := List.cons.inj h
      exact ⟨items, rfl, fun n => htail⟩

/-- A task can only be queued while there are no tombstones. -/
theorem clean_of_task (hr : Reachable (step conf image) (initial image images) s) {kind : Kind}
    (htask : (s.queue kind).tasks ≠ []) : .tombstone ∉ (s.queue kind).items := by
  have hphase := phase hr
  rw [Phase] at hphase
  cases hm : s.main <;> rw [hm] at hphase
  · exact hphase.items kind
  · exact hphase.1.items kind
  all_goals exact absurd (hphase.1 kind) htask

/-- A step of a worker that is not winding down, after the interrupt. -/
theorem Mirrors.follows (h : Mirrors conf p s) (hg' : Guarded conf p')
    (hr : Reachable (step conf image) (initial image images) s) (hi : i < conf.workers)
    (hinterrupted : p'.control.interrupted = true) (hnot : ¬ p.Winding i)
    (hframe : ∀ j, j ≠ i → (p'.Winding j ↔ p.Winding j))
    (hmove : WorkerMove conf image p.sys i p'.sys)
    (hwait : (p'.sys.worker i).gone = true → p'.Winding i) :
    ∃ s', Mirrors conf p' s' ∧ (s' = s ∨ ∃ a, step conf image s a = some s') := by
  have hpc := h.others i hnot
  have hstatus := h.status
  have hlocal : ∀ {s'}, WorkerMove conf image s i s' → Mirrors conf p' s' →
      ∃ s', Mirrors conf p' s' ∧ (s' = s ∨ ∃ a, step conf image s a = some s') :=
    fun hstep hm => ⟨_, hm, Or.inr (hstep.exists_step hi)⟩
  generalize hs' : p'.sys = u at hmove
  cases hmove with
  | @take t items hidle hq =>
    have htasks := h.tasks (workerKind conf i)
    rw [tasks_eq_cons hq] at htasks
    obtain ⟨items', hq', hrest⟩ := items_of_tasks
      (clean_of_task hr (by rw [htasks]; exact List.cons_ne_nil _ _)) htasks
    refine hlocal (.take (hpc.trans hidle) hq')
      (h.of_update hg' hinterrupted hframe (by simp; rfl) (by simp [hs']) (by simp [hs', hstatus])
        [] (by simp) (by simp [hs']) fun kind => ?_)
    rw [hs', goto_queue, goto_queue, queue_setQueue, queue_setQueue]
    split
    · exact hrest _
    · exact h.tasks kind
  | @takeTombstone items hidle hq =>
    have hgone : p'.Winding i := hwait (by simp [hs', WorkerPc.gone])
    refine ⟨s, h.of_wait hinterrupted (fun j hj => ⟨hframe j hj, by simp [hs', hj]⟩)
      (by simp [hs']) [] (by simp [hs']) rfl (fun kind => ?_)
      (fun _ => by rw [hpc, hidle]; rfl) fun hno => absurd hgone hno, Or.inl rfl⟩
    rw [hs', goto_queue, queue_setQueue]
    split
    · rename_i hkind
      rw [hkind]
      exact (tasks_eq_tail hq).symm
    · rfl
  | putTombstone htomb => exact absurd (Or.inl (by rw [htomb]; rfl)) hnot
  | @begin t k hat hk =>
    exact hlocal (.begin (hpc.trans hat) hk)
      (h.of_update hg' hinterrupted hframe rfl (by simp [hs']) (by simp [hs', hstatus]) _ rfl
        (by rw [hs']; rfl) fun kind => by simp [hs', h.tasks kind])
  | @exhaust t k hat hk =>
    exact hlocal (.exhaust (hpc.trans hat) hk)
      (h.of_update hg' hinterrupted hframe rfl (by simp [hs']) (by simp [hs', hstatus])
        [] rfl (by rw [hs']; rfl) fun kind => by simp [hs', h.tasks kind])
  | @run t k pc e hat he =>
    have he' : RunMove conf image s.status t k pc e := hstatus ▸ he
    refine hlocal (.run (hpc.trans hat) he')
      (h.of_update hg' hinterrupted hframe rfl (by rw [hs']; rfl) (by rw [hs']; rfl) _ rfl
        (by rw [hs']; rfl) fun kind => ?_)
    have hbuild : s.buildQueue.tasks = p.sys.buildQueue.tasks := h.tasks .build
    have hpush : s.pushQueue.tasks = p.sys.pushQueue.tasks := h.tasks .push
    rw [hs']
    cases kind with
    | build => exact hbuild
    | push =>
      rcases he.put_eq with hput | ⟨x, -, hput⟩
      · simp [RunEffect.apply, Sys.queue, hput, hpush]
      · simp [RunEffect.apply, Sys.queue, hput, hpush]
  | @follow t hat =>
    exact hlocal (.follow (hpc.trans hat))
      (h.of_update hg' hinterrupted hframe rfl (by simp [hs', hstatus]) (by simp [hs', hstatus]) _ rfl
        (by simp [hs', hstatus]) fun kind => by simp [hs', h.tasks kind])
  | @giveUp t hat =>
    exact hlocal (.giveUp (hpc.trans hat))
      (h.of_update hg' hinterrupted hframe rfl (by simp [hs']) (by simp [hs', hstatus]) _ rfl
        (by rw [hs']; rfl) fun kind => by simp [hs', h.tasks kind])
  | @put t next rest hat =>
    refine hlocal (.put (hpc.trans hat))
      (h.of_update hg' hinterrupted hframe (by simp; rfl) (by simp [hs']) (by simp [hs', hstatus])
        [] (by simp) (by simp [hs']) fun kind => ?_)
    rw [hs', goto_queue, goto_queue, queue_setQueue, queue_setQueue]
    split
    · rw [tasks_put_task, tasks_put_task, h.tasks]
    · exact h.tasks kind
  | @allPut t hat =>
    exact hlocal (.allPut (hpc.trans hat))
      (h.of_update hg' hinterrupted hframe rfl (by simp [hs']) (by simp [hs', hstatus])
        [] rfl (by rw [hs']; rfl) fun kind => by simp [hs', h.tasks kind])
  | @finish t hat =>
    refine hlocal (.finish (hpc.trans hat))
      (h.of_update hg' hinterrupted hframe (by simp; rfl) (by simp [hs']) (by simp [hs', hstatus])
        [.retired t] (by simp) (by simp [hs']) fun kind => ?_)
    rw [hs', goto_queue, goto_queue, emit_queue, emit_queue, queue_setQueue, queue_setQueue]
    split
    · exact h.tasks _
    · exact h.tasks kind

/-- A step of a worker that winds down is none for the mirror. -/
theorem Mirrors.winds (h : Mirrors conf p s) (hinterrupted : p'.control.interrupted = true)
    (hmove : PoolMove conf image p i p') (hw : p.Winding i) (hhead : p.head i = false)
    (hw' : p'.Winding i) (hworker : WorkerMove conf image p.sys i p'.sys) : Mirrors conf p' s := by
  have hframe : ∀ j, j ≠ i → (p'.Winding j ↔ p.Winding j) ∧ p'.sys.worker j = p.sys.worker j :=
    fun j hj => ⟨hmove.winding_frame hj, (hmove.worker_frame hj).1⟩
  have hclosing : (p.sys.worker i).gone = true ∨ (p.sys.worker i).closing = true := by
    rcases hw with h | ⟨-, h | h⟩
    · exact Or.inl h
    · exact absurd (h.symm.trans hhead) (by simp)
    · exact Or.inr h
  have hno : ∀ {pc : WorkerPc ι}, p.sys.worker i = pc → pc.gone = false → pc.closing = false →
      False := by
    rintro pc rfl hgone hclose
    rcases hclosing with h | h
    · exact absurd (h.symm.trans hgone) (by simp)
    · exact absurd (h.symm.trans hclose) (by simp)
  have hdone : ∀ events : List (Event ι), p'.sys.status = p.sys.status →
      p'.sys.log = events ++ p.sys.log → events.filter Event.lasting = [] →
      (∀ kind, (p'.sys.queue kind).tasks = (p.sys.queue kind).tasks) → Mirrors conf p' s :=
    fun _ hstatus hlog hevents htasks => h.of_wait hinterrupted hframe hstatus _ hlog hevents htasks
      (fun _ => h.winding i hw) fun hnot => absurd hw' hnot
  generalize hs' : p'.sys = u at hworker
  cases hworker with
  | take hpc | takeTombstone hpc | begin hpc | exhaust hpc | run hpc | follow hpc | put hpc
  | allPut hpc => exact (hno hpc rfl rfl).elim
  | putTombstone hpc =>
    refine hdone [] (by simp [hs']) (by simp [hs']) rfl fun kind => ?_
    rw [hs', goto_queue, queue_setQueue]
    split
    · rename_i hkind
      rw [hkind, tasks_put_tombstone]
    · rfl
  | giveUp hpc =>
    exact hdone _ (by simp [hs']) (by rw [hs']; rfl) rfl fun kind => by simp [hs']
  | @finish t hpc =>
    refine hdone [.retired t] (by simp [hs']) (by simp [hs']) rfl fun kind => ?_
    rw [hs', goto_queue, emit_queue, queue_setQueue]
    split
    · rename_i hkind
      rw [hkind, tasks_taskDone]
    · rfl

/-- A step of a worker of the pool. -/
theorem Mirrors.worker (h : Mirrors conf p s) (hg : Guarded conf p) (hg' : Guarded conf p')
    (hr : Reachable (step conf image) (initial image images) s) (hi : i < conf.workers)
    (hmove : PoolMove conf image p i p') :
    ∃ s', Mirrors conf p' s' ∧ (s' = s ∨ ∃ a, step conf image s a = some s') := by
  have hcontrol := hmove.frame.2.2
  cases hint : p.control.interrupted with
  | false =>
    -- nobody has a flag, and the two are equal
    have hexact := h.exact hint
    have hflag := hg.flags hint i
    cases hmove with
    | enter => exact ⟨p.sys, .refl hg', Or.inl hexact.symm⟩
    | leave _ hstop | cutAttempts _ hstop | cutFollowups _ hstop =>
      rw [hflag] at hstop
      cases hstop
    | @goOn u _ _ hmove =>
      exact ⟨u, .refl hg', Or.inr (hexact ▸ hmove.exists_step hi)⟩
  | true =>
    have hint' : p'.control.interrupted = true := hcontrol ▸ hint
    have hframe : ∀ j, j ≠ i → (p'.Winding j ↔ p.Winding j) ∧ p'.sys.worker j = p.sys.worker j :=
      fun j hj => ⟨hmove.winding_frame hj, (hmove.worker_frame hj).1⟩
    cases hmove with
    | enter hhead hstop =>
      have hidle := hg.heads i hhead
      have hnot : ¬ p.Winding i := by
        simp [Pool.Winding, hidle, hstop, WorkerPc.gone]
      exact ⟨s, h.of_wait hint' hframe rfl [] rfl rfl (fun _ => rfl)
        (fun hw => absurd hw (by simp [Pool.Winding, hidle, hstop, WorkerPc.gone]))
        fun _ => h.others i hnot, Or.inl rfl⟩
    | leave hhead hstop =>
      have hw : p.Winding i := Or.inr ⟨hstop, Or.inl hhead⟩
      exact ⟨s, h.of_wait hint' hframe rfl [] rfl rfl (fun kind => by simp)
        (fun _ => h.winding i hw) fun hno => absurd (Or.inl (by simp [WorkerPc.gone])) hno,
        Or.inl rfl⟩
    | @cutAttempts t k hhead hstop hpc =>
      have hnot : ¬ p.Winding i := by
        simp [Pool.Winding, hpc, hhead, WorkerPc.gone, WorkerPc.closing]
      have hw' : (p.sys.goto i (.ended t false)).worker i = .ended t false := by simp
      exact ⟨s, h.of_wait hint' hframe rfl [] rfl rfl (fun kind => by simp)
        (fun _ => by rw [h.others i hnot, hpc]; rfl)
        fun hno => absurd (Or.inr ⟨hstop, Or.inr (by rw [hw']; rfl)⟩) hno, Or.inl rfl⟩
    | @cutFollowups t hhead hstop hpc =>
      have hnot : ¬ p.Winding i := by
        simp [Pool.Winding, hpc, hhead, WorkerPc.gone, WorkerPc.closing]
      have hw' : ((p.sys.emit [.ended t true]).goto i (.finishing t)).worker i = .finishing t := by
        simp
      exact ⟨s, h.of_wait hint' hframe rfl [.ended t true] rfl rfl
        (fun kind => by simp) (fun _ => by rw [h.others i hnot, hpc]; rfl)
        fun hno => absurd (Or.inr ⟨hstop, Or.inr (by rw [hw']; rfl)⟩) hno, Or.inl rfl⟩
    | @goOn u hhead hcut hworker =>
      by_cases hw : p.Winding i
      · refine ⟨s, h.winds hint' (.goOn hhead hcut hworker) hw hhead ?_ hworker, Or.inl rfl⟩
        have hstop : (p.sys.worker i).gone = false → p.shouldStop i = true := fun hno =>
          (hw.resolve_left (by rw [hno]; simp)).1
        cases hworker with
        | putTombstone hpc => exact Or.inl (by simp [WorkerPc.gone])
        | giveUp hpc =>
          exact Or.inr ⟨hstop (by rw [hpc]; rfl), Or.inr (by simp [WorkerPc.closing])⟩
        | finish hpc =>
          exact Or.inr ⟨hstop (by rw [hpc]; rfl), Or.inl (by simp [hpc, WorkerPc.isFinishing])⟩
        | take hpc | takeTombstone hpc | begin hpc | exhaust hpc | run hpc | follow hpc | put hpc
        | allPut hpc =>
          simp [Pool.Winding, hpc, hhead, WorkerPc.gone, WorkerPc.closing] at hw
      · exact h.follows hg' hr hi hint' hw (fun j hj => (hframe j hj).1) hworker fun h => Or.inl h

omit [DecidableEq ι] in
/-- A step of the main thread that has been interrupted moves nothing but
flags and tombstones. -/
theorem Mirrors.handling (h : Mirrors conf p s) (hg' : Guarded conf p')
    (hmove : Handling conf p p') : Mirrors conf p' s := by
  obtain ⟨hworker, hhead, -, hstatus, hlog, htasks, hint'⟩ := hmove.worker_eq
  have hmono : ∀ j, p.Winding j → p'.Winding j := by
    intro j hj
    rw [Pool.Winding, hworker, hhead]
    rcases hj with hgone | ⟨hstop, hrest⟩
    · exact Or.inl hgone
    · exact Or.inr ⟨hmove.flag_mono hstop, hrest⟩
  refine ⟨h.status.trans hstatus.symm, by rw [hlog]; exact h.lasting, by rw [hlog]; exact h.sub,
    fun kind => (h.tasks kind).trans (htasks kind).symm, fun j hj => ?_, fun j hj => ?_, fun hno => ?_⟩
  · by_cases hw : p.Winding j
    · exact h.winding j hw
    · have hout := hg'.outside hj
      rw [hworker] at hout
      rw [h.others j hw, hout]
  · rw [hworker]
    exact h.others j fun hw => hj (hmono j hw)
  · rw [hint'] at hno
    cases hno

/-- Before the interrupt the main thread does what it does without one. -/
theorem Mirrors.regular (h : Mirrors conf p s) (hg' : Guarded conf p')
    (hmove : Regular conf p p') :
    ∃ s', Mirrors conf p' s' ∧ (s' = s ∨ ∃ a, step conf image s a = some s') := by
  obtain ⟨-, -, hbefore, -, hsys⟩ := hmove.frame
  have hexact := h.exact hbefore
  refine ⟨p'.sys, .refl hg', ?_⟩
  rcases hsys with hsys | hsys
  · exact Or.inl (hsys.trans hexact.symm)
  · exact Or.inr ⟨.main, hexact ▸ hsys⟩

end Mirror

/-- Every state of the pool, whether it was interrupted or not, looks like a
state that the threads reach without an interrupt; and before the interrupt
it is such a state. -/
theorem mirrored {ι : Type} [DecidableEq ι] {conf : Conf} {image : Heap ι} {images : List ι}
    {p : Pool ι} (hr : Reachable (poolStep conf image) (initialPool image images) p) :
    ∃ s, Reachable (step conf image) (initial image images) s ∧ Mirrors conf p s := by
  suffices h : ∃ s, Reachable (step conf image) (initial image images) s ∧
      Reachable (poolStep conf image) (initialPool image images) p ∧ Mirrors conf p s by
    obtain ⟨s, hs, -, hmirrors⟩ := h
    exact ⟨s, hs, hmirrors⟩
  refine hr.simulated (R := fun p s => Reachable (poolStep conf image) (initialPool image images) p ∧
    Mirrors conf p s) ⟨⟨[], run_nil.mpr rfl⟩, .refl (guarded ⟨[], run_nil.mpr rfl⟩)⟩ ?_
  rintro u a v s ⟨hu, hmirrors⟩ hs hstep
  have hv := hu.tail hstep
  have hg' := guarded hv
  have hall : ∀ {s'}, Mirrors conf v s' ∧ (s' = s ∨ ∃ a, step conf image s a = some s') →
      ∃ s', (Reachable (poolStep conf image) (initialPool image images) v ∧ Mirrors conf v s') ∧
        (s' = s ∨ ∃ a, step conf image s a = some s') :=
    fun h => ⟨_, ⟨hv, h.1⟩, h.2⟩
  rcases poolStep_cases hstep with ⟨i, hi, hmove⟩ | hreg | hhandle
  · have hlt : i < conf.workers := Nat.lt_of_lt_of_le hi (guarded hu).started
    obtain ⟨s', hs'⟩ := hmirrors.worker (guarded hu) hg' hs hlt hmove
    exact hall hs'
  · obtain ⟨s', hs'⟩ := hmirrors.regular hg' hreg
    exact hall hs'
  · exact hall ⟨hmirrors.handling hg' hhandle, Or.inl rfl⟩

/-- The sample pool, interrupted while `nova` is tried for the first time. -/
def interruptedActions : List PoolAction :=
  [.main, .main, .main, .main, .main, .worker 0 .none, .worker 0 .none, .worker 0 .none,
    .interrupt, .main, .worker 0 .none]

theorem mirrored_sample : ∃ p s,
    Reachable (poolStep sampleBuildConf sampleImage) (initialPool sampleImage sampleImages.refs) p ∧
      p.control = .stopping 1 2 ∧ p.sys.worker 0 = .running (.build 1) 0 .parentCheck ∧
      Reachable (step sampleBuildConf sampleImage) (initial sampleImage sampleImages.refs) s ∧
      Mirrors sampleBuildConf p s := by
  obtain ⟨p, hr, hp⟩ := exists_reachable (poolStep sampleBuildConf sampleImage)
    (s := initialPool sampleImage sampleImages.refs) interruptedActions
    (f := fun p => (p.control, p.sys.worker 0))
    (b := (.stopping 1 2, .running (.build 1) 0 .parentCheck)) (by decide)
  rw [Prod.mk.injEq] at hp
  obtain ⟨s, hs, hmirrors⟩ := mirrored hr
  exact ⟨p, s, hr, hp.1, hp.2, hs, hmirrors⟩

theorem Guarded.busy {ι : Type} {conf : Conf} {p : Pool ι} (h : Guarded conf p) {i : ℕ} {x : ι}
    (hx : (p.sys.worker i).processing = some x) : ¬ p.Winding i := by
  have hhead := h.heads i
  rintro (hgone | ⟨-, hh | hclosing⟩)
  · cases hpc : p.sys.worker i with
    | tombstone | dead =>
      rw [hpc] at hx
      cases hx
    | _ =>
      rw [hpc] at hgone
      cases hgone
  · rw [hhead hh] at hx
    cases hx
  · cases hpc : p.sys.worker i with
    | ended | finishing =>
      rw [hpc] at hx
      cases hx
    | _ =>
      rw [hpc] at hclosing
      cases hclosing

theorem issued_lasting {ι : Type} (log : List (Event ι)) :
    issued (log.filter Event.lasting) = issued log := by
  induction log with
  | nil => rfl
  | cons e log ih =>
    rw [List.filter_cons]
    cases e <;> simp [Event.lasting, ih]

/-- What an interrupt leaves of the discipline: at every point of every
run, interrupted or not, an image has one `BuildTask` at most, no image is
processed by two workers, and the engine was asked for matched images only,
each of them without a parent, below a skipped one, or below one whose
`BuildTask` has ended with success. -/
theorem interrupted_discipline {ι : Type} [DecidableEq ι] {images : ImageList ι} {image : Heap ι}
    (hprep : Prepared images image) {conf : Conf} {p : Pool ι}
    (hr : Reachable (poolStep conf image) (initialPool image images.refs) p) :
    (∀ x, (issued p.sys.log).count (.build x) ≤ 1) ∧
      (∀ i j x, i ≠ j → (p.sys.worker i).processing = some x →
        (p.sys.worker j).processing ≠ some x) ∧
      (∀ x, .engine x ∈ p.sys.log → x ∈ images.refs ∧ (image x).status = .matched ∧
        ((image x).parent = none ∨ ∃ q, (image x).parent = some q ∧
          (p.sys.status q = .skipped ∨ .ended (.build q) true ∈ p.sys.log))) := by
  obtain ⟨s, hs, hmirrors⟩ := mirrored hr
  have hl := hprep.linked
  have hacc := account hl images.distinct hs
  have hworker : ∀ {i x}, (p.sys.worker i).processing = some x →
      (s.worker i).processing = some x := by
    intro i x hx
    rw [hmirrors.others i ((guarded hr).busy hx)]
    exact hx
  refine ⟨fun x => ?_, fun i j x hij hi hj => ?_, fun x hx => ?_⟩
  · rw [← issued_lasting, ← hmirrors.lasting, issued_lasting]
    exact hacc.once _
  · exact hacc.processing_unique hs hij (hworker hi) (hworker hj)
  · have hmem : .engine x ∈ s.log := by
      have hkept : .engine x ∈ p.sys.log.filter Event.lasting := List.mem_filter.mpr ⟨hx, rfl⟩
      rw [← hmirrors.lasting] at hkept
      exact (List.mem_filter.mp hkept).1
    have hbuild : .build x ∈ issued s.log := build_issued_of_event hl images.distinct hs hmem
    have hin := mem_of_issued hl hs hbuild
    refine ⟨hin, (hprep.processed hin).resolve_right (hacc.build x hbuild).1, ?_⟩
    rcases hacc.entered hbuild with hnone | ⟨q, hq, hskip | hend⟩
    · exact Or.inl hnone
    · exact Or.inr ⟨q, hq, Or.inl (hmirrors.status ▸ hskip)⟩
    · exact Or.inr ⟨q, hq, Or.inr (hmirrors.sub hend)⟩

theorem interrupted_discipline_sample : ∃ p,
    Reachable (poolStep sampleBuildConf sampleImage) (initialPool sampleImage sampleImages.refs) p ∧
      p.control = .stopping 1 2 ∧ p.sys.worker 0 = .running (.build 1) 0 .parentCheck ∧
      (∀ x, (issued p.sys.log).count (.build x) ≤ 1) ∧
      (∀ i j x, i ≠ j → (p.sys.worker i).processing = some x →
        (p.sys.worker j).processing ≠ some x) ∧
      (∀ x, .engine x ∈ p.sys.log → x ∈ sampleImages.refs ∧ (sampleImage x).status = .matched ∧
        ((sampleImage x).parent = none ∨ ∃ q, (sampleImage x).parent = some q ∧
          (p.sys.status q = .skipped ∨ .ended (.build q) true ∈ p.sys.log))) := by
  obtain ⟨p, hr, hp⟩ := exists_reachable (poolStep sampleBuildConf sampleImage)
    (s := initialPool sampleImage sampleImages.refs) interruptedActions
    (f := fun p => (p.control, p.sys.worker 0))
    (b := (.stopping 1 2, .running (.build 1) 0 .parentCheck)) (by decide)
  rw [Prod.mk.injEq] at hp
  exact ⟨p, hr, hp.1, hp.2, interrupted_discipline sampleImage_prepared hr⟩

end Kolla.Build
