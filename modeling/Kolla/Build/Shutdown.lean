import Kolla.Build.Interrupt
import Kolla.Build.Summary
import Kolla.Build.EngineCall

/-!
# After the interrupt

What happens between a keyboard interrupt and the exit code.

* `PoolMove.begins_eq`: a worker that has its flag begins nothing.  Once
  the main thread is through with the flags, the workers only finish what
  they are in the middle of (`stopped_winds_down`).
* The potential of `Kolla.Build.Progress` is used up in the pool as well,
  and after the interrupt the main thread has no loop but the one over the
  flags.  So every run comes to an end, whatever the schedule, and at its
  end the workers are dead (`interrupted_ends`).
* `join_many` swallows the exception, so `run_build` goes on with the
  summary.  `interrupted_verdict` is the exit code in any state the joins may
  end in.
-/

namespace Kolla.Build

open Kolla.Lib

/-! ## Workers with a flag -/

section Stopped

variable {ι : Type} [DecidableEq ι] {conf : Conf} {image : Heap ι} {images : List ι} {p p' : Pool ι}
  {i : ℕ}

/-- The beginning of an attempt, or of a task other than the push that an
attempt under way queues. -/
def Event.begins : Event ι → Bool
  | .attempt _ _ => true
  | .issued (.push _) => false
  | .issued _ => true
  | _ => false

/-- How many workers have their flag. -/
def Control.flagged : Control → ℕ
  | .starting _ => 0
  | .waiting => 0
  | .stopping j _ => j
  | .tombPush n => n
  | .tombBuild n => n
  | .joining n => n

/-- The tasks that a worker is going to put. -/
def WorkerPc.toPut : WorkerPc ι → List (Task ι)
  | .putting _ rest => rest
  | _ => []

/-- The steps that a worker with a flag can still take. -/
def WorkerPc.windDown (head : Bool) : WorkerPc ι → ℕ
  | .idle => if head then 1 else 5
  | .tombstone => 1
  | .dead => 0
  | .attempt _ _ => 4
  | .running _ _ pc => pc.stepsLeft + 4
  | .ended _ _ => 3
  | .putting _ rest => rest.length + 3
  | .finishing _ => 2

/-- A step of worker `i`. -/
def PoolAction.isOf (i : ℕ) : PoolAction → Bool
  | .worker j _ => i = j
  | .main => false
  | .interrupt => false

/-- The started workers have their flags, and no worker will be started. -/
structure Pool.Stopped (p : Pool ι) : Prop where
  interrupted : p.control.interrupted = true
  flags : ∀ i < p.started, p.shouldStop i = true
  heads : ∀ i, p.head i = true → p.sys.worker i = .idle

theorem flags_set (hr : Reachable (poolStep conf image) (initialPool image images) p) :
    ∀ i < p.control.flagged, p.shouldStop i = true := by
  refine hr.invariant (P := fun p => ∀ i < p.control.flagged, p.shouldStop i = true)
    (fun i hi => absurd hi (Nat.not_lt_zero i)) ?_
  intro u a v _ hu hstep
  rcases poolStep_cases hstep with ⟨i, -, hmove⟩ | hreg | hhandle
  · obtain ⟨-, hstop, hcontrol⟩ := hmove.frame
    rw [hstop, hcontrol]
    exact hu
  · obtain ⟨-, -, -, hafter, -⟩ := hreg.frame
    intro i hi
    cases hc : v.control <;> rw [hc] at hi hafter <;>
      first | exact absurd hi (Nat.not_lt_zero i) | cases hafter
  · cases hhandle with
    | interrupt => exact fun i hi => absurd hi (Nat.not_lt_zero i)
    | @flag j n hc hj =>
      rw [hc] at hu
      intro i hi
      by_cases hij : i = j
      · change Function.update u.shouldStop j true i = true
        rw [hij, Function.update_self]
      · change Function.update u.shouldStop j true i = true
        rw [Function.update_of_ne hij]
        have hlt : i < j + 1 := hi
        exact hu i (show i < j by omega)
    | @flagged j n hc hj =>
      rw [hc] at hu
      exact fun i hi => hu i (Nat.lt_of_lt_of_le hi (Nat.not_lt.mp hj))
    | tombPush hc | tombBuild hc =>
      rw [hc] at hu
      exact hu

/-- Inside `run` a step begins nothing. -/
theorem RunMove.begins_eq {status : ι → Status} {t : Task ι} {k : ℕ} {pc : RunPc} {e : RunEffect ι}
    (h : RunMove conf image status t k pc e) : e.events.filter Event.begins = [] := by
  cases h with
  | work outcome =>
    obtain ⟨st, called, next, he, -⟩ := workEffect_eq conf image status _ k outcome
    rw [he]
    cases called <;> rfl
  | _ => rfl

/-- Inside `run` a step brings the worker closer to the end. -/
theorem RunMove.windDown_lt {status : ι → Status} {t : Task ι} {k : ℕ} {pc : RunPc}
    {e : RunEffect ι} (h : RunMove conf image status t k pc e) (head head' : Bool) :
    (e.next.workerPc t k).windDown head < (WorkerPc.running t k pc).windDown head' := by
  cases h with
  | work outcome =>
    obtain ⟨st, called, next, he, hnext⟩ := workEffect_eq conf image status _ k outcome
    rw [he]
    rcases hnext with rfl | rfl <;>
      simp [RunNext.workerPc, WorkerPc.windDown, RunPc.stepsLeft]
  | _ => simp [RunNext.workerPc, WorkerPc.windDown, RunPc.stepsLeft]

/-- A worker that has its flag begins nothing. -/
theorem PoolMove.begins_eq (h : PoolMove conf image p i p') (hstop : p.shouldStop i = true) :
    p'.sys.log.filter Event.begins = p.sys.log.filter Event.begins := by
  cases h with
  | enter | leave | cutAttempts => rfl
  | cutFollowups => rfl
  | goOn hhead hcut hmove =>
    obtain ⟨hattempt, hended⟩ := hcut hstop
    cases hmove with
    | begin hpc hk => exact absurd hk (hattempt _ _ hpc)
    | follow hpc => exact absurd hpc (hended _)
    | run hpc he =>
      change (_ ++ p.sys.log).filter Event.begins = _
      rw [List.filter_append, he.begins_eq, List.nil_append]
    | take | takeTombstone | putTombstone | put => simp
    | exhaust | giveUp | allPut => rfl
    | finish => simp [Event.begins]

/-- A worker that has its flag uses up its steps. -/
theorem PoolMove.stepsLeft_lt (h : PoolMove conf image p i p') (hstop : p.shouldStop i = true)
    (hheads : p.head i = true → p.sys.worker i = .idle) :
    (p'.sys.worker i).windDown (p'.head i) < (p.sys.worker i).windDown (p.head i) := by
  cases h with
  | enter _ hno =>
    rw [hstop] at hno
    cases hno
  | leave hhead => simp [WorkerPc.windDown, hheads hhead, hhead]
  | cutAttempts _ _ hpc | cutFollowups _ _ hpc => simp [WorkerPc.windDown, hpc]
  | goOn hhead hcut hmove =>
    obtain ⟨hattempt, hended⟩ := hcut hstop
    cases hmove with
    | begin hpc hk => exact absurd hk (hattempt _ _ hpc)
    | follow hpc => exact absurd hpc (hended _)
    | @run t k pc e hpc he =>
      have hat : (e.apply p.sys i t k).worker i = e.next.workerPc t k := Function.update_self _ _ _
      rw [hpc]
      change ((e.apply p.sys i t k).worker i).windDown _ < _
      rw [hat]
      exact he.windDown_lt _ _
    | take hpc | takeTombstone hpc => simp [WorkerPc.windDown, hpc, hhead]
    | putTombstone hpc | exhaust hpc | giveUp hpc | put hpc | allPut hpc =>
      simp [WorkerPc.windDown, hpc]
    | finish hpc => simp [WorkerPc.windDown, hpc, WorkerPc.isFinishing]

/-- One step among workers that have their flags. -/
theorem Pool.Stopped.step (h : p.Stopped) {a : PoolAction}
    (hstep : poolStep conf image p a = some p') :
    p'.Stopped ∧ p'.sys.log.filter Event.begins = p.sys.log.filter Event.begins ∧
      ∀ i, (p'.sys.worker i).windDown (p'.head i) + (if a.isOf i then 1 else 0)
        ≤ (p.sys.worker i).windDown (p.head i) := by
  have hhandle : ∀ {p'}, Handling conf p p' → (∀ i, a.isOf i = false) → p'.Stopped ∧
      p'.sys.log.filter Event.begins = p.sys.log.filter Event.begins ∧
      ∀ i, (p'.sys.worker i).windDown (p'.head i) + (if a.isOf i then 1 else 0)
        ≤ (p.sys.worker i).windDown (p.head i) := by
    intro p' hmove ha
    obtain ⟨hworker, hhead, hstarted, -, hlog, -, hint⟩ := hmove.worker_eq
    refine ⟨⟨hint, fun i hi => ?_, fun i hi => ?_⟩, by rw [hlog], fun i => ?_⟩
    · exact hmove.flag_mono (h.flags i (hstarted ▸ hi))
    · rw [hworker]
      exact h.heads i (hhead ▸ hi)
    · rw [hworker, hhead, ha]
      simp
  cases a with
  | worker j choice =>
    simp only [poolStep] at hstep
    split at hstep
    · rename_i hj
      have hmove := poolWorkerStep_move hstep
      obtain ⟨hstarted, hstop, hcontrol⟩ := hmove.frame
      refine ⟨⟨hcontrol ▸ h.interrupted, hstarted ▸ hstop ▸ h.flags, fun i hi => ?_⟩,
        hmove.begins_eq (h.flags j hj), fun i => ?_⟩
      · by_cases hij : i = j
        · exact hij ▸ hmove.heads (hij ▸ hi)
        · obtain ⟨hworker, hhead⟩ := hmove.worker_frame hij
          rw [hworker]
          exact h.heads i (hhead ▸ hi)
      · by_cases hij : i = j
        · rw [hij]
          have := hmove.stepsLeft_lt (h.flags j hj) (h.heads j)
          simp only [PoolAction.isOf, decide_true, if_true]
          omega
        · obtain ⟨hworker, hhead⟩ := hmove.worker_frame hij
          rw [hworker, hhead]
          simp [PoolAction.isOf, hij]
    · cases hstep
  | main =>
    rcases poolMainStep_cases hstep with hreg | hmove
    · exact absurd (hreg.frame.2.2.1.symm.trans h.interrupted) Bool.false_ne_true
    · exact hhandle hmove fun _ => rfl
  | interrupt => exact hhandle (interrupt_handling hstep) fun _ => rfl

omit [DecidableEq ι] in
theorem windDown_le (pc : WorkerPc ι) (head : Bool) : pc.windDown head ≤ 9 + pc.toPut.length := by
  cases pc with
  | running t k pc => cases pc <;> exact Nat.le_of_ble_eq_true rfl
  | putting t rest =>
    rw [WorkerPc.windDown, WorkerPc.toPut]
    omega
  | idle => cases head <;> exact Nat.le_of_ble_eq_true rfl
  | _ => exact Nat.le_of_ble_eq_true rfl

end Stopped

/-- Once all workers that were started have their flags, no attempt and no
task begins any more, and each worker takes at most nine more steps and one
for every followup that it is in the middle of putting. -/
theorem stopped_winds_down {ι : Type} [DecidableEq ι] {conf : Conf} {image : Heap ι}
    {images : List ι} {p p' : Pool ι} {actions : List PoolAction}
    (hr : Reachable (poolStep conf image) (initialPool image images) p)
    (hset : p.control = .tombPush p.started) (hrun : Run (poolStep conf image) p actions p') :
    p'.sys.log.filter Event.begins = p.sys.log.filter Event.begins ∧
      ∀ i, actions.countP (PoolAction.isOf i) ≤ 9 + (p.sys.worker i).toPut.length := by
  have hstopped : p.Stopped := by
    refine ⟨by rw [hset]; rfl, fun i hi => flags_set hr i ?_, (guarded hr).heads⟩
    rw [hset]
    exact hi
  constructor
  · refine (Reachable.invariant (P := fun u => u.Stopped ∧
      u.sys.log.filter Event.begins = p.sys.log.filter Event.begins) ⟨actions, hrun⟩
      ⟨hstopped, rfl⟩ ?_).2
    intro u a v _ hu hstep
    obtain ⟨hv, hlog, -⟩ := hu.1.step hstep
    exact ⟨hv, hlog.trans hu.2⟩
  · intro i
    have hspends : Spends (poolStep conf image) Pool.Stopped (PoolAction.isOf i)
        (fun p => (p.sys.worker i).windDown (p.head i)) := by
      refine ⟨fun u a v hu hstep => (hu.step hstep).1, fun u a v hu hstep ha => ?_,
        fun u a v hu hstep ha => ?_⟩
      all_goals
        have hle := (hu.step hstep).2.2 i
        rw [ha] at hle
      · exact hle
      · exact hle
    have hspent := hspends.run hstopped hrun
    have hle := windDown_le (p.sys.worker i) (p.head i)
    omega

/-- The sample pool with all flags set, and `nova` still in its attempt. -/
def flaggedActions : List PoolAction := interruptedActions ++ [.main, .main]

theorem stopped_winds_down_sample : ∃ p p',
    p.control = .tombPush 2 ∧ p.sys.worker 0 = .running (.build 1) 0 .parentCheck ∧
      Run (poolStep sampleBuildConf sampleImage) p [.worker 0 .none, .main, .worker 1 .none] p' ∧
      p'.sys.log.filter Event.begins = p.sys.log.filter Event.begins ∧
      ∀ i, ([.worker 0 .none, .main, .worker 1 .none] : List PoolAction).countP (PoolAction.isOf i)
        ≤ 9 + (p.sys.worker i).toPut.length := by
  have hsome : ((flaggedActions ++ [PoolAction.worker 0 .none, .main, .worker 1 .none]).foldlM
      (poolStep sampleBuildConf sampleImage)
      (initialPool sampleImage sampleImages.refs)).isSome = true := by decide
  have hstate : (flaggedActions.foldlM (poolStep sampleBuildConf sampleImage)
      (initialPool sampleImage sampleImages.refs)).map
        (fun p => (p.control, p.started, p.sys.worker 0))
      = some (.tombPush 2, 2, .running (.build 1) 0 .parentCheck) := by decide
  obtain ⟨p', hp'⟩ := Option.isSome_iff_exists.mp hsome
  obtain ⟨p, hp, hrun⟩ := run_append.mp hp'
  rw [show flaggedActions.foldlM _ _ = some p from hp] at hstate
  simp only [Option.map_some, Option.some.injEq, Prod.mk.injEq] at hstate
  obtain ⟨hcontrol, hstarted, hworker⟩ := hstate
  exact ⟨p, p', hcontrol, hworker, hrun,
    stopped_winds_down ⟨_, hp⟩ (by rw [hcontrol, hstarted]) hrun⟩

/-! ## The end of an interrupted run -/

section Ends

variable {ι : Type} [DecidableEq ι] {conf : Conf} {image : Heap ι} {images : ImageList ι}
  {p p' : Pool ι} {i : ℕ}

/-- The steps of the main thread after the interrupt. -/
def Control.stepsLeft : Control → ℕ
  | .starting _ => 0
  | .waiting => 0
  | .stopping j n => n - j + 3
  | .tombPush _ => 2
  | .tombBuild _ => 1
  | .joining _ => 0

/-- The steps that the workers can still take: those of the workers without
flags, and a read of the flag for each way round the loop. -/
def Pool.potential (conf : Conf) (images : List ι) (p : Pool ι) : ℕ :=
  2 * p.sys.potential conf images + ∑ i ∈ Finset.range conf.workers, (p.head i).toNat

theorem sum_heads {n : ℕ} (hi : i < n) (head : ℕ → Bool) (b : Bool) :
    (∑ j ∈ Finset.range n, (Function.update head i b j).toNat) + (head i).toNat
      = (∑ j ∈ Finset.range n, (head j).toNat) + b.toNat := by
  have hmem : i ∈ Finset.range n := Finset.mem_range.mpr hi
  have hcomp : (fun j => (Function.update head i b j).toNat)
      = Function.update (fun j => (head j).toNat) i b.toNat := by
    funext j
    by_cases hj : j = i <;> simp [hj]
  rw [hcomp, Finset.sum_update_of_mem hmem, Finset.sdiff_singleton_eq_erase,
    ← Finset.add_sum_erase _ _ hmem]
  omega

/-- In the pool, too, a task is issued once. -/
theorem pool_issued_once (hl : Linked image images.refs)
    (hr : Reachable (poolStep conf image) (initialPool image images.refs) p) :
    (issued p.sys.log).Nodup ∧ ∀ t ∈ issued p.sys.log, t.image ∈ images.refs := by
  obtain ⟨s, hs, hmirrors⟩ := mirrored hr
  rw [← issued_lasting, ← hmirrors.lasting, issued_lasting]
  exact issued_once hl hs

/-- A step of a worker of the pool uses up the potential. -/
theorem PoolMove.potential_lt (h : PoolMove conf image p i p') (hi : i < conf.workers)
    (hheads : p.head i = true → p.sys.worker i = .idle) (hnodup : (issued p'.sys.log).Nodup)
    (hin : ∀ t ∈ issued p'.sys.log, t.image ∈ images.refs) :
    p'.potential conf images.refs < p.potential conf images.refs := by
  rw [Pool.potential, Pool.potential]
  cases h with
  | enter hhead =>
    have hsum := sum_heads hi p.head false
    rw [hhead, Bool.toNat_true, Bool.toNat_false] at hsum
    dsimp only
    omega
  | leave hhead =>
    have hsum := sum_heads hi p.head false
    rw [hhead, Bool.toNat_true, Bool.toNat_false] at hsum
    have hlt : (p.sys.goto i .dead).potential conf images.refs < p.sys.potential conf images.refs := by
      refine Kolla.Build.potential_lt (List.nil_append _).symm hnodup hin (load_of_update hi rfl ?_)
      rw [hheads hhead, queued_goto]
      simp [WorkerPc.stepsLeft]
    dsimp only
    omega
  | @cutAttempts t k _ _ hpc =>
    have hlt : (p.sys.goto i (.ended t false)).potential conf images.refs
        < p.sys.potential conf images.refs := by
      refine Kolla.Build.potential_lt (List.nil_append _).symm hnodup hin (load_of_update hi rfl ?_)
      rw [hpc, queued_goto]
      simp only [WorkerPc.stepsLeft]
      omega
    dsimp only
    omega
  | @cutFollowups t _ _ hpc =>
    have hlt : ((p.sys.emit [.ended t true]).goto i (.finishing t)).potential conf images.refs
        < p.sys.potential conf images.refs := by
      refine Kolla.Build.potential_lt (List.nil_append _).symm hnodup hin (load_of_update hi rfl ?_)
      rw [hpc, queued_goto, queued_emit]
      simp only [WorkerPc.stepsLeft]
      omega
    dsimp only
    omega
  | @goOn s hhead hcut hmove =>
    obtain ⟨new, hlog, hload⟩ := hmove.spends hi
    have hlt := Kolla.Build.potential_lt hlog hnodup hin hload
    have hsum := sum_heads hi p.head (p.sys.worker i).isFinishing
    have hone := Bool.toNat_le (p.sys.worker i).isFinishing
    dsimp only
    omega

/-- The main thread uses up none of it. -/
theorem Handling.potential_eq (h : Handling conf p p') :
    p'.potential conf images.refs = p.potential conf images.refs := by
  obtain ⟨hworker, hhead, -, -, hlog, htasks, -⟩ := h.worker_eq
  have hbuild : p'.sys.buildQueue.tasks = p.sys.buildQueue.tasks := htasks .build
  have hpush : p'.sys.pushQueue.tasks = p.sys.pushQueue.tasks := htasks .push
  rw [Pool.potential, Pool.potential, hhead, Sys.potential, Sys.potential, hlog, Sys.load, Sys.load,
    hworker, Sys.queued, Sys.queued, hbuild, hpush]

theorem Regular.potential_eq (h : Regular conf p p') :
    p'.potential conf images.refs = p.potential conf images.refs := by
  obtain ⟨hhead, -, -, -, hsys⟩ := h.frame
  rw [Pool.potential, Pool.potential, hhead]
  rcases hsys with hsys | hsys
  · rw [hsys]
  · rw [potential_main (mainStep_move hsys)]

/-- The potential and the steps of the main thread are bounded. -/
theorem potential_le (hl : Linked image images.refs)
    (hr : Reachable (poolStep conf image) (initialPool image images.refs) p) :
    p.potential conf images.refs ≤ 2 * workBound conf images.refs + conf.workers ∧
      p.control.stepsLeft ≤ conf.workers + 3 := by
  refine hr.invariant (P := fun p => p.potential conf images.refs
      ≤ 2 * workBound conf images.refs + conf.workers ∧ p.control.stepsLeft ≤ conf.workers + 3)
    ⟨?_, Nat.zero_le _⟩ ?_
  · have hinit := @potential_initial _ _ conf image images
    have hheads : ∑ i ∈ Finset.range conf.workers, ((initialPool image images.refs).head i).toNat
        = conf.workers := by
      change ∑ _i ∈ Finset.range conf.workers, 1 = _
      rw [Finset.sum_const, Finset.card_range, smul_eq_mul, Nat.mul_one]
    rw [Pool.potential, hheads]
    change 2 * (initial image images.refs).potential conf images.refs + _ ≤ _
    omega
  · rintro u a v hu ⟨hpot, hsteps⟩ hstep
    have hguard := guarded hu
    obtain ⟨hnodup, hin⟩ := pool_issued_once hl (hu.tail hstep)
    rcases poolStep_cases hstep with ⟨i, hi, hmove⟩ | hreg | hhandle
    · have hlt := hmove.potential_lt (Nat.lt_of_lt_of_le hi hguard.started) (hguard.heads i) hnodup hin
      rw [hmove.frame.2.2]
      exact ⟨by omega, hsteps⟩
    · rw [hreg.potential_eq]
      refine ⟨hpot, ?_⟩
      obtain ⟨-, -, -, hafter, -⟩ := hreg.frame
      cases hc : v.control <;> rw [hc] at hafter <;> first | exact Nat.zero_le _ | cases hafter
    · rw [hhandle.potential_eq]
      refine ⟨hpot, ?_⟩
      cases hhandle with
      | interrupt n hn =>
        have hle : n ≤ conf.workers := by
          rcases hn with hn | ⟨rfl, -⟩
          · exact (hguard.starting n hn).trans hguard.started
          · exact Nat.le_refl _
        change n - 0 + 3 ≤ _
        omega
      | @flag j n hc hj =>
        rw [hc] at hsteps
        change n - (j + 1) + 3 ≤ _
        have : n - j + 3 ≤ conf.workers + 3 := hsteps
        omega
      | flagged | tombPush | tombBuild =>
        simp only [Control.stepsLeft]
        omega

/-- After the interrupt every step uses something up. -/
theorem interrupted_spends (hl : Linked image images.refs) :
    Spends (poolStep conf image)
      (fun p => Reachable (poolStep conf image) (initialPool image images.refs) p ∧
        p.control.interrupted = true)
      (fun _ => true) (fun p => p.potential conf images.refs + p.control.stepsLeft) := by
  have hkey : ∀ p a p', (Reachable (poolStep conf image) (initialPool image images.refs) p ∧
      p.control.interrupted = true) → poolStep conf image p a = some p' →
      p'.control.interrupted = true ∧
        p'.potential conf images.refs + p'.control.stepsLeft
          < p.potential conf images.refs + p.control.stepsLeft := by
    rintro p a p' ⟨hr, hint⟩ hstep
    have hguard := guarded hr
    obtain ⟨hnodup, hin⟩ := pool_issued_once hl (hr.tail hstep)
    rcases poolStep_cases hstep with ⟨i, hi, hmove⟩ | hreg | hhandle
    · have hlt := hmove.potential_lt (Nat.lt_of_lt_of_le hi hguard.started) (hguard.heads i) hnodup hin
      rw [hmove.frame.2.2]
      exact ⟨hint, by omega⟩
    · exact absurd (hreg.frame.2.2.1.symm.trans hint) Bool.false_ne_true
    · have hpot := @Handling.potential_eq _ _ _ images _ _ hhandle
      refine ⟨hhandle.worker_eq.2.2.2.2.2.2, ?_⟩
      rw [hpot]
      cases hhandle with
      | interrupt n hn =>
        rcases hn with hn | ⟨-, hn⟩ <;>
          · rw [hn] at hint
            cases hint
      | flag hc hj | flagged hc hj =>
        rw [hc]
        simp only [Control.stepsLeft]
        omega
      | tombPush hc | tombBuild hc =>
        rw [hc]
        simp only [Control.stepsLeft]
        omega
  exact ⟨fun p a p' h hstep => ⟨h.1.tail hstep, (hkey p a p' h hstep).1⟩,
    fun p a p' h hstep _ => (hkey p a p' h hstep).2, fun p a p' h hstep _ =>
    Nat.le_of_lt (hkey p a p' h hstep).2⟩

/-- A worker of the pool that is inside `run` is at a point of its task. -/
theorem pool_sound (hr : Reachable (poolStep conf image) (initialPool image images.refs) p) (i : ℕ) :
    (p.sys.worker i).Sound := by
  obtain ⟨s, hs, hmirrors⟩ := mirrored hr
  by_cases hw : p.Winding i
  · have hout := (guarded hr).outside hw
    cases hpc : p.sys.worker i with
    | running t k pc =>
      rw [hpc] at hout
      cases hout
    | _ => exact trivial
  · rw [← hmirrors.others i hw]
    exact sound hs i

/-- Where the worker could take a step without an interrupt, it can take one
in the pool. -/
theorem exists_poolWorkerStep {choice : Choice}
    (h : (workerStep conf image p.sys i choice).isSome = true) :
    (poolWorkerStep conf image p i choice).isSome = true := by
  have hon : (p.goOn conf image i choice).isSome = true := by
    rw [Pool.goOn, Option.isSome_map]
    exact h
  unfold poolWorkerStep
  split
  · rfl
  · split
    · split
      · rfl
      · exact hon
    · split
      · rfl
      · exact hon
    · exact hon

/-- The handler's tombstones go round. -/
theorem pool_circulates (hr : Reachable (poolStep conf image) (initialPool image images.refs) p) :
    ((∃ n, p.control = .tombBuild n ∨ p.control = .joining n) →
        Circulates conf p.started p.sys .push) ∧
      ((∃ n, p.control = .joining n) → Circulates conf p.started p.sys .build) := by
  refine hr.invariant (P := fun p => ((∃ n, p.control = .tombBuild n ∨ p.control = .joining n) →
      Circulates conf p.started p.sys .push) ∧
    ((∃ n, p.control = .joining n) → Circulates conf p.started p.sys .build))
    ⟨fun ⟨n, h⟩ => (by rcases h with h | h <;> cases h), fun ⟨n, h⟩ => (by cases h)⟩ ?_
  intro u a v hu ih hstep
  rcases poolStep_cases hstep with ⟨i, hi, hmove⟩ | hreg | hhandle
  · have hkey : ∀ kind, Circulates conf u.started u.sys kind →
        Circulates conf v.started v.sys kind := by
      intro kind h
      rw [hmove.frame.1]
      -- a worker that leaves or is cut off has no tombstone
      have hno : ∀ {pc}, u.sys.worker i ≠ .tombstone →
          Circulates conf u.started (u.sys.goto i pc) kind := by
        intro pc hne
        refine h.imp (fun hin => by simpa using hin) ?_
        rintro ⟨j, hj, hkind, hpc⟩
        refine ⟨j, hj, hkind, ?_⟩
        rw [goto_worker, Function.update_of_ne ?_, hpc]
        rintro rfl
        exact hne hpc
      cases hmove with
      | enter => exact h
      | leave hhead => exact hno (by rw [(guarded hu).heads i hhead]; simp)
      | cutAttempts _ _ hpc | cutFollowups _ _ hpc => exact hno (by rw [hpc]; simp)
      | goOn _ _ hworker => exact h.preserved hi hworker
    rw [hmove.frame.2.2]
    exact ⟨fun h => hkey _ (ih.1 h), fun h => hkey _ (ih.2 h)⟩
  · obtain ⟨-, -, -, hafter, -⟩ := hreg.frame
    constructor
    · rintro ⟨n, hc | hc⟩ <;>
        · rw [hc] at hafter
          cases hafter
    · rintro ⟨n, hc⟩
      rw [hc] at hafter
      cases hafter
  · cases hhandle with
    | interrupt | flag | flagged =>
      exact ⟨fun ⟨n, h⟩ => (by rcases h with h | h <;> cases h), fun ⟨n, h⟩ => (by cases h)⟩
    | tombPush =>
      exact ⟨fun _ => Or.inl (by simp [Sys.queue, Sys.setQueue, TaskQueue.put]),
        fun ⟨n, h⟩ => (by cases h)⟩
    | tombBuild hc =>
      exact ⟨fun _ => (ih.1 ⟨_, Or.inl hc⟩).imp id id,
        fun _ => Or.inl (by simp [Sys.queue, Sys.setQueue, TaskQueue.put])⟩

/-- Where nobody can go on after the interrupt, all workers are dead. -/
theorem interrupted_halted (hr : Reachable (poolStep conf image) (initialPool image images.refs) p)
    (hint : p.control.interrupted = true) (hstuck : ∀ a, poolStep conf image p a = none) :
    (∃ n, p.control = .joining n) ∧ ∀ i < p.started, p.sys.worker i = .dead := by
  have hjoin : ∃ n, p.control = .joining n := by
    have hmain : poolMainStep conf p = none := hstuck .main
    cases hc : p.control with
    | joining n => exact ⟨n, rfl⟩
    | starting | waiting =>
      rw [hc] at hint
      cases hint
    | stopping j n =>
      simp only [poolMainStep, hc] at hmain
      split at hmain <;> cases hmain
    | tombPush | tombBuild =>
      simp only [poolMainStep, hc] at hmain
      cases hmain
  refine ⟨hjoin, ?_⟩
  have hworker : ∀ i < p.started, ∀ choice, poolWorkerStep conf image p i choice = none := by
    intro i hi choice
    have hnone := hstuck (.worker i choice)
    rw [poolStep, if_pos hi] at hnone
    exact hnone
  have hoff : ∀ i < p.started, ¬ Enabled conf image p.sys i := by
    rintro i hi ⟨choice, s', hstep⟩
    rw [step, if_pos (Nat.lt_of_lt_of_le hi (guarded hr).started)] at hstep
    have hsome := exists_poolWorkerStep (p := p) (by rw [hstep]; rfl)
    rw [hworker i hi choice] at hsome
    cases hsome
  have hround : ∀ kind, Circulates conf p.started p.sys kind := by
    obtain ⟨n, hn⟩ := hjoin
    intro kind
    cases kind with
    | build => exact (pool_circulates hr).2 ⟨n, hn⟩
    | push => exact (pool_circulates hr).1 ⟨n, Or.inr hn⟩
  intro i hi
  have hcases := fun j (hj : j < p.started) =>
    (enabled_cases (Nat.lt_of_lt_of_le hj (guarded hr).started) (pool_sound hr j)).resolve_left
      (hoff j hj)
  refine (hcases i hi).resolve_right ?_
  rintro ⟨-, hempty⟩
  rcases hround (workerKind conf i) with hin | ⟨j, hj, -, htomb⟩
  · rw [hempty] at hin
    cases hin
  · rcases hcases j hj with hdead | ⟨hidle, -⟩
    · rw [hdead] at htomb
      cases htomb
    · rw [hidle] at htomb
      cases htomb

end Ends

/-- After a keyboard interrupt every run comes to an end: however the steps
are ordered there are no more of them than the bound, and where nobody can go
on the main thread is at its joins and every worker is dead. -/
theorem interrupted_ends {ι : Type} [DecidableEq ι] {images : ImageList ι} {image : Heap ι}
    (hprep : Prepared images image) {conf : Conf} {p p' : Pool ι} {actions : List PoolAction}
    (hr : Reachable (poolStep conf image) (initialPool image images.refs) p)
    (hint : p.control.interrupted = true) (hrun : Run (poolStep conf image) p actions p') :
    actions.length ≤ 2 * workBound conf images.refs + 2 * conf.workers + 3 ∧
      ((∀ a, poolStep conf image p' a = none) →
        (∃ n, p'.control = .joining n) ∧ ∀ i < p'.started, p'.sys.worker i = .dead) := by
  have hspends := @interrupted_spends _ _ conf _ _ hprep.linked
  have hspent := hspends.run ⟨hr, hint⟩ hrun
  obtain ⟨hpot, hsteps⟩ := potential_le hprep.linked hr
  have hall : actions.countP (fun _ => true) = actions.length :=
    congrFun List.countP_true actions
  constructor
  · omega
  · obtain ⟨hr', hint'⟩ := Reachable.invariant (P := fun p =>
      Reachable (poolStep conf image) (initialPool image images.refs) p ∧
        p.control.interrupted = true) ⟨actions, hrun⟩ ⟨hr, hint⟩
      fun u a v _ hu hstep => hspends.preserved u a v hu hstep
    exact interrupted_halted hr' hint'

/-- From the interrupt to the joins, with the attempt at `nova` under way. -/
def joinActions : List PoolAction :=
  List.replicate 4 .main ++ [.worker 1 .none, .worker 0 .none, .worker 0 .none,
    .worker 0 (.attempt goodAttempt)] ++ List.replicate 4 (.worker 0 .none)

theorem interrupted_ends_sample : ∃ p p', p.control = .stopping 1 2 ∧
    p.sys.worker 0 = .running (.build 1) 0 .parentCheck ∧
      Run (poolStep sampleBuildConf sampleImage) p joinActions p' ∧ p'.control = .joining 2 ∧
      p'.sys.worker 0 = .dead ∧ p'.sys.worker 1 = .dead ∧
      joinActions.length
        ≤ 2 * workBound sampleBuildConf sampleImages.refs + 2 * sampleBuildConf.workers + 3 ∧
      ((∀ a, poolStep sampleBuildConf sampleImage p' a = none) →
        (∃ n, p'.control = .joining n) ∧ ∀ i < p'.started, p'.sys.worker i = .dead) := by
  have hend : ((interruptedActions ++ joinActions).foldlM (poolStep sampleBuildConf sampleImage)
      (initialPool sampleImage sampleImages.refs)).map
        (fun p => (p.control, p.sys.worker 0, p.sys.worker 1)) = some (.joining 2, .dead, .dead) := by
    decide +kernel
  have hbegin : (interruptedActions.foldlM (poolStep sampleBuildConf sampleImage)
      (initialPool sampleImage sampleImages.refs)).map (fun p => (p.control, p.sys.worker 0))
        = some (.stopping 1 2, .running (.build 1) 0 .parentCheck) := by decide +kernel
  obtain ⟨p', hp', hdead⟩ := Option.map_eq_some_iff.mp hend
  obtain ⟨p, hp, hrun⟩ := run_append.mp hp'
  rw [show interruptedActions.foldlM _ _ = some p from hp] at hbegin
  simp only [Option.map_some, Option.some.injEq, Prod.mk.injEq] at hbegin hdead
  obtain ⟨hcontrol, hworker⟩ := hbegin
  obtain ⟨hjoining, hfirst, hsecond⟩ := hdead
  exact ⟨p, p', hcontrol, hworker, hrun, hjoining, hfirst, hsecond,
    interrupted_ends sampleImage_prepared ⟨_, hp⟩ (by rw [hcontrol]; rfl) hrun⟩

/-! ## The exit code of an interrupted run -/

section Statuses

variable {ι : Type} {conf : Conf}

/-- An attempt that leaves `BUILT` has called the engine. -/
theorem built_called {image : Image ι} {outcome : AttemptOutcome}
    (h : (attemptResult conf image outcome).1 = .built) :
    (exitState (buildImage conf image outcome ⟨.building, false⟩)).engineCalled = true := by
  have hdone : BuildDone conf image outcome := by
    rw [attemptResult] at h
    rcases buildImage_cases conf image outcome with
      ⟨-, s', hb, -, hiff⟩ | ⟨-, ⟨-, hb | ⟨e, hb⟩⟩ | ⟨-, st, hst, hb⟩⟩
    · rw [hb] at h
      exact (hiff.mp h).1
    · rw [hb] at h
      cases h
    · rw [hb] at h
      cases h
    · rw [hb] at h
      obtain rfl : st = .built := h
      exact absurd hst (by decide)
  exact buildImage_called.mpr
    ⟨sourcesDone_iff.mpr ⟨hdone.source, hdone.plugins, hdone.additions⟩, hdone.stream.client⟩

variable [DecidableEq ι] {image : Heap ι} {images : ImageList ι} {s : Sys ι}

/-- A step inside `run` that reports an attempt with a good end reports the
call of the engine. -/
theorem RunMove.called {status : ι → Status} {t : Task ι} {k : ℕ} {pc : RunPc} {e : RunEffect ι}
    (h : RunMove conf image status t k pc e) (hst : ∀ x, t = .build x → pc = .work →
      status x = .building) {x : ι} {j : ℕ} {outcome : AttemptOutcome}
    (hev : .worked x j outcome ∈ e.events)
    (hbuilt : (attemptResult conf (image x) outcome).1 = .built) : .engine x ∈ e.events := by
  cases h with
  | skip | enter | refuse | start | built | failed | pushDone | pushFailed => cases hev
  | refused | passed | pushInto | push => cases List.mem_singleton.mp hev
  | @work y k o =>
    have hcalled := @built_called _ conf (image x) outcome hbuilt
    revert hev
    unfold workEffect
    rw [hst y rfl rfl]
    cases hb : buildImage conf (image y) o ⟨.building, false⟩ with
    | ok a s' | error a s' =>
      intro hev
      rcases List.mem_cons.mp hev with heq | hmem
      · cases heq
        rw [hb] at hcalled
        simp only [exitState] at hcalled
        simp [hcalled]
      · split at hmem
        · cases List.mem_singleton.mp hmem
        · cases hmem

/-- Behind every attempt with a good end there is a call of the engine. -/
theorem engine_of_worked (hl : Linked image images.refs)
    (hr : Reachable (step conf image) (initial image images.refs) s) {x : ι} {k : ℕ}
    {outcome : AttemptOutcome} (hworked : .worked x k outcome ∈ s.log)
    (hbuilt : (attemptResult conf (image x) outcome).1 = .built) : .engine x ∈ s.log := by
  revert hworked
  refine hr.invariant (P := fun s => .worked x k outcome ∈ s.log → .engine x ∈ s.log) ?_ ?_
  · intro hmem
    have : .worked x k outcome ∈ (initialTasks image images.refs).map Event.issued := hmem
    simp at this
  · intro u a v hu ih hstep hmem
    rcases step_cases hstep with ⟨i, -, hmove⟩ | hmove
    · cases hmove with
      | take | takeTombstone | putTombstone | put | begin | exhaust | follow | giveUp | allPut
      | finish =>
        have hold : .worked x k outcome ∈ u.log := by simpa using hmem
        simpa using ih hold
      | @run t j pc e hpc he =>
        have hwork : ∀ y, t = .build y → pc = .work → u.status y = .building := by
          rintro y rfl rfl
          exact (attempts hl images.distinct hu).working i y j hpc
        rcases List.mem_append.mp hmem with hnew | hold
        · exact List.mem_append_left _ (he.called hwork hnew hbuilt)
        · exact List.mem_append_right _ (ih hold)
    · rw [hmove.frame.2.2.1] at hmem ⊢
      exact ih hmem

/-- A push is tried after a build attempt with a good end. -/
theorem worked_of_push (hl : Linked image images.refs)
    (hr : Reachable (step conf image) (initial image images.refs) s) {x : ι}
    (hpush : .push x ∈ issued s.log) : ∃ k outcome, .worked x k outcome ∈ s.log ∧
      (attemptResult conf (image x) outcome).1 = .built := by
  have hacc := account hl images.distinct hr
  have hinto := issued_of_spent hr (hacc.push x hpush)
  obtain ⟨k, r, rest, -, htries, -, hres⟩ :=
    (attempts hl images.distinct hr).ended _ _ (hacc.pushInto x hinto).2
  have hmem : (k, r) ∈ tries (.build x) s.log := by
    rw [htries]
    exact List.mem_cons_self
  cases r with
  | refused => cases hres
  | worked outcome => exact ⟨k, outcome, worked_mem.mp hmem, attemptResult_built hres⟩
  | pushed outcome =>
    rcases try_of_mem hmem with ⟨y, -, h | ⟨o, h⟩⟩ | ⟨y, o, h, -⟩ <;> cases h

/-- What a step inside `run` leaves as the status of an image: the old
status, a status that `build_queue` does not pass over, and `BUILT` only
after an attempt with a good end. -/
theorem status_cases (hl : Linked image images.refs)
    (hr : Reachable (step conf image) (initial image images.refs) s) {i : ℕ} {t : Task ι} {k : ℕ}
    {pc : RunPc} {e : RunEffect ι} (hpc : s.worker i = .running t k pc)
    (he : RunMove conf image s.status t k pc e) (x : ι) :
    e.status x = s.status x ∨ skipsBuild (e.status x) = false ∧ (e.status x = .built →
      ∃ j outcome, .worked x j outcome ∈ e.events ++ s.log ∧
        (attemptResult conf (image x) outcome).1 = .built) := by
  have hwrite : ∀ {y : ι} {st : Status}, e.status = Function.update s.status y st →
      skipsBuild st = false → (st = .built → ∃ j outcome, .worked y j outcome ∈ e.events ++ s.log ∧
        (attemptResult conf (image y) outcome).1 = .built) →
      e.status x = s.status x ∨ skipsBuild (e.status x) = false ∧ (e.status x = .built →
        ∃ j outcome, .worked x j outcome ∈ e.events ++ s.log ∧
          (attemptResult conf (image x) outcome).1 = .built) := by
    intro y st hst hskip hbuilt
    by_cases hxy : x = y
    · subst hxy
      rw [hst, Function.update_self]
      exact Or.inr ⟨hskip, hbuilt⟩
    · rw [hst, Function.update_of_ne hxy]
      exact Or.inl rfl
  cases he with
  | skip | enter | refused | passed | built | failed | pushInto | pushDone | pushFailed =>
    exact Or.inl rfl
  | refuse => exact hwrite rfl rfl fun h => by cases h
  | start => exact hwrite rfl rfl fun h => by cases h
  | @work y _ outcome =>
    have hworking := (attempts hl images.distinct hr).working i y k hpc
    obtain ⟨called, next, heq, -⟩ := workEffect_result conf image hworking outcome
    have hevents : .worked y k outcome ∈ (workEffect conf image s.status y k outcome).events := by
      rw [heq]
      exact List.mem_cons_self
    exact hwrite (congrArg RunEffect.status heq) (skipsBuild_result conf (image y) (.worked outcome))
      fun h => ⟨k, outcome, List.mem_append_left _ hevents, h⟩
  | @push y _ outcome =>
    refine hwrite rfl (skipsBuild_result conf (image y) (.pushed outcome)) fun _ => ?_
    obtain ⟨j, o, hmem, hbuilt⟩ := worked_of_push hl hr (issued_of_running hr hpc)
    exact ⟨j, o, List.mem_append_right _ hmem, hbuilt⟩

/-- At every point of a run the image that was `MATCHED` has a status that
the summary counts as failed, or it is `BUILT` and the engine was called for
it. -/
theorem status_of_matched (hprep : Prepared images image)
    (hr : Reachable (step conf image) (initial image images.refs) s) {x : ι}
    (hx : (image x).status = .matched) :
    skipsBuild (s.status x) = false ∧ (s.status x = .built → .engine x ∈ s.log) := by
  have hl := hprep.linked
  suffices h : skipsBuild (s.status x) = false ∧ (s.status x = .built →
      ∃ j outcome, .worked x j outcome ∈ s.log ∧
        (attemptResult conf (image x) outcome).1 = .built) by
    refine ⟨h.1, fun hst => ?_⟩
    obtain ⟨j, outcome, hmem, hbuilt⟩ := h.2 hst
    exact engine_of_worked hl hr hmem hbuilt
  refine hr.invariant (P := fun s => skipsBuild (s.status x) = false ∧ (s.status x = .built →
    ∃ j outcome, .worked x j outcome ∈ s.log ∧
      (attemptResult conf (image x) outcome).1 = .built)) ?_ ?_
  · change skipsBuild (image x).status = false ∧ ((image x).status = .built → _)
    rw [hx]
    exact ⟨rfl, fun h => by cases h⟩
  · intro u a v hu ih hstep
    have hkeep : v.status x = u.status x → u.log ⊆ v.log → skipsBuild (v.status x) = false ∧
        (v.status x = .built → ∃ j outcome, .worked x j outcome ∈ v.log ∧
          (attemptResult conf (image x) outcome).1 = .built) := by
      intro hst hlog
      rw [hst]
      refine ⟨ih.1, fun h => ?_⟩
      obtain ⟨j, outcome, hmem, hbuilt⟩ := ih.2 h
      exact ⟨j, outcome, hlog hmem, hbuilt⟩
    obtain ⟨events, hlog⟩ := step_log hstep
    have hsub : u.log ⊆ v.log := hlog ▸ List.subset_append_right _ _
    rcases step_cases hstep with ⟨i, -, hmove⟩ | hmove
    · cases hmove with
      | take | takeTombstone | putTombstone | put | begin | exhaust | follow | giveUp | allPut
      | finish => exact hkeep (by simp) hsub
      | run hpc he =>
        rcases status_cases hl hu hpc he x with hst | hst
        · exact hkeep hst hsub
        · exact hst
    · exact hkeep (by rw [hmove.frame.1]) hsub

end Statuses

/-- The exit code after an interrupt, whenever the summary is made: it is 0
exactly if every image that was left `MATCHED` and is not allowed to fail is
`BUILT`, an image that is `BUILT` was given to the engine, and the lists of
the summary name exactly the images of their class. -/
theorem interrupted_verdict {ι : Type} [DecidableEq ι] {images : ImageList ι} {image : Heap ι}
    (hprep : Prepared images image) {conf : Conf} {p : Pool ι}
    (hr : Reachable (poolStep conf image) (initialPool image images.refs) p)
    (allowedToFail : List String) (wanted : Bool) :
    (mainExit (runBuildEnd allowedToFail (fun x => (image x).name) p.sys.status images.refs wanted).2
        = 0 ↔
      ∀ x ∈ images.refs, (image x).status = .matched → (image x).name ∉ allowedToFail →
        p.sys.status x = .built ∧ .engine x ∈ p.sys.log) ∧
      (wanted = true → ∃ results,
        (runBuildEnd allowedToFail (fun x => (image x).name) p.sys.status images.refs wanted).1
          = some results) ∧
      ∀ results,
        (runBuildEnd allowedToFail (fun x => (image x).name) p.sys.status images.refs wanted).1
          = some results →
        Reported (fun x => (image x).name) p.sys.status images.refs results := by
  obtain ⟨s, hs, hmirrors⟩ := mirrored hr
  have hengine : ∀ x, .engine x ∈ s.log → .engine x ∈ p.sys.log := fun x h => hmirrors.sub h
  rw [← hmirrors.status]
  refine ⟨?_, ?_, ?_⟩
  · rw [runBuildEnd_statuses, mainExit_eq_zero_iff]
    refine forall₂_congr fun x hx => ?_
    rcases hprep.processed hx with hm | hst
    · obtain ⟨hskip, hcalled⟩ := status_of_matched hprep hs hm
      have hfailed : failedStatus (s.status x) ↔ s.status x ≠ .built := by
        cases h : s.status x <;> simp [h, failedStatus, skipsBuild] at hskip ⊢
      rw [hfailed]
      constructor
      · intro h _ hname
        have hbuilt : s.status x = .built := by
          by_contra hne
          exact hname (h hne)
        exact ⟨hbuilt, hengine x (hcalled hbuilt)⟩
      · intro h hne
        by_contra hname
        exact hne (h hm hname).1
    · have heq := status_of_unwanted hprep.linked images.distinct hs hst
      rw [heq]
      cases h : (image x).status <;> simp [h, failedStatus] at hst ⊢
  · rintro rfl
    exact ⟨_, rfl⟩
  · intro results hresults
    cases wanted with
    | false => cases hresults
    | true =>
      cases hresults
      exact summary_reported

/-- The summary while `nova` is in its attempt. -/
theorem interrupted_verdict_sample : ∃ p : Pool _, p.control = .stopping 1 2 ∧ p.sys.status 1 = .matched ∧
    (mainExit (runBuildEnd [] (fun x => (sampleImage x).name) p.sys.status sampleImages.refs true).2
        = 0 ↔
      ∀ x ∈ sampleImages.refs, (sampleImage x).status = .matched →
        (sampleImage x).name ∉ ([] : List String) →
        p.sys.status x = .built ∧ .engine x ∈ p.sys.log) ∧
      ∃ results,
        (runBuildEnd [] (fun x => (sampleImage x).name) p.sys.status sampleImages.refs true).1
          = some results ∧
        Reported (fun x => (sampleImage x).name) p.sys.status sampleImages.refs results := by
  obtain ⟨p, hr, hp⟩ := exists_reachable (poolStep sampleBuildConf sampleImage)
    (s := initialPool sampleImage sampleImages.refs) interruptedActions
    (f := fun p => (p.control, p.sys.status 1)) (b := (.stopping 1 2, .matched)) (by decide)
  rw [Prod.mk.injEq] at hp
  obtain ⟨hexit, hwanted, hreported⟩ := interrupted_verdict sampleImage_prepared hr [] true
  obtain ⟨results, hresults⟩ := hwanted rfl
  exact ⟨p, hp.1, hp.2, hexit, results, hresults, hreported results hresults⟩

end Kolla.Build
