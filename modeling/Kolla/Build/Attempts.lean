import Kolla.Build.Coverage

/-!
# What the attempts at a task come to

The status of an image is shared: its `BuildTask` writes it, then its
`PushTask`, and the builders of its children read it.  This module shows
that, between two writes, the status is a function of the log.

* `tries` lists the attempts at a task that came to something, newest
  first, and `Try.result` is the status an attempt leaves together with
  its success.
* `WorkerPc.Chain`: while a task is tried, all its earlier attempts have
  failed, and they are numbered without a gap.  `Settled` is the state of
  the list when the attempts are over.
* `current`: the status that the last attempt left.  `Attempts` says that
  this is the status of the image, unless its builder is about to write.

The order of the steps enters here for the last time.  What follows about
whole runs compares lists of attempts.
-/

namespace Kolla.Build

open Kolla.Lib

variable {ι : Type}

/-! ## Attempts and their results -/

/-- What an attempt came to: the parent check refused it, or the engine
was asked to build, or to push. -/
inductive Try
  | refused
  | worked (outcome : AttemptOutcome)
  | pushed (outcome : PushOutcome)

/-- The status that an attempt past the parent check leaves, and its
success. -/
def attemptResult (conf : Conf) (i : Image ι) (outcome : AttemptOutcome) : Status × Bool :=
  match buildImage conf i outcome ⟨.building, false⟩ with
  | .ok _ s => (s.status, buildSucceeded s.status)
  | .error _ s => (s.status, false)

/-- The status that an attempt leaves, and its success. -/
def Try.result (conf : Conf) (i : Image ι) : Try → Status × Bool
  | .refused => (.parentError, false)
  | .worked outcome => attemptResult conf i outcome
  | .pushed outcome => (pushStatus outcome, pushSucceeded (pushStatus outcome))

/-- The attempt that an event reports. -/
def Event.tried : Event ι → Option (Task ι × ℕ × Try)
  | .parentCheck x k parent => if parentFailed parent then some (.build x, k, .refused) else none
  | .worked x k outcome => some (.build x, k, .worked outcome)
  | .pushed x k outcome => some (.push x, k, .pushed outcome)
  | _ => none

variable [DecidableEq ι]

/-- The attempts at a task, newest first. -/
def tries (t : Task ι) (log : List (Event ι)) : List (ℕ × Try) :=
  log.filterMap fun e => e.tried.bind fun r => if r.1 = t then some r.2 else none

/-- The attempts `0, …, k - 1`, all of them without success. -/
inductive Failed (conf : Conf) (i : Image ι) : List (ℕ × Try) → ℕ → Prop
  | nil : Failed conf i [] 0
  | cons {l : List (ℕ × Try)} {k : ℕ} {r : Try} (h : Failed conf i l k)
      (hr : (r.result conf i).2 = false) : Failed conf i ((k, r) :: l) (k + 1)

/-- The attempts are over: the last one succeeded after failed ones, or
all of them failed. -/
def Over (conf : Conf) (i : Image ι) (l : List (ℕ × Try)) : Bool → Prop
  | true => ∃ k r rest, k ≤ conf.retries ∧ l = (k, r) :: rest ∧ Failed conf i rest k ∧
      (r.result conf i).2 = true
  | false => Failed conf i l (conf.retries + 1)

/-- The attempts at a task are over.  A `PushIntoQueueTask` succeeds at
once. -/
def Settled (conf : Conf) (image : Heap ι) (log : List (Event ι)) (t : Task ι)
    (success : Bool) : Prop :=
  match t with
  | .pushInto x => success = true ∧ .issued (.push x) ∈ log
  | .build x => Over conf (image x) (tries (.build x) log) success
  | .push x => Over conf (image x) (tries (.push x) log) success

/-- The status that the attempts so far left. -/
def current (conf : Conf) (image : Heap ι) (log : List (Event ι)) (x : ι) : Status :=
  match tries (.push x) log, tries (.build x) log with
  | (_, r) :: _, _ => (r.result conf (image x)).1
  | [], (_, r) :: _ => (r.result conf (image x)).1
  | [], [] => (image x).status

section Lists

variable {conf : Conf} {image : Heap ι} {t u : Task ι} {log log' : List (Event ι)} {x : ι}

@[simp] theorem tries_append (l l' : List (Event ι)) : tries t (l ++ l') = tries t l ++ tries t l' :=
  List.filterMap_append

theorem tries_cons_self {e : Event ι} {k : ℕ} {r : Try} (h : e.tried = some (t, k, r)) :
    tries t (e :: log) = (k, r) :: tries t log := by
  rw [tries, List.filterMap_cons, h]
  simp [tries]

theorem tries_cons_ne {e : Event ι} {k : ℕ} {r : Try} (h : e.tried = some (u, k, r)) (htu : t ≠ u) :
    tries t (e :: log) = tries t log := by
  rw [tries, List.filterMap_cons, h]
  simp [tries, Ne.symm htu]

theorem tries_cons_none {e : Event ι} (h : e.tried = none) : tries t (e :: log) = tries t log := by
  rw [tries, List.filterMap_cons, h]
  simp [tries]

theorem tries_eq_nil {events : List (Event ι)} (h : ∀ e ∈ events, e.tried = none) :
    tries t events = [] := by
  induction events with
  | nil => rfl
  | cons e events ih =>
    rw [tries_cons_none (h e List.mem_cons_self)]
    exact ih fun e he => h e (List.mem_cons_of_mem _ he)

theorem mem_tries {k : ℕ} {r : Try} :
    (k, r) ∈ tries t log ↔ ∃ e ∈ log, e.tried = some (t, k, r) := by
  simp only [tries, List.mem_filterMap]
  refine exists_congr fun e => and_congr_right fun _ => ?_
  cases he : e.tried with
  | none => simp
  | some p =>
    obtain ⟨u, q⟩ := p
    by_cases hu : u = t <;> simp [hu]

theorem worked_mem {k : ℕ} {outcome : AttemptOutcome} :
    (k, .worked outcome) ∈ tries (.build x) log ↔ .worked x k outcome ∈ log := by
  rw [mem_tries]
  constructor
  · rintro ⟨e, he, htry⟩
    cases e with
    | worked y j o =>
      cases htry
      exact he
    | parentCheck y j parent =>
      simp only [Event.tried] at htry
      split at htry <;> cases htry
    | _ => cases htry
  · exact fun h => ⟨_, h, rfl⟩

theorem pushed_mem {k : ℕ} {outcome : PushOutcome} :
    (k, .pushed outcome) ∈ tries (.push x) log ↔ .pushed x k outcome ∈ log := by
  rw [mem_tries]
  constructor
  · rintro ⟨e, he, htry⟩
    cases e with
    | pushed y j o =>
      cases htry
      exact he
    | parentCheck y j parent =>
      simp only [Event.tried] at htry
      split at htry <;> cases htry
    | _ => cases htry
  · exact fun h => ⟨_, h, rfl⟩

theorem refused_mem {k : ℕ} :
    (k, .refused) ∈ tries (.build x) log ↔
      ∃ parent, .parentCheck x k parent ∈ log ∧ parentFailed parent = true := by
  rw [mem_tries]
  constructor
  · rintro ⟨e, he, htry⟩
    cases e with
    | parentCheck y j parent =>
      simp only [Event.tried] at htry
      split at htry
      · rename_i hfailed
        cases htry
        exact ⟨parent, he, hfailed⟩
      · cases htry
    | _ => cases htry
  · rintro ⟨parent, he, hfailed⟩
    exact ⟨_, he, by simp [Event.tried, hfailed]⟩

/-- What an attempt at a task can have been. -/
theorem try_of_mem {k : ℕ} {r : Try} (h : (k, r) ∈ tries t log) :
    (∃ x, t = .build x ∧ (r = .refused ∨ ∃ outcome, r = .worked outcome)) ∨
      ∃ x outcome, t = .push x ∧ r = .pushed outcome := by
  obtain ⟨e, -, htry⟩ := mem_tries.mp h
  cases e with
  | parentCheck y j parent =>
    simp only [Event.tried] at htry
    split at htry
    · cases htry
      exact Or.inl ⟨y, rfl, Or.inl rfl⟩
    · cases htry
  | worked y j o =>
    cases htry
    exact Or.inl ⟨y, rfl, Or.inr ⟨o, rfl⟩⟩
  | pushed y j o =>
    cases htry
    exact Or.inr ⟨y, o, rfl, rfl⟩
  | _ => cases htry

omit [DecidableEq ι] in
/-- The failed attempts have the numbers below the bound, each once. -/
theorem Failed.mem_iff {i : Image ι} {l : List (ℕ × Try)} {n : ℕ} (h : Failed conf i l n) (k : ℕ) :
    (∃ r, (k, r) ∈ l) ↔ k < n := by
  induction h with
  | nil => simp
  | cons h hr ih =>
    simp only [List.mem_cons, Prod.mk.injEq, exists_or, ih, exists_and_left, exists_eq, and_true]
    omega

omit [DecidableEq ι] in
theorem Failed.result {i : Image ι} {l : List (ℕ × Try)} {n k : ℕ} {r : Try}
    (h : Failed conf i l n) (hmem : (k, r) ∈ l) : (r.result conf i).2 = false := by
  induction h with
  | nil => cases hmem
  | cons h hr ih =>
    rcases List.mem_cons.mp hmem with heq | hold
    · cases heq
      exact hr
    · exact ih hold

omit [DecidableEq ι] in
variable (conf) in
/-- No attempt leaves a status with which `builder` returns at once. -/
theorem skipsBuild_result (i : Image ι) (r : Try) : skipsBuild (r.result conf i).1 = false := by
  cases r with
  | refused => rfl
  | worked outcome =>
    have hkeeps := buildImage_keeps conf i outcome ⟨.building, false⟩ (by simp)
    change skipsBuild (attemptResult conf i outcome).1 = false
    rw [attemptResult]
    cases hb : buildImage conf i outcome ⟨.building, false⟩ with
    | ok a s =>
      rw [hb] at hkeeps
      cases hs : s.status <;> simp [hs, skipsBuild] at hkeeps ⊢
    | error e s =>
      rw [hb] at hkeeps
      cases hs : s.status <;> simp [hs, skipsBuild] at hkeeps ⊢
  | pushed outcome =>
    change skipsBuild (pushStatus outcome) = false
    rw [pushStatus]
    split
    · rfl
    · cases outcome.raised with
      | none => rfl
      | some e => cases e <;> rfl

omit [DecidableEq ι] in
/-- A successful build attempt leaves `BUILT`. -/
theorem attemptResult_built {i : Image ι} {outcome : AttemptOutcome}
    (h : (attemptResult conf i outcome).2 = true) : (attemptResult conf i outcome).1 = .built := by
  have hskips := skipsBuild_result conf i (.worked outcome)
  change skipsBuild (attemptResult conf i outcome).1 = false at hskips
  rw [attemptResult] at h hskips ⊢
  cases hb : buildImage conf i outcome ⟨.building, false⟩ with
  | ok a s =>
    rw [hb] at h hskips
    cases hs : s.status <;> simp [hs, buildSucceeded, skipsBuild] at h hskips ⊢
  | error e s =>
    rw [hb] at h
    cases h

/-- A successful push attempt leaves `BUILT`. -/
theorem pushStatus_built {outcome : PushOutcome} (h : pushSucceeded (pushStatus outcome) = true) :
    pushStatus outcome = .built := by
  rw [pushStatus] at h ⊢
  split at h
  · simp [pushSucceeded, statusErrors] at h
  · rename_i hnone
    rw [if_neg hnone]
    cases hr : outcome.raised with
    | none => rfl
    | some e => cases e <;> simp [hr, pushSucceeded, statusErrors] at h

omit [DecidableEq ι] in
/-- A successful attempt leaves `BUILT`. -/
theorem result_built {i : Image ι} {r : Try} (h : (r.result conf i).2 = true) :
    (r.result conf i).1 = .built := by
  cases r with
  | refused => cases h
  | worked outcome => exact attemptResult_built h
  | pushed outcome => exact pushStatus_built h

end Lists

/-! ## Where a worker is and what its attempts came to -/

/-- The test by which `run` sets `success`. -/
def Task.succeeded : Task ι → Status → Bool
  | .build _ => buildSucceeded
  | .pushInto _ => fun _ => true
  | .push _ => pushSucceeded

/-- What the log says about the attempts at the task of a worker. -/
def WorkerPc.Chain (conf : Conf) (image : Heap ι) (log : List (Event ι)) : WorkerPc ι → Prop
  | .attempt t k => Failed conf (image t.image) (tries t log) k
  | .running t k .refuse =>
    ∃ l, tries t log = (k, .refused) :: l ∧ Failed conf (image t.image) l k
  | .running t k .verdict =>
    ∃ r l, tries t log = (k, r) :: l ∧ Failed conf (image t.image) l k ∧
      (r.result conf (image t.image)).2 = t.succeeded (r.result conf (image t.image)).1
  | .running t k _ => Failed conf (image t.image) (tries t log) k
  | .ended t success => Settled conf image log t success
  | _ => True

/-- The builder of the image is about to write a status that the log has
announced. -/
def RunPc.writing : RunPc → Bool
  | .refuse => true
  | .work => true
  | _ => false

section Local

variable {conf : Conf} {image : Heap ι} {t : Task ι} {k : ℕ} {pc : RunPc} {e : RunEffect ι}
  {status : ι → Status} {log : List (Event ι)}

/-- What worker and image know of each other before a step inside `run`:
the chain, the status unless it is about to be written, and, for a build,
that the image is wanted and has not been pushed. -/
structure Before (conf : Conf) (image : Heap ι) (log : List (Event ι)) (status : ι → Status)
    (t : Task ι) (k : ℕ) (pc : RunPc) : Prop where
  bound : k ≤ conf.retries
  chain : (WorkerPc.running t k pc).Chain conf image log
  agrees : pc.writing = false → status t.image = current conf image log t.image
  working : ∀ x, t = .build x → pc = .work → status x = .building
  wanted : (image t.image).status ∉ unwanted
  unpushed : ∀ x, t = .build x → tries (.push x) log = []

/-- What a step inside `run` leaves. -/
structure After (conf : Conf) (image : Heap ι) (log : List (Event ι)) (t : Task ι) (k : ℕ)
    (e : RunEffect ι) : Prop where
  chain : (e.next.workerPc t k).Chain conf image (e.events ++ log)
  agrees : (∀ pc, e.next = .goOn pc → pc.writing = false) →
    e.status t.image = current conf image (e.events ++ log) t.image
  working : e.next = .goOn .work → e.status t.image = .building

theorem current_build {x : ι} {l : List (ℕ × Try)} {r : Try} (hpush : tries (.push x) log = [])
    (hbuild : tries (.build x) log = (k, r) :: l) :
    current conf image log x = (r.result conf (image x)).1 := by
  rw [current, hpush, hbuild]

theorem current_push {x : ι} {l : List (ℕ × Try)} {r : Try}
    (hpush : tries (.push x) log = (k, r) :: l) :
    current conf image log x = (r.result conf (image x)).1 := by
  rw [current, hpush]

theorem current_congr {log' : List (Event ι)} {x : ι}
    (hbuild : tries (.build x) log' = tries (.build x) log)
    (hpush : tries (.push x) log' = tries (.push x) log) :
    current conf image log' x = current conf image log x := by
  rw [current, current, hbuild, hpush]

variable (conf image) in
/-- The engine part of `builder`, by its result. -/
theorem workEffect_result {x : ι} (hst : status x = .building) (outcome : AttemptOutcome) :
    ∃ (called : Bool) (next : RunNext), workEffect conf image status x k outcome
        = ⟨Function.update status x (attemptResult conf (image x) outcome).1, none,
          .worked x k outcome :: if called then [.engine x] else [], next⟩ ∧
      (next = .goOn .verdict ∧ (attemptResult conf (image x) outcome).2
          = buildSucceeded (attemptResult conf (image x) outcome).1 ∨
        next = .failed ∧ (attemptResult conf (image x) outcome).2 = false) := by
  unfold workEffect attemptResult
  rw [hst]
  cases buildImage conf (image x) outcome ⟨.building, false⟩ with
  | ok a s => exact ⟨_, _, rfl, Or.inl ⟨rfl, rfl⟩⟩
  | error e s => exact ⟨_, _, rfl, Or.inr ⟨rfl, rfl⟩⟩

/-- The status before an attempt at a build lets `builder` go on. -/
theorem Before.not_skipped {x : ι} (h : Before conf image log status (.build x) k .enter) :
    skipsBuild (status x) = false := by
  have hst := h.agrees rfl
  have hpush := h.unpushed x rfl
  have hwanted := h.wanted
  simp only [Task.image] at hst hwanted
  rw [hst]
  cases hbuild : tries (.build x) log with
  | nil =>
    rw [current, hpush, hbuild]
    simp only [unwanted] at hwanted
    cases hs : (image x).status <;> simp [hs, skipsBuild] at hwanted ⊢
  | cons p l =>
    rw [current_build hpush hbuild]
    exact skipsBuild_result conf _ _

/-- A step inside `run` keeps the chain and the status. -/
theorem RunMove.after (hmove : RunMove conf image status t k pc e)
    (h : Before conf image log status t k pc) : After conf image log t k e := by
  have hchain := h.chain
  cases hmove with
  | skip hskip => exact absurd hskip (by rw [h.not_skipped]; simp)
  | enter => exact ⟨hchain, fun _ => h.agrees rfl, by simp⟩
  | @refused x k hfailed =>
    have htry : (Event.parentCheck x k ((image x).parent.map status)).tried
        = some (.build x, k, .refused) := by simp [Event.tried, hfailed]
    exact ⟨⟨_, tries_cons_self htry, hchain⟩, fun hno => by simpa [RunPc.writing] using hno _ rfl,
      by simp⟩
  | @passed x k hpassed =>
    have htry : (Event.parentCheck x k ((image x).parent.map status)).tried = none := by
      simp [Event.tried, hpassed]
    refine ⟨?_, fun _ => ?_, by simp⟩
    · change Failed conf (image x) (tries _ (_ :: log)) k
      rw [tries_cons_none htry]
      exact hchain
    · exact (h.agrees rfl).trans (current_congr (tries_cons_none htry) (tries_cons_none htry)).symm
  | @refuse x k =>
    obtain ⟨l, hl, hfailed⟩ := hchain
    refine ⟨⟨.refused, l, hl, hfailed, rfl⟩, fun _ => ?_, by simp⟩
    rw [List.nil_append]
    exact (Function.update_self _ _ _).trans (current_build (h.unpushed x rfl) hl).symm
  | @start x k =>
    exact ⟨hchain, fun hno => by simpa [RunPc.writing] using hno _ rfl,
      fun _ => Function.update_self _ _ _⟩
  | @work x k outcome =>
    have hworking := h.working x rfl rfl
    obtain ⟨called, next, heq, hnext⟩ := workEffect_result conf image hworking outcome
    have htail : ∀ u, tries u ((if called then [.engine x] else []) ++ log) = tries u log := by
      intro u
      cases called
      · rfl
      · exact tries_cons_none rfl
    have hbuild : tries (.build x) ((.worked x k outcome ::
        if called then [.engine x] else []) ++ log) = (k, .worked outcome) :: tries (.build x) log := by
      rw [List.cons_append, tries_cons_self rfl, htail]
    have hpush : tries (.push x) ((.worked x k outcome ::
        if called then [.engine x] else []) ++ log) = [] := by
      rw [List.cons_append, tries_cons_ne (u := .build x) rfl (by simp), htail]
      exact h.unpushed x rfl
    rw [heq]
    refine ⟨?_, fun _ => (Function.update_self _ _ _).trans (current_build hpush hbuild).symm, ?_⟩
    · rcases hnext with ⟨rfl, hres⟩ | ⟨rfl, hres⟩
      · exact ⟨.worked outcome, _, hbuild, hchain, hres⟩
      · change Failed conf (image x) (tries (.build x) _) (k + 1)
        rw [hbuild]
        exact .cons hchain hres
    · rcases hnext with ⟨rfl, -⟩ | ⟨rfl, -⟩ <;> simp
  | @built x k hbuilt =>
    obtain ⟨r, l, hl, hfailed, hres⟩ := hchain
    have hst : status x = (r.result conf (image x)).1 :=
      (h.agrees rfl).trans (current_build (h.unpushed x rfl) hl)
    refine ⟨⟨k, r, l, ?_, hl, hfailed, ?_⟩, fun _ => h.agrees rfl, by simp⟩
    · exact h.bound
    · rw [hst] at hbuilt
      exact hres.trans hbuilt
  | @failed x k hbuilt =>
    obtain ⟨r, l, hl, hfailed, hres⟩ := hchain
    have hst : status x = (r.result conf (image x)).1 :=
      (h.agrees rfl).trans (current_build (h.unpushed x rfl) hl)
    refine ⟨?_, fun _ => h.agrees rfl, by simp⟩
    change Failed conf (image x) (tries (.build x) log) (k + 1)
    rw [hl]
    rw [hst] at hbuilt
    exact .cons hfailed (hres.trans hbuilt)
  | @pushInto x k =>
    refine ⟨⟨rfl, List.mem_cons_self⟩, fun _ => ?_, by simp⟩
    exact (h.agrees rfl).trans (current_congr (tries_cons_none rfl) (tries_cons_none rfl)).symm
  | @push x k outcome =>
    have hpush : tries (.push x) (.pushed x k outcome :: log)
        = (k, .pushed outcome) :: tries (.push x) log := tries_cons_self rfl
    exact ⟨⟨.pushed outcome, _, hpush, hchain, rfl⟩,
      fun _ => (Function.update_self _ _ _).trans (current_push hpush).symm, by simp⟩
  | @pushDone x k hdone =>
    obtain ⟨r, l, hl, hfailed, hres⟩ := hchain
    have hst : status x = (r.result conf (image x)).1 := (h.agrees rfl).trans (current_push hl)
    refine ⟨⟨k, r, l, ?_, hl, hfailed, ?_⟩, fun _ => h.agrees rfl, by simp⟩
    · exact h.bound
    · rw [hst] at hdone
      exact hres.trans hdone
  | @pushFailed x k hdone =>
    obtain ⟨r, l, hl, hfailed, hres⟩ := hchain
    have hst : status x = (r.result conf (image x)).1 := (h.agrees rfl).trans (current_push hl)
    refine ⟨?_, fun _ => h.agrees rfl, by simp⟩
    change Failed conf (image x) (tries (.push x) log) (k + 1)
    rw [hl]
    rw [hst] at hdone
    exact .cons hfailed (hres.trans hdone)

end Local

/-! ## The invariant of a run -/

section Run

variable {conf : Conf} {image : Heap ι} {images : List ι} {s s' : Sys ι} {i : ℕ} {t u : Task ι}

/-- The chains of the workers, the lists of the tasks that ended, and the
statuses. -/
structure Attempts (conf : Conf) (image : Heap ι) (s : Sys ι) : Prop where
  chain : ∀ i, (s.worker i).Chain conf image s.log
  ended : ∀ t success, .ended t success ∈ s.log → Settled conf image s.log t success
  working : ∀ i x k, s.worker i = .running (.build x) k .work → s.status x = .building
  agrees : ∀ x, (∀ i k pc, s.worker i = .running (.build x) k pc → pc.writing = false) →
    s.status x = current conf image s.log x

theorem Settled.congr {log log' : List (Event ι)} {success : Bool}
    (h : Settled conf image log t success) (htries : tries t log' = tries t log)
    (hissued : ∀ x, .issued (.push x) ∈ log → .issued (.push x) ∈ log') :
    Settled conf image log' t success := by
  cases t with
  | pushInto x => exact ⟨h.1, hissued x h.2⟩
  | build x | push x =>
    rw [Settled, htries]
    exact h

theorem WorkerPc.Chain.congr {pc : WorkerPc ι} {log log' : List (Event ι)}
    (h : pc.Chain conf image log) (htries : ∀ t, pc.task? = some t → tries t log' = tries t log)
    (hissued : ∀ x, .issued (.push x) ∈ log → .issued (.push x) ∈ log') :
    pc.Chain conf image log' := by
  cases pc with
  | idle | tombstone | dead | putting | finishing => trivial
  | attempt t k =>
    rw [WorkerPc.Chain, htries t rfl]
    exact h
  | running t k pc =>
    cases pc <;> simp only [WorkerPc.Chain, htries t rfl] at h ⊢ <;> exact h
  | ended t success => exact Settled.congr h (htries t rfl) hissued

/-- The attempts that a step inside `run` reports are attempts at its
task. -/
theorem RunMove.try_task {status : ι → Status} {k : ℕ} {pc : RunPc} {e : RunEffect ι}
    (h : RunMove conf image status t k pc e) {ev : Event ι} (hev : ev ∈ e.events)
    {p : Task ι × ℕ × Try} (hp : ev.tried = some p) : p.1 = t := by
  cases h with
  | skip | enter | refuse | start | built | failed | pushDone | pushFailed => cases hev
  | @refused x k hfailed =>
    cases List.mem_singleton.mp hev
    simp only [Event.tried, hfailed, if_true, Option.some.injEq] at hp
    rw [← hp]
  | @passed x k hpassed =>
    cases List.mem_singleton.mp hev
    simp [Event.tried, hpassed] at hp
  | @work x k outcome =>
    obtain ⟨st, called, next, heq, -⟩ := workEffect_eq conf image status x k
      outcome
    rw [heq] at hev
    rcases List.mem_cons.mp hev with rfl | hmem
    · cases hp
      rfl
    · cases called
      · cases hmem
      · cases List.mem_singleton.mp hmem
        cases hp
  | pushInto =>
    cases List.mem_singleton.mp hev
    cases hp
  | push outcome =>
    cases List.mem_singleton.mp hev
    cases hp
    rfl

/-- A step of a worker reports attempts at the task that it is running
only. -/
theorem WorkerMove.tries_frame (h : WorkerMove conf image s i s')
    (hno : ∀ k pc, s.worker i ≠ .running u k pc) : tries u s'.log = tries u s.log := by
  cases h with
  | take | takeTombstone | putTombstone | put => simp
  | exhaust | allPut => rfl
  | begin | giveUp => exact tries_cons_none rfl
  | finish =>
    rw [goto_log, emit_log, setQueue_log]
    exact tries_cons_none rfl
  | follow hpc =>
    rw [goto_log, emit_log, List.cons_append, tries_cons_none rfl, tries_append,
      tries_eq_nil (by simp [Event.tried]), List.nil_append]
  | @run t k pc e hpc he =>
    change tries u (e.events ++ s.log) = _
    rw [tries_append]
    have hnil : tries u e.events = [] := by
      refine List.eq_nil_iff_forall_not_mem.mpr fun ⟨j, r⟩ hmem => ?_
      obtain ⟨ev, hev, htry⟩ := mem_tries.mp hmem
      have htask : u = t := he.try_task hev htry
      exact hno k pc (htask ▸ hpc)
    rw [hnil, List.nil_append]

/-- Only tasks that were attempted have attempts to report. -/
theorem tries_of_not_started (hr : Reachable (step conf image) (initial image images) s)
    (ht : t ∉ started s.log) : tries t s.log = [] := by
  revert ht
  refine hr.invariant (P := fun s => t ∉ started s.log → tries t s.log = []) ?_ ?_
  · intro _
    exact tries_eq_nil (by simp [initial, Event.tried])
  · intro u a v hu ih hstep hv
    obtain ⟨events, hlog⟩ := step_log hstep
    have hu' : t ∉ started u.log := fun h => hv (by
      rw [hlog, started_append]
      exact List.mem_append_right _ h)
    rcases step_cases hstep with ⟨i, hi, hmove⟩ | hmove
    · rw [hmove.tries_frame ?_, ih hu']
      intro k pc hpc
      have htally := (tally hu).worker i
      rw [hpc] at htally
      exact hu' (mem_started.mpr (htally.2 0 (Nat.zero_le _)))
    · rw [hmove.frame.2.2.1]
      exact ih hu'

theorem started_issued (hr : Reachable (step conf image) (initial image images) s)
    (ht : t ∈ started s.log) : t ∈ issued s.log := by
  have hbal := balance hr t
  have hpos := List.count_pos_iff.mpr ht
  exact List.count_pos_iff.mp (by omega)

theorem tries_of_not_issued (hr : Reachable (step conf image) (initial image images) s)
    (ht : t ∉ issued s.log) : tries t s.log = [] :=
  tries_of_not_started hr fun hstarted => ht (started_issued hr hstarted)

/-- A task that ended is spent. -/
theorem spent_of_ended (hr : Reachable (step conf image) (initial image images) s) {success : Bool}
    (h : .ended t success ∈ s.log) : 0 < s.spentCount conf t := by
  revert h
  refine hr.invariant
    (P := fun s => .ended t success ∈ s.log → 0 < s.spentCount conf t) ?_ ?_
  · intro h
    have : .ended t success ∈ (initialTasks image images).map Event.issued := h
    simp at this
  · intro u a v hu ih hstep hmem
    obtain ⟨start, close, new, -, hb⟩ := step_flow hstep
    have hspent := hb.spent t
    rcases step_cases hstep with ⟨i, hi, hmove⟩ | hmove
    · rcases hmove.ended_cases hmem with hold | ⟨hpc, -⟩
      · have := ih hold
        omega
      · have hle := le_sum hi fun j => (v.worker j).spent.count t
        have hone : 1 ≤ (v.worker i).spent.count t := by
          cases hmove with
          | take h | takeTombstone h | putTombstone h | begin h | exhaust h | run h | put h
          | allPut h | finish h => exact absurd (h.symm.trans hpc) (by simp)
          | follow h =>
            cases h.symm.trans hpc
            simp [WorkerPc.spent]
          | giveUp h =>
            cases h.symm.trans hpc
            simp [WorkerPc.spent]
        rw [Sys.spentCount]
        omega
    · have := ih (hmove.frame.2.2.1 ▸ hmem)
      omega

/-- While an image is built it has not been pushed. -/
theorem Account.unpushed (hacc : Account conf image s)
    (hr : Reachable (step conf image) (initial image images) s) {x : ι}
    (hx : 0 < s.triedCount conf (.build x)) : tries (.push x) s.log = [] := by
  refine tries_of_not_issued hr fun hissued => ?_
  have hinto := issued_of_spent hr (hacc.push x hissued)
  exact hacc.not_spent hr hx (hacc.pushInto x hinto).1

/-- What a worker inside `run` and its image know of each other. -/
theorem Attempts.before (h : Attempts conf image s) (hacc : Account conf image s)
    (hr : Reachable (step conf image) (initial image images) s) {k : ℕ} {pc : RunPc}
    (hpc : s.worker i = .running t k pc) : Before conf image s.log s.status t k pc where
  bound := by
    have htally := (tally hr).worker i
    rw [hpc] at htally
    exact htally.1
  chain := hpc ▸ h.chain i
  agrees hwriting := by
    refine h.agrees t.image fun j k' pc' hj => ?_
    by_cases hij : j = i
    · rw [hij, hpc, WorkerPc.running.injEq] at hj
      exact hj.2.2 ▸ hwriting
    · exact (hacc.processing_unique hr hij (x := t.image) (by rw [hj]; rfl) (by rw [hpc]; rfl)).elim
  working x ht hwork := by
    subst ht hwork
    exact h.working i x k hpc
  wanted := (hacc.build _ (hacc.build_issued hr (issued_of_running hr hpc))).1
  unpushed x ht := by
    subst ht
    exact hacc.unpushed hr (tried_of_running hr hpc)

/-- A task in a queue has no attempts. -/
theorem Account.tries_of_queued (hacc : Account conf image s)
    (hr : Reachable (step conf image) (initial image images) s) {kind : Kind}
    (ht : t ∈ (s.queue kind).tasks) : tries t s.log = [] := by
  refine tries_of_not_started hr fun hstarted => ?_
  have hbal := balance hr t
  have hone := hacc.once t
  have hpos := List.count_pos_iff.mpr hstarted
  have hqueued : 0 < s.queuedCount t := by
    have := List.count_pos_iff.mpr ht
    cases kind <;> simp only [Sys.queue] at this <;> rw [Sys.queuedCount] <;> omega
  rw [Sys.waitingCount] at hbal
  omega

/-- No attempt at a `PushIntoQueueTask` fails. -/
theorem tries_pushInto {x : ι} {log : List (Event ι)} : tries (.pushInto x) log = [] := by
  refine List.eq_nil_iff_forall_not_mem.mpr fun ⟨k, r⟩ hmem => ?_
  rcases try_of_mem hmem with ⟨y, ht, -⟩ | ⟨y, outcome, ht, -⟩ <;> cases ht

/-- Only a builder announces a status. -/
theorem RunMove.build_of_writing {status : ι → Status} {k : ℕ} {pc pc' : RunPc} {e : RunEffect ι}
    (h : RunMove conf image status t k pc e) (hnext : e.next = .goOn pc')
    (hwriting : pc'.writing = true) : t = .build t.image := by
  cases h with
  | push outcome =>
    cases hnext
    cases hwriting
  | pushInto | pushDone | pushFailed => cases hnext
  | _ => rfl

/-- The attempts at a task of another worker, or at a task that ended, do
not change. -/
theorem Account.tries_others (hacc : Account conf image s)
    (hr : Reachable (step conf image) (initial image images) s)
    (hmove : WorkerMove conf image s i s') :
    (∀ j u, j ≠ i → (s.worker j).task? = some u → tries u s'.log = tries u s.log) ∧
      ∀ u success, .ended u success ∈ s.log → tries u s'.log = tries u s.log := by
  refine ⟨fun j u hji hu => hmove.tries_frame fun k pc hpc => ?_,
    fun u success hu => hmove.tries_frame fun k pc hpc => ?_⟩
  · exact hacc.task_unique hr hji hu (by rw [hpc]; rfl)
  · exact hacc.not_spent hr (tried_of_running hr hpc) (spent_of_ended hr hu)

/-- A step of a worker outside `run` keeps `Attempts`. -/
theorem Attempts.outside (h : Attempts conf image s)
    (hmove : WorkerMove conf image s i s') (hnorun : ∀ t k pc, s.worker i ≠ .running t k pc)
    (hstatus : s'.status = s.status) (hchain : (s'.worker i).Chain conf image s.log)
    (hpc : ∀ t k pc, s'.worker i = .running t k pc → pc.writing = false)
    (hissued : ∀ x, .issued (.push x) ∈ s.log → .issued (.push x) ∈ s'.log) :
    Attempts conf image s' := by
  have htries : ∀ u, tries u s'.log = tries u s.log :=
    fun u => hmove.tries_frame fun k pc => hnorun u k pc
  refine ⟨fun j => ?_, fun u success hmem => ?_, fun j x k hj => ?_, fun x hx => ?_⟩
  · by_cases hji : j = i
    · rw [hji]
      exact hchain.congr (fun u _ => htries u) hissued
    · rw [hmove.worker_frame hji]
      exact (h.chain j).congr (fun u _ => htries u) hissued
  · rcases hmove.ended_cases hmem with hold | ⟨hend, -⟩
    · exact (h.ended u success hold).congr (htries u) hissued
    · have hsettled := h.chain i
      rw [hend] at hsettled
      exact Settled.congr hsettled (htries u) hissued
  · by_cases hji : j = i
    · rw [hji] at hj
      cases hpc _ _ _ hj
    · rw [hmove.worker_frame hji] at hj
      rw [hstatus]
      exact h.working j x k hj
  · rw [hstatus, current_congr (htries _) (htries _)]
    refine h.agrees x fun j k pc hj => ?_
    by_cases hji : j = i
    · rw [hji] at hj
      exact absurd hj (hnorun _ _ _)
    · exact hx j k pc (by rw [hmove.worker_frame hji]; exact hj)

/-- A step of a worker inside `run` keeps `Attempts`. -/
theorem Attempts.inside (h : Attempts conf image s) (hacc : Account conf image s)
    (hr : Reachable (step conf image) (initial image images) s) {k : ℕ} {pc : RunPc}
    {e : RunEffect ι} (hpc : s.worker i = .running t k pc)
    (he : RunMove conf image s.status t k pc e) : Attempts conf image (e.apply s i t k) := by
  have hmove : WorkerMove conf image s i (e.apply s i t k) := .run hpc he
  have hafter := he.after (h.before hacc hr hpc)
  have hworker : (e.apply s i t k).worker i = e.next.workerPc t k := Function.update_self _ _ _
  have hissued : ∀ x, .issued (.push x) ∈ s.log → .issued (.push x) ∈ (e.apply s i t k).log :=
    fun x hx => List.mem_append_right _ hx
  obtain ⟨hothers, hended⟩ := hacc.tries_others hr hmove
  refine ⟨fun j => ?_, fun u success hmem => ?_, fun j x k' hj => ?_, fun x hx => ?_⟩
  · by_cases hji : j = i
    · rw [hji, hworker]
      exact hafter.chain
    · rw [hmove.worker_frame hji]
      exact (h.chain j).congr (fun u hu => hothers j u hji hu) hissued
  · rcases hmove.ended_cases hmem with hold | ⟨hend, -⟩
    · exact (h.ended u success hold).congr (hended u success hold) hissued
    · exact absurd (hpc.symm.trans hend) (by simp)
  · by_cases hji : j = i
    · rw [hji, hworker] at hj
      cases hnext : e.next <;> rw [hnext] at hj <;> cases hj
      exact hafter.working hnext
    · rw [hmove.worker_frame hji] at hj
      have hne : x ≠ t.image := fun hxt =>
        hacc.processing_unique hr hji (x := x) (by rw [hj]; rfl) (by rw [hpc, hxt]; rfl)
      exact (he.status_frame hne).trans (h.working j x k' hj)
  · by_cases hxt : x = t.image
    · subst hxt
      refine hafter.agrees fun pc' hnext => ?_
      by_contra hwriting
      rw [Bool.not_eq_false] at hwriting
      have hbuild := he.build_of_writing hnext hwriting
      have hwait := hx i k pc' (by rw [hworker, hnext, ← hbuild]; rfl)
      rw [hwriting] at hwait
      cases hwait
    · have hframe : ∀ u : Task ι, u.image = x → tries u (e.apply s i t k).log = tries u s.log := by
        intro u hu
        refine hmove.tries_frame fun k' pc' hpc' => hxt ?_
        rw [hpc] at hpc'
        cases hpc'
        exact hu.symm
      refine (he.status_frame hxt).trans ?_
      rw [current_congr (hframe (.build x) rfl) (hframe (.push x) rfl)]
      refine h.agrees x fun j k' pc' hj => ?_
      by_cases hji : j = i
      · rw [hji, hpc] at hj
        cases hj
        exact absurd rfl hxt
      · exact hx j k' pc' (by rw [hmove.worker_frame hji]; exact hj)

/-- `Attempts` survives a step of a worker. -/
theorem Attempts.worker (h : Attempts conf image s) (hacc : Account conf image s)
    (hr : Reachable (step conf image) (initial image images) s)
    (hmove : WorkerMove conf image s i s') : Attempts conf image s' := by
  have hmove' := hmove
  cases hmove with
  | run hpc he => exact h.inside hacc hr hpc he
  | @take t items hpc hq =>
    refine h.outside hmove' (by rw [hpc]; simp) (by simp) ?_ (by simp) (by simp)
    have hqueued : t ∈ (s.queue (workerKind conf i)).tasks := by
      rw [tasks_eq_cons hq]
      exact List.mem_cons_self
    rw [goto_worker, Function.update_self, WorkerPc.Chain, hacc.tries_of_queued hr hqueued]
    exact .nil
  | takeTombstone hpc | putTombstone hpc | put hpc | finish hpc =>
    refine h.outside hmove' (by rw [hpc]; simp) (by simp) ?_ (by simp) (by simp)
    rw [goto_worker, Function.update_self]
    trivial
  | allPut hpc | giveUp hpc =>
    refine h.outside hmove' (by rw [hpc]; simp) rfl ?_ (by simp) (by simp)
    rw [goto_worker, Function.update_self]
    trivial
  | follow hpc =>
    refine h.outside hmove' (by rw [hpc]; simp) rfl ?_ (by simp) ?_
    · rw [goto_worker, Function.update_self]
      trivial
    · exact fun x hx => List.mem_append_right _ hx
  | @begin t k hpc hk =>
    refine h.outside hmove' (by rw [hpc]; simp) rfl ?_ ?_ (by simp)
    · have hchain := h.chain i
      rw [hpc] at hchain
      rw [goto_worker, Function.update_self]
      exact hchain
    · intro u j pc hu
      rw [goto_worker, Function.update_self] at hu
      cases hu
      rfl
  | @exhaust t k hpc hk =>
    refine h.outside hmove' (by rw [hpc]; simp) rfl ?_ (by simp) (fun _ hx => hx)
    have hchain := h.chain i
    have htally := (tally hr).worker i
    rw [hpc] at hchain htally
    have hlast : k = conf.retries + 1 := by
      have := htally.1
      omega
    subst hlast
    rw [goto_worker, Function.update_self]
    cases t with
    | build x | push x => exact hchain
    | pushInto x =>
      have hnone : Failed conf (image x) [] (conf.retries + 1) := tries_pushInto (ι := ι) ▸ hchain
      cases hnone

/-- `Attempts` holds in every reachable state. -/
theorem attempts (hl : Linked image images) (hnodup : images.Nodup)
    (hr : Reachable (step conf image) (initial image images) s) : Attempts conf image s := by
  refine hr.invariant (P := Attempts conf image) ⟨fun i => trivial, ?_, ?_, ?_⟩ ?_
  · intro t success hmem
    have : .ended t success ∈ (initialTasks image images).map Event.issued := hmem
    simp at this
  · intro i x k hpc
    cases hpc
  · intro x _
    have hnone : ∀ u, tries u (initial image images).log = [] :=
      fun u => tries_eq_nil (by simp [initial, Event.tried])
    rw [current, hnone, hnone]
    rfl
  · intro u a v hu h hstep
    have hacc := account hl hnodup hu
    rcases step_cases hstep with ⟨i, hi, hmove⟩ | hmove
    · exact h.worker hacc hu hmove
    · obtain ⟨hstatus, hworker, hlog, -⟩ := hmove.frame
      refine ⟨?_, ?_, ?_, ?_⟩
      · rw [hworker, hlog]
        exact h.chain
      · rw [hlog]
        exact h.ended
      · rw [hworker, hstatus]
        exact h.working
      · rw [hworker, hlog, hstatus]
        exact h.agrees

end Run

end Kolla.Build
