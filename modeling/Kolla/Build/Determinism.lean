import Kolla.Build.Attempts

/-!
# Without pushing, the schedule does not matter

With pushing disabled nothing writes the status of an image after its
`BuildTask` succeeded.  So no parent check ever refuses an attempt
(`not_refused`), and the attempts at an image are those that the engine
was asked for.

Two drained runs whose engines agree attempt by attempt then have the same
lists of attempts: `Over.unique` compares them for one image, and
`issued_of_agree` shows, along the first run, that the second one has the
same `BuildTask`s.  The statuses follow, since they are a function of the
lists.
-/

namespace Kolla.Build

open Kolla.Lib

variable {ι : Type}

/-! ## Comparing attempts -/

section Unique

variable {conf conf' : Conf} {i : Image ι} {l l' : List (ℕ × Try)}

/-- The same number of the same failed attempts. -/
theorem Failed.unique {n : ℕ} (h : Failed conf i l n) (h' : Failed conf' i l' n)
    (hagree : ∀ k r r', (k, r) ∈ l → (k, r') ∈ l' → r = r') : l = l' := by
  induction h generalizing l' with
  | nil =>
    cases h'
    rfl
  | @cons l k r h hr ih =>
    cases h' with
    | @cons l' k r' h' hr' =>
      have hhead : r = r' := hagree k r r' List.mem_cons_self List.mem_cons_self
      have htail : l = l' := ih h' fun j q q' hq hq' =>
        hagree j q q' (List.mem_cons_of_mem _ hq) (List.mem_cons_of_mem _ hq')
      rw [hhead, htail]

/-- The attempt that succeeded is not among those that failed. -/
theorem Failed.not_succeeded {n k : ℕ} {r : Try} (h : Failed conf' i l' n) (hk : k < n)
    (hsame : ∀ r : Try, r.result conf i = r.result conf' i)
    (hr : (r.result conf i).2 = true) (hagree : ∀ r', (k, r') ∈ l' → r = r') : False := by
  obtain ⟨r', hmem⟩ := (h.mem_iff k).mpr hk
  have hres := h.result hmem
  rw [← hagree r' hmem, ← hsame, hr] at hres
  cases hres

/-- Attempts that agree as far as both go end in the same way. -/
theorem Over.unique {success success' : Bool} (h : Over conf i l success)
    (h' : Over conf' i l' success') (hretries : conf.retries = conf'.retries)
    (hsame : ∀ r : Try, r.result conf i = r.result conf' i)
    (hagree : ∀ k r r', (k, r) ∈ l → (k, r') ∈ l' → r = r') :
    success = success' ∧ l = l' := by
  cases success with
  | true =>
    obtain ⟨k, r, rest, hk, rfl, hfailed, hr⟩ := h
    cases success' with
    | true =>
      obtain ⟨k', r', rest', hk', rfl, hfailed', hr'⟩ := h'
      rcases Nat.lt_trichotomy k k' with hlt | rfl | hgt
      · exact (hfailed'.not_succeeded hlt hsame hr fun q hq =>
          hagree k r q List.mem_cons_self (List.mem_cons_of_mem _ hq)).elim
      · have hhead := hagree k r r' List.mem_cons_self List.mem_cons_self
        have htail := hfailed.unique hfailed' fun j q q' hq hq' =>
          hagree j q q' (List.mem_cons_of_mem _ hq) (List.mem_cons_of_mem _ hq')
        rw [hhead, htail]
        exact ⟨rfl, rfl⟩
      · exact (hfailed.not_succeeded hgt (fun q => (hsame q).symm) hr' fun q hq =>
          (hagree k' q r' (List.mem_cons_of_mem _ hq) List.mem_cons_self).symm).elim
    | false =>
      exact (Failed.not_succeeded (k := k) h' (by omega) hsame hr fun q hq =>
        hagree k r q List.mem_cons_self hq).elim
  | false =>
    cases success' with
    | true =>
      obtain ⟨k', r', rest', hk', rfl, hfailed', hr'⟩ := h'
      exact (Failed.not_succeeded (k := k') h (by omega) (fun q => (hsame q).symm) hr' fun q hq =>
        (hagree k' q r' hq List.mem_cons_self).symm).elim
    | false =>
      have h : Failed conf i l (conf.retries + 1) := h
      rw [hretries] at h
      exact ⟨rfl, h.unique h' hagree⟩

end Unique

/-! ## No push, no refusal -/

section NoPush

variable [DecidableEq ι] {conf : Conf} {image : Heap ι} {images : List ι} {s : Sys ι}

/-- With pushing disabled, no task of a push is issued. -/
theorem not_pushInto (hpush : conf.push = false)
    (hr : Reachable (step conf image) (initial image images) s) (x : ι) :
    .pushInto x ∉ issued s.log := by
  refine hr.invariant (P := fun s => .pushInto x ∉ issued s.log) ?_ ?_
  · change .pushInto x ∉ issued ((initialTasks image images).map .issued)
    rw [issued_map]
    intro hmem
    obtain ⟨y, -, -, heq⟩ := mem_initialTasks.mp hmem
    cases heq
  · intro u a v _ ih hstep hmem
    obtain ⟨start, close, new, hflow, hb⟩ := step_flow hstep
    have hissued := hb.issued (.pushInto x)
    have hold := List.count_eq_zero.mpr ih
    have hpos := List.count_pos_iff.mpr hmem
    have hnew : .pushInto x ∈ new := List.count_pos_iff.mp (by omega)
    cases hflow with
    | quiet | start | close => cases hnew
    | queue y => simp at hnew
    | follow y _ =>
      rcases mem_followups.mp hnew with ⟨htrue, -⟩ | ⟨z, -, -, heq⟩
      · rw [hpush] at htrue
        cases htrue
      · cases heq

/-- With pushing disabled, no image is pushed. -/
theorem tries_push (hpush : conf.push = false) (hl : Linked image images) (hnodup : images.Nodup)
    (hr : Reachable (step conf image) (initial image images) s) (x : ι) :
    tries (.push x) s.log = [] := by
  refine tries_of_not_issued hr fun hissued => ?_
  exact not_pushInto hpush hr x (issued_of_spent hr ((account hl hnodup hr).push x hissued))

/-- An image whose `BuildTask` succeeded stays `BUILT` as long as it is not
pushed. -/
theorem status_of_ended (hl : Linked image images) (hnodup : images.Nodup)
    (hr : Reachable (step conf image) (initial image images) s) {p : ι}
    (hend : .ended (.build p) true ∈ s.log) (hunpushed : tries (.push p) s.log = []) :
    s.status p = .built := by
  have hacc := account hl hnodup hr
  have hatt := attempts hl hnodup hr
  obtain ⟨k, r, rest, -, hlist, -, hres⟩ := hatt.ended _ _ hend
  have hagrees := hatt.agrees p fun i k pc hpc =>
    (hacc.not_spent hr (tried_of_running hr hpc) (spent_of_ended hr hend)).elim
  rw [hagrees, current_build hunpushed hlist]
  exact result_built hres

/-- With pushing disabled, no parent check refuses an attempt. -/
theorem not_refused (hpush : conf.push = false) (hl : Linked image images)
    (hnodup : images.Nodup) (hr : Reachable (step conf image) (initial image images) s) {x : ι}
    {k : ℕ} {parent : Option Status} (hmem : .parentCheck x k parent ∈ s.log) :
    parentFailed parent = false := by
  revert hmem
  refine hr.invariant
    (P := fun s => .parentCheck x k parent ∈ s.log → parentFailed parent = false) ?_ ?_
  · intro hmem
    have : .parentCheck x k parent ∈ (initialTasks image images).map Event.issued := hmem
    simp at this
  · intro u a v hu ih hstep hmem
    have hacc := account hl hnodup hu
    rcases step_cases hstep with ⟨i, hi, hmove⟩ | hmove
    · cases hmove with
      | take | takeTombstone | putTombstone | put => exact ih (by simpa using hmem)
      | exhaust | allPut => exact ih hmem
      | begin | finish | giveUp | follow => exact ih (by simpa using hmem)
      | @run t j pc e hpc he =>
        rcases List.mem_append.mp hmem with hnew | hold
        · cases he with
          | @refused y j hfailed =>
            -- the parent was built, or it is skipped: the status is no error
            rcases hacc.entered (issued_of_running hu hpc) with hnone | ⟨p, hp, hst | hend⟩
            · rw [hnone] at hfailed
              cases hfailed
            · rw [hp, Option.map_some, hst] at hfailed
              cases hfailed
            · rw [hp, Option.map_some,
                status_of_ended hl hnodup hu hend (tries_push hpush hl hnodup hu p)] at hfailed
              cases hfailed
          | @passed y j hpassed =>
            cases List.mem_singleton.mp hnew
            exact hpassed
          | @work y j outcome =>
            obtain ⟨st, called, next, heq, -⟩ := workEffect_eq conf image
              u.status y j outcome
            rw [heq] at hnew
            cases called <;> simp at hnew
          | _ => simp at hnew
        · exact ih hold
    · exact ih (hmove.frame.2.2.1 ▸ hmem)

end NoPush

/-! ## Two runs -/

/-- The configuration with other numbers of workers. -/
def Conf.withWorkers (conf : Conf) (threads pushThreads : ℕ) : Conf :=
  { conf with threads := threads, pushThreads := pushThreads }

section TwoRuns

variable {conf : Conf} {threads pushThreads : ℕ}

theorem collectArchives_withWorkers (outcome : ItemsOutcome) (i : ℕ)
    (items : List (Option Source)) :
    collectArchives (conf.withWorkers threads pushThreads) outcome i items
      = collectArchives conf outcome i items := by
  induction items generalizing i with
  | nil => rfl
  | cons item items ih =>
    rw [collectArchives, collectArchives, ih]
    rfl

/-- The workers have no part in an attempt. -/
theorem result_withWorkers (i : Image ι) (r : Try) :
    r.result (conf.withWorkers threads pushThreads) i = r.result conf i := by
  have harchive : ∀ items outcome, makeAnArchive (conf.withWorkers threads pushThreads) items outcome
      = makeAnArchive conf items outcome := by
    intro items outcome
    rw [makeAnArchive, makeAnArchive, collectArchives_withWorkers]
  have harchived : ∀ items outcome, archived (conf.withWorkers threads pushThreads) items outcome
      = archived conf items outcome := by
    intro items outcome
    rw [archived, archived, harchive]
  have hbuild : ∀ outcome, buildImage (conf.withWorkers threads pushThreads) i outcome
      = buildImage conf i outcome := by
    intro outcome
    rw [buildImage, buildImage, harchived, harchived]
    rfl
  cases r with
  | refused => rfl
  | pushed outcome => rfl
  | worked outcome =>
    change attemptResult _ i outcome = attemptResult conf i outcome
    rw [attemptResult, attemptResult, hbuild]

variable [DecidableEq ι] {image : Heap ι} {images : List ι} {threads' pushThreads' : ℕ}
  {s s' : Sys ι}

/-- In both runs the attempts at an image are the same, and end in the
same way. -/
theorem over_unique (hpush : conf.push = false) (hl : Linked image images) (hnodup : images.Nodup)
    (hr : Reachable (step (conf.withWorkers threads pushThreads) image) (initial image images) s)
    (hr' : Reachable (step (conf.withWorkers threads' pushThreads') image) (initial image images) s')
    (hagree : ∀ x k o o', .worked x k o ∈ s.log → .worked x k o' ∈ s'.log → o = o') {x : ι}
    {success success' : Bool} (hend : .ended (.build x) success ∈ s.log)
    (hend' : .ended (.build x) success' ∈ s'.log) :
    success = success' ∧ tries (.build x) s.log = tries (.build x) s'.log := by
  have hover := (attempts hl hnodup hr).ended _ _ hend
  have hover' := (attempts hl hnodup hr').ended _ _ hend'
  have hworked : ∀ {n m : ℕ} {u : Sys ι},
      Reachable (step (conf.withWorkers n m) image) (initial image images) u →
      ∀ {k r}, (k, r) ∈ tries (.build x) u.log → ∃ o, r = .worked o ∧ .worked x k o ∈ u.log := by
    intro n m u hu k r hmem
    rcases try_of_mem hmem with ⟨y, heq, rfl | ⟨o, rfl⟩⟩ | ⟨y, o, heq, -⟩
    · obtain ⟨parent, hcheck, hfailed⟩ := refused_mem.mp hmem
      have hpush' : (conf.withWorkers n m).push = false := hpush
      rw [not_refused hpush' hl hnodup hu hcheck] at hfailed
      cases hfailed
    · exact ⟨o, rfl, worked_mem.mp hmem⟩
    · cases heq
  refine Over.unique hover hover' rfl (fun r => ?_) fun k r r' hmem hmem' => ?_
  · rw [result_withWorkers, result_withWorkers]
  · obtain ⟨o, rfl, ho⟩ := hworked hr hmem
    obtain ⟨o', rfl, ho'⟩ := hworked hr' hmem'
    rw [hagree x k o o' ho ho']

/-- The second run has every `BuildTask` of the first one. -/
theorem issued_of_agree (hpush : conf.push = false) (hl : Linked image images)
    (hnodup : images.Nodup)
    (hr : Reachable (step (conf.withWorkers threads pushThreads) image) (initial image images) s)
    (hr' : Reachable (step (conf.withWorkers threads' pushThreads') image) (initial image images) s')
    (hdrained' : Drained s')
    (hagree : ∀ x k o o', .worked x k o ∈ s.log → .worked x k o' ∈ s'.log → o = o') {x : ι}
    (hx : .build x ∈ issued s.log) : .build x ∈ issued s'.log := by
  have hcov' := covered hl hnodup hr'
  have key : (∀ e ∈ s.log, e ∈ s.log) → ∀ y, .build y ∈ issued s.log → .build y ∈ issued s'.log := by
    refine hr.invariant (P := fun u => (∀ e ∈ u.log, e ∈ s.log) →
      ∀ y, .build y ∈ issued u.log → .build y ∈ issued s'.log) ?_ ?_
    · intro _ y hy
      change .build y ∈ issued ((initialTasks image images).map .issued) at hy
      rw [issued_map] at hy
      obtain ⟨z, hz, hroot, heq⟩ := mem_initialTasks.mp hy
      cases heq
      exact hcov'.root y hz hroot
    · intro u a v hu ih hstep hsub y hy
      obtain ⟨events, hlog⟩ := step_log hstep
      have ih := ih fun e he => hsub e (hlog ▸ List.mem_append_right _ he)
      by_cases hold : .build y ∈ issued u.log
      · exact ih y hold
      · -- the followups of an image that the second run has built, too
        obtain ⟨start, close, new, hflow, hb⟩ := step_flow hstep
        have hissued := hb.issued (.build y)
        have hzero := List.count_eq_zero.mpr hold
        have hpos := List.count_pos_iff.mpr hy
        have hnew : .build y ∈ new := List.count_pos_iff.mp (by omega)
        cases hflow with
        | quiet | start | close => cases hnew
        | queue z => simp at hnew
        | follow p hend =>
          rcases mem_followups.mp hnew with ⟨-, heq⟩ | ⟨z, hz, hwanted, heq⟩
          · cases heq
          · cases heq
            rw [(account hl hnodup hu).frame y hold] at hwanted
            have hp := issued_of_tried hu (hb.closed _ (List.mem_singleton_self _))
            obtain ⟨-, success', hend'⟩ := hdrained'.ended hr' (ih p hp)
            obtain ⟨hsame, -⟩ := over_unique hpush hl hnodup hr hr' hagree (hsub _ hend) hend'
            rw [← hsame] at hend'
            exact hcov'.child p y hend' hz hwanted
  exact key (fun _ he => he) x hx

/-- The status of an image in a drained run. -/
theorem Drained.status (hdrained : Drained s) (hl : Linked image images) (hnodup : images.Nodup)
    (hr : Reachable (step conf image) (initial image images) s) (x : ι) :
    s.status x = current conf image s.log x :=
  (attempts hl hnodup hr).agrees x fun i k pc hpc => by
    have hnone := hdrained.2 i
    rw [hpc] at hnone
    cases hnone

end TwoRuns

/-- With pushing disabled, two drained runs in which the engines agree
attempt by attempt end with the same statuses, whatever the numbers of
workers and the order of the steps. -/
theorem status_deterministic [DecidableEq ι] {images : ImageList ι} {image : Heap ι}
    (hprep : Prepared images image) {conf : Conf} (hpush : conf.push = false)
    {threads pushThreads threads' pushThreads' : ℕ} {s s' : Sys ι}
    (hr : Reachable (step (conf.withWorkers threads pushThreads) image)
      (initial image images.refs) s) (hdrained : Drained s)
    (hr' : Reachable (step (conf.withWorkers threads' pushThreads') image)
      (initial image images.refs) s') (hdrained' : Drained s')
    (hagree : ∀ x k o o', .worked x k o ∈ s.log → .worked x k o' ∈ s'.log → o = o') (x : ι) :
    s.status x = s'.status x := by
  have hl := hprep.linked
  have hnodup := images.distinct
  have hsame : tries (.build x) s.log = tries (.build x) s'.log := by
    by_cases hx : .build x ∈ issued s.log
    · have hx' := issued_of_agree hpush hl hnodup hr hr' hdrained' hagree hx
      obtain ⟨-, success, hend⟩ := hdrained.ended hr hx
      obtain ⟨-, success', hend'⟩ := hdrained'.ended hr' hx'
      exact (over_unique hpush hl hnodup hr hr' hagree hend hend').2
    · have hx' : .build x ∉ issued s'.log := fun h => hx
        (issued_of_agree hpush hl hnodup hr' hr hdrained
          (fun y k o o' ho ho' => (hagree y k o' o ho' ho).symm) h)
      rw [tries_of_not_issued hr hx, tries_of_not_issued hr' hx']
  have hno : tries (.push x) s.log = [] :=
    @tries_push _ _ (conf.withWorkers threads pushThreads) _ _ _ hpush hl hnodup hr x
  have hno' : tries (.push x) s'.log = [] :=
    @tries_push _ _ (conf.withWorkers threads' pushThreads') _ _ _ hpush hl hnodup hr' x
  rw [hdrained.status hl hnodup hr, hdrained'.status hl hnodup hr', current, current, hsame,
    hno, hno']
  cases tries (.build x) s'.log with
  | nil => rfl
  | cons p l =>
    change (Try.result _ (image x) p.2).1 = (Try.result _ (image x) p.2).1
    rw [result_withWorkers, result_withWorkers]

/-! ## A small run

One run with one build worker, and one in which the second of two build
workers does everything. -/

/-- The sample configuration without pushing. -/
def quietConf : Conf := { sampleBuildConf with push := false }

/-- The whole run, done by worker `i`. -/
def quietActions (i : ℕ) : List Action :=
  workerSteps i 5 ++ [.worker i (.attempt goodAttempt)] ++ workerSteps i 4 ++ [.main, .main]

theorem status_deterministic_sample :
    ∃ s s', Reachable (step (quietConf.withWorkers 1 1) sampleImage)
        (initial sampleImage sampleImages.refs) s ∧
      Reachable (step (quietConf.withWorkers 2 0) sampleImage)
        (initial sampleImage sampleImages.refs) s' ∧
      s.status 1 = .built ∧ ∀ x, s.status x = s'.status x := by
  let log : List (Event (Fin 3)) := [.retired (.build 1), .ended (.build 1) true, .worked 1 0 goodAttempt,
    .engine 1, .parentCheck 1 0 (some .skipped), .attempt (.build 1) 0, .issued (.build 1)]
  obtain ⟨s, hr, hs⟩ := exists_reachable (step (quietConf.withWorkers 1 1) sampleImage)
    (s := initial sampleImage sampleImages.refs) (quietActions 0)
    (f := fun s => (s.main, s.status 1, s.log)) (b := (.tombPush, .built, log)) rfl
  obtain ⟨s', hr', hs'⟩ := exists_reachable (step (quietConf.withWorkers 2 0) sampleImage)
    (s := initial sampleImage sampleImages.refs) (quietActions 1)
    (f := fun s => (s.main, s.log)) (b := (.tombPush, log)) rfl
  rw [Prod.mk.injEq] at hs hs'
  rw [Prod.mk.injEq] at hs
  have hdrained := (phase hr).drained (by rw [hs.1]; rfl)
  have hdrained' := (phase hr').drained (by rw [hs'.1]; rfl)
  refine ⟨s, s', hr, hr', hs.2.1, status_deterministic sampleImage_prepared rfl hr hdrained hr'
    hdrained' ?_⟩
  intro x k o o' ho ho'
  rw [hs.2.2] at ho
  rw [hs'.2] at ho'
  simp only [log, List.mem_cons, Event.worked.injEq, reduceCtorEq, false_or, List.not_mem_nil,
    or_false] at ho ho'
  rw [ho.2.2, ho'.2.2]

end Kolla.Build
