import Kolla.Build.Determinism

/-!
# The verdict of a run

`kolla/image/kolla_worker.py` after the workers are done:
`get_image_statuses` sorts the images into dictionaries by their final
status, `summary` prints these dictionaries, and `main` of
`kolla/cmd/build.py` turns them into an exit code.

The dictionaries are keyed by the image name and filled once.
`complete_run_verdict` relates them to the statuses that the run left.
-/

namespace Kolla.Build

open Kolla.Lib

/-! ## Classes of statuses -/

/-- The dictionaries of `KollaWorker`, as `get_image_statuses` tells them
apart. -/
inductive StatusClass
  | bad
  | good
  | unmatched
  | skipped
  | unbuildable
  | allowedToFail
  deriving DecidableEq

/-- The six dictionaries `image_statuses_*`. -/
structure ImageStatuses where
  bad : Dict String Status
  good : Dict String Status
  unmatched : Dict String Status
  skipped : Dict String Status
  unbuildable : Dict String Status
  allowedToFail : Dict String Status

def ImageStatuses.empty : ImageStatuses := ⟨[], [], [], [], [], []⟩

def ImageStatuses.dict (d : ImageStatuses) : StatusClass → Dict String Status
  | .bad => d.bad
  | .good => d.good
  | .unmatched => d.unmatched
  | .skipped => d.skipped
  | .unbuildable => d.unbuildable
  | .allowedToFail => d.allowedToFail

/-- `any([...])` of the six dictionaries. -/
def ImageStatuses.any (d : ImageStatuses) : Bool :=
  !d.bad.isEmpty || !d.good.isEmpty || !d.unmatched.isEmpty || !d.skipped.isEmpty ||
    !d.unbuildable.isEmpty || !d.allowedToFail.isEmpty

/-- The body of the loop of `get_image_statuses`. -/
def ImageStatuses.record (allowedToFail : List String) (d : ImageStatuses) (name : String)
    (status : Status) : ImageStatuses :=
  match status with
  | .built => { d with good := d.good.insert name status }
  | .unmatched => { d with unmatched := d.unmatched.insert name status }
  | .skipped => { d with skipped := d.skipped.insert name status }
  | .unbuildable => { d with unbuildable := d.unbuildable.insert name status }
  | _ =>
    if name ∈ allowedToFail then { d with allowedToFail := d.allowedToFail.insert name status }
    else { d with bad := d.bad.insert name status }

section Worker

variable {ι : Type} (allowedToFail : List String) (name : ι → String) (status : ι → Status)
  (images : List ι)

/-- `KollaWorker.get_image_statuses`, with the dictionaries as they are
before the call. -/
def getImageStatuses (d : ImageStatuses) : ImageStatuses :=
  if d.any then d
  else images.foldl (fun d image => d.record allowedToFail (name image) (status image)) d

/-- The result of `summary`. -/
structure Results where
  built : List String
  failed : List (String × Status)
  notMatched : List String
  skipped : List String
  unbuildable : List String

/-- `sorted(d.keys())`. -/
def sortedKeys (d : Dict String Status) : List String := d.keys.mergeSort (· ≤ ·)

/-- `KollaWorker.summary` without what it prints: the dictionaries after
the call, and the result. -/
def summary (d : ImageStatuses) : ImageStatuses × Results :=
  let d := getImageStatuses allowedToFail name status images d
  let allBadStatuses := d.allowedToFail.foldl (fun all item => all.insert item.1 item.2) d.bad
  (d, { built := sortedKeys d.good
        failed := allBadStatuses.mergeSort fun a b => a.1 ≤ b.1
        notMatched := sortedKeys d.unmatched
        skipped := sortedKeys d.skipped
        unbuildable := sortedKeys d.unbuildable })

/-- The end of `run_build`, after the workers are joined: the result of
`summary`, if it is asked for, and the dictionaries that are returned. -/
def runBuildEnd (wanted : Bool) : Option Results × ImageStatuses :=
  if wanted then
    let (d, results) := summary allowedToFail name status images .empty
    (some results, getImageStatuses allowedToFail name status images d)
  else
    (none, getImageStatuses allowedToFail name status images .empty)

/-- `main`, where no exception is raised. -/
def mainExit (statuses : ImageStatuses) : ℕ := if statuses.bad ≠ [] then 1 else 0

end Worker

/-- The class that a name with this status is put in. -/
def statusClass (allowedToFail : List String) (name : String) : Status → StatusClass
  | .built => .good
  | .unmatched => .unmatched
  | .skipped => .skipped
  | .unbuildable => .unbuildable
  | _ => if name ∈ allowedToFail then .allowedToFail else .bad

/-- The statuses of an image that is reported as failed. -/
def failedStatus (status : Status) : Prop :=
  status ∉ [Status.built, .unmatched, .skipped, .unbuildable]

/-! ## The dictionaries -/

section Dictionaries

variable {ι : Type} {allowedToFail : List String} {name : ι → String} {status : ι → Status}
  {images : List ι} {d : ImageStatuses}

theorem record_dict (n : String) (st : Status) (c : StatusClass) :
    (d.record allowedToFail n st).dict c
      = if statusClass allowedToFail n st = c then (d.dict c).insert n st else d.dict c := by
  have hother : ∀ d' : ImageStatuses, failedStatus st →
      d' = (if n ∈ allowedToFail then { d with allowedToFail := d.allowedToFail.insert n st }
        else { d with bad := d.bad.insert n st }) →
      d'.dict c = if (if n ∈ allowedToFail then StatusClass.allowedToFail else .bad) = c then
        (d.dict c).insert n st else d.dict c := by
    rintro _ - rfl
    by_cases hn : n ∈ allowedToFail <;> cases c <;> simp [hn, ImageStatuses.dict]
  cases st with
  | built | unmatched | skipped | unbuildable =>
    cases c <;> simp [ImageStatuses.record, statusClass, ImageStatuses.dict]
  | _ => exact hother _ (by simp [failedStatus]) rfl

variable (name status) in
/-- The dictionary `m` with the images of the list for which `p` holds. -/
def fill (p : ι → Prop) [DecidablePred p] (images : List ι) (m : Dict String Status) :
    Dict String Status :=
  images.foldl (fun m x => if p x then m.insert (name x) (status x) else m) m

section Fill

variable {p : ι → Prop} [DecidablePred p] {m : Dict String Status} {x : ι}

theorem fill_cons_pos (hp : p x) :
    fill name status p (x :: images) m = fill name status p images (m.insert (name x) (status x)) := by
  rw [fill, List.foldl_cons, if_pos hp]
  rfl

theorem fill_cons_neg (hp : ¬ p x) :
    fill name status p (x :: images) m = fill name status p images m := by
  rw [fill, List.foldl_cons, if_neg hp]
  rfl

theorem nodup_keys_fill (hm : m.keys.Nodup) : (fill name status p images m).keys.Nodup := by
  induction images generalizing m with
  | nil => exact hm
  | cons x images ih =>
    by_cases hp : p x
    · rw [fill_cons_pos hp]
      exact ih (Dict.nodup_keys_insert hm _ _)
    · rw [fill_cons_neg hp]
      exact ih hm

theorem mem_keys_fill {n : String} :
    n ∈ (fill name status p images m).keys ↔ n ∈ m.keys ∨ ∃ x ∈ images, p x ∧ name x = n := by
  induction images generalizing m with
  | nil => simp [fill]
  | cons x images ih =>
    by_cases hp : p x
    · have hn : n = name x ↔ name x = n := eq_comm
      rw [fill_cons_pos hp, ih, Dict.mem_keys_insert, List.exists_mem_cons_iff, and_iff_right hp,
        hn, or_assoc, or_left_comm]
    · rw [fill_cons_neg hp, ih]
      simp [hp]

theorem exists_of_mem_fill (hm : m.keys.Nodup) {e : String × Status}
    (he : e ∈ fill name status p images m) :
    e ∈ m ∨ ∃ x ∈ images, p x ∧ e = (name x, status x) := by
  induction images generalizing m with
  | nil => exact .inl he
  | cons x images ih =>
    by_cases hp : p x
    · rw [fill_cons_pos hp] at he
      rcases ih (Dict.nodup_keys_insert hm _ _) he with he | ⟨y, hy, hpy, heq⟩
      · rcases (Dict.mem_insert hm).mp he with heq | ⟨he, -⟩
        · exact .inr ⟨x, by simp, hp, heq⟩
        · exact .inl he
      · exact .inr ⟨y, by simp [hy], hpy, heq⟩
    · rw [fill_cons_neg hp] at he
      rcases ih hm he with he | ⟨y, hy, hpy, heq⟩
      · exact .inl he
      · exact .inr ⟨y, by simp [hy], hpy, heq⟩

end Fill

theorem foldl_record_dict (c : StatusClass) :
    (images.foldl (fun d x => d.record allowedToFail (name x) (status x)) d).dict c
      = fill name status (fun x => statusClass allowedToFail (name x) (status x) = c) images
          (d.dict c) := by
  induction images generalizing d with
  | nil => rfl
  | cons x images ih =>
    rw [List.foldl_cons, ih, record_dict]
    split
    · rename_i hc
      exact (fill_cons_pos (p := fun x => statusClass allowedToFail (name x) (status x) = c) hc).symm
    · rename_i hc
      exact (fill_cons_neg (p := fun x => statusClass allowedToFail (name x) (status x) = c) hc).symm

variable (allowedToFail name status images) in
/-- The dictionaries after the first call. -/
def finalStatuses : ImageStatuses :=
  getImageStatuses allowedToFail name status images .empty

theorem finalStatuses_dict (c : StatusClass) :
    (finalStatuses allowedToFail name status images).dict c
      = fill name status (fun x => statusClass allowedToFail (name x) (status x) = c) images [] := by
  have hempty : ImageStatuses.empty.dict c = [] := by cases c <;> rfl
  have hany : ImageStatuses.empty.any = false := rfl
  rw [finalStatuses, getImageStatuses, hany, if_neg (by simp), foldl_record_dict, hempty]

theorem mem_keys_final {c : StatusClass} {n : String} :
    n ∈ ((finalStatuses allowedToFail name status images).dict c).keys ↔
      ∃ x ∈ images, statusClass allowedToFail (name x) (status x) = c ∧ name x = n := by
  rw [finalStatuses_dict, mem_keys_fill]
  simp

theorem exists_of_mem_final {c : StatusClass} {e : String × Status}
    (he : e ∈ (finalStatuses allowedToFail name status images).dict c) :
    ∃ x ∈ images, statusClass allowedToFail (name x) (status x) = c ∧ e = (name x, status x) := by
  rw [finalStatuses_dict] at he
  exact (exists_of_mem_fill (m := []) List.nodup_nil he).resolve_left (by simp)

theorem nodup_keys_final (c : StatusClass) :
    ((finalStatuses allowedToFail name status images).dict c).keys.Nodup := by
  rw [finalStatuses_dict]
  exact nodup_keys_fill List.nodup_nil

theorem ImageStatuses.eq_empty (h : d.any = false) : d = .empty := by
  cases d
  simp [ImageStatuses.any, ImageStatuses.empty] at h ⊢
  simp [h]

/-- A second call finds the dictionaries filled, or finds no image. -/
theorem getImageStatuses_final :
    getImageStatuses allowedToFail name status images
        (finalStatuses allowedToFail name status images)
      = finalStatuses allowedToFail name status images := by
  cases h : (finalStatuses allowedToFail name status images).any with
  | true => rw [getImageStatuses, if_pos h]
  | false =>
    have hempty := ImageStatuses.eq_empty h
    rw [hempty]
    exact hempty

theorem runBuildEnd_statuses (wanted : Bool) :
    (runBuildEnd allowedToFail name status images wanted).2
      = finalStatuses allowedToFail name status images := by
  cases wanted
  · rfl
  · exact getImageStatuses_final

/-! ## The names in the results -/

theorem failedStatus_iff {n : String} {st : Status} :
    failedStatus st ↔ statusClass allowedToFail n st = .bad ∨
      statusClass allowedToFail n st = .allowedToFail := by
  by_cases hn : n ∈ allowedToFail <;> cases st <;> simp [failedStatus, statusClass, hn]

theorem mem_sortedKeys {m : Dict String Status} {n : String} : n ∈ sortedKeys m ↔ n ∈ m.keys :=
  List.mem_mergeSort

theorem keys_foldl_insert {m m' : Dict String Status} {n : String} :
    n ∈ (m'.foldl (fun all item => all.insert item.1 item.2) m).keys ↔
      n ∈ m.keys ∨ n ∈ m'.keys := by
  induction m' generalizing m with
  | nil => simp
  | cons e m' ih =>
    rw [List.foldl_cons, ih, Dict.mem_keys_insert, Dict.keys_cons, List.mem_cons]
    tauto

theorem mem_of_mem_foldl_insert {m m' : Dict String Status} (hm : m.keys.Nodup)
    {e : String × Status}
    (he : e ∈ m'.foldl (fun all item => all.insert item.1 item.2) m) : e ∈ m ∨ e ∈ m' := by
  induction m' generalizing m with
  | nil => exact .inl he
  | cons e' m' ih =>
    rcases ih (Dict.nodup_keys_insert hm _ _) he with he | he
    · rcases (Dict.mem_insert hm).mp he with heq | ⟨he, -⟩
      · exact .inr (by simp [heq])
      · exact .inl he
    · exact .inr (List.mem_cons_of_mem _ he)

/-- The results name exactly the images of each class, and a failed name
comes with the status of such an image. -/
structure Reported (name : ι → String) (status : ι → Status) (images : List ι)
    (results : Results) : Prop where
  built : ∀ n, n ∈ results.built ↔ ∃ x ∈ images, status x = .built ∧ name x = n
  failed : ∀ n, n ∈ results.failed.map Prod.fst ↔
    ∃ x ∈ images, failedStatus (status x) ∧ name x = n
  notMatched : ∀ n, n ∈ results.notMatched ↔ ∃ x ∈ images, status x = .unmatched ∧ name x = n
  skipped : ∀ n, n ∈ results.skipped ↔ ∃ x ∈ images, status x = .skipped ∧ name x = n
  unbuildable : ∀ n, n ∈ results.unbuildable ↔
    ∃ x ∈ images, status x = .unbuildable ∧ name x = n
  failed_status : ∀ e ∈ results.failed,
    ∃ x ∈ images, failedStatus (status x) ∧ e = (name x, status x)

theorem statusClass_eq_iff {n : String} {st : Status} :
    (statusClass allowedToFail n st = .good ↔ st = .built) ∧
      (statusClass allowedToFail n st = .unmatched ↔ st = .unmatched) ∧
      (statusClass allowedToFail n st = .skipped ↔ st = .skipped) ∧
      (statusClass allowedToFail n st = .unbuildable ↔ st = .unbuildable) ∧
      (statusClass allowedToFail n st = .bad ↔ failedStatus st ∧ n ∉ allowedToFail) := by
  by_cases hn : n ∈ allowedToFail <;> cases st <;> simp [statusClass, failedStatus, hn]

theorem summary_reported :
    Reported name status images (summary allowedToFail name status images .empty).2 := by
  have hclass := fun n st => @statusClass_eq_iff allowedToFail n st
  refine ⟨fun n => ?_, fun n => ?_, fun n => ?_, fun n => ?_, fun n => ?_, fun e he => ?_⟩
  · refine (mem_sortedKeys.trans (mem_keys_final (c := .good))).trans ?_
    simp only [(hclass _ _).1]
  · refine ((List.mergeSort_perm _ _).map Prod.fst).mem_iff.trans (keys_foldl_insert.trans ?_)
    refine (or_congr (mem_keys_final (c := .bad)) (mem_keys_final (c := .allowedToFail))).trans ?_
    constructor
    · rintro (⟨x, hx, hc, hn⟩ | ⟨x, hx, hc, hn⟩)
      · exact ⟨x, hx, failedStatus_iff.mpr (.inl hc), hn⟩
      · exact ⟨x, hx, failedStatus_iff.mpr (.inr hc), hn⟩
    · rintro ⟨x, hx, hst, hn⟩
      exact (failedStatus_iff.mp hst).imp (fun hc => ⟨x, hx, hc, hn⟩) fun hc => ⟨x, hx, hc, hn⟩
  · refine (mem_sortedKeys.trans (mem_keys_final (c := .unmatched))).trans ?_
    simp only [(hclass _ _).2.1]
  · refine (mem_sortedKeys.trans (mem_keys_final (c := .skipped))).trans ?_
    simp only [(hclass _ _).2.2.1]
  · refine (mem_sortedKeys.trans (mem_keys_final (c := .unbuildable))).trans ?_
    simp only [(hclass _ _).2.2.2.1]
  · have he' := List.mem_mergeSort.mp he
    rcases mem_of_mem_foldl_insert (nodup_keys_final .bad) he' with he | he
    · obtain ⟨x, hx, hc, heq⟩ := exists_of_mem_final (c := .bad) he
      exact ⟨x, hx, failedStatus_iff.mpr (.inl hc), heq⟩
    · obtain ⟨x, hx, hc, heq⟩ := exists_of_mem_final (c := .allowedToFail) he
      exact ⟨x, hx, failedStatus_iff.mpr (.inr hc), heq⟩

theorem mainExit_eq_zero_iff :
    mainExit (finalStatuses allowedToFail name status images) = 0 ↔
      ∀ x ∈ images, failedStatus (status x) → name x ∈ allowedToFail := by
  have hkeys := fun n => @mem_keys_final ι allowedToFail name status images .bad n
  simp only [statusClass_eq_iff.2.2.2.2] at hkeys
  rw [mainExit]
  constructor
  · intro hzero x hx hst
    by_contra hn
    have hmem := (hkeys (name x)).mpr ⟨x, hx, ⟨hst, hn⟩, rfl⟩
    split at hzero
    · cases hzero
    · rename_i hbad
      have hdict : (finalStatuses allowedToFail name status images).dict .bad = [] := not_not.mp hbad
      rw [hdict] at hmem
      cases hmem
  · intro hall
    rw [if_neg]
    intro hbad
    obtain ⟨e, he⟩ := List.exists_mem_of_ne_nil _ hbad
    obtain ⟨x, hx, ⟨hst, hn⟩, -⟩ := (hkeys e.1).mp (Dict.mem_keys_of_mem he)
    exact hn (hall x hx hst)

end Dictionaries

/-! ## Statuses at the end of a run -/

section Run

variable {ι : Type} [DecidableEq ι] {conf : Conf} {image : Heap ι} {s : Sys ι}

/-- An image that `build_queue` passes over keeps its status. -/
theorem status_of_unwanted {images : List ι} (hl : Linked image images) (hnodup : images.Nodup)
    (hr : Reachable (step conf image) (initial image images) s) {x : ι}
    (hx : (image x).status ∈ unwanted) : s.status x = (image x).status :=
  (account hl hnodup hr).frame x fun hissued => ((account hl hnodup hr).build x hissued).1 hx

/-- In a drained run every status is the first one or one that an attempt
left, and no attempt leaves a status that `build_queue` passes over. -/
theorem Drained.status_not_skipped {images : List ι} (hdrained : Drained s)
    (hl : Linked image images) (hnodup : images.Nodup)
    (hr : Reachable (step conf image) (initial image images) s) {x : ι}
    (hx : skipsBuild (image x).status = false) : skipsBuild (s.status x) = false := by
  rw [hdrained.status hl hnodup hr, current]
  split
  · exact skipsBuild_result conf _ _
  · exact skipsBuild_result conf _ _
  · exact hx

theorem Drained.failed_iff {images : ImageList ι} (hdrained : Drained s)
    (hprep : Prepared images image)
    (hr : Reachable (step conf image) (initial image images.refs) s) {x : ι}
    (hx : x ∈ images.refs) :
    failedStatus (s.status x) ↔ (image x).status = .matched ∧ s.status x ≠ .built := by
  have hl := hprep.linked
  rcases hprep.processed hx with hm | hst
  · have hskip := hdrained.status_not_skipped hl images.distinct hr
      (x := x) (by rw [hm]; rfl)
    rw [and_iff_right hm]
    cases h : s.status x <;> simp [h, failedStatus, skipsBuild] at hskip ⊢
  · have heq := status_of_unwanted hl images.distinct hr hst
    rw [heq]
    cases h : (image x).status <;> simp [h, failedStatus] at hst ⊢

end Run

/-- The verdict and the summary of a complete run.  `main` returns 0 exactly
if every image that was left `MATCHED` and is not allowed to fail ends
`BUILT`, and the lists of the summary name exactly the images of their
class, whether or not images share a name. -/
theorem complete_run_verdict {ι : Type} [DecidableEq ι] {images : ImageList ι} {image : Heap ι}
    (hprep : Prepared images image) {conf : Conf} {s : Sys ι}
    (hr : Reachable (step conf image) (initial image images.refs) s) (hdone : s.main = .joining)
    (allowedToFail : List String) (wanted : Bool) :
    (mainExit (runBuildEnd allowedToFail (fun x => (image x).name) s.status images.refs wanted).2
        = 0 ↔
      ∀ x ∈ images.refs, (image x).status = .matched → (image x).name ∉ allowedToFail →
        s.status x = .built) ∧
      (wanted = true → ∃ results,
        (runBuildEnd allowedToFail (fun x => (image x).name) s.status images.refs wanted).1
          = some results) ∧
      ∀ results,
        (runBuildEnd allowedToFail (fun x => (image x).name) s.status images.refs wanted).1
          = some results →
        Reported (fun x => (image x).name) s.status images.refs results := by
  have hdrained : Drained s := (phase hr).drained (by rw [hdone]; rfl)
  refine ⟨?_, ?_, ?_⟩
  · rw [runBuildEnd_statuses, mainExit_eq_zero_iff]
    refine forall₂_congr fun x hx => ?_
    rw [hdrained.failed_iff hprep hr hx]
    tauto
  · rintro rfl
    exact ⟨_, rfl⟩
  · intro results hresults
    cases wanted with
    | false => cases hresults
    | true =>
      cases hresults
      exact summary_reported

theorem complete_run_verdict_sample :
    ∃ s, Reachable (step sampleBuildConf sampleImage) (initial sampleImage sampleImages.refs) s ∧
      s.status 1 = .built ∧
      (mainExit (runBuildEnd [] (fun x => (sampleImage x).name) s.status sampleImages.refs true).2
          = 0 ↔
        ∀ x ∈ sampleImages.refs, (sampleImage x).status = .matched →
          (sampleImage x).name ∉ ([] : List String) → s.status x = .built) ∧
      ∃ results,
        (runBuildEnd [] (fun x => (sampleImage x).name) s.status sampleImages.refs true).1
          = some results ∧
        Reported (fun x => (sampleImage x).name) s.status sampleImages.refs results := by
  obtain ⟨s, hr, hs⟩ := exists_reachable (step sampleBuildConf sampleImage)
    (s := initial sampleImage sampleImages.refs) (sampleActions ++ [.main, .main])
    (f := fun s => (s.main, s.status 1)) (b := (.joining, .built)) (by decide)
  rw [Prod.mk.injEq] at hs
  obtain ⟨hexit, hwanted, hreported⟩ := complete_run_verdict sampleImage_prepared hr hs.1 [] true
  obtain ⟨results, hresults⟩ := hwanted rfl
  exact ⟨s, hr, hs.2, hexit, results, hresults, hreported results hresults⟩

end Kolla.Build
