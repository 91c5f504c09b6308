import Kolla.Build.AttemptSteps

/-!
# When the engine is called

`builder` goes through the main source, the plugins and the additions before
it asks the engine for an image.  `process_source` reports an error in three
ways: by the status, by an exception or by no archive, and each of the three
places that call it has its own way to stop.

`engineCalled_iff` says that all of them stop.  The engine is called in an
attempt if and only if the attempt gets past the checks at its start, every
source is done in this same attempt, and there is a client to call.  The status
that an earlier attempt left is of no account, because an attempt starts
with `BUILDING`.
-/

namespace Kolla.Build

open Kolla.Lib

variable {ι : Type}

/-- `BuildTask.builder`, with the status of the parent. -/
def builder (conf : Conf) (image : Image ι) (parent : Option Status) (outcome : AttemptOutcome) :
    BuildM Unit := do
  if skipsBuild (← get).status then
    return ()
  else if parentFailed parent then
    setStatus .parentError
  else do
    setStatus .building
    buildImage conf image outcome

/-- Whether the attempt called `images.build`, from the status that the image
had before. -/
def callsEngine (conf : Conf) (image : Image ι) (parent : Option Status) (status : Status)
    (outcome : AttemptOutcome) : Bool :=
  (exitState (builder conf image parent outcome ⟨status, false⟩)).engineCalled

section Spec

variable (conf : Conf) (image : Image ι) (outcome : AttemptOutcome)

/-- The sources of an image, each with what happens to it in the attempt. -/
def imageSources : List (Option Source × SourceOutcome) :=
  (image.source.toList.map fun source => (some source, outcome.source)) ++
    (image.plugins.mapIdx fun i source => (source, outcome.plugins.sources i)) ++
    image.additions.mapIdx fun i source => (source, outcome.additions.sources i)

/-- The plugins or the additions became an archive: every received archive is
a tar file with safe names, and the directory of the items was packed. -/
structure ArchiveMade (items : List (Option Source)) (outcome : ItemsOutcome) : Prop where
  extracted : ∀ j < (items.filter bringsArchive).length, outcome.archives j = .extracted
  made : (items.filter bringsArchive).length = 0 → outcome.mkdir ≠ .failed
  packed : outcome.packed = true

/-- Every source was processed without an error, and both archives were
made. -/
structure SourcesDone : Prop where
  processed : ∀ e ∈ imageSources image outcome, SourceDone conf e.1 e.2
  plugins : ArchiveMade image.plugins outcome.plugins
  additions : ArchiveMade image.additions outcome.additions

/-- The body of the source arrived, and its SHA-256 is the one that the table
has for the architecture. -/
def ShaVerified (source : Source) (outcome : SourceOutcome) : Prop :=
  ∃ content, outcome.get = .response 200 content ∧
    List.lookup conf.debianArch source.sha256 = some (conf.sha256 content)

end Spec

/-! ## The sources as one list -/

section Sources

variable {conf : Conf} {image : Image ι} {outcome : AttemptOutcome}

theorem collectDone_iff {outcome : ItemsOutcome} {items : List (Option Source)} {i : ℕ} :
    CollectDone conf outcome i items ↔
      ∀ e ∈ items.mapIdx (fun j source => (source, outcome.sources (i + j))),
        SourceDone conf e.1 e.2 := by
  induction items generalizing i with
  | nil => simp [CollectDone]
  | cons item items ih =>
    have hshift : ∀ j, i + 1 + j = i + (j + 1) := fun j => by omega
    simp only [CollectDone, ih, List.mapIdx_cons, List.forall_mem_cons, Nat.add_zero, hshift]

theorem itemsDone_iff {outcome : ItemsOutcome} {items : List (Option Source)} :
    ItemsDone conf items outcome ↔
      (∀ e ∈ items.mapIdx (fun j source => (source, outcome.sources j)),
        SourceDone conf e.1 e.2) ∧ ArchiveMade items outcome := by
  have hcollect := @collectDone_iff conf outcome items 0
  simp only [Nat.zero_add] at hcollect
  constructor
  · rintro ⟨hcol, hext, hmade, hpacked⟩
    exact ⟨hcollect.mp hcol, hext, hmade, hpacked⟩
  · rintro ⟨hcol, hext, hmade, hpacked⟩
    exact ⟨hcollect.mpr hcol, hext, hmade, hpacked⟩

theorem sourcesDone_iff :
    SourcesDone conf image outcome ↔
      MainDone conf image outcome ∧ ItemsDone conf image.plugins outcome.plugins ∧
        ItemsDone conf image.additions outcome.additions := by
  have hmain : MainDone conf image outcome ↔
      ∀ e ∈ image.source.toList.map (fun source => (some source, outcome.source)),
        SourceDone conf e.1 e.2 := by
    unfold MainDone
    cases image.source <;> simp
  rw [itemsDone_iff, itemsDone_iff, hmain]
  constructor
  · rintro ⟨hall, hplug, hadd⟩
    simp only [imageSources, List.forall_mem_append] at hall
    exact ⟨hall.1.1, ⟨hall.1.2, hplug⟩, hall.2, hadd⟩
  · rintro ⟨hmain, ⟨hps, hplug⟩, has, hadd⟩
    refine ⟨?_, hplug, hadd⟩
    simp only [imageSources, List.forall_mem_append]
    exact ⟨⟨hmain, hps⟩, has⟩

/-- An enabled `url` source with a table is done only if its body has the
right sum. -/
theorem SourceDone.shaVerified {source : Source} {outcome : SourceOutcome}
    (h : SourceDone conf (some source) outcome) (hen : source.enabled = true)
    (hurl : source.type = .url) (hsha : source.sha256 ≠ []) :
    ShaVerified conf source outcome := by
  obtain ⟨hrec, _⟩ := h hen
  unfold Received at hrec
  rw [hurl] at hrec
  obtain ⟨content, hget, hsum⟩ := hrec
  exact ⟨content, hget, hsum.resolve_left hsha⟩

end Sources

/-! ## The mark of the engine -/

/-- The call of the engine is as it was. -/
def SameCall (s s' : Attempt) : Prop := s'.engineCalled = s.engineCalled

instance : IsPreorder Attempt SameCall where
  refl _ := rfl
  trans _ _ _ h h' := Eq.trans h' h

theorem setStatus_sameCall (status : Status) : Moves SameCall (setStatus status) :=
  fun _ => rfl

section Call

variable {conf : Conf} {image : Image ι} {outcome : AttemptOutcome} {s : Attempt}

theorem squashIfAsked_sameCall : Moves SameCall (squashIfAsked conf image outcome) := by
  have hsquash : Moves SameCall (squash image outcome.squash) :=
    .ite (fun _ => .ite (fun _ => setStatus_sameCall _)
      fun _ => .ite (fun _ => .pure _) fun _ => .throw _) fun _ => .throw _
  exact .bind (fun _ => rfl) fun _ => .ite (fun _ => hsquash) fun _ => .pure _

/-- The engine part calls the engine if there is a client. -/
theorem runEngine_called (hs : s.engineCalled = false) :
    (exitState (runEngine conf image outcome s)).engineCalled = outcome.client := by
  have hcatch : ∀ b, Moves SameCall (if b = true then setStatus .built else pure () : BuildM Unit) :=
    fun b => .ite (fun _ => setStatus_sameCall _) fun _ => .pure _
  have hfail : Moves SameCall (do setStatus .error; return false) :=
    .bind (setStatus_sameCall _) fun _ => .pure _
  have hbody : (exitState (engineBody conf image outcome s)).engineCalled = outcome.client := by
    unfold engineBody
    by_cases hc : outcome.client = true
    · rw [if_pos hc, hc]
      have hrest : Moves SameCall (if .errorDetail ∈ outcome.stream then do
            setStatus .error
            return false
          else if outcome.streamEnds = true then do
            squashIfAsked conf image outcome
            return true
          else
            throw .other : BuildM Bool) :=
        .ite (fun _ => hfail) fun _ => .ite
          (fun _ => .bind squashIfAsked_sameCall fun _ => .pure _) fun _ => .throw _
      exact hrest { s with engineCalled := true }
    · rw [if_neg hc]
      rw [Bool.not_eq_true] at hc
      rw [hc]
      exact hs
  have htry : (exitState (tryCatch (engineBody conf image outcome) (fun _ => do
      setStatus .error
      return false) s)).engineCalled = outcome.client := by
    rw [← hbody]
    cases hb : engineBody conf image outcome s with
    | ok b s' => rw [tryCatch_of_ok hb]
    | error e s' =>
      rw [tryCatch_of_error hb]
      rfl
  unfold runEngine
  cases ht : tryCatch (engineBody conf image outcome) (fun _ => do
      setStatus .error
      return false) s with
  | ok b s' =>
    rw [ht] at htry
    rw [bind_of_ok ht, ← htry]
    exact hcatch b s'
  | error e s' =>
    rw [ht] at htry
    rw [bind_of_error ht, ← htry]
    rfl

/-- Past the parent check the engine is called if all the sources are done. -/
theorem buildImage_called :
    (exitState (buildImage conf image outcome ⟨.building, false⟩)).engineCalled = true ↔
      SourcesDone conf image outcome ∧ outcome.client = true := by
  have hs : (⟨.building, false⟩ : Attempt).status = .building := rfl
  rw [sourcesDone_iff]
  unfold buildImage
  rcases (processMainSource_passes conf hs image outcome).bind _ with
    ⟨hmain, -, h₁⟩ | ⟨hmain, h₁⟩
  · rw [h₁]
    rcases (archived_passes conf hs image.plugins outcome.plugins).bind _ with
      ⟨hplug, -, h₂⟩ | ⟨hplug, h₂⟩
    · rw [h₂]
      rcases (archived_passes conf hs image.additions outcome.additions).bind _ with
        ⟨hadd, -, h₃⟩ | ⟨hadd, h₃⟩
      · rw [h₃, runEngine_called rfl]
        exact ⟨fun h => ⟨⟨hmain, hplug, hadd⟩, h⟩, And.right⟩
      · refine iff_of_false ?_ fun h => hadd h.1.2.2
        rcases h₃ with ⟨-, h₃ | ⟨e, h₃⟩⟩ | ⟨-, st, -, h₃⟩ <;> rw [h₃] <;> exact Bool.false_ne_true
    · refine iff_of_false ?_ fun h => hplug h.1.2.1
      rcases h₂ with ⟨-, h₂ | ⟨e, h₂⟩⟩ | ⟨-, st, -, h₂⟩ <;> rw [h₂] <;> exact Bool.false_ne_true
  · refine iff_of_false ?_ fun h => hmain h.1.1
    rcases h₁ with ⟨-, h₁ | ⟨e, h₁⟩⟩ | ⟨-, st, -, h₁⟩ <;> rw [h₁] <;> exact Bool.false_ne_true

end Call

/-! ## The attempt -/

/-- The engine is called if and only if the attempt gets past the checks at its
start, all the sources are done in it, and there is a client.  In particular a
`url` source with a table has then been received with the right sum. -/
theorem engineCalled_iff (conf : Conf) (image : Image ι) (parent : Option Status)
    (status : Status) (outcome : AttemptOutcome) :
    (callsEngine conf image parent status outcome = true ↔
      skipsBuild status = false ∧ parentFailed parent = false ∧
        SourcesDone conf image outcome ∧ outcome.client = true) ∧
    (callsEngine conf image parent status outcome = true →
      ∀ source sourceOutcome, (some source, sourceOutcome) ∈ imageSources image outcome →
        source.enabled = true → source.type = .url → source.sha256 ≠ [] →
        ShaVerified conf source sourceOutcome) := by
  have hget : (MonadState.get : BuildM Attempt) ⟨status, false⟩
      = .ok ⟨status, false⟩ ⟨status, false⟩ := rfl
  have hiff : callsEngine conf image parent status outcome = true ↔
      skipsBuild status = false ∧ parentFailed parent = false ∧
        SourcesDone conf image outcome ∧ outcome.client = true := by
    unfold callsEngine builder
    rw [bind_of_ok hget]
    by_cases hskip : skipsBuild status = true
    · rw [if_pos hskip]
      exact iff_of_false Bool.false_ne_true fun h => by rw [hskip] at h; cases h.1
    · rw [if_neg hskip]
      rw [Bool.not_eq_true] at hskip
      by_cases hparent : parentFailed parent = true
      · rw [if_pos hparent]
        exact iff_of_false Bool.false_ne_true fun h => by rw [hparent] at h; cases h.2.1
      · rw [if_neg hparent]
        rw [Bool.not_eq_true] at hparent
        have hset : setStatus .building ⟨status, false⟩ = .ok () ⟨.building, false⟩ := rfl
        rw [bind_of_ok hset, buildImage_called]
        simp [hskip, hparent]
  refine ⟨hiff, fun hcalled source o hmem hen hurl hsha => ?_⟩
  exact ((hiff.mp hcalled).2.2.1.processed _ hmem).shaVerified hen hurl hsha

/-- A `url` plugin whose table has another sum for the architecture. -/
def taintedImage : Image (Fin 2) :=
  { childImage with
    plugins := [some ⟨"nova-plugin-foo", .url, "http://example/foo.tar", "", true,
      [("amd64", "0123")]⟩] }

/-- It stops the attempt, also after an earlier error. -/
example : callsEngine squashConf taintedImage none .error
    { missedOutcome with
      plugins := { missedOutcome.plugins with
        sources := fun _ => ⟨.response 200 [], .cloned, true, true⟩ } } = false := rfl

end Kolla.Build
