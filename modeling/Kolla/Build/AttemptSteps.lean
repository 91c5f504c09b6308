import Kolla.Build.Attempts

/-!
# The steps of one attempt

An attempt past the parent check goes through the main source, the plugins,
the additions, the build stream and the squash.  `StepsDone` says, step by
step and without reference to the program, that none of them failed.

`attemptResult_built_iff` compares this with the status `BUILT`.  The two
agree but for one case: `squash` signals a parent without its last layer by
the status `ERROR`, and the `else` branch of `builder` overwrites it
(`LayerMissed`).
-/

namespace Kolla.Build

open Kolla.Lib

variable {ι : Type}

/-! ## What each step has to achieve -/

section Done

variable (conf : Conf)

/-- The archive of a source arrived. -/
def Received (source : Source) (outcome : SourceOutcome) : Prop :=
  match source.type with
  | .url => ∃ content, outcome.get = .response 200 content ∧
      (source.sha256 = [] ∨
        List.lookup conf.debianArch source.sha256 = some (conf.sha256 content))
  | .git => outcome.prepared = true ∧ outcome.git = .cloned
  | .local => True

/-- A source is disabled, or its archive arrived and was stored. An empty
installation cannot be processed. -/
def SourceDone (source : Option Source) (outcome : SourceOutcome) : Prop :=
  match source with
  | none => False
  | some source => source.enabled = true → Received conf source outcome ∧ outcome.stored = true

/-- Whether a source brings an archive. -/
def bringsArchive : Option Source → Bool
  | none => false
  | some source => source.enabled

/-- All items from the `i`-th on. -/
def CollectDone (outcome : ItemsOutcome) : ℕ → List (Option Source) → Prop
  | _, [] => True
  | i, item :: items =>
    SourceDone conf item (outcome.sources i) ∧ CollectDone outcome (i + 1) items

/-- All items arrived, every archive was extracted or the directory was
there without any, and the result was packed. -/
structure ItemsDone (items : List (Option Source)) (outcome : ItemsOutcome) : Prop where
  collected : CollectDone conf outcome 0 items
  extracted : ∀ j < (items.filter bringsArchive).length, outcome.archives j = .extracted
  made : (items.filter bringsArchive).length = 0 → outcome.mkdir ≠ .failed
  packed : outcome.packed = true

/-- The build stream came to its end without an `errorDetail`. -/
structure StreamDone (outcome : AttemptOutcome) : Prop where
  client : outcome.client = true
  output : StreamElement.errorDetail ∉ outcome.stream
  ends : outcome.streamEnds = true

/-- The squash is asked for. -/
def SquashAsked : Prop := conf.squash = true ∧ conf.engine = .docker

/-- The squash found the last layer of the parent and the tool succeeded. -/
structure SquashDone (image : Image ι) (outcome : SquashOutcome) : Prop where
  lookup : outcome.lookup = true
  layer : parentLastLayer image outcome.history ≠ ""
  squashed : outcome.squashed = true

/-- The steps before the squash. -/
structure BuildDone (image : Image ι) (outcome : AttemptOutcome) : Prop where
  source : ∀ source, image.source = some source → SourceDone conf (some source) outcome.source
  plugins : ItemsDone conf image.plugins outcome.plugins
  additions : ItemsDone conf image.additions outcome.additions
  stream : StreamDone outcome

/-- None of the steps failed. -/
structure StepsDone (image : Image ι) (outcome : AttemptOutcome) : Prop where
  build : BuildDone conf image outcome
  squash : SquashAsked conf → SquashDone image outcome.squash

/-- Everything went well up to a squash that does not find the last layer
of the parent. -/
structure LayerMissed (image : Image ι) (outcome : AttemptOutcome) : Prop where
  build : BuildDone conf image outcome
  asked : SquashAsked conf
  lookup : outcome.squash.lookup = true
  missed : parentLastLayer image outcome.squash.history = ""

/-! ## What leaves the status `BUILDING` -/

/-- A branch of `process_source` raises. -/
def ReceiveRaises (source : Source) (outcome : SourceOutcome) : Prop :=
  match source.type with
  | .url => outcome.get = .raised ∨ ∃ content, outcome.get = .response 200 content ∧
      source.sha256 ≠ [] ∧ List.lookup conf.debianArch source.sha256 = none
  | .git => outcome.prepared = false ∨ outcome.git = .failed false
  | .local => False

/-- `process_source` raises: the installation is empty, a branch raises, or
the received archive cannot be stored. -/
def SourceRaises (source : Option Source) (outcome : SourceOutcome) : Prop :=
  match source with
  | none => True
  | some source => source.enabled = true ∧
      (ReceiveRaises conf source outcome ∨ Received conf source outcome ∧ outcome.stored = false)

/-- The first item from the `i`-th on that is not done raises. -/
def CollectRaises (outcome : ItemsOutcome) : ℕ → List (Option Source) → Prop
  | _, [] => False
  | i, item :: items =>
    SourceRaises conf item (outcome.sources i) ∨
      SourceDone conf item (outcome.sources i) ∧ CollectRaises outcome (i + 1) items

/-- `make_an_archive` ends early and leaves the status alone: an item
raises, an archive is no tar file, has unsafe names or cannot be extracted,
or the filled directory cannot be packed. -/
def ItemsStuck (items : List (Option Source)) (outcome : ItemsOutcome) : Prop :=
  CollectRaises conf outcome 0 items ∨ CollectDone conf outcome 0 items ∧
    (¬ (∀ j < (items.filter bringsArchive).length, outcome.archives j = .extracted) ∨
      ((items.filter bringsArchive).length = 0 → outcome.mkdir ≠ .failed) ∧
        outcome.packed = false)

/-- The main source is there. -/
def MainDone (image : Image ι) (outcome : AttemptOutcome) : Prop :=
  ∀ source, image.source = some source → SourceDone conf (some source) outcome.source

/-- `builder` returns or raises before the engine without having set a
status. -/
def LeavesBuilding (image : Image ι) (outcome : AttemptOutcome) : Prop :=
  (∃ source, image.source = some source ∧ SourceRaises conf (some source) outcome.source) ∨
    MainDone conf image outcome ∧ (ItemsStuck conf image.plugins outcome.plugins ∨
      ItemsDone conf image.plugins outcome.plugins ∧
        ItemsStuck conf image.additions outcome.additions)

end Done

/-! ## Sources -/

section Steps

variable {conf : Conf} {s : Attempt}

variable (conf) in
/-- A branch of `process_source`: it receives the archive and leaves the
state alone, raises, or leaves `ERROR`. -/
theorem receive_cases (source : Source) (outcome : SourceOutcome) :
    (Received conf source outcome ∧ ¬ ReceiveRaises conf source outcome ∧
        receive conf source outcome s = .ok true s) ∨
      ¬ Received conf source outcome ∧
        (ReceiveRaises conf source outcome ∧ receive conf source outcome s = .error .other s ∨
          ¬ ReceiveRaises conf source outcome ∧
            receive conf source outcome s = .ok false { s with status := .error }) := by
  unfold Received ReceiveRaises receive
  cases source.type with
  | url =>
    dsimp only
    unfold fetchUrl
    cases outcome.get with
    | timeout => exact Or.inr ⟨by simp, Or.inr ⟨by simp, rfl⟩⟩
    | raised => exact Or.inr ⟨by simp, Or.inl ⟨by simp, rfl⟩⟩
    | response statusCode content =>
      by_cases hcode : statusCode = 200
      · subst hcode
        by_cases hsha : source.sha256 = []
        · exact Or.inl ⟨⟨content, rfl, Or.inl hsha⟩, by simp [hsha], by simp [hsha]⟩
        · cases hl : List.lookup conf.debianArch source.sha256 with
          | none => exact Or.inr ⟨by simp [hsha], Or.inl ⟨by simp [hsha], by simp [hsha]; rfl⟩⟩
          | some confSha =>
            by_cases heq : confSha = conf.sha256 content
            · exact Or.inl ⟨⟨content, rfl, Or.inr (by rw [heq])⟩, by simp, by simp [hsha, heq]⟩
            · exact Or.inr ⟨by simp [hsha, heq], Or.inr ⟨by simp, by simp [hsha, heq]; rfl⟩⟩
      · exact Or.inr ⟨by simp [hcode], Or.inr ⟨by simp [hcode], by simp [hcode]; rfl⟩⟩
  | git =>
    dsimp only
    unfold cloneGit
    by_cases hp : outcome.prepared = true
    · cases hg : outcome.git with
      | cloned => exact Or.inl ⟨⟨hp, rfl⟩, by simp [hp], by simp [hp]⟩
      | failed cloneDirLeft =>
        cases cloneDirLeft with
        | true => exact Or.inr ⟨by simp, Or.inr ⟨by simp [hp], by simp [hp]; rfl⟩⟩
        | false => exact Or.inr ⟨by simp, Or.inl ⟨by simp, by simp [hp]; rfl⟩⟩
    · exact Or.inr ⟨by simp [hp], Or.inl ⟨by simp [hp], by simp [hp]; rfl⟩⟩
  | «local» => exact Or.inl ⟨trivial, by simp, rfl⟩

variable (conf) in
theorem processSource_cases (source : Option Source) (outcome : SourceOutcome) :
    (SourceDone conf source outcome ∧ ¬ SourceRaises conf source outcome ∧
        processSource conf source outcome s = .ok (bringsArchive source) s) ∨
      ¬ SourceDone conf source outcome ∧
        (SourceRaises conf source outcome ∧
            processSource conf source outcome s = .error .other s ∨
          ¬ SourceRaises conf source outcome ∧
            processSource conf source outcome s = .ok false { s with status := .error }) := by
  cases source with
  | none => exact Or.inr ⟨id, Or.inl ⟨trivial, rfl⟩⟩
  | some source =>
    unfold processSource SourceDone SourceRaises bringsArchive
    by_cases hen : source.enabled = true
    · dsimp only
      rw [if_pos hen]
      rcases receive_cases conf (s := s) source outcome with
        ⟨hrec, hraise, hr⟩ | ⟨hrec, ⟨hraise, hr⟩ | ⟨hraise, hr⟩⟩
      · rw [bind_of_ok hr, if_pos rfl]
        by_cases hst : outcome.stored = true
        · exact Or.inl ⟨fun _ => ⟨hrec, hst⟩, by simp [hraise, hst], by rw [if_pos hst, hen]; rfl⟩
        · exact Or.inr ⟨fun h => hst (h hen).2,
            Or.inl ⟨⟨hen, Or.inr ⟨hrec, by simpa using hst⟩⟩, by rw [if_neg hst]; rfl⟩⟩
      · rw [bind_of_error hr]
        exact Or.inr ⟨fun h => hrec (h hen).1, Or.inl ⟨⟨hen, Or.inl hraise⟩, rfl⟩⟩
      · rw [bind_of_ok hr, if_neg Bool.false_ne_true]
        exact Or.inr ⟨fun h => hrec (h hen).1, Or.inr ⟨by simp [hraise, hrec], rfl⟩⟩
    · dsimp only
      rw [if_neg hen]
      exact Or.inl ⟨fun h => absurd h hen, fun h => hen h.1, by
        rw [Bool.not_eq_true] at hen
        rw [hen]
        rfl⟩

/-! ## Archives -/

theorem hasError_eq (s : Attempt) : hasError s = .ok (decide (s.status ∈ statusErrors)) s := rfl

variable (conf) in
theorem collectArchives_cases (hs : s.status = .building) (outcome : ItemsOutcome) (i : ℕ)
    (items : List (Option Source)) :
    (CollectDone conf outcome i items ∧ ¬ CollectRaises conf outcome i items ∧
        collectArchives conf outcome i items s = .ok (items.filter bringsArchive).length s) ∨
      ¬ CollectDone conf outcome i items ∧
        (CollectRaises conf outcome i items ∧
            collectArchives conf outcome i items s = .error .other s ∨
          ¬ CollectRaises conf outcome i items ∧ collectArchives conf outcome i items s
            = .error .archivingError { s with status := .error }) := by
  induction items generalizing i with
  | nil => exact Or.inl ⟨trivial, id, rfl⟩
  | cons item items ih =>
    unfold collectArchives CollectDone CollectRaises
    rcases processSource_cases conf (s := s) item (outcome.sources i) with
      ⟨hdone, hraise, hp⟩ | ⟨hdone, ⟨hraise, hp⟩ | ⟨hraise, hp⟩⟩
    · have herr : decide (s.status ∈ statusErrors) = false := by rw [hs]; decide
      rw [bind_of_ok hp, bind_of_ok (hasError_eq s), herr, if_neg Bool.false_ne_true]
      rcases ih (i + 1) with ⟨hrest, hrr, hc⟩ | ⟨hrest, ⟨hrr, hc⟩ | ⟨hrr, hc⟩⟩
      · refine Or.inl ⟨⟨hdone, hrest⟩, fun h => h.elim hraise fun h => hrr h.2, ?_⟩
        rw [bind_of_ok hc, List.filter_cons]
        cases bringsArchive item <;> rfl
      · exact Or.inr ⟨fun h => hrest h.2, Or.inl ⟨Or.inr ⟨hdone, hrr⟩, bind_of_error hc⟩⟩
      · exact Or.inr ⟨fun h => hrest h.2,
          Or.inr ⟨fun h => h.elim hraise fun h => hrr h.2, bind_of_error hc⟩⟩
    · exact Or.inr ⟨fun h => hdone h.1, Or.inl ⟨Or.inl hraise, bind_of_error hp⟩⟩
    · refine Or.inr ⟨fun h => hdone h.1,
        Or.inr ⟨fun h => h.elim hraise fun h => hdone h.1, ?_⟩⟩
      rw [bind_of_ok hp, bind_of_ok (hasError_eq _)]
      rfl

theorem extractArchives_cases (outcome : ItemsOutcome) (i count : ℕ) :
    ((∀ j < count, outcome.archives (i + j) = .extracted) ∧
        extractArchives outcome i count s = .ok () s) ∨
      (¬ ∀ j < count, outcome.archives (i + j) = .extracted) ∧
        ∃ e, extractArchives outcome i count s = .error e s := by
  induction count generalizing i with
  | zero => exact Or.inl ⟨fun j hj => absurd hj (Nat.not_lt_zero j), rfl⟩
  | succ count ih =>
    have hfail : outcome.archives i ≠ .extracted →
        ¬ ∀ j < count + 1, outcome.archives (i + j) = .extracted :=
      fun h hall => h (hall 0 (by omega))
    unfold extractArchives
    cases ha : outcome.archives i with
    | notTar => exact Or.inr ⟨hfail (by simp [ha]), _, rfl⟩
    | unsafeNames => exact Or.inr ⟨hfail (by simp [ha]), _, rfl⟩
    | raised => exact Or.inr ⟨hfail (by simp [ha]), _, rfl⟩
    | extracted =>
      have hshift : (∀ j < count, outcome.archives (i + 1 + j) = .extracted) ↔
          ∀ j < count + 1, outcome.archives (i + j) = .extracted := by
        constructor
        · intro h j hj
          cases j with
          | zero => exact ha
          | succ j =>
            have := h j (by omega)
            rwa [show i + 1 + j = i + (j + 1) by omega] at this
        · intro h j hj
          have := h (j + 1) (by omega)
          rwa [show i + (j + 1) = i + 1 + j by omega] at this
      dsimp only
      rcases ih (i + 1) with ⟨hall, hx⟩ | ⟨hall, e, hx⟩
      · exact Or.inl ⟨hshift.mp hall, hx⟩
      · exact Or.inr ⟨fun h => hall (hshift.mpr h), e, hx⟩

/-- The directory is filled, an archive leaves the state alone, or making
the directory fails. -/
theorem fillItemsDir_cases (outcome : ItemsOutcome) (count : ℕ) :
    ((∀ j < count, outcome.archives j = .extracted) ∧ (count = 0 → outcome.mkdir ≠ .failed) ∧
        fillItemsDir outcome count s = .ok () s) ∨
      (¬ (∀ j < count, outcome.archives j = .extracted) ∧
        ∃ e, fillItemsDir outcome count s = .error e s) ∨
      (∀ j < count, outcome.archives j = .extracted) ∧
        ¬ (count = 0 → outcome.mkdir ≠ .failed) ∧
        fillItemsDir outcome count s
          = .error .archivingError { s with status := .connectionError } := by
  unfold fillItemsDir
  by_cases hcount : count = 0
  · subst hcount
    rw [if_pos rfl]
    cases hm : outcome.mkdir with
    | failed => exact Or.inr (Or.inr ⟨by simp, by simp, rfl⟩)
    | created => exact Or.inl ⟨by simp, by simp, rfl⟩
    | alreadyExists => exact Or.inl ⟨by simp, by simp, rfl⟩
  · rw [if_neg hcount]
    rcases extractArchives_cases (s := s) outcome 0 count with ⟨hall, hx⟩ | ⟨hall, e, hx⟩
    · simp only [Nat.zero_add] at hall
      exact Or.inl ⟨hall, fun h => absurd h hcount, hx⟩
    · simp only [Nat.zero_add] at hall
      exact Or.inr (Or.inl ⟨hall, e, hx⟩)

variable (conf) in
theorem makeAnArchive_cases (hs : s.status = .building) (items : List (Option Source))
    (outcome : ItemsOutcome) :
    (ItemsDone conf items outcome ∧ ¬ ItemsStuck conf items outcome ∧
        makeAnArchive conf items outcome s = .ok () s) ∨
      ¬ ItemsDone conf items outcome ∧
        (ItemsStuck conf items outcome ∧ (∃ e, makeAnArchive conf items outcome s = .error e s) ∨
          ¬ ItemsStuck conf items outcome ∧ ∃ st ∈ statusErrors,
            makeAnArchive conf items outcome s = .error .archivingError { s with status := st }) := by
  unfold makeAnArchive ItemsStuck
  rcases collectArchives_cases conf hs outcome 0 items with
    ⟨hcol, hraise, hc⟩ | ⟨hcol, ⟨hraise, hc⟩ | ⟨hraise, hc⟩⟩
  · rw [bind_of_ok hc]
    rcases fillItemsDir_cases (s := s) outcome (items.filter bringsArchive).length with
      ⟨hall, hmade, hf⟩ | ⟨hall, e, hf⟩ | ⟨hall, hmade, hf⟩
    · rw [bind_of_ok hf]
      by_cases hp : outcome.packed = true
      · refine Or.inl ⟨⟨hcol, hall, hmade, hp⟩, ?_, by rw [if_pos hp]; rfl⟩
        rintro (h | ⟨-, h | ⟨-, h⟩⟩)
        · exact hraise h
        · exact h hall
        · rw [hp] at h
          cases h
      · have hp' : outcome.packed = false := by simpa using hp
        refine Or.inr ⟨fun h => hp h.packed, Or.inl ⟨Or.inr ⟨hcol, Or.inr ⟨hmade, hp'⟩⟩, .other, ?_⟩⟩
        rw [if_neg hp]
        rfl
    · rw [bind_of_error hf]
      exact Or.inr ⟨fun h => hall h.extracted, Or.inl ⟨Or.inr ⟨hcol, Or.inl hall⟩, e, rfl⟩⟩
    · rw [bind_of_error hf]
      refine Or.inr ⟨fun h => hmade h.made, Or.inr ⟨?_, .connectionError, by decide, rfl⟩⟩
      rintro (h | ⟨-, h | ⟨h, -⟩⟩)
      · exact hraise h
      · exact h hall
      · exact hmade h
  · rw [bind_of_error hc]
    exact Or.inr ⟨fun h => hcol h.collected, Or.inl ⟨Or.inl hraise, _, rfl⟩⟩
  · rw [bind_of_error hc]
    refine Or.inr ⟨fun h => hcol h.collected, Or.inr ⟨?_, .error, by decide, rfl⟩⟩
    rintro (h | h)
    · exact hraise h
    · exact hcol h.1

/-- A program of `builder` before the engine.  It goes on with the state it
found, or the attempt ends: with the status it had, or with an error
status. -/
def Passes (done stuck : Prop) (m : BuildM Bool) (s : Attempt) : Prop :=
  (done ∧ ¬ stuck ∧ m s = .ok true s) ∨
    ¬ done ∧ (stuck ∧ (m s = .ok false s ∨ ∃ e, m s = .error e s) ∨
      ¬ stuck ∧ ∃ st ∈ statusErrors, m s = .ok false { s with status := st })

variable (conf) in
theorem archived_passes (hs : s.status = .building) (items : List (Option Source))
    (outcome : ItemsOutcome) :
    Passes (ItemsDone conf items outcome) (ItemsStuck conf items outcome)
      (archived conf items outcome) s := by
  unfold archived
  rcases makeAnArchive_cases conf hs items outcome with
    ⟨hdone, hstuck, hm⟩ | ⟨hdone, ⟨hstuck, e, hm⟩ | ⟨hstuck, st, hst, hm⟩⟩
  · exact Or.inl ⟨hdone, hstuck, tryCatch_of_ok (by rw [bind_of_ok hm]; rfl)⟩
  · refine Or.inr ⟨hdone, Or.inl ⟨hstuck, ?_⟩⟩
    rw [tryCatch_of_error (bind_of_error hm)]
    cases e with
    | archivingError => exact Or.inl rfl
    | other => exact Or.inr ⟨_, rfl⟩
  · refine Or.inr ⟨hdone, Or.inr ⟨hstuck, st, hst, ?_⟩⟩
    rw [tryCatch_of_error (bind_of_error hm)]
    rfl

variable (conf) in
theorem processMainSource_passes (hs : s.status = .building) (image : Image ι)
    (outcome : AttemptOutcome) :
    Passes (MainDone conf image outcome)
      (∃ source, image.source = some source ∧ SourceRaises conf (some source) outcome.source)
      (processMainSource conf image outcome) s := by
  unfold processMainSource MainDone
  cases hsrc : image.source with
  | none => exact Or.inl ⟨fun source h => (nomatch h), by simp, rfl⟩
  | some source =>
    have hnb : decide (s.status ∈ statusErrors) = false := by rw [hs]; decide
    rcases processSource_cases conf (s := s) (some source) outcome.source with
      ⟨hdone, hraise, hp⟩ | ⟨hdone, ⟨hraise, hp⟩ | ⟨hraise, hp⟩⟩
    · refine Or.inl ⟨fun _ h => by cases h; exact hdone, ?_, ?_⟩
      · rintro ⟨_, h, hr⟩
        cases h
        exact hraise hr
      · dsimp only
        rw [bind_of_ok hp, bind_of_ok (hasError_eq s), hnb]
        rfl
    · refine Or.inr ⟨fun h => hdone (h source rfl), Or.inl ⟨⟨source, rfl, hraise⟩, Or.inr ⟨.other, ?_⟩⟩⟩
      dsimp only
      rw [bind_of_error hp]
    · refine Or.inr ⟨fun h => hdone (h source rfl), Or.inr ⟨?_, .error, by decide, ?_⟩⟩
      · rintro ⟨_, h, hr⟩
        cases h
        exact hraise hr
      · dsimp only
        rw [bind_of_ok hp, bind_of_ok (hasError_eq _)]
        rfl

/-! ## The engine -/

/-- The squash goes through, or overlooks a missing layer. -/
def SquashPasses (conf : Conf) (image : Image ι) (outcome : SquashOutcome) : Prop :=
  SquashAsked conf → outcome.lookup = true ∧
    (parentLastLayer image outcome.history = "" ∨ outcome.squashed = true)

variable (conf) in
theorem squashIfAsked_cases (hs : s.status = .building) (image : Image ι)
    (outcome : AttemptOutcome) :
    (SquashPasses conf image outcome.squash ∧
        ∃ s', squashIfAsked conf image outcome s = .ok () s') ∨
      ¬ SquashPasses conf image outcome.squash ∧
        ∃ e s', squashIfAsked conf image outcome s = .error e s' := by
  have hget : (MonadState.get : BuildM Attempt) s = .ok s s := rfl
  unfold squashIfAsked
  rw [bind_of_ok hget]
  by_cases hask : SquashAsked conf
  · have hne : s.status ≠ .error := by rw [hs]; decide
    rw [if_pos ⟨hne, hask⟩]
    unfold squash
    by_cases hl : outcome.squash.lookup = true
    · rw [if_pos hl]
      by_cases hlayer : parentLastLayer image outcome.squash.history = ""
      · exact Or.inl ⟨fun _ => ⟨hl, Or.inl hlayer⟩, _, by rw [if_pos hlayer]; rfl⟩
      · rw [if_neg hlayer]
        by_cases hsq : outcome.squash.squashed = true
        · exact Or.inl ⟨fun _ => ⟨hl, Or.inr hsq⟩, s, by rw [if_pos hsq]; rfl⟩
        · refine Or.inr ⟨fun h => ?_, .other, s, by rw [if_neg hsq]; rfl⟩
          rcases (h hask).2 with h | h
          · exact hlayer h
          · exact hsq h
    · exact Or.inr ⟨fun h => hl (h hask).1, .other, s, by rw [if_neg hl]; rfl⟩
  · rw [if_neg (fun h => hask h.2)]
    exact Or.inl ⟨fun h => absurd h hask, s, rfl⟩

variable (conf) in
/-- What the engine part leaves. -/
theorem runEngine_cases (hs : s.status = .building) (image : Image ι) (outcome : AttemptOutcome) :
    ∃ s', runEngine conf image outcome s = .ok () s' ∧
      (s'.status = .built ∨ s'.status = .error) ∧
      (s'.status = .built ↔ StreamDone outcome ∧ SquashPasses conf image outcome.squash) := by
  have hfail : ∀ e s₁, engineBody conf image outcome s = .error e s₁ →
      ∃ s', runEngine conf image outcome s = .ok () s' ∧ s'.status = .error := by
    intro e s₁ h
    have hcatch : (tryCatch (engineBody conf image outcome) fun _ => do
        setStatus .error
        return false) s = .ok false { s₁ with status := .error } := by
      rw [tryCatch_of_error h]
      rfl
    exact ⟨{ s₁ with status := .error }, bind_of_ok hcatch, rfl⟩
  have hbuilt : ∀ s₁, engineBody conf image outcome s = .ok true s₁ →
      ∃ s', runEngine conf image outcome s = .ok () s' ∧ s'.status = .built := by
    intro s₁ h
    exact ⟨{ s₁ with status := .built }, bind_of_ok (tryCatch_of_ok h), rfl⟩
  have hnot : ∀ {s' : Attempt}, s'.status = .error → ∀ {p : Prop}, ¬ p →
      (s'.status = .built ∨ s'.status = .error) ∧ (s'.status = .built ↔ p) := by
    intro s' hs' p hp
    rw [hs']
    exact ⟨Or.inr rfl, iff_of_false (by decide) hp⟩
  by_cases hc : outcome.client = true
  · have hbody : engineBody conf image outcome s
        = (if .errorDetail ∈ outcome.stream then do
            setStatus .error
            return false
          else if outcome.streamEnds then do
            squashIfAsked conf image outcome
            return true
          else
            throw .other : BuildM Bool) { s with engineCalled := true } := by
      unfold engineBody
      rw [if_pos hc]
      rfl
    by_cases hstream : StreamElement.errorDetail ∈ outcome.stream
    · rw [if_pos hstream] at hbody
      exact ⟨{ s with engineCalled := true, status := .error },
        bind_of_ok (tryCatch_of_ok hbody), hnot rfl fun h => h.1.output hstream⟩
    · rw [if_neg hstream] at hbody
      by_cases hends : outcome.streamEnds = true
      · rw [if_pos hends] at hbody
        rcases squashIfAsked_cases conf (s := { s with engineCalled := true }) hs image
          outcome with ⟨hpass, s', hsq⟩ | ⟨hpass, e, s', hsq⟩
        · obtain ⟨s', hrun, hst⟩ := hbuilt s' (by rw [hbody, bind_of_ok hsq]; rfl)
          exact ⟨s', hrun, Or.inl hst, iff_of_true hst ⟨⟨hc, hstream, hends⟩, hpass⟩⟩
        · obtain ⟨s', hrun, hst⟩ := hfail e s' (by rw [hbody, bind_of_error hsq])
          exact ⟨s', hrun, hnot hst fun h => hpass h.2⟩
      · obtain ⟨s', hrun, hst⟩ := hfail .other { s with engineCalled := true }
          (by rw [hbody, if_neg hends]; rfl)
        exact ⟨s', hrun, hnot hst fun h => hends h.1.ends⟩
  · obtain ⟨s', hrun, hst⟩ := hfail .other s (by
      unfold engineBody
      rw [if_neg hc]
      rfl)
    exact ⟨s', hrun, hnot hst fun h => hc h.1.client⟩

/-! ## The attempt -/

/-- After a part that passes or ends the attempt. -/
theorem Passes.bind {done stuck : Prop} {m : BuildM Bool} (h : Passes done stuck m s)
    (rest : BuildM Unit) :
    (done ∧ ¬ stuck ∧ (m >>= fun goOn => if goOn then rest else pure ()) s = rest s) ∨
      ¬ done ∧ (stuck ∧ ((m >>= fun goOn => if goOn then rest else pure ()) s = .ok () s ∨
            ∃ e, (m >>= fun goOn => if goOn then rest else pure ()) s = .error e s) ∨
          ¬ stuck ∧ ∃ st ∈ statusErrors, (m >>= fun goOn => if goOn then rest else pure ()) s
            = .ok () { s with status := st }) := by
  rcases h with ⟨hdone, hstuck, hm⟩ | ⟨hdone, ⟨hstuck, hm | ⟨e, hm⟩⟩ | ⟨hstuck, st, hst, hm⟩⟩
  · exact Or.inl ⟨hdone, hstuck, by rw [bind_of_ok hm]; rfl⟩
  · exact Or.inr ⟨hdone, Or.inl ⟨hstuck, Or.inl (by rw [bind_of_ok hm]; rfl)⟩⟩
  · exact Or.inr ⟨hdone, Or.inl ⟨hstuck, Or.inr ⟨e, by rw [bind_of_error hm]⟩⟩⟩
  · exact Or.inr ⟨hdone, Or.inr ⟨hstuck, st, hst, by rw [bind_of_ok hm]; rfl⟩⟩

variable (conf) in
/-- How an attempt ends.  It goes through to the engine, it leaves
`BUILDING`, or it leaves an error status. -/
theorem buildImage_cases (image : Image ι) (outcome : AttemptOutcome) :
    (¬ LeavesBuilding conf image outcome ∧
        ∃ s', buildImage conf image outcome ⟨.building, false⟩ = .ok () s' ∧
          (s'.status = .built ∨ s'.status = .error) ∧
          (s'.status = .built ↔
            BuildDone conf image outcome ∧ SquashPasses conf image outcome.squash)) ∨
      ¬ BuildDone conf image outcome ∧
        (LeavesBuilding conf image outcome ∧
            (buildImage conf image outcome ⟨.building, false⟩ = .ok () ⟨.building, false⟩ ∨
              ∃ e, buildImage conf image outcome ⟨.building, false⟩
                = .error e ⟨.building, false⟩) ∨
          ¬ LeavesBuilding conf image outcome ∧ ∃ st ∈ statusErrors,
            buildImage conf image outcome ⟨.building, false⟩ = .ok () ⟨st, false⟩) := by
  have hs : (⟨.building, false⟩ : Attempt).status = .building := rfl
  unfold LeavesBuilding
  rcases (processMainSource_passes conf hs image outcome).bind _ with
    ⟨hsrc, hss, h₁⟩ | ⟨hsrc, h₁⟩
  · rcases (archived_passes conf hs image.plugins outcome.plugins).bind _ with
      ⟨hplug, hps, h₂⟩ | ⟨hplug, h₂⟩
    · rcases (archived_passes conf hs image.additions outcome.additions).bind _ with
        ⟨hadd, has, h₃⟩ | ⟨hadd, h₃⟩
      · obtain ⟨s', hrun, hst, hiff⟩ := runEngine_cases conf hs image outcome
        refine Or.inl ⟨?_, s', h₁.trans (h₂.trans (h₃.trans hrun)), hst, hiff.trans ?_⟩
        · rintro (h | ⟨-, h | ⟨-, h⟩⟩)
          · exact hss h
          · exact hps h
          · exact has h
        · constructor
          · rintro ⟨hstream, hsq⟩
            exact ⟨⟨hsrc, hplug, hadd, hstream⟩, hsq⟩
          · rintro ⟨hbuild, hsq⟩
            exact ⟨hbuild.stream, hsq⟩
      · rw [← h₂, ← h₁] at h₃
        refine Or.inr ⟨fun h => hadd h.additions, h₃.imp (fun h => ?_) fun h => ?_⟩
        · exact ⟨Or.inr ⟨hsrc, Or.inr ⟨hplug, h.1⟩⟩, h.2⟩
        · exact ⟨fun hl => hl.elim hss fun hl => hl.2.elim hps fun hl => h.1 hl.2, h.2⟩
    · rw [← h₁] at h₂
      refine Or.inr ⟨fun h => hplug h.plugins, h₂.imp (fun h => ?_) fun h => ?_⟩
      · exact ⟨Or.inr ⟨hsrc, Or.inl h.1⟩, h.2⟩
      · exact ⟨fun hl => hl.elim hss fun hl => hl.2.elim h.1 fun hl => hplug hl.1, h.2⟩
  · refine Or.inr ⟨fun h => hsrc h.source, h₁.imp (fun h => ?_) fun h => ?_⟩
    · exact ⟨Or.inl h.1, h.2⟩
    · exact ⟨fun hl => hl.elim h.1 fun hl => hsrc hl.1, h.2⟩

/-- When an attempt ends `BUILT` and as a success. -/
theorem attemptResult_built_iff (image : Image ι) (outcome : AttemptOutcome) :
    attemptResult conf image outcome = (.built, true) ↔
      BuildDone conf image outcome ∧ SquashPasses conf image outcome.squash := by
  rw [attemptResult]
  rcases buildImage_cases conf image outcome with
    ⟨-, s', h, -, hiff⟩ | ⟨hdone, ⟨-, h | ⟨e, h⟩⟩ | ⟨-, st, hst, h⟩⟩
  · rw [h, ← hiff]
    refine ⟨fun heq => (Prod.mk.inj heq).1, fun hst => ?_⟩
    simp [hst, buildSucceeded]
  · rw [h]
    exact iff_of_false (by simp) fun hd => hdone hd.1
  · rw [h]
    exact iff_of_false (by simp) fun hd => hdone hd.1
  · rw [h]
    refine iff_of_false (fun heq => ?_) fun hd => hdone hd.1
    obtain rfl : st = .built := (Prod.mk.inj heq).1
    revert hst
    decide

/-- When an attempt leaves `BUILDING`; otherwise it leaves `BUILT` or an
error status. -/
theorem attemptResult_building_iff (image : Image ι) (outcome : AttemptOutcome) :
    ((attemptResult conf image outcome).1 = .building ↔ LeavesBuilding conf image outcome) ∧
      ((attemptResult conf image outcome).1 ≠ .building →
        (attemptResult conf image outcome).1 = .built ∨
          (attemptResult conf image outcome).1 ∈ statusErrors) := by
  rw [attemptResult]
  rcases buildImage_cases conf image outcome with
    ⟨hl, s', h, hst, -⟩ | ⟨-, ⟨hl, h | ⟨e, h⟩⟩ | ⟨hl, st, hst, h⟩⟩
  · rw [h]
    rcases hst with hst | hst
    · exact ⟨iff_of_false (by simp [hst]) hl, fun _ => Or.inl hst⟩
    · exact ⟨iff_of_false (by simp [hst]) hl, fun _ => Or.inr (by simp [hst, statusErrors])⟩
  · rw [h]
    exact ⟨iff_of_true rfl hl, fun hne => absurd rfl hne⟩
  · rw [h]
    exact ⟨iff_of_true rfl hl, fun hne => absurd rfl hne⟩
  · rw [h]
    refine ⟨iff_of_false ?_ hl, fun _ => Or.inr hst⟩
    rintro rfl
    revert hst
    decide

/-- An attempt that ends `BUILT` and as a success went through all its
steps, unless it missed the last layer of the parent. -/
theorem built_only_if_done_iff (conf : Conf) (image : Image ι) (outcome : AttemptOutcome) :
    (attemptResult conf image outcome = (.built, true) → StepsDone conf image outcome) ↔
      ¬ LayerMissed conf image outcome := by
  rw [attemptResult_built_iff]
  constructor
  · rintro h ⟨hbuild, hask, hl, hmiss⟩
    exact ((h ⟨hbuild, fun _ => ⟨hl, Or.inl hmiss⟩⟩).squash hask).layer hmiss
  · rintro h ⟨hbuild, hpass⟩
    refine ⟨hbuild, fun hask => ?_⟩
    obtain ⟨hl, hmiss | hsq⟩ := hpass hask
    · exact absurd ⟨hbuild, hask, hl, hmiss⟩ h
    · exact ⟨hl, fun hmiss => h ⟨hbuild, hask, hl, hmiss⟩, hsq⟩

end Steps

/-! ## A squash that loses the base -/

/-- The outcome of an attempt in which no layer of the parent's history
carries its name, and everything else works. -/
def missedOutcome : AttemptOutcome where
  source := ⟨.timeout, .cloned, true, true⟩
  plugins := ⟨fun _ => ⟨.timeout, .cloned, true, true⟩, fun _ => .extracted, .created, true⟩
  additions := ⟨fun _ => ⟨.timeout, .cloned, true, true⟩, fun _ => .extracted, .created, true⟩
  client := true
  stream := [.output]
  streamEnds := true
  squash := { lookup := true, history := [⟨some ["other"], "sha256:1"⟩], squashed := true }

/-- Docker with squash. -/
def squashConf : Conf where
  retries := 0
  push := false
  threads := 1
  pushThreads := 1
  engine := .docker
  squash := true
  debianArch := "amd64"
  sha256 _ := ""

def childImage : Image (Fin 2) := freshImage "nova" "kolla/nova" "kolla/base"

/-- The image is not squashed, and the attempt is a success. -/
theorem missed_layer_built :
    attemptResult squashConf childImage missedOutcome = (.built, true) ∧
      ¬ StepsDone squashConf childImage missedOutcome := by
  refine ⟨rfl, fun h => ?_⟩
  exact (h.squash ⟨rfl, rfl⟩).layer (by decide)

end Kolla.Build
