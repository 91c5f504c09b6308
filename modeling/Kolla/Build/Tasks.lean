import Kolla.Lib.Program
import Kolla.Build.KollaWorker

/-!
# Building and pushing one image

`kolla/image/tasks.py`: one attempt at building an image (`BuildTask`) and
one attempt at pushing it (`PushTask`).

Downloads, clones, archives and the container engine are outside the
program.  What they do in one attempt is an outcome: a plain record that
the model is given.  `AttemptOutcome` belongs to one call of `builder` and
`PushOutcome` to one call of `push_image`.

A program of this module runs in `BuildM`: its state is the image's
`status` field together with a mark that the engine was asked to build.
-/

namespace Kolla.Build

open Kolla.Lib

/-- `conf.engine`. -/
inductive Engine
  | docker
  | podman
  deriving DecidableEq, Repr

/-- The configuration that the tasks and the worker threads read. `sha256`
is `hashlib.sha256(..).hexdigest()`. -/
structure Conf where
  retries : ℕ
  push : Bool
  threads : ℕ
  pushThreads : ℕ
  engine : Engine
  squash : Bool
  debianArch : String
  sha256 : List UInt8 → String

/-- The exceptions of this module: `ArchivingError`, which `builder`
catches, and all others. -/
inductive PyError
  | archivingError
  | other
  deriving DecidableEq, Repr

/-- The state of one attempt. -/
structure Attempt where
  status : Status
  engineCalled : Bool

abbrev BuildM := EStateM PyError Attempt

/-- `image.status = status`. -/
def setStatus (status : Status) : BuildM Unit :=
  modify fun s => { s with status := status }

/-- `image.status in STATUS_ERRORS`. -/
def hasError : BuildM Bool := do
  return decide ((← get).status ∈ statusErrors)

/-! ## Outcomes -/

/-- What `requests.get` does. -/
inductive GetOutcome
  | timeout
  | raised
  | response (statusCode : ℕ) (content : List UInt8)

/-- What the clone and the checkout do.  After a failure the clone
directory is removed, which raises when there is none. -/
inductive GitOutcome
  | cloned
  | failed (cloneDirLeft : Bool)

/-- One call of `process_source`.  `prepared` says that removing a stale
clone directory did not raise, and `stored` that writing the archive and
setting its time did not. -/
structure SourceOutcome where
  get : GetOutcome
  git : GitOutcome
  prepared : Bool
  stored : Bool

/-- What happens to one received archive in `make_an_archive`. -/
inductive ArchiveOutcome
  | notTar
  | unsafeNames
  | raised
  | extracted

/-- What `os.mkdir` does. -/
inductive MkdirOutcome
  | created
  | alreadyExists
  | failed

/-- One call of `make_an_archive`; the `i`-th entry of a list of outcomes
belongs to the `i`-th item. -/
structure ItemsOutcome where
  sources : ℕ → SourceOutcome
  archives : ℕ → ArchiveOutcome
  mkdir : MkdirOutcome
  packed : Bool

/-- An element of the engine's build stream, by whether it carries an
`errorDetail`. -/
inductive StreamElement
  | output
  | errorDetail
  deriving DecidableEq

/-- An entry of an image history. -/
structure Layer where
  tags : Option (List String)
  id : String

/-- The steps of `squash`: the lookups, the parent's history and the
`docker-squash` command. -/
structure SquashOutcome where
  lookup : Bool
  history : List Layer
  squashed : Bool

/-- One call of `builder` past the parent check.  `client` says that there
is an engine client, and `streamEnds` that the build stream ends without
an exception. -/
structure AttemptOutcome where
  source : SourceOutcome
  plugins : ItemsOutcome
  additions : ItemsOutcome
  client : Bool
  stream : List StreamElement
  streamEnds : Bool
  squash : SquashOutcome

/-! ## Sources -/

section Sources

variable (conf : Conf)

/-- The `url` branch of `process_source`: whether the archive was
received. -/
def fetchUrl (source : Source) (outcome : GetOutcome) : BuildM Bool :=
  match outcome with
  | .timeout => do
    setStatus .error
    return false
  | .raised => throw .other
  | .response statusCode content =>
    if statusCode = 200 then
      if source.sha256 = [] then
        return true
      else
        match List.lookup conf.debianArch source.sha256 with
        | none => throw .other
        | some confSha =>
          if confSha ≠ conf.sha256 content then do
            setStatus .error
            return false
          else
            return true
    else do
      setStatus .error
      return false

/-- The `git` branch of `process_source`. -/
def cloneGit (outcome : SourceOutcome) : BuildM Bool :=
  if outcome.prepared then
    match outcome.git with
    | .cloned => return true
    | .failed cloneDirLeft =>
      if cloneDirLeft then do
        setStatus .error
        return false
      else
        throw .other
  else
    throw .other

/-- The three branches of `process_source`. -/
def receive (source : Source) (outcome : SourceOutcome) : BuildM Bool :=
  match source.type with
  | .url => fetchUrl conf source outcome.get
  | .git => cloneGit outcome
  | .local => return true

/-- `BuildTask.process_source`: whether it returned the path of an archive.
An empty installation has no key `enabled`. -/
def processSource (source : Option Source) (outcome : SourceOutcome) : BuildM Bool :=
  match source with
  | none => throw .other
  | some source =>
    if source.enabled then do
      let received ← receive conf source outcome
      if received then
        if outcome.stored then return true else throw .other
      else
        return false
    else
      return false

/-- The first loop of `make_an_archive`: how many archives there are. -/
def collectArchives (outcome : ItemsOutcome) : ℕ → List (Option Source) → BuildM ℕ
  | _, [] => return 0
  | i, item :: items => do
    let archive ← processSource conf item (outcome.sources i)
    if ← hasError then
      throw .archivingError
    else do
      let rest ← collectArchives outcome (i + 1) items
      return if archive then rest + 1 else rest

/-- The second loop of `make_an_archive`. -/
def extractArchives (outcome : ItemsOutcome) : ℕ → ℕ → BuildM Unit
  | _, 0 => return ()
  | i, count + 1 =>
    match outcome.archives i with
    | .notTar => throw .archivingError
    | .unsafeNames => throw .archivingError
    | .raised => throw .other
    | .extracted => extractArchives outcome (i + 1) count

/-- The directory that is made when there is no archive. -/
def makeItemsDir (outcome : MkdirOutcome) : BuildM Unit :=
  match outcome with
  | .created => return ()
  | .alreadyExists => return ()
  | .failed => do
    setStatus .connectionError
    throw .archivingError

/-- The directory of the items, filled from the archives if there are any. -/
def fillItemsDir (outcome : ItemsOutcome) (count : ℕ) : BuildM Unit :=
  if count = 0 then makeItemsDir outcome.mkdir else extractArchives outcome 0 count

/-- `make_an_archive` in `builder`. -/
def makeAnArchive (items : List (Option Source)) (outcome : ItemsOutcome) : BuildM Unit := do
  let count ← collectArchives conf outcome 0 items
  fillItemsDir outcome count
  if outcome.packed then return () else throw .other

end Sources

/-! ## The engine -/

section Engine

variable {ι : Type} (conf : Conf) (image : Image ι) (outcome : AttemptOutcome)

/-- The last layer of the parent: the first layer of its history that
carries the parent's name. -/
def parentLastLayer (history : List Layer) : String :=
  match history.find? (fun layer => (layer.tags.getD []).contains image.parentName) with
  | some layer => layer.id
  | none => ""

/-- `BuildTask.squash`. -/
def squash (outcome : SquashOutcome) : BuildM Unit :=
  if outcome.lookup then
    if parentLastLayer image outcome.history = "" then
      setStatus .error
    else if outcome.squashed then
      return ()
    else
      throw .other
  else
    throw .other

/-- `squash` after a build stream without an error. -/
def squashIfAsked : BuildM Unit := do
  let s ← get
  if s.status ≠ .error ∧ conf.squash = true ∧ conf.engine = .docker then
    squash image outcome.squash
  else
    return ()

/-- The body of the `try` statement around the engine: whether it ran to
its end, without the `return` on an `errorDetail`. -/
def engineBody : BuildM Bool :=
  if outcome.client then do
    modify fun s => { s with engineCalled := true }
    if .errorDetail ∈ outcome.stream then do
      setStatus .error
      return false
    else if outcome.streamEnds then do
      squashIfAsked conf image outcome
      return true
    else
      throw .other
  else
    throw .other

/-- The `try` statement around the engine: both handlers set `ERROR`, and
the `else` branch sets `BUILT`. -/
def runEngine : BuildM Unit := do
  let completed ← tryCatch (engineBody conf image outcome) fun _ => do
    setStatus .error
    return false
  if completed then setStatus .built

/-! ## One attempt -/

/-- The main source: whether `builder` goes on.  An image without a source
location has an empty installation. -/
def processMainSource : BuildM Bool :=
  match image.source with
  | none => return true
  | some source => do
    let _ ← processSource conf (some source) outcome.source
    return !(← hasError)

/-- `except ArchivingError` around `make_an_archive`: whether `builder` goes
on. -/
def archived (items : List (Option Source)) (outcome : ItemsOutcome) : BuildM Bool :=
  tryCatch (do makeAnArchive conf items outcome; return true) fun e =>
    match e with
    | .archivingError => return false
    | .other => throw .other

/-- `BuildTask.builder` from the point where the status is `BUILDING`. -/
def buildImage : BuildM Unit := do
  if ← processMainSource conf image outcome then
    if ← archived conf image.plugins outcome.plugins then
      if ← archived conf image.additions outcome.additions then
        runEngine conf image outcome

end Engine

/-- The statuses with which `builder` returns at once. -/
def skipsBuild (status : Status) : Bool :=
  decide (status ∈ [Status.skipped, .unbuildable, .unmatched])

/-- The parent check of `builder`. -/
def parentFailed (parent : Option Status) : Bool :=
  match parent with
  | none => false
  | some status => decide (status ∈ statusErrors)

/-- The test by which `BuildTask.run` sets `success`. -/
def buildSucceeded (status : Status) : Bool :=
  decide (status ∈ [Status.built, .skipped])

/-! ## Pushing -/

/-- A response of the engine to a push. -/
inductive PushResponse
  | stream
  | errorDetail
  | other
  deriving DecidableEq

/-- An exception that ends the responses. -/
inductive PushRaised
  | connectionError
  | other

/-- One call of `push_image`. -/
structure PushOutcome where
  responses : List PushResponse
  raised : Option PushRaised

/-- The status after `push_image` and the handlers of `PushTask.run`. -/
def pushStatus (outcome : PushOutcome) : Status :=
  if .errorDetail ∈ outcome.responses then
    .pushError
  else
    match outcome.raised with
    | some .connectionError => .connectionError
    | some .other => .pushError
    | none => .built

/-- The test by which `PushTask.run` sets `success`. -/
def pushSucceeded (status : Status) : Bool :=
  decide (status ∉ statusErrors) && decide (status ≠ .unprocessed)

/-! ## The statuses an attempt can leave -/

section Statuses

variable {ι : Type}

/-- The statuses that `buildImage` can leave. -/
abbrev BuildStatus (status : Status) : Prop :=
  status ∈ [Status.building, .error, .connectionError, .built]

/-- The program leaves a status of a build wherever it ends. -/
def KeepsBuildStatus {α : Type} (m : BuildM α) : Prop :=
  Triple (fun s => BuildStatus s.status) m (fun _ s => BuildStatus s.status)
    (fun _ s => BuildStatus s.status)

namespace KeepsBuildStatus

variable {α β : Type}

theorem pure (a : α) : KeepsBuildStatus (Pure.pure a) :=
  Triple.pure fun _ hs => hs

theorem throw (e : PyError) : KeepsBuildStatus (throw e : BuildM α) :=
  Triple.throw fun _ hs => hs

theorem get : KeepsBuildStatus MonadState.get :=
  Triple.get fun _ hs => hs

theorem assign {status : Status} (h : BuildStatus status) :
    KeepsBuildStatus (setStatus status) :=
  Triple.modify fun _ _ => h

theorem bind {m : BuildM α} {f : α → BuildM β} (hm : KeepsBuildStatus m)
    (hf : ∀ a, KeepsBuildStatus (f a)) : KeepsBuildStatus (m >>= f) :=
  Triple.bind hm hf

theorem tryCatch {m : BuildM α} {f : PyError → BuildM α} (hm : KeepsBuildStatus m)
    (hf : ∀ e, KeepsBuildStatus (f e)) : KeepsBuildStatus (tryCatch m f) :=
  Triple.tryCatch hm hf

theorem ite {c : Prop} [Decidable c] {m m' : BuildM α} (hm : KeepsBuildStatus m)
    (hm' : KeepsBuildStatus m') : KeepsBuildStatus (if c then m else m') :=
  Triple.ite (fun _ => hm) (fun _ => hm')

end KeepsBuildStatus

theorem hasError_keeps : KeepsBuildStatus hasError :=
  .bind .get fun _ => .pure _

theorem failed_keeps {status : Status} (h : BuildStatus status) :
    KeepsBuildStatus (do setStatus status; return false) :=
  .bind (.assign h) fun _ => .pure _

theorem receive_keeps (conf : Conf) (source : Source) (outcome : SourceOutcome) :
    KeepsBuildStatus (receive conf source outcome) := by
  have herr : BuildStatus .error := by decide
  unfold receive
  cases source.type with
  | url =>
    unfold fetchUrl
    cases outcome.get with
    | timeout => exact failed_keeps herr
    | raised => exact .throw _
    | response statusCode content =>
      refine .ite (.ite (.pure _) ?_) (failed_keeps herr)
      cases List.lookup conf.debianArch source.sha256 with
      | none => exact .throw _
      | some confSha => exact .ite (failed_keeps herr) (.pure _)
  | git =>
    refine .ite ?_ (.throw _)
    cases outcome.git with
    | cloned => exact .pure _
    | failed cloneDirLeft => exact .ite (failed_keeps herr) (.throw _)
  | «local» => exact .pure _

theorem processSource_keeps (conf : Conf) (source : Option Source) (outcome : SourceOutcome) :
    KeepsBuildStatus (processSource conf source outcome) := by
  cases source with
  | none => exact .throw _
  | some source =>
    exact .ite (.bind (receive_keeps conf source outcome) fun _ =>
      .ite (.ite (.pure _) (.throw _)) (.pure _)) (.pure _)

theorem collectArchives_keeps (conf : Conf) (outcome : ItemsOutcome) (i : ℕ)
    (items : List (Option Source)) : KeepsBuildStatus (collectArchives conf outcome i items) := by
  induction items generalizing i with
  | nil => exact .pure _
  | cons item items ih =>
    exact .bind (processSource_keeps conf item _) fun _ => .bind hasError_keeps fun _ =>
      .ite (.throw _) (.bind (ih (i + 1)) fun _ => .pure _)

theorem extractArchives_keeps (outcome : ItemsOutcome) (i count : ℕ) :
    KeepsBuildStatus (extractArchives outcome i count) := by
  induction count generalizing i with
  | zero => exact .pure _
  | succ count ih =>
    unfold extractArchives
    cases outcome.archives i with
    | notTar => exact .throw _
    | unsafeNames => exact .throw _
    | raised => exact .throw _
    | extracted => exact ih (i + 1)

theorem makeAnArchive_keeps (conf : Conf) (items : List (Option Source))
    (outcome : ItemsOutcome) : KeepsBuildStatus (makeAnArchive conf items outcome) := by
  have hmkdir : KeepsBuildStatus (makeItemsDir outcome.mkdir) := by
    cases outcome.mkdir with
    | created => exact .pure _
    | alreadyExists => exact .pure _
    | failed => exact .bind (.assign (by decide)) fun _ => .throw _
  exact .bind (collectArchives_keeps conf outcome 0 items) fun count =>
    .bind (.ite hmkdir (extractArchives_keeps outcome 0 count)) fun _ =>
      .ite (.pure _) (.throw _)

theorem archived_keeps (conf : Conf) (items : List (Option Source)) (outcome : ItemsOutcome) :
    KeepsBuildStatus (archived conf items outcome) := by
  refine .tryCatch (.bind (makeAnArchive_keeps conf items outcome) fun _ => .pure _) fun e => ?_
  cases e with
  | archivingError => exact .pure _
  | other => exact .throw _

theorem runEngine_keeps (conf : Conf) (image : Image ι) (outcome : AttemptOutcome) :
    KeepsBuildStatus (runEngine conf image outcome) := by
  have herr : BuildStatus .error := by decide
  have hmark : KeepsBuildStatus
      (modify fun s : Attempt => { s with engineCalled := true }) :=
    Triple.modify fun _ hs => hs
  have hsquash : KeepsBuildStatus (squash image outcome.squash) :=
    .ite (.ite (.assign herr) (.ite (.pure _) (.throw _))) (.throw _)
  have hasked : KeepsBuildStatus (squashIfAsked conf image outcome) :=
    .bind .get fun _ => .ite hsquash (.pure _)
  have hbody : KeepsBuildStatus (engineBody conf image outcome) :=
    .ite (.bind hmark fun _ => .ite (failed_keeps herr)
      (.ite (.bind hasked fun _ => .pure _) (.throw _))) (.throw _)
  exact .bind (.tryCatch hbody fun _ => failed_keeps herr) fun _ =>
    .ite (.assign (by decide)) (.pure _)

/-- Past the parent check an attempt leaves `BUILDING`, `ERROR`,
`CONNECTION_ERROR` or `BUILT`, whether it returns or raises. -/
theorem buildImage_keeps (conf : Conf) (image : Image ι) (outcome : AttemptOutcome) :
    KeepsBuildStatus (buildImage conf image outcome) := by
  have hmain : KeepsBuildStatus (processMainSource conf image outcome) := by
    unfold processMainSource
    cases image.source with
    | none => exact .pure _
    | some source =>
      exact .bind (processSource_keeps conf _ _) fun _ =>
        .bind hasError_keeps fun _ => .pure _
  exact .bind hmain fun _ => .ite
    (.bind (archived_keeps conf _ _) fun _ => .ite
      (.bind (archived_keeps conf _ _) fun _ => .ite (runEngine_keeps conf image outcome) (.pure _))
      (.pure _))
    (.pure _)

end Statuses

end Kolla.Build
