import Kolla.SetConfigs.ConfigFile
import Mathlib.Data.List.Sort

/-!
# One start of a container

The functions of `docker/base/set_configs.py` that a start goes through:
the defaults state with its restore and backup phases, the copying of the
configuration, and the strategies.  The last section has the two checks of
`--check`.
-/

namespace Kolla.SetConfigs

open Kolla.Lib

variable {β : Type}

/-- The object in `config.json`. -/
structure Config where
  command : Key String
  configFiles : Option (List Entry)
  permissions : Option (List Permission)
deriving DecidableEq, Repr

/-- The default of `config.get('config_files', list())`. -/
def Config.files (config : Config) : List Entry := config.configFiles.getD []

def kollaDefaults : Path := ["", "etc", "kolla", "defaults"]

def kollaDefaultsState : Path := kollaDefaults ++ ["state"]

/-! ## `validate_config` -/

def validateEntry (data : Entry) : Os β Unit :=
  if data.source.present = false ∨ data.dest.present = false then
    throw (.invalidConfig "Config is missing required keys: \x7b'source', 'dest'\x7d")
  else if (data.owner.present = false ∨ data.perm.present = false) ∧
      data.preserveProperties.truthy = false then
    throw (.invalidConfig "Config needs preserve_properties or owner and perm")
  else pure ()

def validateConfig (config : Config) : Os β Unit := do
  if config.command.present = false then
    throw (.invalidConfig "Config is missing required \"command\" key")
  else config.files.forM validateEntry

namespace System

variable (sys : System β)

/-! ## The defaults state -/

def getDefaultsState : Os β State := do
  sys.makedirs kollaDefaults true
  let t ← tree
  if sys.pathExists t kollaDefaultsState then do
    let content ← sys.openRead kollaDefaultsState
    match sys.codec.loads content with
    | some state => pure state
    | none => throw .valueError
  else pure []

def setDefaultsState (state : State) : Os β Unit :=
  sys.writeFile kollaDefaultsState (sys.codec.dumps state)

/-- Removing a path that did not exist when it was recorded. -/
def removeConfig (k : Path) : Os β Unit := do
  let t ← tree
  if sys.pathExists t k then
    if sys.isfile t k then sys.remove k else sys.rmtree k
  else pure ()

/-- One iteration of `remove_or_restore_configs`: the entry afterwards. -/
def removeOrRestore (k : Path) (v : StateEntry) : Os β StateEntry :=
  match v.dest with
  | none => do
    sys.removeConfig k
    pure v
  | some dest => do
    let v : StateEntry := { source := dest, dest := some v.source }
    v.configFile.copy sys
    pure v

def removeOrRestoreConfigs : State → Os β State
  | [] => pure []
  | (k, v) :: state => do
    let v ← sys.removeOrRestore k v
    let state ← removeOrRestoreConfigs state
    pure ((k, v) :: state)

/-- The path that `backup_configs` records for an entry. -/
def recordedPath (dest source : Path) : Path :=
  if Path.endswithSep dest then dest.concat [source.getLastD ""] else dest

/-- `backup_configs` for an entry whose `dest` is not recorded: `dst` is the
path to record. -/
def backupPath (src dst : Path) (state : State) : Os β State := do
  let t ← tree
  if sys.pathExists t src then
    if sys.pathExists t dst then
      if dst ∈ state.keys then pure state
      else do
        let copy : StateEntry := { source := dst, dest := some (kollaDefaults.concat dst) }
        copy.configFile.copy sys
        pure (state.insert dst copy)
    else if dst ∈ state.keys then pure state
    else pure (state.insert dst { source := dst, dest := none })
  else pure state

/-- One iteration of `backup_configs`. -/
def backupConfig (state : State) (data : Entry) : Os β State := do
  let dest ← data.dest.item
  if (dest.map fun dest => decide (dest ∈ state.keys)).getD false then pure state
  else do
    let src ← data.source.item
    match dest, src with
    | some dest, some src => sys.backupPath src (recordedPath dest src) state
    | none, _ => throw .attributeError
    | some dest, none =>
      if Path.endswithSep dest then throw .attributeError else throw .typeError

def backupConfigs (config : Config) (state : State) : Os β State :=
  config.files.foldlM sys.backupConfig state

def handleDefaults (config : Config) : Os β Unit := do
  let state ← sys.getDefaultsState
  let state ← sys.removeOrRestoreConfigs state
  let state ← sys.backupConfigs config state
  sys.setDefaultsState state

/-! ## Copying -/

/-- The file that the command is written to. -/
def runCommand : Path := ["", "run_command"]

def copyConfig (config : Config) : Os β Unit := do
  config.files.forM fun data => do
    let configFile ← data.configFile
    configFile.copy sys
  let command ← config.command.item
  let loc ← sys.openWrite runCommand
  match command with
  | none => throw .typeError
  | some command => do
    write loc (sys.codec.encode command)
    logOSError (sys.chmod runCommand 0o644)

/-- The marker of `COPY_ONCE`. -/
def configuredMark : Path := ["", "configured"]

/-- `execute_config_strategy(config)`, given the environment variable
`KOLLA_CONFIG_STRATEGY`. -/
def executeConfigStrategy (configStrategy : Option String) (config : Config) : Os β Unit :=
  if configStrategy = some "COPY_ALWAYS" then do
    sys.handleDefaults config
    sys.copyConfig config
    sys.handlePermissions (config.permissions.getD [])
  else if configStrategy = some "COPY_ONCE" then do
    let t ← tree
    if sys.pathExists t configuredMark then throw .immutableConfig
    else do
      sys.handleDefaults config
      sys.copyConfig config
      sys.handlePermissions (config.permissions.getD [])
      sys.mknod configuredMark
  else throw (.invalidConfig "KOLLA_CONFIG_STRATEGY is not set properly")

/-! ## Checking -/

def executeCommandCheck (config : Config) : Os β Unit := do
  let content ← sys.openRead runCommand
  match sys.codec.decode content with
  | none => throw .valueError
  | some cmdRunning =>
    match config.command.get with
    | none => throw .typeError
    | some cmd =>
      if cmd ≠ cmdRunning then throw (.configFileCommandDiffers (some cmd) (some cmdRunning))
      else pure ()

/-- The destination of one entry in `current_dests`, if the entry names
one. -/
def currentDest (entry : Entry) : Os β (Option Path) :=
  match entry.dest.get with
  | none => pure none
  | some dest =>
    if dest = [""] then pure none
    else if Path.endswithSep dest then do
      let source ← entry.source.item
      match source with
      | some source => pure (some (Path.join dest [Path.basename source]))
      | none => throw .typeError
    else pure (some dest)

/-- The set `current_dests`. -/
def currentDests : List Entry → Os β (List Path)
  | [] => pure []
  | entry :: entries => do
    let dest ← currentDest entry
    let dests ← currentDests entries
    pure (dest.toList ++ dests)

def executeConfigCheck [DecidableEq β] (config : Config) : Os β Unit := do
  let state ← sys.getDefaultsState
  let dests ← currentDests config.files
  let removedDests := state.keys.filter (· ∉ dests)
  if removedDests ≠ [] then
    throw (.stateMismatch (removedDests.insertionSort fun a b => a.text ≤ b.text))
  else
    config.files.forM fun data => do
      let configFile ← data.configFile
      configFile.check sys

end System

end Kolla.SetConfigs
