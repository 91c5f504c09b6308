import Kolla.SetConfigs.Permissions

/-!
# `ConfigFile`

The class `ConfigFile` of `docker/base/set_configs.py`: `copy` puts a
source in place of its destination, and `check` compares the two.
-/

namespace Kolla.SetConfigs

open Kolla.Lib

variable {β : Type}

structure ConfigFile where
  source : Option Path
  dest : Option Path
  owner : Option String
  perm : Option String
  optional : Bool
  preserveProperties : Bool
  merge : Bool
deriving DecidableEq, Repr

/-- An entry of `config_files`. `unknown` are the keys that `ConfigFile`
does not take. -/
structure Entry where
  source : Key Path
  dest : Key Path
  owner : Key String
  perm : Key String
  optional : Key Bool
  preserveProperties : Key Bool
  merge : Key Bool
  unknown : List String
deriving DecidableEq, Repr

/-- `ConfigFile(**data)` for an entry of `config_files`. -/
def Entry.configFile (data : Entry) : Os β ConfigFile :=
  if data.unknown ≠ [] ∨ data.source.present = false ∨ data.dest.present = false then
    throw .typeError
  else
    pure
      { source := data.source.get
        dest := data.dest.get
        owner := data.owner.get
        perm := data.perm.get
        optional := data.optional.truthy
        preserveProperties := data.preserveProperties.truthy
        merge := data.merge.truthy }

/-- `ConfigFile(**v)` for an entry of the defaults state. -/
def StateEntry.configFile (v : StateEntry) : ConfigFile :=
  { source := some v.source
    dest := v.dest
    owner := none
    perm := none
    optional := false
    preserveProperties := true
    merge := false }

namespace ConfigFile

variable (sys : System β) (self : ConfigFile)

/-! ## `copy` -/

/-- `_delete_path(path)`. -/
def deletePath (path : Path) : Os β Unit := do
  let t ← tree
  if sys.lexists t path = false then pure ()
  else if sys.isdir t path then sys.rmtree path
  else sys.remove path

/-- `_create_parent_dirs(path)`. -/
def createParentDirs (path : Path) : Os β Unit := do
  let t ← tree
  when (sys.pathExists t (Path.dirname path) = false) (sys.makedirs (Path.dirname path) false)

/-- `_set_properties_from_file(source, dest)`. -/
def setPropertiesFromFile (source dest : Path) : Os β Unit := do
  sys.copystat source dest
  let st ← sys.stat source
  sys.chown dest st.attr.uid st.attr.gid

/-- `_set_properties_from_conf(path)`. -/
def setPropertiesFromConf (path : Path) : Os β Unit :=
  sys.handlePermissions
    [{ path := .given path
       owner := Key.ofOption self.owner
       recurse := .absent
       perm := Key.ofOption self.perm
       exclude := .absent }]

/-- `_set_properties(source, dest)`. -/
def setProperties (source dest : Path) : Os β Unit :=
  if self.preserveProperties then setPropertiesFromFile sys source dest
  else self.setPropertiesFromConf sys dest

/-- `_copy_file(source, dest)`. -/
def copyFile (source dest : Path) : Os β Unit := do
  deletePath sys dest
  let t ← tree
  if self.merge && self.preserveProperties && sys.islink t source then do
    let linkTarget ← sys.readlink source
    sys.symlink linkTarget dest
  else do
    sys.copy source dest
    self.setProperties sys source dest

/-- `_merge_directories(source, dest)`, as deep as the interpreter allows. -/
def mergeDirectories : ℕ → Path → Path → Os β Unit
  | 0, _, _ => throw .recursionError
  | n + 1, source, dest => do
    let t ← tree
    if sys.isdir t source then do
      when (sys.lexists t dest ∧ sys.isdir t dest = false) (deletePath sys dest)
      let t ← tree
      when (sys.isdir t dest = false) (sys.makedirs dest false)
      self.setProperties sys source dest
      let dirContent ← sys.listdir source
      dirContent.forM fun toCopy =>
        mergeDirectories n (Path.join source [toCopy]) (Path.join dest [toCopy])
    else self.copyFile sys source dest

/-- Where a source goes: with a slash at its end, `dest` is a directory to
copy into. -/
def target (dest source : Path) : Path :=
  if Path.endswithSep dest then Path.join dest [Path.basename source] else dest

/-- One iteration of `copy`. -/
def copySource (source : Path) : Os β Unit :=
  match self.dest with
  | none => throw .attributeError
  | some dest => do
    let dest := target dest source
    when (self.merge = false) (deletePath sys dest)
    createParentDirs sys dest
    self.mergeDirectories sys sys.recursionLimit source dest

def copy : Os β Unit :=
  match self.source with
  | none => throw .typeError
  | some pattern => do
    let t ← tree
    let sources := sys.glob t pattern
    if sources = [] then
      if self.optional then pure () else throw (.missingRequiredSource pattern)
    else sources.forM (self.copySource sys)

/-! ## `check` -/

/-- The tests of the owner at the end of `_cmp_file`. -/
def cmpOwner (fileStat : Node β) : Os β Bool := do
  let desired ← userGroup self.owner
  let actualUser ← sys.getpwuid fileStat.attr.uid
  if actualUser ≠ desired.1 then pure false
  else do
    let actualGroup ← sys.getgrgid fileStat.attr.gid
    pure (decide (actualGroup = desired.2))

/-- `_cmp_file(source, dest)`. -/
def cmpFile [DecidableEq β] (source dest : Path) : Os β Bool := do
  let t ← tree
  if sys.pathExists t source ≠ sys.pathExists t dest then pure false
  else do
    let f1 ← sys.openRead source
    let f2 ← sys.openRead dest
    if f1 ≠ f2 then pure false
    else do
      let fileStat ← sys.stat dest
      if self.perm ≠ some (actualPerm fileStat) then pure false
      else self.cmpOwner sys fileStat

/-- The test of a subdirectory in `_cmp_dir`. -/
def cmpSubdir (source dest root : Path) (dir_ : String) : Os β Bool := do
  let fullPath := Path.join root [dir_]
  let destFullPath := Path.join dest (Path.relpath sys.cwd source fullPath)
  let dirStat ← sys.stat destFullPath
  pure (self.perm = some (actualPerm dirStat))

/-- The test of a file in `_cmp_dir`. -/
def cmpSubfile [DecidableEq β] (source dest root : Path) (file_ : String) : Os β Bool :=
  let fullPath := Path.join root [file_]
  let destFullPath := Path.join dest (Path.relpath sys.cwd fullPath source)
  self.cmpFile sys fullPath destFullPath

/-- The two loops of `_cmp_dir` over one directory of the walk. -/
def cmpLevel [DecidableEq β] (source dest : Path) (e : Path × List String × List String) :
    Os β Bool := do
  let ok ← e.2.1.allM (self.cmpSubdir sys source dest e.1)
  if ok then e.2.2.allM (self.cmpSubfile sys source dest e.1) else pure false

/-- `_cmp_dir(source, dest)`. -/
def cmpDir [DecidableEq β] (source dest : Path) : Os β Bool := do
  let t ← tree
  (sys.walk t source).allM (self.cmpLevel sys source dest)

/-- One iteration of `check`: whether the source is in place. -/
def checkSource [DecidableEq β] (source : Path) : Os β Bool :=
  match self.dest with
  | none => throw .attributeError
  | some dest => do
    let t ← tree
    if sys.isdir t source then self.cmpDir sys source (target dest source)
    else self.cmpFile sys source (target dest source)

/-- The loop of `check`: the sources that are not in place. -/
def checkStep [DecidableEq β] (badStateFiles : List Path) (source : Path) :
    Os β (List Path) := do
  let ok ← self.checkSource sys source
  pure (if ok then badStateFiles else badStateFiles ++ [source])

/-- `check`, without a word where all is well. -/
def check [DecidableEq β] : Os β Unit :=
  match self.source with
  | none => throw .typeError
  | some pattern => do
    let t ← tree
    let sources := sys.glob t pattern
    if sources = [] then
      if self.optional then pure () else throw (.missingRequiredSource pattern)
    else do
      let badStateFiles ← sources.foldlM (self.checkStep sys) []
      if badStateFiles ≠ [] then throw (.configFileBadState badStateFiles) else pure ()

end ConfigFile

end Kolla.SetConfigs
