import Kolla.SetConfigs.Exceptions
import Kolla.SetConfigs.Check

/-!
# The shape of a configuration

`validate_config` and the functions that go through an accepted
configuration each have their own idea of the keys that an entry must or
may have.  `WellShaped` is what the functions need: no key that `ConfigFile`
does not take, a source, a destination, an owner unless the properties are
preserved, and for a permission a path and an owner.

A well-shaped configuration never fails for its shape
(`raises_executeConfigStrategy`).  In the other direction each function is
asked for itself: `Tolerates` says that no function raises for the shape of
the element that it is given, in whatever state, and this needs all of
`WellShaped` (`tolerates_iff`).  `validate_config` checks only part of it,
and `fails_late` is a configuration that it accepts and that fails after
the defaults have been written.

A missing `source`, `dest` or `command` would be a `KeyError`, as an unknown
user is; `validate_config` refuses it.
-/

namespace Kolla.SetConfigs

open Kolla.Lib

variable {β α : Type}

/-- The exceptions that have nothing to do with a value of the wrong type. -/
def Shapeless (e : PyExn) : Prop := e.isShape = false

theorem shapeless_of_ordinary (e : PyExn) (he : e.Ordinary) : Shapeless e := by
  cases e <;> first | rfl | exact he.elim

/-! ## What the functions need -/

structure Entry.WellShaped (data : Entry) : Prop where
  known : data.unknown = []
  source : data.source.get ≠ none
  dest : data.dest.get ≠ none
  owner : data.preserveProperties.truthy = false → data.owner.get ≠ none

structure Permission.WellShaped (permission : Permission) : Prop where
  path : permission.path.get ≠ none
  owner : permission.owner.get ≠ none

structure Config.WellShaped (config : Config) : Prop where
  command : config.command.get ≠ none
  files : ∀ data ∈ config.files, data.WellShaped
  permissions : ∀ permission ∈ config.permissions.getD [], permission.WellShaped

/-! ## What the functions bear -/

namespace System

variable (sys : System β)

/-- The functions that get an entry of `config_files` do not raise for its
shape: the backup, the construction of the `ConfigFile`, and the setting of
properties. -/
structure ToleratesEntry (data : Entry) : Prop where
  backup : ∀ state, Raises Shapeless (sys.backupConfig state data)
  file : Raises Shapeless (data.configFile : Os β ConfigFile)
  properties : ∀ (configFile : ConfigFile) (w w' : World β),
    data.configFile w = .ok configFile w' →
      ∀ source dest, Raises Shapeless (configFile.setProperties sys source dest)

/-- `handle_permissions` does not raise for the shape of an entry, whoever
the users and groups are. -/
def ToleratesPermission (permission : Permission) : Prop :=
  ∀ passwd group,
    Raises Shapeless ({ sys with passwd := passwd, group := group }.handlePermission permission)

/-- Each function that gets a part of the configuration bears it. -/
structure Tolerates (config : Config) : Prop where
  command : Raises Shapeless (sys.copyConfig { config with configFiles := none })
  files : ∀ data ∈ config.files, sys.ToleratesEntry data
  permissions : ∀ permission ∈ config.permissions.getD [], sys.ToleratesPermission permission

end System

variable {sys : System β}

/-! ## Well-shaped configurations -/

theorem Key.present_of_get {key : Key α} (h : key.get ≠ none) : key.present = true := by
  cases key with
  | absent => exact absurd rfl h
  | null => exact absurd rfl h
  | given value => rfl

namespace Entry.WellShaped

variable {data : Entry} (hdata : data.WellShaped)

include hdata

theorem configFile_eq :
    (data.configFile : Os β ConfigFile) = pure
      { source := data.source.get
        dest := data.dest.get
        owner := data.owner.get
        perm := data.perm.get
        optional := data.optional.truthy
        preserveProperties := data.preserveProperties.truthy
        merge := data.merge.truthy } := by
  rw [Entry.configFile, if_neg]
  simp [hdata.known, Key.present_of_get hdata.source, Key.present_of_get hdata.dest]

theorem raises_backupConfig (state : State) : Raises Shapeless (sys.backupConfig state data) := by
  obtain ⟨source, hsource⟩ := Option.ne_none_iff_exists'.mp hdata.source
  obtain ⟨dest, hdest⟩ := Option.ne_none_iff_exists'.mp hdata.dest
  rw [System.backupConfig_eq hsource hdest]
  exact Raises.ite (fun _ => Raises.pure _) fun _ =>
    System.raises_backupPath shapeless_of_ordinary _ _ _

theorem raises_copy :
    Raises Shapeless (do
      let configFile ← data.configFile
      configFile.copy sys : Os β Unit) := by
  rw [hdata.configFile_eq, pure_bind]
  exact ConfigFile.raises_copy shapeless_of_ordinary (fun h => absurd h hdata.source)
    (fun h => absurd h hdata.dest) fun hpreserve h => absurd h (hdata.owner hpreserve)

theorem tolerated : sys.ToleratesEntry data where
  backup := hdata.raises_backupConfig
  file := by
    rw [hdata.configFile_eq]
    exact Raises.pure _
  properties := by
    intro configFile w w' h source dest
    rw [hdata.configFile_eq] at h
    obtain ⟨rfl, -⟩ := pure_eq_ok.mp h
    exact ConfigFile.raises_setProperties shapeless_of_ordinary
      (fun hpreserve h => absurd h (hdata.owner hpreserve)) _ _

end Entry.WellShaped

theorem Permission.WellShaped.raises {permission : Permission} (h : permission.WellShaped) :
    Raises Shapeless (sys.handlePermission permission) :=
  System.raises_handlePermission shapeless_of_ordinary
    fun hmissing => hmissing.elim (fun hnone => absurd hnone h.path) fun hnone => absurd hnone h.owner

namespace Config.WellShaped

variable {config : Config} (hconfig : config.WellShaped)

include hconfig

theorem raises_handleDefaults : Raises Shapeless (sys.handleDefaults config) := by
  refine Raises.bind (System.raises_getDefaultsState shapeless_of_ordinary) fun read => ?_
  refine Raises.bind (System.raises_removeOrRestoreConfigs shapeless_of_ordinary _) fun state => ?_
  refine Raises.bind (Raises.foldlM (fun state data hdata => ?_) _) fun saved =>
    System.raises_writeFile shapeless_of_ordinary _ _
  exact (hconfig.files data hdata).raises_backupConfig state

theorem raises_copyConfig : Raises Shapeless (sys.copyConfig config) := by
  refine Raises.bind (Raises.forM fun data hdata => (hconfig.files data hdata).raises_copy) fun _ => ?_
  obtain ⟨command, hcommand⟩ := Option.ne_none_iff_exists'.mp hconfig.command
  rw [System.item_of_get hcommand, pure_bind]
  refine Raises.bind (raises_syscall shapeless_of_ordinary) fun loc => ?_
  exact Raises.bind (raises_syscall shapeless_of_ordinary) fun _ =>
    raises_logOSError (System.raises_chmod shapeless_of_ordinary)

theorem raises_handlePermissions :
    Raises Shapeless (sys.handlePermissions (config.permissions.getD [])) :=
  Raises.forM fun permission hmem => (hconfig.permissions permission hmem).raises

/-- A well-shaped configuration never fails for its shape. -/
theorem raises_executeConfigStrategy (configStrategy : Option String) :
    Raises Shapeless (sys.executeConfigStrategy configStrategy config) := by
  unfold System.executeConfigStrategy
  refine Raises.ite (fun _ => ?_) fun _ => Raises.ite (fun _ => ?_) fun _ => Raises.throw rfl
  · refine Raises.bind hconfig.raises_handleDefaults fun _ => ?_
    exact Raises.bind hconfig.raises_copyConfig fun _ => hconfig.raises_handlePermissions
  · refine Raises.bind raises_tree fun t => Raises.ite (fun _ => Raises.throw rfl) fun _ => ?_
    refine Raises.bind hconfig.raises_handleDefaults fun _ => ?_
    refine Raises.bind hconfig.raises_copyConfig fun _ => ?_
    refine Raises.bind hconfig.raises_handlePermissions fun _ => ?_
    exact raises_syscall shapeless_of_ordinary

end Config.WellShaped

/-! ## What bearing a configuration takes -/

/-- An empty container. -/
def bare : World β where
  tree :=
    { nodes := [([], .dir ⟨0o755, 0, 0⟩)]
      nodup := by simp
      root := rfl
      closed := by simp
      proper := by simp }
  faults := []

/-- The command file can be written there. -/
theorem openWrite_bare :
    ∃ w, sys.openWrite System.runCommand (bare : World β) = .ok ["run_command"] w := by
  have hfind : sys.find (bare : World β).tree true System.runCommand
      = .free ["run_command"] false := by
    rw [System.find, resolve, if_neg (by decide), if_pos (by decide)]
    rw [System.runCommand, walk_skip (Or.inl rfl)]
    exact @walk_missing _ _ _ _ [] [] _ rfl (by decide) rfl
  have hcalm : Calm (bare : World β) := List.forall_mem_nil _
  refine ⟨_, @syscall_of_calm _ _ _ _ hcalm _ ((bare : World β).tree.create ["run_command"]
    (.file sys.codec.empty ⟨0o666 &&& ~~~sys.umask, sys.uid, sys.gid⟩)) ?_⟩
  rw [hfind]
  rfl

/-- What `validate_config` checks. -/
theorem validateConfig_eq_ok {config : Config} {w w' : World β}
    (h : validateConfig config w = .ok () w') :
    config.command.present = true ∧ ∀ data ∈ config.files,
      data.source.present = true ∧ data.dest.present = true := by
  rw [validateConfig] at h
  split at h
  · exact absurd h throw_ne_ok
  · rename_i hcommand
    rw [Bool.not_eq_false] at hcommand
    refine ⟨hcommand, ?_⟩
    generalize config.files = files at h
    induction files generalizing w with
    | nil => exact List.forall_mem_nil _
    | cons data files ih =>
      obtain ⟨w₁, hdata, h⟩ := forM_cons_eq_ok.mp h
      refine List.forall_mem_cons.mpr ⟨?_, ih h⟩
      rw [validateEntry] at hdata
      split at hdata
      · exact absurd hdata throw_ne_ok
      · rename_i hpresent
        rw [not_or, Bool.not_eq_false, Bool.not_eq_false] at hpresent
        exact hpresent

theorem not_shapeless_typeError {m : Os β α} {w w' : World β} (h : m w = .error .typeError w') :
    ¬ Raises Shapeless m :=
  fun hm => Bool.noConfusion (hm _ _ _ h)

theorem not_shapeless_attributeError {m : Os β α} {w w' : World β}
    (h : m w = .error .attributeError w') : ¬ Raises Shapeless m :=
  fun hm => Bool.noConfusion (hm _ _ _ h)

/-- A key that is there may still be `null`. -/
theorem item_of_present {key : Key α} (h : key.present = true) :
    (key.item : Os β (Option α)) = pure key.get := by
  cases key with
  | absent => cases h
  | null => rfl
  | given value => rfl

theorem wellShaped_of_tolerates_entry {data : Entry} (hsource : data.source.present = true)
    (hdest : data.dest.present = true) (h : sys.ToleratesEntry data) : data.WellShaped := by
  -- a backup with an empty state looks at both keys
  have hbackup : ∀ m : Os β State, sys.backupConfig [] data = m → Raises Shapeless m :=
    fun m hm => hm ▸ h.backup []
  rw [System.backupConfig, item_of_present hdest, item_of_present hsource, pure_bind] at hbackup
  have hd : data.dest.get ≠ none := by
    intro hnone
    rw [hnone] at hbackup
    exact @not_shapeless_attributeError _ _ _ bare bare rfl (hbackup _ rfl)
  obtain ⟨dest, hdest'⟩ := Option.ne_none_iff_exists'.mp hd
  have hs : data.source.get ≠ none := by
    intro hnone
    rw [hnone, hdest'] at hbackup
    cases hslash : Path.endswithSep dest with
    | true =>
      refine @not_shapeless_attributeError _ _ _ bare bare ?_ (hbackup _ rfl)
      simp [hslash]
      rfl
    | false =>
      refine @not_shapeless_typeError _ _ _ bare bare ?_ (hbackup _ rfl)
      simp [hslash]
      rfl
  have hknown : data.unknown = [] := by
    by_contra hne
    refine @not_shapeless_typeError _ _ _ bare bare ?_ h.file
    rw [Entry.configFile, if_pos (Or.inl hne)]
    rfl
  refine ⟨hknown, hs, hd, fun hpreserve hnone => ?_⟩
  have hfile : ¬ (data.unknown ≠ [] ∨ data.source.present = false ∨ data.dest.present = false) := by
    simp [hknown, hsource, hdest]
  have hraises := h.properties _ bare bare (by rw [Entry.configFile, if_neg hfile]; rfl) [] []
  refine @not_shapeless_typeError _ _ _ bare bare ?_ hraises
  rw [ConfigFile.setProperties, hpreserve, hnone]
  rfl

theorem wellShaped_of_tolerates_permission {permission : Permission}
    (h : sys.ToleratesPermission permission) : permission.WellShaped := by
  have howner : permission.owner.get ≠ none := by
    intro hnone
    refine @not_shapeless_typeError _ _ _ bare bare ?_ (h sys.passwd sys.group)
    rw [System.handlePermission, hnone]
    rfl
  refine ⟨fun hnone => ?_, howner⟩
  -- the owner exists in a suitable database, and the path is looked at
  obtain ⟨owner, howner⟩ := Option.ne_none_iff_exists'.mp howner
  refine @not_shapeless_typeError _ _ _ bare bare ?_
    (h [((splitOwner owner).1, 0)] [((splitOwner owner).2, 0)])
  rw [System.handlePermission, howner, hnone, userGroup, pure_bind]
  rw [System.getpwnam, System.getgrnam]
  simp only [List.lookup_cons, beq_self_eq_true]
  rfl

/-- An accepted configuration is borne by each function that gets a part of
it if and only if it is well shaped, and then no start fails for its
shape. -/
theorem tolerates_iff {config : Config} {w w' : World β}
    (haccepted : validateConfig config w = .ok () w') :
    (sys.Tolerates config ∧
        ∀ configStrategy, Raises Shapeless (sys.executeConfigStrategy configStrategy config)) ↔
      config.WellShaped := by
  obtain ⟨hcommand, hfiles⟩ := validateConfig_eq_ok haccepted
  constructor
  · rintro ⟨h, -⟩
    refine ⟨fun hnone => ?_, fun data hdata => ?_, fun permission hmem => ?_⟩
    · obtain ⟨w, hopen⟩ := @openWrite_bare _ sys
      refine @not_shapeless_typeError _ _ _ bare w ?_ h.command
      have hitem : (config.command.item : Os β (Option String)) = pure none := by
        rw [item_of_present hcommand, hnone]
      rw [System.copyConfig]
      dsimp only
      rw [hitem]
      exact (bind_of_ok hopen).trans rfl
    · exact wellShaped_of_tolerates_entry (hfiles data hdata).1 (hfiles data hdata).2
        (h.files data hdata)
    · exact wellShaped_of_tolerates_permission (h.permissions permission hmem)
  · intro h
    refine ⟨⟨?_, fun data hdata => (h.files data hdata).tolerated, fun permission hmem => ?_⟩,
      fun configStrategy => h.raises_executeConfigStrategy configStrategy⟩
    · have hnone : ({ config with configFiles := none } : Config).WellShaped :=
        ⟨h.command, List.forall_mem_nil _, h.permissions⟩
      exact hnone.raises_copyConfig
    · exact fun passwd group => (h.permissions permission hmem).raises

/-! ## A configuration that fails late -/

def appEntry : Entry where
  source := .given ["", "src"]
  dest := .given ["", "etc", "app.conf"]
  owner := .given "root"
  perm := .given "0644"
  optional := .absent
  preserveProperties := .absent
  merge := .absent
  unknown := []

def appConfig : Config where
  command := .given "app"
  configFiles := some [appEntry]
  permissions := none

/-- `tolerates_iff` for a well-shaped configuration. -/
theorem tolerates_appConfig :
    rootSystem.Tolerates appConfig ∧ ∀ configStrategy,
      Raises Shapeless (rootSystem.executeConfigStrategy configStrategy appConfig) := by
  refine (@tolerates_iff _ rootSystem appConfig bare bare rfl).mpr ⟨nofun, ?_, nofun⟩
  intro data hdata
  rw [List.mem_singleton.mp hdata]
  exact ⟨rfl, nofun, nofun, nofun⟩

def lateTree : FileTree Content where
  nodes := [([], rootDir), (["src"], rootFile "a"), (["etc"], rootDir)]
  nodup := by decide
  root := by decide
  closed := by decide
  proper := by decide

/-- The entry has a key that `ConfigFile` does not take. -/
def commentedConfig : Config :=
  { appConfig with configFiles := some [{ appEntry with unknown := ["comment"] }] }

/-- The configuration is accepted, and it fails for its shape when the
defaults have been written. -/
theorem fails_late :
    validateConfig commentedConfig ⟨lateTree, []⟩ = .ok () ⟨lateTree, []⟩ ∧
      ∃ w, rootSystem.executeConfigStrategy (some "COPY_ALWAYS") commentedConfig ⟨lateTree, []⟩
          = .error .typeError w ∧
        lateTree.lookup ["etc", "kolla", "defaults", "state"] = none ∧
        (w.tree.lookup ["etc", "kolla", "defaults", "state"]).isSome = true := by
  refine ⟨rfl, _, eq_error_of_raised ?_, rfl, ?_⟩
  · decide +kernel
  · decide +kernel

end Kolla.SetConfigs
