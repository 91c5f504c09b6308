import Kolla.SetConfigs.Check
import Kolla.SetConfigs.FirstStart
import Mathlib.Logic.Relation

/-!
# The program in its container

`main` of `docker/base/set_configs.py` with its exit codes, and the part of
`docker/base/start.sh` that calls it and then reads the contents of
`/run_command`.  The rest of that script, from the certificates to the `exec`,
is not modelled.  What reads the configuration out of its file is a parameter.

* `start_runs`: a start that comes to the command has that of the configuration
  that it loaded, and a check accepts this command only, as text mode reads it.
* `once_settled`: under `COPY_ONCE`, nothing of this is done a second time.
* `check_only_reads`: `--check` changes nothing, but for the directory of the
  defaults, which it creates if it is missing.

The trees may have links: `find_replace` and `look_extends` follow a path
through whatever stands there.
-/

namespace Kolla.SetConfigs

open Kolla.Lib

variable {β α : Type}

/-! ## The program -/

/-- The exit code of `main` for an exception. -/
def PyExn.exitCode : PyExn → ℕ
  | .osError _ => 2
  | .typeError => 2
  | .valueError => 2
  | .attributeError => 2
  | .keyError => 2
  | .overflowError => 2
  | .recursionError => 2
  | .reError => 2
  | .immutableConfig => 0
  | .invalidConfig _ => 1
  | .missingRequiredSource _ => 1
  | .configFileBadState _ => 1
  | .configFileCommandDiffers _ _ => 1
  | .stateMismatch _ => 1

/-- The file that the configuration is read from. -/
def configJson : Path := ["", "var", "lib", "kolla", "config_files", "config.json"]

namespace System

variable (sys : System β) (loads : β → Option Config)

/-- `load_config`. -/
def loadConfig : Os β Config := do
  let content ← sys.openRead configJson
  match loads content with
  | none =>
    throw (.invalidConfig
      "Invalid json file found at /var/lib/kolla/config_files/config.json")
  | some config => do
    validateConfig config
    pure config

/-- The body of `main`. -/
def body [DecidableEq β] (check : Bool) (configStrategy : Option String) : Os β Unit := do
  let config ← sys.loadConfig loads
  if check then do
    sys.executeCommandCheck config
    sys.executeConfigCheck config
  else sys.executeConfigStrategy configStrategy config

/-- `main`: its exit code. -/
def main [DecidableEq β] (check : Bool) (configStrategy : Option String) : Os β ℕ :=
  tryCatch (do sys.body loads check configStrategy; pure 0) fun e => pure e.exitCode

/-- `start.sh` up to and with `CMD=$(cat /run_command)`: what is read there, if it
comes that far. -/
def startToCommand [DecidableEq β] (configStrategy : Option String) : Os β (Option β) := do
  let code ← sys.main loads false configStrategy
  if code ≠ 0 then pure none
  else tryCatch (do let content ← sys.openRead runCommand; pure (some content)) fun _ => pure none

end System

/-! ## What was written is read -/

namespace System

variable {sys : System β} {loads : β → Option Config} {path : Path}

theorem sameShape_replace {t : FileTree β} {loc : Loc} {n m : Node β} (hn : t.lookup loc = some n)
    (hkind : m.kind = n.kind) : SameShape t (t.replace loc m) := by
  intro l
  rw [FileTree.lookup_replace hn fun hdir => ?_]
  · split
    · rename_i hl
      rw [hl, hn, Option.map_some, Option.map_some, hkind]
    · rfl
  · obtain ⟨a, ha⟩ := FileTree.isDir_iff.mp hdir
    rw [hn] at ha
    cases (Option.some.inj ha)
    cases m <;> first | rfl | cases hkind

/-- A path to a file whose contents are replaced. -/
theorem find_replace {t : FileTree β} {loc : Loc} {c content : β} {a : Attr}
    (hfind : sys.find t true path = .found loc (.file c a)) :
    sys.find (t.replace loc (.file content a)) true path = .found loc (.file content a) := by
  have hl := lookup_of_resolve hfind
  have hnew : (t.replace loc (.file content a)).lookup loc = some (.file content a) := by
    rw [FileTree.lookup_replace hl fun hdir => ?_, if_pos rfl]
    obtain ⟨b, hb⟩ := FileTree.isDir_iff.mp hdir
    rw [hl] at hb
    cases hb
  have hshape : SameShape t (t.replace loc (.file content a)) := sameShape_replace hl rfl
  rw [find, resolve_sameShape hshape]
  change (sys.find t true path).inTree _ = _
  rw [hfind, Found.inTree, hnew]
  rfl

/-- Writing the contents of a file that a path leads to. -/
theorem find_of_write {loc : Loc} {c content : β} {a : Attr} {w w' : World β}
    (hfind : sys.find w.tree true path = .found loc (.file c a))
    (h : write loc content w = .ok () w') :
    sys.find w'.tree true path = .found loc (.file content a) := by
  obtain ⟨hf, -⟩ := syscall_eq_ok h
  rw [lookup_of_resolve hfind] at hf
  rw [← (Prod.mk.inj (Except.ok.inj hf)).2]
  exact find_replace hfind

/-- What was opened for writing is where its path leads. -/
theorem find_of_openWrite {loc : Loc} {w w' : World β} (h : sys.openWrite path w = .ok loc w') :
    ∃ a, sys.find w'.tree true path = .found loc (.file sys.codec.empty a) := by
  obtain ⟨hf, -⟩ := syscall_eq_ok h
  cases hfind : sys.find w.tree true path with
  | found l n =>
    rw [hfind] at hf
    cases n with
    | file c a =>
      obtain ⟨rfl, htree⟩ := Prod.mk.inj (Except.ok.inj hf)
      rw [← htree]
      exact ⟨a, find_replace hfind⟩
    | dir a => cases hf
    | link target => cases hf
  | free l slash =>
    rw [hfind] at hf
    dsimp only at hf
    split at hf
    · cases hf
    · rename_i hslash
      rw [Bool.not_eq_true] at hslash
      subst hslash
      obtain ⟨rfl, htree⟩ := Prod.mk.inj (Except.ok.inj hf)
      rw [← htree]
      exact ⟨_, resolve_create rfl hfind⟩
  | failed e =>
    rw [hfind] at hf
    cases hf

/-- In a tree of the same contents a path leads to the same contents. -/
theorem look_sameContent {t t' : FileTree β} (h : SameContent t t') {c : β} {a : Attr}
    (hlook : sys.look t path = some (.file c a)) : ∃ b, sys.look t' path = some (.file c b) := by
  obtain ⟨loc, hfind⟩ := find_of_look hlook
  have hl := lookup_of_resolve hfind
  have hcontent : t'.content loc = some (.file, some c) := by
    rw [h loc]
    exact FileTree.content_eq_file.mpr ⟨a, hl⟩
  obtain ⟨b, hb⟩ := FileTree.content_eq_file.mp hcontent
  refine ⟨b, ?_⟩
  rw [look, find, resolve_sameShape h.sameShape]
  change ((sys.find t true path).inTree t').node = _
  rw [hfind, Found.inTree, hb]
  rfl

theorem look_extends {t t' : FileTree β} (h : t.Extends t') {n : Node β}
    (hlook : sys.look t path = some n) : sys.look t' path = some n := by
  obtain ⟨loc, hfind⟩ := find_of_look hlook
  exact look_of_find (resolve_extends h hfind)

/-- The command of a configuration that was copied. -/
theorem command_of_copyConfig {config : Config} {w w' : World β}
    (h : sys.copyConfig config w = .ok () w') : ∃ cmd a, config.command.get = some cmd ∧
      sys.look w'.tree runCommand = some (.file (sys.codec.encode cmd) a) := by
  obtain ⟨_, w₁, -, hrest⟩ := bind_eq_ok.mp h
  obtain ⟨command, w₂, hcommand, hwrites⟩ := bind_eq_ok.mp hrest
  obtain ⟨loc, w₃, hopen, hmatch⟩ := bind_eq_ok.mp hwrites
  obtain ⟨rfl, -⟩ := item_eq_ok hcommand
  cases hcmd : config.command.get with
  | none =>
    rw [hcmd] at hmatch
    exact absurd hmatch throw_ne_ok
  | some cmd =>
    rw [hcmd] at hmatch
    obtain ⟨_, w₄, hwrite, hchmod⟩ := bind_eq_ok.mp hmatch
    obtain ⟨a, hfind⟩ := find_of_openWrite hopen
    obtain ⟨b, hb⟩ := look_sameContent ((moves_logOSError (sameContent_chmod _)).of_ok hchmod)
      (look_of_find (find_of_write hfind hwrite))
    exact ⟨cmd, b, rfl, hb⟩

/-! ## What a start runs -/

theorem readOnly_validateConfig (config : Config) : ReadOnly (validateConfig config : Os β Unit) := by
  refine Moves.ite (fun _ => Moves.throw _) fun _ => Moves.forM fun data _ => ?_
  exact Moves.ite (fun _ => Moves.throw _) fun _ => Moves.ite (fun _ => Moves.throw _) fun _ =>
    Moves.pure ()

theorem readOnly_loadConfig : ReadOnly (sys.loadConfig loads) := by
  refine Moves.bind (readOnly_openRead _) fun content => ?_
  split
  · exact Moves.throw _
  · exact Moves.bind (readOnly_validateConfig _) fun _ => Moves.pure _

/-- The configuration is the one in the file. -/
theorem loadConfig_eq_ok {config : Config} {w w' : World β}
    (h : sys.loadConfig loads w = .ok config w') :
    ∃ c a, sys.look w.tree configJson = some (.file c a) ∧ loads c = some config := by
  obtain ⟨c, w₁, hread, hload⟩ := bind_eq_ok.mp h
  obtain ⟨a, hlook⟩ := openRead_eq_ok hread
  refine ⟨c, a, hlook, ?_⟩
  cases hc : loads c with
  | none =>
    rw [hc] at hload
    exact absurd hload throw_ne_ok
  | some config' =>
    rw [hc] at hload
    obtain ⟨_, w₂, -, hpure⟩ := bind_eq_ok.mp hload
    rw [(pure_eq_ok.mp hpure).1]

/-- `main` returns 0 for the exception of `COPY_ONCE` only. -/
def Failing (e : PyExn) : Prop := e.exitCode ≠ 0

theorem failing_of_ordinary (e : PyExn) (he : e.Ordinary) : Failing e := by
  cases e <;> first | exact Nat.succ_ne_zero _ | exact he.elim

theorem raises_item {key : Key α} : Raises Failing (key.item : Os β (Option α)) := by
  cases key with
  | absent => exact Raises.throw (Nat.succ_ne_zero _)
  | null => exact Raises.pure _
  | given value => exact Raises.pure _

theorem raises_loadConfig : Raises Failing (sys.loadConfig loads) := by
  refine Raises.bind (raises_openRead failing_of_ordinary _) fun content => ?_
  split
  · exact Raises.throw (Nat.succ_ne_zero _)
  · refine Raises.bind (Raises.ite (fun _ => Raises.throw (Nat.succ_ne_zero _)) fun _ => ?_) fun _ => Raises.pure _
    refine Raises.forM fun data _ => Raises.ite (fun _ => Raises.throw (Nat.succ_ne_zero _)) fun _ => ?_
    exact Raises.ite (fun _ => Raises.throw (Nat.succ_ne_zero _)) fun _ => Raises.pure ()

theorem raises_handleDefaults (config : Config) :
    Raises Failing (sys.handleDefaults config) := by
  refine Raises.bind (raises_getDefaultsState failing_of_ordinary) fun read => ?_
  refine Raises.bind (raises_removeOrRestoreConfigs failing_of_ordinary _) fun state => ?_
  refine Raises.bind (Raises.foldlM (fun state data _ => ?_) _) fun saved =>
    raises_writeFile failing_of_ordinary _ _
  refine Raises.bind raises_item fun dest => Raises.ite (fun _ => Raises.pure _) fun _ => ?_
  refine Raises.bind raises_item fun src => ?_
  split
  · exact raises_backupPath failing_of_ordinary _ _ _
  · exact Raises.throw (Nat.succ_ne_zero _)
  · exact Raises.ite (fun _ => Raises.throw (Nat.succ_ne_zero _)) fun _ => Raises.throw (Nat.succ_ne_zero _)

theorem raises_copyConfig (config : Config) : Raises Failing (sys.copyConfig config) := by
  refine Raises.bind (Raises.forM fun data _ => Raises.bind ?_ fun configFile => ?_) fun _ => ?_
  · exact Raises.ite (fun _ => Raises.throw (Nat.succ_ne_zero _)) fun _ => Raises.pure _
  · exact ConfigFile.raises_copy failing_of_ordinary (fun _ => Nat.succ_ne_zero _)
      (fun _ => Nat.succ_ne_zero _) fun _ _ => Nat.succ_ne_zero _
  · refine Raises.bind raises_item fun command =>
      Raises.bind (raises_syscall failing_of_ordinary) fun loc => ?_
    split
    · exact Raises.throw (Nat.succ_ne_zero _)
    · exact Raises.bind (raises_syscall failing_of_ordinary) fun _ =>
        raises_logOSError (raises_chmod failing_of_ordinary)

theorem raises_handlePermissions (permissions : List Permission) :
    Raises Failing (sys.handlePermissions permissions) :=
  Raises.forM fun _ _ => raises_handlePermission failing_of_ordinary fun _ => Nat.succ_ne_zero _

/-- What was loaded is the configuration in the file. -/
def Loaded (sys : System β) (loads : β → Option Config) (t : FileTree β) (config : Config) : Prop :=
  ∃ c a, sys.look t configJson = some (.file c a) ∧ loads c = some config

theorem extends_mknod : Moves (OnTree FileTree.Extends) (sys.mknod path) := by
  refine moves_syscall fun t _ t' h => ?_
  cases hfind : sys.find t false path with
  | found loc n =>
    rw [hfind] at h
    cases h
  | free loc slash =>
    rw [hfind] at h
    cases slash with
    | true => cases h
    | false =>
      cases h
      exact FileTree.extends_create (vacant_of_resolve hfind)
  | failed e =>
    rw [hfind] at h
    cases h

theorem find_mark (t : FileTree β) (follow : Bool) :
    sys.find t follow configuredMark = Kolla.Lib.walk t follow sys.maxLinks [] ["configured"] := by
  have habs : Path.isabs configuredMark = true := rfl
  rw [find, resolve, if_neg (by decide), if_pos habs]
  exact walk_skip (Or.inl rfl) t follow _ _ _

theorem mark_of_mknod {w w' : World β} (h : sys.mknod configuredMark w = .ok () w') :
    sys.pathExists w'.tree configuredMark = true := by
  have hname : IsName "configured" := by decide
  obtain ⟨hf, -⟩ := syscall_eq_ok h
  rw [find_mark] at hf
  cases hl : w.tree.lookup ([] ++ ["configured"]) with
  | some n =>
    rw [walk_names hl fun hfollow => absurd hfollow Bool.false_ne_true] at hf
    cases hf
  | none =>
    rw [walk_name hname, hl] at hf
    have hvacant : w.tree.Vacant ([] ++ ["configured"]) :=
      ⟨hl, by decide, w.tree.root, fun x hx => by rwa [List.mem_singleton.mp hx]⟩
    have hnew := (Prod.mk.inj (Except.ok.inj hf)).2
    obtain ⟨n, hn, hl'⟩ : ∃ n : Node β, n.isLink = false ∧
        w'.tree.lookup ([] ++ ["configured"]) = some n := by
      rw [← hnew, FileTree.lookup_create hvacant, if_pos rfl]
      exact ⟨_, rfl, rfl⟩
    rw [pathExists, look, find_mark, walk_names hl' fun _ => hn]
    rfl

/-- The phases of a start leave the command of the configuration behind. -/
theorem command_of_phases {config : Config} {w w₁ w₂ w' : World β}
    (hcopy : sys.copyConfig config w = .ok () w₁)
    (hpermissions : sys.handlePermissions (config.permissions.getD []) w₁ = .ok () w₂)
    (hsub : w₂.tree.Extends w'.tree) : ∃ cmd a, config.command.get = some cmd ∧
      sys.look w'.tree runCommand = some (.file (sys.codec.encode cmd) a) := by
  obtain ⟨cmd, a, hcmd, hlook⟩ := command_of_copyConfig hcopy
  have hsame := (sameContent_handlePermissions _).of_ok hpermissions
  obtain ⟨b, hb⟩ := look_sameContent hsame hlook
  exact ⟨cmd, b, hcmd, look_extends hsub hb⟩

variable {configStrategy : Option String}

theorem strategy_eq_ok {config : Config} {w w' : World β}
    (h : sys.executeConfigStrategy configStrategy config w = .ok () w') :
    (∃ cmd a, config.command.get = some cmd ∧
      sys.look w'.tree runCommand = some (.file (sys.codec.encode cmd) a)) ∧
    (configStrategy = some "COPY_ONCE" → sys.pathExists w'.tree configuredMark = true) := by
  unfold executeConfigStrategy at h
  split at h
  · rename_i halways
    rw [halways]
    obtain ⟨_, w₁, -, hphases⟩ := bind_eq_ok.mp h
    obtain ⟨_, w₂, hcopy, hpermissions⟩ := bind_eq_ok.mp hphases
    exact ⟨command_of_phases hcopy hpermissions fun l n hl => hl, fun honce => absurd honce (by decide)⟩
  · split at h
    · rw [tree_bind] at h
      split at h
      · exact absurd h throw_ne_ok
      · obtain ⟨_, w₁, -, hphases⟩ := bind_eq_ok.mp h
        obtain ⟨_, w₂, hcopy, hmark⟩ := bind_eq_ok.mp hphases
        obtain ⟨_, w₃, hpermissions, hmknod⟩ := bind_eq_ok.mp hmark
        exact ⟨command_of_phases hcopy hpermissions (extends_mknod.of_ok hmknod),
          fun _ => mark_of_mknod hmknod⟩
    · exact absurd h throw_ne_ok

/-- Only a container that was configured refuses to be configured again. -/
theorem strategy_eq_error {config : Config} {e : PyExn} {w w' : World β} (he : ¬ Failing e)
    (h : sys.executeConfigStrategy configStrategy config w = .error e w') :
    configStrategy = some "COPY_ONCE" ∧ sys.pathExists w.tree configuredMark = true ∧ w' = w := by
  have hphases : Raises Failing (do
      sys.handleDefaults config
      sys.copyConfig config
      sys.handlePermissions (config.permissions.getD [])) :=
    Raises.bind (raises_handleDefaults _) fun _ => Raises.bind (raises_copyConfig _) fun _ =>
      raises_handlePermissions _
  have hmark : Raises Failing (do
      sys.handleDefaults config
      sys.copyConfig config
      sys.handlePermissions (config.permissions.getD [])
      sys.mknod configuredMark) :=
    Raises.bind (raises_handleDefaults _) fun _ => Raises.bind (raises_copyConfig _) fun _ =>
      Raises.bind (raises_handlePermissions _) fun _ => raises_syscall failing_of_ordinary
  unfold executeConfigStrategy at h
  split at h
  · exact absurd (hphases _ _ _ h) he
  · split at h
    · rename_i honce
      rw [tree_bind] at h
      split at h
      · rename_i hexists
        cases h
        exact ⟨honce, hexists, rfl⟩
      · exact absurd (hmark _ _ _ h) he
    · cases h
      exact absurd (Nat.succ_ne_zero 0) he

variable [DecidableEq β]

/-- The exit code is 0 if the strategy went through, and if it refused. -/
theorem main_eq_zero {w w' : World β} (h : sys.main loads false configStrategy w = .ok 0 w') :
    (∃ config cmd a, Loaded sys loads w.tree config ∧ config.command.get = some cmd ∧
      sys.look w'.tree runCommand = some (.file (sys.codec.encode cmd) a) ∧
      (configStrategy = some "COPY_ONCE" → sys.pathExists w'.tree configuredMark = true)) ∨
    configStrategy = some "COPY_ONCE" ∧ sys.pathExists w.tree configuredMark = true ∧
      w'.tree = w.tree := by
  rcases tryCatch_eq_ok.mp h with hbody | ⟨e, w₁, hraise, hcode⟩
  · obtain ⟨_, w₁, hrun, hpure⟩ := bind_eq_ok.mp hbody
    obtain ⟨config, w₂, hload, hstrategy⟩ := bind_eq_ok.mp hrun
    obtain ⟨-, rfl⟩ := pure_eq_ok.mp hpure
    obtain ⟨⟨cmd, a, hcmd, hlook⟩, hmark⟩ := strategy_eq_ok hstrategy
    exact Or.inl ⟨config, cmd, a, loadConfig_eq_ok hload, hcmd, hlook, hmark⟩
  · obtain ⟨hzero, rfl⟩ := pure_eq_ok.mp hcode
    refine Or.inr ?_
    cases hbody : sys.body loads false configStrategy w with
    | ok u w₂ =>
      rw [bind_of_ok hbody] at hraise
      cases hraise
    | error e' w₂ =>
      rw [bind_of_error hbody] at hraise
      cases hraise
      cases hload : sys.loadConfig loads w with
      | ok config w₃ =>
        rw [body, bind_of_ok hload] at hbody
        obtain ⟨honce, hexists, rfl⟩ := strategy_eq_error (fun hne => hne hzero) hbody
        have htree := readOnly_loadConfig.tree_eq hload
        rw [htree] at hexists
        exact ⟨honce, hexists, htree⟩
      | error e' w₃ =>
        rw [body, bind_of_error hload] at hbody
        cases hbody
        exact absurd hzero (raises_loadConfig _ _ _ hload)

theorem start_eq_ok {content : β} {w w' : World β}
    (h : sys.startToCommand loads configStrategy w = .ok (some content) w') :
    ∃ w₁ a, sys.main loads false configStrategy w = .ok 0 w₁ ∧ w'.tree = w₁.tree ∧
      sys.look w₁.tree runCommand = some (.file content a) := by
  obtain ⟨code, w₁, hmain, hrest⟩ := bind_eq_ok.mp h
  split at hrest
  · cases hrest
  · rename_i hcode
    rw [ne_eq, not_not] at hcode
    subst hcode
    rcases tryCatch_eq_ok.mp hrest with hcat | ⟨e, w₂, -, hnone⟩
    · obtain ⟨c, w₂, hread, hpure⟩ := bind_eq_ok.mp hcat
      obtain ⟨a, hlook⟩ := openRead_eq_ok hread
      cases hpure
      exact ⟨w₁, a, hmain, (readOnly_openRead _).tree_eq hread, hlook⟩
    · cases hnone

omit [DecidableEq β] in
theorem executeCommandCheck_iff {config : Config} {w : World β} (hw : Calm w) {cmd : String}
    {a : Attr} (hlook : sys.look w.tree runCommand = some (.file (sys.codec.encode cmd) a)) :
    (∃ w', sys.executeCommandCheck config w = .ok () w') ↔
      config.command.get = some (universalNewlines cmd) := by
  obtain ⟨loc, hfind⟩ := find_of_look hlook
  have hread : sys.openRead runCommand w = .ok (sys.codec.encode cmd) ⟨w.tree, w.faults.tail⟩ :=
    onNode_of_calm hw hfind rfl
  rw [executeCommandCheck, bind_of_ok hread, sys.codec.decode_encode]
  cases hcmd : config.command.get with
  | none => simp
  | some cmd' =>
    by_cases heq : cmd' = universalNewlines cmd
    · simp [heq]
    · simp [heq]

/-- A start that comes to the command has that of the configuration it loaded,
and a check accepts this command, as it is read back, and no other one; or the
container was configured before, and the start changed nothing. -/
theorem start_runs {content : β} {w w' : World β}
    (h : sys.startToCommand loads configStrategy w = .ok (some content) w') :
    (∃ config cmd, Loaded sys loads w.tree config ∧ config.command.get = some cmd ∧
      content = sys.codec.encode cmd ∧
      ∀ (config' : Config) (v : World β), v.tree = w'.tree → Calm v →
        ((∃ v', sys.executeCommandCheck config' v = .ok () v') ↔
          config'.command.get = some (universalNewlines cmd))) ∨
    configStrategy = some "COPY_ONCE" ∧ sys.pathExists w.tree configuredMark = true ∧
      w'.tree = w.tree ∧ ∃ a, sys.look w.tree runCommand = some (.file content a) := by
  obtain ⟨w₁, a, hmain, htree, hcat⟩ := start_eq_ok h
  rcases main_eq_zero hmain with ⟨config, cmd, b, hload, hcmd, hlook, -⟩ | ⟨honce, hexists, hsame⟩
  · refine Or.inl ⟨config, cmd, hload, hcmd, ?_, fun config' v hv hcalm => ?_⟩
    · rw [hcat] at hlook
      cases hlook
      rfl
    · rw [← htree, ← hv] at hlook
      exact executeCommandCheck_iff hcalm hlook
  · rw [hsame] at hcat
    exact Or.inr ⟨honce, hexists, htree.trans hsame, a, hcat⟩

/-- A container with a configuration that was not started yet. -/
def freshTree : FileTree Content where
  nodes :=
    [([], rootDir), (["src"], rootFile "a"), (["etc"], rootDir), (["var"], rootDir),
      (["var", "lib"], rootDir), (["var", "lib", "kolla"], rootDir),
      (["var", "lib", "kolla", "config_files"], rootDir),
      (["var", "lib", "kolla", "config_files", "config.json"], rootFile "json")]
  nodup := by decide
  root := by decide
  closed := by decide
  proper := by decide

/-- What reads the configuration of `freshTree`. -/
def appLoads (content : Content) : Option Config :=
  if content = .inl "json" then some appConfig else none

/-- `start_runs` on a first start. -/
theorem start_runs_sample :
    (∃ config cmd, Loaded rootSystem appLoads freshTree config ∧ config.command.get = some cmd ∧
      (Sum.inl "app" : Content) = rootSystem.codec.encode cmd ∧
      ∀ (config' : Config) (v : World Content),
        v.tree = (exitState (rootSystem.startToCommand appLoads (some "COPY_ALWAYS") ⟨freshTree, []⟩)).tree →
        Calm v → ((∃ v', rootSystem.executeCommandCheck config' v = .ok () v') ↔
          config'.command.get = some (universalNewlines cmd))) ∨
    some "COPY_ALWAYS" = some "COPY_ONCE" ∧
      rootSystem.pathExists freshTree configuredMark = true ∧
      (exitState (rootSystem.startToCommand appLoads (some "COPY_ALWAYS") ⟨freshTree, []⟩)).tree = freshTree ∧
      ∃ a, rootSystem.look freshTree runCommand = some (.file (.inl "app") a) := by
  have h : rootSystem.startToCommand appLoads (some "COPY_ALWAYS") ⟨freshTree, []⟩
      = .ok (some (.inl "app")) _ := eq_ok_of_answer (by decide +kernel)
  exact start_runs h

/-! ## A container that was configured once -/

/-- What a first start under `COPY_ONCE` leaves: the mark, and the command. -/
structure Settled (sys : System β) (content : β) (t : FileTree β) : Prop where
  mark : sys.pathExists t configuredMark = true
  command : ∃ a, sys.look t runCommand = some (.file content a)

/-- What happens to the container afterwards: it is started again, or
something happens that neither removes the mark nor rewrites the command. -/
inductive Later (sys : System β) (loads : β → Option Config) : World β → World β → Prop
  | start (w : World β) : Later sys loads w (exitState (sys.startToCommand loads (some "COPY_ONCE") w))
  | other {w w' : World β} (h : ∀ content, Settled sys content w.tree → Settled sys content w'.tree) :
    Later sys loads w w'

omit [DecidableEq β] in
theorem strategy_of_mark {config : Config} {w : World β}
    (h : sys.pathExists w.tree configuredMark = true) :
    sys.executeConfigStrategy (some "COPY_ONCE") config w = .error .immutableConfig w := by
  rw [executeConfigStrategy, if_neg (by decide), if_pos rfl, tree_bind, if_pos h]
  rfl

/-- A start of a configured container does not touch the tree. -/
theorem tree_of_start {w : World β} (h : sys.pathExists w.tree configuredMark = true) :
    (exitState (sys.startToCommand loads (some "COPY_ONCE") w)).tree = w.tree := by
  have hcat : ReadOnly (tryCatch (do
      let content ← sys.openRead runCommand
      pure (some content)) fun _ => pure none) :=
    Moves.tryCatch (Moves.bind (readOnly_openRead _) fun _ => Moves.pure _) fun _ => Moves.pure _
  refine (Moves.bind_at (R := OnTree Eq) (Moves.tryCatch_at ?_ fun _ => Moves.pure _) ?_).symm
  · refine Moves.bind_at (Moves.bind_at (readOnly_loadConfig w) fun config w₁ hload => ?_)
      fun _ _ _ => Moves.pure _ _
    rw [← readOnly_loadConfig.tree_eq hload] at h
    change w₁.tree = (exitState (sys.executeConfigStrategy (some "COPY_ONCE") config w₁)).tree
    rw [strategy_of_mark h]
    rfl
  · intro code w₁ _
    exact (Moves.ite (fun _ => Moves.pure _) fun _ => hcat) w₁

/-- A start under `COPY_ONCE` that came to the command has settled the
container. -/
theorem settled_of_start {content : β} {w w' : World β}
    (h : sys.startToCommand loads (some "COPY_ONCE") w = .ok (some content) w') :
    Settled sys content w'.tree := by
  obtain ⟨w₁, a, hmain, htree, hcat⟩ := start_eq_ok h
  rw [htree]
  rcases main_eq_zero hmain with ⟨_, _, _, -, -, -, hmark⟩ | ⟨-, hexists, hsame⟩
  · exact ⟨hmark rfl, a, hcat⟩
  · rw [hsame] at hcat ⊢
    exact ⟨hexists, a, hcat⟩

theorem Settled.later {content : β} {w w' : World β} (h : Settled sys content w.tree)
    (hlater : Later sys loads w w') : Settled sys content w'.tree := by
  cases hlater with
  | start =>
    rw [tree_of_start h.mark]
    exact h
  | other hkeep => exact hkeep content h

/-- Under `COPY_ONCE`, once a start has come to the command, no later start
changes anything up to there, and one that comes so far reads the same
command. -/
theorem once_settled {content : β} {w w' v : World β}
    (h : sys.startToCommand loads (some "COPY_ONCE") w = .ok (some content) w')
    (hlater : Relation.ReflTransGen (Later sys loads) w' v) :
    (exitState (sys.startToCommand loads (some "COPY_ONCE") v)).tree = v.tree ∧
      ∀ content' v', sys.startToCommand loads (some "COPY_ONCE") v = .ok (some content') v' →
        content' = content := by
  have hsettled : Settled sys content v.tree := by
    induction hlater with
    | refl => exact settled_of_start h
    | tail _ hstep ih => exact ih.later hstep
  have hsame : (exitState (sys.startToCommand loads (some "COPY_ONCE") v)).tree = v.tree :=
    tree_of_start hsettled.mark
  refine ⟨hsame, fun content' v' hstart => ?_⟩
  obtain ⟨v₁, a, -, htree, hcat⟩ := start_eq_ok hstart
  obtain ⟨b, hb⟩ := hsettled.command
  rw [hstart] at hsame
  change v'.tree = v.tree at hsame
  rw [← htree, hsame, hb] at hcat
  cases hcat
  rfl

/-- `once_settled` for a second start. -/
theorem once_settled_sample :
    let w := exitState (rootSystem.startToCommand appLoads (some "COPY_ONCE") ⟨freshTree, []⟩)
    let v := exitState (rootSystem.startToCommand appLoads (some "COPY_ONCE") w)
    (exitState (rootSystem.startToCommand appLoads (some "COPY_ONCE") v)).tree = v.tree ∧
      ∀ content' v', rootSystem.startToCommand appLoads (some "COPY_ONCE") v = .ok (some content') v' →
        content' = .inl "app" := by
  have h : rootSystem.startToCommand appLoads (some "COPY_ONCE") ⟨freshTree, []⟩
      = .ok (some (.inl "app")) _ := eq_ok_of_answer (by decide +kernel)
  exact once_settled h (.single (.start _))

/-! ## A check -/

/-- What is new is a directory, and nothing else has changed. -/
def AddsDirs (t t' : FileTree β) : Prop :=
  ∀ loc, t'.lookup loc = t.lookup loc ∨
    t.lookup loc = none ∧ ∃ a, t'.lookup loc = some (.dir a)

instance : IsPreorder (FileTree β) AddsDirs where
  refl _ _ := Or.inl rfl
  trans t t' t'' h h' loc := by
    rcases h' loc with hsame | ⟨hnone, hdir⟩
    · rw [hsame]
      exact h loc
    · rcases h loc with hsame | ⟨hnone', -⟩
      · rw [← hsame]
        exact Or.inr ⟨hnone, hdir⟩
      · exact Or.inr ⟨hnone', hdir⟩

omit [DecidableEq β]

theorem addsDirs_mkdir : Moves (OnTree AddsDirs) (sys.mkdir path) := by
  refine moves_syscall fun t _ t' h loc => ?_
  cases hfind : sys.find t false path with
  | found l n =>
    rw [hfind] at h
    cases h
  | free l slash =>
    rw [hfind] at h
    cases h
    rw [FileTree.lookup_create (vacant_of_resolve hfind)]
    split
    · rename_i hloc
      rw [hloc]
      exact Or.inr ⟨(vacant_of_resolve hfind).1, _, rfl⟩
    · exact Or.inl rfl
  | failed e =>
    rw [hfind] at h
    cases h

theorem addsDirs_makedirsAux (n : ℕ) (existOk : Bool) :
    Moves (OnTree AddsDirs) (sys.makedirsAux n path existOk) :=
  moves_makedirsAux moves_tree (fun _ => addsDirs_mkdir) n path existOk

/-- A directory that is there is not made again. -/
theorem tree_of_mkdir {w : World β} (h : sys.isdir w.tree path = true) :
    w.tree = (exitState (sys.mkdir path w)).tree := by
  obtain ⟨loc, a, hfind⟩ := isdir_iff.mp h
  have hfound : ∃ l n, sys.find w.tree false path = .found l n := by
    obtain ⟨hnil, hempty, hdir, -⟩ := resolve_eq_walk (fun e he => by rw [find, he] at hfind; cases hfind)
    rw [find, resolve_of_base hnil hempty hdir] at hfind ⊢
    by_contra hnone
    rw [walk_follow _ _ _ fun l target hl => hnone ⟨l, _, hl⟩] at hfind
    exact hnone ⟨loc, _, hfind⟩
  obtain ⟨l, n, hl⟩ := hfound
  unfold mkdir syscall
  split
  · rfl
  · dsimp only
    rw [hl]
    rfl

theorem tree_of_makedirs {w : World β} (h : sys.isdir w.tree kollaDefaults = true) :
    w.tree = (exitState (sys.makedirs kollaDefaults true w)).tree := by
  obtain ⟨loc, a, hfind⟩ := isdir_iff.mp h
  have hname : IsName "defaults" := by decide
  have hhead : sys.pathExists w.tree ["", "etc", "kolla"] = true := by
    have hnf : ∀ e, resolve w.tree sys.maxLinks sys.cwd true
        (Path.join ["", "etc", "kolla"] ["defaults"]) ≠ .failed e := by
      intro e he
      cases hfind.symm.trans he
    obtain ⟨l, b, hl⟩ := (resolve_parent hname (by decide) hnf).resolve_left (by decide)
    rw [pathExists, look_of_find hl]
    rfl
  have hbase : Path.basename kollaDefaults = "defaults" := rfl
  have hdirname : Path.dirname kollaDefaults = ["", "etc", "kolla"] := by decide
  change OnTree Eq w (exitState (sys.makedirsAux (3 + 1) kollaDefaults true w))
  rw [makedirsAux, hbase, if_neg hname.1, if_neg hname.1, hdirname, SetConfigs.tree_bind, hhead,
    Bool.not_true, Bool.and_false, when, if_neg Bool.false_ne_true, if_neg (by simp)]
  refine Moves.bind_at rfl fun _ w₁ hpure => ?_
  obtain ⟨-, rfl⟩ := pure_eq_ok.mp hpure
  refine Moves.tryCatch_at (tree_of_mkdir h) fun e => ?_
  split
  · exact Moves.bind moves_tree fun t => Moves.ite (fun _ => Moves.pure ()) fun _ => Moves.throw _
  · exact Moves.throw _

/-- What reads the state makes the directory of the defaults if need be. -/
theorem addsDirs_getDefaultsState : Moves (OnTree AddsDirs) sys.getDefaultsState := by
  refine Moves.bind (addsDirs_makedirsAux _ _) fun _ => Moves.bind moves_tree fun t => ?_
  refine Moves.ite (fun _ => ?_) fun _ => Moves.pure _
  refine Moves.bind (moves_readOnly (readOnly_openRead _)) fun content => ?_
  split
  · exact Moves.pure _
  · exact Moves.throw _

theorem tree_of_getDefaultsState {w : World β} (h : sys.isdir w.tree kollaDefaults = true) :
    w.tree = (exitState (sys.getDefaultsState w)).tree := by
  refine Moves.bind_at (R := OnTree Eq) (tree_of_makedirs h) fun _ w₁ _ => ?_
  refine Moves.bind_at rfl fun t w₂ _ => ?_
  refine Moves.ite (fun _ => ?_) (fun _ => Moves.pure _) w₂
  refine Moves.bind (readOnly_openRead _) fun content => ?_
  split
  · exact Moves.pure _
  · exact Moves.throw _

theorem readOnly_executeCommandCheck (config : Config) :
    ReadOnly (sys.executeCommandCheck config) := by
  refine Moves.bind (readOnly_openRead _) fun content => ?_
  split
  · exact Moves.throw _
  · split
    · exact Moves.throw _
    · exact Moves.ite (fun _ => Moves.throw _) fun _ => Moves.pure ()

theorem readOnly_item {key : Key α} : ReadOnly (key.item : Os β (Option α)) := by
  cases key with
  | absent => exact Moves.throw _
  | null => exact Moves.pure _
  | given value => exact Moves.pure _

theorem readOnly_currentDests (entries : List Entry) :
    ReadOnly (currentDests entries : Os β (List Path)) := by
  induction entries with
  | nil => exact Moves.pure _
  | cons entry entries ih =>
    refine Moves.bind ?_ fun dest => Moves.bind ih fun dests => Moves.pure _
    unfold currentDest
    split
    · exact Moves.pure _
    · refine Moves.ite (fun _ => Moves.pure _) fun _ => Moves.ite (fun _ => ?_) fun _ => Moves.pure _
      refine Moves.bind readOnly_item fun source => ?_
      split
      · exact Moves.pure _
      · exact Moves.throw _

variable [DecidableEq β]

theorem readOnly_check (configFile : ConfigFile) : ReadOnly (configFile.check sys) := by
  unfold ConfigFile.check
  split
  · exact Moves.throw _
  · refine Moves.bind moves_tree fun t => Moves.ite (fun _ => ?_) fun _ => ?_
    · exact Moves.ite (fun _ => Moves.pure ()) fun _ => Moves.throw _
    · refine Moves.bind (Moves.foldlM (fun bad source _ => ?_) _) fun bad => ?_
      · exact Moves.bind (ConfigFile.readOnly_checkSource source) fun ok => Moves.pure _
      · exact Moves.ite (fun _ => Moves.throw _) fun _ => Moves.pure ()

/-- A check changes what the reading of the state changes. -/
theorem moves_main_check {S : FileTree β → FileTree β → Prop} [IsPreorder _ S] {w : World β}
    (hstate : ∀ w₁, w₁.tree = w.tree → OnTree S w₁ (exitState (sys.getDefaultsState w₁))) :
    OnTree S w (exitState (sys.main loads true configStrategy w)) := by
  refine Moves.tryCatch_at (Moves.bind_at ?_ fun _ _ _ => Moves.pure _ _) fun e => Moves.pure _
  refine Moves.bind_at (moves_readOnly readOnly_loadConfig w) fun config w₁ hload => ?_
  have h₁ := readOnly_loadConfig.tree_eq hload
  refine Moves.bind_at (moves_readOnly (readOnly_executeCommandCheck config) w₁) fun _ w₂ hcmd => ?_
  have h₂ := (readOnly_executeCommandCheck config).tree_eq hcmd
  refine Moves.bind_at (hstate w₂ (h₂.trans h₁)) fun state w₃ _ => ?_
  refine moves_readOnly (Moves.bind (readOnly_currentDests _) fun dests => ?_) w₃
  refine Moves.ite (fun _ => Moves.throw _) fun _ => Moves.forM fun data _ => ?_
  exact Moves.bind (Moves.ite (fun _ => Moves.throw _) fun _ => Moves.pure _) fun configFile =>
    readOnly_check configFile

/-- Whatever comes of it, a check writes to no file and removes nothing: it
makes the directory of the defaults if that is missing, and nothing if it is
there. -/
theorem check_only_reads (w : World β) :
    AddsDirs w.tree (exitState (sys.main loads true configStrategy w)).tree ∧
      (sys.isdir w.tree kollaDefaults = true →
        (exitState (sys.main loads true configStrategy w)).tree = w.tree) := by
  refine ⟨moves_main_check fun w₁ _ => addsDirs_getDefaultsState w₁, fun hdir => ?_⟩
  refine (moves_main_check (S := Eq) fun w₁ h₁ => ?_).symm
  rw [← h₁] at hdir
  exact tree_of_getDefaultsState hdir

end System

end Kolla.SetConfigs
