import Kolla.SetConfigs.Operations

/-!
# What the functions raise

`PyExn.Ordinary` are the exceptions for which the file system, the user
databases and the texts of the configuration are to blame.  The others come
from the shape of the configuration (`TypeError` and `AttributeError`) or
are the program's own verdicts.

There is one lemma for each function.  They hold for every set `E` of
exceptions that has the ordinary ones and, where the function looks at the
shape of an entry, under a condition on this entry.
-/

namespace Kolla.SetConfigs

open Kolla.Lib

variable {β α : Type}

namespace PyExn

/-- Nothing to do with the shape of the configuration. -/
def Ordinary : PyExn → Prop
  | osError _ => True
  | valueError => True
  | keyError => True
  | overflowError => True
  | recursionError => True
  | reError => True
  | missingRequiredSource _ => True
  | configFileBadState _ => True
  | _ => False

/-- The exceptions for a value of the wrong type. -/
def isShape : PyExn → Bool
  | typeError => true
  | attributeError => true
  | _ => false

end PyExn

variable {E : PyExn → Prop} (hE : ∀ e, e.Ordinary → E e)

include hE

/-! ## The system -/

theorem raises_syscall {f : FileTree β → Except Errno (α × FileTree β)} :
    Raises E (syscall f) := by
  intro w e w' h
  unfold syscall at h
  split at h
  · cases h
    exact hE _ trivial
  · split at h
    · cases h
    · cases h
      exact hE _ trivial

omit hE in
theorem raises_tree : Raises E (tree : Os β (FileTree β)) := by
  intro w e w' h
  cases h

omit hE in
theorem raises_when {c : Prop} [Decidable c] {m : Os β Unit} (hm : c → Raises E m) :
    Raises E (when c m) :=
  Raises.ite hm fun _ => Raises.pure ()

omit hE in
theorem raises_logOSError {m : Os β Unit} (hm : Raises E m) : Raises E (logOSError m) := by
  refine Raises.tryCatch hm fun e he => ?_
  split
  · exact Raises.pure ()
  · exact Raises.throw he

namespace System

variable {sys : System β}

theorem raises_onNode {follow : Bool} {path : Path}
    {f : FileTree β → Loc → Node β → Except Errno (α × FileTree β)} :
    Raises E (sys.onNode follow path f) :=
  raises_syscall hE

theorem raises_setAttr {path : Path} {f : Node β → Attr → Attr} :
    Raises E (sys.setAttr path f) :=
  raises_onNode hE

theorem raises_chmod {path : Path} {mode : ℤ} : Raises E (sys.chmod path mode) :=
  Raises.ite (fun _ => raises_setAttr hE) fun _ => Raises.throw (hE _ trivial)

theorem raises_makedirsAux (n : ℕ) (path : Path) (existOk : Bool) :
    Raises E (sys.makedirsAux n path existOk) := by
  induction n generalizing path existOk with
  | zero => exact Raises.throw (hE _ trivial)
  | succ n ih =>
    refine Raises.bind raises_tree fun t => ?_
    refine Raises.bind (raises_when fun _ => ?_) fun _ => ?_
    · refine Raises.tryCatch (ih _ _) fun e he => ?_
      split
      · exact Raises.pure ()
      · exact Raises.throw he
    · refine Raises.ite (fun _ => Raises.pure ()) fun _ => ?_
      refine Raises.tryCatch (raises_syscall hE) fun e he => ?_
      split
      · refine Raises.bind raises_tree fun t => ?_
        exact Raises.ite (fun _ => Raises.pure ()) fun _ => Raises.throw he
      · exact Raises.throw he

theorem raises_makedirs (path : Path) (existOk : Bool) : Raises E (sys.makedirs path existOk) :=
  raises_makedirsAux hE _ _ _

theorem raises_writeFile (path : Path) (content : β) : Raises E (sys.writeFile path content) :=
  Raises.bind (raises_syscall hE) fun _ => raises_syscall hE

theorem raises_removeContents (n : ℕ) (loc : Loc) : Raises E (sys.removeContents n loc) := by
  induction n generalizing loc with
  | zero => exact Raises.throw (hE _ trivial)
  | succ n ih =>
    refine Raises.bind (raises_syscall hE) fun names => Raises.forM fun x _ => ?_
    refine Raises.bind raises_tree fun t => Raises.ite (fun _ => ?_) fun _ => raises_syscall hE
    exact Raises.bind (ih _) fun _ => raises_syscall hE

theorem raises_rmtree (path : Path) : Raises E (sys.rmtree path) := by
  refine Raises.bind raises_tree fun t => ?_
  split
  · exact Raises.bind (raises_removeContents hE _ _) fun _ => raises_syscall hE
  all_goals exact Raises.throw (hE _ trivial)

theorem raises_copyfile (src dst : Path) : Raises E (sys.copyfile src dst) := by
  refine Raises.bind raises_tree fun t => Raises.ite (fun _ => Raises.throw (hE _ trivial)) ?_
  intro _
  exact Raises.bind (raises_onNode hE) fun _ => raises_writeFile hE _ _

theorem raises_copymode (src dst : Path) : Raises E (sys.copymode src dst) :=
  Raises.bind (raises_onNode hE) fun _ => raises_chmod hE

theorem raises_copy (src dst : Path) : Raises E (sys.copy src dst) :=
  Raises.bind raises_tree fun _ =>
    Raises.bind (raises_copyfile hE _ _) fun _ => raises_copymode hE _ _

theorem raises_getpwnam (name : String) : Raises E (sys.getpwnam name) := by
  unfold getpwnam
  split
  · exact Raises.pure _
  · exact Raises.throw (hE _ trivial)

theorem raises_getgrnam (name : String) : Raises E (sys.getgrnam name) := by
  unfold getgrnam
  split
  · exact Raises.pure _
  · exact Raises.throw (hE _ trivial)

theorem raises_getpwuid (uid : ℕ) : Raises E (sys.getpwuid uid) := by
  unfold getpwuid
  split
  · exact Raises.pure _
  · exact Raises.throw (hE _ trivial)

theorem raises_getgrgid (gid : ℕ) : Raises E (sys.getgrgid gid) := by
  unfold getgrgid
  split
  · exact Raises.pure _
  · exact Raises.throw (hE _ trivial)

/-! ## Permissions -/

omit hE in
theorem raises_userGroup {owner : Option String} (howner : owner = none → E .typeError) :
    Raises E (userGroup owner : Os β (String × String)) := by
  cases owner with
  | none => exact Raises.throw (howner rfl)
  | some owner => exact Raises.pure _

theorem raises_setPerms (path : Path) (uid gid : ℕ) (perm : Option String) :
    Raises E (sys.setPerms path uid gid perm) := by
  refine Raises.bind raises_tree fun t => raises_when fun _ => ?_
  refine Raises.bind (raises_logOSError (raises_setAttr hE)) fun _ => ?_
  split
  · refine raises_when fun _ => ?_
    unfold setMode
    split
    · exact Raises.throw (hE _ trivial)
    · exact Raises.bind raises_tree fun _ => raises_logOSError (raises_chmod hE)
  · exact Raises.pure ()

theorem raises_handleExclusion (exclude : List String) (uid gid : ℕ) (perm : Option String)
    (root : Path) (pathSuffix : String) :
    Raises E (sys.handleExclusion exclude uid gid perm root pathSuffix) := by
  refine Raises.ite (fun _ => Raises.forM fun x _ => ?_) fun _ => raises_setPerms hE _ _ _ _
  split
  · exact Raises.throw (hE _ trivial)
  · exact raises_when fun _ => raises_setPerms hE _ _ _ _

/-- `handle_permissions` needs a path and an owner. -/
theorem raises_handlePermission {permission : Permission}
    (hshape : permission.path.get = none ∨ permission.owner.get = none → E .typeError) :
    Raises E (sys.handlePermission permission) := by
  refine Raises.bind (raises_userGroup fun h => hshape (Or.inr h)) fun desired => ?_
  refine Raises.bind (raises_getpwnam hE _) fun uid => ?_
  refine Raises.bind (raises_getgrnam hE _) fun gid => ?_
  split
  · rename_i hpath
    exact Raises.throw (hshape (Or.inl hpath))
  · refine Raises.bind raises_tree fun t => Raises.forM fun dest _ => ?_
    refine Raises.bind (raises_setPerms hE _ _ _ _) fun _ => Raises.bind raises_tree fun t => ?_
    refine raises_when fun _ => Raises.forM fun e _ => ?_
    refine Raises.bind (Raises.forM fun x _ => raises_handleExclusion hE _ _ _ _ _ _) fun _ => ?_
    exact Raises.forM fun x _ => raises_handleExclusion hE _ _ _ _ _ _

theorem raises_readlink (path : Path) : Raises E (sys.readlink path) :=
  raises_onNode hE

theorem raises_openRead (path : Path) : Raises E (sys.openRead path) :=
  raises_onNode hE

end System

/-! ## Copying a file -/

namespace ConfigFile

variable {sys : System β} {self : ConfigFile}

theorem raises_deletePath (path : Path) : Raises E (deletePath sys path) := by
  refine Raises.bind raises_tree fun t => Raises.ite (fun _ => Raises.pure ()) fun _ => ?_
  exact Raises.ite (fun _ => System.raises_rmtree hE _) fun _ => System.raises_onNode hE

theorem raises_createParentDirs (path : Path) : Raises E (createParentDirs sys path) :=
  Raises.bind raises_tree fun _ => raises_when fun _ => System.raises_makedirs hE _ _

theorem raises_setPropertiesFromFile (source dest : Path) :
    Raises E (setPropertiesFromFile sys source dest) := by
  refine Raises.bind (System.raises_copymode hE _ _) fun _ => ?_
  exact Raises.bind (System.raises_onNode hE) fun st => System.raises_setAttr hE

/-- Only a file whose properties come from the configuration needs an
owner. -/
theorem raises_setProperties
    (howner : self.preserveProperties = false → self.owner = none → E .typeError)
    (source dest : Path) : Raises E (self.setProperties sys source dest) := by
  refine Raises.ite (fun _ => raises_setPropertiesFromFile hE _ _) fun hpreserve => ?_
  rw [Bool.not_eq_true] at hpreserve
  refine Raises.forM fun permission hmem => ?_
  rw [List.mem_singleton.mp hmem]
  refine System.raises_handlePermission hE fun hmissing => howner hpreserve ?_
  rcases hmissing with hpath | hmissing
  · cases hpath
  · cases hown : self.owner with
    | none => rfl
    | some owner =>
      rw [hown] at hmissing
      cases hmissing

theorem raises_copyFile
    (howner : self.preserveProperties = false → self.owner = none → E .typeError)
    (source dest : Path) : Raises E (self.copyFile sys source dest) := by
  refine Raises.bind (raises_deletePath hE _) fun _ => Raises.bind raises_tree fun t => ?_
  refine Raises.ite (fun _ => ?_) fun _ => ?_
  · exact Raises.bind (System.raises_readlink hE _) fun _ => raises_syscall hE
  · exact Raises.bind (System.raises_copy hE _ _) fun _ => raises_setProperties hE howner _ _

theorem raises_mergeDirectories
    (howner : self.preserveProperties = false → self.owner = none → E .typeError)
    (n : ℕ) (source dest : Path) : Raises E (self.mergeDirectories sys n source dest) := by
  induction n generalizing source dest with
  | zero => exact Raises.throw (hE _ trivial)
  | succ n ih =>
    refine Raises.bind raises_tree fun t => ?_
    refine Raises.ite (fun _ => ?_) fun _ => raises_copyFile hE howner _ _
    refine Raises.bind (raises_when fun _ => raises_deletePath hE _) fun _ => ?_
    refine Raises.bind raises_tree fun t => ?_
    refine Raises.bind (raises_when fun _ => System.raises_makedirs hE _ _) fun _ => ?_
    refine Raises.bind (raises_setProperties hE howner _ _) fun _ => ?_
    exact Raises.bind (System.raises_onNode hE) fun _ => Raises.forM fun x _ => ih _ _

theorem raises_copy (hsource : self.source = none → E .typeError)
    (hdest : self.dest = none → E .attributeError)
    (howner : self.preserveProperties = false → self.owner = none → E .typeError) :
    Raises E (self.copy sys) := by
  unfold copy
  split
  · rename_i hnone
    exact Raises.throw (hsource hnone)
  · refine Raises.bind raises_tree fun t => Raises.ite (fun _ => ?_) fun _ => ?_
    · exact Raises.ite (fun _ => Raises.pure ()) fun _ => Raises.throw (hE _ trivial)
    · refine Raises.forM fun source _ => ?_
      unfold copySource
      split
      · rename_i hnone
        exact Raises.throw (hdest hnone)
      · refine Raises.bind (raises_when fun _ => raises_deletePath hE _) fun _ => ?_
        refine Raises.bind (raises_createParentDirs hE _) fun _ => ?_
        exact raises_mergeDirectories hE howner _ _ _

/-! ## Checking a file -/

theorem raises_cmpOwner (howner : self.owner = none → E .typeError) (n : Node β) :
    Raises E (self.cmpOwner sys n) := by
  refine Raises.bind (System.raises_userGroup howner) fun desired => ?_
  refine Raises.bind (System.raises_getpwuid hE _) fun user => ?_
  refine Raises.ite (fun _ => Raises.pure _) fun _ => ?_
  exact Raises.bind (System.raises_getgrgid hE _) fun group => Raises.pure _

variable [DecidableEq β]

theorem raises_cmpFile (howner : self.owner = none → E .typeError) (source dest : Path) :
    Raises E (self.cmpFile sys source dest) := by
  refine Raises.bind raises_tree fun t => Raises.ite (fun _ => Raises.pure _) fun _ => ?_
  refine Raises.bind (System.raises_openRead hE _) fun f1 => ?_
  refine Raises.bind (System.raises_openRead hE _) fun f2 => ?_
  refine Raises.ite (fun _ => Raises.pure _) fun _ => ?_
  refine Raises.bind (System.raises_onNode hE) fun st => ?_
  exact Raises.ite (fun _ => Raises.pure _) fun _ => raises_cmpOwner hE howner _

theorem raises_cmpDir (howner : self.owner = none → E .typeError) (source dest : Path) :
    Raises E (self.cmpDir sys source dest) := by
  refine Raises.bind raises_tree fun t => Raises.allM fun e _ => ?_
  refine Raises.bind (Raises.allM fun x _ => ?_) fun ok => Raises.ite (fun _ => ?_) fun _ =>
    Raises.pure _
  · exact Raises.bind (System.raises_onNode hE) fun st => Raises.pure _
  · exact Raises.allM fun x _ => raises_cmpFile hE howner _ _

theorem raises_check (hsource : self.source = none → E .typeError)
    (hdest : self.dest = none → E .attributeError) (howner : self.owner = none → E .typeError) :
    Raises E (self.check sys) := by
  unfold check
  split
  · rename_i hnone
    exact Raises.throw (hsource hnone)
  · refine Raises.bind raises_tree fun t => Raises.ite (fun _ => ?_) fun _ => ?_
    · exact Raises.ite (fun _ => Raises.pure ()) fun _ => Raises.throw (hE _ trivial)
    · refine Raises.bind (Raises.foldlM (fun bad source _ => ?_) _) fun bad => ?_
      · refine Raises.bind ?_ fun ok => Raises.pure _
        unfold checkSource
        split
        · rename_i hnone
          exact Raises.throw (hdest hnone)
        · refine Raises.bind raises_tree fun t => Raises.ite (fun _ => ?_) fun _ => ?_
          · exact raises_cmpDir hE howner _ _
          · exact raises_cmpFile hE howner _ _
      · exact Raises.ite (fun _ => Raises.throw (hE _ trivial)) fun _ => Raises.pure ()

end ConfigFile

/-! ## The defaults state -/

namespace System

variable {sys : System β}

theorem raises_getDefaultsState : Raises E sys.getDefaultsState := by
  refine Raises.bind (raises_makedirs hE _ _) fun _ => Raises.bind raises_tree fun t => ?_
  refine Raises.ite (fun _ => ?_) fun _ => Raises.pure _
  refine Raises.bind (raises_openRead hE _) fun content => ?_
  split
  · exact Raises.pure _
  · exact Raises.throw (hE _ trivial)

/-- The entries of the state are always well formed. -/
theorem raises_copy_stateEntry (v : StateEntry) (hv : v.dest ≠ none) :
    Raises E (v.configFile.copy sys) :=
  ConfigFile.raises_copy hE nofun (fun hnone => absurd hnone hv) nofun

theorem raises_removeOrRestore (k : Path) (v : StateEntry) :
    Raises E (sys.removeOrRestore k v) := by
  unfold removeOrRestore
  split
  · refine Raises.bind (Raises.bind raises_tree fun t => ?_) fun _ => Raises.pure _
    refine Raises.ite (fun _ => ?_) fun _ => Raises.pure ()
    exact Raises.ite (fun _ => raises_onNode hE) fun _ => raises_rmtree hE _
  · refine Raises.bind (raises_copy_stateEntry hE _ (Option.some_ne_none _)) fun _ => ?_
    exact Raises.pure _

theorem raises_removeOrRestoreConfigs (state : State) :
    Raises E (sys.removeOrRestoreConfigs state) := by
  induction state with
  | nil => exact Raises.pure _
  | cons e state ih =>
    refine Raises.bind (raises_removeOrRestore hE _ _) fun v => ?_
    exact Raises.bind ih fun state => Raises.pure _

theorem raises_backupPath (src dst : Path) (state : State) :
    Raises E (sys.backupPath src dst state) := by
  refine Raises.bind raises_tree fun t => Raises.ite (fun _ => ?_) fun _ => Raises.pure _
  refine Raises.ite (fun _ => ?_) fun _ => ?_
  · refine Raises.ite (fun _ => Raises.pure _) fun _ => ?_
    refine Raises.bind (raises_copy_stateEntry hE _ (Option.some_ne_none _)) fun _ => ?_
    exact Raises.pure _
  · exact Raises.ite (fun _ => Raises.pure _) fun _ => Raises.pure _

end System

end Kolla.SetConfigs
