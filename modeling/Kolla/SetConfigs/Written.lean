import Kolla.SetConfigs.Limits
import Kolla.SetConfigs.SelfMatch
import Kolla.SetConfigs.Container

/-!
# Copies that note what they write

`copyNoting` is `copy` with notes: each location that it has written, and the path that
it was written to.  What `copy` deletes again is struck out.  The notes are not used for
anything, so without them it is `copy` (`forget_copyNoting`).
-/

namespace Kolla.SetConfigs

open Kolla.Lib Kolla.SetConfigs.System

variable {β α : Type}

/-! ## The notes -/

/-- The locations that have been written, each with the path that it was written to. -/
abbrev Written := List (Loc × Path)

namespace Written

/-- What `path` leads to has been written. -/
def note (sys : System β) (t : FileTree β) (path : Path) (written : Written) : Written :=
  match sys.find t true path with
  | .found loc _ => (loc, path) :: written
  | _ => written

/-- What has been deleted is struck out. -/
def strike (t : FileTree β) (written : Written) : Written :=
  written.filter fun e => (t.lookup e.1).isSome

end Written

namespace ConfigFile

variable (sys : System β) (self : ConfigFile)

/-- `_copy_file(source, dest)`. -/
def copyFileNoting (source dest : Path) (written : Written) : Os β Written := do
  deletePath sys dest
  let t ← tree
  if self.merge && self.preserveProperties && sys.islink t source then do
    let linkTarget ← sys.readlink source
    sys.symlink linkTarget dest
    pure (written.strike t)
  else do
    sys.copy source dest
    let t' ← tree
    self.setProperties sys source dest
    pure ((written.strike t).note sys t' dest)

/-- `_merge_directories(source, dest)`. -/
def mergeDirectoriesNoting : ℕ → Path → Path → Written → Os β Written
  | 0, _, _, _ => throw .recursionError
  | n + 1, source, dest, written => do
    let t ← tree
    if sys.isdir t source then do
      when (sys.lexists t dest ∧ sys.isdir t dest = false) (deletePath sys dest)
      let t ← tree
      when (sys.isdir t dest = false) (sys.makedirs dest false)
      let t' ← tree
      self.setProperties sys source dest
      let dirContent ← sys.listdir source
      dirContent.foldlM (fun written toCopy => mergeDirectoriesNoting n
          (Path.join source [toCopy]) (Path.join dest [toCopy]) written)
        ((written.strike t).note sys t' dest)
    else self.copyFileNoting sys source dest written

/-- One iteration of `copy`. -/
def copySourceNoting (written : Written) (source : Path) : Os β Written :=
  match self.dest with
  | none => throw .attributeError
  | some dest => do
    let dest := target dest source
    when (self.merge = false) (deletePath sys dest)
    let t ← tree
    createParentDirs sys dest
    self.mergeDirectoriesNoting sys sys.recursionLimit source dest (written.strike t)

/-- `copy`, which starts without notes. -/
def copyNoting : Os β Written :=
  match self.source with
  | none => throw .typeError
  | some pattern => do
    let t ← tree
    let sources := sys.glob t pattern
    if sources = [] then
      if self.optional then pure [] else throw (.missingRequiredSource pattern)
    else sources.foldlM (self.copySourceNoting sys) []

variable {sys self}

/-! Without the notes, each does what its namesake does. -/

theorem tree_bind_const (m : Os β α) : (tree >>= fun _ => m) = m := rfl

theorem forget_copyFileNoting (source dest : Path) (written : Written) :
    forget (self.copyFileNoting sys source dest written) = self.copyFile sys source dest := by
  unfold copyFileNoting copyFile
  simp only [forget_bind, forget_ite, forget_pure, tree_bind_const, bind_pure_unit]

theorem forget_mergeDirectoriesNoting (n : ℕ) (source dest : Path) (written : Written) :
    forget (self.mergeDirectoriesNoting sys n source dest written)
      = self.mergeDirectories sys n source dest := by
  induction n generalizing source dest written with
  | zero => rfl
  | succ n ih =>
    rw [mergeDirectoriesNoting, mergeDirectories]
    simp only [forget_bind, forget_ite, forget_copyFileNoting, tree_bind_const,
      forget_foldlM fun (written : Written) toCopy =>
        ih (Path.join source [toCopy]) (Path.join dest [toCopy]) written]

theorem forget_copySourceNoting (written : Written) (source : Path) :
    forget (self.copySourceNoting sys written source) = self.copySource sys source := by
  unfold copySourceNoting copySource
  cases self.dest with
  | none => rfl
  | some dest =>
    simp only [forget_bind, forget_mergeDirectoriesNoting, tree_bind_const]

/-- Without the notes, `copyNoting` is `copy`. -/
theorem forget_copyNoting : forget (self.copyNoting sys) = self.copy sys := by
  unfold copyNoting copy
  cases self.source with
  | none => rfl
  | some pattern =>
    dsimp only
    simp only [forget_bind, forget_ite, forget_pure, forget_throw,
      forget_foldlM fun written source => forget_copySourceNoting written source]

end ConfigFile

/-! ## What is added -/

theorem Spent.of_tail {w w' : World β} (h : w'.faults = w.faults.tail) : Spent w w' := by
  rw [Spent, h]
  exact List.tail_suffix w.faults

namespace System

variable {sys : System β} {path : Path}

theorem spent_makedirs (existOk : Bool) : Moves Spent (sys.makedirs path existOk) :=
  moves_makedirsAux spent_tree (fun _ => spent_syscall) _ path existOk

theorem addsDirs_makedirs (existOk : Bool) :
    Moves (OnTree AddsDirs) (sys.makedirs path existOk) :=
  addsDirs_makedirsAux _ existOk

/-- There is a new file at `loc`, where `path` leads to, and nothing else has changed. -/
structure Filed (sys : System β) (path : Path) (loc : Loc) (t t' : FileTree β) : Prop where
  free : t.lookup loc = none
  file : ∃ c a, sys.find t' true path = .found loc (.file c a)
  other : ∀ l, l ≠ loc → t'.lookup l = t.lookup l

/-- What was opened for writing, where nothing was before. -/
theorem openWrite_eq_ok {w w' : World β} {loc : Loc} (hlook : sys.look w.tree path = none)
    (h : sys.openWrite path w = .ok loc w') : Filed sys path loc w.tree w'.tree ∧ Spent w w' := by
  obtain ⟨a, hfind'⟩ := find_of_openWrite h
  obtain ⟨hf, hfaults⟩ := syscall_eq_ok h
  cases hfind : sys.find w.tree true path with
  | found l n =>
    rw [look_of_find hfind] at hlook
    cases hlook
  | free l slash =>
    rw [hfind] at hf
    dsimp only at hf
    split at hf
    · cases hf
    · obtain ⟨rfl, htree⟩ := Prod.mk.inj (Except.ok.inj hf)
      have hvacant := vacant_of_resolve hfind
      refine ⟨⟨hvacant.1, ⟨_, a, hfind'⟩, fun l' hl' => ?_⟩, Spent.of_tail hfaults⟩
      rw [← htree, FileTree.lookup_create hvacant, if_neg hl']
  | failed e =>
    rw [hfind] at hf
    cases hf

/-- What is written in a file changes nothing else. -/
theorem Filed.write {t : FileTree β} {w w' : World β} {loc : Loc} {content : β}
    (hfiled : Filed sys path loc t w.tree) (h : System.write loc content w = .ok () w') :
    Filed sys path loc t w'.tree ∧ Spent w w' := by
  obtain ⟨c, a, hfind⟩ := hfiled.file
  obtain ⟨hf, hfaults⟩ := syscall_eq_ok h
  have hloc := lookup_of_resolve hfind
  rw [hloc] at hf
  refine ⟨⟨hfiled.free, ⟨content, a, find_of_write hfind h⟩, fun l hl => ?_⟩, Spent.of_tail hfaults⟩
  rw [← (Prod.mk.inj (Except.ok.inj hf)).2, FileTree.lookup_replace hloc, if_neg hl, hfiled.other l hl]
  intro hdir
  obtain ⟨b, hb⟩ := FileTree.isDir_iff.mp hdir
  rw [hloc] at hb
  cases hb

/-- Nor do its attributes. -/
theorem Filed.chmod {t : FileTree β} {w w' : World β} {loc : Loc} {mode : ℤ}
    (hfiled : Filed sys path loc t w.tree) (h : sys.chmod path mode w = .ok () w') :
    Filed sys path loc t w'.tree ∧ Spent w w' := by
  obtain ⟨c, a, hfind⟩ := hfiled.file
  have hsame := (sameContent_chmod mode).of_ok h
  rw [System.chmod] at h
  split at h
  · obtain ⟨l, n, hfound, hf, hfaults⟩ := onNode_eq_ok h
    rw [hfind] at hfound
    cases hfound
    have hloc := lookup_of_resolve hfind
    obtain ⟨m, hm, hlookup⟩ := find_sameShape hsame.sameShape hfind
    have hreplace : ∀ l, w'.tree.lookup l =
        if l = loc then some (.file c { a with mode := BitVec.ofInt 12 mode }) else w.tree.lookup l := by
      intro l
      rw [← (Prod.mk.inj (Except.ok.inj hf)).2, FileTree.lookup_replace hloc]
      intro hdir
      obtain ⟨b, hb⟩ := FileTree.isDir_iff.mp hdir
      rw [hloc] at hb
      cases hb
    refine ⟨⟨hfiled.free, ?_, fun l hl => ?_⟩, Spent.of_tail hfaults⟩
    · rw [hreplace, if_pos rfl] at hlookup
      cases hlookup
      exact ⟨c, _, hm⟩
    · rw [hreplace, if_neg hl, hfiled.other l hl]
  · exact absurd h throw_ne_ok

/-- A file that was copied to where nothing was before. -/
theorem copy_eq_ok {source dest : Path} {w w' : World β} (hlook : sys.look w.tree dest = none)
    (h : sys.copy source dest w = .ok () w') :
    ∃ loc, Filed sys dest loc w.tree w'.tree ∧ Spent w w' := by
  have hisdir : sys.isdir w.tree dest = false := by
    rw [isdir, hlook]
    rfl
  rw [System.copy, SetConfigs.tree_bind, hisdir, if_neg Bool.false_ne_true] at h
  obtain ⟨_, w₁, hcopyfile, hmode⟩ := bind_eq_ok.mp h
  obtain ⟨n, w₂, hstat, hchmod⟩ := bind_eq_ok.mp hmode
  rw [copyfile, SetConfigs.tree_bind] at hcopyfile
  split at hcopyfile
  · exact absurd hcopyfile throw_ne_ok
  · obtain ⟨c, w₃, hread, hwrites⟩ := bind_eq_ok.mp hcopyfile
    obtain ⟨loc, w₄, hopen, hwrite⟩ := bind_eq_ok.mp hwrites
    have htree₃ := (readOnly_openRead source).tree_eq hread
    have htree₂ := (readOnly_stat source).tree_eq hstat
    obtain ⟨hfiled₄, hspent₄⟩ := openWrite_eq_ok (htree₃ ▸ hlook) hopen
    rw [htree₃] at hfiled₄
    obtain ⟨hfiled₁, hspent₁⟩ := hfiled₄.write hwrite
    rw [← htree₂] at hfiled₁
    obtain ⟨hfiled, hspent⟩ := hfiled₁.chmod hchmod
    obtain ⟨_, _, -, -, hfaults₃⟩ := onNode_eq_ok hread
    obtain ⟨_, _, -, -, hfaults₂⟩ := onNode_eq_ok hstat
    refine ⟨loc, hfiled, ?_⟩
    have hbefore : Spent w w₁ :=
      trans_of Spent (trans_of Spent (Spent.of_tail hfaults₃) hspent₄) hspent₁
    exact trans_of Spent (trans_of Spent hbefore (Spent.of_tail hfaults₂)) hspent

end System

end Kolla.SetConfigs
