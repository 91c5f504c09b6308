import Kolla.Lib.Posix
import Kolla.Lib.Program
import Kolla.Lib.Dict
import Mathlib

/-!
# The system under `set_configs.py`

The operations of `os`, `os.path` and `shutil` that
`docker/base/set_configs.py` calls, over a file tree.

A program of this part is an `Os β α`.  Its state is the `World`: the tree
and the errors that the kernel has in store for the next operations.  Each
operation that can raise takes one of these; a test of `os.path` cannot
raise and takes none.  The contents of a file are an arbitrary type `β`;
what the program writes in it and reads out of it is its `Codec`.

`System` is what one container has: its working directory, its user, its
limits and its two databases.
-/

namespace Kolla.SetConfigs

open Kolla.Lib

/-- The exceptions that the program raises or lets through.  A subclass of
`ExitingException` carries what its message names. -/
inductive PyExn where
  | osError (e : Errno)
  | typeError
  | valueError
  | attributeError
  | keyError
  | overflowError
  | recursionError
  | reError
  | immutableConfig
  | invalidConfig (reason : String)
  | missingRequiredSource (source : Path)
  | configFileBadState (badStateFiles : List Path)
  | configFileCommandDiffers (cmd cmdRunning : Option String)
  | stateMismatch (removedDests : List Path)
deriving DecidableEq, Repr

/-- An entry of the defaults state; its `preserve_properties` is always
`True`. -/
structure StateEntry where
  source : Path
  dest : Option Path
deriving DecidableEq, Repr

/-- The defaults state: the recorded paths and their entries. -/
abbrev State := Dict Path StateEntry

/-- Universal newlines: `"\r\n"` and `"\r"` are read as `"\n"`. -/
def newlines : List Char → List Char
  | [] => []
  | '\r' :: '\n' :: rest => '\n' :: newlines rest
  | '\r' :: rest => '\n' :: newlines rest
  | c :: rest => c :: newlines rest

/-- What is read in text mode from a file that the text was written to. -/
def universalNewlines (text : String) : String := String.ofList (newlines text.toList)

theorem newlines_of_not_mem {text : List Char} (h : '\r' ∉ text) : newlines text = text := by
  induction text with
  | nil => rfl
  | cons c rest ih =>
    rw [List.mem_cons, not_or] at h
    rw [newlines, ih h.2]
    · rintro rest' rfl -
      exact h.1 rfl
    · rintro rfl
      exact h.1 rfl

/-- A text without a carriage return is read as it was written. -/
theorem universalNewlines_eq_self {text : String} (h : '\r' ∉ text.toList) :
    universalNewlines text = text := by
  rw [universalNewlines, newlines_of_not_mem h, String.ofList_toList]

/-- What the program writes in files and reads from them in text mode.
`json.load` gives back what `json.dump` wrote and refuses an empty file. -/
structure Codec (β : Type) where
  empty : β
  encode : String → β
  decode : β → Option String
  dumps : State → β
  loads : β → Option State
  decode_encode : ∀ text, decode (encode text) = some (universalNewlines text)
  loads_dumps : ∀ state : State, state.keys.Nodup → loads (dumps state) = some state
  nodup_of_loads : ∀ content state, loads content = some state → state.keys.Nodup
  loads_empty : loads empty = none

/-- The container.  `toAscii` is the character that `int()` reads for one
outside of ASCII, `search` is `re.search` (`none` for a bad pattern), and
`listed` is the order in which a directory is listed. -/
structure System (β : Type) where
  codec : Codec β
  cwd : Loc
  umask : BitVec 12
  uid : ℕ
  gid : ℕ
  maxLinks : ℕ
  recursionLimit : ℕ
  passwd : List (String × ℕ)
  group : List (String × ℕ)
  toAscii : Char → Char
  search : String → String → Option Bool
  listed : Loc → List String → List String
  listed_perm : ∀ loc names, (listed loc names).Perm names

/-- The state of the file system: the tree, and for each of the next
operations the error it fails with, if any. -/
structure World (β : Type) where
  tree : FileTree β
  faults : List (Option Errno)

abbrev Os (β : Type) := EStateM PyExn (World β)

variable {β α : Type}

/-! ## Operations -/

/-- The tree as it stands. -/
def tree : Os β (FileTree β) := fun w => .ok w.tree w

/-- One operation of the kernel. -/
def syscall (f : FileTree β → Except Errno (α × FileTree β)) : Os β α := fun w =>
  match w.faults with
  | some e :: faults => .error (.osError e) { w with faults := faults }
  | faults =>
    match f w.tree with
    | .ok (a, t) => .ok a ⟨t, faults.tail⟩
    | .error e => .error (.osError e) ⟨w.tree, faults.tail⟩

/-- A statement under a condition. -/
def when (c : Prop) [Decidable c] (m : Os β Unit) : Os β Unit :=
  if c then m else pure ()

/-- `except OSError` around a statement: the error is logged. -/
def logOSError (m : Os β Unit) : Os β Unit :=
  tryCatch m fun
    | .osError _ => pure ()
    | e => throw e

namespace System

variable (sys : System β)

/-- Where a path leads. `follow` is for a link at its end. -/
def find (t : FileTree β) (follow : Bool) (path : Path) : Found β :=
  resolve t sys.maxLinks sys.cwd follow path

/-! ### `os.path` -/

/-- What a path leads to in the end. -/
def look (t : FileTree β) (path : Path) : Option (Node β) := (sys.find t true path).node

/-- `os.path.exists(path)`. -/
def pathExists (t : FileTree β) (path : Path) : Bool := (sys.look t path).isSome

/-- `os.path.lexists(path)`. -/
def lexists (t : FileTree β) (path : Path) : Bool :=
  (sys.find t false path).node.isSome

/-- `os.path.isdir(path)`. -/
def isdir (t : FileTree β) (path : Path) : Bool :=
  ((sys.look t path).map Node.isDir).getD false

/-- `os.path.isfile(path)`. -/
def isfile (t : FileTree β) (path : Path) : Bool :=
  ((sys.look t path).map Node.isFile).getD false

/-- `os.path.islink(path)`. -/
def islink (t : FileTree β) (path : Path) : Bool :=
  ((sys.find t false path).node.map Node.isLink).getD false

/-- `os.path.samefile(a, b)`, and `False` where one does not exist. -/
def samefile (t : FileTree β) (a b : Path) : Bool :=
  match sys.find t true a, sys.find t true b with
  | .found l _, .found l' _ => l = l'
  | _, _ => false

/-- The names that `os.scandir(path)` gives. -/
def scandir (t : FileTree β) (path : Path) : Option (List String) :=
  match sys.find t true path with
  | .found loc (.dir _) => some (sys.listed loc (t.names loc))
  | _ => none

/-! ### `os` -/

/-- An operation on a node that is there. -/
def onNode (follow : Bool) (path : Path)
    (f : FileTree β → Loc → Node β → Except Errno (α × FileTree β)) : Os β α :=
  syscall fun t =>
    match sys.find t follow path with
    | .found loc n => f t loc n
    | .free _ _ => .error .ENOENT
    | .failed e => .error e

/-- `os.listdir(path)`. -/
def listdir (path : Path) : Os β (List String) :=
  sys.onNode true path fun t loc n =>
    match n with
    | .dir _ => .ok (sys.listed loc (t.names loc), t)
    | _ => .error .ENOTDIR

/-- `os.stat(path)`. -/
def stat (path : Path) : Os β (Node β) :=
  sys.onNode true path fun t _ n => .ok (n, t)

/-- `os.readlink(path)`. -/
def readlink (path : Path) : Os β Path :=
  sys.onNode false path fun t _ n =>
    match n with
    | .link target => .ok (target, t)
    | _ => .error .EINVAL

/-- `os.symlink(target, path)`. -/
def symlink (target path : Path) : Os β Unit :=
  syscall fun t =>
    match sys.find t false path with
    | .found _ _ => .error .EEXIST
    | .free loc slash => if slash then .error .ENOENT else .ok ((), t.create loc (.link target))
    | .failed e => .error e

/-- Unlinking what is not a directory. -/
def unlinkAt (t : FileTree β) (loc : Loc) (n : Node β) : Except Errno (Unit × FileTree β) :=
  if n.isDir then .error .EISDIR else .ok ((), t.erase loc)

/-- Removing an empty directory. -/
def rmdirAt (t : FileTree β) (loc : Loc) (n : Node β) : Except Errno (Unit × FileTree β) :=
  if n.isDir = false then .error .ENOTDIR
  else if loc = [] ∨ t.names loc ≠ [] then .error .ENOTEMPTY
  else .ok ((), t.erase loc)

/-- `os.remove(path)`. -/
def remove (path : Path) : Os β Unit :=
  sys.onNode false path unlinkAt

/-- The kernel refuses to remove what `.` and `..` at the end of a path
name, and a link under the name of a directory. -/
def rmdir (path : Path) : Os β Unit :=
  syscall fun t =>
    let path' := path.rdropWhile (· = "")
    if path'.getLastD "" = "." then .error .EINVAL
    else if path'.getLastD "" = ".." then .error .ENOTEMPTY
    else
      match sys.find t false path' with
      | .found loc n => rmdirAt t loc n
      | .free _ _ => .error .ENOENT
      | .failed e => .error e

/-- `os.mkdir(path)`. -/
def mkdir (path : Path) : Os β Unit :=
  syscall fun t =>
    match sys.find t false path with
    | .found _ _ => .error .EEXIST
    | .free loc _ => .ok ((), t.create loc (.dir ⟨0o777 &&& ~~~sys.umask, sys.uid, sys.gid⟩))
    | .failed e => .error e

/-- `os.mknod(path)`: an empty file. -/
def mknod (path : Path) : Os β Unit :=
  syscall fun t =>
    match sys.find t false path with
    | .found _ _ => .error .EEXIST
    | .free loc slash =>
      if slash then .error .ENOENT
      else .ok ((), t.create loc
        (.file sys.codec.empty ⟨0o600 &&& ~~~sys.umask, sys.uid, sys.gid⟩))
    | .failed e => .error e

/-- Changing the attributes of a file or a directory. -/
def setAttr (path : Path) (f : Node β → Attr → Attr) : Os β Unit :=
  sys.onNode true path fun t loc n =>
    match n with
    | .file c a => .ok ((), t.replace loc (.file c (f n a)))
    | .dir a => .ok ((), t.replace loc (.dir (f n a)))
    | .link _ => .error .ELOOP

/-- The mode after a change of owner: a file loses the set-user-ID bit, and
the set-group-ID bit if its group may execute it. -/
def chownMode (n : Node β) (mode : BitVec 12) : BitVec 12 :=
  if n.isDir then mode
  else if mode &&& 0o010 = 0 then mode &&& ~~~0o4000
  else mode &&& ~~~0o6000

/-- `os.chown(path, uid, gid)`. -/
def chown (path : Path) (uid gid : ℕ) : Os β Unit :=
  sys.setAttr path fun n a => ⟨chownMode n a.mode, uid, gid⟩

/-- `os.chmod(path, mode)`: the mode is a C `int`, and the kernel takes its
low twelve bits. -/
def chmod (path : Path) (mode : ℤ) : Os β Unit :=
  if -2 ^ 31 ≤ mode ∧ mode < 2 ^ 31 then
    sys.setAttr path fun _ a => { a with mode := BitVec.ofInt 12 mode }
  else throw .overflowError

/-- `os.makedirs(path, exist_ok=exist_ok)`. A path is longer than its head,
so its length bounds the recursion. -/
def makedirsAux : ℕ → Path → Bool → Os β Unit
  | 0, _, _ => throw .recursionError
  | n + 1, path, existOk => do
    let head := if Path.basename path = "" then Path.dirname (Path.dirname path)
      else Path.dirname path
    let tail := if Path.basename path = "" then Path.basename (Path.dirname path)
      else Path.basename path
    let t ← tree
    let deep := decide (head ≠ [""] ∧ tail ≠ "") && !sys.pathExists t head
    when deep (tryCatch (makedirsAux n head existOk) fun
      | .osError .EEXIST => pure ()
      | e => throw e)
    if deep = true ∧ tail = "." then pure ()
    else tryCatch (sys.mkdir path) fun
      | .osError e => do
        let t ← tree
        if existOk && sys.isdir t path then pure () else throw (.osError e)
      | e => throw e

def makedirs (path : Path) (existOk : Bool) : Os β Unit :=
  sys.makedirsAux path.length path existOk

/-- `open(path, 'r').read()`. -/
def openRead (path : Path) : Os β β :=
  sys.onNode true path fun t _ n =>
    match n with
    | .file c _ => .ok (c, t)
    | _ => .error .EISDIR

/-- `open(path, 'w')`: the file is empty from now on. -/
def openWrite (path : Path) : Os β Loc :=
  syscall fun t =>
    match sys.find t true path with
    | .found loc (.file _ a) => .ok (loc, t.replace loc (.file sys.codec.empty a))
    | .found _ _ => .error .EISDIR
    | .free loc slash =>
      if slash then .error .EISDIR
      else .ok (loc, t.create loc
        (.file sys.codec.empty ⟨0o666 &&& ~~~sys.umask, sys.uid, sys.gid⟩))
    | .failed e => .error e

/-- Writing the contents of an open file. -/
def write (loc : Loc) (content : β) : Os β Unit :=
  syscall fun t =>
    match t.lookup loc with
    | some (.file _ a) => .ok ((), t.replace loc (.file content a))
    | _ => .error Errno.EIO

/-- `with open(path, 'w') as f: f.write(content)`. -/
def writeFile (path : Path) (content : β) : Os β Unit := do
  let loc ← sys.openWrite path
  write loc content

/-! ### `shutil` -/

/-- An operation on the node at a location. -/
def atNode (loc : Loc) (f : FileTree β → Loc → Node β → Except Errno (α × FileTree β)) : Os β α :=
  syscall fun t =>
    match t.lookup loc with
    | some n => f t loc n
    | none => .error .ENOENT

/-- Removing everything in a directory, deepest first. -/
def removeContents : ℕ → Loc → Os β Unit
  | 0, _ => throw .recursionError
  | n + 1, loc => do
    let names ← atNode loc fun t loc _ => .ok (sys.listed loc (t.names loc), t)
    names.forM fun x => do
      let t ← tree
      if t.isDir (loc ++ [x]) then
        removeContents n (loc ++ [x])
        atNode (loc ++ [x]) rmdirAt
      else atNode (loc ++ [x]) unlinkAt

/-- `shutil.rmtree(path)`, which refuses a link. -/
def rmtree (path : Path) : Os β Unit := do
  let t ← tree
  match sys.find t false path with
  | .found loc (.dir _) => do
    sys.removeContents sys.recursionLimit loc
    sys.rmdir path
  | .found _ (.file _ _) => throw (.osError .ENOTDIR)
  | .found _ (.link _) => throw (.osError .ELOOP)
  | .free _ _ => throw (.osError .ENOENT)
  | .failed e => throw (.osError e)

/-- `shutil.copyfile(src, dst)`. -/
def copyfile (src dst : Path) : Os β Unit := do
  let t ← tree
  if sys.samefile t src dst then throw (.osError .EINVAL)
  else do
    let content ← sys.openRead src
    sys.writeFile dst content

/-- `shutil.copymode(src, dst)`. `shutil.copystat` does this and sets the
times, which are not part of the tree. -/
def copymode (src dst : Path) : Os β Unit := do
  let n ← sys.stat src
  sys.chmod dst n.attr.mode.toNat

/-- `shutil.copystat(src, dst)`. -/
def copystat (src dst : Path) : Os β Unit := sys.copymode src dst

/-- `shutil.copy(src, dst)`. -/
def copy (src dst : Path) : Os β Unit := do
  let t ← tree
  let dst := if sys.isdir t dst then Path.join dst [Path.basename src] else dst
  sys.copyfile src dst
  sys.copymode src dst

/-! ### `os.walk` -/

/-- `os.walk(top)` from the top down, not into links: each directory with
its subdirectories and its other entries. -/
def walkAux (t : FileTree β) : ℕ → Path → List (Path × List String × List String)
  | 0, _ => []
  | n + 1, top =>
    match sys.scandir t top with
    | none => []
    | some names =>
      let dirs := names.filter fun x => sys.isdir t (Path.join top [x])
      let files := names.filter fun x => !sys.isdir t (Path.join top [x])
      (top, dirs, files) ::
        dirs.flatMap fun x =>
          if sys.islink t (Path.join top [x]) then [] else walkAux t n (Path.join top [x])

/-- The walk is never deeper than the number of nodes. -/
def walk (t : FileTree β) (top : Path) : List (Path × List String × List String) :=
  sys.walkAux t t.size top

/-! ### `pwd` and `grp` -/

/-- `pwd.getpwnam(name).pw_uid`. -/
def getpwnam (name : String) : Os β ℕ :=
  match sys.passwd.lookup name with
  | some uid => pure uid
  | none => throw .keyError

/-- The name of a user. -/
def userName (uid : ℕ) : Option String := (sys.passwd.find? fun e => e.2 = uid).map Prod.fst

/-- `pwd.getpwuid(uid).pw_name`. -/
def getpwuid (uid : ℕ) : Os β String :=
  match sys.userName uid with
  | some name => pure name
  | none => throw .keyError

/-- `grp.getgrnam(name).gr_gid`. -/
def getgrnam (name : String) : Os β ℕ :=
  match sys.group.lookup name with
  | some gid => pure gid
  | none => throw .keyError

/-- The name of a group. -/
def groupName (gid : ℕ) : Option String := (sys.group.find? fun e => e.2 = gid).map Prod.fst

/-- `grp.getgrgid(gid).gr_name`. -/
def getgrgid (gid : ℕ) : Os β String :=
  match sys.groupName gid with
  | some name => pure name
  | none => throw .keyError

end System

end Kolla.SetConfigs
