import Kolla.SetConfigs.Glob
import Mathlib.Data.Int.Bitwise

/-!
# Owners and modes

`user_group` and `handle_permissions` of `docker/base/set_configs.py`, and
the two conversions between modes and their texts that the program relies
on: `int(perm, base=0)` and `oct(st_mode)[-4:]`.

A key of a JSON object is `absent`, `null` or `given` a value.
-/

namespace Kolla.SetConfigs

open Kolla.Lib

variable {β : Type}

/-- A key of a JSON object. -/
inductive Key (α : Type) where
  | absent
  | null
  | given (value : α)
deriving DecidableEq, Repr

namespace Key

variable {α : Type}

def ofOption : Option α → Key α
  | some a => .given a
  | none => .null

/-- `data.get(key)`; also the keyword argument with default `None`. -/
def get : Key α → Option α
  | .given a => some a
  | _ => none

/-- `key in data`. -/
def present : Key α → Bool
  | .absent => false
  | _ => true

/-- `data[key]`. -/
def item : Key α → Os β (Option α)
  | .absent => throw .keyError
  | .null => pure none
  | .given a => pure (some a)

/-- The truth value of a flag. -/
def truthy : Key Bool → Bool
  | .given b => b
  | _ => false

end Key

/-! ## `user_group` -/

/-- `user_group(owner)` for a text. -/
def splitOwner (owner : String) : String × String :=
  if ':' ∈ owner.toList then
    let user := String.ofList (owner.toList.takeWhile (· ≠ ':'))
    let group := String.ofList (owner.toList.dropWhile (· ≠ ':')).tail
    (user, if group = "" then user else group)
  else (owner, owner)

def userGroup : Option String → Os β (String × String)
  | some owner => pure (splitOwner owner)
  | none => throw .typeError

/-! ## `int(perm, base=0)` -/

/-- The value of a digit. -/
def digitValue (c : Char) : Option ℕ :=
  if '0' ≤ c ∧ c ≤ '9' then some (c.toNat - '0'.toNat)
  else if 'a' ≤ c ∧ c ≤ 'z' then some (c.toNat - 'a'.toNat + 10)
  else if 'A' ≤ c ∧ c ≤ 'Z' then some (c.toNat - 'A'.toNat + 10)
  else none

/-- Digits with single underscores between them. `digit` says that the last
character was a digit. -/
def readDigits (base : ℕ) : ℕ → Bool → List Char → Option ℕ
  | value, digit, [] => if digit then some value else none
  | value, digit, c :: cs =>
    if c = '_' then
      if digit then readDigits base value false cs else none
    else
      match digitValue c with
      | some d => if d < base then readDigits base (value * base + d) true cs else none
      | none => none

/-- The digits after a prefix, which may begin with an underscore. -/
def readPrefixed (base : ℕ) : List Char → Option ℕ
  | '_' :: cs => readDigits base 0 false cs
  | cs => readDigits base 0 false cs

/-- A number without its sign. A leading zero is for zero only. -/
def readNumber : List Char → Option ℕ
  | '0' :: 'x' :: cs => readPrefixed 16 cs
  | '0' :: 'X' :: cs => readPrefixed 16 cs
  | '0' :: 'o' :: cs => readPrefixed 8 cs
  | '0' :: 'O' :: cs => readPrefixed 8 cs
  | '0' :: 'b' :: cs => readPrefixed 2 cs
  | '0' :: 'B' :: cs => readPrefixed 2 cs
  | '0' :: cs => (readDigits 10 0 false ('0' :: cs)).filter (· = 0)
  | cs => readDigits 10 0 false cs

def isSpace (c : Char) : Bool :=
  c = ' ' || c = '\t' || c = '\n' || c = '\r' || c.toNat = 11 || c.toNat = 12

def readSigned : List Char → Option ℤ
  | '-' :: cs => (readNumber cs).map fun n => -(n : ℤ)
  | '+' :: cs => (readNumber cs).map fun n => (n : ℤ)
  | cs => (readNumber cs).map fun n => (n : ℤ)

/-- `int(text, base=0)`. -/
def intBase0 (toAscii : Char → Char) (text : List Char) : Option ℤ :=
  readSigned (((text.map toAscii).dropWhile isSpace).rdropWhile isSpace)

/-- The octal digits of a permission, with `0o` in place of a plain first
digit where the text has four characters. -/
def patchPerm (perm : List Char) : List Char :=
  match perm with
  | [a, b, c, d] => if b ≠ 'o' then [a, 'o', b, c, d] else perm
  | _ => perm

/-! ## `oct(st_mode)[-4:]` -/

/-- `st_mode`: the type of the node and its mode. -/
def stMode : Node β → ℕ
  | .file _ a => 0o100000 + a.mode.toNat
  | .dir a => 0o040000 + a.mode.toNat
  | n => 0o120000 + n.attr.mode.toNat

/-- `oct(n)`. -/
def oct (n : ℕ) : List Char := '0' :: 'o' :: Nat.toDigits 8 n

/-- `oct(st_mode)[-4:]`. -/
def actualPerm (n : Node β) : String :=
  String.ofList ((oct (stMode n)).drop ((oct (stMode n)).length - 4))

/-! ## `handle_permissions` -/

/-- An entry of `permissions`. -/
structure Permission where
  path : Key Path
  owner : Key String
  recurse : Key Bool
  perm : Key String
  exclude : Key (List String)
deriving DecidableEq, Repr

/-- Each read bit of a directory brings the execute bit with it. -/
def withExecute (perm : ℤ) : ℤ :=
  let bit (read execute : ℕ) (p : ℤ) : ℤ :=
    if p.testBit read ∧ ¬ p.testBit execute then p + 2 ^ execute else p
  bit 2 0 (bit 5 3 (bit 8 6 perm))

namespace System

variable (sys : System β)

/-- The last part of `set_perms`. -/
def setMode (path : Path) (perm : String) : Os β Unit :=
  match intBase0 sys.toAscii (patchPerm perm.toList) with
  | none => throw .valueError
  | some mode => do
    let t ← tree
    let mode := if sys.isdir t path then withExecute mode else mode
    logOSError (sys.chmod path mode)

def setPerms (path : Path) (uid gid : ℕ) (perm : Option String) : Os β Unit := do
  let t ← tree
  when (sys.pathExists t path) do
    logOSError (sys.chown path uid gid)
    match perm with
    | some perm => when (perm ≠ "") (sys.setMode path perm)
    | none => pure ()

/-- `handle_exclusion(root, path_suffix)`, which calls `set_perms` once for
each expression that does not match. -/
def handleExclusion (exclude : List String) (uid gid : ℕ) (perm : Option String)
    (root : Path) (pathSuffix : String) : Os β Unit :=
  let fullPath := Path.join root [pathSuffix]
  if exclude ≠ [] then
    exclude.forM fun exclude_ =>
      match sys.search exclude_ (Path.text fullPath) with
      | none => throw .reError
      | some found => when (found = false) (sys.setPerms fullPath uid gid perm)
  else sys.setPerms fullPath uid gid perm

/-- One entry of `permissions`. -/
def handlePermission (permission : Permission) : Os β Unit := do
  let recurse := permission.recurse.truthy
  let perm := permission.perm.get
  let exclude := permission.exclude.get.getD []
  let desired ← userGroup permission.owner.get
  let uid ← sys.getpwnam desired.1
  let gid ← sys.getgrnam desired.2
  match permission.path.get with
  | none => throw .typeError
  | some path => do
    let t ← tree
    (sys.glob t path).forM fun dest => do
      sys.setPerms dest uid gid perm
      let t ← tree
      when (recurse ∧ sys.isdir t dest) do
        (sys.walk t dest).forM fun e => do
          e.2.1.forM fun dir_ => sys.handleExclusion exclude uid gid perm e.1 dir_
          e.2.2.forM fun file_ => sys.handleExclusion exclude uid gid perm e.1 file_

/-- `handle_permissions(config)`, given `config.get('permissions', list())`. -/
def handlePermissions (permissions : List Permission) : Os β Unit :=
  permissions.forM sys.handlePermission

end System

end Kolla.SetConfigs
