import Kolla.SetConfigs.System

/-!
# `glob.glob`

Shell patterns as the `glob` and `fnmatch` modules read them.  A pattern is
a path; a component with one of `*`, `?` and `[` is matched against the
names of a directory, and every other component is taken as it is.

A pattern without these characters matches the path that it spells, if
that exists (`glob_of_not_magic`).
-/

namespace Kolla.SetConfigs

open Kolla.Lib

/-! ## `fnmatch` -/

/-- What a part of a pattern matches. -/
inductive Token where
  | star
  | any
  | literal (c : Char)
  | set (negated : Bool) (ranges : List (Char × Char))
deriving DecidableEq, Repr

/-- The members of a bracket expression. A hyphen between two characters
makes a range, and the first character after a range is plain. -/
def setRanges : List Char → List (Char × Char)
  | lo :: '-' :: hi :: rest => (lo, hi) :: setRanges rest
  | c :: rest => (c, c) :: setRanges rest
  | [] => []

/-- The members of the bracket expression that starts here and what follows
its closing bracket. A closing bracket in front is a member. -/
def splitSet (cs : List Char) : Option (List Char × List Char) :=
  match cs with
  | ']' :: rest =>
    if ']' ∈ rest then
      some (']' :: rest.takeWhile (· ≠ ']'), (rest.dropWhile (· ≠ ']')).tail)
    else none
  | _ =>
    if ']' ∈ cs then some (cs.takeWhile (· ≠ ']'), (cs.dropWhile (· ≠ ']')).tail)
    else none

/-- The tokens of a pattern; `n` is at least its length. -/
def tokens : ℕ → List Char → List Token
  | _, [] => []
  | 0, _ => []
  | n + 1, '*' :: rest => .star :: tokens n rest
  | n + 1, '?' :: rest => .any :: tokens n rest
  | n + 1, '[' :: '!' :: rest =>
    match splitSet rest with
    | some (members, rest') => .set true (setRanges members) :: tokens n rest'
    | none => .literal '[' :: tokens n ('!' :: rest)
  | n + 1, '[' :: rest =>
    match splitSet rest with
    | some (members, rest') => .set false (setRanges members) :: tokens n rest'
    | none => .literal '[' :: tokens n rest
  | n + 1, c :: rest => .literal c :: tokens n rest

/-- Whether one character matches a token other than `*`. -/
def matchChar : Token → Char → Bool
  | .star, _ => false
  | .any, _ => true
  | .literal c, d => c = d
  | .set negated ranges, d => ranges.any (fun r => r.1 ≤ d ∧ d ≤ r.2) != negated

/-- Whether some tail of the characters satisfies the test. -/
def anyTail (test : List Char → Bool) : List Char → Bool
  | [] => test []
  | c :: cs => test (c :: cs) || anyTail test cs

def matchTokens : List Token → List Char → Bool
  | [], cs => cs.isEmpty
  | .star :: ts, cs => anyTail (matchTokens ts) cs
  | _ :: _, [] => false
  | t :: ts, c :: cs => matchChar t c && matchTokens ts cs

/-- `fnmatch.fnmatchcase(name, pattern)`. -/
def fnmatch (name pattern : String) : Bool :=
  matchTokens (tokens pattern.toList.length pattern.toList) name.toList

/-! ## `glob` -/

/-- `has_magic(path)`. -/
def hasMagic (path : Path) : Bool :=
  path.any fun x => x.toList.any fun c => c = '*' || c = '?' || c = '['

/-- `_ishidden(name)`. -/
def ishidden (name : String) : Bool := name.toList.head? = some '.'

variable {β : Type}

namespace System

variable (sys : System β)

/-- The names in a directory that match a pattern. `dironly` is for a part
of a pattern that more follows. -/
def glob1 (t : FileTree β) (dirname : Path) (pattern : String) (dironly : Bool) : List String :=
  let dir := if dirname = [""] then ["."] else dirname
  let names := ((sys.scandir t dir).getD []).filter fun x =>
    !dironly || sys.isdir t (Path.join dir [x])
  (names.filter fun x => ishidden pattern || !ishidden x).filter (fnmatch · pattern)

/-- The one name that is spelled out, if it is there. -/
def glob0 (t : FileTree β) (dirname : Path) (basename : String) : List String :=
  if basename ≠ "" then
    if sys.lexists t (Path.join dirname [basename]) then [basename] else []
  else if sys.isdir t dirname then [basename] else []

/-- `_iglob`. The directory of a path is shorter than the path, so `n`
starts at its length. -/
def iglob (t : FileTree β) : ℕ → Path → Bool → List Path
  | 0, _, _ => []
  | n + 1, pathname, dironly =>
    let dirname := Path.dirname pathname
    let basename := Path.basename pathname
    if hasMagic pathname = false then
      if basename ≠ "" then (if sys.lexists t pathname then [pathname] else [])
      else if sys.isdir t dirname then [pathname] else []
    else if dirname = [""] then (sys.glob1 t dirname basename dironly).map ([·])
    else
      let dirs := if dirname ≠ pathname ∧ hasMagic dirname then iglob t n dirname true
        else [dirname]
      dirs.flatMap fun d =>
        (if hasMagic [basename] then sys.glob1 t d basename dironly
          else sys.glob0 t d basename).map fun x => Path.join d [x]

/-- `glob.glob(pathname)`. -/
def glob (t : FileTree β) (pathname : Path) : List Path :=
  sys.iglob t pathname.length pathname false

/-- A pattern without special characters stands for itself. -/
theorem glob_of_not_magic {t : FileTree β} {path : Path} (h : hasMagic path = false) {p : Path}
    (hp : p ∈ sys.glob t path) : p = path := by
  unfold glob at hp
  cases hlen : path.length with
  | zero =>
    rw [hlen] at hp
    cases hp
  | succ n =>
    rw [hlen, iglob, if_pos h] at hp
    split at hp
    · split at hp
      · exact List.mem_singleton.mp hp
      · cases hp
    · split at hp
      · exact List.mem_singleton.mp hp
      · cases hp

end System

end Kolla.SetConfigs
