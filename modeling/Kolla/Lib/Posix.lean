import Kolla.Lib.FileTree
import Mathlib.Data.List.DropRight

/-!
# Path texts and their resolution

A path text is kept as the list that `text.split('/')` gives, so `/a/b` is
`["", "a", "b"]` and `d/` is `["d", ""]`.  `Path` holds the functions of
`os.path` that only look at the text.

`resolve` is the kernel's walk.  It starts at the root or at the working
directory, steps through directories, replaces a symbolic link by its
target, and stops at a node (`found`), at a missing name in an existing
directory (`free`), or with an error.  The last component of a path is
followed or not (`follow`); every other link is followed.  The number of
links on one walk is limited.

Three groups of lemmas follow the definitions.  A walk over plain names
is a lookup (`walk_names`).  A walk splits at every component
(`walk_append`, `walk_prefix`).  In trees of one shape, walks go the same
way (`walk_sameShape`).
-/

namespace Kolla.Lib

inductive Errno where
  | EPERM
  | ENOENT
  | EIO
  | EACCES
  | EEXIST
  | ENOTDIR
  | EISDIR
  | EINVAL
  | ENOSPC
  | EROFS
  | ENOTEMPTY
  | ELOOP
deriving DecidableEq, Repr

/-! ## Path texts -/

/-- A path text, split at its slashes. -/
abbrev Path := List String

namespace Path

/-- `path.startswith('/')`. -/
def isabs : Path → Bool
  | "" :: _ :: _ => true
  | _ => false

/-- `path.endswith('/')`. -/
def endswithSep (path : Path) : Bool :=
  decide (2 ≤ path.length) && decide (path.getLastD "" = "")

/-- `a + b`. -/
def concat : Path → Path → Path
  | [], b => b
  | [x], y :: b => (x ++ y) :: b
  | [x], [] => [x]
  | x :: a, b => x :: concat a b

/-- `os.path.join(a, b)`. -/
def join (a b : Path) : Path :=
  if isabs b then b
  else if a.getLastD "" = "" then a.dropLast ++ b
  else a ++ b

/-- `os.path.basename(path)`, which has no slash. -/
def basename (path : Path) : String := path.getLastD ""

/-- `os.path.dirname(path)`. -/
def dirname (path : Path) : Path :=
  if path.dropLast = [] then [""]
  else if path.dropLast.all (· = "") then path.dropLast ++ [""]
  else path.dropLast.rdropWhile (· = "")

/-- One component of a path, without looking at the tree. -/
def absStep (loc : Loc) (x : String) : Loc :=
  if x = "" ∨ x = "." then loc else if x = ".." then loc.dropLast else loc ++ [x]

/-- The components of `os.path.abspath(path)`. -/
def abspath (cwd : Loc) (path : Path) : Loc :=
  path.foldl absStep (if isabs path then [] else cwd)

/-- The length of the longest common prefix. -/
def commonLength : Loc → Loc → ℕ
  | x :: a, y :: b => if x = y then commonLength a b + 1 else 0
  | _, _ => 0

/-- `os.path.relpath(path, start)`. -/
def relpath (cwd : Loc) (path start : Path) : Path :=
  let i := commonLength (abspath cwd start) (abspath cwd path)
  let rel := List.replicate ((abspath cwd start).length - i) ".." ++ (abspath cwd path).drop i
  if rel = [] then ["."] else rel

/-- The text of the path. -/
def text (path : Path) : String := "/".intercalate path

/-- The path of what stands at the end of `names` below `path`: the names
are joined to it one after the other. -/
def under (path : Path) (names : List String) : Path :=
  names.foldl (fun path x => join path [x]) path

@[simp] theorem under_nil (path : Path) : under path [] = path := rfl

@[simp] theorem under_cons (path : Path) (x : String) (names : List String) :
    under path (x :: names) = under (join path [x]) names := rfl

theorem under_append (path : Path) (xs ys : List String) :
    under path (xs ++ ys) = under (under path xs) ys :=
  List.foldl_append

theorem under_concat (path : Path) (xs : List String) (x : String) :
    under path (xs ++ [x]) = join (under path xs) [x] :=
  under_append path xs [x]

theorem join_name (path : Path) (x : String) :
    join path [x] = if path.getLastD "" = "" then path.dropLast ++ [x] else path ++ [x] := by
  simp [join, isabs]

theorem getLastD_join_name (path : Path) (x : String) : (join path [x]).getLastD "" = x := by
  rw [join_name]
  split <;> simp

/-- A path with a name at its end is not empty. -/
theorem under_ne_empty {path : Path} {names : List String} (hne : names ≠ [])
    (hnames : ∀ x ∈ names, IsName x) : under path names ≠ [] ∧ under path names ≠ [""] := by
  obtain ⟨names, x, rfl⟩ := (List.eq_nil_or_concat' names).resolve_left hne
  have hlast := getLastD_join_name (under path names) x
  have hx := (hnames x (by simp)).1
  rw [under_concat]
  constructor <;> intro h <;> rw [h] at hlast <;> exact hx hlast.symm

/-- Joining names to a path that does not end in a slash appends them. -/
theorem under_eq_append {path : Path} {names : List String}
    (hpath : path.getLastD "" ≠ "") (hnames : ∀ x ∈ names, IsName x) :
    under path names = path ++ names := by
  induction names generalizing path with
  | nil => simp
  | cons x names ih =>
    have hx : IsName x := hnames x (by simp)
    rw [under_cons, join_name, if_neg hpath, ih (by simpa using hx.1)
      (fun y hy => hnames y (by simp [hy]))]
    simp

/-- Joining at least one name to a path. -/
theorem under_cons_eq {path : Path} {x : String} {names : List String}
    (hnames : ∀ y ∈ x :: names, IsName y) :
    under path (x :: names)
      = (if path.getLastD "" = "" then path.dropLast else path) ++ x :: names := by
  have hx : IsName x := hnames x (by simp)
  rw [under_cons, join_name]
  split
  · rw [under_eq_append (by simpa using hx.1) (fun y hy => hnames y (by simp [hy]))]
    simp
  · rw [under_eq_append (by simpa using hx.1) (fun y hy => hnames y (by simp [hy]))]
    simp

theorem isabs_name {x : String} (hx : IsName x) (names : List String) :
    isabs (x :: names) = false := by
  cases names <;> simp [isabs, hx.1]

/-- Joining names one after the other is joining the path that they make. -/
theorem under_eq_join {path : Path} {names : List String} (hne : names ≠ [])
    (hnames : ∀ x ∈ names, IsName x) : under path names = join path names := by
  cases names with
  | nil => exact absurd rfl hne
  | cons x names =>
    rw [under_cons_eq hnames, join, isabs_name (hnames x (by simp))]
    split <;> rfl

theorem isName_of_mem_under {names : List String} {x : String} (hx : IsName x)
    (hnames : ∀ y ∈ names, IsName y) : ∀ y ∈ names ++ [x], IsName y := by
  intro y hy
  rcases List.mem_append.mp hy with hy | hy
  · exact hnames y hy
  · rw [List.mem_singleton.mp hy]
    exact hx

/-- Whether a path is absolute does not depend on what is joined to it,
unless it is empty. -/
theorem isabs_append {path rest : Path} (hpath : path ≠ []) (hne : path ≠ [""]) :
    isabs (path ++ rest) = isabs path := by
  match path with
  | [] => exact absurd rfl hpath
  | [x] =>
    have hx : x ≠ "" := fun h => hne (by rw [h])
    cases rest <;> simp [isabs, hx]
  | x :: y :: path =>
    by_cases hx : x = ""
    · subst hx
      rfl
    · simp [isabs, hx]

theorem isabs_slash {path : Path} (hpath : path ≠ []) (rest : Path) (hrest : rest ≠ []) :
    isabs (path ++ rest) = isabs (path ++ [""]) := by
  match path, rest with
  | [], _ => exact absurd rfl hpath
  | _, [] => exact absurd rfl hrest
  | [x], y :: rest =>
    by_cases hx : x = ""
    · subst hx
      rfl
    · simp [isabs, hx]
  | x :: z :: path, y :: rest =>
    by_cases hx : x = ""
    · subst hx
      rfl
    · simp [isabs, hx]

theorem foldl_absStep {names : List String} (hnames : ∀ x ∈ names, IsName x) (loc : Loc) :
    names.foldl absStep loc = loc ++ names := by
  induction names generalizing loc with
  | nil => simp
  | cons x names ih =>
    have hx : IsName x := hnames x (by simp)
    rw [List.foldl_cons, ih (fun y hy => hnames y (by simp [hy])), absStep,
      if_neg (by simp [hx.1, hx.2.1]), if_neg hx.2.2]
    simp

/-- Joined names come after everything that `os.path.abspath` makes of the
path. -/
theorem abspath_under {cwd : Loc} {path : Path} {names : List String}
    (hnames : ∀ x ∈ names, IsName x) :
    abspath cwd (under path names) = abspath cwd path ++ names := by
  cases names with
  | nil => simp
  | cons x names =>
    have hx : IsName x := hnames x (by simp)
    rw [under_cons_eq hnames]
    unfold abspath
    rw [List.foldl_append, foldl_absStep hnames]
    split
    · rename_i hlast
      rcases List.eq_nil_or_concat' path with rfl | ⟨path', y, rfl⟩
      · rw [List.dropLast_nil, List.nil_append, isabs_name hx]
        rfl
      · have hy : y = "" := by simpa using hlast
        subst hy
        rw [List.dropLast_concat]
        by_cases hp : path' = []
        · subst hp
          rw [List.nil_append, List.nil_append, isabs_name hx]
          rfl
        · rw [isabs_slash hp _ (by simp)]
          simp [List.foldl_append, absStep]
    · rename_i hlast
      have hpath : path ≠ [] := by
        rintro rfl
        exact hlast rfl
      have hne : path ≠ [""] := by
        rintro rfl
        exact hlast rfl
      rw [isabs_append hpath hne]

theorem commonLength_append (a b : Loc) : commonLength a (a ++ b) = a.length := by
  induction a with
  | nil => cases b <;> rfl
  | cons x a ih => simp [commonLength, ih]

/-- The way from a path to what is joined to it. -/
theorem relpath_under {cwd : Loc} {path : Path} {names : List String} (hne : names ≠ [])
    (hnames : ∀ x ∈ names, IsName x) : relpath cwd (under path names) path = names := by
  unfold relpath
  rw [abspath_under hnames, commonLength_append]
  simp [hne]

end Path

/-! ## Resolution -/

/-- Where a walk ends.  `slash` says that a slash follows the missing
name. -/
inductive Found (β : Type) where
  | found (loc : Loc) (node : Node β)
  | free (loc : Loc) (slash : Bool)
  | failed (e : Errno)
deriving DecidableEq, Repr

variable {β : Type}

/-- The node a walk ends at. -/
def Found.node : Found β → Option (Node β)
  | .found _ n => some n
  | _ => none

/-- A walk from the directory `cur`.  `expand` goes on at a link, from the
directory that holds it, with its target and the components left. -/
def scan (t : FileTree β) (follow : Bool) (expand : Loc → Path → Path → Found β) :
    Loc → Path → Found β
  | cur, [] =>
    match t.lookup cur with
    | some n => .found cur n
    | none => .failed .ENOENT
  | cur, x :: rest =>
    if x = "" ∨ x = "." then scan t follow expand cur rest
    else if x = ".." then scan t follow expand cur.dropLast rest
    else
      match t.lookup (cur ++ [x]) with
      | none =>
        if rest = [] then .free (cur ++ [x]) false
        else if rest.all (· = "") then .free (cur ++ [x]) true
        else .failed .ENOENT
      | some (.file c a) => if rest = [] then .found (cur ++ [x]) (.file c a) else .failed .ENOTDIR
      | some (.dir _) => scan t follow expand (cur ++ [x]) rest
      | some (.link target) =>
        if rest = [] ∧ follow = false then .found (cur ++ [x]) (.link target)
        else expand cur target rest

/-- The walk with a limited number of links. -/
def walk (t : FileTree β) (follow : Bool) : ℕ → Loc → Path → Found β
  | 0, cur, path => scan t follow (fun _ _ _ => .failed .ELOOP) cur path
  | links + 1, cur, path =>
    scan t follow
      (fun cur target rest =>
        walk t follow links (if Path.isabs target then [] else cur) (target ++ rest))
      cur path

/-- The walk of a path text. -/
def resolve (t : FileTree β) (links : ℕ) (cwd : Loc) (follow : Bool) (path : Path) : Found β :=
  if path = [] ∨ path = [""] then .failed .ENOENT
  else if Path.isabs path then walk t follow links [] path
  else if t.isDir cwd then walk t follow links cwd path
  else .failed .ENOENT

/-! ## Steps of a walk -/

/-- What the walk does at a link. -/
def expandLink (t : FileTree β) (follow : Bool) : ℕ → Loc → Path → Path → Found β
  | 0, _, _, _ => .failed .ELOOP
  | links + 1, cur, target, rest =>
    walk t follow links (if Path.isabs target then [] else cur) (target ++ rest)

theorem walk_eq_scan (t : FileTree β) (follow : Bool) (links : ℕ) (cur : Loc) (path : Path) :
    walk t follow links cur path = scan t follow (expandLink t follow links) cur path := by
  cases links <;> rfl

theorem walk_nil (t : FileTree β) (follow : Bool) (links : ℕ) (cur : Loc) :
    walk t follow links cur [] =
      match t.lookup cur with
      | some n => .found cur n
      | none => .failed .ENOENT := by
  rw [walk_eq_scan, scan]

theorem walk_skip {x : String} (hx : x = "" ∨ x = ".") (t : FileTree β) (follow : Bool)
    (links : ℕ) (cur : Loc) (rest : Path) :
    walk t follow links cur (x :: rest) = walk t follow links cur rest := by
  rw [walk_eq_scan, walk_eq_scan, scan, if_pos hx]

theorem walk_up (t : FileTree β) (follow : Bool) (links : ℕ) (cur : Loc) (rest : Path) :
    walk t follow links cur (".." :: rest) = walk t follow links cur.dropLast rest := by
  rw [walk_eq_scan, walk_eq_scan, scan, if_neg (by decide), if_pos rfl]

theorem walk_name {x : String} (hx : IsName x) (t : FileTree β) (follow : Bool)
    (links : ℕ) (cur : Loc) (rest : Path) :
    walk t follow links cur (x :: rest) =
      match t.lookup (cur ++ [x]) with
      | none =>
        if rest = [] then .free (cur ++ [x]) false
        else if rest.all (· = "") then .free (cur ++ [x]) true
        else .failed .ENOENT
      | some (.file c a) => if rest = [] then .found (cur ++ [x]) (.file c a) else .failed .ENOTDIR
      | some (.dir _) => walk t follow links (cur ++ [x]) rest
      | some (.link target) =>
        if rest = [] ∧ follow = false then .found (cur ++ [x]) (.link target)
        else expandLink t follow links cur target rest := by
  rw [walk_eq_scan, scan, if_neg (by simp [hx.1, hx.2.1]), if_neg hx.2.2, ← walk_eq_scan]

/-- A component is skipped, goes up, or is a name. -/
theorem component_cases (x : String) : (x = "" ∨ x = ".") ∨ x = ".." ∨ IsName x := by
  by_cases h : x = "" ∨ x = "."
  · exact Or.inl h
  · rw [not_or] at h
    by_cases h' : x = ".."
    · exact Or.inr (Or.inl h')
    · exact Or.inr (Or.inr ⟨h.1, h.2, h'⟩)

/-- Induction over a walk: along the components, and along the links. -/
theorem walk_induction {P : ℕ → Loc → Path → Prop}
    (hnil : ∀ links cur, P links cur [])
    (hskip : ∀ links cur x rest, (x = "" ∨ x = ".") → P links cur rest → P links cur (x :: rest))
    (hup : ∀ links cur rest, P links cur.dropLast rest → P links cur (".." :: rest))
    (hname : ∀ links cur x rest, IsName x → P links (cur ++ [x]) rest →
      (∀ links' target, links = links' + 1 →
        P links' (if Path.isabs target then [] else cur) (target ++ rest)) →
      P links cur (x :: rest)) :
    ∀ links cur path, P links cur path := by
  intro links
  induction links with
  | zero =>
    intro cur path
    induction path generalizing cur with
    | nil => exact hnil 0 cur
    | cons x rest ih =>
      rcases component_cases x with hx | rfl | hx
      · exact hskip 0 cur x rest hx (ih cur)
      · exact hup 0 cur rest (ih _)
      · exact hname 0 cur x rest hx (ih _) (fun links' target h => by cases h)
  | succ links ihl =>
    intro cur path
    induction path generalizing cur with
    | nil => exact hnil _ cur
    | cons x rest ih =>
      rcases component_cases x with hx | rfl | hx
      · exact hskip _ cur x rest hx (ih cur)
      · exact hup _ cur rest (ih _)
      · refine hname _ cur x rest hx (ih _) (fun links' target h => ?_)
        obtain rfl : links = links' := by omega
        exact ihl _ _

/-! ## Where a walk ends -/

theorem isDir_dropLast {t : FileTree β} {cur : Loc} (h : t.isDir cur = true) :
    t.isDir cur.dropLast = true := by
  by_cases hcur : cur = []
  · subst hcur
    exact h
  · obtain ⟨a, ha⟩ := FileTree.isDir_iff.mp h
    rw [← List.dropLast_append_getLast hcur] at ha
    exact FileTree.isDir_iff.mpr (FileTree.parent_dir ha)

/-- Where a link is expanded is a directory. -/
theorem isDir_base {t : FileTree β} {cur : Loc} (h : t.isDir cur = true) (target : Path) :
    t.isDir (if Path.isabs target then [] else cur) = true := by
  split
  · exact t.root
  · exact h

/-- What a walk finds stands in the tree. -/
theorem lookup_of_walk_found {t : FileTree β} {follow : Bool} :
    ∀ links cur path, t.isDir cur = true → ∀ L n, walk t follow links cur path = .found L n →
      t.lookup L = some n := by
  refine walk_induction ?_ ?_ ?_ ?_
  · intro links cur _ L n h
    rw [walk_nil] at h
    split at h
    · rename_i m hm
      obtain ⟨rfl, rfl⟩ := Found.found.inj h
      exact hm
    · cases h
  · intro links cur x rest hx ih hcur L n h
    rw [walk_skip hx] at h
    exact ih hcur L n h
  · intro links cur rest ih hcur L n h
    rw [walk_up] at h
    exact ih (isDir_dropLast hcur) L n h
  · intro links cur x rest hx ih ihl hcur L n h
    rw [walk_name hx] at h
    split at h
    · split at h
      · cases h
      · split at h <;> cases h
    · rename_i hl
      split at h
      · obtain ⟨rfl, rfl⟩ := Found.found.inj h
        exact hl
      · cases h
    · rename_i a hl
      exact ih (FileTree.isDir_iff.mpr ⟨a, hl⟩) L n h
    · rename_i target hl
      split at h
      · obtain ⟨rfl, rfl⟩ := Found.found.inj h
        exact hl
      · cases links with
        | zero => cases h
        | succ links => exact ihl links target rfl (isDir_base hcur target) L n h

/-- What a walk finds free can be created. -/
theorem vacant_of_walk_free {t : FileTree β} {follow : Bool} :
    ∀ links cur path, t.isDir cur = true → ∀ L slash,
      walk t follow links cur path = .free L slash → t.Vacant L := by
  refine walk_induction ?_ ?_ ?_ ?_
  · intro links cur _ L slash h
    rw [walk_nil] at h
    split at h <;> cases h
  · intro links cur x rest hx ih hcur L slash h
    rw [walk_skip hx] at h
    exact ih hcur L slash h
  · intro links cur rest ih hcur L slash h
    rw [walk_up] at h
    exact ih (isDir_dropLast hcur) L slash h
  · intro links cur x rest hx ih ihl hcur L slash h
    rw [walk_name hx] at h
    split at h
    · rename_i hl
      have hvacant : t.Vacant (cur ++ [x]) := by
        refine ⟨hl, by simp, by simpa using hcur, ?_⟩
        intro y hy
        obtain ⟨a, ha⟩ := FileTree.isDir_iff.mp hcur
        rcases List.mem_append.mp hy with hy | hy
        · exact FileTree.isName_of_lookup ha y hy
        · rw [List.mem_singleton.mp hy]
          exact hx
      split at h
      · cases h
        exact hvacant
      · split at h
        · cases h
          exact hvacant
        · cases h
    · split at h <;> cases h
    · rename_i a hl
      exact ih (FileTree.isDir_iff.mpr ⟨a, hl⟩) L slash h
    · rename_i target hl
      split at h
      · cases h
      · cases links with
        | zero => cases h
        | succ links => exact ihl links target rfl (isDir_base hcur target) L slash h

/-- A walk that follows its last component does not end at a link. -/
theorem isLink_of_walk_found {t : FileTree β} :
    ∀ links cur path, t.isDir cur = true → ∀ L n, walk t true links cur path = .found L n →
      n.isLink = false := by
  refine walk_induction ?_ ?_ ?_ ?_
  · intro links cur hcur L n h
    obtain ⟨a, ha⟩ := FileTree.isDir_iff.mp hcur
    rw [walk_nil, ha] at h
    obtain ⟨rfl, rfl⟩ := Found.found.inj h
    rfl
  · intro links cur x rest hx ih hcur L n h
    rw [walk_skip hx] at h
    exact ih hcur L n h
  · intro links cur rest ih hcur L n h
    rw [walk_up] at h
    exact ih (isDir_dropLast hcur) L n h
  · intro links cur x rest hx ih ihl hcur L n h
    rw [walk_name hx] at h
    split at h
    · split at h
      · cases h
      · split at h <;> cases h
    · split at h
      · obtain ⟨rfl, rfl⟩ := Found.found.inj h
        rfl
      · cases h
    · rename_i a hl
      exact ih (FileTree.isDir_iff.mpr ⟨a, hl⟩) L n h
    · rename_i target hl
      rw [if_neg (by simp)] at h
      cases links with
      | zero => cases h
      | succ links => exact ihl links target rfl (isDir_base hcur target) L n h

/-- A walk that does not follow its last component ends where the other
one does, unless it ends at a link. -/
theorem walk_follow {t : FileTree β} :
    ∀ links cur path, (∀ L target, walk t false links cur path ≠ .found L (.link target)) →
      walk t true links cur path = walk t false links cur path := by
  refine walk_induction ?_ ?_ ?_ ?_
  · intro links cur _
    rw [walk_nil, walk_nil]
  · intro links cur x rest hx ih h
    rw [walk_skip hx] at h ⊢
    rw [walk_skip hx]
    exact ih h
  · intro links cur rest ih h
    rw [walk_up] at h ⊢
    rw [walk_up]
    exact ih h
  · intro links cur x rest hx ih ihl h
    rw [walk_name hx] at h ⊢
    rw [walk_name hx]
    cases hl : t.lookup (cur ++ [x]) with
    | none => rfl
    | some n =>
      rw [hl] at h
      cases n with
      | file c a => rfl
      | dir a => exact ih h
      | link target =>
        simp only [Bool.true_eq_false, and_false, if_false, and_true] at h ⊢
        split
        · rename_i hrest
          rw [if_pos hrest] at h
          exact absurd rfl (h _ _)
        · rename_i hrest
          rw [if_neg hrest] at h
          cases links with
          | zero => rfl
          | succ links => exact ihl links target rfl h

/-! ## Walks over plain names -/

/-- The walk to a node over its own names. -/
theorem walk_names {t : FileTree β} {follow : Bool} {links : ℕ} {names : List String} {n : Node β}
    {cur : Loc} (h : t.lookup (cur ++ names) = some n) (hn : follow = true → n.isLink = false) :
    walk t follow links cur names = .found (cur ++ names) n := by
  induction names generalizing cur with
  | nil =>
    rw [List.append_nil] at h ⊢
    rw [walk_nil, h]
  | cons x names ih =>
    have hx : IsName x := FileTree.isName_of_lookup h x (by simp)
    have happ : cur ++ x :: names = cur ++ [x] ++ names := by simp
    rw [walk_name hx]
    by_cases hnames : names = []
    · subst hnames
      rw [h]
      cases n with
      | file c a => rfl
      | dir a => simp [walk_nil, h]
      | link target =>
        cases follow with
        | false => simp
        | true => exact absurd (hn rfl) (by simp [Node.isLink])
    · rw [happ] at h ⊢
      obtain ⟨a, ha⟩ := FileTree.ancestor_dir h hnames
      rw [ha]
      exact ih h

/-- The walk to a missing name over plain names. -/
theorem walk_missing {t : FileTree β} {follow : Bool} {links : ℕ} {names : List String}
    {cur : Loc} {x : String} (hcur : t.isDir (cur ++ names) = true) (hx : IsName x)
    (h : t.lookup (cur ++ names ++ [x]) = none) :
    walk t follow links cur (names ++ [x]) = .free (cur ++ names ++ [x]) false := by
  induction names generalizing cur with
  | nil =>
    rw [List.append_nil] at h ⊢
    rw [List.nil_append, walk_name hx, h]
    simp
  | cons y names ih =>
    have happ : cur ++ y :: names = cur ++ [y] ++ names := by simp
    obtain ⟨a, ha⟩ := FileTree.isDir_iff.mp hcur
    have hy : IsName y := FileTree.isName_of_lookup ha y (by simp)
    have hdir : ∃ b, t.lookup (cur ++ [y]) = some (.dir b) := by
      rw [happ] at ha
      by_cases hnames : names = []
      · subst hnames
        exact ⟨a, by simpa using ha⟩
      · exact FileTree.ancestor_dir ha hnames
    obtain ⟨b, hb⟩ := hdir
    rw [List.cons_append, walk_name hy, hb]
    rw [happ] at hcur h ⊢
    exact ih hcur h

/-! ## Splitting a walk -/

/-- After the directory that a part of the path leads to, the walk goes on
with the links left. -/
theorem walk_append {t : FileTree β} :
    ∀ links cur path, ∀ L a, walk t true links cur path = .found L (.dir a) →
      ∃ left, left ≤ links ∧ ∀ follow rest, rest ≠ [] →
        walk t follow links cur (path ++ rest) = walk t follow left L rest := by
  refine walk_induction ?_ ?_ ?_ ?_
  · intro links cur L a h
    rw [walk_nil] at h
    split at h
    · cases h
      exact ⟨links, le_refl _, fun _ _ _ => rfl⟩
    · cases h
  · intro links cur x rest hx ih L a h
    rw [walk_skip hx] at h
    obtain ⟨left, hle, hleft⟩ := ih L a h
    refine ⟨left, hle, fun follow q hq => ?_⟩
    rw [List.cons_append, walk_skip hx]
    exact hleft follow q hq
  · intro links cur rest ih L a h
    rw [walk_up] at h
    obtain ⟨left, hle, hleft⟩ := ih L a h
    refine ⟨left, hle, fun follow q hq => ?_⟩
    rw [List.cons_append, walk_up]
    exact hleft follow q hq
  · intro links cur x rest hx ih ihl L a h
    rw [walk_name hx] at h
    cases hl : t.lookup (cur ++ [x]) with
    | none =>
      rw [hl] at h
      dsimp only at h
      split at h
      · cases h
      · split at h <;> cases h
    | some n =>
      rw [hl] at h
      cases n with
      | file c b =>
        dsimp only at h
        split at h <;> cases h
      | dir b =>
        obtain ⟨left, hle, hleft⟩ := ih L a h
        refine ⟨left, hle, fun follow q hq => ?_⟩
        rw [List.cons_append, walk_name hx, hl]
        exact hleft follow q hq
      | link target =>
        simp only [Bool.true_eq_false, and_false, if_false] at h
        cases links with
        | zero => cases h
        | succ links =>
          obtain ⟨left, hle, hleft⟩ := ihl links target rfl L a h
          refine ⟨left, Nat.le_succ_of_le hle, fun follow q hq => ?_⟩
          have hne : rest ++ q ≠ [] := by simp [hq]
          rw [List.cons_append, walk_name hx, hl]
          simp only [hne, false_and, if_false, expandLink]
          rw [← List.append_assoc]
          exact hleft follow q hq

/-- A walk that ends at a node or at a free location came through the
directory that holds its last name. -/
theorem walk_prefix {t : FileTree β} {follow : Bool} {x : String} (hx : IsName x) :
    ∀ links cur path, t.isDir cur = true →
      (∀ e, walk t follow links cur (path ++ [x]) ≠ .failed e) →
      ∃ L a, walk t true links cur path = .found L (.dir a) := by
  refine walk_induction ?_ ?_ ?_ ?_
  · intro links cur hcur _
    obtain ⟨a, ha⟩ := FileTree.isDir_iff.mp hcur
    exact ⟨cur, a, by rw [walk_nil, ha]⟩
  · intro links cur y rest hy ih hcur h
    rw [List.cons_append, walk_skip hy] at h
    rw [walk_skip hy]
    exact ih hcur h
  · intro links cur rest ih hcur h
    rw [List.cons_append, walk_up] at h
    rw [walk_up]
    exact ih (isDir_dropLast hcur) h
  · intro links cur y rest hy ih ihl hcur h
    rw [List.cons_append, walk_name hy] at h
    rw [walk_name hy]
    have hne : rest ++ [x] ≠ [] := by simp
    have hall : ¬ (rest ++ [x]).all (· = "") = true := by simp [hx.1]
    cases hl : t.lookup (cur ++ [y]) with
    | none =>
      rw [hl] at h
      simp only [hne, hall, if_false] at h
      exact absurd rfl (h _)
    | some n =>
      rw [hl] at h
      cases n with
      | file c b =>
        simp only [hne, if_false] at h
        exact absurd rfl (h _)
      | dir b => exact ih (FileTree.isDir_iff.mpr ⟨b, hl⟩) h
      | link target =>
        simp only [hne, false_and, if_false] at h
        simp only [Bool.true_eq_false, and_false, if_false]
        cases links with
        | zero => exact absurd rfl (h _)
        | succ links =>
          rw [expandLink, ← List.append_assoc] at h
          exact ihl links target rfl (isDir_base hcur target) h

/-- A slash at the end makes no difference for a directory. -/
theorem walk_slash {t : FileTree β} {follow : Bool} :
    ∀ links cur path, t.isDir cur = true → ∀ L n,
      walk t follow links cur (path ++ [""]) = .found L n ↔
        walk t true links cur path = .found L n ∧ n.isDir = true := by
  refine walk_induction ?_ ?_ ?_ ?_
  · intro links cur hcur L n
    obtain ⟨a, ha⟩ := FileTree.isDir_iff.mp hcur
    rw [List.nil_append, walk_skip (Or.inl rfl), walk_nil, walk_nil, ha]
    simp only [Found.found.injEq, iff_self_and]
    rintro ⟨_, rfl⟩
    rfl
  · intro links cur y rest hy ih hcur L n
    rw [List.cons_append, walk_skip hy, walk_skip hy]
    exact ih hcur L n
  · intro links cur rest ih hcur L n
    rw [List.cons_append, walk_up, walk_up]
    exact ih (isDir_dropLast hcur) L n
  · intro links cur y rest hy ih ihl hcur L n
    have hne : rest ++ [""] ≠ [] := by simp
    rw [List.cons_append, walk_name hy, walk_name hy]
    cases hl : t.lookup (cur ++ [y]) with
    | none =>
      simp only [hne, if_false]
      constructor
      · intro h
        split at h <;> cases h
      · rintro ⟨h, _⟩
        split at h
        · cases h
        · split at h <;> cases h
    | some m =>
      cases m with
      | file c b =>
        simp only [hne, if_false]
        constructor
        · intro h
          cases h
        · rintro ⟨h, hn⟩
          split at h
          · cases h
            cases hn
          · cases h
      | dir b => exact ih (FileTree.isDir_iff.mpr ⟨b, hl⟩) L n
      | link target =>
        simp only [hne, false_and, Bool.true_eq_false, and_false, if_false]
        cases links with
        | zero =>
          constructor
          · intro h
            cases h
          · rintro ⟨h, _⟩
            cases h
        | succ links =>
          rw [expandLink, expandLink, ← List.append_assoc]
          exact ihl links target rfl (isDir_base hcur target) L n

/-! ## Trees of one shape -/

/-- Two trees that look alike to a walk. -/
def SameShape (t t' : FileTree β) : Prop :=
  ∀ l, (t'.lookup l).map Node.kind = (t.lookup l).map Node.kind

theorem SameShape.symm {t t' : FileTree β} (h : SameShape t t') : SameShape t' t :=
  fun l => (h l).symm

theorem SameShape.trans {t t' t'' : FileTree β} (h : SameShape t t') (h' : SameShape t' t'') :
    SameShape t t'' :=
  fun l => (h' l).trans (h l)

theorem SameShape.none {t t' : FileTree β} (h : SameShape t t') {l : Loc}
    (hl : t.lookup l = none) : t'.lookup l = none := by
  have hk := h l
  rw [hl] at hk
  exact Option.map_eq_none_iff.mp hk

theorem SameShape.some {t t' : FileTree β} (h : SameShape t t') {l : Loc} {n : Node β}
    (hl : t.lookup l = some n) : ∃ n', t'.lookup l = some n' ∧ n'.kind = n.kind := by
  have hk := h l
  rw [hl] at hk
  exact Option.map_eq_some_iff.mp hk

theorem SameShape.isDir {t t' : FileTree β} (h : SameShape t t') (l : Loc) :
    t'.isDir l = t.isDir l := by
  have hdir : ∀ {t t' : FileTree β}, SameShape t t' → t.isDir l = true → t'.isDir l = true := by
    intro t t' h hl
    obtain ⟨a, ha⟩ := FileTree.isDir_iff.mp hl
    obtain ⟨n', hn', hk⟩ := h.some ha
    cases n' with
    | dir a' => exact FileTree.isDir_iff.mpr ⟨a', hn'⟩
    | file c a' => cases hk
    | link target => cases hk
  exact Bool.eq_iff_iff.mpr ⟨hdir h.symm, hdir h⟩

/-- The end of the walk in a tree that looks alike. -/
def Found.inTree (t' : FileTree β) : Found β → Found β
  | .found loc n => .found loc ((t'.lookup loc).getD n)
  | r => r

theorem walk_sameShape {t t' : FileTree β} {follow : Bool} (h : SameShape t t') :
    ∀ links cur path, walk t' follow links cur path = (walk t follow links cur path).inTree t' := by
  refine walk_induction ?_ ?_ ?_ ?_
  · intro links cur
    rw [walk_nil, walk_nil]
    cases hl : t.lookup cur with
    | none =>
      rw [h.none hl]
      rfl
    | some n =>
      obtain ⟨n', hn', _⟩ := h.some hl
      simp [hn', Found.inTree]
  · intro links cur x rest hx ih
    rw [walk_skip hx, walk_skip hx]
    exact ih
  · intro links cur rest ih
    rw [walk_up, walk_up]
    exact ih
  · intro links cur x rest hx ih ihl
    rw [walk_name hx, walk_name hx]
    cases hl : t.lookup (cur ++ [x]) with
    | none =>
      rw [h.none hl]
      dsimp only
      split
      · rfl
      · split <;> rfl
    | some n =>
      obtain ⟨n', hn', hk⟩ := h.some hl
      rw [hn']
      cases n with
      | file c a =>
        cases n' with
        | file c' a' =>
          dsimp only
          split
          · simp [Found.inTree, hn']
          · rfl
        | dir a' => cases hk
        | link target => cases hk
      | dir a =>
        cases n' with
        | dir a' => exact ih
        | file c' a' => cases hk
        | link target => cases hk
      | link target =>
        cases n' with
        | link target' =>
          obtain rfl : target' = target := by simpa [Node.kind] using hk
          dsimp only
          split
          · simp [Found.inTree, hn']
          · cases links with
            | zero => rfl
            | succ links => exact ihl links target' rfl
        | file c' a' => cases hk
        | dir a' => cases hk

/-- What a walk finds it finds in a larger tree. -/
theorem walk_extends {t t' : FileTree β} {follow : Bool} {L : Loc} {n : Node β}
    (h : t.Extends t') : ∀ links cur path, walk t follow links cur path = .found L n →
      walk t' follow links cur path = .found L n := by
  refine walk_induction ?_ ?_ ?_ ?_
  · intro links cur hfound
    rw [walk_nil] at hfound ⊢
    cases hl : t.lookup cur with
    | none =>
      rw [hl] at hfound
      cases hfound
    | some m =>
      rw [hl] at hfound
      rw [h _ _ hl]
      exact hfound
  · intro links cur x rest hx ih hfound
    rw [walk_skip hx] at hfound ⊢
    exact ih hfound
  · intro links cur rest ih hfound
    rw [walk_up] at hfound ⊢
    exact ih hfound
  · intro links cur x rest hx ih ihl hfound
    rw [walk_name hx] at hfound ⊢
    cases hl : t.lookup (cur ++ [x]) with
    | none =>
      rw [hl] at hfound
      dsimp only at hfound
      split at hfound
      · cases hfound
      · split at hfound <;> cases hfound
    | some m =>
      rw [hl] at hfound
      rw [h _ _ hl]
      cases m with
      | file c a => exact hfound
      | dir a => exact ih hfound
      | link target =>
        dsimp only at hfound ⊢
        split at hfound
        · rename_i hlast
          rw [if_pos hlast]
          exact hfound
        · rename_i hlast
          rw [if_neg hlast]
          cases links with
          | zero => cases hfound
          | succ links => exact ihl links target rfl hfound

/-- What is created where a walk ends is found there. -/
theorem walk_create {t : FileTree β} {follow : Bool} {L : Loc} {n : Node β} (hn : n.isLink = false)
    (hvacant : t.Vacant L) : ∀ links cur path, t.isDir cur = true →
      walk t follow links cur path = .free L false →
        walk (t.create L n) follow links cur path = .found L n := by
  have hother := @FileTree.extends_create _ _ _ n hvacant
  have hnew : (t.create L n).lookup L = some n := by rw [FileTree.lookup_create hvacant, if_pos rfl]
  refine walk_induction ?_ ?_ ?_ ?_
  · intro links cur _ h
    rw [walk_nil] at h
    split at h <;> cases h
  · intro links cur x rest hx ih hcur h
    rw [walk_skip hx] at h ⊢
    exact ih hcur h
  · intro links cur rest ih hcur h
    rw [walk_up] at h ⊢
    exact ih (isDir_dropLast hcur) h
  · intro links cur x rest hx ih ihl hcur h
    rw [walk_name hx] at h ⊢
    cases hl : t.lookup (cur ++ [x]) with
    | none =>
      rw [hl] at h
      dsimp only at h
      split at h
      · rename_i hrest
        cases h
        rw [hnew, hrest]
        cases n with
        | file c a => exact if_pos rfl
        | dir a =>
          change walk (t.create (cur ++ [x]) (.dir a)) follow links (cur ++ [x]) [] = _
          rw [walk_nil, hnew]
        | link target => cases hn
      · split at h <;> cases h
    | some m =>
      rw [hl] at h
      rw [hother _ _ hl]
      cases m with
      | file c a =>
        dsimp only at h
        split at h <;> cases h
      | dir a => exact ih (FileTree.isDir_iff.mpr ⟨a, hl⟩) h
      | link target =>
        dsimp only at h ⊢
        split at h
        · cases h
        · rename_i hlast
          rw [if_neg hlast]
          cases links with
          | zero => cases h
          | succ links => exact ihl links target rfl (isDir_base hcur target) h

/-! ## Resolution of joined paths -/

variable {t : FileTree β} {links : ℕ} {cwd : Loc}

theorem resolve_of_base {path : Path} (hnil : path ≠ []) (hempty : path ≠ [""])
    (hdir : t.isDir (if Path.isabs path then [] else cwd) = true) (follow : Bool) :
    resolve t links cwd follow path
      = walk t follow links (if Path.isabs path then [] else cwd) path := by
  unfold resolve
  rw [if_neg (by simp [hnil, hempty])]
  by_cases habs : Path.isabs path = true
  · rw [if_pos habs, if_pos habs]
  · rw [if_neg habs] at hdir ⊢
    rw [if_pos hdir, if_neg habs]

/-- The walk of a path that is not empty. -/
theorem resolve_eq_walk {follow : Bool} {path : Path}
    (h : ∀ e, resolve t links cwd follow path ≠ .failed e) :
    path ≠ [] ∧ path ≠ [""] ∧ t.isDir (if Path.isabs path then [] else cwd) = true ∧
      ∀ follow, resolve t links cwd follow path
        = walk t follow links (if Path.isabs path then [] else cwd) path := by
  have hne : ¬ (path = [] ∨ path = [""]) := by
    intro hempty
    rw [resolve, if_pos hempty] at h
    exact h _ rfl
  have hdir : t.isDir (if Path.isabs path then [] else cwd) = true := by
    rw [resolve, if_neg hne] at h
    by_cases habs : Path.isabs path = true
    · rw [if_pos habs]
      exact t.root
    · rw [if_neg habs] at h ⊢
      by_cases hcwd : t.isDir cwd = true
      · exact hcwd
      · rw [if_neg hcwd] at h
        exact absurd rfl (h _)
  rw [not_or] at hne
  exact ⟨hne.1, hne.2, hdir, resolve_of_base hne.1 hne.2 hdir⟩

/-- What a path leads to stands in the tree. -/
theorem lookup_of_resolve {follow : Bool} {path : Path} {L : Loc} {n : Node β}
    (h : resolve t links cwd follow path = .found L n) : t.lookup L = some n := by
  obtain ⟨_, _, hdir, heq⟩ := resolve_eq_walk (fun e he => by rw [he] at h; cases h)
  rw [heq] at h
  exact lookup_of_walk_found links _ path hdir L n h

/-- What a path leads to when it is followed is no link. -/
theorem isLink_of_resolve {path : Path} {L : Loc} {n : Node β}
    (h : resolve t links cwd true path = .found L n) : n.isLink = false := by
  obtain ⟨_, _, hdir, heq⟩ := resolve_eq_walk (fun e he => by rw [he] at h; cases h)
  rw [heq] at h
  exact isLink_of_walk_found links _ path hdir L n h

theorem vacant_of_resolve {follow : Bool} {path : Path} {L : Loc} {slash : Bool}
    (h : resolve t links cwd follow path = .free L slash) : t.Vacant L := by
  obtain ⟨_, _, hdir, heq⟩ := resolve_eq_walk (fun e he => by rw [he] at h; cases h)
  rw [heq] at h
  exact vacant_of_walk_free links _ path hdir L slash h

/-- Joined names are walked from the directory that the path leads to. -/
theorem resolve_under {path : Path} {L : Loc} {a : Attr}
    (h : resolve t links cwd true path = .found L (.dir a)) :
    ∃ left, ∀ follow names, names ≠ [] → (∀ x ∈ names, IsName x) →
      resolve t links cwd follow (Path.under path names) = walk t follow left L names := by
  obtain ⟨hnil, hempty, hdir, heq⟩ := resolve_eq_walk (fun e he => by rw [he] at h; cases h)
  rw [heq] at h
  -- the path without the slash at its end leads to the same directory
  have hcut : ∃ path', path' ≠ [] ∧ walk t true links (if Path.isabs path then [] else cwd) path'
        = .found L (.dir a) ∧
      ∀ names, names ≠ [] → (∀ x ∈ names, IsName x) →
        Path.under path names = path' ++ names ∧
          Path.isabs (path' ++ names) = Path.isabs path := by
    by_cases hlast : path.getLastD "" = ""
    · rcases List.eq_nil_or_concat' path with rfl | ⟨path', y, rfl⟩
      · exact absurd rfl hnil
      · have hy : y = "" := by simpa using hlast
        subst hy
        have hp : path' ≠ [] := by
          rintro rfl
          exact hempty rfl
        refine ⟨path', hp, ((walk_slash links _ path' hdir L _).mp h).1, ?_⟩
        intro names hne hnames
        refine ⟨?_, Path.isabs_slash hp names hne⟩
        cases names with
        | nil => exact absurd rfl hne
        | cons x names =>
          rw [Path.under_cons_eq hnames, if_pos hlast, List.dropLast_concat]
    · refine ⟨path, hnil, h, fun names hne hnames => ⟨?_, Path.isabs_append hnil hempty⟩⟩
      exact Path.under_eq_append hlast hnames
  obtain ⟨path', hp, hwalk, hsplit⟩ := hcut
  obtain ⟨left, _, hleft⟩ := walk_append links _ path' L a hwalk
  refine ⟨left, fun follow names hne hnames => ?_⟩
  obtain ⟨hunder, habs⟩ := hsplit names hne hnames
  have hpath : path' ++ names ≠ [] ∧ path' ++ names ≠ [""] := by
    refine ⟨by simp [hp], fun hsingle => ?_⟩
    cases path' with
    | nil => exact hp rfl
    | cons y path' =>
      rw [List.cons_append, List.cons.injEq] at hsingle
      simp [hne] at hsingle
  rw [← habs] at hdir
  rw [hunder, resolve_of_base hpath.1 hpath.2 hdir, habs, hleft follow names hne]

/-- A node below the directory that a path leads to. -/
theorem resolve_lookup {path : Path} {L : Loc} {a : Attr} {names : List String} {n : Node β}
    {follow : Bool} (h : resolve t links cwd true path = .found L (.dir a)) (hne : names ≠ [])
    (hn : t.lookup (L ++ names) = some n) (hlink : follow = true → n.isLink = false) :
    resolve t links cwd follow (Path.under path names) = .found (L ++ names) n := by
  obtain ⟨left, hleft⟩ := resolve_under h
  have hnames : ∀ x ∈ names, IsName x :=
    fun x hx => FileTree.isName_of_lookup hn x (by simp [hx])
  rw [hleft follow names hne hnames]
  exact walk_names hn hlink

/-- A path to an entry that can be reached leads through a directory. -/
theorem resolve_parent {follow : Bool} {path : Path} {x : String} (hx : IsName x)
    (hpath : path ≠ [""]) (h : ∀ e, resolve t links cwd follow (Path.join path [x]) ≠ .failed e) :
    path = [] ∨ ∃ L a, resolve t links cwd true path = .found L (.dir a) := by
  by_cases hnil : path = []
  · exact Or.inl hnil
  · right
    obtain ⟨_, _, hdir, heq⟩ := resolve_eq_walk h
    rw [heq] at h
    rw [Path.join_name] at h hdir
    by_cases hlast : path.getLastD "" = ""
    · rw [if_pos hlast] at h hdir
      rcases List.eq_nil_or_concat' path with rfl | ⟨path', y, rfl⟩
      · exact absurd rfl hnil
      · have hy : y = "" := by simpa using hlast
        subst hy
        have hp : path' ≠ [] := by
          rintro rfl
          exact hpath rfl
        rw [List.dropLast_concat, Path.isabs_slash hp [x] (by simp)] at h hdir
        obtain ⟨L, a, hwalk⟩ := walk_prefix hx links _ path' hdir h
        refine ⟨L, a, ?_⟩
        have hslash : walk t true links (if Path.isabs (path' ++ [""]) then [] else cwd)
            (path' ++ [""]) = .found L (.dir a) :=
          (walk_slash links _ path' hdir L _).mpr ⟨hwalk, rfl⟩
        rw [resolve_of_base hnil hpath hdir, hslash]
    · rw [if_neg hlast, Path.isabs_append hnil hpath] at h hdir
      obtain ⟨L, a, hwalk⟩ := walk_prefix hx links _ path hdir h
      refine ⟨L, a, ?_⟩
      rw [resolve_of_base hnil hpath hdir, hwalk]

/-- What a path leads to it leads to in a larger tree. -/
theorem resolve_extends {t' : FileTree β} (hsub : t.Extends t') {follow : Bool} {path : Path}
    {L : Loc} {n : Node β} (h : resolve t links cwd follow path = .found L n) :
    resolve t' links cwd follow path = .found L n := by
  obtain ⟨hnil, hempty, hdir, heq⟩ := resolve_eq_walk (fun e he => by rw [he] at h; cases h)
  rw [heq] at h
  rw [resolve_of_base hnil hempty (hsub.isDir hdir)]
  exact walk_extends hsub links _ path h

/-- A path that leads to nothing leads to what is created there. -/
theorem resolve_create {follow : Bool} {path : Path} {L : Loc} {n : Node β} (hn : n.isLink = false)
    (h : resolve t links cwd follow path = .free L false) :
    resolve (t.create L n) links cwd follow path = .found L n := by
  have hvacant := vacant_of_resolve h
  obtain ⟨hnil, hempty, hdir, heq⟩ := resolve_eq_walk (fun e he => by rw [he] at h; cases h)
  rw [heq] at h
  have hdir' := (@FileTree.extends_create _ _ _ n hvacant).isDir hdir
  rw [resolve_of_base hnil hempty hdir']
  exact walk_create hn hvacant links _ path hdir h

/-- Contents and attributes do not matter for where a path leads. -/
theorem resolve_sameShape {t t' : FileTree β} (h : SameShape t t') (follow : Bool) (path : Path) :
    resolve t' links cwd follow path = (resolve t links cwd follow path).inTree t' := by
  unfold resolve
  rw [h.isDir cwd]
  split
  · rfl
  · split
    · exact walk_sameShape h links [] path
    · split
      · exact walk_sameShape h links cwd path
      · rfl

end Kolla.Lib
