import Mathlib

/-!
# File trees

The directories, regular files and symbolic links of a file system, stored
as a list of nodes under their locations.  A location is the list of names
from the root.  The order of the list is the order in which the entries of
a directory are found.

`FileTree` carries what every file system keeps: a location has one node,
the root is a directory, and what holds a node is a directory.  The three
operations `create`, `replace` and `erase` are guarded, so a value that
breaks this cannot be built, and their effect is described by one lookup
lemma each.
-/

namespace Kolla.Lib

/-- A location: the names from the root. -/
abbrev Loc := List String

/-- A name that a directory entry can have. -/
def IsName (x : String) : Prop := x ≠ "" ∧ x ≠ "." ∧ x ≠ ".."

instance (x : String) : Decidable (IsName x) :=
  inferInstanceAs (Decidable (x ≠ "" ∧ x ≠ "." ∧ x ≠ ".."))

/-- Permission bits (set-user-ID, set-group-ID, sticky, and the nine `rwx`
bits) and ownership. -/
structure Attr where
  mode : BitVec 12
  uid : ℕ
  gid : ℕ
deriving DecidableEq, Repr

/-- What stands at a location. -/
inductive Node (β : Type) where
  | file (content : β) (attr : Attr)
  | dir (attr : Attr)
  | link (target : List String)
deriving DecidableEq, Repr

/-- What a walk sees of a node. -/
inductive Kind where
  | file
  | dir
  | link (target : List String)
deriving DecidableEq, Repr

namespace Node

variable {β : Type}

def kind : Node β → Kind
  | .file _ _ => .file
  | .dir _ => .dir
  | .link target => .link target

def isDir : Node β → Bool
  | .dir _ => true
  | _ => false

def isFile : Node β → Bool
  | .file _ _ => true
  | _ => false

def isLink : Node β → Bool
  | .link _ => true
  | _ => false

/-- The attributes; those of a link are fixed. -/
def attr : Node β → Attr
  | .file _ a => a
  | .dir a => a
  | .link _ => ⟨0o777, 0, 0⟩

theorem isDir_iff {n : Node β} : n.isDir = true ↔ ∃ a, n = .dir a := by
  cases n <;> simp [isDir]

end Node

/-- Whether a directory is stored under the location. -/
def hasDir {β : Type} (nodes : List (Loc × Node β)) (loc : Loc) : Bool :=
  ((nodes.lookup loc).map Node.isDir).getD false

structure FileTree (β : Type) where
  nodes : List (Loc × Node β)
  nodup : (nodes.map Prod.fst).Nodup
  root : hasDir nodes [] = true
  closed : ∀ e ∈ nodes, e.1 ≠ [] → hasDir nodes e.1.dropLast = true
  proper : ∀ e ∈ nodes, ∀ x ∈ e.1, IsName x

section Lookup

variable {ν : Type}

theorem lookup_append_singleton {l : List (Loc × ν)} {k k' : Loc} {v : ν}
    (h : l.lookup k = none) :
    (l ++ [(k, v)]).lookup k' = if k' = k then some v else l.lookup k' := by
  rw [List.lookup_append]
  by_cases hk : k' = k
  · subst hk
    simp [h]
  · have hne : (k' == k) = false := by simpa using hk
    simp [List.lookup, hne, hk]

theorem lookup_map_replace {l : List (Loc × ν)} {k k' : Loc} {v : ν} :
    (l.map fun e => if e.1 = k then (k, v) else e).lookup k'
      = if k' = k then (l.lookup k).map (fun _ => v) else l.lookup k' := by
  induction l with
  | nil => simp
  | cons e l ih =>
    obtain ⟨k₁, v₁⟩ := e
    by_cases h₁ : k₁ = k
    · subst h₁
      by_cases hk : k' = k₁
      · subst hk
        simp
      · have hne : (k' == k₁) = false := by simpa using hk
        simpa [List.lookup, hne, hk] using ih
    · simp only [List.map_cons, h₁, if_false]
      by_cases hk : k' = k₁
      · subst hk
        simp [h₁]
      · have hne : (k' == k₁) = false := by simpa using hk
        have hne' : (k == k₁) = false := by simpa using fun h : k = k₁ => h₁ h.symm
        simpa [List.lookup, hne, hne'] using ih

theorem lookup_filter_ne {l : List (Loc × ν)} {k k' : Loc} :
    (l.filter fun e => e.1 ≠ k).lookup k' = if k' = k then none else l.lookup k' := by
  induction l with
  | nil => simp
  | cons e l ih =>
    obtain ⟨k₁, v₁⟩ := e
    by_cases h₁ : k₁ = k
    · subst h₁
      by_cases hk : k' = k₁
      · subst hk
        simpa using ih
      · have hne : (k' == k₁) = false := by simpa using hk
        simpa [List.lookup, hne, hk] using ih
    · by_cases hk : k' = k₁
      · subst hk
        simp [h₁]
      · have hne : (k' == k₁) = false := by simpa using hk
        simpa [List.lookup, hne, h₁] using ih

theorem lookup_eq_some_iff_mem {l : List (Loc × ν)} (hnodup : (l.map Prod.fst).Nodup)
    {k : Loc} {v : ν} : l.lookup k = some v ↔ (k, v) ∈ l := by
  induction l with
  | nil => simp
  | cons e l ih =>
    obtain ⟨k₁, v₁⟩ := e
    rw [List.map_cons, List.nodup_cons] at hnodup
    by_cases hk : k = k₁
    · subst hk
      constructor
      · intro h
        have hv : v₁ = v := by simpa using h
        simp [hv]
      · intro h
        rcases List.mem_cons.mp h with he | hmem
        · simp [(Prod.mk.inj he).2]
        · exact absurd (List.mem_map_of_mem (f := Prod.fst) hmem) hnodup.1
    · have hne : (k == k₁) = false := by simpa using hk
      simp [List.lookup, hne, hk, ih hnodup.2]

end Lookup

namespace FileTree

variable {β : Type}

/-! ## Reading -/

/-- The node at a location. -/
def lookup (t : FileTree β) (loc : Loc) : Option (Node β) := t.nodes.lookup loc

def isDir (t : FileTree β) (loc : Loc) : Bool := hasDir t.nodes loc

/-- The entries of a directory, in stored order. -/
def names (t : FileTree β) (loc : Loc) : List String :=
  t.nodes.filterMap fun e =>
    if e.1 ≠ [] ∧ e.1.dropLast = loc then e.1.getLast? else none

theorem isDir_iff {t : FileTree β} {loc : Loc} :
    t.isDir loc = true ↔ ∃ a, t.lookup loc = some (.dir a) := by
  unfold isDir hasDir lookup
  cases h : t.nodes.lookup loc with
  | none => simp
  | some n => simp [Node.isDir_iff]

theorem lookup_eq_some_iff {t : FileTree β} {loc : Loc} {n : Node β} :
    t.lookup loc = some n ↔ (loc, n) ∈ t.nodes :=
  lookup_eq_some_iff_mem t.nodup

theorem root_dir (t : FileTree β) : ∃ a, t.lookup [] = some (.dir a) :=
  isDir_iff.mp t.root

/-- What holds a node is a directory. -/
theorem parent_dir {t : FileTree β} {loc : Loc} {x : String} {n : Node β}
    (h : t.lookup (loc ++ [x]) = some n) : ∃ a, t.lookup loc = some (.dir a) := by
  have hmem := lookup_eq_some_iff.mp h
  have hdir := t.closed _ hmem (by simp)
  rw [List.dropLast_concat] at hdir
  exact isDir_iff.mp hdir

/-- Everything on the way to a node is a directory. -/
theorem ancestor_dir {t : FileTree β} {loc rel : Loc} {n : Node β}
    (h : t.lookup (loc ++ rel) = some n) (hrel : rel ≠ []) :
    ∃ a, t.lookup loc = some (.dir a) := by
  induction rel using List.reverseRecOn generalizing n with
  | nil => exact absurd rfl hrel
  | append_singleton rel x ih =>
    rw [← List.append_assoc] at h
    obtain ⟨a, ha⟩ := parent_dir h
    cases rel with
    | nil => exact ⟨a, by simpa using ha⟩
    | cons y rel => exact ih ha (by simp)

theorem isName_of_lookup {t : FileTree β} {loc : Loc} {n : Node β}
    (h : t.lookup loc = some n) : ∀ x ∈ loc, IsName x :=
  t.proper _ (lookup_eq_some_iff.mp h)

/-- Nothing stands below a location that is not a directory. -/
theorem lookup_below_none {t : FileTree β} {loc rel : Loc}
    (h : ∀ a, t.lookup loc ≠ some (.dir a)) (hrel : rel ≠ []) :
    t.lookup (loc ++ rel) = none := by
  cases hl : t.lookup (loc ++ rel) with
  | none => rfl
  | some n =>
    obtain ⟨a, ha⟩ := ancestor_dir hl hrel
    exact absurd ha (h a)

theorem eq_concat {l loc : Loc} {x : String} (hne : l ≠ []) (hdrop : l.dropLast = loc)
    (hx : l.getLast? = some x) : l = loc ++ [x] := by
  rw [List.getLast?_eq_some_getLast hne] at hx
  subst hdrop
  rw [← Option.some.inj hx, List.dropLast_append_getLast hne]

theorem mem_names {t : FileTree β} {loc : Loc} {x : String} :
    x ∈ t.names loc ↔ ∃ n, t.lookup (loc ++ [x]) = some n := by
  unfold names
  rw [List.mem_filterMap]
  constructor
  · rintro ⟨⟨l, n⟩, hmem, h⟩
    split at h
    · rename_i hl
      exact ⟨n, lookup_eq_some_iff.mpr (eq_concat hl.1 hl.2 h ▸ hmem)⟩
    · cases h
  · rintro ⟨n, h⟩
    exact ⟨(loc ++ [x], n), lookup_eq_some_iff.mp h, by simp⟩

theorem nodup_names (t : FileTree β) (loc : Loc) : (t.names loc).Nodup := by
  have hnodup := t.nodup
  unfold names
  generalize t.nodes = nodes at hnodup
  induction nodes with
  | nil => simp
  | cons e nodes ih =>
    rw [List.map_cons, List.nodup_cons] at hnodup
    rw [List.filterMap_cons]
    split
    · exact ih hnodup.2
    · rename_i x hx
      refine List.nodup_cons.mpr ⟨fun hmem => ?_, ih hnodup.2⟩
      obtain ⟨e', he', hx'⟩ := List.mem_filterMap.mp hmem
      split at hx
      · rename_i h
        split at hx'
        · rename_i h'
          have heq : e'.1 = e.1 := (eq_concat h'.1 h'.2 hx').trans (eq_concat h.1 h.2 hx).symm
          exact hnodup.1 (heq ▸ List.mem_map_of_mem (f := Prod.fst) he')
        · cases hx'
      · cases hx

/-- The number of nodes. -/
def size (t : FileTree β) : ℕ := t.nodes.length

/-- What stands in the one tree stands in the other. -/
def Extends (t t' : FileTree β) : Prop := ∀ l n, t.lookup l = some n → t'.lookup l = some n

theorem Extends.isDir {t t' : FileTree β} (h : t.Extends t') {l : Loc} (hl : t.isDir l = true) :
    t'.isDir l = true := by
  obtain ⟨a, ha⟩ := isDir_iff.mp hl
  exact isDir_iff.mpr ⟨a, h l _ ha⟩

/-! ## Changing -/

/-- Whether a node can be added. -/
def Vacant (t : FileTree β) (loc : Loc) : Prop :=
  t.lookup loc = none ∧ loc ≠ [] ∧ t.isDir loc.dropLast = true ∧ ∀ x ∈ loc, IsName x

instance (t : FileTree β) (loc : Loc) : Decidable (t.Vacant loc) :=
  decidable_of_iff ((t.lookup loc).isNone = true ∧ loc ≠ [] ∧ t.isDir loc.dropLast = true ∧
    ∀ x ∈ loc, IsName x) (by rw [Option.isNone_iff_eq_none, Vacant])

theorem hasDir_append {nodes : List (Loc × Node β)} {l loc : Loc} {n : Node β}
    (h : nodes.lookup loc = none) (hl : hasDir nodes l = true) :
    hasDir (nodes ++ [(loc, n)]) l = true := by
  unfold hasDir at *
  rw [lookup_append_singleton h]
  split
  · rename_i he
    rw [he, h] at hl
    simp at hl
  · exact hl

/-- Adds a node in a directory. -/
def create (t : FileTree β) (loc : Loc) (n : Node β) : FileTree β :=
  if h : t.Vacant loc then
    { nodes := t.nodes ++ [(loc, n)]
      nodup := by
        rw [List.map_append, List.nodup_append]
        refine ⟨t.nodup, by simp, ?_⟩
        rintro l hl l' hl' rfl
        obtain ⟨⟨_, m⟩, hmem, rfl⟩ := List.mem_map.mp hl
        rw [List.map_cons, List.map_nil, List.mem_singleton] at hl'
        have := lookup_eq_some_iff.mpr hmem
        simp only at hl' this
        rw [hl', h.1] at this
        cases this
      root := hasDir_append h.1 t.root
      closed := by
        intro e he hne
        rcases List.mem_append.mp he with he | he
        · exact hasDir_append h.1 (t.closed e he hne)
        · rw [List.mem_singleton.mp he]
          exact hasDir_append h.1 h.2.2.1
      proper := by
        intro e he
        rcases List.mem_append.mp he with he | he
        · exact t.proper e he
        · rw [List.mem_singleton.mp he]
          exact h.2.2.2 }
  else t

theorem lookup_create {t : FileTree β} {loc l : Loc} {n : Node β} (h : t.Vacant loc) :
    (t.create loc n).lookup l = if l = loc then some n else t.lookup l := by
  unfold create
  rw [dif_pos h]
  exact lookup_append_singleton h.1

theorem extends_create {t : FileTree β} {loc : Loc} {n : Node β} (h : t.Vacant loc) :
    t.Extends (t.create loc n) := by
  intro l m hl
  rw [lookup_create h, if_neg, hl]
  rintro rfl
  rw [h.1] at hl
  cases hl

theorem hasDir_replace {nodes : List (Loc × Node β)} {l loc : Loc} {n : Node β}
    (h : hasDir nodes loc = true → n.isDir = true) (hl : hasDir nodes l = true) :
    hasDir (nodes.map fun e => if e.1 = loc then (loc, n) else e) l = true := by
  unfold hasDir at *
  rw [lookup_map_replace]
  split
  · rename_i he
    subst he
    have hn := h hl
    cases hm : nodes.lookup l with
    | none => simp [hm] at hl
    | some m => simp [hn]
  · exact hl

/-- Puts another node where one stands. -/
def replace (t : FileTree β) (loc : Loc) (n : Node β) : FileTree β :=
  if h : t.isDir loc = true → n.isDir = true then
    { nodes := t.nodes.map fun e => if e.1 = loc then (loc, n) else e
      nodup := by
        have hkeys : (t.nodes.map fun e => if e.1 = loc then (loc, n) else e).map Prod.fst
            = t.nodes.map Prod.fst := by
          rw [List.map_map]
          refine List.map_congr_left fun e _ => ?_
          simp only [Function.comp_apply]
          split
          · rename_i he
            exact he.symm
          · rfl
        rw [hkeys]
        exact t.nodup
      root := hasDir_replace h t.root
      closed := by
        intro e he hne
        obtain ⟨e', he', rfl⟩ := List.mem_map.mp he
        have hkey : (if e'.1 = loc then (loc, n) else e').1 = e'.1 := by
          split
          · rename_i hl
            exact hl.symm
          · rfl
        rw [hkey] at hne ⊢
        exact hasDir_replace h (t.closed e' he' hne)
      proper := by
        intro e he
        obtain ⟨e', he', rfl⟩ := List.mem_map.mp he
        have hkey : (if e'.1 = loc then (loc, n) else e').1 = e'.1 := by
          split
          · rename_i hl
            exact hl.symm
          · rfl
        rw [hkey]
        exact t.proper e' he' }
  else t

theorem lookup_replace {t : FileTree β} {loc l : Loc} {n m : Node β}
    (hm : t.lookup loc = some m) (h : t.isDir loc = true → n.isDir = true) :
    (t.replace loc n).lookup l = if l = loc then some n else t.lookup l := by
  unfold replace
  rw [dif_pos h]
  change List.lookup l _ = _
  rw [lookup_map_replace]
  split
  · change (t.lookup loc).map _ = _
    rw [hm]
    rfl
  · rfl

/-- Removes a node that holds nothing. -/
def erase (t : FileTree β) (loc : Loc) : FileTree β :=
  if h : loc ≠ [] ∧ t.names loc = [] then
    { nodes := t.nodes.filter fun e => e.1 ≠ loc
      nodup := t.nodup.sublist (List.filter_sublist.map Prod.fst)
      root := by
        unfold hasDir
        rw [lookup_filter_ne, if_neg (Ne.symm h.1)]
        exact t.root
      closed := by
        intro e he hne
        obtain ⟨he, hloc⟩ := List.mem_filter.mp he
        unfold hasDir
        rw [lookup_filter_ne, if_neg]
        · exact t.closed e he hne
        · intro hdrop
          have hx : e.1.getLast hne ∈ t.names loc := by
            refine mem_names.mpr ⟨e.2, lookup_eq_some_iff.mpr ?_⟩
            rw [← hdrop, List.dropLast_append_getLast hne]
            exact he
          rw [h.2] at hx
          cases hx
      proper := fun e he => t.proper e (List.mem_filter.mp he).1 }
  else t

theorem lookup_erase {t : FileTree β} {loc l : Loc} (hroot : loc ≠ [])
    (h : t.names loc = []) :
    (t.erase loc).lookup l = if l = loc then none else t.lookup l := by
  unfold erase
  rw [dif_pos ⟨hroot, h⟩]
  exact lookup_filter_ne

end FileTree

end Kolla.Lib
