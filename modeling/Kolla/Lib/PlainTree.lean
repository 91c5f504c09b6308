import Kolla.Lib.Posix
import Mathlib.Order.Defs.Unbundled

/-!
# Trees without links

Where there are no symbolic links, a path leads to the location that its
text says, `..` included (`Found.loc_of_resolve`).  What a change does to
such a tree is then a matter of locations.  A path that is `Direct` passes
only directories above its place, so what stands there decides alone whether
the path leads to it.

`content` is what stands at a location without its attributes.
`Changes within passed t t'` says that `t'` differs from `t` only at the
locations `within`, but for directories that were made at those `passed`.
It is a preorder, so it goes from the single operations to whole programs.
`Confined top` is the case of one place and the way to it.
-/

namespace Kolla.Lib

variable {β : Type}

/-- A node without its attributes. -/
def Node.content : Node β → Kind × Option β
  | .file c _ => (.file, some c)
  | .dir _ => (.dir, none)
  | .link target => (.link target, none)

namespace FileTree

/-- What stands at a location. -/
def content (t : FileTree β) (loc : Loc) : Option (Kind × Option β) :=
  (t.lookup loc).map Node.content

/-- What stands at and below a location, by the names that lead there. -/
def subtree (t : FileTree β) (loc rel : Loc) : Option (Kind × Option β) := t.content (loc ++ rel)

theorem subtree_nil (t : FileTree β) (loc : Loc) : t.subtree loc [] = t.content loc := by
  rw [subtree, List.append_nil]

theorem subtree_cons (t : FileTree β) (loc : Loc) (x : String) (rel : Loc) :
    t.subtree loc (x :: rel) = t.subtree (loc ++ [x]) rel := by
  rw [subtree, subtree, List.append_assoc, List.singleton_append]

/-- There are no symbolic links. -/
def LinkFree (t : FileTree β) : Prop := ∀ loc target, t.lookup loc ≠ some (.link target)

theorem content_of_lookup {t : FileTree β} {loc : Loc} {n : Node β} (h : t.lookup loc = some n) :
    t.content loc = some n.content := by
  rw [content, h]
  rfl

theorem content_eq_none {t : FileTree β} {loc : Loc} : t.content loc = none ↔ t.lookup loc = none :=
  Option.map_eq_none_iff

theorem content_eq_dir {t : FileTree β} {loc : Loc} :
    t.content loc = some (.dir, none) ↔ t.isDir loc = true := by
  rw [isDir_iff, content]
  cases t.lookup loc with
  | none => simp
  | some n => cases n <;> simp [Node.content]

theorem subtree_congr {t t' : FileTree β} {loc rel : Loc}
    (h : t'.lookup (loc ++ rel) = t.lookup (loc ++ rel)) : t'.subtree loc rel = t.subtree loc rel := by
  rw [subtree, content, h, subtree, content]

theorem subtree_ne_none {t : FileTree β} {loc rel : Loc} :
    t.subtree loc rel ≠ none ↔ ∃ n, t.lookup (loc ++ rel) = some n := by
  rw [subtree, Ne, content_eq_none, ← Ne, Option.ne_none_iff_exists']

theorem subtree_root_ne_none {t : FileTree β} {loc : Loc} :
    t.subtree loc [] ≠ none ↔ t.lookup loc ≠ none := by
  rw [subtree_nil, Ne, content_eq_none]

theorem subtree_root_dir {t : FileTree β} {loc : Loc} :
    t.subtree loc [] = some (.dir, none) ↔ t.isDir loc = true := by
  rw [subtree_nil, content_eq_dir]

theorem subtree_root_of_lookup {t : FileTree β} {loc : Loc} {n : Node β}
    (h : t.lookup loc = some n) : t.subtree loc [] = some n.content := by
  rw [subtree_nil, content_of_lookup h]

theorem content_eq_file {t : FileTree β} {loc : Loc} {c : β} :
    t.content loc = some (.file, some c) ↔ ∃ a, t.lookup loc = some (.file c a) := by
  rw [content]
  cases t.lookup loc with
  | none => simp
  | some n => cases n <;> simp [Node.content]

theorem linkFree_iff {t : FileTree β} :
    t.LinkFree ↔ ∀ loc target, t.content loc ≠ some (.link target, none) := by
  refine forall₂_congr fun loc target => not_congr ?_
  rw [content]
  cases t.lookup loc with
  | none => simp
  | some n => cases n <;> simp [Node.content]

/-- What stands above a node is a directory. -/
theorem content_above {t : FileTree β} {l loc : Loc} (hl : l <+: loc) (hne : l ≠ loc)
    (h : t.content loc ≠ none) : t.content l = some (.dir, none) := by
  obtain ⟨rel, rfl⟩ := hl
  rw [Ne, content_eq_none] at h
  obtain ⟨n, hn⟩ := Option.ne_none_iff_exists'.mp h
  obtain ⟨a, ha⟩ := ancestor_dir hn (by rintro rfl; simp at hne)
  exact content_of_lookup ha

/-- Nothing stands below what is no directory. -/
theorem content_below {t : FileTree β} {loc rel : Loc} (h : t.content loc ≠ some (.dir, none))
    (hrel : rel ≠ []) : t.content (loc ++ rel) = none := by
  rw [content_eq_none]
  refine lookup_below_none (fun a ha => h ?_) hrel
  exact content_of_lookup ha

end FileTree

open FileTree

/-! ## Paths -/

/-- The location of what a walk ended at, there or missing. -/
def Found.loc : Found β → Option Loc
  | .found loc _ => some loc
  | .free loc _ => some loc
  | .failed _ => none

theorem foldl_absStep_empty {rest : Path} (h : rest.all (· = "") = true) (cur : Loc) :
    rest.foldl Path.absStep cur = cur := by
  induction rest with
  | nil => rfl
  | cons x rest ih =>
    obtain ⟨hx, hrest⟩ : x = "" ∧ rest.all (· = "") = true := by simpa using h
    rw [List.foldl_cons, Path.absStep, if_pos (Or.inl hx), ih hrest]

theorem absStep_name {x : String} (hx : IsName x) (cur : Loc) : Path.absStep cur x = cur ++ [x] := by
  rw [Path.absStep, if_neg (by simp [hx.1, hx.2.1]), if_neg hx.2.2]

/-- A walk ends where the text says. -/
theorem Found.loc_of_walk {t : FileTree β} (ht : t.LinkFree) {follow : Bool} :
    ∀ links cur path, ∀ L ∈ (walk t follow links cur path).loc,
      L = path.foldl Path.absStep cur := by
  refine walk_induction ?_ ?_ ?_ ?_
  · intro links cur L hL
    rw [walk_nil] at hL
    cases hl : t.lookup cur with
    | none =>
      rw [hl] at hL
      cases hL
    | some n =>
      rw [hl] at hL
      exact (Option.some.inj hL).symm
  · intro links cur x rest hx ih L hL
    rw [walk_skip hx] at hL
    rw [List.foldl_cons, Path.absStep, if_pos hx]
    exact ih L hL
  · intro links cur rest ih L hL
    rw [walk_up] at hL
    rw [List.foldl_cons, Path.absStep, if_neg (by decide), if_pos rfl]
    exact ih L hL
  · intro links cur x rest hx ih _ L hL
    rw [walk_name hx] at hL
    rw [List.foldl_cons, absStep_name hx]
    split at hL
    · split at hL
      · rename_i hrest
        rw [hrest]
        exact (Option.some.inj hL).symm
      · split at hL
        · rename_i hrest
          rw [foldl_absStep_empty hrest]
          exact (Option.some.inj hL).symm
        · cases hL
    · split at hL
      · rename_i hrest
        rw [hrest]
        exact (Option.some.inj hL).symm
      · cases hL
    · exact ih L hL
    · rename_i target hl
      exact absurd hl (ht _ _)

theorem walk_follow_eq {t : FileTree β} (ht : t.LinkFree) {follow follow' : Bool} :
    ∀ links cur path, walk t follow links cur path = walk t follow' links cur path := by
  refine walk_induction ?_ ?_ ?_ ?_
  · intro links cur
    rw [walk_nil, walk_nil]
  · intro links cur x rest hx ih
    rw [walk_skip hx, walk_skip hx, ih]
  · intro links cur rest ih
    rw [walk_up, walk_up, ih]
  · intro links cur x rest hx ih _
    rw [walk_name hx, walk_name hx]
    cases hl : t.lookup (cur ++ [x]) with
    | none => rfl
    | some n =>
      cases n with
      | file c a => rfl
      | dir a => exact ih
      | link target => exact absurd hl (ht _ _)

section Resolve

variable {t : FileTree β} {links : ℕ} {cwd : Loc} {follow : Bool} {path : Path}

theorem resolve_follow_eq (ht : t.LinkFree) (follow' : Bool) :
    resolve t links cwd follow path = resolve t links cwd follow' path := by
  unfold resolve
  rw [@walk_follow_eq _ _ ht follow follow' links [] path,
    @walk_follow_eq _ _ ht follow follow' links cwd path]

theorem Found.loc_of_resolve (ht : t.LinkFree) :
    ∀ L ∈ (resolve t links cwd follow path).loc, L = Path.abspath cwd path := by
  intro L hL
  rw [Path.abspath]
  unfold resolve at hL
  split at hL
  · cases hL
  · split at hL
    · rename_i habs
      rw [if_pos habs]
      exact loc_of_walk ht _ _ _ L hL
    · rename_i habs
      rw [if_neg habs]
      split at hL
      · exact loc_of_walk ht _ _ _ L hL
      · cases hL

/-- What a path leads to stands where its text says. -/
theorem found_loc (ht : t.LinkFree) {L : Loc} {n : Node β}
    (h : resolve t links cwd follow path = .found L n) :
    L = Path.abspath cwd path ∧ t.lookup (Path.abspath cwd path) = some n := by
  have hL : L = Path.abspath cwd path := by
    refine @Found.loc_of_resolve _ t links cwd follow path ht L ?_
    rw [h]
    rfl
  exact ⟨hL, hL ▸ lookup_of_resolve h⟩

theorem free_loc (ht : t.LinkFree) {L : Loc} {slash : Bool}
    (h : resolve t links cwd follow path = .free L slash) :
    L = Path.abspath cwd path ∧ t.Vacant (Path.abspath cwd path) := by
  have hL : L = Path.abspath cwd path := by
    refine @Found.loc_of_resolve _ t links cwd follow path ht L ?_
    rw [h]
    rfl
  exact ⟨hL, hL ▸ vacant_of_resolve h⟩

end Resolve

/-! ## Paths without `..` -/

/-- A path that only goes down. -/
def Down (path : Path) : Prop := ".." ∉ path

/-- A path that only goes down adds names to where it starts. -/
theorem foldl_absStep_filter {path : Path} (h : Down path) (cur : Loc) :
    path.foldl Path.absStep cur = cur ++ path.filter fun x => x ≠ "" ∧ x ≠ "." := by
  induction path generalizing cur with
  | nil => rw [List.filter_nil, List.append_nil, List.foldl_nil]
  | cons x path ih =>
    obtain ⟨hx, hpath⟩ : ".." ≠ x ∧ ".." ∉ path := by simpa [Down] using h
    rw [List.foldl_cons, ih hpath, Path.absStep]
    by_cases hskip : x = "" ∨ x = "."
    · rw [if_pos hskip, List.filter_cons_of_neg]
      simpa [← not_or] using hskip
    · rw [if_neg hskip, if_neg hx.symm, List.filter_cons_of_pos, List.append_assoc]
      · rfl
      · simpa [← not_or] using hskip

theorem prefix_foldl_absStep {path : Path} (h : Down path) (cur : Loc) :
    cur <+: path.foldl Path.absStep cur := by
  rw [foldl_absStep_filter h]
  exact List.prefix_append _ _

/-! ## Paths that lead straight to their place -/

/-- A walk along the path passes only directories above the place that it
leads to. -/
def Direct (cur : Loc) (path : Path) : Prop :=
  ∀ init rest, path = init ++ rest →
    init.foldl Path.absStep cur <+: path.foldl Path.absStep cur ∧
      (init.foldl Path.absStep cur = path.foldl Path.absStep cur →
        rest.all (fun x => x = "" ∨ x = ".") = true)

namespace Direct

variable {cur : Loc} {path : Path} {x : String}

theorem start (h : Direct cur path) : cur <+: path.foldl Path.absStep cur := (h [] path rfl).1

theorem tail (h : Direct cur (x :: path)) : Direct (Path.absStep cur x) path := by
  intro init rest hpath
  exact h (x :: init) rest (by rw [hpath, List.cons_append])

theorem cons (hx : IsName x) (h : Direct (cur ++ [x]) path) : Direct cur (x :: path) := by
  intro init rest hpath
  rw [List.foldl_cons, absStep_name hx]
  cases init with
  | nil =>
    refine ⟨(List.prefix_append _ _).trans h.start, fun heq => ?_⟩
    have hlen := h.start.length_le
    rw [← heq, List.length_append, List.foldl_nil, List.length_singleton] at hlen
    omega
  | cons y init =>
    obtain ⟨rfl, htail⟩ := List.cons.inj hpath
    rw [List.foldl_cons, absStep_name hx]
    exact h init rest htail

theorem slash (h : Direct cur path) : Direct cur ("" :: path) := by
  intro init rest hpath
  have hstep : Path.absStep cur "" = cur := if_pos (Or.inl rfl)
  rw [List.foldl_cons, hstep]
  cases init with
  | nil =>
    obtain rfl : "" :: path = rest := hpath
    refine ⟨h.start, fun heq => ?_⟩
    rw [List.all_cons, (h [] path rfl).2 heq]
    rfl
  | cons y init =>
    obtain ⟨rfl, htail⟩ := List.cons.inj hpath
    rw [List.foldl_cons, hstep]
    exact h init rest htail

/-- One more name. -/
theorem concat (h : Direct cur path) (hx : IsName x) : Direct cur (path ++ [x]) := by
  intro init rest hpath
  have hend : (path ++ [x]).foldl Path.absStep cur = path.foldl Path.absStep cur ++ [x] := by
    rw [List.foldl_append, List.foldl_cons, List.foldl_nil, absStep_name hx]
  rcases List.eq_nil_or_concat' rest with rfl | ⟨rest, y, rfl⟩
  · rw [List.append_nil] at hpath
    exact ⟨hpath ▸ List.prefix_refl _, fun _ => rfl⟩
  · rw [← List.append_assoc] at hpath
    have hinit := h init rest (List.append_inj' hpath rfl).1
    rw [hend]
    refine ⟨hinit.1.trans (List.prefix_append _ _), fun heq => ?_⟩
    have hlen := hinit.1.length_le
    rw [heq, List.length_append, List.length_singleton] at hlen
    omega

/-- One slash less at the end. -/
theorem of_slash (h : Direct cur (path ++ [""])) : Direct cur path := by
  have hend : (path ++ [""]).foldl Path.absStep cur = path.foldl Path.absStep cur := by
    rw [List.foldl_append]
    rfl
  intro init rest hpath
  have hinit := h init (rest ++ [""]) (by rw [hpath, List.append_assoc])
  rw [hend] at hinit
  refine ⟨hinit.1, fun heq => ?_⟩
  have hall := hinit.2 heq
  rw [List.all_append, Bool.and_eq_true] at hall
  exact hall.1

end Direct

theorem Down.direct {path : Path} (h : Down path) (cur : Loc) : Direct cur path := by
  rintro init rest rfl
  have hrest : Down rest := fun hmem => h (List.mem_append_right _ hmem)
  rw [List.foldl_append, foldl_absStep_filter hrest]
  refine ⟨List.prefix_append _ _, fun heq => ?_⟩
  have hnil : (rest.filter fun x => x ≠ "" ∧ x ≠ ".") = [] := by
    have hlen := congrArg List.length heq
    rw [List.length_append] at hlen
    exact List.length_eq_zero_iff.mp (by omega)
  rw [List.filter_eq_nil_iff] at hnil
  rw [List.all_eq_true]
  intro x hx
  have := hnil x hx
  rw [decide_eq_true_eq, not_and_or, not_not, not_not] at this
  exact decide_eq_true this

/-- No `..` of the path is one at the root. -/
def Grounded (cur : Loc) (path : Path) : Prop :=
  ∀ init rest, path = init ++ ".." :: rest → init.foldl Path.absStep cur ≠ []

namespace Grounded

variable {cur : Loc} {path : Path} {x : String}

theorem tail (h : Grounded cur (x :: path)) : Grounded (Path.absStep cur x) path := by
  intro init rest hpath
  exact h (x :: init) rest (by rw [hpath, List.cons_append])

theorem cons (hx : IsName x) (h : Grounded (cur ++ [x]) path) : Grounded cur (x :: path) := by
  intro init rest hpath
  cases init with
  | nil => exact absurd (List.cons.inj hpath).1 hx.2.2
  | cons y init =>
    obtain ⟨rfl, htail⟩ := List.cons.inj hpath
    rw [List.foldl_cons, absStep_name hx]
    exact h init rest htail

theorem slash (h : Grounded cur path) : Grounded cur ("" :: path) := by
  intro init rest hpath
  cases init with
  | nil => exact absurd (List.cons.inj hpath).1 (by decide)
  | cons y init =>
    obtain ⟨rfl, htail⟩ := List.cons.inj hpath
    have hstep : Path.absStep cur "" = cur := if_pos (Or.inl rfl)
    rw [List.foldl_cons, hstep]
    exact h init rest htail

theorem concat (h : Grounded cur path) (hx : IsName x) : Grounded cur (path ++ [x]) := by
  intro init rest hpath
  rcases List.eq_nil_or_concat' rest with rfl | ⟨rest, y, rfl⟩
  · exact absurd (List.cons.inj (List.append_inj' hpath rfl).2).1 hx.2.2
  · rw [← List.cons_append, ← List.append_assoc] at hpath
    exact h init rest (List.append_inj' hpath rfl).1

theorem of_slash (h : Grounded cur (path ++ [""])) : Grounded cur path := by
  intro init rest hpath
  exact h init (rest ++ [""]) (by rw [hpath, List.append_assoc, List.cons_append])

theorem left {rest : Path} (h : Grounded cur (path ++ rest)) : Grounded cur path := by
  rintro init rest' rfl
  exact h init (rest' ++ rest) (by rw [List.append_assoc, List.cons_append])

/-- Such a path leads to the same place below another location. -/
theorem foldl_append (h : Grounded cur path) (base : Loc) :
    path.foldl Path.absStep (base ++ cur) = base ++ path.foldl Path.absStep cur := by
  induction path generalizing cur with
  | nil => rfl
  | cons x path ih =>
    have hstep : Path.absStep (base ++ cur) x = base ++ Path.absStep cur x := by
      rw [Path.absStep, Path.absStep]
      split
      · rfl
      · split
        · rename_i hup
          have hcur : cur ≠ [] := h [] path (by rw [hup]; rfl)
          exact List.dropLast_append_of_ne_nil hcur
        · rw [List.append_assoc]
    rw [List.foldl_cons, List.foldl_cons, hstep, ih h.tail]

theorem below (h : Grounded cur path) (base : Loc) : Grounded (base ++ cur) path := by
  rintro init rest rfl
  rw [h.left.foldl_append]
  exact List.append_ne_nil_of_right_ne_nil _ (h init rest rfl)

end Grounded

theorem Down.grounded {path : Path} (h : Down path) (cur : Loc) : Grounded cur path := by
  rintro init rest rfl
  exact absurd (List.mem_append_right _ List.mem_cons_self) h

/-- Below another location a direct path is direct. -/
theorem Direct.below {cur : Loc} {path : Path} (h : Direct cur path) (hground : Grounded cur path)
    (base : Loc) : Direct (base ++ cur) path := by
  rintro init rest rfl
  rw [hground.left.foldl_append, hground.foldl_append, List.prefix_append_right_inj,
    List.append_cancel_left_eq]
  exact h init rest rfl

/-- Above a directory there are directories. -/
theorem isDir_above {t : FileTree β} {loc l : Loc} (hl : l <+: loc) {n : Node β}
    (hn : t.lookup loc = some n) (hdir : l ≠ loc ∨ n.isDir = true) : t.isDir l = true := by
  obtain ⟨rel, rfl⟩ := hl
  by_cases hnil : rel = []
  · subst hnil
    rw [List.append_nil] at hn hdir
    cases n with
    | dir a => exact isDir_iff.mpr ⟨a, hn⟩
    | file c a => exact absurd rfl (hdir.resolve_right Bool.false_ne_true)
    | link target => exact absurd rfl (hdir.resolve_right Bool.false_ne_true)
  · exact isDir_iff.mpr (ancestor_dir hn hnil)

/-- A path leads to the directory at its location. -/
theorem walk_of_dir {t : FileTree β} {follow : Bool} {links : ℕ} {path : Path} {cur : Loc}
    (h : Direct cur path) {a : Attr}
    (hdir : t.lookup (path.foldl Path.absStep cur) = some (.dir a)) :
    walk t follow links cur path = .found (path.foldl Path.absStep cur) (.dir a) := by
  induction path generalizing cur with
  | nil =>
    rw [List.foldl_nil] at hdir ⊢
    rw [walk_nil, hdir]
  | cons x path ih =>
    have ih := ih h.tail hdir
    rw [List.foldl_cons]
    rcases component_cases x with hskip | rfl | hname
    · rw [Path.absStep, if_pos hskip] at ih ⊢
      rw [walk_skip hskip, ih]
    · rw [walk_up]
      exact ih
    · have hprefix := h.tail.start
      rw [absStep_name hname] at ih hprefix ⊢
      rw [List.foldl_cons, absStep_name hname] at hdir
      obtain ⟨b, hb⟩ := isDir_iff.mp (isDir_above hprefix hdir (Or.inr rfl))
      rw [walk_name hname, hb]
      exact ih

/-- A path leads to a file at its location if and only if a name is its last
component. -/
theorem walk_file_iff {t : FileTree β} {follow : Bool} {links : ℕ} {path : Path} {cur : Loc}
    (h : Direct cur path) (hcur : t.isDir cur = true) {c : β} {a : Attr}
    (hfile : t.lookup (path.foldl Path.absStep cur) = some (.file c a)) :
    (∃ L n, walk t follow links cur path = .found L n) ↔ IsName (Path.basename path) := by
  induction path generalizing cur with
  | nil =>
    obtain ⟨b, hb⟩ := isDir_iff.mp hcur
    rw [List.foldl_nil, hb] at hfile
    cases hfile
  | cons x path ih =>
    have hlast : path ≠ [] → Path.basename (x :: path) = Path.basename path := by
      intro hne
      rw [Path.basename, Path.basename, List.getLastD_cons, List.getLastD_eq_getLast?,
        List.getLastD_eq_getLast?, List.getLast?_eq_some_getLast hne]
      rfl
    -- a directory at the end is no file
    have hne : t.isDir (Path.absStep cur x) = true → path ≠ [] := by
      rintro hdir rfl
      obtain ⟨b, hb⟩ := isDir_iff.mp hdir
      rw [List.foldl_cons, List.foldl_nil, hb] at hfile
      cases hfile
    have ih := fun hdir => ih h.tail hdir hfile
    rcases component_cases x with hskip | rfl | hname
    · have hstep : Path.absStep cur x = cur := if_pos hskip
      rw [hstep] at hne ih
      rw [walk_skip hskip, hlast (hne hcur)]
      exact ih hcur
    · have hup : t.isDir (Path.absStep cur "..") = true := by
        obtain ⟨b, hb⟩ := isDir_iff.mp hcur
        exact isDir_above (List.dropLast_prefix cur) hb (Or.inr rfl)
      rw [walk_up, hlast (hne hup)]
      exact ih hup
    · have hpath := h [x] path rfl
      have hstep : Path.absStep cur x = cur ++ [x] := absStep_name hname cur
      rw [List.foldl_cons, List.foldl_nil] at hpath
      rw [hstep] at hne ih hpath
      rw [walk_name hname]
      by_cases hnil : path = []
      · subst hnil
        rw [List.foldl_cons, List.foldl_nil, hstep] at hfile
        rw [hfile]
        exact ⟨fun _ => hname, fun _ => ⟨_, _, rfl⟩⟩
      · rw [hlast hnil]
        by_cases hend : cur ++ [x] = (x :: path).foldl Path.absStep cur
        · -- the location of the path is the one of this file
          rw [hend, hfile]
          refine ⟨fun hfound => ?_, fun hbase => ?_⟩
          · simp [hnil] at hfound
          · exfalso
            obtain ⟨init, y, rfl⟩ := (List.eq_nil_or_concat' path).resolve_left hnil
            have hall := hpath.2 hend
            rw [List.all_append, Bool.and_eq_true] at hall
            rw [Path.basename, List.getLastD_concat] at hbase
            have hy : y = "" ∨ y = "." := by simpa using hall.2
            exact hy.elim hbase.1 hbase.2.1
        · have hdir := isDir_above hpath.1 hfile (Or.inl hend)
          obtain ⟨b, hb⟩ := isDir_iff.mp hdir
          rw [hb]
          exact ih hdir

section Absolute

variable {t : FileTree β} {links : ℕ} {cwd : Loc} {follow : Bool} {path : Path}
  (habs : path.isabs = true) (hdirect : Direct [] path)

include habs hdirect

theorem resolve_of_dir {a : Attr} (hdir : t.lookup (Path.abspath cwd path) = some (.dir a)) :
    resolve t links cwd follow path = .found (Path.abspath cwd path) (.dir a) := by
  rw [Path.abspath, if_pos habs] at hdir ⊢
  rw [resolve, if_neg ?_, if_pos habs, walk_of_dir hdirect hdir]
  rintro (rfl | rfl) <;> cases habs

theorem resolve_file_iff {c : β} {a : Attr}
    (hfile : t.lookup (Path.abspath cwd path) = some (.file c a)) :
    (∃ L n, resolve t links cwd follow path = .found L n) ↔ IsName (Path.basename path) := by
  rw [Path.abspath, if_pos habs] at hfile
  rw [resolve, if_neg ?_, if_pos habs]
  · exact walk_file_iff hdirect t.root hfile
  · rintro (rfl | rfl) <;> cases habs

end Absolute

/-! ## Confined changes -/

/-- No contents have changed. -/
def SameContent (t t' : FileTree β) : Prop := ∀ l, t'.content l = t.content l

/-- Nothing has changed but what is `within` and directories that are
`passed`, which have been made where they were missing.  The relation is
about trees without links. -/
def Changes (within passed : Loc → Prop) (t t' : FileTree β) : Prop :=
  t.LinkFree → t'.LinkFree ∧ ∀ l, ¬ within l →
    t'.content l = t.content l ∨
      passed l ∧ t.content l = none ∧ t'.content l = some (.dir, none)

instance (within passed : Loc → Prop) : IsPreorder (FileTree β) (Changes within passed) where
  refl _ ht := ⟨ht, fun _ _ => Or.inl rfl⟩
  trans t t' t'' h h' ht := by
    obtain ⟨ht', hl⟩ := h ht
    obtain ⟨ht'', hl'⟩ := h' ht'
    refine ⟨ht'', fun l hnot => ?_⟩
    rcases hl l hnot with heq | ⟨hpassed, hnone, hdir⟩
    · rw [← heq]
      exact hl' l hnot
    · rcases hl' l hnot with heq | ⟨-, hnone', -⟩
      · exact Or.inr ⟨hpassed, hnone, heq.trans hdir⟩
      · rw [hnone'] at hdir
        cases hdir

/-- More may change. -/
theorem Changes.mono {within passed within' passed' : Loc → Prop} {t t' : FileTree β}
    (h : Changes within passed t t') (hwithin : ∀ l, within l → within' l)
    (hpassed : ∀ l, passed l → within' l ∨ passed' l) : Changes within' passed' t t' := by
  refine fun ht => ⟨(h ht).1, fun l hl => ?_⟩
  rcases (h ht).2 l (fun hl' => hl (hwithin l hl')) with heq | ⟨hl', hrest⟩
  · exact Or.inl heq
  · exact Or.inr ⟨(hpassed l hl').resolve_left hl, hrest⟩

/-- A directory is made. -/
theorem Changes.create_dir {within passed : Loc → Prop} {t : FileTree β} {loc : Loc}
    (hloc : within loc ∨ passed loc) {a : Attr} :
    Changes within passed t (t.create loc (.dir a)) := by
  by_cases hvacant : t.Vacant loc
  · refine fun ht => ⟨fun l target hl => ?_, fun l hl => ?_⟩
    · rw [lookup_create hvacant] at hl
      split at hl
      · cases hl
      · exact ht l target hl
    · rw [content, content, lookup_create hvacant]
      split
      · rename_i heq
        subst heq
        exact Or.inr ⟨hloc.resolve_left hl, content_eq_none.mpr hvacant.1, rfl⟩
      · exact Or.inl rfl
  · rw [FileTree.create, dif_neg hvacant]
    exact refl_of (Changes within passed) t

/-- Nothing has changed but what is at or below `top` and the directories on
the way to it. -/
def Confined (top : Loc) (t t' : FileTree β) : Prop :=
  Changes (fun l => top <+: l) (fun l => l <+: top) t t'

instance (top : Loc) : IsPreorder (FileTree β) (Confined top) :=
  inferInstanceAs (IsPreorder (FileTree β) (Changes _ _))

theorem Node.kind_eq_of_content {n m : Node β} (h : n.content = m.content) : n.kind = m.kind := by
  cases n <;> cases m <;> simp_all [Node.content, Node.kind]

/-- Trees with the same contents look alike to a walk. -/
theorem SameContent.sameShape {t t' : FileTree β} (h : SameContent t t') : SameShape t t' := by
  intro l
  have hl := h l
  rw [FileTree.content, FileTree.content] at hl
  cases ht : t.lookup l with
  | none =>
    rw [ht] at hl
    rw [Option.map_eq_none_iff.mp hl]
  | some n =>
    rw [ht] at hl
    obtain ⟨n', hn', hc⟩ := Option.map_eq_some_iff.mp hl
    rw [hn', Option.map_some, Option.map_some, Node.kind_eq_of_content hc]

namespace Confined

variable {top : Loc} {t t' : FileTree β}

theorem of_sameContent (h : SameContent t t') : Confined top t t' := by
  refine fun ht => ⟨linkFree_iff.mpr fun loc target hl => ?_, fun l _ => Or.inl (h l)⟩
  rw [h] at hl
  exact linkFree_iff.mp ht loc target hl

/-- A change below is one above. -/
theorem mono {top' : Loc} (h : Confined top' t t') (htop : top <+: top') : Confined top t t' :=
  Changes.mono h (fun _ hl => htop.trans hl)
    fun _ hl => (List.prefix_or_prefix_of_prefix hl htop).symm

/-- One location has changed, at or below `top`. -/
theorem of_lookup {loc : Loc} (htop : top <+: loc)
    (h : ∀ l, l ≠ loc → t'.lookup l = t.lookup l)
    (hlink : ∀ target, t'.lookup loc ≠ some (.link target)) : Confined top t t' := by
  refine fun ht => ⟨fun l target hl => ?_, fun l hl => Or.inl ?_⟩
  · by_cases hloc : l = loc
    · exact hlink target (hloc ▸ hl)
    · rw [h l hloc] at hl
      exact ht l target hl
  · rw [content, content, h l]
    rintro rfl
    exact hl htop

theorem create {loc : Loc} (htop : top <+: loc) {n : Node β} (hn : n.isLink = false) :
    Confined top t (t.create loc n) := by
  by_cases hvacant : t.Vacant loc
  · refine of_lookup htop (fun l hl => ?_) fun target htarget => ?_
    · rw [lookup_create hvacant, if_neg hl]
    · rw [lookup_create hvacant, if_pos rfl] at htarget
      cases htarget
      cases hn
  · rw [FileTree.create, dif_neg hvacant]
    exact refl_of (Confined top) t

theorem replace {loc : Loc} (htop : top <+: loc) {m n : Node β} (hm : t.lookup loc = some m)
    (hdir : m.isDir = true → n.isDir = true) (hn : n.isLink = false) :
    Confined top t (t.replace loc n) := by
  have hreplace : ∀ l, (t.replace loc n).lookup l = if l = loc then some n else t.lookup l := by
    intro l
    refine lookup_replace hm fun h => hdir ?_
    obtain ⟨a, ha⟩ := isDir_iff.mp h
    rw [hm] at ha
    rw [Option.some.inj ha]
    rfl
  refine of_lookup htop (fun l hl => ?_) fun target htarget => ?_
  · rw [hreplace, if_neg hl]
  · rw [hreplace, if_pos rfl] at htarget
    cases htarget
    cases hn

theorem erase {loc : Loc} (htop : top <+: loc) : Confined top t (t.erase loc) := by
  by_cases h : loc ≠ [] ∧ t.names loc = []
  · refine of_lookup htop (fun l hl => ?_) fun target htarget => ?_
    · rw [lookup_erase h.1 h.2, if_neg hl]
    · rw [lookup_erase h.1 h.2, if_pos rfl] at htarget
      cases htarget
  · rw [FileTree.erase, dif_neg h]
    exact refl_of (Confined top) t

end Confined

/-! ## Locations beside each other -/

/-- Neither location is at or below the other. -/
def Apart (loc loc' : Loc) : Prop := ¬ loc <+: loc' ∧ ¬ loc' <+: loc

namespace Apart

variable {loc loc' : Loc}

theorem symm (h : Apart loc loc') : Apart loc' loc := ⟨h.2, h.1⟩

/-- What is below one location is not at or below the other. -/
theorem not_prefix_append (h : Apart loc loc') (rel : Loc) : ¬ loc' <+: loc ++ rel := fun hpre =>
  (List.prefix_or_prefix_of_prefix hpre (List.prefix_append loc rel)).elim h.2 h.1

theorem append (h : Apart loc loc') (rel rel' : Loc) : Apart (loc ++ rel) (loc' ++ rel') := by
  constructor
  · exact fun hpre => h.symm.not_prefix_append rel' ((List.prefix_append loc rel).trans hpre)
  · exact fun hpre => h.not_prefix_append rel ((List.prefix_append loc' rel').trans hpre)

/-- Below one location the places of the two are apart, too. -/
theorem below (h : Apart loc loc') (top : Loc) : Apart (top ++ loc) (top ++ loc') := by
  rw [Apart, List.prefix_append_right_inj, List.prefix_append_right_inj]
  exact h

theorem of_ne {x y : String} (hne : x ≠ y) (loc : Loc) : Apart (loc ++ [x]) (loc ++ [y]) := by
  have hnot : ∀ {x y : String}, x ≠ y → ¬ loc ++ [x] <+: loc ++ [y] := by
    intro x y hne hpre
    rw [List.prefix_append_right_inj] at hpre
    obtain ⟨rest, hrest⟩ := hpre
    exact hne (List.cons.inj hrest).1
  exact ⟨hnot hne, hnot hne.symm⟩

end Apart

/-- What lies apart from a confined change stays. -/
theorem Confined.content_apart {top loc : Loc} {t t' : FileTree β} (h : Confined top t t')
    (ht : t.LinkFree) (hapart : Apart loc top) (rel : Loc) :
    t'.content (loc ++ rel) = t.content (loc ++ rel) := by
  refine ((h ht).2 _ (hapart.not_prefix_append rel)).resolve_right fun hway => ?_
  exact hapart.1 ((List.prefix_append loc rel).trans hway.1)

/-- What is there above or beside a confined change stays. -/
theorem Confined.content_of_ne_none {top l : Loc} {t t' : FileTree β} (h : Confined top t t')
    (ht : t.LinkFree) (hl : ¬ top <+: l) (hsome : t.content l ≠ none) :
    t'.content l = t.content l :=
  ((h ht).2 l hl).resolve_right fun hway => hsome hway.2.1

/-! ## The same path in two trees -/

/-- A direct path leads to the same in two trees that agree on its location. -/
theorem resolve_congr {t t' : FileTree β} (ht : t.LinkFree) (ht' : t'.LinkFree) {links : ℕ}
    {cwd : Loc} {follow : Bool} {path : Path}
    (hdirect : Direct (if Path.isabs path then [] else cwd) path)
    (h : t'.content (Path.abspath cwd path) = t.content (Path.abspath cwd path)) {L : Loc}
    {n : Node β} (hfound : resolve t links cwd follow path = .found L n) :
    ∃ n', resolve t' links cwd follow path = .found L n' ∧ n'.content = n.content := by
  obtain ⟨rfl, hn⟩ := found_loc ht hfound
  obtain ⟨hnil, hempty, hbase, heq⟩ := resolve_eq_walk (fun e he => by rw [he] at hfound; cases hfound)
  rw [heq] at hfound
  have hcontent := h.trans (content_of_lookup hn)
  have hbase' : t'.isDir (if Path.isabs path then [] else cwd) = true := by
    have hpre : (if Path.isabs path then [] else cwd) <+: Path.abspath cwd path :=
      hdirect.start
    rw [← content_eq_dir] at hbase ⊢
    by_cases heq' : (if Path.isabs path then [] else cwd) = Path.abspath cwd path
    · rw [heq'] at hbase ⊢
      rw [h, hbase]
    · exact content_above hpre heq' (by rw [hcontent]; nofun)
  rw [resolve_of_base hnil hempty hbase']
  cases n with
  | dir a =>
    obtain ⟨b, hb⟩ := isDir_iff.mp (content_eq_dir.mp hcontent)
    exact ⟨.dir b, walk_of_dir hdirect hb, rfl⟩
  | file c a =>
    obtain ⟨b, hb⟩ := content_eq_file.mp hcontent
    have hname := (walk_file_iff hdirect hbase hn).mp ⟨_, _, hfound⟩
    obtain ⟨L, m, hm⟩ :=
      (@walk_file_iff _ t' follow links _ _ hdirect hbase' _ _ hb).mpr hname
    have hL : L = Path.abspath cwd path := Found.loc_of_walk ht' _ _ _ L (by rw [hm]; rfl)
    subst hL
    have hlookup := lookup_of_walk_found _ _ _ hbase' _ _ hm
    refine ⟨m, hm, ?_⟩
    rw [← Option.some.inj (hb.symm.trans hlookup)]
    rfl
  | link target => exact absurd hn (ht _ _)

end Kolla.Lib
