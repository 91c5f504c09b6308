import Kolla.Lib.PlainTree
import Mathlib.Data.Set.Basic

/-!
# Paths that stay where they lead

A program that builds something below a location changes the tree under the
paths that it uses.  `Reaches` says that a path leads to a location, whether
something stands there or not, and `Anchored` that it does so whatever happens
in a region.  Names joined to an anchored path are anchored below it
(`Anchored.under`), so a recursion over a directory needs the two facts for the
path that it starts with only.
-/

namespace Kolla.Lib

variable {β : Type}

/-! ## Changes in a region -/

/-- The trees look alike outside of `R`. -/
def AlikeOff (R : Set Loc) (t t' : FileTree β) : Prop :=
  ∀ l, l ∉ R → (t'.lookup l).map Node.kind = (t.lookup l).map Node.kind

namespace AlikeOff

variable {R R' : Set Loc} {t t' t'' : FileTree β}

theorem refl (R : Set Loc) (t : FileTree β) : AlikeOff R t t := fun _ _ => rfl

theorem trans (h : AlikeOff R t t') (h' : AlikeOff R t' t'') : AlikeOff R t t'' :=
  fun l hl => (h' l hl).trans (h l hl)

theorem mono (h : AlikeOff R t t') (hR : R ⊆ R') : AlikeOff R' t t' :=
  fun l hl => h l fun hl' => hl (hR hl')

theorem of_content (h : ∀ l, l ∉ R → t'.content l = t.content l) : AlikeOff R t t' := by
  intro l hl
  have hl := congrArg (Option.map Prod.fst) (h l hl)
  rw [FileTree.content, FileTree.content, Option.map_map, Option.map_map] at hl
  have hkind : (Prod.fst ∘ Node.content : Node β → Kind) = Node.kind := by
    funext n
    cases n <;> rfl
  rwa [hkind] at hl

end AlikeOff

/-! ## Slashes at the end -/

variable {t : FileTree β} {links : ℕ} {cwd : Loc} {path : Path} {L : Loc}

/-- With a slash at its end, a path leads to what it leads to without it, if that
is a directory. -/
theorem resolve_slash (hnil : path ≠ []) (hempty : path ≠ [""]) {follow : Bool} {n : Node β} :
    resolve t links cwd follow (path ++ [""]) = .found L n ↔
      resolve t links cwd true path = .found L n ∧ n.isDir = true := by
  have hslash : path ++ [""] ≠ [] ∧ path ++ [""] ≠ [""] := by simp [hnil]
  have habs : Path.isabs (path ++ [""]) = Path.isabs path := Path.isabs_append hnil hempty
  by_cases hdir : t.isDir (if Path.isabs path then [] else cwd) = true
  · rw [resolve_of_base hnil hempty hdir, resolve_of_base hslash.1 hslash.2 (by rwa [habs]), habs,
      walk_slash links _ path hdir]
  · have hrel : Path.isabs path = false := by
      by_contra hne
      rw [Bool.not_eq_false] at hne
      rw [if_pos hne] at hdir
      exact hdir t.root
    rw [hrel] at habs hdir
    have hcwd : ¬ t.isDir cwd = true := by simpa using hdir
    simp [resolve, hnil, hempty, habs, hrel, hcwd]

/-- So it is with any number of them. -/
theorem resolve_slashes (hnil : path ≠ []) (hempty : path ≠ [""]) {follow : Bool} {n : Node β}
    (k : ℕ) :
    resolve t links cwd follow (path ++ List.replicate (k + 1) "") = .found L n ↔
      resolve t links cwd true path = .found L n ∧ n.isDir = true := by
  induction k generalizing follow with
  | zero => exact resolve_slash hnil hempty
  | succ k ih =>
    rw [List.replicate_succ', ← List.append_assoc, resolve_slash (by simp [hnil]) ?_, ih, and_assoc,
      and_self]
    intro hsingle
    have := congrArg List.length hsingle
    have := List.length_pos_of_ne_nil hnil
    simp at *
    omega

/-- The slashes at the end of a path to a directory can be dropped. -/
theorem resolve_rdropWhile (hall : path.all (· = "") = false) {a : Attr}
    (h : resolve t links cwd true path = .found L (.dir a)) :
    resolve t links cwd true (path.rdropWhile (· = "")) = .found L (.dir a) := by
  induction path using List.reverseRecOn with
  | nil => cases hall
  | append_singleton path x ih =>
    by_cases hx : x = ""
    · subst hx
      have hall' : path.all (· = "") = false := by simpa using hall
      have hne : path ≠ [] ∧ path ≠ [""] := by
        constructor <;> rintro rfl <;> cases hall'
      rw [List.rdropWhile_concat_pos _ _ _ (by simp)]
      exact ih hall' ((resolve_slash hne.1 hne.2).mp h).1
    · rwa [List.rdropWhile_concat_neg _ _ _ (by simpa using hx)]

/-- The directory of an entry is the one that the entry is in. -/
theorem resolve_dirname {x : String} {a : Attr}
    (h : resolve t links cwd true path = .found L (.dir a)) :
    resolve t links cwd true (Path.dirname (Path.join path [x])) = .found L (.dir a) := by
  obtain ⟨hnil, hempty, -, -⟩ := resolve_eq_walk (fun e he => by rw [he] at h; cases h)
  rw [Path.join_name]
  split
  · rename_i hlast
    rcases List.eq_nil_or_concat' path with rfl | ⟨path, y, rfl⟩
    · exact absurd rfl hnil
    · obtain rfl : y = "" := by simpa using hlast
      have hp : path ≠ [] := by
        rintro rfl
        exact hempty rfl
      rw [List.dropLast_concat, Path.dirname, List.dropLast_concat, if_neg hp]
      split
      · exact h
      · rename_i hall
        have hp' : path ≠ [""] := by
          rintro rfl
          exact hall rfl
        exact resolve_rdropWhile (by simpa using hall) ((resolve_slash hp hp').mp h).1
  · rename_i hlast
    have hall : path.all (· = "") = false := by
      rcases List.eq_nil_or_concat' path with rfl | ⟨path, y, rfl⟩
      · exact absurd rfl hnil
      · simpa using fun _ => hlast
    rw [Path.dirname, List.dropLast_concat, if_neg hnil, hall, if_neg Bool.false_ne_true]
    exact resolve_rdropWhile hall h

/-! ## Where a path leads -/

/-- The path leads to the location: to what stands there, if something does,
and else to a free place in a directory. -/
structure Reaches (links : ℕ) (cwd : Loc) (t : FileTree β) (path : Path) (L : Loc) : Prop where
  found : ∀ follow n, t.lookup L = some n → (follow = true → n.isLink = false) →
    resolve t links cwd follow path = .found L n
  free : ∀ follow, t.lookup L = none → t.isDir L.dropLast = true →
    resolve t links cwd follow path = .free L false

/-- An entry of a directory that a path leads to. -/
theorem reaches_join {a : Attr} (h : resolve t links cwd true path = .found L (.dir a)) {x : String}
    (hx : IsName x) : Reaches links cwd t (Path.join path [x]) (L ++ [x]) := by
  constructor
  · intro follow n hn hlink
    exact @resolve_lookup _ t links cwd path L a [x] n follow h (List.cons_ne_nil _ _) hn hlink
  · intro follow hnone hdir
    rw [List.dropLast_concat] at hdir
    obtain ⟨left, hleft⟩ := resolve_under h
    have hjoin := hleft follow [x] (List.cons_ne_nil _ _) (by simpa using hx)
    rw [Path.under_cons, Path.under_nil] at hjoin
    have hmissing := @walk_missing _ t follow left [] L x (by simpa using hdir) hx (by simpa using hnone)
    rw [List.nil_append, List.append_nil] at hmissing
    rw [hjoin, hmissing]

theorem Reaches.join (h : Reaches links cwd t path L) {x : String} (hx : IsName x) :
    Reaches links cwd t (Path.join path [x]) (L ++ [x]) := by
  constructor
  · intro follow n hn hlink
    obtain ⟨a, ha⟩ := FileTree.parent_dir hn
    exact (reaches_join (h.found true _ ha fun _ => rfl) hx).found follow n hn hlink
  · intro follow hnone hdir
    obtain ⟨a, ha⟩ := FileTree.isDir_iff.mp (by simpa using hdir)
    exact (reaches_join (h.found true _ ha fun _ => rfl) hx).free follow hnone hdir

theorem Reaches.under (h : Reaches links cwd t path L) {names : List String}
    (hnames : ∀ x ∈ names, IsName x) : Reaches links cwd t (Path.under path names) (L ++ names) := by
  induction names generalizing path L with
  | nil => simpa using h
  | cons x names ih =>
    obtain ⟨hx, hnames⟩ := List.forall_mem_cons.mp hnames
    rw [Path.under_cons, List.append_cons]
    exact ih (h.join hx) hnames

/-- Whatever happens in the region, the path leads to the location. -/
def Anchored (R : Set Loc) (links : ℕ) (cwd : Loc) (t : FileTree β) (path : Path) (L : Loc) : Prop :=
  ∀ t', AlikeOff R t t' → Reaches links cwd t' path L

namespace Anchored

variable {R R' : Set Loc} {t' : FileTree β}

theorem reaches (h : Anchored R links cwd t path L) : Reaches links cwd t path L :=
  h t (AlikeOff.refl R t)

theorem mono (h : Anchored R' links cwd t path L) (hR : R ⊆ R') : Anchored R links cwd t path L :=
  fun t' ht' => h t' (ht'.mono hR)

theorem of_alike (h : Anchored R links cwd t path L) (ht : AlikeOff R t t') :
    Anchored R links cwd t' path L :=
  fun t'' ht'' => h t'' (ht.trans ht'')

theorem join (h : Anchored R links cwd t path L) {x : String} (hx : IsName x) :
    Anchored R links cwd t (Path.join path [x]) (L ++ [x]) :=
  fun t' ht' => (h t' ht').join hx

theorem under (h : Anchored R links cwd t path L) {names : List String}
    (hnames : ∀ x ∈ names, IsName x) :
    Anchored R links cwd t (Path.under path names) (L ++ names) :=
  fun t' ht' => (h t' ht').under hnames

end Anchored

/-! ## Paths that are anchored as they are -/

/-- An absolute path that only goes down and ends with a name is anchored at the
location that it spells, whatever the region. -/
theorem anchored_of_down (habs : path.isabs = true) (hdown : Down path)
    (hname : IsName (Path.basename path)) (R : Set Loc) :
    Anchored R links cwd t path (Path.abspath cwd path) := by
  intro t' _
  have hne : path ≠ [] ∧ path ≠ [""] := by
    constructor <;> rintro rfl <;> cases habs
  have hresolve : ∀ follow, resolve t' links cwd follow path = walk t' follow links [] path := by
    intro follow
    rw [resolve, if_neg (by simp [hne]), if_pos habs]
  obtain ⟨init, x, rfl⟩ := (List.eq_nil_or_concat' path).resolve_left hne.1
  have hx : IsName x := by simpa [Path.basename] using hname
  have hinit : Down init := fun hmem => hdown (List.mem_append_left _ hmem)
  have hloc : Path.abspath cwd (init ++ [x]) = init.foldl Path.absStep [] ++ [x] := by
    rw [Path.abspath, if_pos habs, List.foldl_append, List.foldl_cons, absStep_name hx,
      List.foldl_nil]
  -- the walk goes on from the directory
  have hwalk : t'.isDir (init.foldl Path.absStep []) = true → ∃ left, ∀ follow,
      resolve t' links cwd follow (init ++ [x])
        = walk t' follow left (init.foldl Path.absStep []) [x] := by
    intro hdir
    obtain ⟨a, ha⟩ := FileTree.isDir_iff.mp hdir
    obtain ⟨left, -, hleft⟩ := walk_append links [] init _ a (walk_of_dir (hinit.direct []) ha)
    exact ⟨left, fun follow => by rw [hresolve, hleft follow [x] (List.cons_ne_nil _ _)]⟩
  rw [hloc]
  constructor
  · intro follow n hn hlink
    obtain ⟨left, hleft⟩ := hwalk (FileTree.isDir_iff.mpr (FileTree.parent_dir hn))
    rw [hleft]
    exact walk_names hn hlink
  · intro follow hnone hdir
    rw [List.dropLast_concat] at hdir
    obtain ⟨left, hleft⟩ := hwalk hdir
    have hmissing := @walk_missing _ t' follow left [] (init.foldl Path.absStep []) x
      (by simpa using hdir) hx (by simpa using hnone)
    rw [List.nil_append, List.append_nil] at hmissing
    rw [hleft, hmissing]

/-- So is one to a directory outside of the region, however it ends. -/
theorem anchored_of_dir (habs : path.isabs = true) (hdown : Down path) {R : Set Loc} {a : Attr}
    (hR : Path.abspath cwd path ∉ R) (hdir : t.lookup (Path.abspath cwd path) = some (.dir a)) :
    Anchored R links cwd t path (Path.abspath cwd path) := by
  intro t' ht'
  have hkind := ht' _ hR
  rw [hdir] at hkind
  cases hn : t'.lookup (Path.abspath cwd path) with
  | none =>
    rw [hn] at hkind
    cases hkind
  | some n =>
    rw [hn] at hkind
    obtain ⟨b, rfl⟩ : ∃ b, n = .dir b := by
      cases n with
      | dir b => exact ⟨b, rfl⟩
      | file c b => cases hkind
      | link target => cases hkind
    constructor
    · intro follow m hm _
      rw [hn] at hm
      cases hm
      exact resolve_of_dir habs (hdown.direct []) hn
    · intro follow hnone
      rw [hn] at hnone
      cases hnone

end Kolla.Lib
