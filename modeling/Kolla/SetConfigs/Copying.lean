import Kolla.SetConfigs.Merge

/-!
# One iteration of `copy`

`copySource` deletes what is at the destination, unless the entry merges, makes the
directories on the way, and lays the source over what is left.  `Copied` is what it
has done then, and `copySource_of_calm` that it does.
-/

namespace Kolla.SetConfigs

open Kolla.Lib Kolla.SetConfigs.System

variable {β : Type}

namespace ConfigFile

variable {sys : System β} {self : ConfigFile} {G : Paint β} {R X : Set Loc}

/-- A destination: an entry of a directory that is there, or that can be made
below one that is. -/
structure Aimed (sys : System β) (R : Set Loc) (t : FileTree β) (path : Path) (D : Loc) : Prop where
  entry : ∃ q Q names x, path = Path.join (Path.under q names) [x] ∧ D = Q ++ names ++ [x] ∧
    (∀ y ∈ names, IsName y) ∧ IsName x ∧ sys.Anchored R t q Q ∧ t.isDir Q = true ∧
    Passable t Q names ∧ way Q names ⊆ R
  inside : ∀ l, D <+: l → l ∈ R

/-- The path has slashes at its end, and is `p` without them. -/
def Slashed (p path : Path) : Prop := ∃ k, path = p ++ List.replicate (k + 1) ""

/-- Where a source is copied to.  A path with a slash at its end is one for a
directory: the source is one, and there is one at the destination, or nothing. -/
def Lands (sys : System β) (R : Set Loc) (t : FileTree β) (S : Loc) (path : Path) (D : Loc) : Prop :=
  Aimed sys R t path D ∨ ∃ p, Slashed p path ∧ Aimed sys R t p D ∧ t.isDir S = true ∧
    (t.lookup D = none ∨ t.isDir D = true)

/-- The other parts of the container do not matter. -/
theorem Lands.of_eq {sys' : System β} {t : FileTree β} {S D : Loc} {path : Path}
    (h : Lands sys R t S path D) (hlinks : sys'.maxLinks = sys.maxLinks) (hcwd : sys'.cwd = sys.cwd) :
    Lands sys' R t S path D := by
  have haimed : ∀ {p}, Aimed sys R t p D → Aimed sys' R t p D := by
    intro p h
    refine ⟨?_, h.inside⟩
    obtain ⟨q, Q, names, x, hp, hD, hnames, hx, hq, hrest⟩ := h.entry
    refine ⟨q, Q, names, x, hp, hD, hnames, hx, ?_, hrest⟩
    rwa [System.Anchored, hlinks, hcwd]
  rcases h with h | ⟨p, hs, h, hrest⟩
  · exact Or.inl (haimed h)
  · exact Or.inr ⟨p, hs, haimed h, hrest⟩

/-- What `copySource` has done: the source lies over what was there, or over
nothing, and elsewhere there are at most new directories on the way. -/
structure Copied (G : Paint β) (X : Set Loc) (merge : Bool)
    (src : Loc → Option (Kind × Option β)) (D : Loc) (t t' : FileTree β) : Prop where
  overlaid : Overlaid IsFile src (fun rel => if merge then t.subtree D rel else none) (t'.subtree D)
  outside : ∀ l, ¬ D <+: l →
    Dabbed G X t t' l ∨ t.lookup l = none ∧ l <+: D ∧ t'.isDir l = true

/-- What stands below the destination is from the source, or, in a merge, it was there
before. -/
def Held (merge : Bool) (src old : Loc → Option (Kind × Option β)) (D : Loc) (t : FileTree β) :
    Prop :=
  ∀ rel, rel ≠ [] → t.subtree D rel = none ∨ t.subtree D rel = src rel ∨
    merge = true ∧ t.subtree D rel = old rel

theorem Held.toward {merge : Bool} {src old : Loc → Option (Kind × Option β)} {D : Loc}
    {t t' : FileTree β} (h : Held merge src old D t) (ht : Toward src D t t') :
    Held merge src old D t' := by
  intro rel hrel
  rcases ht (D ++ rel) with heq | ⟨rel', hrel', hnew⟩
  · rw [FileTree.subtree, heq]
    exact h rel hrel
  · obtain rfl := List.append_cancel_left hrel'
    exact hnew.imp_right Or.inl

/-- A source that `copySource` can copy. -/
structure Copyable (sys : System β) (preserve merge : Bool) (R X : Set Loc) (t : FileTree β)
    (source : Path) (S : Loc) (dest : Path) (D : Loc) : Prop where
  source : sys.Anchored R t source S
  lands : Lands sys R t S dest D
  apart : Apart S D
  there : t.lookup S ≠ none
  plain : ∀ rel target, t.subtree S rel ≠ some (.link target, none)
  clear : merge = true → ∀ rel target, t.subtree S rel ≠ none →
    t.subtree D rel ≠ some (.link target, none)
  direct : merge = false → sys.islink t dest = true → sys.isdir t dest = false
  shallow : ∀ rel, t.subtree S rel ≠ none → rel.length < sys.recursionLimit
  depth : ∀ rel, t.subtree D rel = some (.dir, none) → rel.length < sys.recursionLimit
  stray : preserve = false → ∀ rel, t.subtree S rel ≠ none →
    ∀ t', AlikeOff R t t' → Held merge (t.subtree S) (t.subtree D) D t' →
      t'.subtree D rel = t.subtree S rel → sys.globbed t' (Path.under dest rel) ⊆ X

namespace Aimed

variable {t t' : FileTree β} {path : Path} {D : Loc}

theorem anchored (h : Aimed sys R t path D) : sys.Anchored R t path D := by
  obtain ⟨q, Q, names, x, rfl, rfl, hnames, hx, hq, -, -, -⟩ := h.entry
  exact (hq.under hnames).join hx

theorem isName (h : Aimed sys R t path D) : IsName (Path.basename path) := by
  obtain ⟨q, Q, names, x, rfl, rfl, -, hx, -, -, -, -⟩ := h.entry
  rwa [Path.basename, Path.getLastD_join_name]

theorem ne_nil (h : Aimed sys R t path D) : D ≠ [] := by
  obtain ⟨q, Q, names, x, rfl, rfl, -, -, -, -, -, -⟩ := h.entry
  simp

/-- Nothing on the way to the destination has changed. -/
theorem of_alike (h : Aimed sys R t path D) (ht : AlikeOff R t t')
    (hway : ∀ l, l <+: D → l ≠ D → t'.lookup l = t.lookup l) : Aimed sys R t' path D := by
  obtain ⟨q, Q, names, x, rfl, rfl, hnames, hx, hq, hQ, hpass, hR⟩ := h.entry
  have hsame : ∀ init, init <+: names → t'.lookup (Q ++ init) = t.lookup (Q ++ init) := by
    rintro init ⟨rest, rfl⟩
    refine hway _ ⟨rest ++ [x], by simp⟩ fun heq => ?_
    have := congrArg List.length heq
    simp at this
  have hdir : ∀ init, init <+: names → t'.isDir (Q ++ init) = t.isDir (Q ++ init) := by
    intro init hinit
    rw [Bool.eq_iff_iff, FileTree.isDir_iff, FileTree.isDir_iff, hsame init hinit]
  refine ⟨⟨q, Q, names, x, rfl, rfl, hnames, hx, hq.of_alike ht, ?_, ?_, hR⟩, h.inside⟩
  · have := hdir [] List.nil_prefix
    rw [List.append_nil] at this
    rw [this, hQ]
  · intro init hinit
    rw [hsame init hinit, hdir init hinit]
    exact hpass init hinit

/-- Where there is a directory or nothing, the whole path can be taken for a way
to make. -/
theorem spelled (h : Aimed sys R t path D) (hD : t.lookup D = none ∨ t.isDir D = true) :
    ∃ q Q names, names ≠ [] ∧ path = Path.under q names ∧ D = Q ++ names ∧
      (∀ y ∈ names, IsName y) ∧ sys.Anchored R t q Q ∧ t.isDir Q = true ∧ Passable t Q names ∧
      way Q names ⊆ R := by
  obtain ⟨q, Q, names, x, rfl, rfl, hnames, hx, hq, hQ, hpass, hR⟩ := h.entry
  refine ⟨q, Q, names ++ [x], by simp, (Path.under_concat q names x).symm, by simp, ?_, hq, hQ,
    fun init hinit => ?_, ?_⟩
  · intro y hy
    rcases List.mem_append.mp hy with hy | hy
    · exact hnames y hy
    · rwa [List.mem_singleton.mp hy]
  · rcases List.prefix_concat_iff.mp hinit with rfl | hinit
    · rwa [← List.append_assoc]
    · exact hpass init hinit
  · rintro l ⟨init, hne, hinit, rfl⟩
    rcases List.prefix_concat_iff.mp hinit with rfl | hinit
    · exact h.inside _ (by simp)
    · exact hR ⟨init, hne, hinit, rfl⟩

end Aimed

theorem Cleared.of_missing {t : FileTree β} {D : Loc} (hnone : t.lookup D = none) :
    Cleared {l | D <+: l} t t := by
  refine (Cleared.refl t).congr fun l n hn => ⟨fun h => h.elim, ?_⟩
  rintro ⟨rel, rfl⟩
  by_cases hrel : rel = []
  · rw [hrel, List.append_nil, hnone] at hn
    cases hn
  · rw [FileTree.lookup_below_none (by simp [hnone]) hrel] at hn
    cases hn

/-- An entry of nothing does not exist. -/
theorem lexists_of_missing {t : FileTree β} {path : Path} {x : String} (hx : IsName x)
    (hpath : path ≠ [] ∧ path ≠ [""]) (hlook : sys.look t path = none) :
    sys.lexists t (Path.join path [x]) = false := by
  rw [lexists]
  cases hfind : sys.find t false (Path.join path [x]) with
  | found L n =>
    obtain ⟨P, a, hdir⟩ := (resolve_parent hx hpath.2 fun e he => by
      change sys.find t false (Path.join path [x]) = _ at he
      rw [hfind] at he
      cases he).resolve_left hpath.1
    have hsome : sys.look t path = some (.dir a) := look_of_find hdir
    rw [hlook] at hsome
    cases hsome
  | free L slash => rfl
  | failed e => rfl

/-- The destination is deleted, if its directory is there. -/
theorem delete_destination {w : World β} (hw : Calm w) {path : Path} {D : Loc}
    (h : Aimed sys R w.tree path D)
    (hdirect : sys.islink w.tree path = true → sys.isdir w.tree path = false)
    (hdepth : ∀ rel, w.tree.subtree D rel = some (.dir, none) → rel.length < sys.recursionLimit) :
    ∃ w', deletePath sys path w = .ok () w' ∧ Calm w' ∧ Cleared {l | D <+: l} w.tree w'.tree := by
  by_cases hparent : w.tree.isDir D.dropLast = true
  · exact deletePath_of_calm hw h.anchored h.inside h.isName h.ne_nil hparent
      (fun rel hdir => hdepth rel (FileTree.content_eq_dir.mpr hdir)) hdirect
  · obtain ⟨q, Q, names, x, rfl, rfl, hnames, hx, hq, hQ, hpass, -⟩ := h.entry
    rw [List.dropLast_concat] at hparent
    have hmissing := (hpass names (List.prefix_refl _)).resolve_right hparent
    have hne : names ≠ [] := by
      rintro rfl
      rw [List.append_nil] at hparent
      exact hparent hQ
    have hlook := look_under_missing hq.reaches hQ hnames hpass hmissing
    refine ⟨w, ?_, hw, Cleared.of_missing ?_⟩
    · rw [deletePath, SetConfigs.tree_bind,
        lexists_of_missing hx (Path.under_ne_empty hne hnames) hlook, if_pos rfl]
      rfl
    · exact FileTree.lookup_below_none (by simp [hmissing]) (List.cons_ne_nil _ _)

/-- The directories on the way to the destination are made. -/
theorem make_parents {w : World β} (hw : Calm w) {path : Path} {D : Loc}
    (h : Aimed sys R w.tree path D) :
    ∃ w', createParentDirs sys path w = .ok () w' ∧ Calm w' ∧ AlikeOff R w.tree w'.tree ∧
      Site sys R w'.tree path D ∧
      ∀ l, w'.tree.lookup l = w.tree.lookup l ∨
        w.tree.lookup l = none ∧ l <+: D ∧ w'.tree.isDir l = true := by
  obtain ⟨q, Q, names, x, rfl, rfl, hnames, hx, hq, hQ, hpass, hR⟩ := h.entry
  obtain ⟨w', hrun, hw', hgrown⟩ := createParentDirs_of_calm (x := x) hw hq hQ hR hnames hpass
  have halike := hgrown.alikeOff hR
  refine ⟨w', hrun, hw', halike, ?_, fun l => (hgrown.cases l).imp_right ?_⟩
  · exact ⟨⟨_, x, _, rfl, rfl, hx, (hq.under hnames).of_alike halike, hgrown.isDir hQ hpass⟩, h.inside⟩
  · rintro ⟨hnone, ⟨init, -, ⟨rest, rfl⟩, rfl⟩, hdir⟩
    exact ⟨hnone, ⟨rest ++ [x], by simp⟩, hdir⟩

/-! ## Slashes at the end -/

namespace Slashed

variable {p path : Path}

theorem rdropWhile_append (hname : IsName (Path.basename p)) (k : ℕ) :
    (p ++ List.replicate k "").rdropWhile (· = "") = p := by
  induction k with
  | zero => simpa using rdropWhile_of_name hname
  | succ k ih =>
    rw [List.replicate_succ', ← List.append_assoc, List.rdropWhile_concat_pos _ _ _ (by simp), ih]

theorem rdropWhile (h : Slashed p path) (hname : IsName (Path.basename p)) :
    path.rdropWhile (· = "") = p := by
  obtain ⟨k, rfl⟩ := h
  exact rdropWhile_append hname (k + 1)

theorem ne_empty (hname : IsName (Path.basename p)) : p ≠ [] ∧ p ≠ [""] := by
  constructor <;> rintro rfl <;> exact absurd rfl hname.1

theorem not_isName (h : Slashed p path) : ¬ IsName (Path.basename path) := by
  obtain ⟨k, rfl⟩ := h
  rw [List.replicate_succ', ← List.append_assoc, Path.basename, List.getLastD_concat]
  exact fun hname => hname.1 rfl

theorem dirname (h : Slashed p path) (hname : IsName (Path.basename p)) : Path.dirname path = p := by
  obtain ⟨k, rfl⟩ := h
  obtain ⟨init, x, rfl⟩ := (List.eq_nil_or_concat' p).resolve_left (ne_empty hname).1
  have hx : IsName x := by simpa [Path.basename] using hname
  rw [List.replicate_succ', ← List.append_assoc, Path.dirname, List.dropLast_concat,
    if_neg (by simp), if_neg (by simp [hx.1]), rdropWhile_append hname]

/-- The path leads to what it leads to without the slashes, if that is a directory. -/
theorem find_iff (h : Slashed p path) (hname : IsName (Path.basename p)) {t : FileTree β}
    {follow : Bool} {L : Loc} {n : Node β} :
    sys.find t follow path = .found L n ↔ sys.find t true p = .found L n ∧ n.isDir = true := by
  obtain ⟨k, rfl⟩ := h
  exact resolve_slashes (ne_empty hname).1 (ne_empty hname).2 k

end Slashed

section Slash

variable {p path : Path} {D : Loc}

/-- A directory that is spelled with a slash is deleted like any other. -/
theorem delete_slashed {w : World β} (hw : Calm w) (hs : Slashed p path)
    (h : Aimed sys R w.tree p D) (hD : w.tree.lookup D = none ∨ w.tree.isDir D = true)
    (hdepth : ∀ rel, w.tree.subtree D rel = some (.dir, none) → rel.length < sys.recursionLimit) :
    ∃ w', deletePath sys path w = .ok () w' ∧ Calm w' ∧ Cleared {l | D <+: l} w.tree w'.tree := by
  have hname := h.isName
  rcases hD with hnone | hdir
  · obtain ⟨q, Q, names, -, hp, rfl, hnames, hq, hQ, hpass, -⟩ := h.spelled (Or.inl hnone)
    have hlook := look_under_missing hq.reaches hQ hnames hpass hnone
    have hexists : sys.lexists w.tree path = false := by
      rw [lexists]
      cases hfind : sys.find w.tree false path with
      | found L n =>
        have hp' := look_of_find ((hs.find_iff hname).mp hfind).1
        rw [hp, hlook] at hp'
        cases hp'
      | free L slash => rfl
      | failed e => rfl
    exact ⟨w, by rw [deletePath, SetConfigs.tree_bind, hexists, if_pos rfl]; rfl, hw,
      Cleared.of_missing hnone⟩
  · obtain ⟨a, ha⟩ := FileTree.isDir_iff.mp hdir
    have hfind : ∀ follow, sys.find w.tree follow path = .found D (.dir a) := fun follow =>
      (hs.find_iff hname).mpr ⟨find_of_reaches h.anchored.reaches ha fun _ => rfl, rfl⟩
    obtain ⟨w', hrun, hw', hc⟩ := rmtree_of_calm hw h.anchored h.inside hname h.ne_nil ha
      fun rel hrel => hdepth rel (FileTree.content_eq_dir.mpr hrel)
    have hrmdir : sys.rmdir path = sys.rmdir p := by
      rw [rmdir, rmdir, hs.rdropWhile hname, rdropWhile_of_name hname]
    refine ⟨w', ?_, hw', hc⟩
    rw [deletePath, SetConfigs.tree_bind,
      if_neg (by simp [lexists, hfind, Found.node]),
      if_pos (isdir_iff.mpr ⟨D, a, hfind true⟩), ← hrun, rmtree, rmtree, SetConfigs.tree_bind,
      SetConfigs.tree_bind, hfind, find_nofollow h.anchored.reaches ha, hrmdir]

/-- The directory itself is made, too, and the path goes on leading to it. -/
theorem make_slashed {w : World β} (hw : Calm w) (hs : Slashed p path)
    (h : Aimed sys R w.tree p D) (hD : w.tree.lookup D = none ∨ w.tree.isDir D = true) :
    ∃ w', createParentDirs sys path w = .ok () w' ∧ Calm w' ∧ AlikeOff R w.tree w'.tree ∧
      w'.tree.isDir D = true ∧ sys.Anchored (R \ {l | l <+: D}) w'.tree path D ∧
      ∀ l, w'.tree.lookup l = w.tree.lookup l ∨
        w.tree.lookup l = none ∧ l <+: D ∧ w'.tree.isDir l = true := by
  have hname := h.isName
  obtain ⟨q, Q, names, hne, rfl, rfl, hnames, hq, hQ, hpass, hR⟩ := h.spelled hD
  obtain ⟨w', hrun, hw', hgrown⟩ := createParentDirs_of_calm (x := "") hw hq hQ hR hnames hpass
  have halike := hgrown.alikeOff hR
  have hdir := hgrown.isDir hQ hpass
  refine ⟨w', ?_, hw', halike, hdir, fun t' ht' => ?_, fun l => (hgrown.cases l).imp_right ?_⟩
  · rw [← hrun, createParentDirs, createParentDirs, hs.dirname hname, dirname_under hne hnames]
  · have hD' : ∃ a, t'.lookup (Q ++ names) = some (.dir a) := by
      have hkind := ht' (Q ++ names) fun hmem => hmem.2 (List.prefix_refl _)
      obtain ⟨a, ha⟩ := FileTree.isDir_iff.mp hdir
      rw [ha] at hkind
      cases hn : t'.lookup (Q ++ names) with
      | none =>
        rw [hn] at hkind
        cases hkind
      | some n =>
        rw [hn] at hkind
        cases n with
        | dir b => exact ⟨b, rfl⟩
        | file c b => cases hkind
        | link target => cases hkind
    obtain ⟨a, ha⟩ := hD'
    have hreach : sys.Reaches t' (Path.under q names) (Q ++ names) :=
      (hq.under hnames) t' (halike.trans (ht'.mono Set.sdiff_subset))
    constructor
    · intro follow n hn _
      rw [ha] at hn
      cases hn
      exact (hs.find_iff hname).mpr ⟨find_of_reaches hreach ha fun _ => rfl, rfl⟩
    · intro follow hnone
      rw [ha] at hnone
      cases hnone
  · rintro ⟨hnone, ⟨init, -, ⟨rest, rfl⟩, rfl⟩, hdir⟩
    exact ⟨hnone, ⟨rest, by simp⟩, hdir⟩

end Slash

/-! ## The copy -/

theorem nil_of_append_above {D rel : Loc} (h : D ++ rel <+: D) : rel = [] := by
  have hlen := h.length_le
  rw [List.length_append] at hlen
  exact List.length_eq_zero_iff.mp (by omega)

theorem not_prefix_of_above {l D : Loc} (hl : l <+: D) (hne : l ≠ D) : ¬ D <+: l :=
  fun h => hne (hl.eq_of_length (Nat.le_antisymm hl.length_le h.length_le))

/-- Directories have been made on the way to `D`, and nothing else has changed. -/
def Led (D : Loc) (t t' : FileTree β) : Prop :=
  ∀ l, t'.lookup l = t.lookup l ∨ t.lookup l = none ∧ l <+: D ∧ t'.isDir l = true

namespace Led

variable {D : Loc} {t t' : FileTree β}

theorem subtree_eq (h : Led D t t') {S : Loc} (hapart : Apart S D) : t'.subtree S = t.subtree S := by
  funext rel
  rcases h (S ++ rel) with heq | ⟨-, hpre, -⟩
  · exact FileTree.subtree_congr heq
  · exact absurd ((List.prefix_append S rel).trans hpre) hapart.1

theorem subtree_cases (h : Led D t t') (rel : Loc) :
    t'.subtree D rel = t.subtree D rel ∨ rel = [] ∧ t'.subtree D rel = some (.dir, none) := by
  rcases h (D ++ rel) with heq | ⟨-, hpre, hdir⟩
  · exact Or.inl (FileTree.subtree_congr heq)
  · obtain rfl := nil_of_append_above hpre
    rw [List.append_nil] at hdir
    exact Or.inr ⟨rfl, FileTree.subtree_root_dir.mpr hdir⟩

/-- What is laid after that has been copied. -/
theorem copied (h : Led D t t') {src : Loc → Option (Kind × Option β)} (hroot : src [] ≠ none)
    {t'' : FileTree β} (hlaid : Laid G X src D t' t'') : Copied G X true src D t t'' := by
  have hsame : ∀ rel, src rel = none → t'.lookup (D ++ rel) = t.lookup (D ++ rel) := by
    intro rel hnone
    rcases h (D ++ rel) with heq | ⟨-, hpre, -⟩
    · exact heq
    · exact absurd (nil_of_append_above hpre ▸ hnone) hroot
  refine ⟨hlaid.overlaid.congr fun rel hnone => ?_, fun l hl => ?_⟩
  · rw [if_pos rfl, FileTree.subtree_congr (hsame rel hnone)]
  · rcases h l with heq | ⟨hnone, hpre, hdir⟩
    · exact Or.inl ((Dabbed.of_eq heq).trans (hlaid.outside l hl))
    · refine Or.inr ⟨hnone, hpre, ?_⟩
      rwa [← FileTree.content_eq_dir, hlaid.content_eq hl, FileTree.content_eq_dir]

end Led

section Lay

variable {path source : Path} {S D : Loc}

/-- The directories on the way are made, and the source is laid over what is at the
destination. -/
theorem lay_of_calm (hgrants : self.preserveProperties = false → Grants sys self G)
    {w : World β} (hw : Calm w) (hsource : sys.Anchored R w.tree source S)
    (hlands : Lands sys R w.tree S path D) (hapart : Apart S D) (hS : w.tree.lookup S ≠ none)
    {P : FileTree β → Prop} (hfits : Fits sys self.preserveProperties R X P w.tree S path D)
    (hknown : ∀ t', Led D w.tree t' → P t')
    (hshallow : ∀ rel, w.tree.subtree S rel ≠ none → rel.length < sys.recursionLimit) :
    ∃ w', (do
        createParentDirs sys path
        self.mergeDirectories sys sys.recursionLimit source path : Os β Unit) w = .ok () w' ∧
      Calm w' ∧ AlikeOff R w.tree w'.tree ∧
      Copied G X true (w.tree.subtree S) D w.tree w'.tree := by
  have hroot : w.tree.subtree S [] ≠ none := FileTree.subtree_root_ne_none.mpr hS
  -- either way, what is left is a source that has been laid after the way was made
  have hdone : ∀ {w₁ w' : World β}, createParentDirs sys path w = .ok () w₁ →
      AlikeOff R w.tree w₁.tree → Led D w.tree w₁.tree → (∀ l, D <+: l → l ∈ R) →
      self.mergeDirectories sys sys.recursionLimit source path w₁ = .ok () w' → Calm w' →
      Laid G X (w₁.tree.subtree S) D w₁.tree w'.tree →
      ∃ w', (do
          createParentDirs sys path
          self.mergeDirectories sys sys.recursionLimit source path : Os β Unit) w = .ok () w' ∧
        Calm w' ∧ AlikeOff R w.tree w'.tree ∧
        Copied G X true (w.tree.subtree S) D w.tree w'.tree := by
    intro w₁ w' hmake halike hled hR hmerge hw' hlaid
    refine ⟨w', by rw [bind_of_ok hmake, hmerge], hw', ?_, ?_⟩
    · exact halike.trans (AlikeOff.of_content fun l hl =>
        hlaid.content_eq fun hpre => hl (hR l hpre))
    · rw [hled.subtree_eq hapart] at hlaid
      exact hled.copied hroot hlaid
  rcases hlands with haimed | ⟨p, hs, haimed, hdir, hD⟩
  · obtain ⟨w₁, hmake, hw₁, halike, hsite, hled⟩ := make_parents hw haimed
    have hled : Led D w.tree w₁.tree := hled
    have hS₁ := hled.subtree_eq hapart
    have hlayable : Layable sys self.preserveProperties R X P w₁.tree source S path D :=
      ⟨hfits.of_same subset_rfl halike (hknown _ hled) hS₁ hled.subtree_cases,
        hsource.of_alike halike, hsite, hapart⟩
    obtain ⟨w', hmerge, hw', hlaid⟩ := mergeDirectories_of_calm hgrants sys.recursionLimit hw₁
      hlayable (FileTree.subtree_root_ne_none.mp (hS₁ ▸ hroot)) (hS₁ ▸ hshallow)
    exact hdone hmake halike hled haimed.inside hmerge hw' hlaid
  · obtain ⟨w₁, hmake, hw₁, halike, hdir₁, hanchored, hled⟩ := make_slashed hw hs haimed hD
    have hled : Led D w.tree w₁.tree := hled
    have hS₁ := hled.subtree_eq hapart
    have hsub : R \ {l | l <+: D} ⊆ R := Set.sdiff_subset
    have hprepared : Prepared sys self.preserveProperties (R \ {l | l <+: D}) X P w₁.tree source S
        path D := by
      refine ⟨hfits.of_same hsub halike (hknown _ hled) hS₁ hled.subtree_cases,
        (hsource.of_alike halike).mono hsub, hanchored, hdir₁, fun x l hl => ⟨haimed.inside l ((List.prefix_append D [x]).trans hl), ?_⟩,
        hapart⟩
      intro hpre
      have := (hl.trans hpre).length_le
      rw [List.length_append, List.length_singleton] at this
      omega
    obtain ⟨n, hn⟩ : ∃ n, sys.recursionLimit = n + 1 :=
      ⟨sys.recursionLimit - 1, by have := hfits.limit; omega⟩
    obtain ⟨a, ha⟩ : ∃ a, w₁.tree.lookup S = some (.dir a) := by
      rwa [← FileTree.isDir_iff, ← FileTree.subtree_root_dir, hS₁, FileTree.subtree_root_dir]
    obtain ⟨w', hrun, hw', hlaid⟩ := merge_prepared_of_calm hgrants
      (fun hw h hS hfuel => mergeDirectories_of_calm hgrants n hw h hS hfuel) hw₁ hprepared ha
      (by rw [hS₁, ← hn]; exact hshallow)
    refine hdone hmake halike hled haimed.inside ?_ hw' hlaid
    obtain ⟨b, hb⟩ := FileTree.isDir_iff.mp hdir₁
    have hisdir : sys.isdir w₁.tree path = true :=
      isdir_iff.mpr ⟨D, b, find_of_reaches hanchored.reaches hb fun _ => rfl⟩
    have hskip : when (sys.lexists w₁.tree path ∧ sys.isdir w₁.tree path = false)
        (deletePath sys path) w₁ = .ok () w₁ := by
      rw [when, if_neg (by simp [hisdir])]
      rfl
    have hskip' : when (sys.isdir w₁.tree path = false) (sys.makedirs path false) w₁ = .ok () w₁ := by
      rw [when, if_neg (by simp [hisdir])]
      rfl
    rw [hn, mergeDirectories, SetConfigs.tree_bind,
      if_pos (isdir_iff.mpr ⟨S, a, find_of_reaches hprepared.source.reaches ha fun _ => rfl⟩),
      bind_of_ok hskip, SetConfigs.tree_bind, bind_of_ok hskip']
    exact hrun

end Lay

/-- What is at the destination has gone, unless the entry merges. -/
structure Vacated (merge : Bool) (D : Loc) (t t' : FileTree β) : Prop where
  outside : ∀ l, ¬ D <+: l → t'.lookup l = t.lookup l
  inside : ∀ rel, t'.lookup (D ++ rel) = if merge then t.lookup (D ++ rel) else none

namespace Vacated

variable {merge preserve : Bool} {t t' : FileTree β} {source path : Path} {S D : Loc}

theorem source_eq (h : Vacated merge D t t') (hapart : Apart S D) : t'.subtree S = t.subtree S :=
  funext fun rel => FileTree.subtree_congr (h.outside _ (hapart.not_prefix_append rel))

theorem subtree_eq (h : Vacated merge D t t') (rel : Loc) :
    t'.subtree D rel = if merge then t.subtree D rel else none := by
  rw [FileTree.subtree, FileTree.content, h.inside]
  split <;> rfl

theorem alikeOff (h : Vacated merge D t t') (hR : ∀ l, D <+: l → l ∈ R) : AlikeOff R t t' :=
  fun l hl => by rw [h.outside l fun hpre => hl (hR l hpre)]

theorem lands (h : Vacated merge D t t') (hapart : Apart S D) (halike : AlikeOff R t t')
    (hlands : Lands sys R t S path D) : Lands sys R t' S path D := by
  have hway : ∀ l, l <+: D → l ≠ D → t'.lookup l = t.lookup l :=
    fun l hl hne => h.outside l (not_prefix_of_above hl hne)
  rcases hlands with haimed | ⟨p, hs, haimed, hdir, hthere⟩
  · exact Or.inl (haimed.of_alike halike hway)
  · refine Or.inr ⟨p, hs, haimed.of_alike halike hway, ?_, ?_⟩
    · rwa [← FileTree.subtree_root_dir, h.source_eq hapart, FileTree.subtree_root_dir]
    · have hroot := h.inside []
      rw [List.append_nil] at hroot
      cases merge with
      | false => exact Or.inl hroot
      | true =>
        rw [if_pos rfl] at hroot
        rwa [FileTree.isDir_iff, hroot, ← FileTree.isDir_iff]

/-- What is left is from before. -/
theorem held (h : Vacated merge D t t') (src : Loc → Option (Kind × Option β)) :
    Held merge src (t.subtree D) D t' := by
  intro rel _
  rw [h.subtree_eq]
  cases merge with
  | false => exact Or.inl rfl
  | true => exact Or.inr (Or.inr ⟨rfl, rfl⟩)

/-- The source fits what is left. -/
theorem fits (h : Vacated merge D t t') (halike : AlikeOff R t t')
    (hcopyable : Copyable sys preserve merge R X t source S path D) :
    Fits sys preserve R X (Held merge (t.subtree S) (t.subtree D) D) t' S path D := by
  have hS := h.source_eq hcopyable.apart
  constructor
  · exact hS ▸ hcopyable.plain
  · intro rel target hrel
    rw [h.subtree_eq]
    split
    · rename_i hmerge
      exact hcopyable.clear hmerge rel target (hS ▸ hrel)
    · exact (Option.some_ne_none _).symm
  · intro rel hrel
    rw [h.subtree_eq] at hrel
    split at hrel
    · exact hcopyable.depth rel hrel
    · cases hrel
  · exact h.held _
  · exact fun t₁ t₂ hheld htoward => hheld.toward (hS ▸ htoward)
  · exact fun hpreserve rel hrel t'' ht'' hheld heq => hcopyable.stray hpreserve rel (hS ▸ hrel) t''
      (halike.trans ht'') hheld (heq.trans (congrFun hS rel))
  · exact hcopyable.shallow [] (FileTree.subtree_root_ne_none.mpr hcopyable.there)

end Vacated

/-- What is at the destination goes, unless the entry merges. -/
theorem clear_unless_merge {w : World β} (hw : Calm w) {path : Path} {S D : Loc}
    (h : Lands sys R w.tree S path D)
    (hdirect : self.merge = false → sys.islink w.tree path = true → sys.isdir w.tree path = false)
    (hdepth : ∀ rel, w.tree.subtree D rel = some (.dir, none) → rel.length < sys.recursionLimit) :
    ∃ w', when (self.merge = false) (deletePath sys path) w = .ok () w' ∧ Calm w' ∧
      Vacated self.merge D w.tree w'.tree := by
  cases hmerge : self.merge with
  | true =>
    rw [when, if_neg Bool.true_eq_false_eq_False]
    exact ⟨w, rfl, hw, fun _ _ => rfl, fun _ => rfl⟩
  | false =>
    have hdelete : ∃ w', deletePath sys path w = .ok () w' ∧ Calm w' ∧
        Cleared {l | D <+: l} w.tree w'.tree := by
      rcases h with haimed | ⟨p, hs, haimed, -, hD⟩
      · exact delete_destination hw haimed (hdirect hmerge) hdepth
      · exact delete_slashed hw hs haimed hD hdepth
    obtain ⟨w', hrun, hw', hc⟩ := hdelete
    exact ⟨w', hrun, hw', hc.outside, fun rel => hc.inside _ (List.prefix_append D rel)⟩

/-- One iteration of `copy` on a source that can be copied. -/
theorem copySource_of_calm (hgrants : self.preserveProperties = false → Grants sys self G)
    {dest source : Path} {S D : Loc} (hself : self.dest = some dest) {w : World β} (hw : Calm w)
    (h : Copyable sys self.preserveProperties self.merge R X w.tree source S
      (target dest source) D) :
    ∃ w', self.copySource sys source w = .ok () w' ∧ Calm w' ∧ AlikeOff R w.tree w'.tree ∧
      Copied G X self.merge (w.tree.subtree S) D w.tree w'.tree := by
  obtain ⟨w₁, hclear, hw₁, hvacated⟩ := clear_unless_merge hw h.lands h.direct h.depth
  have hR : ∀ l, D <+: l → l ∈ R := by
    rcases h.lands with haimed | ⟨p, -, haimed, -⟩
    · exact haimed.inside
    · exact haimed.inside
  have halike := hvacated.alikeOff hR
  have hS := hvacated.source_eq h.apart
  have hthere : w₁.tree.lookup S ≠ none := by
    rw [← FileTree.subtree_root_ne_none, hS, FileTree.subtree_root_ne_none]
    exact h.there
  obtain ⟨w', hrun, hw', halike', hcopied⟩ := lay_of_calm hgrants hw₁ (h.source.of_alike halike)
    (hvacated.lands h.apart halike h.lands) h.apart hthere (hvacated.fits halike h)
    (fun t' hled rel hrel => by
      rw [(hled.subtree_cases rel).resolve_right fun hroot => hrel hroot.1]
      exact hvacated.held _ rel hrel) (hS ▸ h.shallow)
  rw [hS] at hcopied
  refine ⟨w', ?_, hw', halike.trans halike', ⟨?_, ?_⟩⟩
  · rw [copySource, hself]
    dsimp only
    rw [bind_of_ok hclear]
    exact hrun
  · exact hcopied.overlaid.congr fun rel _ => by rw [if_pos rfl, hvacated.subtree_eq]
  · intro l hl
    rcases hcopied.outside l hl with hdab | ⟨hnone, hpre, hdir⟩
    · exact Or.inl ((Dabbed.of_eq (hvacated.outside l hl)).trans hdab)
    · exact Or.inr ⟨by rwa [← hvacated.outside l hl], hpre, hdir⟩

namespace Copied

variable {src : Loc → Option (Kind × Option β)} {D : Loc} {t t' t'' : FileTree β} {merge : Bool}

/-- Elsewhere the contents are the old ones, and on the way there are directories. -/
theorem content_outside (h : Copied G X merge src D t t') (hroot : src [] ≠ none) {l : Loc}
    (hl : ¬ D <+: l) : t'.content l = if l <+: D then some (.dir, none) else t.content l := by
  obtain ⟨c, hc⟩ := Option.ne_none_iff_exists'.mp hroot
  have hthere : t'.content D = some c := by
    rw [← FileTree.subtree_nil]
    exact h.overlaid.there [] c hc
  split
  · rename_i hpre
    refine FileTree.content_above hpre (fun heq => hl ?_) (by simp [hthere])
    rw [heq]
  · rename_i hpre
    rcases h.outside l hl with hdab | ⟨-, hpre', -⟩
    · exact hdab.content_eq
    · exact absurd hpre' hpre

/-- What two copies leave is the same, if they laid the same over the same. -/
theorem sameContent {G' : Paint β} {X' : Set Loc} {t₁ t₂ : FileTree β}
    (h : Copied G X merge src D t₁ t') (h' : Copied G' X' merge src D t₂ t'')
    (hroot : src [] ≠ none) (hout : ∀ l, ¬ D <+: l → ¬ l <+: D → t₂.content l = t₁.content l)
    (hin : t''.subtree D = t'.subtree D) : SameContent t' t'' := by
  intro l
  by_cases hl : D <+: l
  · obtain ⟨rel, rfl⟩ := hl
    exact congrFun hin rel
  · rw [h.content_outside hroot hl, h'.content_outside hroot hl]
    split
    · rfl
    · rename_i hpre
      exact hout l hl hpre

/-- The source is as it was. -/
theorem source_eq (h : Copied G X merge src D t t') {S : Loc} (hapart : Apart S D) :
    t'.subtree S = t.subtree S := by
  funext rel
  rcases h.outside _ (hapart.not_prefix_append rel) with hdab | ⟨-, hpre, -⟩
  · exact hdab.content_eq
  · exact absurd ((List.prefix_append S rel).trans hpre) hapart.1

/-- A destination that is not below this one can be aimed at again. -/
theorem aimed (h : Copied G X merge src D t t') (hroot : src [] ≠ none)
    (halike : AlikeOff R t t') {path : Path} {D' : Loc}
    (hway : ∀ l, l <+: D' → l ≠ D' → ¬ D <+: l) (haimed : Aimed sys R t path D') :
    Aimed sys R t' path D' := by
  obtain ⟨q, Q, names, x, rfl, rfl, hnames, hx, hq, hQ, hpass, hR⟩ := haimed.entry
  have hoff : ∀ init, init <+: names → ¬ D <+: Q ++ init := by
    rintro init ⟨rest, rfl⟩
    refine hway _ ⟨rest ++ [x], by simp⟩ fun heq => ?_
    have := congrArg List.length heq
    simp at this
  have hdir : ∀ init, init <+: names → t.isDir (Q ++ init) = true →
      t'.isDir (Q ++ init) = true := by
    intro init hinit hdir
    rw [← FileTree.content_eq_dir] at hdir ⊢
    rw [h.content_outside hroot (hoff init hinit), hdir, ite_self]
  refine ⟨⟨q, Q, names, x, rfl, rfl, hnames, hx, hq.of_alike halike, ?_, fun init hinit => ?_, hR⟩,
    haimed.inside⟩
  · have := hdir [] List.nil_prefix
    rw [List.append_nil] at this
    exact this hQ
  · rcases hpass init hinit with hnone | hthere
    · rw [← FileTree.content_eq_none] at hnone
      rw [← FileTree.content_eq_none, ← FileTree.content_eq_dir,
        h.content_outside hroot (hoff init hinit), hnone]
      split
      · exact Or.inr rfl
      · exact Or.inl rfl
    · exact Or.inr (hdir init hinit hthere)

/-- Another source can be laid at the same destination. -/
theorem lands {S S' : Loc} (h : Copied G X merge (t.subtree S) D t t') (hapart : Apart S' D)
    (hroot : t.subtree S [] ≠ none) (halike : AlikeOff R t t') {path : Path}
    (hlands : Lands sys R t S path D) (hlands' : Lands sys R t S' path D) :
    Lands sys R t' S' path D := by
  have hway : ∀ l, l <+: D → l ≠ D → ¬ D <+: l := fun _ hl hne => not_prefix_of_above hl hne
  rcases hlands' with haimed | ⟨p, hs, haimed, hdir', -⟩
  · exact Or.inl (h.aimed hroot halike hway haimed)
  · refine Or.inr ⟨p, hs, h.aimed hroot halike hway haimed, ?_, Or.inr ?_⟩
    · rw [← FileTree.subtree_root_dir, h.source_eq hapart, FileTree.subtree_root_dir, hdir']
    · rcases hlands with haimed' | ⟨p', -, -, hdir, -⟩
      · exact absurd haimed'.isName (hs.not_isName)
      · rw [← FileTree.subtree_root_dir] at hdir ⊢
        exact h.overlaid.there [] _ hdir

end Copied

/-! ## Plain paths -/

/-- The locations on the way to a destination, and those at and below it. -/
def around (D : Loc) : Set Loc := {l | l ≠ [] ∧ (l <+: D ∨ D <+: l)}

/-- The path of some names. -/
theorem under_root {names : List String} (hne : names ≠ []) (hnames : ∀ x ∈ names, IsName x) :
    Path.under ["", ""] names = "" :: names := by
  obtain ⟨x, names, rfl⟩ := List.exists_cons_of_ne_nil hne
  rw [Path.under_cons_eq hnames]
  rfl

/-- A destination that is spelled from the root. -/
theorem Aimed.of_names {t : FileTree β} {names : List String} {x : String}
    (hnames : ∀ y ∈ names ++ [x], IsName y) (hpass : Passable t [] names) :
    Aimed sys (around (names ++ [x])) t ("" :: (names ++ [x])) (names ++ [x]) := by
  obtain ⟨a, ha⟩ := t.root_dir
  have hroot : sys.Anchored (around (names ++ [x])) t ["", ""] [] :=
    anchored_of_dir rfl (by simp [Down]) (fun h => h.1 rfl) ha
  refine ⟨⟨["", ""], [], names, x, ?_, rfl, fun y hy => hnames y (List.mem_append_left _ hy),
    hnames x (by simp), hroot, t.root, hpass, ?_⟩, fun l hl => ⟨?_, Or.inr hl⟩⟩
  · rw [← Path.under_concat, under_root (by simp) hnames]
  · rintro l ⟨init, hne, hinit, rfl⟩
    exact ⟨hne, Or.inl (hinit.trans (List.prefix_append _ _))⟩
  · rintro rfl
    simpa using List.prefix_nil.mp hl

/-- A path without special characters matches what it leads to and nothing else. -/
theorem globbed_of_not_magic {t : FileTree β} {path : Path} {L : Loc} {n : Node β}
    (hmagic : hasMagic path = false) (hfind : sys.find t true path = .found L n) :
    sys.globbed t path ⊆ {L} := by
  rintro l ⟨dest, hdest, m, hm⟩
  obtain rfl := sys.glob_of_not_magic hmagic hdest
  rw [hfind] at hm
  cases hm
  rfl

/-- The paths that are written lead to what is written. -/
theorem Lands.find_under {t t' : FileTree β} {S D rel : Loc} {path : Path}
    (h : Lands sys R t S path D) (ht : AlikeOff R t t')
    (hplain : ∀ target, t.subtree S rel ≠ some (.link target, none)) (hrel : t.subtree S rel ≠ none)
    (heq : t'.subtree D rel = t.subtree S rel) :
    (∀ x ∈ rel, IsName x) ∧ ∃ n, sys.find t' true (Path.under path rel) = .found (D ++ rel) n := by
  have hnames : ∀ x ∈ rel, IsName x := by
    obtain ⟨n, hn⟩ := FileTree.subtree_ne_none.mp hrel
    exact fun x hx => FileTree.isName_of_lookup hn x (List.mem_append_right _ hx)
  obtain ⟨n, hn⟩ : ∃ n, t'.lookup (D ++ rel) = some n := by
    rw [← heq] at hrel
    exact FileTree.subtree_ne_none.mp hrel
  have hcontent : t.subtree S rel = some n.content := by
    rw [← heq]
    exact FileTree.content_of_lookup hn
  have hlink : n.isLink = false := by
    cases n with
    | file c a => rfl
    | dir a => rfl
    | link target => exact absurd hcontent (hplain target)
  refine ⟨hnames, n, ?_⟩
  rcases h with haimed | ⟨p, hs, haimed, hdir, -⟩
  · exact find_of_reaches ((haimed.anchored.under hnames) t' ht) hn fun _ => hlink
  · obtain ⟨a, ha⟩ : ∃ a, t'.lookup D = some (.dir a) := by
      by_cases hnil : rel = []
      · subst hnil
        rw [← FileTree.isDir_iff, ← FileTree.subtree_root_dir, heq, FileTree.subtree_root_dir, hdir]
      · exact FileTree.ancestor_dir hn hnil
    have hpath : ∀ follow, sys.find t' follow path = .found D (.dir a) := fun follow =>
      (hs.find_iff haimed.isName).mpr
        ⟨find_of_reaches (haimed.anchored t' ht) ha fun _ => rfl, rfl⟩
    by_cases hnil : rel = []
    · subst hnil
      rw [List.append_nil] at hn ⊢
      rw [ha] at hn
      cases hn
      exact hpath true
    · exact resolve_lookup (hpath true) hnil hn fun _ => hlink

end ConfigFile

end Kolla.SetConfigs
