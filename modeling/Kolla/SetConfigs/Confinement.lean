import Kolla.Lib.PlainTree
import Kolla.SetConfigs.Deleting

/-!
# What a copy can touch

In a tree without links, a `ConfigFile.copy` changes nothing but what is at
and below its destination, whatever it meets there, and whether it returns
or raises.  There is one lemma for each function, about the relation
`Confined`; owners and modes do not count.

Where the destination has a `..`, `os.makedirs` makes directories beside the
way to it, at the locations that the spelling has `Passed`.  The lemmas on
the functions that call it are about `Changes`, and `Confined` is what they
say of a path that is `Straight`.
-/

namespace Kolla.SetConfigs

open Kolla.Lib

variable {β α : Type}

/-! ## Paths without `..` -/

/-- The head of a path is on the way to it. -/
theorem abspath_dirname {path : Path} (h : Down path) (cwd : Loc) :
    Path.abspath cwd (Path.dirname path) <+: Path.abspath cwd path := by
  rcases List.eq_nil_or_concat' path with rfl | ⟨init, x, rfl⟩
  · exact List.prefix_refl cwd
  · rw [Path.dirname, List.dropLast_concat]
    by_cases hinit : init = []
    · subst hinit
      have hx : Path.isabs [x] = false := by simp [Path.isabs]
      rw [if_pos rfl, List.nil_append, Path.abspath, Path.abspath, hx]
      exact prefix_foldl_absStep h cwd
    · rw [if_neg hinit]
      by_cases hempty : init.all (· = "") = true
      · rw [if_pos hempty]
        have habs : Path.isabs (init ++ [""]) = true := by
          obtain ⟨y, init, rfl⟩ := List.exists_cons_of_ne_nil hinit
          obtain ⟨rfl, -⟩ : y = "" ∧ init.all (· = "") = true := by simpa using hempty
          cases init <;> rfl
        have hroot : Path.abspath cwd (init ++ [""]) = [] := by
          rw [Path.abspath, if_pos habs]
          exact foldl_absStep_empty (by simpa using hempty) []
        rw [hroot]
        exact List.nil_prefix
      · rw [if_neg hempty]
        obtain ⟨rest, hrest⟩ := List.rdropWhile_prefix (fun y => decide (y = "")) init
        have hne : init.rdropWhile (fun y => decide (y = "")) ≠ [] := by
          rw [Ne, List.rdropWhile_eq_nil_iff]
          simpa using hempty
        have hlast := List.rdropWhile_last_not (fun y => decide (y = "")) init hne
        generalize init.rdropWhile (fun y => decide (y = "")) = top at hrest hne hlast
        subst hrest
        have hne' : top ≠ [""] := by
          rintro rfl
          exact hlast rfl
        rw [List.append_assoc] at h ⊢
        rw [Path.abspath, Path.abspath, Path.isabs_append hne hne', List.foldl_append]
        exact prefix_foldl_absStep (fun hmem => h (List.mem_append_right _ hmem)) _

theorem down_dirname {path : Path} (h : Down path) : Down (Path.dirname path) := by
  have hdrop : Down path.dropLast := fun hmem => h (List.dropLast_subset _ hmem)
  rw [Path.dirname]
  split
  · simp [Down]
  · split
    · simpa [Down] using hdrop
    · exact fun hmem => hdrop ((List.rdropWhile_prefix _ _).subset hmem)

/-- The locations that the spelling of a path passes: those of the path, of
its head, of the head of that, and so on. -/
def Passed (cwd : Loc) (path : Path) (l : Loc) : Prop :=
  ∃ k, l = Path.abspath cwd (Path.dirname^[k] path)

theorem Passed.self (cwd : Loc) (path : Path) : Passed cwd path (Path.abspath cwd path) := ⟨0, rfl⟩

theorem Passed.of_dirname {cwd : Loc} {path : Path} {l : Loc} (h : Passed cwd (Path.dirname path) l) :
    Passed cwd path l := by
  obtain ⟨k, rfl⟩ := h
  exact ⟨k + 1, rfl⟩

/-- A path that only goes down passes the locations above its place. -/
theorem Passed.above {cwd : Loc} {path : Path} {l : Loc} (h : Passed cwd path l) (hdown : Down path) :
    l <+: Path.abspath cwd path := by
  obtain ⟨k, rfl⟩ := h
  induction k generalizing path with
  | zero => exact List.prefix_refl _
  | succ k ih => exact (ih (down_dirname hdown)).trans (abspath_dirname hdown cwd)

theorem dirname_join (path : Path) (x : String) :
    Path.dirname (Path.join path [x]) = path ∨
      Path.dirname (Path.join path [x]) = Path.dirname path := by
  rcases List.eq_nil_or_concat' path with rfl | ⟨init, y, rfl⟩
  · rw [Path.join_name]
    exact Or.inr rfl
  · rw [Path.join_name, List.getLastD_concat]
    split
    · refine Or.inr ?_
      rw [Path.dirname, Path.dirname, List.dropLast_concat, List.dropLast_concat]
    · rename_i hy
      refine Or.inl ?_
      have hall : ¬ (init ++ [y]).all (· = "") = true := by simp [hy]
      rw [Path.dirname, List.dropLast_concat, if_neg (by simp), if_neg hall,
        List.rdropWhile_concat_neg _ _ _ (by simpa using hy)]

theorem Passed.join {cwd : Loc} {path : Path} {x : String} {l : Loc}
    (h : Passed cwd (Path.join path [x]) l) :
    l = Path.abspath cwd (Path.join path [x]) ∨ Passed cwd path l := by
  obtain ⟨k, rfl⟩ := h
  cases k with
  | zero => exact Or.inl rfl
  | succ k =>
    refine Or.inr ?_
    rw [Function.iterate_succ_apply]
    rcases dirname_join path x with hhead | hhead
    · exact ⟨k, by rw [hhead]⟩
    · exact ⟨k + 1, by rw [hhead]; rfl⟩

theorem abspath_join {cwd : Loc} {path : Path} {x : String} (hx : IsName x) :
    Path.abspath cwd (Path.join path [x]) = Path.abspath cwd path ++ [x] :=
  @Path.abspath_under cwd path [x] (by simpa using hx)

/-- A joined component is one more step. -/
theorem abspath_join_step (cwd : Loc) (path : Path) (x : String) :
    Path.abspath cwd (Path.join path [x]) = Path.absStep (Path.abspath cwd path) x := by
  have hsingle : ∀ z : String, Path.abspath cwd [z] = Path.absStep cwd z := fun z => by
    simp [Path.abspath, Path.isabs]
  rcases List.eq_nil_or_concat' path with rfl | ⟨init, y, rfl⟩
  · rw [Path.join_name]
    exact hsingle x
  · have hstep : ∀ base : Loc, (init ++ [y] ++ [x]).foldl Path.absStep base
        = Path.absStep ((init ++ [y]).foldl Path.absStep base) x := fun base => by
      rw [List.foldl_append]
      rfl
    rw [Path.join_name, List.getLastD_concat]
    split
    · rename_i hy
      subst hy
      rw [List.dropLast_concat]
      by_cases hinit : init = []
      · subst hinit
        have hempty : Path.absStep cwd "" = cwd := if_pos (Or.inl rfl)
        rw [List.nil_append, List.nil_append, hsingle, hsingle, hempty]
      · rw [Path.abspath, Path.abspath, Path.isabs_slash hinit [x] (List.cons_ne_nil _ _),
          List.foldl_append, List.foldl_append]
        rfl
    · rename_i hy
      have hne : init ++ [y] ≠ [""] := fun h => hy (by
        have hlast := congrArg (fun path => path.getLastD "") h
        simpa using hlast)
      rw [Path.abspath, Path.abspath, Path.isabs_append (by simp) hne, hstep]

theorem prefix_absStep {x : String} (hx : x ≠ "..") (cur : Loc) : cur <+: Path.absStep cur x :=
  @prefix_foldl_absStep [x] (by simpa [Down, eq_comm] using hx) cur

theorem down_join {path : Path} {x : String} (h : Down path) (hx : IsName x) :
    Down (Path.join path [x]) := by
  have hdrop : Down path.dropLast := fun hmem => h (List.dropLast_subset _ hmem)
  rw [Path.join_name]
  split
  · simpa [Down, hx.2.2.symm] using hdrop
  · simpa [Down, hx.2.2.symm] using h

/-- An absolute path that passes only directories above its place, and no
`..` at the root. -/
structure Straight (path : Path) : Prop where
  isabs : path.isabs = true
  direct : Direct [] path
  grounded : Grounded [] path

theorem Straight.of_down {path : Path} (habs : path.isabs = true) (hdown : Down path) :
    Straight path := ⟨habs, hdown.direct [], hdown.grounded []⟩

/-- It leads straight to its place from any directory. -/
theorem Straight.direct_from {path : Path} (h : Straight path) (cwd : Loc) :
    Direct (if Path.isabs path then [] else cwd) path := by
  rw [if_pos h.isabs]
  exact h.direct

theorem Straight.abspath_eq {path : Path} (h : Straight path) (cwd : Loc) :
    Path.abspath cwd path = path.foldl Path.absStep [] := by
  rw [Path.abspath, if_pos h.isabs]

theorem Straight.join {path : Path} {x : String} (h : Straight path) (hx : IsName x) :
    Straight (Path.join path [x]) := by
  have habs := h.isabs
  have hnil : path ≠ [] := by
    rintro rfl
    cases habs
  have hempty : path ≠ [""] := by
    rintro rfl
    cases habs
  rw [Path.join_name]
  split
  · rename_i hlast
    obtain ⟨init, y, rfl⟩ := (List.eq_nil_or_concat' path).resolve_left hnil
    obtain rfl : y = "" := by simpa using hlast
    have hinit : init ≠ [] := by
      rintro rfl
      exact hempty rfl
    rw [List.dropLast_concat]
    refine ⟨?_, h.direct.of_slash.concat hx, h.grounded.of_slash.concat hx⟩
    rw [Path.isabs_slash hinit [x] (List.cons_ne_nil _ _)]
    exact habs
  · refine ⟨?_, h.direct.concat hx, h.grounded.concat hx⟩
    rw [Path.isabs_append hnil hempty]
    exact habs

/-- The head of an absolute path is one, and it is cut off from the path or
spells the root. -/
theorem dirname_of_isabs {path head : Path} (habs : head.isabs = true)
    (hhead : head <+: path ∨ head.all (· = "") = true) :
    (Path.dirname head).isabs = true ∧
      (Path.dirname head <+: path ∨ (Path.dirname head).all (· = "") = true) := by
  have hnil : head ≠ [] := by
    rintro rfl
    cases habs
  obtain ⟨init, z, rfl⟩ := (List.eq_nil_or_concat' head).resolve_left hnil
  have hinit : init ≠ [] := by
    rintro rfl
    simp [Path.isabs] at habs
  rw [Path.dirname, List.dropLast_concat, if_neg hinit]
  split
  · rename_i hempty
    rw [← Path.isabs_slash hinit [z] (List.cons_ne_nil _ _)]
    exact ⟨habs, Or.inr (by simpa using hempty)⟩
  · rename_i hempty
    have hne : init.rdropWhile (fun y => decide (y = "")) ≠ [] := by
      rw [Ne, List.rdropWhile_eq_nil_iff]
      simpa using hempty
    have hlast := List.rdropWhile_last_not (fun y => decide (y = "")) init hne
    obtain ⟨rest, hrest⟩ := List.rdropWhile_prefix (fun y => decide (y = "")) init
    generalize init.rdropWhile (fun y => decide (y = "")) = top at hrest hne hlast
    have hne' : top ≠ [""] := by
      rintro rfl
      exact hlast rfl
    rw [← hrest, List.append_assoc, Path.isabs_append hne hne'] at habs
    refine ⟨habs, Or.inl ((List.prefix_append top rest).trans (hrest ▸ ?_))⟩
    rcases hhead with hpre | hall
    · exact (List.prefix_append init [z]).trans hpre
    · rw [List.all_append, Bool.and_eq_true] at hall
      exact absurd hall.1 hempty

/-- So does one that leads straight to its place. -/
theorem Passed.above_straight {cwd : Loc} {path : Path} {l : Loc} (h : Passed cwd path l)
    (hpath : Straight path) : l <+: Path.abspath cwd path := by
  obtain ⟨k, rfl⟩ := h
  have hhead : (Path.dirname^[k] path).isabs = true ∧
      (Path.dirname^[k] path <+: path ∨ (Path.dirname^[k] path).all (· = "") = true) := by
    induction k with
    | zero => exact ⟨hpath.isabs, Or.inl (List.prefix_refl _)⟩
    | succ k ih =>
      rw [Function.iterate_succ_apply']
      exact dirname_of_isabs ih.1 ih.2
  rw [hpath.abspath_eq, Path.abspath, if_pos hhead.1]
  rcases hhead.2 with ⟨rest, hrest⟩ | hall
  · exact (hpath.direct _ rest hrest.symm).1
  · rw [foldl_absStep_empty hall]
    exact List.nil_prefix

/-- The slashes at the end of a path do not matter for its location. -/
theorem abspath_rdropWhile {cwd : Loc} {path : Path} (hne : path.rdropWhile (· = "") ≠ []) :
    Path.abspath cwd (path.rdropWhile (· = "")) = Path.abspath cwd path := by
  have hsplit := List.rdropWhile_append_rtakeWhile (p := fun y => decide (y = "")) (l := path)
  have hlast := List.rdropWhile_last_not (fun y => decide (y = "")) path hne
  have hrest : (path.rtakeWhile fun y => decide (y = "")).all (· = "") = true :=
    List.all_eq_true.mpr fun y hy => @List.mem_rtakeWhile_imp _ (fun y => decide (y = "")) _ _ hy
  have hne' : path.rdropWhile (fun y => decide (y = "")) ≠ [""] := by
    intro hsingle
    simp [hsingle] at hlast
  conv_rhs => rw [← hsplit]
  rw [Path.abspath, Path.abspath, Path.isabs_append hne hne', List.foldl_append,
    foldl_absStep_empty hrest]

/-- A program may change what is at and below the path, and make the
directories on the way to it and those that it is spelled with. -/
structure Allowed (within passed : Loc → Prop) (cwd : Loc) (path : Path) : Prop where
  below : ∀ l, Path.abspath cwd path <+: l → within l
  above : ∀ l, l <+: Path.abspath cwd path → within l ∨ passed l
  spelled : ∀ l, Passed cwd path l → within l ∨ passed l

namespace Allowed

variable {within passed : Loc → Prop} {cwd : Loc} {path : Path}

theorem changes (h : Allowed within passed cwd path) {t t' : FileTree β}
    (ht : Confined (Path.abspath cwd path) t t') : Changes within passed t t' :=
  Changes.mono ht h.below h.above

theorem join (h : Allowed within passed cwd path) {x : String} (hx : IsName x) :
    Allowed within passed cwd (Path.join path [x]) := by
  have hself : within (Path.abspath cwd (Path.join path [x])) := by
    rw [abspath_join hx]
    exact h.below _ (List.prefix_append _ _)
  refine ⟨fun l hl => ?_, fun l hl => ?_, fun l hl => ?_⟩
  · rw [abspath_join hx] at hl
    exact h.below l ((List.prefix_append _ _).trans hl)
  · rw [abspath_join hx, List.prefix_concat_iff, ← abspath_join hx] at hl
    rcases hl with rfl | hl
    · exact Or.inl hself
    · exact h.above l hl
  · rcases hl.join with rfl | hl
    · exact Or.inl hself
    · exact h.spelled l hl

theorem of_straight (hpath : Straight path) {top : Loc} (htop : top <+: Path.abspath cwd path) :
    Allowed (fun l => top <+: l) (fun l => l <+: top) cwd path := by
  have habove : ∀ l, l <+: Path.abspath cwd path → top <+: l ∨ l <+: top :=
    fun l hl => (List.prefix_or_prefix_of_prefix hl htop).symm
  exact ⟨fun l hl => htop.trans hl, habove, fun l hl => habove l (hl.above_straight hpath)⟩

end Allowed

/-! ## The operations -/

instance : IsPreorder (FileTree β) SameContent where
  refl _ _ := rfl
  trans _ _ _ h h' l := (h' l).trans (h l)

theorem Confined.moves {top : Loc} {m : Os β α} (h : Moves (OnTree SameContent) m) :
    Moves (OnTree (Confined top)) m :=
  fun w => Confined.of_sameContent (h w)

theorem moves_readOnly {S : FileTree β → FileTree β → Prop} [IsPreorder _ S] {m : Os β α}
    (hm : ReadOnly m) : Moves (OnTree S) m := by
  intro w
  have h : w.tree = (exitState (m w)).tree := hm w
  rw [OnTree, ← h]
  exact refl_of S w.tree

namespace System

variable {sys : System β} {top : Loc} {path : Path}

theorem confined_remove (htop : top <+: Path.abspath sys.cwd path) :
    Moves (OnTree (Confined top)) (sys.remove path) := by
  refine moves_onNode fun t loc n a t' hfind h ht => ?_
  rw [unlinkAt] at h
  split at h
  · cases h
  · cases h
    obtain ⟨rfl, -⟩ := found_loc ht hfind
    exact Confined.erase htop ht

theorem confined_rmdirAt {loc : Loc} (htop : top <+: loc) {t t' : FileTree β} {n : Node β}
    {a : Unit} (h : rmdirAt t loc n = .ok (a, t')) : Confined top t t' := by
  rw [rmdirAt] at h
  split at h
  · cases h
  · split at h
    · cases h
    · cases h
      exact Confined.erase htop

theorem confined_rmdir (htop : top <+: Path.abspath sys.cwd path) :
    Moves (OnTree (Confined top)) (sys.rmdir path) := by
  refine moves_syscall fun t a t' h ht => ?_
  dsimp only at h
  split at h
  · cases h
  · split at h
    · cases h
    · cases hfind : sys.find t false (path.rdropWhile (· = "")) with
      | found loc n =>
        rw [hfind] at h
        obtain ⟨rfl, -⟩ := found_loc ht hfind
        have hne : path.rdropWhile (· = "") ≠ [] := by
          intro hnil
          rw [hnil] at hfind
          cases hfind
        rw [abspath_rdropWhile hne] at h
        exact confined_rmdirAt htop h ht
      | free loc slash =>
        rw [hfind] at h
        cases h
      | failed e =>
        rw [hfind] at h
        cases h

section Makedirs

variable {within passed : Loc → Prop}

theorem changes_mkdir
    (h : within (Path.abspath sys.cwd path) ∨ passed (Path.abspath sys.cwd path)) :
    Moves (OnTree (Changes within passed)) (sys.mkdir path) := by
  refine moves_syscall fun t a t' hmake ht => ?_
  cases hfind : sys.find t false path with
  | found loc n =>
    rw [hfind] at hmake
    cases hmake
  | free loc slash =>
    rw [hfind] at hmake
    cases hmake
    obtain ⟨rfl, -⟩ := free_loc ht hfind
    exact Changes.create_dir h ht
  | failed e =>
    rw [hfind] at hmake
    cases hmake

theorem changes_makedirsAux (n : ℕ) (existOk : Bool)
    (h : ∀ l, Passed sys.cwd path l → within l ∨ passed l) :
    Moves (OnTree (Changes within passed)) (sys.makedirsAux n path existOk) := by
  induction n generalizing path existOk with
  | zero => exact Moves.throw _
  | succ n ih =>
    -- the head passes what the path does, but for the path itself
    have hhead : ∀ l, Passed sys.cwd (if Path.basename path = "" then
        Path.dirname (Path.dirname path) else Path.dirname path) l → within l ∨ passed l := by
      intro l hl
      split at hl
      · exact h l hl.of_dirname.of_dirname
      · exact h l hl.of_dirname
    refine Moves.bind moves_tree fun t => ?_
    refine Moves.bind (moves_when fun _ => ?_) fun _ => ?_
    · refine Moves.tryCatch (ih _ hhead) fun e => ?_
      split
      · exact Moves.pure ()
      · exact Moves.throw _
    · refine Moves.ite (fun _ => Moves.pure ()) fun _ => ?_
      refine Moves.tryCatch (changes_mkdir (h _ (Passed.self _ _))) fun e => ?_
      split
      · refine Moves.bind moves_tree fun t => ?_
        exact Moves.ite (fun _ => Moves.pure ()) fun _ => Moves.throw _
      · exact Moves.throw _

theorem changes_makedirs (existOk : Bool)
    (h : ∀ l, Passed sys.cwd path l → within l ∨ passed l) :
    Moves (OnTree (Changes within passed)) (sys.makedirs path existOk) :=
  changes_makedirsAux _ _ h

theorem confined_makedirs (existOk : Bool) (hdown : Down path)
    (htop : Path.abspath sys.cwd path <+: top ∨ top <+: Path.abspath sys.cwd path) :
    Moves (OnTree (Confined top)) (sys.makedirs path existOk) := by
  refine changes_makedirs existOk fun l hl => ?_
  have habove := hl.above hdown
  rcases htop with htop | htop
  · exact Or.inr (habove.trans htop)
  · exact (List.prefix_or_prefix_of_prefix habove htop).symm

end Makedirs

theorem confined_openWrite (htop : top <+: Path.abspath sys.cwd path) :
    Moves (OnTree (Confined top)) (sys.openWrite path) := by
  refine moves_syscall fun t loc t' h ht => ?_
  cases hfind : sys.find t true path with
  | found l n =>
    rw [hfind] at h
    obtain ⟨rfl, hl⟩ := found_loc ht hfind
    cases n with
    | file c a =>
      cases h
      exact Confined.replace htop hl nofun rfl ht
    | dir a => cases h
    | link target => cases h
  | free l slash =>
    rw [hfind] at h
    dsimp only at h
    split at h
    · cases h
    · cases h
      obtain ⟨rfl, -⟩ := free_loc ht hfind
      exact Confined.create htop rfl ht
  | failed e =>
    rw [hfind] at h
    cases h

/-- What was opened is where the path says. -/
theorem openWrite_loc {w w' : World β} (ht : w.tree.LinkFree) {loc : Loc}
    (h : sys.openWrite path w = .ok loc w') : loc = Path.abspath sys.cwd path := by
  obtain ⟨hf, -⟩ := syscall_eq_ok h
  cases hfind : sys.find w.tree true path with
  | found l n =>
    rw [hfind] at hf
    cases n with
    | file c a =>
      rw [← (Prod.mk.inj (Except.ok.inj hf)).1]
      exact (found_loc ht hfind).1
    | dir a => cases hf
    | link target => cases hf
  | free l slash =>
    rw [hfind] at hf
    dsimp only at hf
    split at hf
    · cases hf
    · rw [← (Prod.mk.inj (Except.ok.inj hf)).1]
      exact (free_loc ht hfind).1
  | failed e =>
    rw [hfind] at hf
    cases hf

theorem confined_write {loc : Loc} (htop : top <+: loc) (content : β) :
    Moves (OnTree (Confined top)) (write loc content : Os β Unit) := by
  refine moves_syscall fun t a t' h ht => ?_
  cases hl : t.lookup loc with
  | none =>
    rw [hl] at h
    cases h
  | some n =>
    rw [hl] at h
    cases n with
    | file c a =>
      cases h
      exact Confined.replace htop hl nofun rfl ht
    | dir a => cases h
    | link target => cases h

theorem confined_writeFile (htop : top <+: Path.abspath sys.cwd path) (content : β) :
    Moves (OnTree (Confined top)) (sys.writeFile path content) := by
  intro w ht
  refine Moves.bind_at (R := OnTree (Confined top)) (confined_openWrite htop w)
    (fun loc w₁ hopen => ?_) ht
  exact confined_write (openWrite_loc ht hopen ▸ htop) content w₁

theorem confined_atNode {loc : Loc}
    {f : FileTree β → Loc → Node β → Except Errno (α × FileTree β)}
    (hf : ∀ t n a t', f t loc n = .ok (a, t') → Confined top t t') :
    Moves (OnTree (Confined top)) (atNode loc f) := by
  refine moves_syscall fun t a t' h => ?_
  cases hl : t.lookup loc with
  | none =>
    rw [hl] at h
    cases h
  | some n =>
    rw [hl] at h
    exact hf t n a t' h

theorem confined_removeContents (n : ℕ) {loc : Loc} (htop : top <+: loc) :
    Moves (OnTree (Confined top)) (sys.removeContents n loc) := by
  induction n generalizing loc with
  | zero => exact Moves.throw _
  | succ n ih =>
    refine Moves.bind (confined_atNode fun t n a t' h => ?_) fun names => Moves.forM fun x _ => ?_
    · cases h
      exact refl_of (Confined top) _
    · have hx : top <+: loc ++ [x] := htop.trans (List.prefix_append _ _)
      refine Moves.bind moves_tree fun t => Moves.ite (fun _ => ?_) fun _ => ?_
      · refine Moves.bind (ih hx) fun _ => confined_atNode fun t n a t' h => ?_
        exact confined_rmdirAt hx h
      · refine confined_atNode fun t n a t' h => ?_
        rw [unlinkAt] at h
        split at h
        · cases h
        · cases h
          exact Confined.erase hx

theorem confined_rmtree (htop : top <+: Path.abspath sys.cwd path) :
    Moves (OnTree (Confined top)) (sys.rmtree path) := by
  intro w ht
  have hloc : ∀ {loc : Loc} {n : Node β}, sys.find w.tree false path = .found loc n →
      loc = Path.abspath sys.cwd path := fun hfind => (found_loc ht hfind).1
  have hmoves : OnTree (Confined top) w (exitState (sys.rmtree path w)) := by
    rw [rmtree, tree_bind]
    cases hfind : sys.find w.tree false path with
    | found loc n =>
      cases n with
      | dir a =>
        have hcontents : top <+: loc := hloc hfind ▸ htop
        exact Moves.bind (confined_removeContents _ hcontents) (fun _ => confined_rmdir htop) w
      | file c a => exact Moves.throw (R := OnTree (Confined top)) _ w
      | link target => exact Moves.throw (R := OnTree (Confined top)) _ w
    | free loc slash => exact Moves.throw (R := OnTree (Confined top)) _ w
    | failed e => exact Moves.throw (R := OnTree (Confined top)) _ w
  exact hmoves ht

/-! ## Attributes -/

theorem sameContent_setAttr (f : Node β → Attr → Attr) :
    Moves (OnTree SameContent) (sys.setAttr path f) := by
  refine moves_onNode fun t loc n a t' hfind h l => ?_
  have hl := lookup_of_resolve hfind
  have hreplace : ∀ m : Node β, m.isDir = n.isDir → m.content = n.content →
      (t.replace loc m).content l = t.content l := by
    intro m hdir hm
    rw [FileTree.content, FileTree.content, FileTree.lookup_replace hl fun h => ?_]
    · split
      · rename_i heq
        rw [heq, hl, Option.map_some, Option.map_some, hm]
      · rfl
    · obtain ⟨b, hb⟩ := FileTree.isDir_iff.mp h
      rw [hl] at hb
      rw [hdir, Option.some.inj hb]
      rfl
  cases n with
  | file c b =>
    cases h
    exact hreplace _ rfl rfl
  | dir b =>
    cases h
    exact hreplace _ rfl rfl
  | link target => cases h

theorem sameContent_chmod (mode : ℤ) : Moves (OnTree SameContent) (sys.chmod path mode) :=
  Moves.ite (fun _ => sameContent_setAttr _) fun _ => Moves.throw _

theorem sameContent_copymode (src dst : Path) :
    Moves (OnTree SameContent) (sys.copymode src dst) :=
  Moves.bind (moves_readOnly (readOnly_stat _)) fun _ => sameContent_chmod _

theorem sameContent_setPerms (uid gid : ℕ) (perm : Option String) :
    Moves (OnTree SameContent) (sys.setPerms path uid gid perm) := by
  refine Moves.bind moves_tree fun t => moves_when fun _ => ?_
  refine Moves.bind (moves_logOSError (sameContent_setAttr _)) fun _ => ?_
  split
  · refine moves_when fun _ => ?_
    unfold setMode
    split
    · exact Moves.throw _
    · exact Moves.bind moves_tree fun _ => moves_logOSError (sameContent_chmod _)
  · exact Moves.pure ()

theorem sameContent_handleExclusion (exclude : List String) (uid gid : ℕ) (perm : Option String)
    (root : Path) (pathSuffix : String) :
    Moves (OnTree SameContent) (sys.handleExclusion exclude uid gid perm root pathSuffix) := by
  refine Moves.ite (fun _ => Moves.forM fun x _ => ?_) fun _ => sameContent_setPerms _ _ _
  split
  · exact Moves.throw _
  · exact moves_when fun _ => sameContent_setPerms _ _ _

theorem readOnly_getpwnam (name : String) : ReadOnly (sys.getpwnam name) := by
  unfold getpwnam
  split
  · exact Moves.pure _
  · exact Moves.throw _

theorem readOnly_getgrnam (name : String) : ReadOnly (sys.getgrnam name) := by
  unfold getgrnam
  split
  · exact Moves.pure _
  · exact Moves.throw _

theorem sameContent_handlePermission (permission : Permission) :
    Moves (OnTree SameContent) (sys.handlePermission permission) := by
  refine Moves.bind (moves_readOnly (readOnly_userGroup _)) fun desired => ?_
  refine Moves.bind (moves_readOnly (readOnly_getpwnam _)) fun uid => ?_
  refine Moves.bind (moves_readOnly (readOnly_getgrnam _)) fun gid => ?_
  split
  · exact Moves.throw _
  · refine Moves.bind moves_tree fun t => Moves.forM fun dest _ => ?_
    refine Moves.bind (sameContent_setPerms _ _ _) fun _ => Moves.bind moves_tree fun t => ?_
    refine moves_when fun _ => Moves.forM fun e _ => ?_
    refine Moves.bind (Moves.forM fun x _ => ?_) fun _ => Moves.forM fun x _ => ?_
    · exact sameContent_handleExclusion _ _ _ _ _ _
    · exact sameContent_handleExclusion _ _ _ _ _ _

theorem sameContent_handlePermissions (permissions : List Permission) :
    Moves (OnTree SameContent) (sys.handlePermissions permissions) :=
  Moves.forM fun permission _ => sameContent_handlePermission permission

end System

/-! ## Existence -/

namespace System

variable {sys : System β} {path : Path}

/-- What exists at a direct path exists where the trees agree on its
location. -/
theorem pathExists_of_content {t t' : FileTree β} (ht : t.LinkFree) (ht' : t'.LinkFree)
    (hdirect : Direct (if Path.isabs path then [] else sys.cwd) path)
    (h : t'.content (Path.abspath sys.cwd path) = t.content (Path.abspath sys.cwd path))
    (hexists : sys.pathExists t path = true) : sys.pathExists t' path = true := by
  obtain ⟨n, hlook⟩ := Option.isSome_iff_exists.mp hexists
  obtain ⟨L, hfind⟩ := find_of_look hlook
  obtain ⟨n', hfind', -⟩ := resolve_congr ht ht' hdirect h hfind
  rw [pathExists, look_of_find hfind']
  rfl

theorem pathExists_congr {t t' : FileTree β} (ht : t.LinkFree) (ht' : t'.LinkFree)
    (hdirect : Direct (if Path.isabs path then [] else sys.cwd) path)
    (h : t'.content (Path.abspath sys.cwd path) = t.content (Path.abspath sys.cwd path)) :
    sys.pathExists t' path = sys.pathExists t path :=
  Bool.eq_iff_iff.mpr
    ⟨pathExists_of_content ht' ht hdirect h.symm, pathExists_of_content ht ht' hdirect h⟩

theorem content_of_pathExists {t : FileTree β} (ht : t.LinkFree)
    (h : sys.pathExists t path = true) : t.content (Path.abspath sys.cwd path) ≠ none := by
  obtain ⟨n, hlook⟩ := Option.isSome_iff_exists.mp h
  obtain ⟨L, hfind⟩ := find_of_look hlook
  rw [Ne, FileTree.content_eq_none, (found_loc ht hfind).2]
  exact Option.some_ne_none n

end System

/-! ## Deleting -/

namespace System

variable {sys : System β} {path : Path}

theorem remove_gone {w w' : World β} (ht : w.tree.LinkFree) (h : sys.remove path w = .ok () w') :
    w'.tree.lookup (Path.abspath sys.cwd path) = none := by
  obtain ⟨loc, n, hfind, hf, -⟩ := onNode_eq_ok h
  obtain ⟨rfl, hn⟩ := found_loc ht hfind
  rw [unlinkAt] at hf
  split at hf
  · cases hf
  · rename_i hdir
    rw [Bool.not_eq_true] at hdir
    have hroot : Path.abspath sys.cwd path ≠ [] := by
      intro hnil
      obtain ⟨a, ha⟩ := w.tree.root_dir
      rw [hnil, ha] at hn
      rw [← Option.some.inj hn] at hdir
      cases hdir
    rw [← (Prod.mk.inj (Except.ok.inj hf)).2,
      FileTree.lookup_erase hroot (names_eq_nil hn hdir), if_pos rfl]

theorem rmdir_gone {w w' : World β} (ht : w.tree.LinkFree) (h : sys.rmdir path w = .ok () w') :
    w'.tree.lookup (Path.abspath sys.cwd path) = none := by
  obtain ⟨loc, n, hfind, hf⟩ := rmdir_eq_ok h
  obtain ⟨rfl, -⟩ := found_loc ht hfind
  have hne : path.rdropWhile (· = "") ≠ [] := by
    intro hnil
    rw [hnil] at hfind
    cases hfind
  rw [abspath_rdropWhile hne] at hf
  rw [rmdirAt] at hf
  split at hf
  · cases hf
  · split at hf
    · cases hf
    · rename_i hempty
      rw [not_or, not_not] at hempty
      rw [← (Prod.mk.inj (Except.ok.inj hf)).2, FileTree.lookup_erase hempty.1 hempty.2, if_pos rfl]

theorem rmtree_gone {w w' : World β} (ht : w.tree.LinkFree) (h : sys.rmtree path w = .ok () w') :
    w'.tree.lookup (Path.abspath sys.cwd path) = none := by
  rw [rmtree, tree_bind] at h
  cases hfind : sys.find w.tree false path with
  | found loc n =>
    rw [hfind] at h
    cases n with
    | dir a =>
      obtain ⟨_, w₁, hcontents, hrmdir⟩ := bind_eq_ok.mp h
      have ht₁ : w₁.tree.LinkFree :=
        ((confined_removeContents _ (List.prefix_refl loc)).of_ok hcontents ht).1
      exact rmdir_gone ht₁ hrmdir
    | file c a => exact absurd h throw_ne_ok
    | link target => exact absurd h throw_ne_ok
  | free loc slash =>
    rw [hfind] at h
    exact absurd h throw_ne_ok
  | failed e =>
    rw [hfind] at h
    exact absurd h throw_ne_ok

theorem listdir_eq_ok {w w' : World β} {names : List String}
    (h : sys.listdir path w = .ok names w') :
    ∃ loc a, sys.find w.tree true path = .found loc (.dir a) ∧
      names = sys.listed loc (w.tree.names loc) ∧ w'.tree = w.tree := by
  obtain ⟨loc, n, hfind, hf, -⟩ := onNode_eq_ok h
  cases n with
  | dir a =>
    obtain ⟨hnames, htree⟩ := Prod.mk.inj (Except.ok.inj hf)
    exact ⟨loc, a, hfind, hnames.symm, htree.symm⟩
  | file c a => cases hf
  | link target => cases hf

theorem isName_of_listdir {w w' : World β} {names : List String}
    (h : sys.listdir path w = .ok names w') : ∀ x ∈ names, IsName x := by
  obtain ⟨loc, a, -, rfl, -⟩ := listdir_eq_ok h
  intro x hx
  obtain ⟨n, hn⟩ := FileTree.mem_names.mp ((sys.listed_perm _ _).mem_iff.mp hx)
  exact FileTree.isName_of_lookup hn x (by simp)

theorem islink_eq_false {t : FileTree β} (ht : t.LinkFree) : sys.islink t path = false := by
  unfold islink
  cases hfind : sys.find t false path with
  | found loc n =>
    cases n with
    | file c a => rfl
    | dir a => rfl
    | link target => exact absurd (lookup_of_resolve hfind) (ht _ _)
  | free loc slash => rfl
  | failed e => rfl

end System

/-! ## Copying -/

namespace ConfigFile

open Kolla.SetConfigs.System

variable {sys : System β} {self : ConfigFile} {within passed : Loc → Prop} {top : Loc} {path : Path}

theorem confined_deletePath (htop : top <+: Path.abspath sys.cwd path) :
    Moves (OnTree (Confined top)) (deletePath sys path) := by
  refine Moves.bind moves_tree fun t => Moves.ite (fun _ => Moves.pure ()) fun _ => ?_
  exact Moves.ite (fun _ => confined_rmtree htop) fun _ => confined_remove htop

theorem changes_createParentDirs (h : Allowed within passed sys.cwd path) :
    Moves (OnTree (Changes within passed)) (createParentDirs sys path) := by
  refine Moves.bind moves_tree fun t => moves_when fun _ => ?_
  exact changes_makedirs _ fun l hl => h.spelled l hl.of_dirname

theorem sameContent_setPropertiesFromFile (source dest : Path) :
    Moves (OnTree SameContent) (setPropertiesFromFile sys source dest) := by
  refine Moves.bind (sameContent_copymode _ _) fun _ => ?_
  exact Moves.bind (moves_readOnly (readOnly_stat _)) fun st => sameContent_setAttr _

theorem sameContent_setProperties (source dest : Path) :
    Moves (OnTree SameContent) (self.setProperties sys source dest) :=
  Moves.ite (fun _ => sameContent_setPropertiesFromFile _ _) fun _ =>
    sameContent_handlePermissions _

theorem confined_copy_to {w : World β} {source dest : Path} (hdest : sys.isdir w.tree dest = false)
    (htop : top <+: Path.abspath sys.cwd dest) :
    OnTree (Confined top) w (exitState (sys.copy source dest w)) := by
  rw [System.copy, tree_bind, hdest]
  refine Moves.bind ?_ (fun _ => Confined.moves (sameContent_copymode _ _)) w
  refine Moves.bind moves_tree fun t => Moves.ite (fun _ => Moves.throw _) fun _ => ?_
  exact Moves.bind (moves_readOnly (readOnly_openRead _)) fun c => confined_writeFile htop c

theorem confined_copyFile {source dest : Path} (htop : top <+: Path.abspath sys.cwd dest) :
    Moves (OnTree (Confined top)) (self.copyFile sys source dest) := by
  intro w ht
  refine Moves.bind_at (R := OnTree (Confined top)) (confined_deletePath htop w)
    (fun _ w₁ hdelete ht₁ => ?_) ht
  have hgone := look_of_deletePath hdelete
  have hdest : sys.isdir w₁.tree dest = false := by
    rw [isdir, hgone]
    rfl
  rw [tree_bind, islink_eq_false ht₁, Bool.and_false, if_neg Bool.false_ne_true]
  refine Moves.bind_at (R := OnTree (Confined top)) (confined_copy_to hdest htop)
    (fun _ w₂ _ => ?_) ht₁
  exact Confined.moves (sameContent_setProperties _ _) w₂

theorem changes_mergeDirectories (n : ℕ) {source dest : Path}
    (h : Allowed within passed sys.cwd dest) :
    Moves (OnTree (Changes within passed)) (self.mergeDirectories sys n source dest) := by
  induction n generalizing source dest with
  | zero => exact Moves.throw _
  | succ n ih =>
    have hself : Path.abspath sys.cwd dest <+: Path.abspath sys.cwd dest := List.prefix_refl _
    refine Moves.bind moves_tree fun t => ?_
    refine Moves.ite (fun _ => ?_) fun _ w => h.changes (confined_copyFile hself w)
    refine Moves.bind (moves_when fun _ w => h.changes (confined_deletePath hself w)) fun _ => ?_
    refine Moves.bind moves_tree fun t => ?_
    refine Moves.bind (moves_when fun _ => changes_makedirs _ h.spelled) fun _ => ?_
    refine Moves.bind (fun w => h.changes (Confined.moves (sameContent_setProperties _ _) w))
      fun _ w => ?_
    refine Moves.bind_at (moves_readOnly (readOnly_listdir _) w) fun names w₁ hlist => ?_
    exact Moves.forM (fun x hx => ih (h.join (isName_of_listdir hlist x hx))) w₁

theorem confined_mergeDirectories (n : ℕ) {source dest : Path} (hdest : Straight dest)
    (htop : top <+: Path.abspath sys.cwd dest) :
    Moves (OnTree (Confined top)) (self.mergeDirectories sys n source dest) :=
  changes_mergeDirectories n (Allowed.of_straight hdest htop)

theorem changes_copySource {source dest : Path} (hdest : self.dest = some dest)
    (h : Allowed within passed sys.cwd (target dest source)) :
    Moves (OnTree (Changes within passed)) (self.copySource sys source) := by
  have hself : Path.abspath sys.cwd (target dest source) <+:
    Path.abspath sys.cwd (target dest source) := List.prefix_refl _
  unfold copySource
  rw [hdest]
  refine Moves.bind (moves_when fun _ w => h.changes (confined_deletePath hself w)) fun _ => ?_
  refine Moves.bind (changes_createParentDirs h) fun _ => ?_
  exact changes_mergeDirectories _ h

/-- A copy from one world, given where its sources go. -/
theorem confined_copy_at {w : World β} {dest : Path} (hdest : self.dest = some dest)
    (hsources : ∀ pattern, self.source = some pattern → ∀ source ∈ sys.glob w.tree pattern,
      Straight (target dest source) ∧ top <+: Path.abspath sys.cwd (target dest source)) :
    OnTree (Confined top) w (exitState (self.copy sys w)) := by
  unfold copy
  cases hpattern : self.source with
  | none => exact Moves.throw (R := OnTree (Confined top)) _ w
  | some pattern =>
    dsimp only
    rw [tree_bind]
    refine Moves.ite (R := OnTree (Confined top)) (fun _ => ?_) (fun _ => ?_) w
    · exact Moves.ite (fun _ => Moves.pure ()) fun _ => Moves.throw _
    · refine Moves.forM fun source hsource => ?_
      obtain ⟨hstraight, htop⟩ := hsources pattern hpattern source hsource
      exact changes_copySource hdest (Allowed.of_straight hstraight htop)

end ConfigFile

end Kolla.SetConfigs
