import Kolla.Lib.Posix

/-!
# Paths that lead the same way

Two path texts can differ in their slashes and lead to the same places.  `SameWay`
says that they do, whatever is joined to them; `os.path.join` keeps the relation
(`SameWay.join`), and so does putting the parts of `os.path.split` together again
(`SameWay.split`).
-/

namespace Kolla.Lib

variable {β : Type} {t : FileTree β} {links : ℕ} {cwd : Loc} {path path' : Path}

/-! ## Parts of a path -/

/-- Of two slashes one makes no difference. -/
theorem walk_double {follow : Bool} {rest : Path} (hrest : rest ≠ []) :
    ∀ links cur path,
      walk t follow links cur (path ++ "" :: rest) = walk t follow links cur (path ++ rest) := by
  refine walk_induction ?_ ?_ ?_ ?_
  · intro links cur
    exact walk_skip (Or.inl rfl) t follow links cur rest
  · intro links cur x path hx ih
    rw [List.cons_append, List.cons_append, walk_skip hx, walk_skip hx, ih]
  · intro links cur path ih
    rw [List.cons_append, List.cons_append, walk_up, walk_up, ih]
  · intro links cur x path hx ih ihl
    have hne : path ++ "" :: rest ≠ [] ∧ path ++ rest ≠ [] := by simp [hrest]
    have hall : (path ++ "" :: rest).all (· = "") = (path ++ rest).all (· = "") := by simp
    rw [List.cons_append, List.cons_append, walk_name hx, walk_name hx]
    simp only [hne.1, hne.2, false_and, if_false, hall]
    cases t.lookup (cur ++ [x]) with
    | none => rfl
    | some n =>
      cases n with
      | file c a => rfl
      | dir a => exact ih
      | link target =>
        cases links with
        | zero => rfl
        | succ links =>
          dsimp only [expandLink]
          rw [← List.append_assoc, ← List.append_assoc]
          exact ihl links target rfl

/-- What a walk finds is found through a directory. -/
theorem walk_through {follow : Bool} {rest : Path} (hrest : rest ≠ []) {L : Loc} {n : Node β} :
    ∀ links cur path, t.isDir cur = true →
      walk t follow links cur (path ++ rest) = .found L n →
      ∃ P a, walk t true links cur path = .found P (.dir a) := by
  refine walk_induction ?_ ?_ ?_ ?_
  · intro links cur hcur _
    obtain ⟨a, ha⟩ := FileTree.isDir_iff.mp hcur
    exact ⟨cur, a, by rw [walk_nil, ha]⟩
  · intro links cur x path hx ih hcur h
    rw [List.cons_append, walk_skip hx] at h
    rw [walk_skip hx]
    exact ih hcur h
  · intro links cur path ih hcur h
    rw [List.cons_append, walk_up] at h
    rw [walk_up]
    exact ih (isDir_dropLast hcur) h
  · intro links cur x path hx ih ihl hcur h
    have hne : path ++ rest ≠ [] := by simp [hrest]
    rw [List.cons_append, walk_name hx] at h
    rw [walk_name hx]
    simp only [hne, false_and, if_false] at h
    cases hl : t.lookup (cur ++ [x]) with
    | none =>
      rw [hl] at h
      dsimp only at h
      split at h <;> cases h
    | some m =>
      rw [hl] at h
      cases m with
      | file c b => cases h
      | dir b => exact ih (FileTree.isDir_iff.mpr ⟨b, hl⟩) h
      | link target =>
        simp only [Bool.true_eq_false, and_false, if_false]
        cases links with
        | zero => cases h
        | succ links =>
          dsimp only [expandLink] at h
          rw [← List.append_assoc] at h
          exact ihl links target rfl (isDir_base hcur target) h

theorem append_ne_empty {rest : Path} (hpath : path ≠ []) (hrest : rest ≠ []) :
    path ++ rest ≠ [] ∧ path ++ rest ≠ [""] := by
  refine ⟨by simp [hpath], fun hsingle => ?_⟩
  have := congrArg List.length hsingle
  rw [List.length_append, List.length_singleton] at this
  have := List.length_pos_of_ne_nil hpath
  have := List.length_pos_of_ne_nil hrest
  omega

theorem resolve_double {rest : Path} (hpath : path ≠ []) (hrest : rest ≠ []) (follow : Bool) :
    resolve t links cwd follow (path ++ "" :: rest) = resolve t links cwd follow (path ++ rest) := by
  have habs : Path.isabs (path ++ "" :: rest) = Path.isabs (path ++ rest) := by
    obtain ⟨x, path, rfl⟩ := List.exists_cons_of_ne_nil hpath
    obtain ⟨y, rest, rfl⟩ := List.exists_cons_of_ne_nil hrest
    cases path with
    | nil => by_cases hx : x = "" <;> simp [Path.isabs, hx]
    | cons z path => by_cases hx : x = "" <;> simp [Path.isabs, hx]
  have hne := not_or.mpr (append_ne_empty hpath hrest)
  have hne' := not_or.mpr (append_ne_empty hpath (List.cons_ne_nil "" rest))
  unfold resolve
  rw [if_neg hne, if_neg hne', habs, walk_double hrest, walk_double hrest]

theorem resolve_rdropWhile_append {rest : Path} (hpath : path.rdropWhile (· = "") ≠ [])
    (hrest : rest ≠ []) (follow : Bool) :
    resolve t links cwd follow (path.rdropWhile (· = "") ++ rest)
      = resolve t links cwd follow (path ++ rest) := by
  induction path using List.reverseRecOn with
  | nil => exact absurd rfl hpath
  | append_singleton path x ih =>
    by_cases hx : x = ""
    · subst hx
      rw [List.rdropWhile_concat_pos _ _ _ (by simp)] at hpath ⊢
      have hne : path ≠ [] := by
        rintro rfl
        exact hpath rfl
      rw [ih hpath, List.append_assoc, List.singleton_append, resolve_double hne hrest]
    · rw [List.rdropWhile_concat_neg _ _ _ (by simpa using hx)]

theorem resolve_join (hnil : path ≠ []) (hempty : path ≠ [""]) (x : String) (rest : Path)
    (follow : Bool) :
    resolve t links cwd follow (Path.join path [x] ++ rest)
      = resolve t links cwd follow (path ++ x :: rest) := by
  rw [Path.join_name]
  split
  · rename_i hlast
    obtain ⟨init, y, rfl⟩ := (List.eq_nil_or_concat' path).resolve_left hnil
    obtain rfl : y = "" := by simpa using hlast
    have hinit : init ≠ [] := by
      rintro rfl
      exact hempty rfl
    rw [List.dropLast_concat, List.append_assoc, List.append_assoc, List.singleton_append,
      List.singleton_append, resolve_double hinit (List.cons_ne_nil _ _)]
  · rw [List.append_assoc, List.singleton_append]

/-- What a path leads to is in what its first part leads to. -/
theorem resolve_through {follow : Bool} {rest : Path} {L : Loc} {n : Node β} (hnil : path ≠ [])
    (hempty : path ≠ [""]) (hrest : rest ≠ [])
    (h : resolve t links cwd follow (path ++ rest) = .found L n) :
    ∃ P a, resolve t links cwd true path = .found P (.dir a) := by
  obtain ⟨-, -, hdir, heq⟩ := resolve_eq_walk (fun e he => by rw [he] at h; cases h)
  rw [heq] at h
  have habs : Path.isabs (path ++ rest) = Path.isabs path := Path.isabs_append hnil hempty
  rw [habs] at h hdir
  obtain ⟨P, a, hP⟩ := walk_through hrest links _ path hdir h
  exact ⟨P, a, by rw [resolve_of_base hnil hempty hdir, hP]⟩

/-- What is there when links are followed is there when the last one is not. -/
theorem exists_of_resolve {L : Loc} {n : Node β} (h : resolve t links cwd true path = .found L n) :
    ∃ L' n', resolve t links cwd false path = .found L' n' := by
  obtain ⟨-, -, -, heq⟩ := resolve_eq_walk (fun e he => by rw [he] at h; cases h)
  by_cases hlink : ∃ L' target, resolve t links cwd false path = .found L' (.link target)
  · obtain ⟨L', target, hfound⟩ := hlink
    exact ⟨L', _, hfound⟩
  · refine ⟨L, n, ?_⟩
    rw [heq] at h hlink ⊢
    rw [← walk_follow links _ path fun L' target hfound => hlink ⟨L', target, hfound⟩, h]

/-! ## The relation -/

/-- The two paths lead to the same place, also with more behind them. -/
def SameWay (links : ℕ) (cwd : Loc) (t : FileTree β) (path path' : Path) : Prop :=
  ∀ follow rest, (rest = [] → follow = true) →
    resolve t links cwd follow (path ++ rest) = resolve t links cwd follow (path' ++ rest)

namespace SameWay

theorem refl (links : ℕ) (cwd : Loc) (t : FileTree β) (path : Path) :
    SameWay links cwd t path path := fun _ _ _ => rfl

theorem trans {path'' : Path} (h : SameWay links cwd t path path')
    (h' : SameWay links cwd t path' path'') : SameWay links cwd t path path'' :=
  fun follow rest hrest => (h follow rest hrest).trans (h' follow rest hrest)

theorem resolve_eq (h : SameWay links cwd t path path') :
    resolve t links cwd true path = resolve t links cwd true path' := by
  simpa using h true [] fun _ => rfl

/-- An entry leads to the same place however its directory is spelled. -/
theorem entry (h : SameWay links cwd t path path') (hnil : path ≠ []) (hempty : path ≠ [""])
    (x : String) (follow : Bool) (rest : Path) :
    resolve t links cwd follow (Path.join path [x] ++ rest)
      = resolve t links cwd follow (path' ++ x :: rest) := by
  rw [resolve_join hnil hempty, h follow _ fun hnone => absurd hnone (List.cons_ne_nil _ _)]

theorem join (h : SameWay links cwd t path path') (hnil : path ≠ []) (hempty : path ≠ [""])
    (hnil' : path' ≠ []) (hempty' : path' ≠ [""]) (x : String) :
    SameWay links cwd t (Path.join path [x]) (Path.join path' [x]) := by
  intro follow rest _
  rw [h.entry hnil hempty, resolve_join hnil' hempty']

/-- A path leads where its directory and its name lead. -/
theorem split (hpath : path ≠ []) (x : String) :
    SameWay links cwd t (Path.join (Path.dirname (path ++ [x])) [x]) (path ++ [x]) := by
  intro follow rest _
  rw [Path.dirname, List.dropLast_concat, if_neg hpath]
  split
  · rw [Path.join_name, if_pos (by simp), List.dropLast_concat]
  · rename_i hall
    have hne : path.rdropWhile (· = "") ≠ [] := by
      rw [Ne, List.rdropWhile_eq_nil_iff]
      simpa using hall
    have hlast : (path.rdropWhile (· = "")).getLastD "" ≠ "" := by
      have := List.rdropWhile_last_not (· = "") path hne
      rw [List.getLastD_eq_getLast?, List.getLast?_eq_some_getLast hne]
      simpa using this
    rw [Path.join_name, if_neg hlast, List.append_assoc, List.append_assoc,
      resolve_rdropWhile_append hne (by simp)]

end SameWay

end Kolla.Lib
