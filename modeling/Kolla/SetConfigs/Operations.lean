import Kolla.SetConfigs.Defaults

/-!
# What the operations do

One lemma for each operation that a later proof needs: what is known once
it has returned, and for the reading ones that they leave the tree alone.
-/

namespace Kolla.SetConfigs

open Kolla.Lib

variable {β α γ : Type}

/-! ## Relations between trees -/

/-- A relation between the trees before and after. -/
def OnTree (S : FileTree β → FileTree β → Prop) (w w' : World β) : Prop := S w.tree w'.tree

instance (S : FileTree β → FileTree β → Prop) [IsPreorder _ S] :
    IsPreorder (World β) (OnTree S) where
  refl w := refl_of S w.tree
  trans _ _ _ h h' := trans_of S h h'

/-- The program does not change the tree. -/
def ReadOnly (m : Os β α) : Prop := Moves (OnTree Eq) m

theorem ReadOnly.tree_eq {m : Os β α} (hm : ReadOnly m) {w w' : World β} {a : α}
    (h : m w = .ok a w') : w'.tree = w.tree :=
  (hm.of_ok h).symm

/-! ## The kernel -/

theorem tree_bind {w : World β} (f : FileTree β → Os β α) :
    (tree >>= f) w = f w.tree w :=
  bind_of_ok rfl

/-- What is known of an operation that returned. -/
theorem syscall_eq_ok {f : FileTree β → Except Errno (α × FileTree β)} {w w' : World β} {a : α}
    (h : syscall f w = .ok a w') :
    f w.tree = .ok (a, w'.tree) ∧ w'.faults = w.faults.tail := by
  unfold syscall at h
  split at h
  · cases h
  · split at h
    · rename_i hf
      obtain ⟨rfl, rfl⟩ := EStateM.Result.ok.inj h
      exact ⟨hf, rfl⟩
    · cases h

/-- No operation is going to fail for a reason of its own. -/
def Calm (w : World β) : Prop := ∀ e ∈ w.faults, e = none

theorem syscall_of_calm {f : FileTree β → Except Errno (α × FileTree β)} {w : World β}
    (hw : Calm w) {a : α} {t : FileTree β} (h : f w.tree = .ok (a, t)) :
    syscall f w = .ok a ⟨t, w.faults.tail⟩ := by
  unfold syscall
  split
  · rename_i e faults hfaults
    exact absurd (hw (some e) (by simp [hfaults])) (by simp)
  · rw [h]

theorem Calm.tail {w : World β} (hw : Calm w) (t : FileTree β) :
    Calm (⟨t, w.faults.tail⟩ : World β) :=
  fun e he => hw e (List.mem_of_mem_tail he)

theorem moves_syscall {S : FileTree β → FileTree β → Prop} [IsPreorder _ S]
    {f : FileTree β → Except Errno (α × FileTree β)}
    (hf : ∀ t a t', f t = .ok (a, t') → S t t') : Moves (OnTree S) (syscall f) := by
  intro w
  unfold syscall
  split
  · exact refl_of S w.tree
  · split
    · rename_i h
      exact hf _ _ _ h
    · exact refl_of S w.tree

theorem moves_tree {S : FileTree β → FileTree β → Prop} [IsPreorder _ S] :
    Moves (OnTree S) (tree : Os β (FileTree β)) :=
  fun w => refl_of S w.tree

theorem moves_when {R : World β → World β → Prop} [IsPreorder _ R] {c : Prop} [Decidable c]
    {m : Os β Unit} (hm : c → Moves R m) : Moves R (when c m) :=
  Moves.ite hm fun _ => Moves.pure ()

theorem moves_logOSError {R : World β → World β → Prop} [IsPreorder _ R] {m : Os β Unit}
    (hm : Moves R m) : Moves R (logOSError m) := by
  refine Moves.tryCatch hm fun e => ?_
  split
  · exact Moves.pure ()
  · exact Moves.throw _

namespace System

variable {sys : System β}

/-- An operation on a node that returned found the node. -/
theorem onNode_eq_ok {follow : Bool} {path : Path}
    {f : FileTree β → Loc → Node β → Except Errno (α × FileTree β)} {w w' : World β} {a : α}
    (h : sys.onNode follow path f w = .ok a w') :
    ∃ loc n, sys.find w.tree follow path = .found loc n ∧ f w.tree loc n = .ok (a, w'.tree) ∧
      w'.faults = w.faults.tail := by
  obtain ⟨hf, hfaults⟩ := syscall_eq_ok h
  cases hfind : sys.find w.tree follow path with
  | found loc n =>
    rw [hfind] at hf
    exact ⟨loc, n, rfl, hf, hfaults⟩
  | free loc slash =>
    rw [hfind] at hf
    cases hf
  | failed e =>
    rw [hfind] at hf
    cases hf

theorem onNode_of_calm {follow : Bool} {path : Path}
    {f : FileTree β → Loc → Node β → Except Errno (α × FileTree β)} {w : World β} (hw : Calm w)
    {loc : Loc} {n : Node β} (hfind : sys.find w.tree follow path = .found loc n) {a : α}
    {t : FileTree β} (h : f w.tree loc n = .ok (a, t)) :
    sys.onNode follow path f w = .ok a ⟨t, w.faults.tail⟩ := by
  refine syscall_of_calm hw ?_
  rw [hfind]
  exact h

theorem moves_onNode {S : FileTree β → FileTree β → Prop} [IsPreorder _ S] {follow : Bool}
    {path : Path} {f : FileTree β → Loc → Node β → Except Errno (α × FileTree β)}
    (hf : ∀ t loc n a t', sys.find t follow path = .found loc n → f t loc n = .ok (a, t') → S t t') :
    Moves (OnTree S) (sys.onNode follow path f) := by
  refine moves_syscall fun t a t' h => ?_
  cases hfind : sys.find t follow path with
  | found loc n =>
    rw [hfind] at h
    exact hf t loc n a t' hfind h
  | free loc slash =>
    rw [hfind] at h
    cases h
  | failed e =>
    rw [hfind] at h
    cases h

/-! ## Paths -/

theorem look_of_find {t : FileTree β} {path : Path} {loc : Loc} {n : Node β}
    (h : sys.find t true path = .found loc n) : sys.look t path = some n := by
  rw [look, h]
  rfl

theorem find_of_look {t : FileTree β} {path : Path} {n : Node β} (h : sys.look t path = some n) :
    ∃ loc, sys.find t true path = .found loc n := by
  unfold look at h
  cases hfind : sys.find t true path with
  | found loc m =>
    rw [hfind] at h
    cases h
    exact ⟨loc, rfl⟩
  | free loc slash =>
    rw [hfind] at h
    cases h
  | failed e =>
    rw [hfind] at h
    cases h

theorem isdir_iff {t : FileTree β} {path : Path} :
    sys.isdir t path = true ↔ ∃ loc a, sys.find t true path = .found loc (.dir a) := by
  unfold isdir
  constructor
  · intro h
    cases hl : sys.look t path with
    | none => simp [hl] at h
    | some n =>
      rw [hl] at h
      obtain ⟨a, rfl⟩ := Node.isDir_iff.mp (by simpa using h)
      obtain ⟨loc, hloc⟩ := find_of_look hl
      exact ⟨loc, a, hloc⟩
  · rintro ⟨loc, a, h⟩
    rw [look_of_find h]
    rfl

/-- What a path leads to when it is followed is no link. -/
theorem isdir_eq_false {t : FileTree β} {path : Path} {n : Node β} (h : sys.look t path = some n) :
    sys.isdir t path = n.isDir := by
  rw [isdir, h]
  rfl

/-- The node at a location below the directory that a path leads to. -/
theorem find_under {t : FileTree β} {follow : Bool} {path : Path} {loc : Loc} {a : Attr}
    {names : List String} {n : Node β} (h : sys.find t true path = .found loc (.dir a))
    (hne : names ≠ []) (hn : t.lookup (loc ++ names) = some n)
    (hlink : follow = true → n.isLink = false) :
    sys.find t follow (Path.under path names) = .found (loc ++ names) n :=
  resolve_lookup h hne hn hlink

/-- What holds an entry that can be reached is a directory. -/
theorem isdir_of_look_join {t : FileTree β} {path : Path} {x : String} {n : Node β}
    (hx : IsName x) (hpath : path ≠ [] ∧ path ≠ [""]) (h : sys.look t (Path.join path [x]) = some n) :
    sys.isdir t path = true := by
  obtain ⟨loc, hfind⟩ := find_of_look h
  have hnf : ∀ e, sys.find t true (Path.join path [x]) ≠ .failed e := by
    intro e he
    rw [hfind] at he
    cases he
  obtain ⟨L, a, hdir⟩ := (resolve_parent hx hpath.2 hnf).resolve_left hpath.1
  exact isdir_iff.mpr ⟨L, a, hdir⟩

theorem isdir_of_look_under {t : FileTree β} {path : Path} {rel below : List String} {n : Node β}
    (hrel : rel ≠ []) (hbelow : below ≠ []) (hnames : ∀ x ∈ rel ++ below, IsName x)
    (h : sys.look t (Path.under path (rel ++ below)) = some n) :
    sys.isdir t (Path.under path rel) = true := by
  induction below using List.reverseRecOn generalizing n with
  | nil => exact absurd rfl hbelow
  | append_singleton below x ih =>
    rw [← List.append_assoc] at hnames h
    rw [Path.under_concat] at h
    have hnames' : ∀ y ∈ rel ++ below, IsName y :=
      fun y hy => hnames y (List.mem_append_left _ hy)
    have hrel' : rel ++ below ≠ [] := by simp [hrel]
    have hne := @Path.under_ne_empty path _ hrel' hnames'
    have hdir := isdir_of_look_join (hnames x (by simp)) hne h
    by_cases hnil : below = []
    · subst hnil
      rwa [List.append_nil] at hdir
    · obtain ⟨loc, a, hfind⟩ := isdir_iff.mp hdir
      exact ih hnil hnames' (look_of_find hfind)

/-! ## Reading -/

theorem readOnly_stat (path : Path) : ReadOnly (sys.stat path) := by
  refine moves_onNode fun t loc n a t' _ h => ?_
  cases h
  rfl

theorem stat_eq_ok {path : Path} {w w' : World β} {n : Node β} (h : sys.stat path w = .ok n w') :
    sys.look w.tree path = some n := by
  obtain ⟨loc, m, hfind, hf, _⟩ := onNode_eq_ok h
  obtain ⟨rfl, _⟩ := Prod.mk.inj (Except.ok.inj hf)
  exact look_of_find hfind

theorem readOnly_openRead (path : Path) : ReadOnly (sys.openRead path) := by
  refine moves_onNode fun t loc n a t' _ h => ?_
  cases n <;> cases h
  rfl

theorem openRead_eq_ok {path : Path} {w w' : World β} {c : β}
    (h : sys.openRead path w = .ok c w') : ∃ a, sys.look w.tree path = some (.file c a) := by
  obtain ⟨loc, n, hfind, hf, _⟩ := onNode_eq_ok h
  cases n with
  | file c' a =>
    obtain ⟨rfl, _⟩ := Prod.mk.inj (Except.ok.inj hf)
    exact ⟨a, look_of_find hfind⟩
  | dir a => cases hf
  | link target => cases hf

theorem readOnly_listdir (path : Path) : ReadOnly (sys.listdir path) := by
  refine moves_onNode fun t loc n a t' _ h => ?_
  cases n <;> cases h
  rfl

theorem readOnly_userGroup (owner : Option String) :
    ReadOnly (userGroup owner : Os β (String × String)) := by
  cases owner with
  | none => exact Moves.throw _
  | some owner => exact Moves.pure _

theorem userGroup_eq_ok {owner : Option String} {w w' : World β} {r : String × String}
    (h : userGroup owner w = .ok r w') :
    ∃ text, owner = some text ∧ r = splitOwner text ∧ w' = w := by
  cases owner with
  | none => exact absurd h throw_ne_ok
  | some text =>
    obtain ⟨rfl, rfl⟩ := pure_eq_ok.mp h
    exact ⟨text, rfl, rfl, rfl⟩

theorem getpwuid_eq_ok {uid : ℕ} {w w' : World β} {name : String}
    (h : sys.getpwuid uid w = .ok name w') : sys.userName uid = some name ∧ w' = w := by
  unfold getpwuid at h
  cases hname : sys.userName uid with
  | some name' =>
    rw [hname] at h
    obtain ⟨rfl, rfl⟩ := pure_eq_ok.mp h
    exact ⟨rfl, rfl⟩
  | none =>
    rw [hname] at h
    exact absurd h throw_ne_ok

theorem readOnly_getpwuid (uid : ℕ) : ReadOnly (sys.getpwuid uid) := by
  unfold getpwuid
  cases sys.userName uid with
  | some name => exact Moves.pure _
  | none => exact Moves.throw _

theorem getgrgid_eq_ok {gid : ℕ} {w w' : World β} {name : String}
    (h : sys.getgrgid gid w = .ok name w') : sys.groupName gid = some name ∧ w' = w := by
  unfold getgrgid at h
  cases hname : sys.groupName gid with
  | some name' =>
    rw [hname] at h
    obtain ⟨rfl, rfl⟩ := pure_eq_ok.mp h
    exact ⟨rfl, rfl⟩
  | none =>
    rw [hname] at h
    exact absurd h throw_ne_ok

theorem readOnly_getgrgid (gid : ℕ) : ReadOnly (sys.getgrgid gid) := by
  unfold getgrgid
  cases sys.groupName gid with
  | some name => exact Moves.pure _
  | none => exact Moves.throw _

/-! ## `os.makedirs` -/

/-- `os.makedirs` moves as `os.mkdir` does. -/
theorem moves_makedirsAux {R : World β → World β → Prop} [IsPreorder _ R]
    (htree : Moves R (tree : Os β (FileTree β))) (hmkdir : ∀ path, Moves R (sys.mkdir path))
    (n : ℕ) (path : Path) (existOk : Bool) : Moves R (sys.makedirsAux n path existOk) := by
  induction n generalizing path with
  | zero => exact Moves.throw _
  | succ n ih =>
    refine Moves.bind htree fun t => Moves.bind (moves_when fun _ => ?_) fun _ => ?_
    · refine Moves.tryCatch (ih _) fun e => ?_
      split
      · exact Moves.pure ()
      · exact Moves.throw _
    · refine Moves.ite (fun _ => Moves.pure ()) fun _ => Moves.tryCatch (hmkdir path) fun e => ?_
      split
      · exact Moves.bind htree fun t => Moves.ite (fun _ => Moves.pure ()) fun _ => Moves.throw _
      · exact Moves.throw _

/-! ## `os.walk` -/

theorem mem_scandir {t : FileTree β} {path : Path} {loc : Loc} {a : Attr}
    (h : sys.find t true path = .found loc (.dir a)) :
    ∃ names, sys.scandir t path = some names ∧
      ∀ x, x ∈ names ↔ ∃ n, t.lookup (loc ++ [x]) = some n := by
  refine ⟨sys.listed loc (t.names loc), ?_, fun x => ?_⟩
  · rw [scandir, h]
  · rw [(sys.listed_perm _ _).mem_iff, FileTree.mem_names]

/-- The walk comes to every entry below the top, among the subdirectories
or among the others. -/
theorem mem_walkAux {t : FileTree β} {x : String} {n : Node β} :
    ∀ (rel : Loc) (fuel : ℕ) (top : Path) (loc : Loc) (a : Attr), rel.length < fuel →
      sys.find t true top = .found loc (.dir a) → t.lookup (loc ++ rel ++ [x]) = some n →
      ∃ e ∈ sys.walkAux t fuel top, e.1 = Path.under top rel ∧
        if sys.isdir t (Path.under top (rel ++ [x])) then x ∈ e.2.1 else x ∈ e.2.2 := by
  intro rel
  induction rel with
  | nil =>
    intro fuel top loc a hfuel hfind hn
    obtain ⟨fuel, rfl⟩ : ∃ k, fuel = k + 1 := ⟨fuel - 1, by simp at hfuel; omega⟩
    obtain ⟨names, hnames, hmem⟩ := mem_scandir hfind
    rw [List.append_nil] at hn
    have hx : x ∈ names := (hmem x).mpr ⟨n, hn⟩
    rw [walkAux, hnames]
    refine ⟨_, List.mem_cons_self, rfl, ?_⟩
    rw [List.nil_append, Path.under_cons, Path.under_nil]
    by_cases hdir : sys.isdir t (Path.join top [x]) = true
    · rw [if_pos hdir]
      exact List.mem_filter.mpr ⟨hx, hdir⟩
    · rw [if_neg hdir]
      exact List.mem_filter.mpr ⟨hx, by simpa using hdir⟩
  | cons y rel ih =>
    intro fuel top loc a hfuel hfind hn
    obtain ⟨fuel, rfl⟩ : ∃ k, fuel = k + 1 := ⟨fuel - 1, by simp at hfuel; omega⟩
    have happ : loc ++ y :: rel ++ [x] = loc ++ [y] ++ rel ++ [x] := by simp
    rw [happ] at hn
    obtain ⟨b, hb⟩ : ∃ b, t.lookup (loc ++ [y]) = some (.dir b) := by
      rw [List.append_assoc] at hn
      exact FileTree.ancestor_dir hn (by simp)
    obtain ⟨names, hnames, hmem⟩ := mem_scandir hfind
    have hy : y ∈ names := (hmem y).mpr ⟨_, hb⟩
    have hfindy : ∀ follow, sys.find t follow (Path.join top [y]) = .found (loc ++ [y]) (.dir b) :=
      fun _ => @find_under _ _ _ _ _ _ _ [y] _ hfind (by simp) hb (fun _ => rfl)
    have hdir : sys.isdir t (Path.join top [y]) = true := isdir_iff.mpr ⟨_, b, hfindy true⟩
    have hlink : sys.islink t (Path.join top [y]) = false := by
      rw [islink, hfindy false]
      rfl
    obtain ⟨e, he, htop, hx⟩ :=
      ih fuel (Path.join top [y]) (loc ++ [y]) b (by simpa using hfuel) (hfindy true) hn
    refine ⟨e, ?_, htop, hx⟩
    rw [walkAux, hnames]
    refine List.mem_cons_of_mem _ (List.mem_flatMap.mpr ⟨y, List.mem_filter.mpr ⟨hy, hdir⟩, ?_⟩)
    simpa [hlink] using he

/-- A location lies less deep than there are nodes. -/
theorem length_lt_size {t : FileTree β} {loc rel : Loc} {n : Node β}
    (h : t.lookup (loc ++ rel) = some n) : rel.length < t.size := by
  have hsub : ∀ l ∈ (List.range (rel.length + 1)).map fun k => loc ++ rel.take k,
      l ∈ t.nodes.map Prod.fst := by
    intro l hl
    obtain ⟨k, hk, rfl⟩ := List.mem_map.mp hl
    by_cases hdrop : rel.drop k = []
    · rw [show rel.take k = rel by rw [← List.append_nil (rel.take k), ← hdrop, List.take_append_drop]]
      exact List.mem_map_of_mem (f := Prod.fst) (FileTree.lookup_eq_some_iff.mp h)
    · rw [← List.take_append_drop k rel, ← List.append_assoc] at h
      obtain ⟨a, ha⟩ := FileTree.ancestor_dir h hdrop
      exact List.mem_map_of_mem (f := Prod.fst) (FileTree.lookup_eq_some_iff.mp ha)
  have hnodup : ((List.range (rel.length + 1)).map fun k => loc ++ rel.take k).Nodup := by
    refine List.Nodup.map_on ?_ List.nodup_range
    intro i hi j hj hij
    have hlen := congrArg List.length hij
    simp only [List.length_append, List.length_take, List.mem_range] at hlen hi hj
    omega
  have hle := (List.subperm_of_subset hnodup hsub).length_le
  rw [List.length_map, List.length_range, List.length_map] at hle
  exact hle

theorem mem_walk {t : FileTree β} {top : Path} {loc rel : Loc} {a : Attr} {x : String} {n : Node β}
    (hfind : sys.find t true top = .found loc (.dir a))
    (hn : t.lookup (loc ++ rel ++ [x]) = some n) :
    ∃ e ∈ sys.walk t top, e.1 = Path.under top rel ∧
      if sys.isdir t (Path.under top (rel ++ [x])) then x ∈ e.2.1 else x ∈ e.2.2 := by
  refine mem_walkAux rel t.size top loc a ?_ hfind hn
  obtain ⟨b, hb⟩ := FileTree.parent_dir hn
  exact length_lt_size hb

/-- The walk comes to entries below the top only. -/
theorem walkAux_below {t : FileTree β} :
    ∀ (fuel : ℕ) (top : Path) (loc : Loc) (a : Attr), sys.find t true top = .found loc (.dir a) →
      ∀ e ∈ sys.walkAux t fuel top, ∃ rel, e.1 = Path.under top rel ∧
        ∀ x ∈ e.2.1 ++ e.2.2, ∃ n, t.lookup (loc ++ rel ++ [x]) = some n := by
  intro fuel
  induction fuel with
  | zero => exact fun _ _ _ _ e he => (List.not_mem_nil he).elim
  | succ fuel ih =>
    intro top loc a hfind e he
    obtain ⟨names, hnames, hmem⟩ := mem_scandir hfind
    rw [walkAux, hnames] at he
    rcases List.mem_cons.mp he with rfl | he
    · refine ⟨[], rfl, fun x hx => ?_⟩
      rw [List.append_nil]
      refine (hmem x).mp ?_
      rcases List.mem_append.mp hx with hx | hx
      · exact (List.mem_filter.mp hx).1
      · exact (List.mem_filter.mp hx).1
    · obtain ⟨y, hy, he⟩ := List.mem_flatMap.mp he
      obtain ⟨hy, hdir⟩ := List.mem_filter.mp hy
      split at he
      · exact (List.not_mem_nil he).elim
      · rename_i hlink
        -- what is no link and leads to a directory is one
        obtain ⟨n, hn⟩ := (hmem y).mp hy
        have hfindy : ∀ follow, (follow = true → n.isLink = false) →
            sys.find t follow (Path.join top [y]) = .found (loc ++ [y]) n :=
          fun follow h => @find_under _ _ _ _ _ _ _ [y] _ hfind (List.cons_ne_nil _ _) hn h
        have hn' : n.isLink = false := by
          rw [islink, hfindy false nofun] at hlink
          simpa [Found.node] using hlink
        have hfind' := hfindy true fun _ => hn'
        rw [isdir_eq_false (look_of_find hfind')] at hdir
        obtain ⟨b, rfl⟩ := Node.isDir_iff.mp hdir
        obtain ⟨rel, hrel, hbelow⟩ := ih (Path.join top [y]) (loc ++ [y]) b hfind' e he
        exact ⟨y :: rel, by rw [hrel, Path.under_cons], by simpa using hbelow⟩

/-- What the walk comes to is what stands below the top. -/
theorem mem_walk_iff {t : FileTree β} {top : Path} {loc : Loc} {a : Attr}
    (hfind : sys.find t true top = .found loc (.dir a)) (P : Path → Prop) :
    (∃ e ∈ sys.walk t top, (∃ x ∈ e.2.1, P (Path.join e.1 [x])) ∨
        ∃ x ∈ e.2.2, P (Path.join e.1 [x])) ↔
      ∃ rel, rel ≠ [] ∧ (∃ n, t.lookup (loc ++ rel) = some n) ∧ P (Path.under top rel) := by
  constructor
  · rintro ⟨e, he, hx⟩
    obtain ⟨rel, hrel, hbelow⟩ := walkAux_below t.size top loc a hfind e he
    have hgo : ∀ x ∈ e.2.1 ++ e.2.2, P (Path.join e.1 [x]) →
        ∃ rel, rel ≠ [] ∧ (∃ n, t.lookup (loc ++ rel) = some n) ∧ P (Path.under top rel) := by
      intro x hx hP
      obtain ⟨n, hn⟩ := hbelow x hx
      refine ⟨rel ++ [x], by simp, ⟨n, by rwa [← List.append_assoc]⟩, ?_⟩
      rwa [Path.under_concat, ← hrel]
    rcases hx with ⟨x, hx, hP⟩ | ⟨x, hx, hP⟩
    · exact hgo x (List.mem_append_left _ hx) hP
    · exact hgo x (List.mem_append_right _ hx) hP
  · rintro ⟨rel, hne, ⟨n, hn⟩, hP⟩
    obtain ⟨rel, x, rfl⟩ := (List.eq_nil_or_concat' rel).resolve_left hne
    rw [← List.append_assoc] at hn
    obtain ⟨e, he, htop, hx⟩ := mem_walk hfind hn
    rw [Path.under_concat, ← htop] at hP
    refine ⟨e, he, ?_⟩
    split at hx
    · exact Or.inl ⟨x, hx, hP⟩
    · exact Or.inr ⟨x, hx, hP⟩

/-! ## The backup of one entry -/

theorem item_of_get {key : Key α} {a : α} (h : key.get = some a) :
    (key.item : Os β (Option α)) = pure (some a) := by
  cases key with
  | absent => cases h
  | null => cases h
  | given value =>
    cases h
    rfl

theorem backupConfig_eq {data : Entry} {source dest : Path} (hsource : data.source.get = some source)
    (hdest : data.dest.get = some dest) (state : State) :
    sys.backupConfig state data =
      if dest ∈ state.keys then pure state
      else sys.backupPath source (recordedPath dest source) state := by
  rw [backupConfig, item_of_get hsource, item_of_get hdest, pure_bind]
  by_cases hmem : dest ∈ state.keys
  · simp [hmem]
  · simp [hmem]

theorem item_eq_ok {α : Type} {key : Key α} {a : Option α} {w w' : World β}
    (h : (key.item : Os β (Option α)) w = .ok a w') : a = key.get ∧ w' = w := by
  cases key with
  | absent => exact absurd h throw_ne_ok
  | null =>
    obtain ⟨rfl, rfl⟩ := pure_eq_ok.mp h
    exact ⟨rfl, rfl⟩
  | given value =>
    obtain ⟨rfl, rfl⟩ := pure_eq_ok.mp h
    exact ⟨rfl, rfl⟩

/-- What a backup that returned has done: nothing for a recorded destination,
else the backup of the path. -/
theorem backupConfig_cases {data : Entry} {state state' : State} {w w' : World β}
    (h : sys.backupConfig state data w = .ok state' w') :
    ∃ dest, data.dest.get = some dest ∧
      (dest ∈ state.keys ∧ state' = state ∧ w' = w ∨
        ∃ source, data.source.get = some source ∧ dest ∉ state.keys ∧
          sys.backupPath source (recordedPath dest source) state w = .ok state' w') := by
  obtain ⟨dest, w₁, hdest, hrest⟩ := bind_eq_ok.mp h
  obtain ⟨rfl, rfl⟩ := item_eq_ok hdest
  clear h
  cases hd : data.dest.get with
  | none =>
    rw [hd] at hrest
    obtain ⟨src, w₂, hsrc, hpath⟩ := bind_eq_ok.mp hrest
    exact absurd hpath throw_ne_ok
  | some dest =>
    refine ⟨dest, rfl, ?_⟩
    rw [hd] at hrest
    split at hrest
    · rename_i hrecorded
      obtain ⟨rfl, rfl⟩ := pure_eq_ok.mp hrest
      exact Or.inl ⟨by simpa using hrecorded, rfl, rfl⟩
    · rename_i hrecorded
      obtain ⟨src, w₂, hsrc, hpath⟩ := bind_eq_ok.mp hrest
      obtain ⟨rfl, rfl⟩ := item_eq_ok hsrc
      cases hs : data.source.get with
      | none =>
        rw [hs] at hpath
        dsimp only at hpath
        split at hpath <;> exact absurd hpath throw_ne_ok
      | some source =>
        rw [hs] at hpath
        exact Or.inr ⟨source, rfl, by simpa using hrecorded, hpath⟩

end System

end Kolla.SetConfigs
