import Kolla.SetConfigs.Copying
import Mathlib.Algebra.Order.BigOperators.Group.List
import Mathlib.Algebra.Order.Group.Nat

/-!
# Copies that returned

`copy` can fail where a tree is too deep for the interpreter and where an owner or
a mode cannot be set.  A copy that returned has met none of that: it does the same
under a higher limit, its owner is known, and a mode that cannot be set was not
needed (`ready_of_returned`).
-/

namespace Kolla.SetConfigs

open Kolla.Lib

variable {β : Type}

namespace System

variable (sys : System β) (N : ℕ)

/-- The same container with another limit for recursions. -/
def deeper : System β := { sys with recursionLimit := N }

theorem iglob_deeper (t : FileTree β) (n : ℕ) (path : Path) (dironly : Bool) :
    (sys.deeper N).iglob t n path dironly = sys.iglob t n path dironly := by
  induction n generalizing path dironly with
  | zero => rfl
  | succ n ih =>
    rw [iglob, iglob, ih]
    rfl

theorem walkAux_deeper (t : FileTree β) (n : ℕ) (top : Path) :
    (sys.deeper N).walkAux t n top = sys.walkAux t n top := by
  induction n generalizing top with
  | zero => rfl
  | succ n ih =>
    rw [walkAux, walkAux]
    simp only [ih]
    rfl

theorem makedirsAux_deeper (n : ℕ) (path : Path) (existOk : Bool) :
    (sys.deeper N).makedirsAux n path existOk = sys.makedirsAux n path existOk := by
  induction n generalizing path with
  | zero => rfl
  | succ n ih =>
    rw [makedirsAux, makedirsAux]
    simp only [ih]
    rfl

theorem handlePermission_deeper (permission : Permission) :
    (sys.deeper N).handlePermission permission = sys.handlePermission permission := by
  unfold handlePermission glob walk
  simp only [iglob_deeper, walkAux_deeper]
  rfl

variable {sys N}

theorem removeContents_deeper {n n' : ℕ} (h : n ≤ n') (loc : Loc) :
    Refines (sys.removeContents n loc) ((sys.deeper N).removeContents n' loc) := by
  induction n generalizing n' loc with
  | zero => exact Refines.of_throw
  | succ n ih =>
    obtain ⟨n', rfl⟩ : ∃ k, n' = k + 1 := ⟨n' - 1, by omega⟩
    rw [removeContents, removeContents]
    refine Refines.bind (Refines.refl _) fun names => Refines.forM fun x _ => ?_
    refine Refines.bind (Refines.refl _) fun t => Refines.ite (fun _ => ?_) fun _ => Refines.refl _
    exact Refines.bind (ih (by omega) _) fun _ => Refines.refl _

theorem rmtree_deeper (h : sys.recursionLimit ≤ N) (path : Path) :
    Refines (sys.rmtree path) ((sys.deeper N).rmtree path) := by
  refine Refines.bind (Refines.refl _) fun t => ?_
  have hfind : (sys.deeper N).find t false path = sys.find t false path := rfl
  rw [hfind]
  cases sys.find t false path with
  | found loc n =>
    cases n with
    | dir a => exact Refines.bind (removeContents_deeper h loc) fun _ => Refines.refl _
    | file c a => exact Refines.of_throw
    | link target => exact Refines.of_throw
  | free loc slash => exact Refines.of_throw
  | failed e => exact Refines.of_throw

end System

namespace ConfigFile

variable {sys : System β} {self self' : ConfigFile} {N : ℕ}

theorem deletePath_deeper (h : sys.recursionLimit ≤ N) (path : Path) :
    Refines (deletePath sys path) (deletePath (sys.deeper N) path) :=
  Refines.bind (Refines.refl _) fun _ => Refines.ite (fun _ => Refines.refl _) fun _ =>
    Refines.ite (fun _ => System.rmtree_deeper h path) fun _ => Refines.refl _

theorem createParentDirs_deeper (path : Path) :
    createParentDirs (sys.deeper N) path = createParentDirs sys path := by
  unfold createParentDirs System.makedirs
  simp only [System.makedirsAux_deeper]
  rfl

/-- `file'` copies as `file` does, and sets the properties wherever `file` can. -/
structure Agrees (sys : System β) (file file' : ConfigFile) (N : ℕ) : Prop where
  dest : file'.dest = file.dest
  merge : file'.merge = file.merge
  preserveProperties : file'.preserveProperties = file.preserveProperties
  limit : sys.recursionLimit ≤ N
  setProperties : ∀ source dest,
    Refines (file.setProperties sys source dest) (file'.setProperties (sys.deeper N) source dest)

theorem Agrees.copyFile (h : Agrees sys self self' N) (source dest : Path) :
    Refines (self.copyFile sys source dest) (self'.copyFile (sys.deeper N) source dest) := by
  unfold ConfigFile.copyFile
  rw [h.merge, h.preserveProperties]
  refine Refines.bind (deletePath_deeper h.limit dest) fun _ => Refines.bind (Refines.refl _) fun t => ?_
  refine Refines.ite (fun _ => Refines.refl _) fun _ => ?_
  exact Refines.bind (Refines.refl _) fun _ => h.setProperties source dest

theorem Agrees.mergeDirectories (h : Agrees sys self self' N) {n n' : ℕ} (hn : n ≤ n')
    (source dest : Path) : Refines (self.mergeDirectories sys n source dest)
      (self'.mergeDirectories (sys.deeper N) n' source dest) := by
  induction n generalizing n' source dest with
  | zero => exact Refines.of_throw
  | succ n ih =>
    obtain ⟨n', rfl⟩ : ∃ k, n' = k + 1 := ⟨n' - 1, by omega⟩
    have hmake : ∀ path, (sys.deeper N).makedirs path false = sys.makedirs path false :=
      fun path => System.makedirsAux_deeper sys N path.length path false
    rw [ConfigFile.mergeDirectories, ConfigFile.mergeDirectories]
    refine Refines.bind (Refines.refl _) fun t => Refines.ite (fun _ => ?_) fun _ =>
      h.copyFile source dest
    refine Refines.bind (Refines.ite (fun _ => deletePath_deeper h.limit dest) fun _ =>
      Refines.refl _) fun _ => ?_
    refine Refines.bind (Refines.refl _) fun t' => ?_
    rw [hmake]
    refine Refines.bind (Refines.refl _) fun _ => Refines.bind (h.setProperties source dest) fun _ => ?_
    refine Refines.bind (Refines.refl _) fun names => Refines.forM fun x _ => ?_
    exact ih (by omega) _ _

theorem Agrees.copySource (h : Agrees sys self self' N) (source : Path) :
    Refines (self.copySource sys source) (self'.copySource (sys.deeper N) source) := by
  unfold ConfigFile.copySource
  rw [h.dest]
  cases self.dest with
  | none => exact Refines.of_throw
  | some dest =>
    dsimp only
    rw [h.merge, createParentDirs_deeper]
    refine Refines.bind (Refines.ite (fun _ => deletePath_deeper h.limit _) fun _ =>
      Refines.refl _) fun _ => Refines.bind (Refines.refl _) fun _ => ?_
    exact h.mergeDirectories h.limit source _

/-! ## Owners -/

/-- The owner is known. -/
def Known (sys : System β) (self : ConfigFile) : Prop :=
  ∃ owner uid gid, self.owner = some owner ∧
    sys.passwd.lookup (splitOwner owner).1 = some uid ∧
    sys.group.lookup (splitOwner owner).2 = some gid

theorem getpwnam_eq_ok {name : String} {uid : ℕ} {w w' : World β}
    (h : sys.getpwnam name w = .ok uid w') : sys.passwd.lookup name = some uid := by
  unfold System.getpwnam at h
  cases hname : sys.passwd.lookup name with
  | none =>
    rw [hname] at h
    exact absurd h throw_ne_ok
  | some n =>
    rw [hname] at h
    rw [(pure_eq_ok.mp h).1]

theorem getgrnam_eq_ok {name : String} {gid : ℕ} {w w' : World β}
    (h : sys.getgrnam name w = .ok gid w') : sys.group.lookup name = some gid := by
  unfold System.getgrnam at h
  cases hname : sys.group.lookup name with
  | none =>
    rw [hname] at h
    exact absurd h throw_ne_ok
  | some n =>
    rw [hname] at h
    rw [(pure_eq_ok.mp h).1]

theorem known_of_setProperties (hpreserve : self.preserveProperties = false) {source dest : Path}
    {w w' : World β} (h : self.setProperties sys source dest w = .ok () w') : Known sys self := by
  rw [setProperties, hpreserve, if_neg Bool.false_ne_true, setPropertiesFromConf,
    System.handlePermissions, forM_cons_eq_ok] at h
  obtain ⟨w₁, h, -⟩ := h
  unfold System.handlePermission at h
  obtain ⟨desired, w₂, howner, h⟩ := bind_eq_ok.mp h
  obtain ⟨uid, w₃, huid, h⟩ := bind_eq_ok.mp h
  obtain ⟨gid, w₄, hgid, -⟩ := bind_eq_ok.mp h
  dsimp only at howner
  rw [get_ofOption] at howner
  cases hself : self.owner with
  | none =>
    rw [hself] at howner
    exact absurd howner throw_ne_ok
  | some owner =>
    rw [hself] at howner
    obtain ⟨rfl, -⟩ := pure_eq_ok.mp howner
    exact ⟨owner, uid, gid, hself, getpwnam_eq_ok huid, getgrnam_eq_ok hgid⟩

theorem known_of_mergeDirectories (hpreserve : self.preserveProperties = false) {n : ℕ}
    {source dest : Path} {w w' : World β}
    (h : self.mergeDirectories sys n source dest w = .ok () w') : Known sys self := by
  cases n with
  | zero => exact absurd h throw_ne_ok
  | succ n =>
    rw [mergeDirectories, tree_bind] at h
    split at h
    · obtain ⟨_, w₁, -, h⟩ := bind_eq_ok.mp h
      rw [tree_bind] at h
      obtain ⟨_, w₂, -, h⟩ := bind_eq_ok.mp h
      obtain ⟨_, w₃, hset, -⟩ := bind_eq_ok.mp h
      exact known_of_setProperties hpreserve hset
    · unfold copyFile at h
      obtain ⟨_, w₁, -, h⟩ := bind_eq_ok.mp h
      rw [tree_bind, if_neg (by simp [hpreserve])] at h
      obtain ⟨_, w₂, -, hset⟩ := bind_eq_ok.mp h
      exact known_of_setProperties hpreserve hset

theorem known_of_copySource (hpreserve : self.preserveProperties = false) {source : Path}
    {w w' : World β} (h : self.copySource sys source w = .ok () w') : Known sys self := by
  unfold copySource at h
  cases hdest : self.dest with
  | none =>
    rw [hdest] at h
    exact absurd h throw_ne_ok
  | some dest =>
    rw [hdest] at h
    obtain ⟨_, w₁, -, h⟩ := bind_eq_ok.mp h
    obtain ⟨_, w₂, -, h⟩ := bind_eq_ok.mp h
    exact known_of_mergeDirectories hpreserve h

/-! ## Modes -/

/-- A mode that the kernel takes. -/
def InRange (mode : ℤ) : Prop := -2 ^ 31 ≤ mode ∧ mode < 2 ^ 31

theorem even_of_testBit {p : ℤ} {e : ℕ} (h : p.testBit e = false) : p / 2 ^ e % 2 = 0 := by
  cases p with
  | ofNat n =>
    have hn : Nat.testBit n e = false := h
    rw [Nat.testBit_eq_decide_div_mod_eq] at hn
    have hmod : n / 2 ^ e % 2 ≠ 1 := by simpa using hn
    have : ((n / 2 ^ e : ℕ) : ℤ) % 2 = 0 := by omega
    simpa using this
  | negSucc n =>
    have hn : Nat.testBit n e = true := by simpa [Int.testBit] using h
    rw [Nat.testBit_eq_decide_div_mod_eq] at hn
    have hmod : n / 2 ^ e % 2 = 1 := by simpa using hn
    have hdiv : Int.negSucc n / 2 ^ e = -(((n / 2 ^ e : ℕ) : ℤ) + 1) := by
      rw [Int.negSucc_ediv _ (Int.pow_pos (by decide)), Int.natCast_ediv, Int.natCast_pow]
      rfl
    rw [hdiv]
    omega

/-- The execute bits do not take a mode out of the range. -/
theorem inRange_withExecute (mode : ℤ) : InRange (withExecute mode) ↔ InRange mode := by
  have hbit : ∀ (p : ℤ) (read execute : ℕ), execute ∈ [0, 3, 6] →
      (InRange (if p.testBit read ∧ ¬ p.testBit execute then p + 2 ^ execute else p) ↔ InRange p) := by
    intro p read execute he
    split
    · rename_i hset
      have heven := even_of_testBit (by simpa using hset.2)
      simp only [List.mem_cons, List.not_mem_nil, or_false] at he
      unfold InRange
      rcases he with rfl | rfl | rfl <;> omega
    · rfl
  exact (hbit _ 2 0 (by simp)).trans ((hbit _ 5 3 (by simp)).trans (hbit _ 8 6 (by simp)))

theorem setMode_eq_ok {path : Path} {perm : String} {w w' : World β}
    (h : sys.setMode path perm w = .ok () w') :
    ∃ mode, intBase0 sys.toAscii (patchPerm perm.toList) = some mode ∧ InRange mode := by
  unfold System.setMode at h
  cases hmode : intBase0 sys.toAscii (patchPerm perm.toList) with
  | none =>
    rw [hmode] at h
    exact absurd h throw_ne_ok
  | some mode =>
    rw [hmode] at h
    refine ⟨mode, rfl, ?_⟩
    dsimp only at h
    rw [tree_bind] at h
    have hrange : InRange (if sys.isdir w.tree path then withExecute mode else mode) := by
      by_contra hno
      have hraise : sys.chmod path (if sys.isdir w.tree path then withExecute mode else mode) w
          = .error .overflowError w := by
        unfold InRange at hno
        rw [System.chmod, if_neg hno]
        rfl
      rw [logOSError, tryCatch_of_error hraise] at h
      exact absurd h throw_ne_ok
    split at hrange
    · exact (inRange_withExecute mode).mp hrange
    · exact hrange

/-- Where a mode that cannot be set was not needed, none would have done. -/
theorem setPerms_unset {perm : Option String} (hperm : ¬ sys.PermOk perm) (path : Path)
    (uid gid : ℕ) :
    Refines (sys.setPerms path uid gid perm) (sys.setPerms path uid gid none) := by
  intro w _ w' h
  unfold System.setPerms at h ⊢
  rw [tree_bind] at h ⊢
  by_cases hexists : sys.pathExists w.tree path = true
  · rw [when, if_pos hexists] at h
    obtain ⟨_, w₁, -, h⟩ := bind_eq_ok.mp h
    refine absurd ?_ hperm
    rintro text rfl htext
    dsimp only at h
    rw [when, if_pos htext] at h
    obtain ⟨mode, hmode, hrange⟩ := setMode_eq_ok h
    refine ⟨mode, hmode, fun m hm => ?_⟩
    rcases List.mem_pair.mp hm with rfl | rfl
    · exact hrange
    · exact (inRange_withExecute mode).mpr hrange
  · rw [when, if_neg hexists] at h ⊢
    exact h

theorem handlePermission_unset {permission : Permission} (hperm : ¬ sys.PermOk permission.perm.get)
    (hrecurse : permission.recurse.truthy = false) :
    Refines (sys.handlePermission permission)
      (sys.handlePermission { permission with perm := .null }) := by
  unfold System.handlePermission
  refine Refines.bind (Refines.refl _) fun desired => Refines.bind (Refines.refl _) fun uid =>
    Refines.bind (Refines.refl _) fun gid => ?_
  cases permission.path.get with
  | none => exact Refines.of_throw
  | some path =>
    refine Refines.bind (Refines.refl _) fun t => Refines.forM fun dest _ => ?_
    refine Refines.bind (setPerms_unset hperm dest uid gid) fun _ => ?_
    refine Refines.bind (Refines.refl _) fun t => Refines.ite (fun h => ?_) fun _ => Refines.refl _
    rw [hrecurse] at h
    exact absurd h.1 Bool.false_ne_true

/-- The entry without its mode. -/
def unset (self : ConfigFile) : ConfigFile := { self with perm := none }

theorem setProperties_unset (hperm : ¬ sys.PermOk self.perm) (source dest : Path) :
    Refines (self.setProperties sys source dest) (self.unset.setProperties sys source dest) := by
  unfold setProperties
  refine Refines.ite (fun _ => Refines.refl _) fun _ => ?_
  intro w _ w' h
  obtain ⟨w₁, hrun, hnil⟩ := forM_cons_eq_ok.mp h
  refine forM_cons_eq_ok.mpr ⟨w₁, ?_, hnil⟩
  refine @handlePermission_unset _ sys ⟨_, _, _, _, _⟩ ?_ rfl _ _ _ hrun
  rwa [get_ofOption]

theorem setProperties_deeper (source dest : Path) :
    self.setProperties (sys.deeper N) source dest = self.setProperties sys source dest := by
  unfold setProperties setPropertiesFromConf System.handlePermissions
  have hpermission : (sys.deeper N).handlePermission = sys.handlePermission :=
    funext fun permission => System.handlePermission_deeper sys N permission
  rw [hpermission]
  rfl

theorem agrees_deeper (hlimit : sys.recursionLimit ≤ N) : Agrees sys self self N where
  dest := rfl
  merge := rfl
  preserveProperties := rfl
  limit := hlimit
  setProperties source dest := by
    rw [setProperties_deeper]
    exact Refines.refl _

/-- A copy that returned is that of an entry whose owner and mode can be set, in a
container with any higher limit. -/
theorem ready_of_returned (hlimit : sys.recursionLimit ≤ N) {source : Path} {w w' : World β}
    (hrun : self.copySource sys source w = .ok () w') :
    ∃ self', Agrees sys self self' N ∧
      (self'.preserveProperties = false → ∃ G, Grants (sys.deeper N) self' G) ∧
      self'.copySource (sys.deeper N) source w = .ok () w' := by
  by_cases hperm : sys.PermOk self.perm
  · have hagrees : Agrees sys self self N := agrees_deeper hlimit
    refine ⟨self, hagrees, fun hpreserve => ?_, hagrees.copySource source w _ w' hrun⟩
    obtain ⟨owner, uid, gid, howner, huid, hgid⟩ := known_of_copySource hpreserve hrun
    exact ⟨_, owner, uid, gid, howner, huid, hgid, hperm, rfl⟩
  · have hagrees : Agrees sys self self.unset N :=
      ⟨rfl, rfl, rfl, hlimit, fun source dest => by
        rw [setProperties_deeper]
        exact setProperties_unset hperm source dest⟩
    refine ⟨self.unset, hagrees, fun hpreserve => ?_, hagrees.copySource source w _ w' hrun⟩
    obtain ⟨owner, uid, gid, howner, huid, hgid⟩ := @known_of_copySource _ sys self hpreserve _ _ _ hrun
    exact ⟨_, owner, uid, gid, howner, huid, hgid, nofun, rfl⟩

end ConfigFile

/-- There is a limit that no location in the tree comes up against. -/
theorem exists_limit (t : FileTree β) (N₀ : ℕ) :
    ∃ N, N₀ ≤ N ∧ ∀ l n, t.lookup l = some n → l.length < N := by
  refine ⟨N₀ + (t.nodes.map fun e => e.1.length).sum + 1, by omega, fun l n hn => ?_⟩
  have hmem : l.length ∈ t.nodes.map fun e => e.1.length :=
    List.mem_map.mpr ⟨(l, n), FileTree.lookup_eq_some_iff.mp hn, rfl⟩
  have := List.le_sum_of_mem hmem
  omega

end Kolla.SetConfigs
