import Kolla.SetConfigs.Check
import Kolla.SetConfigs.Grants

/-!
# `exclude`

The names in `exclude` are to be left alone when an entry of `permissions` is
recursive.  `handle_exclusion` looks at one expression at a time and calls
`set_perms` for each one that does not match, so that a path is passed over only
where all of them match it.  `Respected` says what `exclude` is for, and
`respected_iff` when that is what happens.
-/

namespace Kolla.SetConfigs

open Kolla.Lib

variable {β : Type}

namespace System

variable (sys : System β)

/-- One of the expressions matches the text. -/
def Excluded (exclude : List String) (text : String) : Prop :=
  ∃ e ∈ exclude, sys.search e text = some true

/-- The path of a node strictly below a match of the path of the entry. -/
def Beneath (path : Path) (t : FileTree β) (l : Loc) (fullPath : Path) : Prop :=
  ∃ dest ∈ sys.glob t path, ∃ loc n rel, sys.find t true dest = .found loc n ∧ rel ≠ [] ∧
    l = loc ++ rel ∧ fullPath = Path.under dest rel

/-- Below the path of the entry, a node is painted if no expression matches its
path, and kept if one does. -/
structure Respected (path : Path) (exclude : List String) (G : Paint β) (t t' : FileTree β) :
    Prop where
  changed : ∀ l fullPath n, sys.Beneath path t l fullPath → t.lookup l = some n →
    ¬ sys.Excluded exclude (Path.text fullPath) → t'.lookup l = some (G.map n)
  kept : ∀ l fullPath n, sys.Beneath path t l fullPath → t.lookup l = some n →
    sys.Excluded exclude (Path.text fullPath) → t'.lookup l = some n

/-- No match of the path of the entry leads to the node, and all expressions
match each of its paths below one. -/
def Spared (path : Path) (exclude : List String) (t : FileTree β) (l : Loc) : Prop :=
  (∀ dest ∈ sys.glob t path, l ∉ sys.leadsTo t dest) ∧
    ∀ fullPath, sys.Beneath path t l fullPath →
      ∀ e ∈ exclude, sys.search e (Path.text fullPath) = some true

variable {sys : System β} {permission : Permission} {path : Path} {uid gid : ℕ} {t : FileTree β}

/-- Without links, a path below a directory leads to what it names. -/
theorem leadsTo_under (ht : t.LinkFree) {dest : Path} {loc rel : Loc} {a : Attr} {n : Node β}
    (hfind : sys.find t true dest = .found loc (.dir a)) (hne : rel ≠ [])
    (hn : t.lookup (loc ++ rel) = some n) :
    sys.leadsTo t (Path.under dest rel) = {loc ++ rel} := by
  have hlink : n.isLink = false := by
    cases n with
    | file c a => rfl
    | dir a => rfl
    | link target => exact absurd hn (ht _ target)
  have hunder := @find_under _ sys t true dest loc a rel n hfind hne hn fun _ => hlink
  ext l
  constructor
  · rintro ⟨m, hm⟩
    rw [hunder] at hm
    cases hm
    rfl
  · rintro rfl
    exact ⟨n, hunder⟩

/-- What a recursive entry comes to in a tree without links. -/
theorem mem_reached_iff (ht : t.LinkFree) (hrecurse : permission.recurse.truthy = true) {l : Loc}
    {n : Node β} (hn : t.lookup l = some n) :
    l ∈ sys.reached permission path t ↔
      (∃ dest ∈ sys.glob t path, l ∈ sys.leadsTo t dest) ∨
        ∃ fullPath, sys.Beneath path t l fullPath ∧
          sys.Asked (permission.exclude.get.getD []) (Path.text fullPath) := by
  constructor
  · rintro ⟨dest, hdest, hl | ⟨-, loc, a, rel, hfind, hne, ⟨m, hm⟩, hl, hasked⟩⟩
    · exact Or.inl ⟨dest, hdest, hl⟩
    · rw [leadsTo_under ht hfind hne hm] at hl
      exact Or.inr ⟨_, ⟨dest, hdest, loc, _, rel, hfind, hne, hl, rfl⟩, hasked⟩
  · rintro (⟨dest, hdest, hl⟩ | ⟨_, ⟨dest, hdest, loc, m, rel, hfind, hne, rfl, rfl⟩, hasked⟩)
    · exact ⟨dest, hdest, Or.inl hl⟩
    · -- what has something below it is a directory
      obtain ⟨a, ha⟩ := FileTree.ancestor_dir hn hne
      rw [lookup_of_resolve hfind] at ha
      cases ha
      refine ⟨dest, hdest, Or.inr ⟨hrecurse, loc, a, rel, hfind, hne, ⟨n, hn⟩, ?_, hasked⟩⟩
      rw [leadsTo_under ht hfind hne hn]
      rfl

theorem asked_of_not_excluded {exclude : List String} (hsearch : SearchOk sys exclude)
    {text : String} (h : ¬ sys.Excluded exclude text) : sys.Asked exclude text := by
  cases exclude with
  | nil => exact Or.inl rfl
  | cons e exclude =>
    refine Or.inr ⟨e, List.mem_cons_self, ?_⟩
    cases hs : sys.search e text with
    | none => exact absurd hs (hsearch e List.mem_cons_self text)
    | some found =>
      cases found with
      | false => rfl
      | true => exact absurd ⟨e, List.mem_cons_self, hs⟩ h

theorem not_asked_iff {exclude : List String} (hsearch : SearchOk sys exclude) {text : String}
    (h : sys.Excluded exclude text) :
    ¬ sys.Asked exclude text ↔ ∀ e ∈ exclude, sys.search e text = some true := by
  constructor
  · intro hasked e he
    cases hs : sys.search e text with
    | none => exact absurd hs (hsearch e he text)
    | some found =>
      cases found with
      | false => exact absurd (Or.inr ⟨e, he, hs⟩) hasked
      | true => rfl
  · rintro hall (rfl | ⟨e, he, hs⟩)
    · obtain ⟨e, he, -⟩ := h
      exact List.not_mem_nil he
    · rw [hall e he] at hs
      cases hs

/-- A tree in which the right nodes of `reached` are painted respects `exclude`
just if each node that an expression matches is spared or painted already. -/
theorem respected_iff_of_painted (ht : t.LinkFree) (hrecurse : permission.recurse.truthy = true)
    (hsearch : SearchOk sys (permission.exclude.get.getD [])) {G : Paint β} {t' : FileTree β}
    (hp : Painted G (sys.reached permission path t) t t') :
    sys.Respected path (permission.exclude.get.getD []) G t t' ↔
      ∀ l fullPath n, sys.Beneath path t l fullPath → t.lookup l = some n →
        sys.Excluded (permission.exclude.get.getD []) (Path.text fullPath) →
        G.map n = n ∨ sys.Spared path (permission.exclude.get.getD []) t l := by
  constructor
  · intro h l fullPath n hbeneath hn hexcluded
    have hkept := h.kept l fullPath n hbeneath hn hexcluded
    by_cases hl : l ∈ sys.reached permission path t
    · left
      rw [hp.inside l hl, hn] at hkept
      exact Option.some.inj hkept
    · right
      rw [mem_reached_iff ht hrecurse hn, not_or] at hl
      refine ⟨fun dest hdest hmem => hl.1 ⟨dest, hdest, hmem⟩, fun full_path' hbeneath' => ?_⟩
      have hnot : ¬ sys.Asked (permission.exclude.get.getD []) (Path.text full_path') :=
        fun hasked => hl.2 ⟨full_path', hbeneath', hasked⟩
      have hexcluded' : sys.Excluded (permission.exclude.get.getD []) (Path.text full_path') :=
        by_contra fun hno => hnot (asked_of_not_excluded hsearch hno)
      exact (not_asked_iff hsearch hexcluded').mp hnot
  · intro h
    constructor
    · intro l fullPath n hbeneath hn hno
      have hl : l ∈ sys.reached permission path t :=
        (mem_reached_iff ht hrecurse hn).mpr
          (Or.inr ⟨fullPath, hbeneath, asked_of_not_excluded hsearch hno⟩)
      rw [hp.inside l hl, hn]
      rfl
    · intro l fullPath n hbeneath hn hexcluded
      by_cases hl : l ∈ sys.reached permission path t
      · rw [hp.inside l hl, hn]
        rcases h l fullPath n hbeneath hn hexcluded with hsame | hspared
        · rw [Option.map_some, hsame]
        · rcases (mem_reached_iff ht hrecurse hn).mp hl with ⟨dest, hdest, hmem⟩ | ⟨p, hp', hasked⟩
          · exact absurd hmem (hspared.1 dest hdest)
          · obtain ⟨e, he, -⟩ := hexcluded
            have hall := hspared.2 p hp'
            exact absurd hasked ((not_asked_iff hsearch ⟨e, he, hall e he⟩).mpr hall)
      · rw [hp.outside l hl, hn]

/-- `set_perms` is called or not, whatever the order of the expressions. -/
theorem asked_perm {exclude exclude' : List String} (h : exclude'.Perm exclude) (text : String) :
    sys.Asked exclude' text ↔ sys.Asked exclude text := by
  simp only [Asked, h.mem_iff, ← List.length_eq_zero_iff, h.length_eq]

/-- An entry with its expressions in another order. -/
def reordered (permission : Permission) (exclude : List String) : Permission :=
  { permission with exclude := .given exclude }

theorem Feasible.reordered (h : Feasible sys permission path uid gid) {exclude : List String}
    (hperm : exclude.Perm (permission.exclude.get.getD [])) :
    Feasible sys (System.reordered permission exclude) path uid gid :=
  ⟨h.path, h.owner, h.perm, fun e he => h.search e (hperm.mem_iff.mp he)⟩

theorem reached_reordered {exclude : List String}
    (hperm : exclude.Perm (permission.exclude.get.getD [])) :
    sys.reached (reordered permission exclude) path t = sys.reached permission path t := by
  have hasked : ∀ text, sys.Asked ((reordered permission exclude).exclude.get.getD []) text ↔
      sys.Asked (permission.exclude.get.getD []) text := asked_perm hperm
  unfold reached below
  simp only [hasked]
  rfl

theorem handlePermissions_singleton {w w' : World β}
    (h : sys.handlePermission permission w = .ok () w') :
    sys.handlePermissions [permission] w = .ok () w' :=
  forM_cons_eq_ok.mpr ⟨w', h, rfl⟩

/-- A recursive entry respects `exclude` just if each node that one expression
matches is matched by all of them, or has the owner and the mode already.  The
order of the expressions does not matter. -/
theorem respected_iff (hfeasible : Feasible sys permission path uid gid)
    (hrecurse : permission.recurse.truthy = true) {w : World β} (hw : Calm w)
    (ht : w.tree.LinkFree) :
    ∃ w', sys.handlePermissions [permission] w = .ok () w' ∧
      ((sys.Respected path (permission.exclude.get.getD []) (sys.grant uid gid permission.perm.get)
          w.tree w'.tree ∧
        ∀ exclude, exclude.Perm (permission.exclude.get.getD []) →
          ∃ w'', sys.handlePermissions [reordered permission exclude] w = .ok () w'' ∧
            ∀ l, w''.tree.lookup l = w'.tree.lookup l) ↔
        ∀ l fullPath n, sys.Beneath path w.tree l fullPath → w.tree.lookup l = some n →
          sys.Excluded (permission.exclude.get.getD []) (Path.text fullPath) →
          (sys.grant uid gid permission.perm.get).map n = n ∨
            sys.Spared path (permission.exclude.get.getD []) w.tree l) := by
  obtain ⟨w', hrun, -, hp⟩ := handlePermission_of_calm hfeasible hw
  refine ⟨w', handlePermissions_singleton hrun, ?_⟩
  rw [← respected_iff_of_painted ht hrecurse hfeasible.search hp, and_iff_left_iff_imp]
  intro _ exclude hperm
  obtain ⟨w'', hrun', -, hp'⟩ := handlePermission_of_calm (hfeasible.reordered hperm) hw
  refine ⟨w'', handlePermissions_singleton hrun', fun l => ?_⟩
  rw [reached_reordered hperm] at hp'
  by_cases hl : l ∈ sys.reached permission path w.tree
  · rw [hp.inside l hl, hp'.inside l hl]
    rfl
  · rw [hp.outside l hl, hp'.outside l hl]

/-! ## Two expressions -/

/-- `rootSystem` with expressions that stand for themselves. -/
def searchSystem : System Content :=
  { rootSystem with search := fun e text => some (decide (e.toList <:+: text.toList)) }

def keyTree : FileTree Content where
  nodes :=
    [([], rootDir), (["data"], rootDir), (["data", "a.key"], rootFile "k"),
      (["data", "b.pem"], rootFile "p")]
  nodup := by decide
  root := by decide
  closed := by decide
  proper := by decide

/-- The directory with its files goes to another user. -/
def keyPermission (exclude : List String) : Permission where
  path := .given ["", "data"]
  owner := .given "nova"
  recurse := .given true
  perm := .given "0600"
  exclude := .given exclude

theorem linkFree_keyTree : keyTree.LinkFree := by
  intro loc target h
  have hmem := FileTree.lookup_eq_some_iff.mp h
  simp [keyTree, rootDir, rootFile] at hmem

theorem feasible_keyPermission (exclude : List String) :
    Feasible searchSystem (keyPermission exclude) ["", "data"] 42436 42436 where
  path := rfl
  owner := ⟨"nova", rfl, by decide +kernel, by decide +kernel⟩
  perm := by
    rintro text ⟨⟩ -
    exact ⟨0o600, by decide +kernel, by decide⟩
  search e _ text := nofun

theorem leadsTo_keyTree {dest : Path} (hdest : dest ∈ searchSystem.glob keyTree ["", "data"])
    {loc : Loc} {n : Node Content} (hfind : searchSystem.find keyTree true dest = .found loc n) :
    dest = ["", "data"] ∧ loc = ["data"] := by
  have hglob : searchSystem.glob keyTree ["", "data"] = [["", "data"]] := by decide +kernel
  have hdata : searchSystem.find keyTree true ["", "data"] = .found ["data"] rootDir := by
    decide +kernel
  rw [hglob, List.mem_singleton] at hdest
  subst hdest
  rw [hdata] at hfind
  cases hfind
  exact ⟨rfl, rfl⟩

/-- `respected_iff` for one expression: the keys are left alone. -/
theorem respected_key :
    ∃ w', searchSystem.handlePermissions [keyPermission ["key"]] ⟨keyTree, []⟩ = .ok () w' ∧
      searchSystem.Respected ["", "data"] ["key"] (searchSystem.grant 42436 42436 (some "0600"))
        keyTree w'.tree := by
  have hcalm : Calm (⟨keyTree, []⟩ : World Content) := fun _ h => by cases h
  obtain ⟨w', hrun, hiff⟩ :=
    respected_iff (feasible_keyPermission ["key"]) rfl hcalm linkFree_keyTree
  refine ⟨w', hrun, (hiff.mpr ?_).1⟩
  rintro _ _ n ⟨dest, hdest, loc, m, rel, hfind, hne, rfl, rfl⟩ hn ⟨e, he, hmatch⟩
  obtain ⟨rfl, rfl⟩ := leadsTo_keyTree hdest hfind
  refine Or.inr ⟨?_, ?_⟩
  · rintro dest' hdest' ⟨m', hfind'⟩
    obtain ⟨-, hloc⟩ := leadsTo_keyTree hdest' hfind'
    exact hne (List.append_right_eq_self.mp hloc)
  · rintro _ ⟨dest', hdest', loc', m', rel', hfind', -, hrel, rfl⟩ e' he'
    obtain ⟨rfl, rfl⟩ := leadsTo_keyTree hdest' hfind'
    obtain rfl := List.append_cancel_left hrel
    rw [List.mem_singleton.mp he', ← List.mem_singleton.mp he]
    exact hmatch

/-- Each of the two files is matched by one expression, and both change hands. -/
theorem two_expressions :
    ∃ w', searchSystem.handlePermissions [keyPermission ["key", "pem"]] ⟨keyTree, []⟩
        = .ok () w' ∧
      ¬ searchSystem.Respected ["", "data"] ["key", "pem"]
        (searchSystem.grant 42436 42436 (some "0600")) keyTree w'.tree := by
  refine ⟨_, eq_ok_of_answer (by decide +kernel), fun h => ?_⟩
  have hkept := h.kept ["data", "a.key"] ["", "data", "a.key"] (rootFile "k")
    ⟨["", "data"], by decide +kernel, ["data"], rootDir, ["a.key"], by decide +kernel,
      by decide, rfl, by decide⟩ (by decide +kernel) ⟨"key", by decide, by decide +kernel⟩
  revert hkept
  decide +kernel

end System

end Kolla.SetConfigs
