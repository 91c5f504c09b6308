import Kolla.SetConfigs.Grants
import Kolla.Lib.Anchor

/-!
# Operations that complete

What the operations of `ConfigFile` do when nothing goes wrong for a reason of
its own: that they return, and the tree that they leave.  A path is known by
the location that it `Reaches`.
-/

namespace Kolla.SetConfigs

open Kolla.Lib

variable {β α : Type}

/-! ## Deletions -/

/-- The nodes in `E` are gone, and the others are as they were. -/
structure Cleared (E : Set Loc) (t t' : FileTree β) : Prop where
  inside : ∀ l ∈ E, t'.lookup l = none
  outside : ∀ l, l ∉ E → t'.lookup l = t.lookup l

namespace Cleared

variable {E E' : Set Loc} {t t' t'' : FileTree β}

theorem refl (t : FileTree β) : Cleared ∅ t t := ⟨fun _ h => h.elim, fun _ _ => rfl⟩

theorem trans (h : Cleared E t t') (h' : Cleared E' t' t'') : Cleared (E ∪ E') t t'' := by
  constructor
  · intro l hl
    by_cases hl' : l ∈ E'
    · exact h'.inside l hl'
    · rw [h'.outside l hl', h.inside l (hl.resolve_right hl')]
  · intro l hl
    rw [Set.mem_union, not_or] at hl
    rw [h'.outside l hl.2, h.outside l hl.1]

/-- Only the locations where something stands count. -/
theorem congr (h : Cleared E t t') (hE : ∀ l n, t.lookup l = some n → (l ∈ E ↔ l ∈ E')) :
    Cleared E' t t' := by
  constructor
  · intro l hl
    by_cases hl' : l ∈ E
    · exact h.inside l hl'
    · rw [h.outside l hl']
      by_contra hsome
      obtain ⟨n, hn⟩ := Option.ne_none_iff_exists'.mp hsome
      exact hl' ((hE l n hn).mpr hl)
  · intro l hl
    cases hn : t.lookup l with
    | none =>
      by_cases hl' : l ∈ E
      · exact h.inside l hl'
      · rw [h.outside l hl', hn]
    | some n => rw [h.outside l (fun hl' => hl ((hE l n hn).mp hl')), hn]

theorem alikeOff (h : Cleared E t t') {R : Set Loc} (hR : E ⊆ R) : AlikeOff R t t' :=
  fun l hl => by rw [h.outside l fun hE => hl (hR hE)]

theorem erase {l : Loc} (hroot : l ≠ []) (hnames : t.names l = []) : Cleared {l} t (t.erase l) := by
  constructor
  · rintro l' rfl
    rw [FileTree.lookup_erase hroot hnames, if_pos rfl]
  · intro l' hl'
    have hne : l' ≠ l := hl'
    rw [FileTree.lookup_erase hroot hnames, if_neg hne]

end Cleared

namespace System

variable {sys : System β}

theorem atNode_of_calm {w : World β} (hw : Calm w) {l : Loc} {n : Node β}
    (hn : w.tree.lookup l = some n)
    {f : FileTree β → Loc → Node β → Except Errno (α × FileTree β)} {a : α} {t : FileTree β}
    (h : f w.tree l n = .ok (a, t)) : atNode l f w = .ok a ⟨t, w.faults.tail⟩ := by
  refine syscall_of_calm hw ?_
  rw [hn]
  exact h

/-- Unlinking a file or a link. -/
theorem unlinkAt_of_lookup {t : FileTree β} {l : Loc} {n : Node β} (hn : t.lookup l = some n)
    (hdir : n.isDir = false) :
    unlinkAt t l n = .ok ((), t.erase l) ∧ Cleared {l' | l <+: l'} t (t.erase l) := by
  have hroot : l ≠ [] := by
    rintro rfl
    obtain ⟨a, ha⟩ := t.root_dir
    rw [hn] at ha
    cases ha
    cases hdir
  have hnames := names_eq_nil hn hdir
  refine ⟨by rw [unlinkAt, hdir, if_neg Bool.false_ne_true], (Cleared.erase hroot hnames).congr ?_⟩
  intro l' m hm
  constructor
  · rintro rfl
    exact List.prefix_refl _
  · rintro ⟨rel, rfl⟩
    by_contra hne
    have hrel : rel ≠ [] := fun h => hne (by rw [h, List.append_nil]; rfl)
    obtain ⟨a, ha⟩ := FileTree.ancestor_dir hm hrel
    rw [hn] at ha
    cases ha
    cases hdir

/-- Removing an empty directory. -/
theorem rmdirAt_of_empty {t : FileTree β} {l : Loc} {a : Attr} (hroot : l ≠ [])
    (hempty : ∀ rel, rel ≠ [] → t.lookup (l ++ rel) = none) :
    rmdirAt t l (.dir a) = .ok ((), t.erase l) ∧ Cleared {l} t (t.erase l) := by
  have hnames : t.names l = [] := by
    refine List.eq_nil_iff_forall_not_mem.mpr fun x hx => ?_
    obtain ⟨n, hn⟩ := FileTree.mem_names.mp hx
    rw [hempty [x] (List.cons_ne_nil _ _)] at hn
    cases hn
  refine ⟨?_, Cleared.erase hroot hnames⟩
  rw [rmdirAt, if_neg (by simp [Node.isDir]), if_neg (by simp [hroot, hnames])]

/-- The places strictly below a location. -/
def strictlyBelow (l : Loc) : Set Loc := {l' | ∃ rel, rel ≠ [] ∧ l' = l ++ rel}

/-- One entry of a directory is removed. -/
theorem removeEntry_of_calm {n : ℕ}
    (ih : ∀ {w : World β} {l : Loc}, Calm w → (∃ a, w.tree.lookup l = some (.dir a)) →
      (∀ rel, w.tree.isDir (l ++ rel) = true → rel.length < n) →
      ∃ w', sys.removeContents n l w = .ok () w' ∧ Calm w' ∧
        Cleared (strictlyBelow l) w.tree w'.tree)
    {w : World β} (hw : Calm w) {l : Loc} (hroot : l ≠ []) {m : Node β}
    (hm : w.tree.lookup l = some m)
    (hdepth : ∀ rel, w.tree.isDir (l ++ rel) = true → rel.length < n) :
    ∃ w', (do
        let t ← tree
        if t.isDir l then
          sys.removeContents n l
          atNode l rmdirAt
        else atNode l unlinkAt : Os β Unit) w = .ok () w' ∧ Calm w' ∧
      Cleared {l' | l <+: l'} w.tree w'.tree := by
  rw [SetConfigs.tree_bind]
  by_cases hdir : w.tree.isDir l = true
  · obtain ⟨a, ha⟩ := FileTree.isDir_iff.mp hdir
    obtain ⟨w₁, hrun, hw₁, hc⟩ := ih hw ⟨a, ha⟩ hdepth
    have ha₁ : w₁.tree.lookup l = some (.dir a) := by
      rw [hc.outside l, ha]
      rintro ⟨rel, hrel, hl⟩
      exact hrel (List.append_right_eq_self.mp hl.symm)
    obtain ⟨hrmdir, hc₁⟩ := @rmdirAt_of_empty _ w₁.tree l a hroot fun rel hrel =>
      hc.inside _ ⟨rel, hrel, rfl⟩
    refine ⟨_, ?_, hw₁.tail _, (hc.trans hc₁).congr ?_⟩
    · rw [if_pos hdir, bind_of_ok hrun]
      exact atNode_of_calm hw₁ ha₁ hrmdir
    · intro l' _ _
      constructor
      · rintro (⟨rel, -, rfl⟩ | rfl)
        · exact List.prefix_append _ _
        · exact List.prefix_refl _
      · rintro ⟨rel, rfl⟩
        by_cases hrel : rel = []
        · exact Or.inr (by rw [hrel, List.append_nil]; rfl)
        · exact Or.inl ⟨rel, hrel, rfl⟩
  · have hnot : m.isDir = false := by
      cases m with
      | dir a => exact absurd (FileTree.isDir_iff.mpr ⟨a, hm⟩) hdir
      | file c a => rfl
      | link target => rfl
    obtain ⟨hunlink, hc⟩ := unlinkAt_of_lookup hm hnot
    refine ⟨_, ?_, hw.tail _, hc⟩
    rw [if_neg hdir]
    exact atNode_of_calm hw hm hunlink

/-- The entries of a directory are removed one after the other. -/
theorem removeEntries_of_calm {n : ℕ}
    (ih : ∀ {w : World β} {l : Loc}, Calm w → (∃ a, w.tree.lookup l = some (.dir a)) →
      (∀ rel, w.tree.isDir (l ++ rel) = true → rel.length < n) →
      ∃ w', sys.removeContents n l w = .ok () w' ∧ Calm w' ∧
        Cleared (strictlyBelow l) w.tree w'.tree)
    {l : Loc} {names : List String} (hnodup : names.Nodup) {w : World β} (hw : Calm w)
    (hnames : ∀ x ∈ names, ∃ m, w.tree.lookup (l ++ [x]) = some m)
    (hdepth : ∀ x ∈ names, ∀ rel, w.tree.isDir (l ++ [x] ++ rel) = true → rel.length < n) :
    ∃ w', (names.forM fun x => do
        let t ← tree
        if t.isDir (l ++ [x]) then
          sys.removeContents n (l ++ [x])
          atNode (l ++ [x]) rmdirAt
        else atNode (l ++ [x]) unlinkAt : Os β Unit) w = .ok () w' ∧ Calm w' ∧
      Cleared {l' | ∃ x ∈ names, l ++ [x] <+: l'} w.tree w'.tree := by
  induction names generalizing w with
  | nil => exact ⟨w, rfl, hw, (Cleared.refl _).congr fun l' _ _ => by simp⟩
  | cons x names ih' =>
    obtain ⟨hx, hnodup⟩ := List.nodup_cons.mp hnodup
    obtain ⟨m, hm⟩ := hnames x List.mem_cons_self
    obtain ⟨w₁, hrun, hw₁, hc⟩ := removeEntry_of_calm ih hw (by simp) hm
      (hdepth x List.mem_cons_self)
    -- the other entries are still there
    have hkeep : ∀ y ∈ names, ∀ rel,
        w₁.tree.lookup (l ++ [y] ++ rel) = w.tree.lookup (l ++ [y] ++ rel) := by
      intro y hy rel
      have hne : x ≠ y := fun heq => hx (heq ▸ hy)
      exact hc.outside _ ((Apart.of_ne hne l).symm.not_prefix_append rel)
    obtain ⟨w₂, hrun₂, hw₂, hc₂⟩ := ih' hnodup hw₁
      (fun y hy => by
        obtain ⟨k, hk⟩ := hnames y (List.mem_cons_of_mem _ hy)
        refine ⟨k, ?_⟩
        have hsame := hkeep y hy []
        rw [List.append_nil] at hsame
        rw [hsame, hk])
      (fun y hy rel hdir => by
        refine hdepth y (List.mem_cons_of_mem _ hy) rel ?_
        rwa [FileTree.isDir_iff, ← hkeep y hy rel, ← FileTree.isDir_iff])
    refine ⟨w₂, forM_cons_eq_ok.mpr ⟨w₁, hrun, hrun₂⟩, hw₂, (hc.trans hc₂).congr fun l' _ _ => ?_⟩
    simp

/-- Everything in a directory is removed. -/
theorem removeContents_of_calm (n : ℕ) {w : World β} {l : Loc} (hw : Calm w)
    (hl : ∃ a, w.tree.lookup l = some (.dir a))
    (hdepth : ∀ rel, w.tree.isDir (l ++ rel) = true → rel.length < n) :
    ∃ w', sys.removeContents n l w = .ok () w' ∧ Calm w' ∧
      Cleared (strictlyBelow l) w.tree w'.tree := by
  induction n generalizing w l with
  | zero =>
    have := hdepth [] (by rwa [List.append_nil, FileTree.isDir_iff])
    cases this
  | succ n ih =>
    obtain ⟨a, ha⟩ := hl
    have hmem : ∀ x, x ∈ sys.listed l (w.tree.names l) ↔ ∃ m, w.tree.lookup (l ++ [x]) = some m :=
      fun x => by rw [(sys.listed_perm _ _).mem_iff, FileTree.mem_names]
    have hlist : atNode l (fun t loc _ => .ok (sys.listed loc (t.names loc), t)) w
        = .ok (sys.listed l (w.tree.names l)) ⟨w.tree, w.faults.tail⟩ := atNode_of_calm hw ha rfl
    obtain ⟨w', hrun, hw', hc⟩ := removeEntries_of_calm (w := ⟨w.tree, w.faults.tail⟩) ih
      ((sys.listed_perm l _).nodup_iff.mpr (w.tree.nodup_names l)) (hw.tail _)
      (fun x hx => (hmem x).mp hx) (fun x _ rel hdir => by
        have := hdepth ([x] ++ rel) (by rwa [← List.append_assoc])
        simpa using this)
    refine ⟨w', ?_, hw', hc.congr fun l' m hm => ?_⟩
    · rw [removeContents, bind_of_ok hlist]
      exact hrun
    · constructor
      · rintro ⟨x, -, rel, rfl⟩
        exact ⟨x :: rel, List.cons_ne_nil _ _, by simp⟩
      · rintro ⟨rel, hrel, rfl⟩
        obtain ⟨x, rel, rfl⟩ := List.exists_cons_of_ne_nil hrel
        rw [List.append_cons] at hm ⊢
        refine ⟨x, (hmem x).mpr ?_, List.prefix_append _ _⟩
        by_cases hnil : rel = []
        · exact ⟨m, by rwa [hnil, List.append_nil] at hm⟩
        · obtain ⟨b, hb⟩ := FileTree.ancestor_dir hm hnil
          exact ⟨_, hb⟩

/-! ## Paths -/

/-- The path leads to the location. -/
abbrev Reaches (sys : System β) (t : FileTree β) (path : Path) (L : Loc) : Prop :=
  Lib.Reaches sys.maxLinks sys.cwd t path L

/-- It does so whatever happens in the region. -/
abbrev Anchored (sys : System β) (R : Set Loc) (t : FileTree β) (path : Path) (L : Loc) : Prop :=
  Lib.Anchored R sys.maxLinks sys.cwd t path L

section Reaches

variable {t : FileTree β} {path : Path} {L : Loc} (h : sys.Reaches t path L)
include h

theorem find_of_reaches {follow : Bool} {n : Node β} (hn : t.lookup L = some n)
    (hlink : follow = true → n.isLink = false) : sys.find t follow path = .found L n :=
  h.found follow n hn hlink

theorem find_nofollow {n : Node β} (hn : t.lookup L = some n) : sys.find t false path = .found L n :=
  h.found false n hn nofun

theorem find_free {follow : Bool} (hnone : t.lookup L = none) (hparent : t.isDir L.dropLast = true) :
    sys.find t follow path = .free L false :=
  h.free follow hnone hparent

theorem lexists_of_reaches (hparent : t.isDir L.dropLast = true) :
    sys.lexists t path = (t.lookup L).isSome := by
  cases hn : t.lookup L with
  | none =>
    rw [lexists, find_free h hn hparent]
    rfl
  | some n =>
    rw [lexists, find_nofollow h hn]
    rfl

theorem look_of_reaches (hparent : t.isDir L.dropLast = true)
    (hlink : ∀ target, t.lookup L ≠ some (.link target)) : sys.look t path = t.lookup L := by
  cases hn : t.lookup L with
  | none =>
    rw [look, find_free h hn hparent]
    rfl
  | some n =>
    refine look_of_find (find_of_reaches h hn fun _ => ?_)
    cases n with
    | file c a => rfl
    | dir a => rfl
    | link target => exact absurd hn (hlink target)

theorem isdir_of_reaches (hparent : t.isDir L.dropLast = true)
    (hlink : ∀ target, t.lookup L ≠ some (.link target)) : sys.isdir t path = t.isDir L := by
  rw [isdir, look_of_reaches h hparent hlink]
  rfl

theorem islink_of_reaches (hparent : t.isDir L.dropLast = true) :
    sys.islink t path = ((t.lookup L).map Node.isLink).getD false := by
  cases hn : t.lookup L with
  | none =>
    rw [islink, find_free h hn hparent]
    rfl
  | some n =>
    rw [islink, find_nofollow h hn]
    rfl

end Reaches

theorem rdropWhile_of_name {path : Path} (hname : IsName (Path.basename path)) :
    path.rdropWhile (· = "") = path := by
  rcases List.eq_nil_or_concat' path with rfl | ⟨init, x, rfl⟩
  · rfl
  · have hx : IsName x := by simpa [Path.basename] using hname
    exact List.rdropWhile_concat_neg _ _ _ (by simpa using hx.1)

/-- `shutil.rmtree` of a directory. -/
theorem rmtree_of_calm {R : Set Loc} {w : World β} (hw : Calm w) {path : Path} {L : Loc} {a : Attr}
    (hanchor : sys.Anchored R w.tree path L) (hR : ∀ l, L <+: l → l ∈ R)
    (hname : IsName (Path.basename path)) (hL : L ≠ []) (ha : w.tree.lookup L = some (.dir a))
    (hdepth : ∀ rel, w.tree.isDir (L ++ rel) = true → rel.length < sys.recursionLimit) :
    ∃ w', sys.rmtree path w = .ok () w' ∧ Calm w' ∧ Cleared {l | L <+: l} w.tree w'.tree := by
  obtain ⟨w₁, hrun, hw₁, hc⟩ := @removeContents_of_calm _ sys _ w L hw ⟨a, ha⟩ hdepth
  have hbelow : strictlyBelow L ⊆ R := by
    rintro _ ⟨rel, -, rfl⟩
    exact hR _ (List.prefix_append _ _)
  have ha₁ : w₁.tree.lookup L = some (.dir a) := by
    rw [hc.outside L, ha]
    rintro ⟨rel, hrel, hl⟩
    exact hrel (List.append_right_eq_self.mp hl.symm)
  have hfind₁ : sys.find w₁.tree false path = .found L (.dir a) :=
    find_nofollow (hanchor _ (hc.alikeOff hbelow)) ha₁
  obtain ⟨hrmdir, hc₁⟩ := @rmdirAt_of_empty _ w₁.tree L a hL fun rel hrel =>
    hc.inside _ ⟨rel, hrel, rfl⟩
  refine ⟨⟨w₁.tree.erase L, w₁.faults.tail⟩, ?_, hw₁.tail _, (hc.trans hc₁).congr ?_⟩
  · rw [rmtree, SetConfigs.tree_bind, find_nofollow hanchor.reaches ha]
    dsimp only
    rw [bind_of_ok hrun]
    have hdot : path.getLastD "" ≠ "." := hname.2.1
    have hdots : path.getLastD "" ≠ ".." := hname.2.2
    refine syscall_of_calm hw₁ ?_
    dsimp only
    rw [rdropWhile_of_name hname, if_neg hdot, if_neg hdots, hfind₁]
    exact hrmdir
  · intro l _ _
    constructor
    · rintro (⟨rel, -, rfl⟩ | rfl)
      · exact List.prefix_append _ _
      · exact List.prefix_refl _
    · rintro ⟨rel, rfl⟩
      by_cases hrel : rel = []
      · exact Or.inr (by rw [hrel, List.append_nil]; rfl)
      · exact Or.inl ⟨rel, hrel, rfl⟩

/-- Deleting what stands at a location, if it is no link to a directory. -/
theorem deletePath_of_calm {R : Set Loc} {w : World β} (hw : Calm w) {path : Path} {L : Loc}
    (hanchor : sys.Anchored R w.tree path L) (hR : ∀ l, L <+: l → l ∈ R)
    (hname : IsName (Path.basename path)) (hL : L ≠ []) (hparent : w.tree.isDir L.dropLast = true)
    (hdepth : ∀ rel, w.tree.isDir (L ++ rel) = true → rel.length < sys.recursionLimit)
    (hlink : sys.islink w.tree path = true → sys.isdir w.tree path = false) :
    ∃ w', ConfigFile.deletePath sys path w = .ok () w' ∧ Calm w' ∧
      Cleared {l | L <+: l} w.tree w'.tree := by
  have hreach := hanchor.reaches
  rw [ConfigFile.deletePath, SetConfigs.tree_bind, lexists_of_reaches hreach hparent]
  cases hn : w.tree.lookup L with
  | none =>
    refine ⟨w, rfl, hw, (Cleared.refl _).congr fun l m hm => ⟨fun h => h.elim, ?_⟩⟩
    rintro ⟨rel, rfl⟩
    by_cases hrel : rel = []
    · rw [hrel, List.append_nil, hn] at hm
      cases hm
    · rw [FileTree.lookup_below_none (by simp [hn]) hrel] at hm
      cases hm
  | some n =>
    rw [if_neg (by simp)]
    have hremove : n.isDir = false → ∃ w', sys.remove path w = .ok () w' ∧ Calm w' ∧
        Cleared {l | L <+: l} w.tree w'.tree := by
      intro hdir
      obtain ⟨hunlink, hc⟩ := unlinkAt_of_lookup hn hdir
      exact ⟨_, onNode_of_calm hw (find_nofollow hreach hn) hunlink, hw.tail _, hc⟩
    cases n with
    | dir a =>
      rw [if_pos (isdir_iff.mpr ⟨L, a, find_of_reaches hreach hn fun _ => rfl⟩)]
      exact rmtree_of_calm hw hanchor hR hname hL hn hdepth
    | file c a =>
      rw [isdir_eq_false (look_of_find (find_of_reaches hreach hn fun _ => rfl)),
        if_neg (by simp [Node.isDir])]
      exact hremove rfl
    | link target =>
      have hislink : sys.islink w.tree path = true := by
        rw [islink_of_reaches hreach hparent, hn]
        rfl
      rw [hlink hislink, if_neg Bool.false_ne_true]
      exact hremove rfl

/-! ## New directories -/

theorem mkdir_of_calm {w : World β} (hw : Calm w) {path : Path} {L : Loc}
    (hreach : sys.Reaches w.tree path L) (hnone : w.tree.lookup L = none)
    (hparent : w.tree.isDir L.dropLast = true) :
    ∃ w' a, sys.mkdir path w = .ok () w' ∧ Calm w' ∧
      ∀ l, w'.tree.lookup l = if l = L then some (.dir a) else w.tree.lookup l := by
  have hfind : sys.find w.tree false path = .free L false := find_free hreach hnone hparent
  have hrun : sys.mkdir path w
      = .ok () ⟨w.tree.create L (.dir ⟨0o777 &&& ~~~sys.umask, sys.uid, sys.gid⟩), w.faults.tail⟩ := by
    refine syscall_of_calm hw ?_
    rw [hfind]
  exact ⟨_, _, hrun, hw.tail _, fun l => FileTree.lookup_create (vacant_of_resolve hfind)⟩

/-- An entry is made in a directory that is there. -/
theorem makedirsAux_of_head {n : ℕ} {path : Path} {x : String} (hx : IsName x) {w w' : World β}
    (hhead : sys.pathExists w.tree (Path.dirname (Path.join path [x])) = true)
    (hmkdir : sys.mkdir (Path.join path [x]) w = .ok () w') :
    sys.makedirsAux (n + 1) (Path.join path [x]) false w = .ok () w' := by
  have hbase : Path.basename (Path.join path [x]) = x := Path.getLastD_join_name path x
  rw [makedirsAux, hbase, if_neg hx.1, if_neg hx.1, SetConfigs.tree_bind, hhead, Bool.not_true,
    Bool.and_false, when, if_neg Bool.false_ne_true, if_neg (by simp)]
  exact tryCatch_of_ok hmkdir

/-- The directory of an entry is made first. -/
theorem makedirsAux_of_missing {n : ℕ} {path : Path} {x : String} (hx : IsName x)
    {w w₁ w' : World β} (hdirname : Path.dirname (Path.join path [x]) = path) (hpath : path ≠ [""])
    (hhead : sys.pathExists w.tree path = false)
    (hmake : sys.makedirsAux n path false w = .ok () w₁)
    (hmkdir : sys.mkdir (Path.join path [x]) w₁ = .ok () w') :
    sys.makedirsAux (n + 1) (Path.join path [x]) false w = .ok () w' := by
  have hbase : Path.basename (Path.join path [x]) = x := Path.getLastD_join_name path x
  rw [makedirsAux, hbase, if_neg hx.1, if_neg hx.1, SetConfigs.tree_bind, hdirname, hhead,
    Bool.not_false, Bool.and_true, when, if_pos (by simp [hpath, hx.1])]
  refine (bind_of_ok (tryCatch_of_ok hmake)).trans ?_
  rw [if_neg (by simp [hx.2.1])]
  exact tryCatch_of_ok hmkdir

/-- `os.makedirs` of an entry of a directory that is there. -/
theorem makedirs_of_calm {w : World β} (hw : Calm w) {path : Path} {x : String} {P : Loc} {a : Attr}
    (hx : IsName x) (hreach : sys.Reaches w.tree path P) (hP : w.tree.lookup P = some (.dir a))
    (hnone : w.tree.lookup (P ++ [x]) = none) :
    ∃ w' b, sys.makedirs (Path.join path [x]) false w = .ok () w' ∧ Calm w' ∧
      ∀ l, w'.tree.lookup l = if l = P ++ [x] then some (.dir b) else w.tree.lookup l := by
  have hparent : w.tree.isDir (P ++ [x]).dropLast = true := by
    rw [List.dropLast_concat]
    exact FileTree.isDir_iff.mpr ⟨a, hP⟩
  obtain ⟨w', b, hmkdir, hw', hl'⟩ := mkdir_of_calm hw (hreach.join hx) hnone hparent
  refine ⟨w', b, ?_, hw', hl'⟩
  have hhead : sys.pathExists w.tree (Path.dirname (Path.join path [x])) = true := by
    have hfind : sys.find w.tree true (Path.dirname (Path.join path [x])) = .found P (.dir a) :=
      resolve_dirname (find_of_reaches hreach hP fun _ => rfl)
    rw [pathExists, look_of_find hfind]
    rfl
  have hne : Path.join path [x] ≠ [] := by
    rw [Path.join_name]
    split <;> simp
  obtain ⟨n, hn⟩ : ∃ n, (Path.join path [x]).length = n + 1 :=
    ⟨(Path.join path [x]).length - 1, by have := List.length_pos_of_ne_nil hne; omega⟩
  rw [makedirs, hn]
  exact makedirsAux_of_head hx hhead hmkdir

/-- Directories have been made at those places of `N` where nothing stood. -/
structure Grown (N : Set Loc) (t t' : FileTree β) : Prop where
  made : ∀ l ∈ N, t.lookup l = none → ∃ a, t'.lookup l = some (.dir a)
  kept : ∀ l, l ∉ N ∨ t.lookup l ≠ none → t'.lookup l = t.lookup l

theorem Grown.refl (t : FileTree β) : Grown ∅ t t := ⟨fun _ h => h.elim, fun _ _ => rfl⟩

/-- Only the places where nothing stands count. -/
theorem Grown.congr {N N' : Set Loc} {t t' : FileTree β} (h : Grown N t t')
    (hN : ∀ l, t.lookup l = none → (l ∈ N ↔ l ∈ N')) : Grown N' t t' := by
  refine ⟨fun l hl hnone => h.made l ((hN l hnone).mpr hl) hnone, fun l hl => h.kept l ?_⟩
  by_cases hnone : t.lookup l = none
  · exact Or.inl fun hmem => (hl.resolve_right (not_not.mpr hnone)) ((hN l hnone).mp hmem)
  · exact Or.inr hnone

/-- One more directory. -/
theorem Grown.insert {N : Set Loc} {t t₁ t' : FileTree β} (h : Grown N t t₁) {l₀ : Loc} {a : Attr}
    (hnone : t.lookup l₀ = none)
    (hl : ∀ l, t'.lookup l = if l = l₀ then some (.dir a) else t₁.lookup l) :
    Grown (N ∪ {l₀}) t t' := by
  constructor
  · intro l hmem hl'
    by_cases heq : l = l₀
    · exact ⟨a, by rw [hl, if_pos heq]⟩
    · rw [hl, if_neg heq]
      exact h.made l (hmem.resolve_right heq) hl'
  · intro l hkeep
    have hne : l ≠ l₀ := by
      rintro rfl
      rcases hkeep with hmem | hsome
      · exact hmem (Or.inr rfl)
      · exact hsome hnone
    rw [hl, if_neg hne]
    exact h.kept l (hkeep.imp_left fun hmem hN => hmem (Or.inl hN))

theorem Grown.alikeOff {N R : Set Loc} {t t' : FileTree β} (h : Grown N t t') (hR : N ⊆ R) :
    AlikeOff R t t' :=
  fun l hl => by rw [h.kept l (Or.inl fun hN => hl (hR hN))]

/-- The places of some names below a location, one after the other. -/
def way (Q : Loc) (names : List String) : Set Loc :=
  {l | ∃ init, init ≠ [] ∧ init <+: names ∧ l = Q ++ init}

/-- What is on the way to a node is there. -/
theorem lookup_way {t : FileTree β} {Q : Loc} {names : List String} {n : Node β}
    (hn : t.lookup (Q ++ names) = some n) {l : Loc} (hl : l ∈ way Q names) : t.lookup l ≠ none := by
  obtain ⟨init, -, ⟨rel, rfl⟩, rfl⟩ := hl
  intro hnone
  rw [← List.append_assoc] at hn
  by_cases hrel : rel = []
  · rw [hrel, List.append_nil, hnone] at hn
    cases hn
  · rw [FileTree.lookup_below_none (by simp [hnone]) hrel] at hn
    cases hn

/-- The names below the location that are there are those of directories. -/
def Passable (t : FileTree β) (Q : Loc) (names : List String) : Prop :=
  ∀ init, init <+: names → t.lookup (Q ++ init) = none ∨ t.isDir (Q ++ init) = true

theorem Grown.cases {N : Set Loc} {t t' : FileTree β} (h : Grown N t t') (l : Loc) :
    t'.lookup l = t.lookup l ∨ t.lookup l = none ∧ l ∈ N ∧ t'.isDir l = true := by
  by_cases hl : l ∈ N ∧ t.lookup l = none
  · exact Or.inr ⟨hl.2, hl.1, FileTree.isDir_iff.mpr (h.made l hl.1 hl.2)⟩
  · exact Or.inl (h.kept l (not_and_or.mp hl))

/-- The way ends at a directory. -/
theorem Grown.isDir {Q : Loc} {names : List String} {t t' : FileTree β}
    (h : Grown (way Q names) t t') (hQ : t.isDir Q = true) (hpass : Passable t Q names) :
    t'.isDir (Q ++ names) = true := by
  rcases h.cases (Q ++ names) with heq | ⟨-, -, hdir⟩
  · rcases hpass names (List.prefix_refl _) with hmissing | hdir
    · by_cases hne : names = []
      · rw [hne, List.append_nil] at heq ⊢
        rwa [FileTree.isDir_iff, heq, ← FileTree.isDir_iff]
      · exact FileTree.isDir_iff.mpr (h.made _ ⟨names, hne, List.prefix_refl _, rfl⟩ hmissing)
    · rwa [FileTree.isDir_iff, heq, ← FileTree.isDir_iff]
  · exact hdir

theorem dirname_under {path : Path} {names : List String} (hne : names ≠ [])
    (hnames : ∀ x ∈ names, IsName x) (x : String) :
    Path.dirname (Path.join (Path.under path names) [x]) = Path.under path names := by
  obtain ⟨names, y, rfl⟩ := (List.eq_nil_or_concat' names).resolve_left hne
  have hy : IsName y := hnames y (by simp)
  have hlast : (Path.under path (names ++ [y])).getLastD "" = y := by
    rw [Path.under_concat, Path.getLastD_join_name]
  have hne' : Path.under path (names ++ [y]) ≠ [] := (Path.under_ne_empty (by simp) hnames).1
  rw [Path.join_name, hlast, if_neg hy.1, Path.dirname, List.dropLast_concat, if_neg hne']
  obtain ⟨init, z, hsplit⟩ := (List.eq_nil_or_concat' _).resolve_left hne'
  obtain rfl : z = y := by simpa [hsplit] using hlast
  rw [hsplit, if_neg (by simp [hy.1]), List.rdropWhile_concat_neg _ _ _ (by simpa using hy.1)]

theorem length_le_under {path : Path} {names : List String} (hne : names ≠ [])
    (hnames : ∀ x ∈ names, IsName x) : names.length ≤ (Path.under path names).length := by
  obtain ⟨x, names, rfl⟩ := List.exists_cons_of_ne_nil hne
  rw [Path.under_cons_eq hnames]
  split <;> simp

section Parents

variable {R : Set Loc} {q : Path} {Q : Loc} {names : List String}

/-- A path through a missing directory leads to nothing. -/
theorem look_under_missing {t : FileTree β} (hq : sys.Reaches t q Q) (hQ : t.isDir Q = true)
    (hnames : ∀ x ∈ names, IsName x) (hpass : Passable t Q names)
    (hnone : t.lookup (Q ++ names) = none) : sys.look t (Path.under q names) = none := by
  induction names using List.reverseRecOn with
  | nil =>
    obtain ⟨a, ha⟩ := FileTree.isDir_iff.mp hQ
    rw [List.append_nil, ha] at hnone
    cases hnone
  | append_singleton names x ih =>
    have hnames' : ∀ y ∈ names, IsName y := fun y hy => hnames y (List.mem_append_left _ hy)
    have hx : IsName x := hnames x (by simp)
    have hinit : ∀ init, init <+: names → init <+: names ++ [x] :=
      fun init h => h.trans (List.prefix_append _ _)
    have hunder : sys.Reaches t (Path.under q names) (Q ++ names) := hq.under hnames'
    rw [← List.append_assoc] at hnone
    rcases hpass names (List.prefix_append _ _) with hmissing | hdir
    · have hlook := ih hnames' (fun init h => hpass init (hinit init h)) hmissing
      have hne : names ≠ [] := by
        rintro rfl
        obtain ⟨a, ha⟩ := FileTree.isDir_iff.mp hQ
        rw [List.append_nil, ha] at hmissing
        cases hmissing
      by_contra hsome
      obtain ⟨n, hn⟩ := Option.ne_none_iff_exists'.mp hsome
      rw [Path.under_concat] at hn
      have hdir := isdir_of_look_join hx (Path.under_ne_empty hne hnames') hn
      rw [isdir, hlook] at hdir
      cases hdir
    · rw [Path.under_concat, look, find_free (hunder.join hx) hnone (by simpa using hdir)]
      rfl

/-- The directories on the way are made. -/
theorem makedirsAux_of_calm {n : ℕ} {w : World β} (hw : Calm w) (hq : sys.Anchored R w.tree q Q)
    (hQ : w.tree.isDir Q = true) (hR : way Q names ⊆ R) (hnames : ∀ x ∈ names, IsName x)
    (hpass : Passable w.tree Q names) (hnone : w.tree.lookup (Q ++ names) = none)
    (hn : names.length ≤ n) :
    ∃ w', sys.makedirsAux n (Path.under q names) false w = .ok () w' ∧ Calm w' ∧
      Grown (way Q names) w.tree w'.tree := by
  induction names using List.reverseRecOn generalizing n with
  | nil =>
    obtain ⟨a, ha⟩ := FileTree.isDir_iff.mp hQ
    rw [List.append_nil, ha] at hnone
    cases hnone
  | append_singleton names x ih =>
    have hnames' : ∀ y ∈ names, IsName y := fun y hy => hnames y (List.mem_append_left _ hy)
    have hx : IsName x := hnames x (by simp)
    have hpass' : Passable w.tree Q names := fun init h => hpass init (h.trans (List.prefix_append _ _))
    have hway : way Q (names ++ [x]) = way Q names ∪ {Q ++ (names ++ [x])} := by
      ext l
      constructor
      · rintro ⟨init, hne, hinit, rfl⟩
        rcases List.prefix_concat_iff.mp hinit with rfl | hinit
        · exact Or.inr rfl
        · exact Or.inl ⟨init, hne, hinit, rfl⟩
      · rintro (⟨init, hne, hinit, rfl⟩ | rfl)
        · exact ⟨init, hne, hinit.trans (List.prefix_append _ _), rfl⟩
        · exact ⟨names ++ [x], by simp, List.prefix_refl _, rfl⟩
    obtain ⟨n, rfl⟩ : ∃ k, n = k + 1 := ⟨n - 1, by simp at hn; omega⟩
    have hunder : sys.Anchored R w.tree (Path.under q names) (Q ++ names) := hq.under hnames'
    rw [← List.append_assoc] at hnone
    rw [Path.under_concat]
    rcases hpass names (List.prefix_append _ _) with hmissing | hdir
    · -- the directory of the entry is made first
      obtain ⟨w₁, hmake, hw₁, hgrown⟩ := @ih n (fun l hl => hR (hway ▸ Or.inl hl)) hnames' hpass'
        hmissing (by simpa using hn)
      have hne : names ≠ [] := by
        rintro rfl
        obtain ⟨a, ha⟩ := FileTree.isDir_iff.mp hQ
        rw [List.append_nil, ha] at hmissing
        cases hmissing
      have halike : AlikeOff R w.tree w₁.tree := hgrown.alikeOff fun l hl => hR (hway ▸ Or.inl hl)
      obtain ⟨a, ha⟩ := hgrown.made (Q ++ names) ⟨names, hne, List.prefix_refl _, rfl⟩ hmissing
      have hnone₁ : w₁.tree.lookup (Q ++ names ++ [x]) = none := by
        rw [hgrown.kept _ (Or.inl ?_), hnone]
        rintro ⟨init, -, hinit, heq⟩
        rw [List.append_assoc, List.append_cancel_left_eq] at heq
        have := hinit.length_le
        rw [← heq, List.length_append, List.length_singleton] at this
        omega
      obtain ⟨w', b, hmkdir, hw', hl'⟩ := mkdir_of_calm hw₁ ((hunder _ halike).join hx) hnone₁
        (by rw [List.dropLast_concat]; exact FileTree.isDir_iff.mpr ⟨a, ha⟩)
      have hlook := look_under_missing hq.reaches hQ hnames' hpass' hmissing
      refine ⟨w', ?_, hw', ?_⟩
      · exact makedirsAux_of_missing hx (dirname_under hne hnames' x)
          (Path.under_ne_empty hne hnames').2 (by rw [pathExists, hlook]; rfl) hmake hmkdir
      · rw [hway, ← List.append_assoc]
        exact hgrown.insert hnone hl'
    · obtain ⟨a, ha⟩ := FileTree.isDir_iff.mp hdir
      obtain ⟨w', b, hmkdir, hw', hl'⟩ := mkdir_of_calm hw (hunder.reaches.join hx) hnone
        (by rw [List.dropLast_concat]; exact hdir)
      have hfind : sys.find w.tree true (Path.dirname (Path.join (Path.under q names) [x]))
          = .found (Q ++ names) (.dir a) :=
        resolve_dirname (find_of_reaches hunder.reaches ha fun _ => rfl)
      refine ⟨w', ?_, hw', ?_⟩
      · exact makedirsAux_of_head hx (by rw [pathExists, look_of_find hfind]; rfl) hmkdir
      · refine ((Grown.refl w.tree).insert hnone hl').congr fun l hl => ?_
        rw [hway, ← List.append_assoc]
        exact or_congr ⟨fun h => h.elim, fun h => absurd hl (lookup_way ha h)⟩ Iff.rfl

/-- The parents of a destination are made. -/
theorem createParentDirs_of_calm {x : String} {w : World β} (hw : Calm w)
    (hq : sys.Anchored R w.tree q Q) (hQ : w.tree.isDir Q = true) (hR : way Q names ⊆ R)
    (hnames : ∀ x ∈ names, IsName x) (hpass : Passable w.tree Q names) :
    ∃ w', ConfigFile.createParentDirs sys (Path.join (Path.under q names) [x]) w = .ok () w' ∧
      Calm w' ∧ Grown (way Q names) w.tree w'.tree := by
  rw [ConfigFile.createParentDirs, SetConfigs.tree_bind]
  have hunder : sys.Anchored R w.tree (Path.under q names) (Q ++ names) := hq.under hnames
  rcases hpass names (List.prefix_refl _) with hmissing | hdir
  · have hne : names ≠ [] := by
      rintro rfl
      obtain ⟨a, ha⟩ := FileTree.isDir_iff.mp hQ
      rw [List.append_nil, ha] at hmissing
      cases hmissing
    have hlook := look_under_missing hq.reaches hQ hnames hpass hmissing
    rw [dirname_under hne hnames, when, if_pos (by rw [pathExists, hlook]; rfl)]
    exact makedirsAux_of_calm hw hq hQ hR hnames hpass hmissing (length_le_under hne hnames)
  · obtain ⟨a, ha⟩ := FileTree.isDir_iff.mp hdir
    have hfind : sys.find w.tree true (Path.dirname (Path.join (Path.under q names) [x]))
        = .found (Q ++ names) (.dir a) :=
      resolve_dirname (find_of_reaches hunder.reaches ha fun _ => rfl)
    rw [when, if_neg (by rw [pathExists, look_of_find hfind]; simp)]
    exact ⟨w, rfl, hw, (Grown.refl w.tree).congr fun l hl =>
      ⟨fun h => h.elim, fun h => absurd hl (lookup_way ha h)⟩⟩

end Parents

/-! ## Copies -/

theorem chmod_mode_of_calm {w : World β} (hw : Calm w) {path : Path} {L : Loc} {n : Node β}
    (hfind : sys.find w.tree true path = .found L n) (mode : BitVec 12) :
    ∃ w' a, sys.chmod path mode.toNat w = .ok () w' ∧ Calm w' ∧
      ∀ l, w'.tree.lookup l = if l = L then some (withAttr n a) else w.tree.lookup l := by
  obtain ⟨w', hrun, hw', hl'⟩ :=
    setAttr_of_calm hw hfind (fun _ a => { a with mode := BitVec.ofInt 12 mode.toNat })
  have hrange : -2 ^ 31 ≤ (mode.toNat : ℤ) ∧ (mode.toNat : ℤ) < 2 ^ 31 := by
    have := mode.isLt
    omega
  exact ⟨w', _, by rw [chmod, if_pos hrange, hrun], hw', hl'⟩

theorem chown_node_of_calm {w : World β} (hw : Calm w) {path : Path} {L : Loc} {n : Node β}
    (hfind : sys.find w.tree true path = .found L n) (uid gid : ℕ) :
    ∃ w' a, sys.chown path uid gid w = .ok () w' ∧ Calm w' ∧
      ∀ l, w'.tree.lookup l = if l = L then some (withAttr n a) else w.tree.lookup l := by
  obtain ⟨w', hrun, hw', hl'⟩ :=
    setAttr_of_calm hw hfind (fun n a => ⟨chownMode n a.mode, uid, gid⟩)
  exact ⟨w', _, hrun, hw', hl'⟩

theorem stat_of_calm {w : World β} (hw : Calm w) {path : Path} {L : Loc} {n : Node β}
    (hfind : sys.find w.tree true path = .found L n) :
    sys.stat path w = .ok n ⟨w.tree, w.faults.tail⟩ :=
  onNode_of_calm hw hfind rfl

/-- `shutil.copymode`. -/
theorem copymode_of_calm {w : World β} (hw : Calm w) {source dest : Path} {S D : Loc}
    {m n : Node β} (hsource : sys.find w.tree true source = .found S m)
    (hdest : sys.find w.tree true dest = .found D n) :
    ∃ w' a, sys.copymode source dest w = .ok () w' ∧ Calm w' ∧
      ∀ l, w'.tree.lookup l = if l = D then some (withAttr n a) else w.tree.lookup l := by
  have hstat := stat_of_calm hw hsource
  obtain ⟨w', a, hchmod, hw', hl'⟩ :=
    chmod_mode_of_calm (w := ⟨w.tree, w.faults.tail⟩) (hw.tail _) hdest m.attr.mode
  exact ⟨w', a, by rw [copymode, bind_of_ok hstat]; exact hchmod, hw', hl'⟩

theorem openWrite_of_calm {w : World β} (hw : Calm w) {dest : Path} {D : Loc}
    (hreach : sys.Reaches w.tree dest D) (hnone : w.tree.lookup D = none)
    (hparent : w.tree.isDir D.dropLast = true) :
    ∃ w' c a, sys.openWrite dest w = .ok D w' ∧ Calm w' ∧
      ∀ l, w'.tree.lookup l = if l = D then some (.file c a) else w.tree.lookup l := by
  have hfind : sys.find w.tree true dest = .free D false := find_free hreach hnone hparent
  have hopen : sys.openWrite dest w = .ok D ⟨w.tree.create D
      (.file sys.codec.empty ⟨0o666 &&& ~~~sys.umask, sys.uid, sys.gid⟩), w.faults.tail⟩ := by
    refine syscall_of_calm hw ?_
    rw [hfind]
    rfl
  exact ⟨_, _, _, hopen, hw.tail _, fun l => FileTree.lookup_create (vacant_of_resolve hfind)⟩

theorem write_of_calm {w : World β} (hw : Calm w) {D : Loc} {c : β} {a : Attr}
    (hfile : w.tree.lookup D = some (.file c a)) (content : β) :
    ∃ w', write D content w = .ok () w' ∧ Calm w' ∧
      ∀ l, w'.tree.lookup l = if l = D then some (.file content a) else w.tree.lookup l := by
  have hrun : write D content w
      = .ok () ⟨w.tree.replace D (.file content a), w.faults.tail⟩ := by
    refine syscall_of_calm hw ?_
    rw [hfile]
  refine ⟨_, hrun, hw.tail _, fun l => FileTree.lookup_replace hfile fun hdir => ?_⟩
  rw [FileTree.isDir_iff, hfile] at hdir
  obtain ⟨_, ha⟩ := hdir
  cases ha

/-- Writing a new file. -/
theorem writeFile_of_calm {w : World β} (hw : Calm w) {dest : Path} {D : Loc}
    (hreach : sys.Reaches w.tree dest D) (hnone : w.tree.lookup D = none)
    (hparent : w.tree.isDir D.dropLast = true) (c : β) :
    ∃ w' a, sys.writeFile dest c w = .ok () w' ∧ Calm w' ∧
      ∀ l, w'.tree.lookup l = if l = D then some (.file c a) else w.tree.lookup l := by
  obtain ⟨w₁, c₁, a, hopen, hw₁, hl₁⟩ := openWrite_of_calm hw hreach hnone hparent
  obtain ⟨w', hwrite, hw', hl'⟩ := write_of_calm hw₁ (by rw [hl₁, if_pos rfl]) c
  refine ⟨w', a, by rw [writeFile, bind_of_ok hopen, hwrite], hw', fun l => ?_⟩
  rw [hl', hl₁]
  split <;> rfl

/-- `shutil.copy` of a file to a free place. -/
theorem copy_of_calm {R : Set Loc} {w : World β} (hw : Calm w) {source dest : Path} {S D : Loc}
    {c : β} {b : Attr} (hsource : sys.Anchored R w.tree source S)
    (hS : w.tree.lookup S = some (.file c b)) (hdest : sys.Anchored R w.tree dest D)
    (hD : D ∈ R) (hnone : w.tree.lookup D = none) (hparent : w.tree.isDir D.dropLast = true) :
    ∃ w' a, sys.copy source dest w = .ok () w' ∧ Calm w' ∧
      ∀ l, w'.tree.lookup l = if l = D then some (.file c a) else w.tree.lookup l := by
  have hfind : sys.find w.tree true source = .found S (.file c b) :=
    find_of_reaches hsource.reaches hS fun _ => rfl
  have hfree : sys.find w.tree true dest = .free D false := find_free hdest.reaches hnone hparent
  have hisdir : sys.isdir w.tree dest = false := by
    rw [isdir, look, hfree]
    rfl
  have hsame : sys.samefile w.tree source dest = false := by rw [samefile, hfind, hfree]
  have hread : sys.openRead source w = .ok c ⟨w.tree, w.faults.tail⟩ := onNode_of_calm hw hfind rfl
  obtain ⟨w₁, a, hwrite, hw₁, hl₁⟩ := writeFile_of_calm (w := ⟨w.tree, w.faults.tail⟩) (hw.tail _)
    hdest.reaches hnone hparent c
  have hcopyfile : sys.copyfile source dest w = .ok () w₁ := by
    rw [copyfile, SetConfigs.tree_bind, hsame, if_neg Bool.false_ne_true, bind_of_ok hread, hwrite]
  have hne : S ≠ D := by
    rintro rfl
    rw [hS] at hnone
    cases hnone
  have halike : AlikeOff R w.tree w₁.tree := by
    intro l hl
    have hl' : l ≠ D := fun h => hl (h ▸ hD)
    rw [hl₁, if_neg hl']
  have hfind₁ : sys.find w₁.tree true source = .found S (.file c b) :=
    find_of_reaches (hsource _ halike) (by rw [hl₁, if_neg hne, hS]) fun _ => rfl
  have hdest₁ : sys.find w₁.tree true dest = .found D (.file c a) :=
    find_of_reaches (hdest _ halike) (by rw [hl₁, if_pos rfl]) fun _ => rfl
  obtain ⟨w', a', hmode, hw', hl'⟩ := copymode_of_calm hw₁ hfind₁ hdest₁
  refine ⟨w', a', ?_, hw', fun l => ?_⟩
  · rw [copy, SetConfigs.tree_bind, hisdir, if_neg Bool.false_ne_true, bind_of_ok hcopyfile, hmode]
  · rw [hl', hl₁]
    split <;> rfl

end System

end Kolla.SetConfigs
