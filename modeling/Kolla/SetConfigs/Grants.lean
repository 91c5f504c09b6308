import Kolla.SetConfigs.Confinement
import Mathlib.Data.Set.Lattice

/-!
# Which nodes get an owner and a mode

`set_perms` gives one node the owner and the mode of an entry.  Doing it twice
is doing it once, so a run of `handle_permissions` is described by the set of
locations that it comes to: `Painted G S` says that the nodes of `S` have become
what `G` makes of them, and that the others are as they were.  The set of a
sequence is the union of the sets of its parts.

Everything here is about runs in which no operation fails for a reason of its
own.
-/

namespace Kolla.SetConfigs

open Kolla.Lib

variable {β α : Type}

/-! ## Paint -/

/-- A change of attributes that depends on the node alone and does nothing the
second time. -/
structure Paint (β : Type) where
  map : Node β → Node β
  content : ∀ n, (map n).content = n.content
  idem : ∀ n, map (map n) = map n

/-- The nodes of `S` have been painted, and the others are as they were. -/
structure Painted (G : Paint β) (S : Set Loc) (t t' : FileTree β) : Prop where
  inside : ∀ l ∈ S, t'.lookup l = (t.lookup l).map G.map
  outside : ∀ l, l ∉ S → t'.lookup l = t.lookup l

namespace Painted

variable {G : Paint β} {S S' : Set Loc} {t t' t'' : FileTree β}

theorem refl (G : Paint β) (t : FileTree β) : Painted G ∅ t t :=
  ⟨fun _ h => h.elim, fun _ _ => rfl⟩

/-- Painting one set and then another paints both. -/
theorem trans (h : Painted G S t t') (h' : Painted G S' t' t'') : Painted G (S ∪ S') t t'' := by
  have hboth : ∀ o : Option (Node β), (o.map G.map).map G.map = o.map G.map := by
    intro o
    cases o with
    | none => rfl
    | some n => simp [G.idem]
  constructor
  · intro l hl
    by_cases hl' : l ∈ S'
    · rw [h'.inside l hl']
      by_cases hS : l ∈ S
      · rw [h.inside l hS, hboth]
      · rw [h.outside l hS]
    · rw [h'.outside l hl', h.inside l (hl.resolve_right hl')]
  · intro l hl
    rw [Set.mem_union, not_or] at hl
    rw [h'.outside l hl.2, h.outside l hl.1]

/-- Only the locations where something stands count. -/
theorem congr (h : Painted G S t t') (hS : ∀ l n, t.lookup l = some n → (l ∈ S ↔ l ∈ S')) :
    Painted G S' t t' := by
  constructor
  · intro l hl
    cases hn : t.lookup l with
    | none =>
      by_cases hl' : l ∈ S
      · rw [h.inside l hl', hn]
      · rw [h.outside l hl', hn]
        rfl
    | some n => rw [h.inside l ((hS l n hn).mpr hl), hn]
  · intro l hl
    cases hn : t.lookup l with
    | none =>
      by_cases hl' : l ∈ S
      · rw [h.inside l hl', hn]
        rfl
      · rw [h.outside l hl', hn]
    | some n => rw [h.outside l (fun hl' => hl ((hS l n hn).mp hl')), hn]

theorem content_eq (h : Painted G S t t') (l : Loc) : t'.content l = t.content l := by
  by_cases hl : l ∈ S
  · rw [FileTree.content, h.inside l hl, FileTree.content]
    cases t.lookup l with
    | none => rfl
    | some n => simp [G.content]
  · rw [FileTree.content, h.outside l hl, FileTree.content]

end Painted

theorem Painted.sameShape {G : Paint β} {S : Set Loc} {t t' : FileTree β}
    (h : Painted G S t t') : SameShape t t' :=
  SameContent.sameShape h.content_eq

/-- The node at `l` is as it was, or it has been painted and is in `X`. -/
def Dabbed (G : Paint β) (X : Set Loc) (t t' : FileTree β) (l : Loc) : Prop :=
  t'.lookup l = t.lookup l ∨ l ∈ X ∧ t'.lookup l = (t.lookup l).map G.map

namespace Dabbed

variable {G : Paint β} {X : Set Loc} {t t' t'' : FileTree β} {l : Loc}

theorem of_eq (h : t'.lookup l = t.lookup l) : Dabbed G X t t' l := Or.inl h

theorem trans (h : Dabbed G X t t' l) (h' : Dabbed G X t' t'' l) : Dabbed G X t t'' l := by
  rcases h with heq | ⟨hl, heq⟩
  · rwa [Dabbed, heq] at h'
  · rcases h' with heq' | ⟨-, heq'⟩
    · exact Or.inr ⟨hl, heq'.trans heq⟩
    · refine Or.inr ⟨hl, ?_⟩
      rw [heq', heq]
      cases t.lookup l with
      | none => rfl
      | some n => simp [G.idem]

theorem content_eq (h : Dabbed G X t t' l) : t'.content l = t.content l := by
  rcases h with heq | ⟨-, heq⟩
  · rw [FileTree.content, heq, FileTree.content]
  · rw [FileTree.content, heq, FileTree.content]
    cases t.lookup l with
    | none => rfl
    | some n => simp [G.content]

/-- What has the right attributes keeps them. -/
theorem keeps (h : Dabbed G X t t' l) {n : Node β} (hn : t.lookup l = some n) (hG : G.map n = n) :
    t'.lookup l = some n := by
  rcases h with heq | ⟨-, heq⟩
  · rw [heq, hn]
  · rw [heq, hn, Option.map_some, hG]

end Dabbed

theorem Painted.dabbed {G : Paint β} {S X : Set Loc} {t t' : FileTree β} (h : Painted G S t t')
    (hX : S ⊆ X) (l : Loc) : Dabbed G X t t' l := by
  by_cases hl : l ∈ S
  · exact Or.inr ⟨hX hl, h.inside l hl⟩
  · exact Or.inl (h.outside l hl)

/-! ## Programs that paint -/

/-- On every tree of the shape of `t`, the program returns, and it has painted
the locations of `S`. -/
def Paints (G : Paint β) (t : FileTree β) (m : Os β Unit) (S : Set Loc) : Prop :=
  ∀ w : World β, Calm w → SameShape t w.tree →
    ∃ w', m w = .ok () w' ∧ Calm w' ∧ Painted G S w.tree w'.tree

namespace Paints

variable {G : Paint β} {t : FileTree β} {S S' : Set Loc} {m m' : Os β Unit}

theorem pure : Paints G t (Pure.pure () : Os β Unit) ∅ :=
  fun w hw _ => ⟨w, rfl, hw, Painted.refl G w.tree⟩

theorem seq (hm : Paints G t m S) (hm' : Paints G t m' S') :
    Paints G t (m >>= fun _ => m') (S ∪ S') := by
  intro w hw ht
  obtain ⟨w₁, h₁, hw₁, hp₁⟩ := hm w hw ht
  obtain ⟨w₂, h₂, hw₂, hp₂⟩ := hm' w₁ hw₁ (ht.trans hp₁.sameShape)
  exact ⟨w₂, by rw [bind_of_ok h₁, h₂], hw₂, hp₁.trans hp₂⟩

theorem congr (h : Paints G t m S) (hS : ∀ l n, t.lookup l = some n → (l ∈ S ↔ l ∈ S')) :
    Paints G t m S' := by
  intro w hw ht
  obtain ⟨w', hrun, hw', hp⟩ := h w hw ht
  refine ⟨w', hrun, hw', hp.congr fun l n hn => ?_⟩
  obtain ⟨n', hn', _⟩ := ht.symm.some hn
  exact hS l n' hn'

theorem when {c : Prop} [Decidable c] (hm : c → Paints G t m S) :
    Paints G t (when c m) {l | c ∧ l ∈ S} := by
  unfold SetConfigs.when
  split
  · rename_i hc
    exact (hm hc).congr fun l n _ => by simp [hc]
  · rename_i hc
    exact pure.congr fun l n _ => by simp [hc]

theorem of_sameShape {t' : FileTree β} (h : Paints G t' m S) (ht : SameShape t t') :
    Paints G t m S :=
  fun w hw htw => h w hw (ht.symm.trans htw)

/-- A program that reads the tree first. -/
theorem tree_bind {f : FileTree β → Os β Unit}
    (hf : ∀ t', SameShape t t' → Paints G t (f t') S) : Paints G t (tree >>= f) S := by
  intro w hw ht
  rw [SetConfigs.tree_bind]
  exact hf w.tree ht w hw ht

theorem forM {xs : List α} {f : α → Os β Unit} {T : α → Set Loc}
    (hf : ∀ x ∈ xs, Paints G t (f x) (T x)) :
    Paints G t (xs.forM f) {l | ∃ x ∈ xs, l ∈ T x} := by
  induction xs with
  | nil => exact pure.congr fun l n _ => by simp
  | cons x xs ih =>
    refine ((hf x List.mem_cons_self).seq (ih fun y hy => hf y (List.mem_cons_of_mem _ hy))).congr ?_
    intro l n _
    simp

end Paints

/-! ## The owner and the mode of an entry -/

/-- The node with other attributes; those of a link are fixed. -/
def withAttr (n : Node β) (a : Attr) : Node β :=
  match n with
  | .file c _ => .file c a
  | .dir _ => .dir a
  | .link target => .link target

theorem withAttr_isDir (n : Node β) (a : Attr) : (withAttr n a).isDir = n.isDir := by
  cases n <;> rfl

theorem withAttr_content (n : Node β) (a : Attr) : (withAttr n a).content = n.content := by
  cases n <;> rfl

theorem withAttr_withAttr (n : Node β) (a b : Attr) : withAttr (withAttr n a) b = withAttr n b := by
  cases n <;> rfl

theorem withAttr_attr {n : Node β} (hn : n.isLink = false) (a : Attr) :
    (withAttr n a).attr = a := by
  cases n with
  | file c b => rfl
  | dir b => rfl
  | link target => cases hn

namespace System

variable (sys : System β)

/-- The mode that `set_perms` sets, if any. -/
def grantedMode (perm : Option String) (isDir : Bool) : Option ℤ :=
  match perm with
  | some perm =>
    if perm ≠ "" then
      (intBase0 sys.toAscii (patchPerm perm.toList)).map fun mode =>
        if isDir then withExecute mode else mode
    else none
  | none => none

/-- A permission text that `os.chmod` takes, if there is one. -/
def PermOk (perm : Option String) : Prop :=
  ∀ text, perm = some text → text ≠ "" →
    ∃ mode, intBase0 sys.toAscii (patchPerm text.toList) = some mode ∧
      ∀ m ∈ [mode, withExecute mode], -2 ^ 31 ≤ m ∧ m < 2 ^ 31

/-- The attributes that a node gets. -/
def grantedAttr (uid gid : ℕ) (perm : Option String) (n : Node β) : Attr :=
  ⟨((sys.grantedMode perm n.isDir).map (BitVec.ofInt 12)).getD (chownMode n n.attr.mode), uid, gid⟩

theorem chownMode_chownMode (n m : Node β) (h : m.isDir = n.isDir) (mode : BitVec 12) :
    chownMode m (chownMode n mode) = chownMode n mode := by
  unfold chownMode
  rw [h]
  cases n.isDir with
  | true => rfl
  | false =>
    have hbits : ∀ mode : BitVec 12,
        (if (if mode &&& 0o010 = 0 then mode &&& ~~~0o4000 else mode &&& ~~~0o6000) &&& 0o010 = 0
          then (if mode &&& 0o010 = 0 then mode &&& ~~~0o4000 else mode &&& ~~~0o6000) &&& ~~~0o4000
          else (if mode &&& 0o010 = 0 then mode &&& ~~~0o4000 else mode &&& ~~~0o6000) &&& ~~~0o6000)
          = if mode &&& 0o010 = 0 then mode &&& ~~~0o4000 else mode &&& ~~~0o6000 := by
      decide +kernel
    simpa using hbits mode

/-- What `set_perms` makes of a node. -/
def grant (uid gid : ℕ) (perm : Option String) : Paint β where
  map n := withAttr n (sys.grantedAttr uid gid perm n)
  content n := withAttr_content n _
  idem n := by
    rw [withAttr_withAttr]
    cases hn : n.isLink with
    | true =>
      cases n with
      | file c a => cases hn
      | dir a => cases hn
      | link target => rfl
    | false =>
      rw [grantedAttr, withAttr_isDir, withAttr_attr hn]
      congr 2
      rw [grantedAttr]
      cases sys.grantedMode perm n.isDir with
      | none => exact chownMode_chownMode n _ (withAttr_isDir n _) n.attr.mode
      | some mode => rfl

/-! ## `set_perms` -/

section SetPerms

variable {sys : System β} {path : Path} {t : FileTree β}

/-- Where a path leads in the end. -/
def leadsTo (sys : System β) (t : FileTree β) (path : Path) : Set Loc :=
  {l | ∃ n, sys.find t true path = .found l n}

/-- The attributes of one node are changed. -/
theorem setAttr_of_calm {w : World β} (hw : Calm w) {l : Loc} {n : Node β}
    (hfind : sys.find w.tree true path = .found l n) (f : Node β → Attr → Attr) :
    ∃ w', sys.setAttr path f w = .ok () w' ∧ Calm w' ∧
      ∀ l', w'.tree.lookup l' = if l' = l then some (withAttr n (f n n.attr)) else w.tree.lookup l' := by
  have hlink := isLink_of_resolve hfind
  have hn := lookup_of_resolve hfind
  have hreplace : ∀ m : Node β, m.isDir = n.isDir → ∀ l', (w.tree.replace l m).lookup l'
      = if l' = l then some m else w.tree.lookup l' := by
    intro m hm l'
    refine FileTree.lookup_replace hn fun hdir => ?_
    obtain ⟨a, ha⟩ := FileTree.isDir_iff.mp hdir
    rw [hn] at ha
    rw [hm, Option.some.inj ha]
    rfl
  have hrun : sys.setAttr path f w
      = .ok () ⟨w.tree.replace l (withAttr n (f n n.attr)), w.faults.tail⟩ := by
    refine onNode_of_calm hw hfind ?_
    cases n with
    | file c a => rfl
    | dir a => rfl
    | link target => cases hlink
  exact ⟨_, hrun, hw.tail _, hreplace _ (withAttr_isDir n _)⟩

/-- The path leads to the same place in a tree of the same shape. -/
theorem find_sameShape {t' : FileTree β} (h : SameShape t t') {follow : Bool} {l : Loc}
    {n : Node β} (hfind : sys.find t follow path = .found l n) :
    ∃ n', sys.find t' follow path = .found l n' ∧ t'.lookup l = some n' := by
  have hn := lookup_of_resolve hfind
  obtain ⟨n', hn', _⟩ := h.some hn
  refine ⟨n', ?_, hn'⟩
  have heq := @resolve_sameShape _ sys.maxLinks sys.cwd t t' h follow path
  change resolve t sys.maxLinks sys.cwd follow path = _ at hfind
  rw [hfind] at heq
  rw [find, heq, Found.inTree, hn']
  rfl

theorem leadsTo_sameShape {t' : FileTree β} (h : SameShape t t') :
    leadsTo sys t' path = leadsTo sys t path := by
  ext l
  constructor
  · rintro ⟨n, hn⟩
    obtain ⟨n', hn', _⟩ := find_sameShape h.symm hn
    exact ⟨n', hn'⟩
  · rintro ⟨n, hn⟩
    obtain ⟨n', hn', _⟩ := find_sameShape h hn
    exact ⟨n', hn'⟩

theorem find_dir_sameShape {t' : FileTree β} (h : SameShape t t') {l : Loc} {a : Attr}
    (hfind : sys.find t true path = .found l (.dir a)) :
    ∃ b, sys.find t' true path = .found l (.dir b) := by
  obtain ⟨n', hfind', hn'⟩ := find_sameShape h hfind
  obtain ⟨m, hm, hk⟩ := h.some (lookup_of_resolve hfind)
  rw [hn'] at hm
  cases hm
  cases n' with
  | dir b => exact ⟨b, hfind'⟩
  | file c b => cases hk
  | link target => cases hk

/-- `os.chown`, with its handler. -/
theorem chown_of_calm {w : World β} (hw : Calm w) {l : Loc} {n : Node β}
    (hfind : sys.find w.tree true path = .found l n) (uid gid : ℕ) :
    ∃ w', logOSError (sys.chown path uid gid) w = .ok () w' ∧ Calm w' ∧
      ∀ l', w'.tree.lookup l' = if l' = l then some (withAttr n ⟨chownMode n n.attr.mode, uid, gid⟩)
        else w.tree.lookup l' := by
  obtain ⟨w', hrun, hw', hl'⟩ :=
    setAttr_of_calm hw hfind (fun n a => ⟨chownMode n a.mode, uid, gid⟩)
  exact ⟨w', tryCatch_of_ok hrun, hw', hl'⟩

/-- `os.chmod`, with its handler. -/
theorem chmod_of_calm {w : World β} (hw : Calm w) {l : Loc} {n : Node β}
    (hfind : sys.find w.tree true path = .found l n) {mode : ℤ}
    (hmode : -2 ^ 31 ≤ mode ∧ mode < 2 ^ 31) :
    ∃ w', logOSError (sys.chmod path mode) w = .ok () w' ∧ Calm w' ∧
      ∀ l', w'.tree.lookup l' = if l' = l then
          some (withAttr n { n.attr with mode := BitVec.ofInt 12 mode })
        else w.tree.lookup l' := by
  obtain ⟨w', hrun, hw', hl'⟩ :=
    setAttr_of_calm hw hfind (fun _ a => { a with mode := BitVec.ofInt 12 mode })
  exact ⟨w', tryCatch_of_ok (by rw [chmod, if_pos hmode, hrun]), hw', hl'⟩

/-- The second half of `set_perms`, after the owner has been changed. -/
theorem setMode_of_calm {w : World β} (hw : Calm w) {l : Loc} {n : Node β}
    (hfind : sys.find w.tree true path = .found l n) {perm : Option String}
    (hperm : sys.PermOk perm) :
    ∃ w', (match perm with
        | some perm => SetConfigs.when (perm ≠ "") (sys.setMode path perm)
        | none => Pure.pure () : Os β Unit) w = .ok () w' ∧ Calm w' ∧
      ∀ l', w'.tree.lookup l' = if l' = l then some (withAttr n { n.attr with
          mode := ((sys.grantedMode perm n.isDir).map (BitVec.ofInt 12)).getD n.attr.mode })
        else w.tree.lookup l' := by
  have hlink := isLink_of_resolve hfind
  have hn := lookup_of_resolve hfind
  have hsame : ∀ l', w.tree.lookup l' = if l' = l then some (withAttr n n.attr)
      else w.tree.lookup l' := by
    intro l'
    split
    · rename_i hl
      rw [hl, hn]
      cases n with
      | file c a => rfl
      | dir a => rfl
      | link target => cases hlink
    · rfl
  cases perm with
  | none => exact ⟨w, rfl, hw, hsame⟩
  | some text =>
    dsimp only
    by_cases htext : text = ""
    · subst htext
      exact ⟨w, rfl, hw, hsame⟩
    · obtain ⟨mode, hmode, hrange⟩ := hperm text rfl htext
      have hisdir : sys.isdir w.tree path = n.isDir := isdir_eq_false (look_of_find hfind)
      have hrange' : -2 ^ 31 ≤ (if n.isDir then withExecute mode else mode) ∧
          (if n.isDir then withExecute mode else mode) < 2 ^ 31 := by
        split
        · exact hrange _ (by simp)
        · exact hrange _ (by simp)
      obtain ⟨w', hrun, hw', hl'⟩ := chmod_of_calm hw hfind hrange'
      refine ⟨w', ?_, hw', ?_⟩
      · rw [SetConfigs.when, if_pos htext]
        unfold setMode
        rw [hmode]
        dsimp only
        rw [SetConfigs.tree_bind, hisdir]
        exact hrun
      · have hgranted : sys.grantedMode (some text) n.isDir
            = some (if n.isDir then withExecute mode else mode) := by
          rw [grantedMode, if_pos htext, hmode]
          rfl
        rw [hgranted]
        exact hl'

/-- `set_perms` paints what the path leads to. -/
theorem paints_setPerms (sys : System β) (path : Path) (t : FileTree β) {uid gid : ℕ}
    {perm : Option String} (hperm : sys.PermOk perm) :
    Paints (sys.grant uid gid perm) t (sys.setPerms path uid gid perm) (leadsTo sys t path) := by
  intro w hw ht
  rw [← leadsTo_sameShape ht]
  unfold setPerms
  rw [SetConfigs.tree_bind]
  cases hlook : sys.look w.tree path with
  | none =>
    have hnone : sys.pathExists w.tree path = false := by rw [pathExists, hlook]; rfl
    rw [SetConfigs.when, if_neg (by simp [hnone])]
    refine ⟨w, rfl, hw, (Painted.refl _ _).congr fun l n _ => ⟨fun h => h.elim, ?_⟩⟩
    rintro ⟨n, hn⟩
    rw [look_of_find hn] at hlook
    cases hlook
  | some n =>
    obtain ⟨l, hfind⟩ := find_of_look hlook
    have hn := lookup_of_resolve hfind
    have hset : leadsTo sys w.tree path = {l} := by
      ext l'
      constructor
      · rintro ⟨n', hn'⟩
        rw [hfind] at hn'
        cases hn'
        rfl
      · rintro rfl
        exact ⟨n, hfind⟩
    have hexists : sys.pathExists w.tree path = true := by rw [pathExists, hlook]; rfl
    rw [hset, SetConfigs.when, if_pos hexists]
    obtain ⟨w₁, hchown, hw₁, hl₁⟩ := chown_of_calm hw hfind uid gid
    have hn₁ : w₁.tree.lookup l = some (withAttr n ⟨chownMode n n.attr.mode, uid, gid⟩) := by
      rw [hl₁, if_pos rfl]
    have hcontent : SameContent w.tree w₁.tree := by
      intro l'
      rw [FileTree.content, FileTree.content, hl₁]
      split
      · rename_i hl
        rw [hl, hn, Option.map_some, Option.map_some, withAttr_content]
      · rfl
    obtain ⟨n₁, hfind₁, hn₁'⟩ := find_sameShape hcontent.sameShape hfind
    rw [hn₁] at hn₁'
    cases hn₁'
    obtain ⟨w₂, hmode, hw₂, hl₂⟩ := setMode_of_calm hw₁ hfind₁ hperm
    refine ⟨w₂, by rw [bind_of_ok hchown]; exact hmode, hw₂, ?_, ?_⟩
    · rintro l' rfl
      rw [hl₂, if_pos rfl, hn, withAttr_withAttr, withAttr_isDir,
        withAttr_attr (isLink_of_resolve hfind)]
      rfl
    · intro l' hl'
      have hne : l' ≠ l := hl'
      rw [hl₂, if_neg hne, hl₁, if_neg hne]

end SetPerms

/-! ## `handle_exclusion` -/

/-- `handle_exclusion` calls `set_perms`: there are no expressions, or one of
them does not match the text. -/
def Asked (sys : System β) (exclude : List String) (text : String) : Prop :=
  exclude = [] ∨ ∃ e ∈ exclude, sys.search e text = some false

/-- The expressions are well formed. -/
def SearchOk (sys : System β) (exclude : List String) : Prop :=
  ∀ e ∈ exclude, ∀ text, sys.search e text ≠ none

theorem paints_handleExclusion (sys : System β) (t : FileTree β) {uid gid : ℕ}
    {perm : Option String} (hperm : sys.PermOk perm) {exclude : List String}
    (hsearch : SearchOk sys exclude) (root : Path) (pathSuffix : String) :
    Paints (sys.grant uid gid perm) t
      (sys.handleExclusion exclude uid gid perm root pathSuffix)
      {l | l ∈ leadsTo sys t (Path.join root [pathSuffix]) ∧
        Asked sys exclude (Path.text (Path.join root [pathSuffix]))} := by
  unfold handleExclusion
  dsimp only
  have hset : Paints (sys.grant uid gid perm) t
      (sys.setPerms (Path.join root [pathSuffix]) uid gid perm)
      (leadsTo sys t (Path.join root [pathSuffix])) := paints_setPerms sys _ t hperm
  split
  · rename_i hne
    refine (Paints.forM (T := fun e => {l | sys.search e (Path.text (Path.join root [pathSuffix]))
      = some false ∧ l ∈ leadsTo sys t (Path.join root [pathSuffix])}) fun e he => ?_).congr ?_
    · cases hs : sys.search e (Path.text (Path.join root [pathSuffix])) with
      | none => exact absurd hs (hsearch e he _)
      | some found =>
        refine (Paints.when fun _ => hset).congr fun l n _ => ?_
        simp
    · intro l n _
      simp only [Asked, hne, false_or, Set.mem_ofPred_eq]
      constructor
      · rintro ⟨e, he, hs, hl⟩
        exact ⟨hl, e, he, hs⟩
      · rintro ⟨hl, e, he, hs⟩
        exact ⟨e, he, hs, hl⟩
  · rename_i hnil
    exact hset.congr fun l n _ => by simp [Asked, not_not.mp hnil]

/-! ## `handle_permissions` -/

/-- An entry that `handle_permissions` can carry out: its owner is known, its
mode is one, and its expressions are well formed. -/
structure Feasible (sys : System β) (permission : Permission) (path : Path) (uid gid : ℕ) :
    Prop where
  path : permission.path.get = some path
  owner : ∃ owner, permission.owner.get = some owner ∧
    sys.passwd.lookup (splitOwner owner).1 = some uid ∧
    sys.group.lookup (splitOwner owner).2 = some gid
  perm : sys.PermOk permission.perm.get
  search : SearchOk sys (permission.exclude.get.getD [])

/-- What a recursive entry comes to below one match of its path. -/
def below (sys : System β) (permission : Permission) (t : FileTree β) (dest : Path) : Set Loc :=
  {l | permission.recurse.truthy = true ∧ ∃ loc a rel, sys.find t true dest = .found loc (.dir a) ∧
    rel ≠ [] ∧ (∃ n, t.lookup (loc ++ rel) = some n) ∧ l ∈ sys.leadsTo t (Path.under dest rel) ∧
    Asked sys (permission.exclude.get.getD []) (Path.text (Path.under dest rel))}

/-- What an entry comes to. -/
def reached (sys : System β) (permission : Permission) (path : Path) (t : FileTree β) : Set Loc :=
  {l | ∃ dest ∈ sys.glob t path, l ∈ sys.leadsTo t dest ∨ l ∈ sys.below permission t dest}

section HandlePermissions

variable {sys : System β} {permission : Permission} {path : Path} {uid gid : ℕ}

theorem below_sameShape {t t' : FileTree β} (h : SameShape t t') {dest : Path} :
    sys.below permission t' dest = sys.below permission t dest := by
  have hsub : ∀ {t t' : FileTree β}, SameShape t t' →
      sys.below permission t dest ⊆ sys.below permission t' dest := by
    rintro t t' h l ⟨hrecurse, loc, a, rel, hfind, hne, ⟨n, hn⟩, hl, hasked⟩
    obtain ⟨b, hfind'⟩ := find_dir_sameShape h hfind
    obtain ⟨n', hn', -⟩ := h.some hn
    rw [← leadsTo_sameShape h] at hl
    exact ⟨hrecurse, loc, b, rel, hfind', hne, ⟨n', hn'⟩, hl, hasked⟩
  exact Set.Subset.antisymm (hsub h.symm) (hsub h)

/-- The walk below one match. -/
theorem paints_below (hfeasible : Feasible sys permission path uid gid) (t : FileTree β)
    (dest : Path) : Paints (sys.grant uid gid permission.perm.get) t (do
      let t ← tree
      when (permission.recurse.truthy ∧ sys.isdir t dest) do
        (sys.walk t dest).forM fun e => do
          e.2.1.forM fun dir_ => sys.handleExclusion (permission.exclude.get.getD []) uid gid
            permission.perm.get e.1 dir_
          e.2.2.forM fun file_ => sys.handleExclusion (permission.exclude.get.getD []) uid gid
            permission.perm.get e.1 file_)
      (sys.below permission t dest) := by
  refine Paints.tree_bind fun t' ht' => Paints.of_sameShape ?_ ht'
  rw [← below_sameShape ht']
  have hexclusion : ∀ root suffix, Paints (sys.grant uid gid permission.perm.get) t'
      (sys.handleExclusion (permission.exclude.get.getD []) uid gid permission.perm.get root suffix) _ :=
    paints_handleExclusion sys t' hfeasible.perm hfeasible.search
  refine (Paints.when fun _ => Paints.forM fun e _ =>
    (Paints.forM fun x _ => hexclusion e.1 x).seq (Paints.forM fun x _ => hexclusion e.1 x)).congr ?_
  intro l n hn
  have hwalk : ∀ {loc a}, sys.find t' true dest = .found loc (.dir a) → _ :=
    fun hfind => mem_walk_iff hfind fun p =>
      l ∈ sys.leadsTo t' p ∧ Asked sys (permission.exclude.get.getD []) (Path.text p)
  constructor
  · rintro ⟨⟨hrecurse, hdir⟩, hmem⟩
    obtain ⟨loc, a, hfind⟩ := isdir_iff.mp hdir
    obtain ⟨rel, hne, hn, hl⟩ := (hwalk hfind).mp hmem
    exact ⟨hrecurse, loc, a, rel, hfind, hne, hn, hl⟩
  · rintro ⟨hrecurse, loc, a, rel, hfind, hne, hn, hl⟩
    exact ⟨⟨hrecurse, isdir_iff.mpr ⟨loc, a, hfind⟩⟩, (hwalk hfind).mpr ⟨rel, hne, hn, hl⟩⟩

/-- An entry paints what it comes to. -/
theorem handlePermission_of_calm (hfeasible : Feasible sys permission path uid gid) {w : World β}
    (hw : Calm w) : ∃ w', sys.handlePermission permission w = .ok () w' ∧ Calm w' ∧
      Painted (sys.grant uid gid permission.perm.get) (sys.reached permission path w.tree)
        w.tree w'.tree := by
  obtain ⟨owner, howner, huser, hgroup⟩ := hfeasible.owner
  obtain ⟨w', hrun, hw', hp⟩ := (@Paints.forM _ _ _ _ (sys.glob w.tree path) _ _ fun dest _ =>
    (paints_setPerms sys dest w.tree hfeasible.perm).seq (paints_below hfeasible w.tree dest))
      w hw (fun _ => rfl)
  refine ⟨w', ?_, hw', hp⟩
  have huser' : sys.getpwnam (splitOwner owner).1 = pure uid := by rw [getpwnam, huser]
  have hgroup' : sys.getgrnam (splitOwner owner).2 = pure gid := by rw [getgrnam, hgroup]
  rw [handlePermission, howner, userGroup, pure_bind, huser', pure_bind, hgroup', pure_bind,
    hfeasible.path]
  exact hrun

end HandlePermissions

end System

end Kolla.SetConfigs
