import Kolla.SetConfigs.Completion
import Kolla.Lib.Overlay

/-!
# What `_merge_directories` makes

`_merge_directories` lays a source over what is at its destination.  `Laid` says
what that is: below the destination the old contents with the source laid over
them, and elsewhere nothing but the attributes that the patterns of
`handle_permissions` happen to reach.  `mergeDirectories_of_calm` is the proof, by
induction on the depth that is left: one lemma for a file, one for a directory, and
one for the loop over its entries.
-/

namespace Kolla.SetConfigs

open Kolla.Lib Kolla.SetConfigs.System

variable {β : Type}

namespace System

/-- What the matches of a pattern lead to. -/
def globbed (sys : System β) (t : FileTree β) (path : Path) : Set Loc :=
  {l | ∃ dest ∈ sys.glob t path, l ∈ sys.leadsTo t dest}

end System

namespace ConfigFile

variable {sys : System β} {self : ConfigFile} {G : Paint β} {X : Set Loc}

/-! ## `_set_properties` -/

/-- The owner is known and the mode is one, and `G` is what they make of a
node. -/
def Grants (sys : System β) (self : ConfigFile) (G : Paint β) : Prop :=
  ∃ owner uid gid, self.owner = some owner ∧
    sys.passwd.lookup (splitOwner owner).1 = some uid ∧
    sys.group.lookup (splitOwner owner).2 = some gid ∧ sys.PermOk self.perm ∧
    G = sys.grant uid gid self.perm

theorem get_ofOption {α : Type} (o : Option α) : (Key.ofOption o).get = o := by
  cases o <;> rfl

theorem setPropertiesFromConf_of_calm (hgrants : Grants sys self G) {w : World β} (hw : Calm w)
    (dest : Path) :
    ∃ w', self.setPropertiesFromConf sys dest w = .ok () w' ∧ Calm w' ∧
      Painted G (sys.globbed w.tree dest) w.tree w'.tree := by
  obtain ⟨owner, uid, gid, howner, huser, hgroup, hperm, rfl⟩ := hgrants
  have hfeasible : Feasible sys
      { path := .given dest
        owner := Key.ofOption self.owner
        recurse := .absent
        perm := Key.ofOption self.perm
        exclude := .absent } dest uid gid := by
    refine ⟨rfl, ⟨owner, ?_, huser, hgroup⟩, ?_, nofun⟩
    · rw [get_ofOption, howner]
    · rwa [get_ofOption]
  obtain ⟨w', hrun, hw', hp⟩ := handlePermission_of_calm hfeasible hw
  rw [get_ofOption] at hp
  refine ⟨w', forM_cons_eq_ok.mpr ⟨w', hrun, rfl⟩, hw', hp.congr fun l n _ => ?_⟩
  constructor
  · rintro ⟨p, hp, hl | ⟨hrecurse, -⟩⟩
    · exact ⟨p, hp, hl⟩
    · cases hrecurse
  · rintro ⟨p, hp, hl⟩
    exact ⟨p, hp, Or.inl hl⟩

theorem setPropertiesFromFile_of_calm {w : World β} (hw : Calm w) {source dest : Path}
    {S D : Loc} {m n : Node β} (hsource : sys.find w.tree true source = .found S m)
    (hdest : sys.find w.tree true dest = .found D n) :
    ∃ w' a, setPropertiesFromFile sys source dest w = .ok () w' ∧ Calm w' ∧
      ∀ l, w'.tree.lookup l = if l = D then some (withAttr n a) else w.tree.lookup l := by
  obtain ⟨w₁, a, hmode, hw₁, hl₁⟩ := copymode_of_calm hw hsource hdest
  have hsame : SameContent w.tree w₁.tree := by
    intro l
    rw [FileTree.content, FileTree.content, hl₁]
    split
    · rename_i hl
      rw [hl, lookup_of_resolve hdest, Option.map_some, Option.map_some, withAttr_content]
    · rfl
  obtain ⟨m₁, hsource₁, -⟩ := find_sameShape hsame.sameShape hsource
  obtain ⟨n₁, hdest₁, hn₁⟩ := find_sameShape hsame.sameShape hdest
  rw [hl₁, if_pos rfl] at hn₁
  cases hn₁
  have hstat := stat_of_calm hw₁ hsource₁
  obtain ⟨w', b, hchown, hw', hl'⟩ := chown_node_of_calm (w := ⟨w₁.tree, w₁.faults.tail⟩)
    (hw₁.tail _) hdest₁ m₁.attr.uid m₁.attr.gid
  refine ⟨w', b, ?_, hw', fun l => ?_⟩
  · rw [setPropertiesFromFile, copystat, bind_of_ok hmode, bind_of_ok hstat]
    exact hchown
  · rw [hl', withAttr_withAttr]
    dsimp only
    rw [hl₁]
    split <;> rfl

/-- Afterwards the contents are the same, and the nodes away from the destination have
at most been painted. -/
theorem setProperties_of_calm (hgrants : self.preserveProperties = false → Grants sys self G)
    {w : World β} (hw : Calm w) {source dest : Path} {S D : Loc} {m n : Node β}
    (hsource : sys.find w.tree true source = .found S m)
    (hdest : sys.find w.tree true dest = .found D n)
    (hstray : self.preserveProperties = false → sys.globbed w.tree dest ⊆ X) :
    ∃ w', self.setProperties sys source dest w = .ok () w' ∧ Calm w' ∧
      SameContent w.tree w'.tree ∧ ∀ l, l ≠ D → Dabbed G X w.tree w'.tree l := by
  have hn : w.tree.lookup D = some n := lookup_of_resolve hdest
  cases hpreserve : self.preserveProperties with
  | false =>
    obtain ⟨w', hrun, hw', hp⟩ := setPropertiesFromConf_of_calm (hgrants hpreserve) hw dest
    refine ⟨w', ?_, hw', hp.content_eq, fun l _ => hp.dabbed (hstray hpreserve) l⟩
    rw [setProperties, hpreserve, if_neg Bool.false_ne_true, hrun]
  | true =>
    obtain ⟨w', a, hrun, hw', hl'⟩ := setPropertiesFromFile_of_calm hw hsource hdest
    refine ⟨w', ?_, hw', fun l => ?_, fun l hl => ?_⟩
    · rw [setProperties, hpreserve, if_pos rfl, hrun]
    · rw [FileTree.content, FileTree.content, hl']
      split
      · rename_i hl
        rw [hl, hn, Option.map_some, Option.map_some, withAttr_content]
      · rfl
    · exact Dabbed.of_eq (by rw [hl', if_neg hl])

/-! ## What is laid where -/

/-- The content of a regular file. -/
def IsFile (c : Kind × Option β) : Prop := c.1 = .file

/-- Below `D` the tree has its old contents with `src` laid over them, and nothing else
has changed, but for some paint. -/
structure Laid (G : Paint β) (X : Set Loc) (src : Loc → Option (Kind × Option β)) (D : Loc)
    (t t' : FileTree β) : Prop where
  overlaid : Overlaid IsFile src (t.subtree D) (t'.subtree D)
  outside : ∀ l, ¬ D <+: l → Dabbed G X t t' l

/-- The contents have changed below `D` at most, and there only to nothing or to what
`src` has. -/
def Toward (src : Loc → Option (Kind × Option β)) (D : Loc) (t t' : FileTree β) : Prop :=
  ∀ l, t'.content l = t.content l ∨
    ∃ rel, l = D ++ rel ∧ (t'.content l = none ∨ t'.content l = src rel)

theorem Toward.child {src : Loc → Option (Kind × Option β)} {D : Loc} {t t' : FileTree β}
    {x : String} (h : Toward (fun rel => src (x :: rel)) (D ++ [x]) t t') : Toward src D t t' := by
  intro l
  refine (h l).imp_right fun ⟨rel, hl, hcontent⟩ => ⟨x :: rel, ?_, hcontent⟩
  rw [hl, List.append_assoc, List.singleton_append]

namespace Laid

variable {src : Loc → Option (Kind × Option β)} {D : Loc} {t t' : FileTree β}

theorem content_eq (h : Laid G X src D t t') {l : Loc} (hl : ¬ D <+: l) :
    t'.content l = t.content l :=
  (h.outside l hl).content_eq

theorem subtree_eq (h : Laid G X src D t t') {l : Loc} (hl : Apart l D) :
    t'.subtree l = t.subtree l :=
  funext fun rel => h.content_eq (hl.not_prefix_append rel)

theorem toward (h : Laid G X src D t t') : Toward src D t t' := by
  intro l
  by_cases hl : D <+: l
  · obtain ⟨rel, rfl⟩ := hl
    cases hsrc : src rel with
    | some c => exact Or.inr ⟨rel, rfl, Or.inr ((h.overlaid.there rel c hsrc).trans hsrc.symm)⟩
    | none =>
      by_cases hhidden : Hidden IsFile src rel
      · exact Or.inr ⟨rel, rfl, Or.inl (h.overlaid.gone rel hsrc hhidden)⟩
      · exact Or.inl (h.overlaid.kept rel hsrc hhidden)
  · exact Or.inl (h.content_eq hl)

end Laid

/-- A place where something can be put: an entry of a directory that is there. -/
structure Site (sys : System β) (R : Set Loc) (t : FileTree β) (path : Path) (D : Loc) : Prop where
  entry : ∃ p x P, path = Path.join p [x] ∧ D = P ++ [x] ∧ IsName x ∧ sys.Anchored R t p P ∧
    t.isDir P = true
  inside : ∀ l, D <+: l → l ∈ R

namespace Site

variable {R : Set Loc} {t t' : FileTree β} {path : Path} {D : Loc}

theorem anchored (h : Site sys R t path D) : sys.Anchored R t path D := by
  obtain ⟨p, x, P, rfl, rfl, hx, hp, -⟩ := h.entry
  exact hp.join hx

theorem isName (h : Site sys R t path D) : IsName (Path.basename path) := by
  obtain ⟨p, x, P, rfl, rfl, hx, -, -⟩ := h.entry
  rwa [Path.basename, Path.getLastD_join_name]

theorem ne_nil (h : Site sys R t path D) : D ≠ [] := by
  obtain ⟨p, x, P, rfl, rfl, -, -, -⟩ := h.entry
  simp

theorem parent (h : Site sys R t path D) : t.isDir D.dropLast = true := by
  obtain ⟨p, x, P, rfl, rfl, -, -, hP⟩ := h.entry
  rwa [List.dropLast_concat]

theorem of_alike (h : Site sys R t path D) (ht : AlikeOff R t t')
    (hparent : t'.isDir D.dropLast = true) : Site sys R t' path D := by
  obtain ⟨p, x, P, rfl, rfl, hx, hp, -⟩ := h.entry
  rw [List.dropLast_concat] at hparent
  exact ⟨⟨p, x, P, rfl, rfl, hx, hp.of_alike ht, hparent⟩, h.inside⟩

end Site

/-- A source fits over a destination: there are no links in it nor in its way, and
what has to be deleted is not too deep.  `X` says what the destination and the paths
below it match as patterns, once the source is there, and `P` is what is known of the
trees while it is being laid. -/
structure Fits (sys : System β) (preserve : Bool) (R X : Set Loc) (P : FileTree β → Prop)
    (t : FileTree β) (S : Loc) (dest : Path) (D : Loc) : Prop where
  plain : ∀ rel target, t.subtree S rel ≠ some (.link target, none)
  clear : ∀ rel target, t.subtree S rel ≠ none → t.subtree D rel ≠ some (.link target, none)
  depth : ∀ rel, t.subtree D rel = some (.dir, none) → rel.length < sys.recursionLimit
  known : P t
  toward : ∀ t₁ t₂, P t₁ → Toward (t.subtree S) D t₁ t₂ → P t₂
  stray : preserve = false → ∀ rel, t.subtree S rel ≠ none →
    ∀ t', AlikeOff R t t' → P t' → t'.subtree D rel = t.subtree S rel →
      sys.globbed t' (Path.under dest rel) ⊆ X
  limit : 0 < sys.recursionLimit

namespace Fits

variable {preserve : Bool} {R R' : Set Loc} {P : FileTree β → Prop} {t t' : FileTree β}
  {dest : Path} {S D : Loc}

/-- It fits later, too, if the source and the destination are as they were, or the
destination is a directory now. -/
theorem of_same (h : Fits sys preserve R X P t S dest D) (hR : R' ⊆ R) (ht : AlikeOff R t t')
    (hP : P t') (hS : t'.subtree S = t.subtree S)
    (hD : ∀ rel, t'.subtree D rel = t.subtree D rel ∨
      rel = [] ∧ t'.subtree D rel = some (.dir, none)) :
    Fits sys preserve R' X P t' S dest D where
  plain := hS ▸ h.plain
  clear rel target hrel := by
    rcases hD rel with heq | ⟨-, hdir⟩
    · rw [heq]
      exact h.clear rel target (hS ▸ hrel)
    · rw [hdir]
      nofun
  depth rel hrel := by
    rcases hD rel with heq | ⟨rfl, -⟩
    · exact h.depth rel (heq ▸ hrel)
    · exact h.limit
  known := hP
  toward := hS ▸ h.toward
  stray hpreserve rel hrel t'' ht'' hP'' heq :=
    h.stray hpreserve rel (hS ▸ hrel) t'' (ht.trans (ht''.mono hR)) hP'' (heq.trans (congrFun hS rel))
  limit := h.limit

theorem child (h : Fits sys preserve R X P t S dest D) (x : String) :
    Fits sys preserve R X P t (S ++ [x]) (Path.join dest [x]) (D ++ [x]) where
  plain rel target := by
    rw [← FileTree.subtree_cons]
    exact h.plain _ target
  clear rel target := by
    rw [← FileTree.subtree_cons, ← FileTree.subtree_cons]
    exact h.clear _ target
  depth rel := by
    rw [← FileTree.subtree_cons]
    intro hrel
    have := h.depth _ hrel
    rw [List.length_cons] at this
    omega
  known := h.known
  toward t₁ t₂ hP htoward := by
    refine h.toward t₁ t₂ hP (Toward.child (x := x) ?_)
    simpa only [FileTree.subtree_cons] using htoward
  stray hpreserve rel := by
    simp only [← FileTree.subtree_cons]
    exact h.stray hpreserve _
  limit := h.limit

end Fits

/-- A source that can be laid over a destination.  Neither path leads through
what happens at the destination. -/
structure Layable (sys : System β) (preserve : Bool) (R X : Set Loc) (P : FileTree β → Prop)
    (t : FileTree β) (source : Path) (S : Loc) (dest : Path) (D : Loc) : Prop
    extends Fits sys preserve R X P t S dest D where
  source : sys.Anchored R t source S
  site : Site sys R t dest D
  apart : Apart S D

namespace Layable

variable {preserve : Bool} {R : Set Loc} {P : FileTree β → Prop} {t t' : FileTree β}
  {source dest : Path} {S D : Loc}

theorem of_same (h : Layable sys preserve R X P t source S dest D) (ht : AlikeOff R t t')
    (hP : P t') (hparent : t'.isDir D.dropLast = true) (hS : t'.subtree S = t.subtree S)
    (hD : ∀ rel, t'.subtree D rel = t.subtree D rel ∨
      rel = [] ∧ t'.subtree D rel = some (.dir, none)) :
    Layable sys preserve R X P t' source S dest D :=
  ⟨h.toFits.of_same subset_rfl ht hP hS hD, h.source.of_alike ht, h.site.of_alike ht hparent, h.apart⟩

/-- The destination of something is no link. -/
theorem not_link (h : Layable sys preserve R X P t source S dest D) (hS : t.lookup S ≠ none)
    (target : Path) : t.lookup D ≠ some (.link target) := by
  intro hlink
  refine h.clear [] target ?_ ?_
  · exact FileTree.subtree_root_ne_none.mpr hS
  · exact FileTree.subtree_root_of_lookup hlink

/-- What happens at the destination does not reach the source. -/
theorem source_outside (h : Layable sys preserve R X P t source S dest D) (rel : Loc) :
    ¬ D <+: S ++ rel :=
  h.apart.not_prefix_append rel

end Layable

/-- A source whose entries can be laid over those of a directory that is there. -/
structure Prepared (sys : System β) (preserve : Bool) (R X : Set Loc) (P : FileTree β → Prop)
    (t : FileTree β) (source : Path) (S : Loc) (dest : Path) (D : Loc) : Prop
    extends Fits sys preserve R X P t S dest D where
  source : sys.Anchored R t source S
  anchored : sys.Anchored R t dest D
  dir : t.isDir D = true
  inside : ∀ x l, D ++ [x] <+: l → l ∈ R
  apart : Apart S D

namespace Prepared

variable {preserve : Bool} {R : Set Loc} {P : FileTree β → Prop} {t t' : FileTree β}
  {source dest : Path} {S D : Loc}

/-- Nothing but attributes has changed. -/
theorem of_content (h : Prepared sys preserve R X P t source S dest D)
    (hsame : SameContent t t') : Prepared sys preserve R X P t' source S dest D := by
  have ht : AlikeOff R t t' := AlikeOff.of_content fun l _ => hsame l
  have hP : P t' := h.toward t t' h.known fun l => Or.inl (hsame l)
  refine ⟨h.toFits.of_same subset_rfl ht hP (funext fun rel => hsame (S ++ rel))
    fun rel => Or.inl (hsame (D ++ rel)), h.source.of_alike ht, h.anchored.of_alike ht, ?_, h.inside,
    h.apart⟩
  rw [← FileTree.content_eq_dir, hsame, FileTree.content_eq_dir]
  exact h.dir

theorem child (h : Prepared sys preserve R X P t source S dest D) {x : String} (hx : IsName x) :
    Layable sys preserve R X P t (Path.join source [x]) (S ++ [x]) (Path.join dest [x]) (D ++ [x]) :=
  ⟨h.toFits.child x, h.source.join hx,
    ⟨⟨dest, x, D, rfl, rfl, hx, h.anchored, h.dir⟩, h.inside x⟩, h.apart.append [x] [x]⟩

end Prepared

/-- Where the destination is a directory, a source can be laid over it entry by
entry. -/
theorem Layable.prepared {preserve : Bool} {R : Set Loc} {P : FileTree β → Prop} {t : FileTree β}
    {source dest : Path} {S D : Loc} (h : Layable sys preserve R X P t source S dest D)
    (hdir : t.isDir D = true) : Prepared sys preserve R X P t source S dest D :=
  ⟨h.toFits, h.source, h.site.anchored, hdir,
    fun x l hl => h.site.inside l ((List.prefix_append D [x]).trans hl), h.apart⟩

/-! ## A file -/

section File

variable {R : Set Loc} {P : FileTree β → Prop} {source dest : Path} {S D : Loc}

/-- Clearing the destination. -/
theorem clear_of_calm {w : World β} (hw : Calm w)
    (h : Layable sys self.preserveProperties R X P w.tree source S dest D) (hS : w.tree.lookup S ≠ none) :
    ∃ w', deletePath sys dest w = .ok () w' ∧ Calm w' ∧ Cleared {l | D <+: l} w.tree w'.tree := by
  refine deletePath_of_calm hw h.site.anchored h.site.inside h.site.isName h.site.ne_nil
    h.site.parent (fun rel hdir => ?_) fun hlink => ?_
  · exact h.depth rel (FileTree.content_eq_dir.mpr hdir)
  · rw [islink_of_reaches h.site.anchored.reaches h.site.parent] at hlink
    cases hn : w.tree.lookup D with
    | none => simp [hn] at hlink
    | some n =>
      rw [hn] at hlink
      cases n with
      | file c a => cases hlink
      | dir a => cases hlink
      | link target => exact absurd hn (h.not_link hS target)

theorem not_prefix_dropLast {l : Loc} (hl : l ≠ []) : ¬ l <+: l.dropLast := by
  intro h
  have := h.length_le
  rw [List.length_dropLast] at this
  have := List.length_pos_of_ne_nil hl
  omega

/-- What stands at and below a file. -/
theorem subtree_file {t : FileTree β} {l : Loc} {c : β} {a : Attr}
    (hfile : t.lookup l = some (.file c a)) (rel : Loc) :
    t.subtree l rel = if rel = [] then some (.file, some c) else none := by
  split
  · rename_i hrel
    rw [hrel]
    exact FileTree.subtree_root_of_lookup hfile
  · rename_i hrel
    exact FileTree.content_below (by rw [FileTree.content_of_lookup hfile]; nofun) hrel

/-- A file is laid over what is at its destination. -/
theorem copyFile_of_calm (hgrants : self.preserveProperties = false → Grants sys self G)
    {w : World β} (hw : Calm w) (h : Layable sys self.preserveProperties R X P w.tree source S dest D)
    {c : β} {b : Attr} (hS : w.tree.lookup S = some (.file c b)) :
    ∃ w', self.copyFile sys source dest w = .ok () w' ∧ Calm w' ∧
      Laid G X (w.tree.subtree S) D w.tree w'.tree := by
  obtain ⟨w₁, hdelete, hw₁, hc⟩ := clear_of_calm hw h (by rw [hS]; nofun)
  have halike₁ : AlikeOff R w.tree w₁.tree := hc.alikeOff h.site.inside
  have hS₁ : w₁.tree.lookup S = some (.file c b) := by
    rw [hc.outside S ?_, hS]
    have := h.source_outside []
    rwa [List.append_nil] at this
  have hislink : sys.islink w₁.tree source = false := by
    rw [islink, find_nofollow (h.source _ halike₁) hS₁]
    rfl
  have hparent₁ : w₁.tree.isDir D.dropLast = true := by
    have := h.site.parent
    rwa [FileTree.isDir_iff, hc.outside _ (not_prefix_dropLast h.site.ne_nil), ← FileTree.isDir_iff]
  obtain ⟨w₂, a, hcopy, hw₂, hl₂⟩ := copy_of_calm hw₁ (h.source.of_alike halike₁) hS₁
    (h.site.anchored.of_alike halike₁) (h.site.inside D (List.prefix_refl D))
    (hc.inside D (List.prefix_refl D)) hparent₁
  have halike₂ : AlikeOff R w.tree w₂.tree := by
    refine halike₁.trans fun l hl => ?_
    have hne : l ≠ D := fun heq => hl (h.site.inside l (heq ▸ List.prefix_refl l))
    rw [hl₂, if_neg hne]
  have hS₂ : w₂.tree.lookup S = some (.file c b) := by
    have hne : S ≠ D := fun heq => h.apart.1 (heq ▸ List.prefix_refl S)
    rw [hl₂, if_neg hne, hS₁]
  have hD₂ : w₂.tree.lookup D = some (.file c a) := by rw [hl₂, if_pos rfl]
  have hthere₂ : w₂.tree.subtree D [] = w.tree.subtree S [] := by
    rw [subtree_file hD₂, subtree_file hS]
  have hP₂ : P w₂.tree := h.toward _ _ h.known fun l => by
    by_cases hl : D <+: l
    · obtain ⟨rel, rfl⟩ := hl
      exact Or.inr ⟨rel, rfl, Or.inr (by
        rw [← FileTree.subtree, subtree_file hD₂, subtree_file hS])⟩
    · have hne : l ≠ D := fun heq => hl (heq ▸ List.prefix_refl l)
      rw [FileTree.content, hl₂, if_neg hne, hc.outside l hl]
      exact Or.inl rfl
  obtain ⟨w₃, hproperties, hw₃, hsame, hdabbed⟩ := setProperties_of_calm hgrants hw₂
    (find_of_reaches (h.source _ halike₂) hS₂ fun _ => rfl)
    (find_of_reaches (h.site.anchored _ halike₂) hD₂ fun _ => rfl)
    (fun hpreserve => h.stray hpreserve [] (by
      rw [FileTree.subtree_root_ne_none, hS]
      nofun) _ halike₂ hP₂ hthere₂)
  have hroot : w.tree.subtree S [] = some (.file, some c) := by rw [subtree_file hS, if_pos rfl]
  refine ⟨w₃, ?_, hw₃, ?_, ?_⟩
  · rw [copyFile, bind_of_ok hdelete, SetConfigs.tree_bind, hislink, Bool.and_false,
      if_neg Bool.false_ne_true, bind_of_ok hcopy, hproperties]
  · refine Overlaid.of_leaf hroot rfl fun rel => ?_
    rw [FileTree.subtree, hsame, ← FileTree.subtree, subtree_file hD₂, subtree_file hS]
  · intro l hl
    have hne : l ≠ D := fun heq => hl (heq ▸ List.prefix_refl l)
    have heq : w₂.tree.lookup l = w.tree.lookup l := by rw [hl₂, if_neg hne, hc.outside l hl]
    exact (Dabbed.of_eq heq).trans (hdabbed l hne)

end File

/-! ## A directory -/

section Directory

variable {R : Set Loc} {P : FileTree β → Prop} {source dest : Path} {S D : Loc} {n : ℕ}

/-- The entries of a directory are laid one after the other. -/
theorem merge_entries_of_calm
    (ih : ∀ {source dest : Path} {S D : Loc} {w : World β}, Calm w →
      Layable sys self.preserveProperties R X P w.tree source S dest D →
      w.tree.lookup S ≠ none → (∀ rel, w.tree.subtree S rel ≠ none → rel.length < n) →
      ∃ w', self.mergeDirectories sys n source dest w = .ok () w' ∧ Calm w' ∧
        Laid G X (w.tree.subtree S) D w.tree w'.tree)
    {names : List String} (hnodup : names.Nodup) (hapart : Apart S D)
    (hR : ∀ x l, D ++ [x] <+: l → l ∈ R) {w : World β} (hw : Calm w) (hdir : w.tree.isDir D = true)
    (h : ∀ x ∈ names, Layable sys self.preserveProperties R X P w.tree
      (Path.join source [x]) (S ++ [x]) (Path.join dest [x]) (D ++ [x]))
    (hnames : ∀ x ∈ names, w.tree.subtree S [x] ≠ none)
    (hfuel : ∀ rel, w.tree.subtree S rel ≠ none → rel.length < n + 1) :
    ∃ w', (names.forM fun x =>
        self.mergeDirectories sys n (Path.join source [x]) (Path.join dest [x]) : Os β Unit) w
          = .ok () w' ∧ Calm w' ∧
      (∀ x ∈ names, Overlaid IsFile (w.tree.subtree (S ++ [x])) (w.tree.subtree (D ++ [x]))
        (w'.tree.subtree (D ++ [x]))) ∧
      ∀ l, (∀ x ∈ names, ¬ D ++ [x] <+: l) → Dabbed G X w.tree w'.tree l := by
  induction names generalizing w with
  | nil => exact ⟨w, rfl, hw, nofun, fun l _ => Dabbed.of_eq rfl⟩
  | cons x names ih' =>
    obtain ⟨hx, hnodup⟩ := List.nodup_cons.mp hnodup
    have hfirst := h x List.mem_cons_self
    obtain ⟨w₁, hrun, hw₁, hlaid⟩ := ih hw hfirst
      (fun hnone => hnames x List.mem_cons_self (FileTree.content_eq_none.mpr hnone))
      (fun rel hrel => by
        rw [← FileTree.subtree_cons] at hrel
        simpa using hfuel _ hrel)
    -- the source and the other entries are as they were
    have hsource : w₁.tree.subtree S = w.tree.subtree S :=
      hlaid.subtree_eq (by simpa using hapart.append [] [x])
    have hne : ∀ y ∈ names, y ≠ x := fun y hy heq => hx (heq ▸ hy)
    have halike : AlikeOff R w.tree w₁.tree := AlikeOff.of_content fun l hl =>
      hlaid.content_eq fun hpre => hl (hR x l hpre)
    have hnot : ¬ D ++ [x] <+: D := by
      intro hpre
      have := hpre.length_le
      rw [List.length_append, List.length_singleton] at this
      omega
    have hdir₁ : w₁.tree.isDir D = true := by
      rwa [← FileTree.content_eq_dir, hlaid.content_eq hnot, FileTree.content_eq_dir]
    have hsub : ∀ y, w₁.tree.subtree (S ++ [y]) = w.tree.subtree (S ++ [y]) := by
      intro y
      funext rel
      rw [← FileTree.subtree_cons, ← FileTree.subtree_cons, hsource]
    have hP₁ : P w₁.tree := hfirst.toward _ _ hfirst.known hlaid.toward
    have hother : ∀ y ∈ names, w₁.tree.subtree (D ++ [y]) = w.tree.subtree (D ++ [y]) :=
      fun y hy => hlaid.subtree_eq (Apart.of_ne (hne y hy) D)
    obtain ⟨w', hrun', hw', hin, hout⟩ := ih' hnodup hw₁ hdir₁
      (fun y hy => (h y (List.mem_cons_of_mem _ hy)).of_same halike hP₁ (by simpa using hdir₁)
        (hsub y) fun rel => Or.inl (congrFun (hother y hy) rel))
      (fun y hy => hsource ▸ hnames y (List.mem_cons_of_mem _ hy)) (hsource ▸ hfuel)
    refine ⟨w', forM_cons_eq_ok.mpr ⟨w₁, hrun, hrun'⟩, hw', fun y hy => ?_, fun l hl => ?_⟩
    · rcases List.mem_cons.mp hy with rfl | hy
      · have hlater : w'.tree.subtree (D ++ [y]) = w₁.tree.subtree (D ++ [y]) := funext fun rel =>
          (hout _ fun z hz => (Apart.of_ne (hne z hz).symm D).not_prefix_append rel).content_eq
        exact hlater ▸ hlaid.overlaid
      · have hentry := hin y hy
        rwa [hsub y, hother y hy] at hentry
    · exact (hlaid.outside l (hl x List.mem_cons_self)).trans
        (hout l fun y hy => hl y (List.mem_cons_of_mem _ hy))

/-- What is no directory makes room for one. -/
theorem clear_for_directory {w : World β} (hw : Calm w)
    (h : Layable sys self.preserveProperties R X P w.tree source S dest D)
    (hS : w.tree.lookup S ≠ none) :
    ∃ w', when (sys.lexists w.tree dest ∧ sys.isdir w.tree dest = false) (deletePath sys dest) w
        = .ok () w' ∧ Calm w' ∧ (w'.tree.lookup D = none ∨ w'.tree.isDir D = true) ∧
      ∀ l, l ≠ D → w'.tree.lookup l = w.tree.lookup l := by
  rw [lexists_of_reaches h.site.anchored.reaches h.site.parent,
    isdir_of_reaches h.site.anchored.reaches h.site.parent (h.not_link hS), when]
  by_cases hdir : w.tree.isDir D = true
  · rw [if_neg (by simp [hdir])]
    exact ⟨w, rfl, hw, Or.inr hdir, fun _ _ => rfl⟩
  · cases hn : w.tree.lookup D with
    | none =>
      rw [if_neg (by simp)]
      exact ⟨w, rfl, hw, Or.inl hn, fun _ _ => rfl⟩
    | some n =>
      rw [if_pos ⟨rfl, by simpa using hdir⟩]
      obtain ⟨w', hrun, hw', hc⟩ := clear_of_calm hw h hS
      refine ⟨w', hrun, hw', Or.inl (hc.inside D (List.prefix_refl D)), fun l hl => ?_⟩
      by_cases hpre : D <+: l
      · obtain ⟨rel, rfl⟩ := hpre
        have hrel : rel ≠ [] := fun hnil => hl (by rw [hnil, List.append_nil])
        rw [hc.inside _ (List.prefix_append D rel), FileTree.lookup_below_none ?_ hrel]
        exact fun a ha => hdir (FileTree.isDir_iff.mpr ⟨a, ha⟩)
      · exact hc.outside l hpre

/-- The destination of a directory is one. -/
theorem make_directory {w : World β} (hw : Calm w) (hsite : Site sys R w.tree dest D)
    (hD : w.tree.lookup D = none ∨ w.tree.isDir D = true) :
    ∃ w', when (sys.isdir w.tree dest = false) (sys.makedirs dest false) w = .ok () w' ∧ Calm w' ∧
      w'.tree.isDir D = true ∧ ∀ l, l ≠ D → w'.tree.lookup l = w.tree.lookup l := by
  have hlink : ∀ target, w.tree.lookup D ≠ some (.link target) := by
    intro target hn
    rcases hD with hnone | hdir
    · rw [hn] at hnone
      cases hnone
    · obtain ⟨a, ha⟩ := FileTree.isDir_iff.mp hdir
      rw [hn] at ha
      cases ha
  rw [isdir_of_reaches hsite.anchored.reaches hsite.parent hlink, when]
  rcases hD with hnone | hdir
  · have hnot : w.tree.isDir D = false := by
      rw [Bool.eq_false_iff]
      intro hdir
      obtain ⟨a, ha⟩ := FileTree.isDir_iff.mp hdir
      rw [hnone] at ha
      cases ha
    rw [if_pos hnot]
    obtain ⟨p, x, P, rfl, rfl, hx, hp, hP⟩ := hsite.entry
    obtain ⟨a, ha⟩ := FileTree.isDir_iff.mp hP
    obtain ⟨w', b, hrun, hw', hl'⟩ := makedirs_of_calm hw hx hp.reaches ha hnone
    refine ⟨w', hrun, hw', FileTree.isDir_iff.mpr ⟨b, by rw [hl', if_pos rfl]⟩, fun l hl => ?_⟩
    rw [hl', if_neg hl]
  · rw [if_neg (by simp [hdir])]
    exact ⟨w, rfl, hw, hdir, fun _ _ => rfl⟩

/-- A directory is laid over one that is there, given that its entries are: the
properties are set, and then the loop runs. -/
theorem merge_prepared_of_calm (hgrants : self.preserveProperties = false → Grants sys self G)
    (ih : ∀ {source dest : Path} {S D : Loc} {w : World β}, Calm w →
      Layable sys self.preserveProperties R X P w.tree source S dest D →
      w.tree.lookup S ≠ none → (∀ rel, w.tree.subtree S rel ≠ none → rel.length < n) →
      ∃ w', self.mergeDirectories sys n source dest w = .ok () w' ∧ Calm w' ∧
        Laid G X (w.tree.subtree S) D w.tree w'.tree)
    {w : World β} (hw : Calm w)
    (h : Prepared sys self.preserveProperties R X P w.tree source S dest D) {a : Attr}
    (hS : w.tree.lookup S = some (.dir a))
    (hfuel : ∀ rel, w.tree.subtree S rel ≠ none → rel.length < n + 1) :
    ∃ w', (do
        self.setProperties sys source dest
        let dirContent ← sys.listdir source
        dirContent.forM fun toCopy => self.mergeDirectories sys n
          (Path.join source [toCopy]) (Path.join dest [toCopy]) : Os β Unit) w = .ok () w' ∧
      Calm w' ∧ Laid G X (w.tree.subtree S) D w.tree w'.tree := by
  obtain ⟨b, hb⟩ := FileTree.isDir_iff.mp h.dir
  have hroot : w.tree.subtree S [] = some (.dir, none) := FileTree.subtree_root_of_lookup hS
  have hthere : w.tree.subtree D [] = w.tree.subtree S [] := by
    rw [hroot, FileTree.subtree_root_dir]
    exact h.dir
  obtain ⟨w₁, hproperties, hw₁, hsame, hdabbed⟩ := setProperties_of_calm hgrants hw
    (find_of_reaches h.source.reaches hS fun _ => rfl)
    (find_of_reaches h.anchored.reaches hb fun _ => rfl)
    (fun hpreserve => h.stray hpreserve [] (by rw [hroot]; exact Option.some_ne_none _) _ (AlikeOff.refl _ _) h.known hthere)
  have h₁ := h.of_content hsame
  have hsource₁ : w₁.tree.subtree S = w.tree.subtree S := funext fun rel => hsame (S ++ rel)
  obtain ⟨a₁, ha₁⟩ : ∃ a₁, w₁.tree.lookup S = some (.dir a₁) := by
    rw [← FileTree.isDir_iff, ← FileTree.content_eq_dir, hsame, FileTree.content_eq_dir,
      FileTree.isDir_iff]
    exact ⟨a, hS⟩
  have hlist : sys.listdir source w₁
      = .ok (sys.listed S (w₁.tree.names S)) ⟨w₁.tree, w₁.faults.tail⟩ :=
    onNode_of_calm hw₁ (find_of_reaches h₁.source.reaches ha₁ fun _ => rfl) rfl
  have hmem : ∀ x, x ∈ sys.listed S (w₁.tree.names S) ↔ w.tree.subtree S [x] ≠ none := by
    intro x
    rw [(sys.listed_perm _ _).mem_iff, FileTree.mem_names, ← hsource₁, FileTree.subtree, Ne,
      FileTree.content_eq_none, ← Ne, Option.ne_none_iff_exists']
  obtain ⟨w', hrun, hw', hin, hout⟩ := @merge_entries_of_calm _ sys self G X R P source dest S D n ih
    _ ((sys.listed_perm S _).nodup_iff.mpr (w₁.tree.nodup_names S)) h.apart h.inside
    ⟨w₁.tree, w₁.faults.tail⟩ (hw₁.tail _) h₁.dir (fun x hx => h₁.child (by
      obtain ⟨m, hm⟩ := FileTree.mem_names.mp ((sys.listed_perm S _).mem_iff.mp hx)
      exact FileTree.isName_of_lookup hm x (by simp)))
    (fun x hx => by rw [hsource₁]; exact (hmem x).mp hx) (by rw [hsource₁]; exact hfuel)
  have hsub : ∀ x, w₁.tree.subtree (S ++ [x]) = w.tree.subtree (S ++ [x]) := fun x =>
    funext fun rel => hsame _
  have hD' : Dabbed G X w₁.tree w'.tree D := by
    refine hout D fun x _ hpre => ?_
    have := hpre.length_le
    rw [List.length_append, List.length_singleton] at this
    omega
  -- what is not in the source is not touched
  have hother : ∀ x, x ∉ sys.listed S (w₁.tree.names S) → ∀ rel,
      Dabbed G X w₁.tree w'.tree (D ++ [x] ++ rel) := fun x hx rel => hout _ fun y hy =>
    (Apart.of_ne (fun heq : x = y => hx (heq ▸ hy)) D).not_prefix_append rel
  have hnothing : ∀ x, x ∉ sys.listed S (w₁.tree.names S) → ∀ rel,
      w.tree.subtree (S ++ [x]) rel = none := by
    intro x hx rel
    have hnone : w.tree.content (S ++ [x]) = none := by
      by_contra hsome
      exact hx ((hmem x).mpr hsome)
    by_cases hrel : rel = []
    · rwa [hrel, FileTree.subtree_nil]
    · exact FileTree.content_below (by rw [hnone]; exact (Option.some_ne_none _).symm) hrel
  refine ⟨w', ?_, hw', ?_, ?_⟩
  · rw [bind_of_ok hproperties, bind_of_ok hlist]
    exact hrun
  · refine Overlaid.of_entries (c := (.dir, none)) hroot (by simp [IsFile]) ?_ fun x => ?_
    · rw [FileTree.subtree_nil, hD'.content_eq, FileTree.content_eq_dir]
      exact h₁.dir
    · simp only [FileTree.subtree_cons]
      by_cases hx : x ∈ sys.listed S (w₁.tree.names S)
      · exact (hsub x ▸ hin x hx).congr fun rel _ => (hsame _).symm
      · refine Overlaid.of_none (hnothing x hx) fun rel => ?_
        exact (hother x hx rel).content_eq.trans (hsame _)
  · intro l hl
    have hne : l ≠ D := fun heq => hl (heq ▸ List.prefix_refl l)
    exact (hdabbed l hne).trans
      (hout l fun x _ hpre => hl ((List.prefix_append D [x]).trans hpre))

/-- A directory is laid over what is at its destination, given that its entries
are. -/
theorem merge_directory_of_calm (hgrants : self.preserveProperties = false → Grants sys self G)
    (ih : ∀ {source dest : Path} {S D : Loc} {w : World β}, Calm w →
      Layable sys self.preserveProperties R X P w.tree source S dest D →
      w.tree.lookup S ≠ none → (∀ rel, w.tree.subtree S rel ≠ none → rel.length < n) →
      ∃ w', self.mergeDirectories sys n source dest w = .ok () w' ∧ Calm w' ∧
        Laid G X (w.tree.subtree S) D w.tree w'.tree)
    {w : World β} (hw : Calm w)
    (h : Layable sys self.preserveProperties R X P w.tree source S dest D) {a : Attr}
    (hS : w.tree.lookup S = some (.dir a))
    (hfuel : ∀ rel, w.tree.subtree S rel ≠ none → rel.length < n + 1) :
    ∃ w', self.mergeDirectories sys (n + 1) source dest w = .ok () w' ∧ Calm w' ∧
      Laid G X (w.tree.subtree S) D w.tree w'.tree := by
  obtain ⟨w₁, hclear, hw₁, hD₁, hl₁⟩ := clear_for_directory hw h (by rw [hS]; nofun)
  -- only the destination itself changes before the entries are laid
  have halike : ∀ {t' : FileTree β}, (∀ l, l ≠ D → t'.lookup l = w.tree.lookup l) →
      AlikeOff R w.tree t' := fun hl l hR => by
    rw [hl l fun heq => hR (h.site.inside l (heq ▸ List.prefix_refl l))]
  have hparent : ∀ {t' : FileTree β}, (∀ l, l ≠ D → t'.lookup l = w.tree.lookup l) →
      t'.isDir D.dropLast = true := by
    intro t' hl
    have hne : D.dropLast ≠ D := fun heq =>
      not_prefix_dropLast h.site.ne_nil (by rw [heq])
    rw [FileTree.isDir_iff, hl _ hne, ← FileTree.isDir_iff]
    exact h.site.parent
  obtain ⟨w₂, hmake, hw₂, hD₂, hl₂⟩ := make_directory hw₁
    (h.site.of_alike (halike hl₁) (hparent hl₁)) hD₁
  have hlookup : ∀ l, l ≠ D → w₂.tree.lookup l = w.tree.lookup l :=
    fun l hl => (hl₂ l hl).trans (hl₁ l hl)
  have hne : ∀ rel, S ++ rel ≠ D := fun rel heq =>
    h.source_outside rel (heq ▸ List.prefix_refl D)
  have hbelow : ∀ rel, rel ≠ [] → D ++ rel ≠ D := fun rel hrel heq =>
    hrel (List.append_right_eq_self.mp heq)
  have hsource : w₂.tree.subtree S = w.tree.subtree S := funext fun rel => by
    rw [FileTree.subtree_congr (hlookup _ (hne rel))]
  have hdest : ∀ rel, rel ≠ [] → w₂.tree.subtree D rel = w.tree.subtree D rel := fun rel hrel => by
    rw [FileTree.subtree_congr (hlookup _ (hbelow rel hrel))]
  have hP₂ : P w₂.tree := h.toward _ _ h.known fun l => by
    by_cases hl : l = D
    · refine Or.inr ⟨[], by rw [hl, List.append_nil], Or.inr ?_⟩
      rw [hl, FileTree.subtree_root_of_lookup hS]
      exact FileTree.content_eq_dir.mpr hD₂
    · exact Or.inl (by rw [FileTree.content, hlookup l hl, FileTree.content])
  have hlayable : Layable sys self.preserveProperties R X P w₂.tree source S dest D := by
    refine h.of_same (halike hlookup) hP₂ (hparent hlookup) hsource fun rel => ?_
    by_cases hrel : rel = []
    · right
      exact ⟨hrel, hrel ▸ FileTree.subtree_root_dir.mpr hD₂⟩
    · exact Or.inl (hdest rel hrel)
  obtain ⟨w', hrun, hw', hlaid⟩ := merge_prepared_of_calm hgrants ih hw₂ (hlayable.prepared hD₂)
    (by rw [hlookup S (by simpa using hne []), hS]) (hsource ▸ hfuel)
  rw [hsource] at hlaid
  have hnil : ∀ rel, w.tree.subtree S rel = none → rel ≠ [] := by
    rintro rel hnone rfl
    rw [FileTree.subtree_root_of_lookup hS] at hnone
    cases hnone
  refine ⟨w', ?_, hw', ?_, ?_⟩
  · rw [mergeDirectories, SetConfigs.tree_bind,
      if_pos (isdir_iff.mpr ⟨S, a, find_of_reaches h.source.reaches hS fun _ => rfl⟩),
      bind_of_ok hclear, SetConfigs.tree_bind, bind_of_ok hmake]
    exact hrun
  · exact hlaid.overlaid.congr fun rel hnone => (hdest rel (hnil rel hnone)).symm
  · exact fun l hl => (Dabbed.of_eq (hlookup l fun heq => hl (heq ▸ List.prefix_refl l))).trans
      (hlaid.outside l hl)

/-- `_merge_directories` lays the source over what is at the destination. -/
theorem mergeDirectories_of_calm (hgrants : self.preserveProperties = false → Grants sys self G)
    (n : ℕ) {w : World β} (hw : Calm w)
    (h : Layable sys self.preserveProperties R X P w.tree source S dest D)
    (hS : w.tree.lookup S ≠ none) (hfuel : ∀ rel, w.tree.subtree S rel ≠ none → rel.length < n) :
    ∃ w', self.mergeDirectories sys n source dest w = .ok () w' ∧ Calm w' ∧
      Laid G X (w.tree.subtree S) D w.tree w'.tree := by
  induction n generalizing source dest S D w with
  | zero =>
    have := hfuel [] (FileTree.subtree_root_ne_none.mpr hS)
    cases this
  | succ n ih =>
    obtain ⟨m, hm⟩ := Option.ne_none_iff_exists'.mp hS
    cases m with
    | dir a => exact merge_directory_of_calm hgrants ih hw h hm hfuel
    | file c b =>
      have hfind : sys.find w.tree true source = .found _ _ :=
        find_of_reaches h.source.reaches hm fun _ => rfl
      rw [mergeDirectories, SetConfigs.tree_bind, isdir_eq_false (look_of_find hfind),
        if_neg (by simp [Node.isDir])]
      exact copyFile_of_calm hgrants hw h hm
    | link target =>
      exact absurd (FileTree.subtree_root_of_lookup hm) (h.plain [] target)

end Directory

end ConfigFile

end Kolla.SetConfigs
