import Kolla.SetConfigs.Replacement
import Kolla.SetConfigs.Limits
import Mathlib.Data.List.Perm.Basic

/-!
# Copies that merge

An entry that merges lays its source over what is at the destination
(`overlaid_of_copy`).  What comes out is determined by the source and the old
destination alone (`Overlaid.unique`), so neither the order in which directories
are listed nor a second run of `copy` makes a difference.
-/

namespace Kolla.SetConfigs

open Kolla.Lib Kolla.SetConfigs.System

variable {β : Type}

/-! ## The order of a listing -/

namespace System

variable (sys : System β) (listed : Loc → List String → List String)
  (listed_perm : ∀ loc names, (listed loc names).Perm names)

/-- The same container, with another order of its directories. -/
def relisted : System β := { sys with listed := listed, listed_perm := listed_perm }

variable (t : FileTree β)

theorem scandir_relisted (path : Path) :
    (((sys.relisted listed listed_perm).scandir t path).getD []).Perm
      ((sys.scandir t path).getD []) := by
  have hfind : (sys.relisted listed listed_perm).find t true path = sys.find t true path := rfl
  rw [scandir, scandir, hfind]
  cases sys.find t true path with
  | found l n =>
    cases n with
    | dir a => exact (listed_perm l _).trans (sys.listed_perm l _).symm
    | file c a => exact List.Perm.refl _
    | link target => exact List.Perm.refl _
  | free l slash => exact List.Perm.refl _
  | failed e => exact List.Perm.refl _

theorem glob1_relisted (dirname : Path) (pattern : String) (dironly : Bool) :
    ((sys.relisted listed listed_perm).glob1 t dirname pattern dironly).Perm
      (sys.glob1 t dirname pattern dironly) :=
  (((scandir_relisted sys listed listed_perm t _).filter _).filter _).filter _

theorem iglob_relisted (n : ℕ) (path : Path) (dironly : Bool) :
    ((sys.relisted listed listed_perm).iglob t n path dironly).Perm
      (sys.iglob t n path dironly) := by
  induction n generalizing path dironly with
  | zero => exact List.Perm.refl _
  | succ n ih =>
    rw [iglob, iglob]
    split
    · exact List.Perm.refl _
    · split
      · exact (glob1_relisted sys listed listed_perm t _ _ _).map _
      · refine List.Perm.flatMap ?_ fun d _ => List.Perm.map _ ?_
        · split
          · exact ih _ _
          · exact List.Perm.refl _
        · split
          · exact glob1_relisted sys listed listed_perm t _ _ _
          · exact List.Perm.refl _

/-- The matches of a pattern are the same ones. -/
theorem glob_relisted (path : Path) :
    ((sys.relisted listed listed_perm).glob t path).Perm (sys.glob t path) :=
  iglob_relisted sys listed listed_perm t _ path false

end System

namespace ConfigFile

variable {sys : System β} {self : ConfigFile} {R : Set Loc} {source dest : Path} {S D : Loc}

/-! ## Merged copies -/

/-- A source that can be laid over what is at the destination: there are no links
in either. -/
structure Mergeable (sys : System β) (R : Set Loc) (t : FileTree β) (source : Path) (S : Loc)
    (dest : Path) (D : Loc) : Prop where
  source : sys.Anchored R t source S
  lands : Lands sys R t S dest D
  apart : Apart S D
  there : t.lookup S ≠ none
  plain : ∀ rel target, t.subtree S rel ≠ some (.link target, none)
  bare : ∀ rel target, t.subtree D rel ≠ some (.link target, none)

/-- Nothing keeps the copy from returning: the owner is known, the mode can be set,
and the two trees are not too deep. -/
structure Ready (sys : System β) (file : ConfigFile) (t : FileTree β) (S D : Loc) : Prop where
  grants : file.preserveProperties = false → ∃ G, Grants sys file G
  shallow : ∀ rel, t.subtree S rel ≠ none → rel.length < sys.recursionLimit
  depth : ∀ rel, t.subtree D rel = some (.dir, none) → rel.length < sys.recursionLimit

theorem subtree_lt {t : FileTree β} {N : ℕ} (hN : ∀ l n, t.lookup l = some n → l.length < N)
    {l rel : Loc} (hrel : t.subtree l rel ≠ none) : rel.length < N := by
  obtain ⟨n, hn⟩ := FileTree.subtree_ne_none.mp hrel
  have := hN _ n hn
  rw [List.length_append] at this
  omega

namespace Mergeable

variable {t t' : FileTree β}

theorem copyable {preserve : Bool} (h : Mergeable sys R t source S dest D)
    (hready : Ready sys self t S D) :
    Copyable sys preserve true R Set.univ t source S dest D where
  source := h.source
  lands := h.lands
  apart := h.apart
  there := h.there
  plain := h.plain
  clear _ rel target _ := h.bare rel target
  direct := nofun
  shallow := hready.shallow
  depth := hready.depth
  stray _ _ _ _ _ _ _ := Set.subset_univ _

theorem relisted (h : Mergeable sys R t source S dest D)
    {listed : Loc → List String → List String}
    (listed_perm : ∀ loc names, (listed loc names).Perm names) :
    Mergeable (sys.relisted listed listed_perm) R t source S dest D :=
  ⟨h.source, h.lands.of_eq rfl rfl, h.apart, h.there, h.plain, h.bare⟩

theorem deeper (h : Mergeable sys R t source S dest D) (N : ℕ) :
    Mergeable (sys.deeper N) R t source S dest D :=
  ⟨h.source, h.lands.of_eq rfl rfl, h.apart, h.there, h.plain, h.bare⟩

theorem root_ne_none (h : Mergeable sys R t source S dest D) : t.subtree S [] ≠ none :=
  FileTree.subtree_root_ne_none.mpr h.there

end Mergeable

section Again

variable {t t' : FileTree β} {G : Paint β} {X : Set Loc}

/-- What is at the destination in the end comes from one of the two trees. -/
theorem Copied.from_either (h : Copied G X true (t.subtree S) D t t') {rel : Loc}
    {c : Kind × Option β} (hc : t'.subtree D rel = some c) :
    t.subtree S rel = some c ∨ t.subtree D rel = some c := by
  cases hsrc : t.subtree S rel with
  | some d =>
    rw [h.overlaid.there rel d hsrc] at hc
    exact Or.inl hc
  | none =>
    by_cases hhidden : Hidden IsFile (t.subtree S) rel
    · rw [h.overlaid.gone rel hsrc hhidden] at hc
      cases hc
    · rw [h.overlaid.kept rel hsrc hhidden, if_pos rfl] at hc
      exact Or.inr hc

/-- What was laid over the destination can be laid over it again. -/
theorem Mergeable.again (h : Mergeable sys R t source S dest D) (halike : AlikeOff R t t')
    (hcopied : Copied G X true (t.subtree S) D t t') : Mergeable sys R t' source S dest D := by
  have hS := hcopied.source_eq h.apart
  refine ⟨h.source.of_alike halike, hcopied.lands h.apart h.root_ne_none halike h.lands h.lands, h.apart,
    ?_,
    hS ▸ h.plain, fun rel target hlink => ?_⟩
  · have := h.root_ne_none
    rwa [← hS, FileTree.subtree_root_ne_none] at this
  · rcases hcopied.from_either hlink with hsrc | hold
    · exact h.plain rel target hsrc
    · exact h.bare rel target hold

theorem Ready.again (h : Ready sys self t S D) (hapart : Apart S D)
    (hcopied : Copied G X true (t.subtree S) D t t') : Ready sys self t' S D := by
  refine ⟨h.grants, hcopied.source_eq hapart ▸ h.shallow, fun rel hdir => ?_⟩
  rcases hcopied.from_either hdir with hsrc | hold
  · exact h.shallow rel (by rw [hsrc]; nofun)
  · exact h.depth rel hold

end Again

section Copies

variable {pattern : Path} {w w' : World β}

/-- A copy that can be made. -/
theorem copied_of_ready (hmerge : self.merge = true) (hdest : self.dest = some dest) (hw : Calm w)
    (h : Mergeable sys R w.tree source S (target dest source) D)
    (hready : Ready sys self w.tree S D) :
    ∃ w' G, self.copySource sys source w = .ok () w' ∧ Calm w' ∧ AlikeOff R w.tree w'.tree ∧
      Copied G Set.univ true (w.tree.subtree S) D w.tree w'.tree := by
  obtain ⟨G, hG⟩ := exists_paint hready.grants
  obtain ⟨w', hrun, hw', halike, hcopied⟩ :=
    copySource_of_calm hG hdest hw (hmerge ▸ h.copyable hready)
  rw [hmerge] at hcopied
  exact ⟨w', G, hrun, hw', halike, hcopied⟩

/-- A copy that has been made. -/
theorem copied_of_returned (hmerge : self.merge = true) (hdest : self.dest = some dest)
    (hw : Calm w) (h : Mergeable sys R w.tree source S (target dest source) D)
    (hrun : self.copySource sys source w = .ok () w') :
    ∃ G, Calm w' ∧ AlikeOff R w.tree w'.tree ∧
      Copied G Set.univ true (w.tree.subtree S) D w.tree w'.tree := by
  obtain ⟨N, hlimit, hN⟩ := exists_limit w.tree sys.recursionLimit
  obtain ⟨self', hagrees, hgrants, hrun'⟩ := ready_of_returned hlimit hrun
  have hready : Ready (sys.deeper N) self' w.tree S D :=
    ⟨hgrants, fun rel hrel => subtree_lt hN hrel, fun rel hrel => subtree_lt hN (by rw [hrel]; nofun)⟩
  obtain ⟨w'', G, hrun'', hw'', halike, hcopied⟩ := copied_of_ready (hagrees.merge.trans hmerge)
    (hagrees.dest.trans hdest) hw (h.deeper N) hready
  rw [hrun'] at hrun''
  cases hrun''
  exact ⟨G, hw'', halike, hcopied⟩

/-- After a copy the destination is the source laid over the old destination, in
whatever order the directories are listed, and a second copy changes nothing.  The
copy returns if nothing keeps it from that. -/
theorem overlaid_of_copy (hmerge : self.merge = true) (hsource : self.source = some pattern)
    (hdest : self.dest = some dest) (hw : Calm w) (hglob : sys.glob w.tree pattern = [source])
    (h : Mergeable sys R w.tree source S (target dest source) D) :
    (Ready sys self w.tree S D → ∃ w', self.copy sys w = .ok () w' ∧
      (∀ listed listed_perm, ∃ w'', self.copy (sys.relisted listed listed_perm) w = .ok () w'') ∧
      (sys.glob w'.tree pattern = [source] → ∃ w'', self.copy sys w' = .ok () w'')) ∧
    ∀ w', self.copy sys w = .ok () w' →
      Overlaid IsFile (w.tree.subtree S) (w.tree.subtree D) (w'.tree.subtree D) ∧
      (∀ listed listed_perm w'', self.copy (sys.relisted listed listed_perm) w = .ok () w'' →
        SameContent w'.tree w''.tree) ∧
      (sys.glob w'.tree pattern = [source] → ∀ w'', self.copy sys w' = .ok () w'' →
        SameContent w'.tree w''.tree) := by
  have hglob' : ∀ listed listed_perm,
      (sys.relisted listed listed_perm).glob w.tree pattern = [source] := by
    intro listed listed_perm
    have hperm := glob_relisted sys listed listed_perm w.tree pattern
    rwa [hglob, List.perm_singleton] at hperm
  constructor
  · intro hready
    obtain ⟨w', G, hrun, hw', halike, hcopied⟩ := copied_of_ready hmerge hdest hw h hready
    refine ⟨w', by rw [copy_singleton hsource hglob, hrun], fun listed listed_perm => ?_,
      fun hglob₂ => ?_⟩
    · have hready' : Ready (sys.relisted listed listed_perm) self w.tree S D :=
        ⟨hready.grants, hready.shallow, hready.depth⟩
      obtain ⟨w'', G', hrun', -⟩ :=
        copied_of_ready hmerge hdest hw (h.relisted listed_perm) hready'
      exact ⟨w'', by rw [copy_singleton hsource (hglob' listed listed_perm), hrun']⟩
    · obtain ⟨w'', G', hrun', -⟩ := copied_of_ready hmerge hdest hw' (h.again halike hcopied)
        (hready.again h.apart hcopied)
      exact ⟨w'', by rw [copy_singleton hsource hglob₂, hrun']⟩
  · intro w' hrun
    rw [copy_singleton hsource hglob] at hrun
    obtain ⟨G, hw', halike, hcopied⟩ := copied_of_returned hmerge hdest hw h hrun
    have hover : Overlaid IsFile (w.tree.subtree S) (w.tree.subtree D) (w'.tree.subtree D) :=
      hcopied.overlaid.congr fun rel _ => (if_pos rfl).symm
    refine ⟨hover, fun listed listed_perm w'' hrun' => ?_, fun hglob₂ w'' hrun' => ?_⟩
    · rw [copy_singleton hsource (hglob' listed listed_perm)] at hrun'
      obtain ⟨G', -, -, hcopied'⟩ :=
        copied_of_returned hmerge hdest hw (h.relisted listed_perm) hrun'
      exact hcopied.sameContent hcopied' h.root_ne_none (fun _ _ _ => rfl)
        (hcopied'.overlaid.unique hcopied.overlaid)
    · rw [copy_singleton hsource hglob₂] at hrun'
      obtain ⟨G', -, -, hcopied'⟩ :=
        copied_of_returned hmerge hdest hw' (h.again halike hcopied) hrun'
      rw [hcopied.source_eq h.apart] at hcopied'
      refine hcopied.sameContent hcopied' h.root_ne_none (fun l hl hpre => ?_) ?_
      · rw [hcopied.content_outside h.root_ne_none hl, if_neg hpre]
      · exact (hcopied'.overlaid.congr fun rel _ => (if_pos rfl).symm).unique hover.again

end Copies

/-! ## A directory with another file in it -/

/-- `blindEntry`, but it merges. -/
def mergeEntry : ConfigFile := { blindEntry with merge := true }

theorem mergeable_mergeEntry : Mergeable rootSystem (around ["etc", "app"]) blindTree
    ["", "src"] ["src"] ["", "etc", "app"] ["etc", "app"] :=
  ⟨replaceable_blindEntry.source, replaceable_blindEntry.lands, replaceable_blindEntry.apart,
    replaceable_blindEntry.there, replaceable_blindEntry.plain,
    fun rel => FileTree.linkFree_iff.mp linkFree_blindTree (["etc", "app"] ++ rel)⟩

theorem ready_mergeEntry : Ready rootSystem mergeEntry blindTree ["src"] ["etc", "app"] :=
  ⟨fun _ => grants_blindEntry, replaceable_blindEntry.shallow, replaceable_blindEntry.depth⟩

/-- `overlaid_of_copy` where the destination has a file of its own. -/
theorem overlaid_directory :
    ∃ w', mergeEntry.copy rootSystem ⟨blindTree, []⟩ = .ok () w' ∧
      Overlaid IsFile (blindTree.subtree ["src"]) (blindTree.subtree ["etc", "app"])
        (w'.tree.subtree ["etc", "app"]) := by
  obtain ⟨hreturns, hover⟩ := @overlaid_of_copy Content rootSystem mergeEntry
    (around ["etc", "app"]) ["", "src"] ["", "etc", "app"] ["src"] ["etc", "app"] ["", "src"]
    ⟨blindTree, []⟩ rfl rfl rfl (calm_of_no_faults _) (by decide +kernel) mergeable_mergeEntry
  obtain ⟨w', hrun, -⟩ := hreturns ready_mergeEntry
  exact ⟨w', hrun, (hover w' hrun).1⟩

end ConfigFile

end Kolla.SetConfigs
