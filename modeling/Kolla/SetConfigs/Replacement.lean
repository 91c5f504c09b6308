import Kolla.SetConfigs.SelfMatch
import Kolla.SetConfigs.Check

/-!
# Copies that replace

The destination of an entry that does not merge is deleted before the source is
copied.  `Replaced` says what is left in the end: the source, where the destination
was.  `copy` does that whatever the destination was (`replaced_iff`), unless it was
a link to a directory: `_delete_path` follows the link to find out what to delete,
and `shutil.rmtree` does not.
-/

namespace Kolla.SetConfigs

open Kolla.Lib Kolla.SetConfigs.System

variable {β : Type}

namespace ConfigFile

/-- The destination has the names and the contents of the source, and elsewhere
there are at most new directories on the way to it. -/
structure Replaced (S D : Loc) (t t' : FileTree β) : Prop where
  inside : t'.subtree D = t.subtree S
  outside : ∀ l, ¬ D <+: l →
    t'.lookup l = t.lookup l ∨ t.lookup l = none ∧ l <+: D ∧ t'.isDir l = true

/-- A source that can take the place of what is at the destination.  None of the
paths that are written matches anything outside of the destination, as a pattern,
while what stands below the destination is from the source. -/
structure Replaceable (sys : System β) (preserve : Bool) (R : Set Loc) (t : FileTree β)
    (source : Path) (S : Loc) (dest : Path) (D : Loc) : Prop where
  source : sys.Anchored R t source S
  lands : Lands sys R t S dest D
  apart : Apart S D
  there : t.lookup S ≠ none
  plain : ∀ rel target, t.subtree S rel ≠ some (.link target, none)
  shallow : ∀ rel, t.subtree S rel ≠ none → rel.length < sys.recursionLimit
  depth : ∀ rel, t.subtree D rel = some (.dir, none) → rel.length < sys.recursionLimit
  stray : preserve = false → ∀ rel, t.subtree S rel ≠ none →
    ∀ t', AlikeOff R t t' → Held false (t.subtree S) (t.subtree D) D t' →
      t'.subtree D rel = t.subtree S rel → sys.globbed t' (Path.under dest rel) ⊆ {l | D <+: l}

variable {sys : System β} {self : ConfigFile} {R : Set Loc} {source dest : Path} {S D : Loc}

section Below

variable {t : FileTree β} {a : Attr} {P : Loc} {m : Node β} {d p : Path}

/-- A match in a directory is an entry of it. -/
theorem entry_of_match {x y : String} {dironly : Bool} (hx : IsName x)
    (hd : sys.find t true d = .found P m)
    (h : y ∈ if hasMagic [x] then sys.glob1 t d x dironly else sys.glob0 t d x) :
    ∃ a n, m = .dir a ∧ t.lookup (P ++ [y]) = some n := by
  split at h
  · rw [glob1, if_neg (ne_empty_of_find hd).2, List.mem_filter, List.mem_filter, List.mem_filter,
      scandir, hd] at h
    cases m with
    | dir a =>
      obtain ⟨n, hn⟩ := FileTree.mem_names.mp ((sys.listed_perm P _).mem_iff.mp h.1.1.1)
      exact ⟨a, n, rfl, hn⟩
    | file c a => cases h.1.1.1
    | link target => cases h.1.1.1
  · rw [glob0, if_pos hx.1] at h
    split at h
    · rename_i hlexists
      obtain rfl := List.mem_singleton.mp h
      rw [lexists] at hlexists
      cases hfind : sys.find t false (Path.join d [y]) with
      | found L n =>
        obtain ⟨P', a, hP'⟩ := (resolve_parent hx (ne_empty_of_find hd).2 fun e he => by
          rw [find] at hfind
          rw [hfind] at he
          cases he).resolve_left (ne_empty_of_find hd).1
        have heq : sys.find t true d = .found P' (.dir a) := hP'
        rw [hd] at heq
        cases heq
        refine ⟨a, ?_⟩
        cases hn : t.lookup (P ++ [y]) with
        | some n => exact ⟨n, rfl, rfl⟩
        | none =>
          have hfree := (reaches_join hP' hx).free false hn (by
            rw [List.dropLast_concat]
            exact FileTree.isDir_iff.mpr ⟨a, lookup_of_resolve hP'⟩)
          rw [find, hfree] at hfind
          cases hfind
      | free L slash =>
        rw [hfind] at hlexists
        cases hlexists
      | failed e =>
        rw [hfind] at hlexists
        cases hlexists
    · cases h

/-- There are no other characters in the directory of an entry. -/
theorem hasMagic_dirname {path : Path} (hpath : hasMagic path = false) (x : String) :
    hasMagic (Path.dirname (Path.join path [x])) = false := by
  obtain ⟨init, hinit, hjoin⟩ : ∃ init, init ⊆ path ∧ Path.join path [x] = init ++ [x] := by
    rw [Path.join_name]
    split
    · exact ⟨path.dropLast, List.dropLast_subset path, rfl⟩
    · exact ⟨path, List.Subset.refl path, rfl⟩
  rw [hjoin]
  by_contra hmagic
  rw [Bool.not_eq_false] at hmagic
  obtain ⟨y, hy, hchar⟩ := List.any_eq_true.mp hmagic
  exact List.any_eq_false.mp hpath y (hinit (List.IsPrefix.subset ( dirname_prefix hmagic) hy)) hchar

/-- The directory that a path below `dest` ends in. -/
theorem find_dirname_under (hD : sys.find t true dest = .found D (.dir a)) {names : List String}
    (hnames : ∀ x ∈ names, IsName x) {x : String} {m : Node β}
    (hm : t.lookup (D ++ (names ++ [x])) = some m) :
    ∃ b, sys.find t true (Path.dirname (Path.under dest (names ++ [x])))
      = .found (D ++ names) (.dir b) := by
  rw [Path.under_concat]
  by_cases hnil : names = []
  · subst hnil
    rw [List.append_nil]
    exact ⟨a, resolve_dirname hD⟩
  · rw [← List.append_assoc] at hm
    obtain ⟨b, hb⟩ := FileTree.ancestor_dir hm (List.cons_ne_nil _ _)
    rw [dirname_under hnil hnames]
    exact ⟨b, resolve_lookup hD hnil hb fun _ => rfl⟩

/-- Where there are no links below a directory, what a pattern below it matches is
below it. -/
theorem iglob_below (hdest : hasMagic dest = false) (hD : sys.find t true dest = .found D (.dir a))
    (hbare : ∀ rel target, rel ≠ [] → t.lookup (D ++ rel) ≠ some (.link target))
    {names : List String} (hne : names ≠ []) (hnames : ∀ x ∈ names, IsName x)
    (hthere : t.lookup (D ++ names) ≠ none) {n : ℕ} {dironly : Bool}
    (hp : p ∈ sys.iglob t n (Path.under dest names) dironly) :
    ∃ rel m, sys.find t true p = .found (D ++ rel) m := by
  have hlink : ∀ {rel n}, rel ≠ [] → t.lookup (D ++ rel) = some n → n.isLink = false := by
    intro rel n hrel hn
    cases n with
    | file c a => rfl
    | dir a => rfl
    | link target => exact absurd hn (hbare rel target hrel)
  induction names using List.reverseRecOn generalizing n p dironly with
  | nil => exact absurd rfl hne
  | append_singleton names x ih =>
    have hx : IsName x := hnames x (by simp)
    have hnames' : ∀ y ∈ names, IsName y := fun y hy => hnames y (List.mem_append_left _ hy)
    obtain ⟨m, hm⟩ := Option.ne_none_iff_exists'.mp hthere
    cases n with
    | zero => cases hp
    | succ n =>
      have hbase : Path.basename (Path.under dest (names ++ [x])) = x := by
        rw [Path.under_concat, Path.basename, Path.getLastD_join_name]
      rw [iglob, hbase] at hp
      split at hp
      · -- the path itself
        rw [if_pos hx.1] at hp
        split at hp
        · obtain rfl := List.mem_singleton.mp hp
          exact ⟨names ++ [x], m, resolve_lookup hD (by simp) hm fun _ => hlink (by simp) hm⟩
        · cases hp
      · -- the directory that the names end in, and its matches
        obtain ⟨b, hP⟩ := find_dirname_under hD hnames' hm
        rw [if_neg (ne_empty_of_find hP).2] at hp
        obtain ⟨d, hd, hp⟩ := List.mem_flatMap.mp hp
        obtain ⟨y, hy, rfl⟩ := List.mem_map.mp hp
        have hd : ∃ rel k, sys.find t true d = .found (D ++ rel) k := by
          split at hd
          · rename_i hmagic
            by_cases hnil : names = []
            · subst hnil
              rw [List.nil_append, Path.under_cons, Path.under_nil, hasMagic_dirname hdest] at hmagic
              exact absurd hmagic.2 Bool.false_ne_true
            · rw [Path.under_concat, dirname_under hnil hnames'] at hd
              refine ih hnil hnames' ?_ hd
              rw [lookup_of_resolve hP]
              exact Option.some_ne_none _
          · obtain rfl := List.mem_singleton.mp hd
            exact ⟨names, _, hP⟩
        obtain ⟨rel, k, hk⟩ := hd
        obtain ⟨c, l, rfl, hl⟩ := entry_of_match hx hk hy
        rw [List.append_assoc] at hl
        have hname : IsName y := FileTree.isName_of_lookup hl y (by simp)
        refine ⟨rel ++ [y], l, ?_⟩
        rw [← List.append_assoc] at hl ⊢
        exact (reaches_join hk hname).found true l hl fun _ =>
          @hlink (rel ++ [y]) l (by simp) (by rwa [← List.append_assoc])

end Below

/-- A destination without special characters, whatever the names in the source. -/
theorem Replaceable.of_not_magic {preserve : Bool} {t : FileTree β}
    (hsource : sys.Anchored R t source S) (hlands : Lands sys R t S dest D) (hapart : Apart S D)
    (hthere : t.lookup S ≠ none) (hplain : ∀ rel target, t.subtree S rel ≠ some (.link target, none))
    (hlimit : ∀ l n, t.lookup l = some n → l.length < sys.recursionLimit)
    (hdest : hasMagic dest = false) : Replaceable sys preserve R t source S dest D where
  source := hsource
  lands := hlands
  apart := hapart
  there := hthere
  plain := hplain
  shallow rel hrel := by
    obtain ⟨n, hn⟩ := FileTree.subtree_ne_none.mp hrel
    have := hlimit _ n hn
    rw [List.length_append] at this
    omega
  depth rel hrel := by
    rw [FileTree.subtree, FileTree.content_eq_dir, FileTree.isDir_iff] at hrel
    obtain ⟨a, ha⟩ := hrel
    have := hlimit _ _ ha
    rw [List.length_append] at this
    omega
  stray _ rel hrel t' ht' hheld heq := by
    obtain ⟨hnames, n, hfind⟩ := hlands.find_under ht' (hplain rel) hrel heq
    by_cases hnil : rel = []
    · subst hnil
      refine (globbed_of_not_magic hdest hfind).trans ?_
      rintro l rfl
      exact List.prefix_append D []
    · have hn := lookup_of_resolve hfind
      have hbare : ∀ rel target, rel ≠ [] → t'.lookup (D ++ rel) ≠ some (.link target) := by
        intro rel target hrel hlink
        have hlink : t'.subtree D rel = some (.link target, none) := FileTree.content_of_lookup hlink
        rcases hheld rel hrel with hnone | hsrc | ⟨hmerge, -⟩
        · rw [hlink] at hnone
          cases hnone
        · exact hplain rel target (hsrc.symm.trans hlink)
        · cases hmerge
      obtain ⟨a, ha⟩ := FileTree.ancestor_dir hn hnil
      have hroot : t'.subtree D [] = t.subtree S [] := by
        obtain ⟨m, hm⟩ := FileTree.subtree_ne_none.mp hrel
        rw [FileTree.subtree_root_dir.mpr (FileTree.isDir_iff.mpr ⟨a, ha⟩),
          FileTree.subtree_root_dir.mpr (FileTree.isDir_iff.mpr (FileTree.ancestor_dir hm hnil))]
      obtain ⟨-, b, hD⟩ := hlands.find_under ht' (hplain [])
        (FileTree.subtree_root_ne_none.mpr hthere) hroot
      rw [List.append_nil] at hD
      obtain rfl : b = .dir a := by
        have := lookup_of_resolve hD
        rw [ha] at this
        exact (Option.some.inj this).symm
      rintro l ⟨p, hp, m, hm⟩
      obtain ⟨rel', m', hbelow⟩ := iglob_below hdest hD hbare hnil hnames 
        (hn ▸ Option.some_ne_none n) hp
      rw [hbelow] at hm
      cases hm
      exact List.prefix_append D rel'

/-- A source that replaces its destination is one that `copySource` can copy. -/
theorem Replaceable.copyable {preserve : Bool} {t : FileTree β}
    (h : Replaceable sys preserve R t source S dest D)
    (hdirect : sys.islink t dest = true → sys.isdir t dest = false) :
    Copyable sys preserve false R {l | D <+: l} t source S dest D where
  source := h.source
  lands := h.lands
  apart := h.apart
  there := h.there
  plain := h.plain
  clear := nofun
  direct _ := hdirect
  shallow := h.shallow
  depth := h.depth
  stray := h.stray

/-- `copy` of one matched source. -/
theorem copy_singleton {pattern : Path} (hsource : self.source = some pattern) {w : World β}
    (hglob : sys.glob w.tree pattern = [source]) :
    self.copy sys w = self.copySource sys source w := by
  rw [copy, hsource]
  dsimp only
  rw [SetConfigs.tree_bind, hglob, if_neg (List.cons_ne_nil _ _)]
  change EStateM.bind (self.copySource sys source) (fun _ => pure ()) w = _
  rw [EStateM.bind]
  cases self.copySource sys source w <;> rfl

theorem exists_paint (h : self.preserveProperties = false → ∃ G, Grants sys self G) :
    ∃ G, self.preserveProperties = false → Grants sys self G := by
  cases hpreserve : self.preserveProperties with
  | false =>
    obtain ⟨G, hG⟩ := h hpreserve
    exact ⟨G, fun _ => hG⟩
  | true => exact ⟨sys.grant 0 0 none, nofun⟩

/-- `shutil.rmtree` refuses a link. -/
theorem copySource_of_link (hmerge : self.merge = false) (hdest : self.dest = some dest)
    {w : World β} (hlink : sys.islink w.tree (target dest source) = true)
    (hdir : sys.isdir w.tree (target dest source) = true) :
    self.copySource sys source w = .error (.osError .ELOOP) w := by
  obtain ⟨l, link, hfind⟩ : ∃ l link, sys.find w.tree false (target dest source)
      = .found l (.link link) := by
    rw [islink] at hlink
    cases hfind : sys.find w.tree false (target dest source) with
    | found l n =>
      rw [hfind] at hlink
      cases n with
      | file c a => cases hlink
      | dir a => cases hlink
      | link link => exact ⟨l, link, rfl⟩
    | free l slash =>
      rw [hfind] at hlink
      cases hlink
    | failed e =>
      rw [hfind] at hlink
      cases hlink
  have hexists : sys.lexists w.tree (target dest source) = true := by
    rw [lexists, hfind]
    rfl
  have hrmtree : sys.rmtree (target dest source) w = .error (.osError .ELOOP) w := by
    rw [rmtree, SetConfigs.tree_bind, hfind]
    rfl
  have hdelete : when (self.merge = false) (deletePath sys (target dest source)) w
      = .error (.osError .ELOOP) w := by
    rw [when, if_pos hmerge, deletePath, SetConfigs.tree_bind, hexists,
      if_neg Bool.true_eq_false_eq_False, if_pos hdir, hrmtree]
  rw [copySource, hdest]
  exact bind_of_error hdelete

/-- An entry that does not merge replaces its destination just if that is no link
to a directory. -/
theorem replaced_iff {pattern : Path} (hmerge : self.merge = false)
    (hsource : self.source = some pattern) (hdest : self.dest = some dest)
    (hgrants : self.preserveProperties = false → ∃ G, Grants sys self G) {w : World β}
    (hw : Calm w) (hglob : sys.glob w.tree pattern = [source])
    (h : Replaceable sys self.preserveProperties R w.tree source S (target dest source) D) :
    (∃ w', self.copy sys w = .ok () w' ∧ Replaced S D w.tree w'.tree) ↔
      (sys.islink w.tree (target dest source) = true →
        sys.isdir w.tree (target dest source) = false) := by
  rw [copy_singleton hsource hglob]
  constructor
  · rintro ⟨w', hrun, -⟩ hlink
    by_contra hdir
    rw [Bool.not_eq_false] at hdir
    rw [copySource_of_link hmerge hdest hlink hdir] at hrun
    cases hrun
  · intro hdirect
    obtain ⟨G, hG⟩ := exists_paint hgrants
    obtain ⟨w', hrun, -, -, hcopied⟩ := copySource_of_calm hG hdest hw (hmerge ▸ h.copyable hdirect)
    rw [hmerge] at hcopied
    refine ⟨w', hrun, hcopied.overlaid.eq_of_none fun _ => rfl, fun l hl => ?_⟩
    refine (hcopied.outside l hl).imp_left fun hdab => hdab.resolve_right fun hmem => hl hmem.1

/-! ## A directory and a link to one -/

theorem mem_nodes_of_lookup {t : FileTree β} {l : Loc} {n : Node β} (h : t.lookup l = some n) :
    l ∈ t.nodes.map Prod.fst :=
  List.mem_map_of_mem (FileTree.lookup_eq_some_iff.mp h)

theorem linkFree_blindTree : blindTree.LinkFree := by
  intro loc target h
  have hmem := FileTree.lookup_eq_some_iff.mp h
  simp [blindTree, rootDir, rootFile] at hmem

theorem calm_of_no_faults (t : FileTree β) : Calm (⟨t, []⟩ : World β) := fun _ h => by cases h

theorem grants_blindEntry : ∃ G, Grants rootSystem blindEntry G := by
  refine ⟨_, "root", 0, 0, rfl, by decide +kernel, by decide +kernel, ?_, rfl⟩
  rintro text ⟨⟩ -
  exact ⟨0o755, by decide +kernel, by decide⟩

theorem replaceable_blindEntry : Replaceable rootSystem false (around ["etc", "app"]) blindTree
    ["", "src"] ["src"] ["", "etc", "app"] ["etc", "app"] := by
  have hlimit : ∀ l ∈ blindTree.nodes.map Prod.fst, l.length < rootSystem.recursionLimit := by
    decide +kernel
  have hway : ∀ init ∈ List.inits ["etc"], blindTree.isDir ([] ++ init) = true := by decide +kernel
  refine Replaceable.of_not_magic ?_ ?_ ⟨by decide, by decide⟩ (by decide +kernel)
    (fun rel => FileTree.linkFree_iff.mp linkFree_blindTree (["src"] ++ rel))
    (fun l n hn => hlimit l (mem_nodes_of_lookup hn)) (by decide +kernel)
  · exact anchored_of_down rfl (by simp [Down]) (by decide) _
  · refine Or.inl (@Aimed.of_names _ rootSystem blindTree ["etc"] "app" (by decide) ?_)
    exact fun init hinit => Or.inr (hway init ((List.mem_inits _ _).mpr hinit))

/-- `replaced_iff` for a destination that has other files. -/
theorem replaced_directory :
    ∃ w', blindEntry.copy rootSystem ⟨blindTree, []⟩ = .ok () w' ∧
      Replaced ["src"] ["etc", "app"] blindTree w'.tree := by
  have hiff := @replaced_iff Content rootSystem blindEntry (around ["etc", "app"]) ["", "src"]
    ["", "etc", "app"] ["src"] ["etc", "app"] ["", "src"] rfl rfl rfl (fun _ => grants_blindEntry)
    ⟨blindTree, []⟩ (calm_of_no_faults _) (by decide +kernel) replaceable_blindEntry
  exact hiff.mpr (by decide +kernel)

/-- The destination is a link to another directory. -/
def linkTree : FileTree Content where
  nodes :=
    [([], rootDir), (["src"], rootDir), (["src", "a"], rootFile "a"), (["data"], rootDir),
      (["etc"], rootDir), (["etc", "app"], .link ["", "data"])]
  nodup := by decide
  root := by decide
  closed := by decide
  proper := by decide

/-- `copy` fails, and the link stays. -/
theorem link_to_directory :
    rootSystem.glob linkTree ["", "src"] = [["", "src"]] ∧
      linkTree.lookup ["etc", "app"] = some (.link ["", "data"]) ∧
      ¬ ∃ w', blindEntry.copy rootSystem ⟨linkTree, []⟩ = .ok () w' ∧
        Replaced ["src"] ["etc", "app"] linkTree w'.tree := by
  refine ⟨by decide +kernel, rfl, ?_⟩
  rintro ⟨w', hrun, -⟩
  have hraise : ∃ w, blindEntry.copy rootSystem ⟨linkTree, []⟩ = .error (.osError .ELOOP) w :=
    ⟨_, eq_error_of_raised (by decide +kernel)⟩
  obtain ⟨w, herror⟩ := hraise
  rw [herror] at hrun
  cases hrun

end ConfigFile

end Kolla.SetConfigs
