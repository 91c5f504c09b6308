import Kolla.SetConfigs.Confinement

/-!
# A copy is a replica

What the copies of the defaults state leave behind.  Such a copy replaces
its destination and preserves the properties, and in a tree without links
the destination has afterwards exactly what the source had
(`copy_replica`): every file with its content, every directory, and nothing
else.

The induction is on the depth that `_merge_directories` has left.  It works
on a destination that is missing or an empty directory, and each entry of
the source finds its own destination missing.
-/

namespace Kolla.SetConfigs

open Kolla.Lib

variable {β : Type}

namespace System

variable {sys : System β} {path : Path}

theorem glob_cases {t : FileTree β} (h : hasMagic path = false) :
    sys.glob t path = [path] ∨ sys.glob t path = [] := by
  unfold glob
  cases path.length with
  | zero => exact Or.inr rfl
  | succ n =>
    rw [iglob, if_pos h]
    split
    · split
      · exact Or.inl rfl
      · exact Or.inr rfl
    · split
      · exact Or.inl rfl
      · exact Or.inr rfl

theorem writeFile_content {content : β} {w w' : World β} (ht : w.tree.LinkFree)
    (h : sys.writeFile path content w = .ok () w') :
    w'.tree.content (Path.abspath sys.cwd path) = some (.file, some content) := by
  obtain ⟨loc, w₁, hopen, hwrite⟩ := bind_eq_ok.mp h
  rw [← openWrite_loc ht hopen]
  obtain ⟨hf, -⟩ := syscall_eq_ok hwrite
  cases hl : w₁.tree.lookup loc with
  | none =>
    rw [hl] at hf
    cases hf
  | some n =>
    rw [hl] at hf
    cases n with
    | file c a =>
      rw [← (Prod.mk.inj (Except.ok.inj hf)).2]
      refine FileTree.content_eq_file.mpr ⟨a, ?_⟩
      rw [FileTree.lookup_replace hl fun hdir => ?_, if_pos rfl]
      obtain ⟨b, hb⟩ := FileTree.isDir_iff.mp hdir
      rw [hl] at hb
      cases hb
    | dir a => cases hf
    | link target => cases hf

section Makedirs

variable {existOk : Bool} {w w' : World β} (ht : w.tree.LinkFree) {loc : Loc}
  (hpassed : ∀ l, Passed sys.cwd path l → l <+: loc) (h : sys.makedirs path existOk w = .ok () w')

include ht hpassed h

omit ht in
theorem confined_of_passed (rel : Loc) : Confined (loc ++ rel) w.tree w'.tree := by
  have hmoves : Moves (OnTree (Confined (loc ++ rel))) (sys.makedirs path existOk) :=
    changes_makedirs existOk fun l hl => Or.inr ((hpassed l hl).trans (List.prefix_append _ _))
  exact hmoves.of_ok h

/-- Making the directories on the way to a location leaves what is below it. -/
theorem makedirs_below {rel : Loc} (hrel : rel ≠ []) :
    w'.tree.content (loc ++ rel) = w.tree.content (loc ++ rel) := by
  -- a location beside `rel` is one that the directories are on the way to
  obtain ⟨x, rel, rfl⟩ := List.exists_cons_of_ne_nil hrel
  obtain ⟨y, hy⟩ : ∃ y : String, x ≠ y := ⟨x ++ "x", fun h => by
    have hlen := congrArg String.length h
    simp at hlen⟩
  have hsame := (confined_of_passed hpassed h [y]).content_apart ht (Apart.of_ne hy loc) rel
  rwa [List.append_assoc] at hsame

/-- The location itself keeps what it has, or a directory is made there. -/
theorem makedirs_at :
    w'.tree.content loc = w.tree.content loc ∨
      w.tree.content loc = none ∧ w'.tree.content loc = some (.dir, none) := by
  refine ((confined_of_passed hpassed h ["x"] ht).2 loc fun hpre => ?_).imp_right
    fun hway => hway.2
  have hlen := hpre.length_le
  rw [List.length_append, List.length_singleton] at hlen
  omega

end Makedirs

end System

namespace ConfigFile

open Kolla.SetConfigs.System

variable {sys : System β} {self : ConfigFile} {source dest : Path}

/-- The copy of one file. -/
theorem copyFile_replica {w w' : World β} (ht : w.tree.LinkFree)
    (hapart : Apart (Path.abspath sys.cwd source) (Path.abspath sys.cwd dest))
    (h : self.copyFile sys source dest w = .ok () w') (rel : Loc) :
    w'.tree.content (Path.abspath sys.cwd dest ++ rel)
      = w.tree.content (Path.abspath sys.cwd source ++ rel) := by
  obtain ⟨_, w₁, hdelete, h⟩ := bind_eq_ok.mp h
  have hdeleted := (confined_deletePath (List.prefix_refl _)).of_ok hdelete
  have ht₁ : w₁.tree.LinkFree := (hdeleted ht).1
  rw [tree_bind, islink_eq_false ht₁, Bool.and_false, if_neg Bool.false_ne_true] at h
  obtain ⟨_, w₂, hcopy, hproperties⟩ := bind_eq_ok.mp h
  have hdest : sys.isdir w₁.tree dest = false := by
    rw [isdir, look_of_deletePath hdelete]
    rfl
  rw [System.copy, tree_bind, hdest, if_neg Bool.false_ne_true] at hcopy
  obtain ⟨_, w₃, hcopyfile, hcopymode⟩ := bind_eq_ok.mp hcopy
  rw [copyfile, tree_bind] at hcopyfile
  split at hcopyfile
  · exact absurd hcopyfile throw_ne_ok
  · obtain ⟨c, w₄, hread, hwrite⟩ := bind_eq_ok.mp hcopyfile
    have htree₄ : w₄.tree = w₁.tree := (readOnly_openRead _).tree_eq hread
    obtain ⟨a, hlook⟩ := openRead_eq_ok hread
    obtain ⟨loc, hfind⟩ := find_of_look hlook
    have hsource : w.tree.content (Path.abspath sys.cwd source) = some (.file, some c) := by
      have hsame := hdeleted.content_apart ht hapart []
      rw [List.append_nil] at hsame
      rw [← hsame]
      exact FileTree.content_of_lookup (found_loc ht₁ hfind).2
    have htarget : w'.tree.content (Path.abspath sys.cwd dest) = some (.file, some c) := by
      rw [(sameContent_setProperties _ _).of_ok hproperties, (sameContent_copymode _ _).of_ok hcopymode]
      exact writeFile_content (htree₄ ▸ ht₁) hwrite
    by_cases hrel : rel = []
    · rw [hrel, List.append_nil, List.append_nil, htarget, hsource]
    · rw [FileTree.content_below (by simp [htarget]) hrel,
        FileTree.content_below (by simp [hsource]) hrel]

/-- A destination with nothing in it: missing, an empty directory, or a file
that the path does not lead to because of a slash at its end. -/
def Fresh (sys : System β) (t : FileTree β) (dest : Path) : Prop :=
  (t.content (Path.abspath sys.cwd dest) = none ∨
      t.content (Path.abspath sys.cwd dest) = some (.dir, none) ∨
      (∃ c, t.content (Path.abspath sys.cwd dest) = some (.file, some c)) ∧
        ¬ IsName (Path.basename dest)) ∧
    ∀ rel, rel ≠ [] → t.content (Path.abspath sys.cwd dest ++ rel) = none

theorem fresh_of_none {t : FileTree β} (h : t.content (Path.abspath sys.cwd dest) = none) :
    Fresh sys t dest :=
  ⟨Or.inl h, fun _ hrel => FileTree.content_below (by rw [h]; nofun) hrel⟩

/-- Where the path of a fresh destination leads to anything, it is a
directory. -/
theorem content_of_fresh {t : FileTree β} (ht : t.LinkFree) (hdest : Straight dest)
    (hfresh : Fresh sys t dest) {follow : Bool} {L : Loc} {n : Node β}
    (hfind : sys.find t follow dest = .found L n) :
    L = Path.abspath sys.cwd dest ∧ ∃ a, n = .dir a := by
  obtain ⟨rfl, hn⟩ := found_loc ht hfind
  refine ⟨rfl, ?_⟩
  have hcontent := FileTree.content_of_lookup hn
  rcases hfresh.1 with hnone | hdir | ⟨⟨c, hfile⟩, hname⟩
  · rw [hnone] at hcontent
    cases hcontent
  · obtain ⟨a, ha⟩ := FileTree.isDir_iff.mp (FileTree.content_eq_dir.mp hdir)
    exact ⟨a, Option.some.inj (hn.symm.trans ha)⟩
  · obtain ⟨a, ha⟩ := FileTree.content_eq_file.mp hfile
    exact absurd ((resolve_file_iff hdest.isabs hdest.direct ha).mp ⟨_, _, hfind⟩) hname

/-- What is fresh needs no clearing. -/
theorem isdir_of_fresh {t : FileTree β} (ht : t.LinkFree) (hdest : Straight dest)
    (hfresh : Fresh sys t dest) (h : sys.lexists t dest = true) : sys.isdir t dest = true := by
  unfold lexists at h
  cases hfind : sys.find t false dest with
  | found loc n =>
    obtain ⟨rfl, a, rfl⟩ := content_of_fresh ht hdest hfresh hfind
    refine isdir_iff.mpr ⟨Path.abspath sys.cwd dest, a, ?_⟩
    rw [find, resolve_follow_eq ht false]
    exact hfind
  | free loc slash =>
    rw [hfind] at h
    cases h
  | failed e =>
    rw [hfind] at h
    cases h

/-- After a deletion the destination is fresh. -/
theorem fresh_of_gone {t : FileTree β} (ht : t.LinkFree) (hdest : Straight dest)
    (h : sys.look t dest = none) : Fresh sys t dest := by
  have hnot : ∀ L n, sys.find t true dest ≠ .found L n := by
    intro L n hfind
    rw [look_of_find hfind] at h
    cases h
  cases hl : t.lookup (Path.abspath sys.cwd dest) with
  | none => exact fresh_of_none (FileTree.content_eq_none.mpr hl)
  | some n =>
    cases n with
    | file c a =>
      have hcontent := FileTree.content_of_lookup hl
      refine ⟨Or.inr (Or.inr ⟨⟨c, hcontent⟩, fun hname => ?_⟩), fun rel hrel => ?_⟩
      · obtain ⟨L, m, hfind⟩ := (resolve_file_iff hdest.isabs hdest.direct hl).mpr hname
        exact hnot L m hfind
      · exact FileTree.content_below (by rw [hcontent]; nofun) hrel
    | dir a => exact absurd (resolve_of_dir hdest.isabs hdest.direct hl) (hnot _ _)
    | link target => exact absurd hl (ht _ _)

/-- Directories on the way to a fresh destination can be made, and the
destination itself. -/
theorem Fresh.makedirs {path : Path} {existOk : Bool} {w w' : World β} (ht : w.tree.LinkFree)
    (hpassed : ∀ l, Passed sys.cwd path l → l <+: Path.abspath sys.cwd dest)
    (hfresh : Fresh sys w.tree dest) (h : sys.makedirs path existOk w = .ok () w') :
    Fresh sys w'.tree dest := by
  refine ⟨?_, fun rel hrel => ?_⟩
  · rcases makedirs_at ht hpassed h with heq | hmade
    · rw [heq]
      exact hfresh.1
    · exact Or.inr (Or.inl hmade.2)
  · rw [makedirs_below ht hpassed h hrel, hfresh.2 rel hrel]

/-- The parents of a fresh destination can be made. -/
theorem Fresh.createParentDirs {w w' : World β} (ht : w.tree.LinkFree) (hdest : Straight dest)
    (hfresh : Fresh sys w.tree dest) (h : createParentDirs sys dest w = .ok () w') :
    Fresh sys w'.tree dest := by
  rw [ConfigFile.createParentDirs, tree_bind, when] at h
  split at h
  · exact hfresh.makedirs ht (fun l hl => hl.of_dirname.above_straight hdest) h
  · obtain ⟨-, rfl⟩ := pure_eq_ok.mp h
    exact hfresh

/-- The loop over the entries of a directory: each one is copied to its own
place, and the other places keep what they have. -/
theorem merge_entries {n : ℕ} {names : List String}
    (hstep : ∀ x ∈ names, ∀ w w' : World β, w.tree.LinkFree →
      w.tree.content (Path.abspath sys.cwd dest ++ [x]) = none →
      self.mergeDirectories sys n (Path.join source [x]) (Path.join dest [x]) w = .ok () w' →
        ∀ rel, w'.tree.content (Path.abspath sys.cwd dest ++ [x] ++ rel)
          = w.tree.content (Path.abspath sys.cwd source ++ [x] ++ rel))
    (hnames : ∀ x ∈ names, IsName x) (hnodup : names.Nodup) (hdest : Straight dest)
    (hapart : Apart (Path.abspath sys.cwd source) (Path.abspath sys.cwd dest))
    {w w' : World β} (ht : w.tree.LinkFree)
    (hdir : w.tree.content (Path.abspath sys.cwd dest) = some (.dir, none))
    (hfresh : ∀ x ∈ names, w.tree.content (Path.abspath sys.cwd dest ++ [x]) = none)
    (h : (names.forM fun x =>
      self.mergeDirectories sys n (Path.join source [x]) (Path.join dest [x]) : Os β Unit) w
        = .ok () w') :
    w'.tree.content (Path.abspath sys.cwd dest) = some (.dir, none) ∧
      (∀ x ∈ names, ∀ rel, w'.tree.content (Path.abspath sys.cwd dest ++ [x] ++ rel)
        = w.tree.content (Path.abspath sys.cwd source ++ [x] ++ rel)) ∧
      ∀ x ∉ names, ∀ rel, w'.tree.content (Path.abspath sys.cwd dest ++ [x] ++ rel)
        = w.tree.content (Path.abspath sys.cwd dest ++ [x] ++ rel) := by
  induction names generalizing w with
  | nil =>
    obtain ⟨-, rfl⟩ := pure_eq_ok.mp h
    exact ⟨hdir, nofun, fun _ _ _ => rfl⟩
  | cons x names ih =>
    obtain ⟨w₁, hx, h⟩ := forM_cons_eq_ok.mp h
    obtain ⟨hnamex, hnames⟩ := List.forall_mem_cons.mp hnames
    obtain ⟨hfreshx, hfresh⟩ := List.forall_mem_cons.mp hfresh
    obtain ⟨hnotin, hnodup⟩ := List.nodup_cons.mp hnodup
    have hreplica := hstep x List.mem_cons_self w w₁ ht hfreshx hx
    have hconfined : Confined (Path.abspath sys.cwd dest ++ [x]) w.tree w₁.tree := by
      refine (confined_mergeDirectories n (hdest.join hnamex) ?_).of_ok hx
      exact abspath_join hnamex ▸ List.prefix_refl _
    -- the other places, and the whole source, are apart from this one
    have hother : ∀ y, y ≠ x → ∀ rel,
        w₁.tree.content (Path.abspath sys.cwd dest ++ [y] ++ rel)
          = w.tree.content (Path.abspath sys.cwd dest ++ [y] ++ rel) :=
      fun y hy rel => hconfined.content_apart ht (Apart.of_ne hy _) rel
    have hsource : ∀ rel, w₁.tree.content (Path.abspath sys.cwd source ++ rel)
        = w.tree.content (Path.abspath sys.cwd source ++ rel) := by
      intro rel
      have hapart' := hapart.append [] [x]
      rw [List.append_nil] at hapart'
      exact hconfined.content_apart ht hapart' rel
    have hdir₁ : w₁.tree.content (Path.abspath sys.cwd dest) = some (.dir, none) := by
      rw [← hdir]
      refine hconfined.content_of_ne_none ht (fun hpre => ?_) (by rw [hdir]; nofun)
      have hlen := hpre.length_le
      rw [List.length_append, List.length_singleton] at hlen
      omega
    have hne : ∀ y ∈ names, y ≠ x := fun y hy heq => hnotin (heq ▸ hy)
    obtain ⟨hdir', hin, hout⟩ := ih
      (fun y hy => hstep y (List.mem_cons_of_mem _ hy)) hnames hnodup (hconfined ht).1 hdir₁
      (fun y hy => by
        have hsame := hother y (hne y hy) []
        rw [List.append_nil] at hsame
        rw [hsame, hfresh y hy]) h
    refine ⟨hdir', fun y hy rel => ?_, fun y hy rel => ?_⟩
    · rcases List.mem_cons.mp hy with rfl | hy
      · rw [hout y hnotin rel, hreplica rel]
      · rw [hin y hy rel, List.append_assoc, hsource, ← List.append_assoc]
    · obtain ⟨hyx, hy⟩ := not_or.mp (mt List.mem_cons.mpr hy)
      rw [hout y hy rel, hother y hyx rel]

/-- Properties are preserved only on what is there. -/
theorem find_of_setProperties (hpreserve : self.preserveProperties = true) {w w' : World β}
    (h : self.setProperties sys source dest w = .ok () w') :
    ∃ L n, sys.find w.tree true dest = .found L n := by
  rw [setProperties, if_pos hpreserve] at h
  obtain ⟨_, w₁, hcopystat, -⟩ := bind_eq_ok.mp h
  obtain ⟨n, w₂, hstat, hchmod⟩ := bind_eq_ok.mp hcopystat
  rw [chmod] at hchmod
  split at hchmod
  · obtain ⟨L, m, hfind, -, -⟩ := onNode_eq_ok hchmod
    exact ⟨L, m, (readOnly_stat _).tree_eq hstat ▸ hfind⟩
  · exact absurd hchmod throw_ne_ok

/-- The copy of a directory, given the copies of what it holds. -/
theorem merge_directory_replica (hpreserve : self.preserveProperties = true) {n : ℕ}
    (ih : ∀ {source dest : Path}, Straight dest →
      Apart (Path.abspath sys.cwd source) (Path.abspath sys.cwd dest) → ∀ {w w' : World β},
      w.tree.LinkFree → Fresh sys w.tree dest →
      self.mergeDirectories sys n source dest w = .ok () w' → ∀ rel,
        w'.tree.content (Path.abspath sys.cwd dest ++ rel)
          = w.tree.content (Path.abspath sys.cwd source ++ rel))
    (hdest : Straight dest)
    (hapart : Apart (Path.abspath sys.cwd source) (Path.abspath sys.cwd dest)) {w w' : World β}
    (ht : w.tree.LinkFree) (hfresh : Fresh sys w.tree dest)
    (hisdir : sys.isdir w.tree source = true)
    (h : (do
      when (sys.lexists w.tree dest ∧ sys.isdir w.tree dest = false) (deletePath sys dest)
      let t ← tree
      when (sys.isdir t dest = false) (sys.makedirs dest false)
      self.setProperties sys source dest
      let dirContent ← sys.listdir source
      dirContent.forM fun toCopy => self.mergeDirectories sys n
        (Path.join source [toCopy]) (Path.join dest [toCopy]) : Os β Unit) w = .ok () w')
    (rel : Loc) :
    w'.tree.content (Path.abspath sys.cwd dest ++ rel)
      = w.tree.content (Path.abspath sys.cwd source ++ rel) := by
  obtain ⟨_, w₁, hclear, h⟩ := bind_eq_ok.mp h
  have hclean : ¬ (sys.lexists w.tree dest = true ∧ sys.isdir w.tree dest = false) := by
    rintro ⟨hlexists, hnot⟩
    rw [isdir_of_fresh ht hdest hfresh hlexists] at hnot
    cases hnot
  rw [when, if_neg hclean] at hclear
  obtain ⟨-, rfl⟩ := pure_eq_ok.mp hclear
  rw [tree_bind] at h
  obtain ⟨_, w₂, hmake, h⟩ := bind_eq_ok.mp h
  obtain ⟨_, w₃, hproperties, h⟩ := bind_eq_ok.mp h
  obtain ⟨names, w₄, hlist, h⟩ := bind_eq_ok.mp h
  have hpassed : ∀ l, Passed sys.cwd dest l → l <+: Path.abspath sys.cwd dest :=
    fun l hl => hl.above_straight hdest
  have hmade : Confined (Path.abspath sys.cwd dest) w.tree w₂.tree :=
    (moves_when fun _ => changes_makedirs _ fun l hl => Or.inr (hpassed l hl)).of_ok hmake
  have ht₂ : w₂.tree.LinkFree := (hmade ht).1
  have htree₄ : w₄.tree = w₃.tree := (readOnly_listdir _).tree_eq hlist
  have hcontent₄ : ∀ l, w₄.tree.content l = w₂.tree.content l :=
    fun l => htree₄ ▸ (sameContent_setProperties _ _).of_ok hproperties l
  have ht₄ : w₄.tree.LinkFree := (Confined.of_sameContent hcontent₄ : Confined [] _ _) ht₂ |>.1
  -- the destination is an empty directory now
  have hfresh₂ : Fresh sys w₂.tree dest := by
    rw [when] at hmake
    split at hmake
    · exact hfresh.makedirs ht hpassed hmake
    · obtain ⟨-, rfl⟩ := pure_eq_ok.mp hmake
      exact hfresh
  have hdir₂ : w₂.tree.content (Path.abspath sys.cwd dest) = some (.dir, none) := by
    obtain ⟨L, m, hfind⟩ := find_of_setProperties hpreserve hproperties
    obtain ⟨rfl, a, rfl⟩ := content_of_fresh ht₂ hdest hfresh₂ hfind
    exact FileTree.content_of_lookup (found_loc ht₂ hfind).2
  -- and the source is what it was
  have hsource : ∀ rel, w₄.tree.content (Path.abspath sys.cwd source ++ rel)
      = w.tree.content (Path.abspath sys.cwd source ++ rel) :=
    fun rel => (hcontent₄ _).trans (hmade.content_apart ht hapart rel)
  obtain ⟨loc, a, hfind, rfl, -⟩ := listdir_eq_ok hlist
  have ht₃ : w₃.tree.LinkFree := htree₄ ▸ ht₄
  obtain ⟨rfl, -⟩ := found_loc ht₃ hfind
  have hmem : ∀ x, x ∈ sys.listed (Path.abspath sys.cwd source)
        (w₃.tree.names (Path.abspath sys.cwd source)) ↔
      w₄.tree.content (Path.abspath sys.cwd source ++ [x]) ≠ none := by
    intro x
    rw [(sys.listed_perm _ _).mem_iff, FileTree.mem_names, Ne, FileTree.content_eq_none, htree₄,
      ← Ne, Option.ne_none_iff_exists']
  obtain ⟨hdir', hin, hout⟩ := merge_entries
    (fun x hx w w' ht hnone hcopy rel => by
      have hname := isName_of_listdir hlist x hx
      have hreplica := ih (hdest.join hname)
        (by rw [abspath_join hname, abspath_join hname]; exact hapart.append [x] [x]) ht
        (fresh_of_none (by rwa [abspath_join hname])) hcopy rel
      rwa [abspath_join hname, abspath_join hname] at hreplica)
    (isName_of_listdir hlist) ((sys.listed_perm _ _).nodup_iff.mpr (w₃.tree.nodup_names _)) hdest
    hapart ht₄ (by rw [hcontent₄, hdir₂])
    (fun x _ => by rw [hcontent₄, hfresh₂.2 [x] (List.cons_ne_nil _ _)]) h
  cases rel with
  | nil =>
    obtain ⟨L, b, hfind'⟩ := isdir_iff.mp hisdir
    rw [List.append_nil, List.append_nil, hdir',
      FileTree.content_of_lookup (found_loc ht hfind').2]
    rfl
  | cons x rel =>
    have hsplit : ∀ loc : Loc, loc ++ x :: rel = loc ++ [x] ++ rel := fun loc => by simp
    rw [hsplit, hsplit]
    by_cases hx : x ∈ sys.listed (Path.abspath sys.cwd source)
        (w₃.tree.names (Path.abspath sys.cwd source))
    · rw [hin x hx rel, List.append_assoc, hsource]
    · have hnone : w₄.tree.content (Path.abspath sys.cwd source ++ [x]) = none := by
        by_contra hsome
        exact hx ((hmem x).mpr hsome)
      have hbelow : w₄.tree.content (Path.abspath sys.cwd source ++ [x] ++ rel) = none := by
        cases rel with
        | nil => rwa [List.append_nil]
        | cons y rel => exact FileTree.content_below (by rw [hnone]; nofun) (List.cons_ne_nil _ _)
      rw [hout x hx rel, hcontent₄, List.append_assoc, hfresh₂.2 _ (by simp), ← hbelow,
        List.append_assoc, hsource]

/-- `_merge_directories` into nothing makes a replica. -/
theorem merge_replica (hpreserve : self.preserveProperties = true) (n : ℕ) (hdest : Straight dest)
    (hapart : Apart (Path.abspath sys.cwd source) (Path.abspath sys.cwd dest)) {w w' : World β}
    (ht : w.tree.LinkFree) (hfresh : Fresh sys w.tree dest)
    (h : self.mergeDirectories sys n source dest w = .ok () w') (rel : Loc) :
    w'.tree.content (Path.abspath sys.cwd dest ++ rel)
      = w.tree.content (Path.abspath sys.cwd source ++ rel) := by
  induction n generalizing source dest w w' rel with
  | zero => exact absurd h throw_ne_ok
  | succ n ih =>
    rw [mergeDirectories, tree_bind] at h
    split at h
    · rename_i hisdir
      exact merge_directory_replica hpreserve ih hdest hapart ht hfresh hisdir h rel
    · exact copyFile_replica ht hapart h rel

/-- One iteration of `copy`, if it replaces its destination. -/
theorem copySource_replica (hpreserve : self.preserveProperties = true)
    (hmerge : self.merge = false) (hself : self.dest = some dest)
    (hdest : Straight (target dest source))
    (hapart : Apart (Path.abspath sys.cwd source) (Path.abspath sys.cwd (target dest source)))
    {w w' : World β} (ht : w.tree.LinkFree) (h : self.copySource sys source w = .ok () w')
    (rel : Loc) :
    w'.tree.content (Path.abspath sys.cwd (target dest source) ++ rel)
      = w.tree.content (Path.abspath sys.cwd source ++ rel) := by
  rw [copySource, hself] at h
  obtain ⟨_, w₁, hdelete, h⟩ := bind_eq_ok.mp h
  rw [when, if_pos hmerge] at hdelete
  obtain ⟨_, w₂, hparents, h⟩ := bind_eq_ok.mp h
  have hdeleted := (confined_deletePath (List.prefix_refl _)).of_ok hdelete
  have hmade : Confined (Path.abspath sys.cwd (target dest source)) w₁.tree w₂.tree :=
    (changes_createParentDirs (Allowed.of_straight hdest (List.prefix_refl _))).of_ok hparents
  have ht₁ : w₁.tree.LinkFree := (hdeleted ht).1
  have hfresh := (fresh_of_gone ht₁ hdest (look_of_deletePath hdelete)).createParentDirs ht₁
    hdest hparents
  rw [merge_replica hpreserve _ hdest hapart (hmade ht₁).1 hfresh h rel,
    hmade.content_apart ht₁ hapart, hdeleted.content_apart ht hapart]

/-- The copy of one path that replaces its destination. -/
theorem copy_replica (hpreserve : self.preserveProperties = true) (hmerge : self.merge = false)
    (hrequired : self.optional = false) (hsource : self.source = some source)
    (hself : self.dest = some dest) (hdest : Straight (target dest source))
    (hapart : Apart (Path.abspath sys.cwd source) (Path.abspath sys.cwd (target dest source)))
    {w w' : World β} (hglob : sys.glob w.tree source = [source] ∨ sys.glob w.tree source = [])
    (ht : w.tree.LinkFree) (h : self.copy sys w = .ok () w') (rel : Loc) :
    w'.tree.content (Path.abspath sys.cwd (target dest source) ++ rel)
      = w.tree.content (Path.abspath sys.cwd source ++ rel) := by
  rw [copy, hsource] at h
  dsimp only at h
  rw [tree_bind] at h
  rcases hglob with hglob | hglob
  · rw [hglob, if_neg (List.cons_ne_nil _ _)] at h
    obtain ⟨w₁, hcopy, hdone⟩ := forM_cons_eq_ok.mp h
    obtain ⟨-, rfl⟩ := pure_eq_ok.mp hdone
    exact copySource_replica hpreserve hmerge hself hdest hapart ht hcopy rel
  · rw [hglob, if_pos rfl, hrequired] at h
    exact absurd h throw_ne_ok

end ConfigFile

end Kolla.SetConfigs
