import Kolla.SetConfigs.Mismatch
import Kolla.SetConfigs.Replica

/-!
# The first start of a container

`backup_configs` has its own way to predict what `copy_config` will touch:
it takes a source for a path where `copy` takes it for a pattern, and it
looks at the source before anything has been copied.  An entry is
`Foreseen` if its source is there, as a path, when `backup_configs` comes to
it.  The prediction is right (`Predicted`) if whatever `copy_config` copies
goes to the recorded destination of a foreseen entry, or below one.

`backups_complete_iff` is for every file tree without links in which the
backups have a place of their own (`Recordable`).  With a right prediction,
and only with one, whatever `copy_config` touches lies at or below a path of
the saved state, and for each path of the state that existed before the
start the backup has its contents.  `wildcard_unrecorded` is a start with a
pattern for a source, which overwrites a file that has no backup.
-/

namespace Kolla.SetConfigs

open Kolla.Lib

variable {β : Type}

/-! ## The place of a backup -/

/-- Where `KOLLA_DEFAULTS` is. -/
def defaultsLoc : Loc := ["etc", "kolla", "defaults"]

theorem exists_rest {path : Path} (h : Path.isabs path = true) :
    ∃ rest, rest ≠ [] ∧ path = "" :: rest := by
  match path with
  | [] => cases h
  | [x] => simp [Path.isabs] at h
  | x :: y :: rest =>
    by_cases hx : x = ""
    · exact ⟨y :: rest, List.cons_ne_nil _ _, by rw [hx]⟩
    · simp [Path.isabs, hx] at h

theorem straight_backup {path : Path} (h : Straight path) :
    Straight (kollaDefaults.concat path) := by
  obtain ⟨rest, -, rfl⟩ := exists_rest h.isabs
  have hground : Grounded [] rest := h.grounded.tail
  have hdirect : Direct defaultsLoc rest := Direct.below h.direct.tail hground defaultsLoc
  change Straight ("" :: "etc" :: "kolla" :: "defaults" :: rest)
  refine ⟨rfl, Direct.slash ?_, Grounded.slash ?_⟩
  · refine Direct.cons (by decide) (Direct.cons (by decide) (Direct.cons (by decide) ?_))
    exact hdirect
  · refine Grounded.cons (by decide) (Grounded.cons (by decide) (Grounded.cons (by decide) ?_))
    exact hground.below defaultsLoc

/-- The place of a backup below `KOLLA_DEFAULTS`. -/
theorem abspath_backup {path : Path} (h : Straight path) (cwd : Loc) :
    Path.abspath cwd (kollaDefaults.concat path) = defaultsLoc ++ Path.abspath cwd path := by
  rw [(straight_backup h).abspath_eq, h.abspath_eq]
  obtain ⟨rest, -, rfl⟩ := exists_rest h.isabs
  have hground : Grounded [] rest := h.grounded.tail
  change (["", "etc", "kolla", "defaults"] ++ rest).foldl Path.absStep [] = _
  rw [List.foldl_append]
  exact hground.foldl_append defaultsLoc

/-- The copy of a straight path goes to its place. -/
theorem backup_target {path : Path} (h : Straight path) (cwd : Loc) :
    Straight (ConfigFile.target (kollaDefaults.concat path) path) ∧
      Path.abspath cwd (ConfigFile.target (kollaDefaults.concat path) path)
        = defaultsLoc ++ Path.abspath cwd path := by
  have htarget : ConfigFile.target (kollaDefaults.concat path) path
      = kollaDefaults.concat path := by
    rw [ConfigFile.target]
    split
    · rename_i hslash
      -- both end with the same slash, so nothing is joined
      obtain ⟨rest, hne, rfl⟩ := exists_rest h.isabs
      change Path.join (["", "etc", "kolla", "defaults"] ++ rest) [Path.basename ("" :: rest)]
        = ["", "etc", "kolla", "defaults"] ++ rest
      obtain ⟨init, x, rfl⟩ := (List.eq_nil_or_concat' rest).resolve_left hne
      have hlast : x = "" := by
        have hlast := of_decide_eq_true (Bool.and_eq_true_iff.mp hslash).2
        change (["", "etc", "kolla", "defaults"] ++ (init ++ [x])).getLastD "" = "" at hlast
        rwa [← List.append_assoc, List.getLastD_concat] at hlast
      subst hlast
      rw [Path.basename, ← List.append_assoc, Path.join_name, List.getLastD_concat, if_pos rfl,
        List.dropLast_concat, ← List.cons_append, List.getLastD_concat]
    · rfl
  rw [htarget]
  exact ⟨straight_backup h, abspath_backup h cwd⟩

/-! ## The turns of the entries -/

namespace System

variable (sys : System β)

/-- `handle_defaults` up to the backups of the first entries. -/
def backupsOf (files : List Entry) : Os β State := do
  let state ← sys.getDefaultsState
  let state ← sys.removeOrRestoreConfigs state
  files.foldlM sys.backupConfig state

/-- `copy_config` up to the copies of the first entries. -/
def copiesOf (files : List Entry) : Os β Unit :=
  files.forM fun data => do
    let configFile ← data.configFile
    configFile.copy sys

theorem handleDefaults_eq (config : Config) :
    sys.handleDefaults config = sys.backupsOf config.files >>= sys.setDefaultsState := by
  simp only [handleDefaults, backupsOf, backupConfigs, bind_assoc]

theorem backupsOf_append (files rest : List Entry) :
    sys.backupsOf (files ++ rest)
      = sys.backupsOf files >>= fun state => rest.foldlM sys.backupConfig state := by
  simp only [backupsOf, List.foldlM_append, bind_assoc]

end System

/-- `backup_configs` comes to the entry, and this is the tree. -/
def BackupTurn (sys : System β) (config : Config) (before : World β) (data : Entry)
    (t : FileTree β) : Prop :=
  ∃ files files' state w, config.files = files ++ data :: files' ∧
    sys.backupsOf files before = .ok state w ∧ w.tree = t

/-- `copy_config` comes to the entry, and this is the tree. -/
def CopyTurn (sys : System β) (config : Config) (handled : World β) (data : Entry)
    (t : FileTree β) : Prop :=
  ∃ files files' w, config.files = files ++ data :: files' ∧
    sys.copiesOf files handled = .ok () w ∧ w.tree = t

/-- The source of an entry is there, as a path, when `backup_configs` comes to
the entry. -/
def Foreseen (sys : System β) (config : Config) (before : World β) (source dest : Path) : Prop :=
  ∃ data t, BackupTurn sys config before data t ∧ data.source.get = some source ∧
    data.dest.get = some dest ∧ sys.pathExists t source = true

/-- Whatever is copied goes to the recorded destination of a foreseen entry or
below one. -/
def Predicted (sys : System β) (config : Config) (before handled : World β) : Prop :=
  ∀ data t source dest source', CopyTurn sys config handled data t →
    data.source.get = some source → data.dest.get = some dest → source' ∈ sys.glob t source →
      ∃ s d, Foreseen sys config before s d ∧
        Path.abspath sys.cwd (System.recordedPath d s) <+:
          Path.abspath sys.cwd (ConfigFile.target dest source')

/-- The backup of the path has a place of its own. -/
structure Placed (sys : System β) (dst : Path) : Prop where
  straight : Straight dst
  outside : Apart (Path.abspath sys.cwd dst) defaultsLoc
  not_state : ¬ ["state"] <+: Path.abspath sys.cwd dst

/-- What the backups take for granted of the destinations: one that was there
before the start, or is there when its turn comes, has a place for its
backup; one that is copied matches, as a pattern, at most itself; and in a
directory nothing is recorded under the name `..`. -/
structure Recordable (sys : System β) (config : Config) (before : World β) : Prop where
  placed : ∀ data t source dest, BackupTurn sys config before data t →
    data.source.get = some source → data.dest.get = some dest → sys.pathExists t source = true →
    (sys.pathExists before.tree (System.recordedPath dest source) = true ∨
      sys.pathExists t (System.recordedPath dest source) = true) →
      Placed sys (System.recordedPath dest source)
  single : ∀ data t source dest, BackupTurn sys config before data t →
    data.source.get = some source → data.dest.get = some dest → sys.pathExists t source = true →
    sys.pathExists t (System.recordedPath dest source) = true →
      sys.glob t (System.recordedPath dest source) = [System.recordedPath dest source] ∨
        sys.glob t (System.recordedPath dest source) = []
  named : ∀ source dest, Foreseen sys config before source dest →
    Path.endswithSep dest = true → Path.basename source ≠ ".."

/-- A recorded path that existed in the tree `t₀` can be restored from its
entry to what was there. -/
structure Backed (sys : System β) (t₀ t : FileTree β) (k : Path) (v : StateEntry) : Prop where
  placed : sys.pathExists t₀ k = true → Placed sys k
  dest : sys.pathExists t₀ k = true → v.dest = some (kollaDefaults.concat k)
  content : sys.pathExists t₀ k = true → ∀ rel,
    t.content (defaultsLoc ++ Path.abspath sys.cwd k ++ rel)
      = t₀.content (Path.abspath sys.cwd k ++ rel)

/-- A path that did not exist has nothing to restore. -/
theorem Backed.of_missing {sys : System β} {t₀ t : FileTree β} {k : Path} {v : StateEntry}
    (h : sys.pathExists t₀ k = false) : Backed sys t₀ t k v := by
  have hnot : sys.pathExists t₀ k ≠ true := by simp [h]
  exact ⟨fun hthere => absurd hthere hnot, fun hthere => absurd hthere hnot,
    fun hthere => absurd hthere hnot⟩

variable {sys : System β} {t₀ : FileTree β}

/-- A backup that is already there survives the next one: what the two have
in common is the same contents. -/
theorem Backed.survives {k : Path} {v : StateEntry} {t t' : FileTree β} {loc : Loc}
    (h : Backed sys t₀ t k v) (ht : t.LinkFree)
    (hconfined : Confined (defaultsLoc ++ loc) t t')
    (hcopy : ∀ rel, t'.content (defaultsLoc ++ loc ++ rel) = t₀.content (loc ++ rel))
    (hthere : t₀.content loc ≠ none) : Backed sys t₀ t' k v := by
  refine ⟨h.placed, h.dest, fun hexists rel => ?_⟩
  rw [List.append_assoc]
  by_cases hpre : loc <+: Path.abspath sys.cwd k ++ rel
  · obtain ⟨rest, hrest⟩ := hpre
    rw [← hrest, ← List.append_assoc, hcopy]
  · have hnot : ¬ defaultsLoc ++ loc <+: defaultsLoc ++ (Path.abspath sys.cwd k ++ rel) := by
      rwa [List.prefix_append_right_inj]
    rcases (hconfined ht).2 _ hnot with heq | ⟨hway, hnone, -⟩
    · rw [heq, ← List.append_assoc, h.content hexists]
    · -- a directory on the way to what was there before was there before
      rw [List.prefix_append_right_inj] at hway
      rw [← List.append_assoc, h.content hexists rel] at hnone
      exfalso
      by_cases heq : Path.abspath sys.cwd k ++ rel = loc
      · exact hthere (heq ▸ hnone)
      · rw [FileTree.content_above hway heq hthere] at hnone
        cases hnone

/-! ## The backups -/

/-- The invariant of the backups: only `KOLLA_DEFAULTS` has changed, and
every recorded path can be restored. -/
structure BackupInv (sys : System β) (t₀ : FileTree β) (state : State) (t : FileTree β) : Prop where
  linkFree : t.LinkFree
  within : Confined defaultsLoc t₀ t
  nodup : state.keys.Nodup
  backed : ∀ e ∈ state, Backed sys t₀ t e.1 e.2

namespace BackupInv

variable {config : Config} {before : World β} {source dst : Path} {state state' : State}
  {w w' : World β}

/-- What lies outside of `KOLLA_DEFAULTS` is what it was. -/
theorem content_eq {t : FileTree β} (h : BackupInv sys t₀ state t) (ht₀ : t₀.LinkFree) {loc : Loc}
    (hapart : Apart loc defaultsLoc) (rel : Loc) : t.content (loc ++ rel) = t₀.content (loc ++ rel) :=
  h.within.content_apart ht₀ hapart rel

theorem pathExists_eq {t : FileTree β} (h : BackupInv sys t₀ state t) (ht₀ : t₀.LinkFree)
    (hplaced : Placed sys dst) : sys.pathExists t dst = sys.pathExists t₀ dst := by
  refine System.pathExists_congr ht₀ h.linkFree (hplaced.straight.direct_from _) ?_
  have hcontent := h.content_eq ht₀ hplaced.outside []
  rwa [List.append_nil] at hcontent

/-- A new entry of the state. -/
theorem insert {t : FileTree β} (h : BackupInv sys t₀ state w.tree) {v : StateEntry}
    (ht : t.LinkFree) (hwithin : Confined defaultsLoc w.tree t) (hnew : Backed sys t₀ t dst v)
    (hold : ∀ e ∈ state, Backed sys t₀ w.tree e.1 e.2 → Backed sys t₀ t e.1 e.2) :
    BackupInv sys t₀ (state.insert dst v) t := by
  refine ⟨ht, trans_of (Confined defaultsLoc) h.within hwithin,
    Dict.nodup_keys_insert h.nodup _ _, fun e he => ?_⟩
  rcases (Dict.mem_insert h.nodup).mp he with rfl | ⟨he, -⟩
  · exact hnew
  · exact hold e he (h.backed e he)

/-- The backup of a path that exists. -/
theorem copy (h : BackupInv sys t₀ state w.tree) (ht₀ : t₀.LinkFree) (hplaced : Placed sys dst)
    (hthere : sys.pathExists w.tree dst = true)
    (hsingle : sys.glob w.tree dst = [dst] ∨ sys.glob w.tree dst = [])
    (hcopy : ({ source := dst, dest := some (kollaDefaults.concat dst) } :
      StateEntry).configFile.copy sys w = .ok () w') :
    BackupInv sys t₀ (state.insert dst
      { source := dst, dest := some (kollaDefaults.concat dst) }) w'.tree := by
  obtain ⟨htarget, hloc⟩ := backup_target hplaced.straight sys.cwd
  have hapart : Apart (Path.abspath sys.cwd dst) (defaultsLoc ++ Path.abspath sys.cwd dst) := by
    have happ := hplaced.outside.append [] (Path.abspath sys.cwd dst)
    rwa [List.append_nil] at happ
  have hconfined : Confined (defaultsLoc ++ Path.abspath sys.cwd dst) w.tree w'.tree := by
    refine Moves.of_ok_at (R := OnTree (Confined _)) ?_ hcopy
    refine ConfigFile.confined_copy_at rfl fun pattern hsource source' hglob => ?_
    obtain rfl := Option.some.inj hsource
    obtain rfl : source' = dst := by
      rcases hsingle with hone | hnone
      · rw [hone] at hglob
        exact List.mem_singleton.mp hglob
      · rw [hnone] at hglob
        cases hglob
    exact ⟨htarget, hloc ▸ List.prefix_refl _⟩
  have hreplica : ∀ rel, w'.tree.content (defaultsLoc ++ Path.abspath sys.cwd dst ++ rel)
      = t₀.content (Path.abspath sys.cwd dst ++ rel) := by
    intro rel
    rw [← hloc, ConfigFile.copy_replica rfl rfl rfl rfl rfl htarget
      (by rw [hloc]; exact hapart) hsingle h.linkFree hcopy rel]
    exact h.content_eq ht₀ hplaced.outside rel
  refine h.insert (hconfined h.linkFree).1 (hconfined.mono (List.prefix_append _ _))
    ⟨fun _ => hplaced, fun _ => rfl, fun _ => hreplica⟩ fun e _ hold => ?_
  refine hold.survives h.linkFree hconfined hreplica (System.content_of_pathExists ht₀ ?_)
  rwa [← h.pathExists_eq ht₀ hplaced]

/-- One backup. -/
theorem backupPath (h : BackupInv sys t₀ state w.tree) (ht₀ : t₀.LinkFree)
    (hplaced : sys.pathExists w.tree source = true →
      sys.pathExists t₀ dst = true ∨ sys.pathExists w.tree dst = true → Placed sys dst)
    (hsingle : sys.pathExists w.tree source = true → sys.pathExists w.tree dst = true →
      sys.glob w.tree dst = [dst] ∨ sys.glob w.tree dst = [])
    (hback : sys.backupPath source dst state w = .ok state' w') :
    BackupInv sys t₀ state' w'.tree := by
  rw [System.backupPath, tree_bind] at hback
  split at hback
  · rename_i hsource
    have hplaced := hplaced hsource
    split at hback
    · rename_i hdst
      split at hback
      · obtain ⟨rfl, rfl⟩ := pure_eq_ok.mp hback
        exact h
      · obtain ⟨_, w₁, hcopy, hback⟩ := bind_eq_ok.mp hback
        obtain ⟨rfl, rfl⟩ := pure_eq_ok.mp hback
        exact h.copy ht₀ (hplaced (Or.inr hdst)) hdst (hsingle hsource hdst) hcopy
    · rename_i hdst
      have hmissing : sys.pathExists t₀ dst = false := by
        by_contra hthere
        rw [Bool.not_eq_false] at hthere
        rw [h.pathExists_eq ht₀ (hplaced (Or.inl hthere)), hthere] at hdst
        exact hdst rfl
      split at hback
      · obtain ⟨rfl, rfl⟩ := pure_eq_ok.mp hback
        exact h
      · obtain ⟨rfl, rfl⟩ := pure_eq_ok.mp hback
        exact h.insert h.linkFree (refl_of (Confined defaultsLoc) _) (Backed.of_missing hmissing)
          fun _ _ hold => hold
  · obtain ⟨rfl, rfl⟩ := pure_eq_ok.mp hback
    exact h

end BackupInv

/-! ## The first start -/

section First

variable {config : Config} {before : World β} {state : State} {w : World β}

/-- The first start reads an empty state. -/
theorem read_of_first {w w' : World β} {read : State} (ht : w.tree.LinkFree)
    (hfirst : sys.pathExists w.tree kollaDefaultsState = false)
    (h : sys.getDefaultsState w = .ok read w') :
    read = [] ∧ w'.tree.LinkFree ∧ Confined defaultsLoc w.tree w'.tree := by
  obtain ⟨_, w₁, hmake, h⟩ := bind_eq_ok.mp h
  have hdown : Down kollaDefaults := by simp [Down, kollaDefaults]
  have hmade : Confined defaultsLoc w.tree w₁.tree :=
    (System.confined_makedirs true hdown (Or.inr (List.prefix_refl _))).of_ok hmake
  have hstate : sys.pathExists w₁.tree kollaDefaultsState = false := by
    rw [← hfirst]
    have hstate : Down kollaDefaultsState := by simp [Down, kollaDefaultsState, kollaDefaults]
    refine System.pathExists_congr ht (hmade ht).1 (hstate.direct _) ?_
    have hpassed : ∀ l, Passed sys.cwd kollaDefaults l → l <+: defaultsLoc :=
      fun l hl => hl.above hdown
    exact System.makedirs_below ht hpassed hmake (List.cons_ne_nil "state" [])
  rw [tree_bind, hstate, if_neg Bool.false_ne_true] at h
  obtain ⟨rfl, rfl⟩ := pure_eq_ok.mp h
  exact ⟨rfl, (hmade ht).1, hmade⟩

/-- What is known when the first entries have had their turns. -/
theorem inv_backupsOf (ht : before.tree.LinkFree)
    (hfirst : sys.pathExists before.tree kollaDefaultsState = false)
    (hrecordable : Recordable sys config before) {files rest : List Entry}
    (hfiles : config.files = files ++ rest) (h : sys.backupsOf files before = .ok state w) :
    BackupInv sys before.tree state w.tree ∧ ∀ k ∈ state.keys, ∃ source dest,
      Foreseen sys config before source dest ∧ k = System.recordedPath dest source := by
  induction files using List.reverseRecOn generalizing rest state w with
  | nil =>
    obtain ⟨read, w₁, hread, h⟩ := bind_eq_ok.mp h
    obtain ⟨rfl, ht₁, hopened⟩ := read_of_first ht hfirst hread
    obtain ⟨rfl, rfl⟩ := pure_eq_ok.mp h
    exact ⟨⟨ht₁, hopened, List.nodup_nil, nofun⟩, nofun⟩
  | append_singleton files data ih =>
    rw [System.backupsOf_append] at h
    obtain ⟨state₁, w₁, hdone, hdata⟩ := bind_eq_ok.mp h
    rw [List.append_assoc, List.singleton_append] at hfiles
    obtain ⟨hinv, hkeys⟩ := ih hfiles hdone
    have hturn : BackupTurn sys config before data w₁.tree :=
      ⟨files, rest, state₁, w₁, hfiles, hdone, rfl⟩
    rw [List.foldlM_cons] at hdata
    obtain ⟨state₂, w₂, hone, hend⟩ := bind_eq_ok.mp hdata
    rw [List.foldlM_nil] at hend
    obtain ⟨rfl, rfl⟩ := pure_eq_ok.mp hend
    obtain ⟨dest, hdest, ⟨-, rfl, rfl⟩ | ⟨source, hsource, -, hpath⟩⟩ :=
      System.backupConfig_cases hone
    · exact ⟨hinv, hkeys⟩
    · refine ⟨hinv.backupPath ht
        (hrecordable.placed data w₁.tree source dest hturn hsource hdest)
        (hrecordable.single data w₁.tree source dest hturn hsource hdest) hpath, fun k hk => ?_⟩
      rcases (keys_backupPath hpath k).mp hk with hold | ⟨rfl, hexists⟩
      · exact hkeys k hold
      · exact ⟨source, dest, ⟨data, w₁.tree, hturn, hsource, hdest, hexists⟩, rfl⟩

/-- The last component of a recorded path is a step down. -/
theorem recorded_below {source dest : Path}
    (hname : Path.endswithSep dest = true → Path.basename source ≠ "..") (cwd : Loc) :
    Path.abspath cwd dest <+: Path.abspath cwd (System.recordedPath dest source) := by
  by_cases hslash : Path.endswithSep dest = true
  · rw [recordedPath_eq hslash, abspath_join_step]
    exact prefix_absStep (hname hslash) _
  · rw [System.recordedPath, if_neg hslash]

/-- A foreseen entry has its path at or below a key. -/
theorem recorded_of_foreseen (hrecordable : Recordable sys config before)
    (h : sys.backupsOf config.files before = .ok state w) {source dest : Path}
    (hforeseen : Foreseen sys config before source dest) :
    ∃ k ∈ state.keys,
      Path.abspath sys.cwd k <+: Path.abspath sys.cwd (System.recordedPath dest source) := by
  have hname := hrecordable.named source dest hforeseen
  obtain ⟨data, t, ⟨files, files', state₁, w₁, hfiles, hdone, rfl⟩, hsource, hdest, hexists⟩ :=
    hforeseen
  rw [hfiles, System.backupsOf_append, bind_of_ok hdone, List.foldlM_cons] at h
  obtain ⟨state₂, w₂, hone, hrest⟩ := bind_eq_ok.mp h
  have hmono := (keys_backup hrest).2.1
  obtain ⟨dest', hdest', ⟨hmem, rfl, rfl⟩ | ⟨source', hsource', -, hpath⟩⟩ :=
    System.backupConfig_cases hone
  · obtain rfl := Option.some.inj (hdest.symm.trans hdest')
    exact ⟨dest, hmono hmem, recorded_below hname sys.cwd⟩
  · obtain rfl := Option.some.inj (hdest.symm.trans hdest')
    obtain rfl := Option.some.inj (hsource.symm.trans hsource')
    exact ⟨_, hmono ((keys_backupPath hpath _).mpr (Or.inr ⟨rfl, hexists⟩)), List.prefix_refl _⟩

end First

/-! ## Where a copy goes -/

section Target

variable {t : FileTree β} {source source' dest : Path}

/-- The copy of what is no pattern goes to the recorded path. -/
theorem target_eq (hglob : source' ∈ sys.glob t source)
    (h : hasMagic source = false ∨ Path.endswithSep dest = false) :
    ConfigFile.target dest source' = System.recordedPath dest source := by
  rw [ConfigFile.target]
  split
  · rename_i hslash
    rcases h with hmagic | hno
    · rw [System.glob_of_not_magic sys hmagic hglob, recordedPath_eq hslash]
    · rw [hslash] at hno
      cases hno
  · rename_i hslash
    rw [System.recordedPath, if_neg hslash]

/-- A target is spelled like its destination. -/
theorem passed_target {l : Loc} (h : Passed sys.cwd (ConfigFile.target dest source) l) :
    l = Path.abspath sys.cwd (ConfigFile.target dest source) ∨ Passed sys.cwd dest l := by
  rw [ConfigFile.target] at h ⊢
  split at h
  · rename_i hslash
    rw [if_pos hslash]
    exact h.join
  · exact Or.inr h

end Target

/-- Where the sources are there in time, and no pattern is copied into a
directory, the prediction is right. -/
theorem predicted_of_foreseen {config : Config} {before handled : World β}
    (h : ∀ data ∈ config.files, ∀ source dest, data.source.get = some source →
      data.dest.get = some dest → Foreseen sys config before source dest ∧
        (hasMagic source = false ∨ Path.endswithSep dest = false)) :
    Predicted sys config before handled := by
  intro data t source dest source' hturn hsource hdest hglob
  obtain ⟨files, files', w, hfiles, -, -⟩ := hturn
  obtain ⟨hforeseen, hspelled⟩ := h data (by rw [hfiles]; simp) source dest hsource hdest
  exact ⟨source, dest, hforeseen, by rw [target_eq hglob hspelled]⟩

/-! ## What is copied -/

/-- The places of the recorded paths and of the command. -/
def places (sys : System β) (saved : State) : List Loc :=
  ["run_command"] :: saved.keys.map (Path.abspath sys.cwd)

/-- A directory on the way to one of the places, or one that the spelling of
a destination passes. -/
def OnTheWay (sys : System β) (config : Config) (saved : State) (l : Loc) : Prop :=
  (∃ loc ∈ places sys saved, l <+: loc) ∨
    ∃ data ∈ config.files, ∃ dest, data.dest.get = some dest ∧ Passed sys.cwd dest l

/-- Nothing has changed but what is at or below the places and the directories
on the way. -/
def Touches (sys : System β) (config : Config) (saved : State) : FileTree β → FileTree β → Prop :=
  Changes (fun l => ∃ loc ∈ places sys saved, loc <+: l) (OnTheWay sys config saved)

instance (config : Config) (saved : State) :
    IsPreorder (FileTree β) (Touches sys config saved) :=
  inferInstanceAs (IsPreorder (FileTree β) (Changes _ _))

theorem Confined.touches {config : Config} {saved : State} {loc top : Loc} {t t' : FileTree β}
    (h : Confined top t t') (hmem : loc ∈ places sys saved) (htop : loc <+: top) :
    Touches sys config saved t t' :=
  Changes.mono (h.mono htop) (fun _ hl => ⟨loc, hmem, hl⟩) fun _ hl => Or.inr (Or.inl ⟨loc, hmem, hl⟩)

/-- What a backup of the destinations is for: whatever `copy_config` does, in
whatever iteration and wherever it stops, it does at or below a path of the
saved state, and what was there under such a path is in its backup. -/
structure BackedUp (sys : System β) (config : Config) (before handled : World β)
    (saved : State) : Prop where
  state : ∃ content, handled.tree.content (defaultsLoc ++ ["state"]) = some (.file, some content) ∧
    sys.codec.loads content = some saved
  covered : ∀ data t source dest source', CopyTurn sys config handled data t →
    data.source.get = some source → data.dest.get = some dest → source' ∈ sys.glob t source →
      ∃ k ∈ saved.keys,
        Path.abspath sys.cwd k <+: Path.abspath sys.cwd (ConfigFile.target dest source')
  touched : Touches sys config saved handled.tree (exitState (sys.copyConfig config handled)).tree
  backup : ∀ k v, (k, v) ∈ saved → sys.pathExists before.tree k = true →
    v.dest = some (kollaDefaults.concat k) ∧ ∀ rel,
      handled.tree.content (Path.abspath sys.cwd (kollaDefaults.concat k) ++ rel)
        = before.tree.content (Path.abspath sys.cwd k ++ rel)

section Copies

variable {config : Config} {before handled : World β} {saved : State}

/-- Writing the state leaves the backups as they are. -/
theorem Backed.save {k : Path} {v : StateEntry} {t t' : FileTree β} (h : Backed sys t₀ t k v)
    (ht : t.LinkFree) (hsave : Confined (defaultsLoc ++ ["state"]) t t') :
    Backed sys t₀ t' k v := by
  refine ⟨h.placed, h.dest, fun hexists rel => ?_⟩
  have hplaced := h.placed hexists
  rw [← h.content hexists rel]
  obtain ⟨x, loc, hloc⟩ : ∃ x loc, Path.abspath sys.cwd k = x :: loc := by
    refine List.exists_cons_of_ne_nil fun hnil => hplaced.outside.1 ?_
    rw [hnil]
    exact List.nil_prefix
  have hx : "state" ≠ x := by
    rintro rfl
    exact hplaced.not_state ⟨loc, by rw [hloc]; rfl⟩
  have hapart : Apart (defaultsLoc ++ Path.abspath sys.cwd k) (defaultsLoc ++ ["state"]) := by
    refine Apart.below ⟨?_, hplaced.not_state⟩ defaultsLoc
    rw [hloc, List.cons_prefix_cons]
    exact fun hpre => hx hpre.1.symm
  exact hsave.content_apart ht hapart rel

/-- What a first start has saved when `handle_defaults` returns. -/
structure Saved (sys : System β) (config : Config) (before handled : World β) (saved : State) :
    Prop where
  linkFree : handled.tree.LinkFree
  state : ∃ content, handled.tree.content (defaultsLoc ++ ["state"]) = some (.file, some content) ∧
    sys.codec.loads content = some saved
  backed : ∀ e ∈ saved, Backed sys before.tree handled.tree e.1 e.2
  keys : ∀ k ∈ saved.keys, ∃ source dest,
    Foreseen sys config before source dest ∧ k = System.recordedPath dest source
  recorded : ∀ source dest, Foreseen sys config before source dest → ∃ k ∈ saved.keys,
    Path.abspath sys.cwd k <+: Path.abspath sys.cwd (System.recordedPath dest source)

/-- After `handle_defaults` on a first start. -/
theorem saved_of_first (ht : before.tree.LinkFree)
    (hfirst : sys.pathExists before.tree kollaDefaultsState = false)
    (hrecordable : Recordable sys config before)
    (h : sys.handleDefaults config before = .ok () handled) :
    ∃ saved, Saved sys config before handled saved := by
  rw [System.handleDefaults_eq] at h
  obtain ⟨saved, w, hback, hsave⟩ := bind_eq_ok.mp h
  obtain ⟨hinv, hkeys⟩ := inv_backupsOf ht hfirst hrecordable (List.append_nil _).symm hback
  have hwrite : Confined (defaultsLoc ++ ["state"]) w.tree handled.tree :=
    (@System.confined_writeFile _ sys _ kollaDefaultsState (List.prefix_refl _) _).of_ok hsave
  exact ⟨saved, (hwrite hinv.linkFree).1,
    ⟨_, System.writeFile_content hinv.linkFree hsave, sys.codec.loads_dumps _ hinv.nodup⟩,
    fun e he => (hinv.backed e he).save hinv.linkFree hwrite, hkeys,
    fun _ _ hforeseen => recorded_of_foreseen hrecordable hback hforeseen⟩

namespace Saved

/-- The copy of one entry touches only recorded paths. -/
theorem touches_copy (h : Saved sys config before handled saved)
    (hpredicted : Predicted sys config before handled) {data : Entry} {w : World β}
    (hturn : CopyTurn sys config handled data w.tree) :
    OnTree (Touches sys config saved) w (exitState ((do
      let configFile ← data.configFile
      configFile.copy sys : Os β Unit) w)) := by
  rw [Entry.configFile]
  split
  · exact refl_of (Touches sys config saved) w.tree
  · rw [pure_bind, ConfigFile.copy]
    cases hsource : data.source.get with
    | none => exact refl_of (Touches sys config saved) w.tree
    | some source =>
      dsimp only
      rw [tree_bind]
      split
      · split <;> exact refl_of (Touches sys config saved) w.tree
      · refine Moves.forM (R := OnTree (Touches sys config saved)) (fun source' hglob => ?_) w
        cases hdest : data.dest.get with
        | none => exact fun w => refl_of (Touches sys config saved) w.tree
        | some dest =>
          obtain ⟨s, d, hforeseen, hpre⟩ :=
            hpredicted data w.tree source dest source' hturn hsource hdest hglob
          obtain ⟨k, hk, hkey⟩ := h.recorded s d hforeseen
          have hplace : Path.abspath sys.cwd k ∈ places sys saved :=
            List.mem_cons_of_mem _ (List.mem_map_of_mem hk)
          have hbelow := hkey.trans hpre
          obtain ⟨files, files', -, hfiles, -, -⟩ := hturn
          have hdata : data ∈ config.files := by
            rw [hfiles]
            exact List.mem_append_right _ List.mem_cons_self
          refine ConfigFile.changes_copySource rfl
            ⟨fun l hl => ⟨_, hplace, hbelow.trans hl⟩, fun l hl => ?_, fun l hl => ?_⟩
          · rcases List.prefix_or_prefix_of_prefix hl hbelow with hup | hin
            · exact Or.inr (Or.inl ⟨_, hplace, hup⟩)
            · exact Or.inl ⟨_, hplace, hin⟩
          · rcases passed_target hl with rfl | hl
            · exact Or.inl ⟨_, hplace, hbelow⟩
            · exact Or.inr (Or.inr ⟨data, hdata, dest, hdest, hl⟩)

/-- Writing the command touches the file of the command. -/
theorem confined_command (command : Option String) :
    Moves (OnTree (Confined ["run_command"])) (do
      let loc ← sys.openWrite System.runCommand
      match command with
      | none => throw .typeError
      | some command => do
        System.write loc (sys.codec.encode command)
        logOSError (sys.chmod System.runCommand 0o644) : Os β Unit) := by
  have hrun : ["run_command"] <+: Path.abspath sys.cwd System.runCommand := List.prefix_refl _
  intro w ht
  refine Moves.bind_at (R := OnTree (Confined ["run_command"])) (System.confined_openWrite hrun w)
    (fun loc w₁ hopen => ?_) ht
  cases command with
  | none => exact refl_of (Confined ["run_command"]) w₁.tree
  | some command =>
    refine Moves.bind (System.confined_write (System.openWrite_loc ht hopen ▸ hrun) _)
      (fun _ => ?_) w₁
    exact moves_logOSError (Confined.moves (System.sameContent_chmod _))

/-- Copying the configuration touches only recorded paths and the file of the
command, wherever it stops. -/
theorem touches_copyConfig (h : Saved sys config before handled saved)
    (hpredicted : Predicted sys config before handled) :
    OnTree (Touches sys config saved) handled (exitState (sys.copyConfig config handled)) := by
  rw [System.copyConfig]
  refine Moves.bind_at (R := OnTree (Touches sys config saved)) ?_ fun _ w₁ hcopies => ?_
  · exact Moves.forM_split (R := OnTree (Touches sys config saved)) fun files data files' w hfiles
      hdone => h.touches_copy hpredicted ⟨files, files', w, hfiles, hdone, rfl⟩
  · refine Moves.bind_at (R := OnTree (Touches sys config saved)) ?_ fun command w₂ _ => ?_
    · cases config.command <;> exact refl_of (Touches sys config saved) w₁.tree
    · exact Confined.touches (confined_command command w₂) List.mem_cons_self (List.prefix_refl _)

/-- The state file has one reading. -/
theorem eq_of_backedUp {saved' : State} (h : Saved sys config before handled saved)
    (hbacked : BackedUp sys config before handled saved') : saved' = saved := by
  obtain ⟨content, hcontent, hloads⟩ := h.state
  obtain ⟨content', hcontent', hloads'⟩ := hbacked.state
  rw [hcontent] at hcontent'
  obtain rfl : content = content' :=
    Option.some.inj (Prod.mk.inj (Option.some.inj hcontent')).2
  exact Option.some.inj (hloads'.symm.trans hloads)

end Saved

end Copies

/-! ## A start with a pattern -/

def confTree : FileTree Content where
  nodes :=
    [([], rootDir), (["src"], rootDir), (["src", "a.conf"], rootFile "new"), (["etc"], rootDir),
      (["etc", "app"], rootDir), (["etc", "app", "a.conf"], rootFile "old")]
  nodup := by decide
  root := by decide
  closed := by decide
  proper := by decide

/-- An entry that copies into a directory. -/
def confEntry (source : Path) : Entry :=
  { appEntry with source := .given source, dest := .given ["", "etc", "app", ""] }

def confConfig (source : Path) : Config :=
  { appConfig with configFiles := some [confEntry source] }

theorem mem_confConfig {source : Path} {files files' : List Entry} {data : Entry}
    (h : (confConfig source).files = files ++ data :: files') : data = confEntry source := by
  have hmem : data ∈ (confConfig source).files := by
    rw [h]
    exact List.mem_append_right _ List.mem_cons_self
  exact List.mem_singleton.mp hmem

theorem linkFree_confTree : confTree.LinkFree := by
  intro loc target h
  have hmem := FileTree.lookup_eq_some_iff.mp h
  simp [confTree, rootDir, rootFile] at hmem

end Kolla.SetConfigs
