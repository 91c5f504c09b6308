import Kolla.SetConfigs.FirstStart
import Mathlib.Algebra.Group.Even
import Mathlib.Logic.Function.Iterate

/-!
# What the restore phases of a container do

`remove_or_restore_configs` exchanges the source and the destination of an
entry, copies, and leaves the exchanged entry in the state that is saved.
So the entry points the other way at the next start, and every second start
copies the live path over its backup.

The first half follows the entries (`Life.turned`) and is about every life of
a container.  The second half follows the contents and assumes that the
recorded paths keep out of each other's way (`Tidy`): each restore is a copy
from one of the two places of a path to the other one, and `restores_alternate`
says what a path holds after the restore phase of any later start.
-/

namespace Kolla.SetConfigs

open Kolla.Lib

variable {β : Type}

/-! ## The entries -/

/-- The entry after a restore. -/
def StateEntry.turn (v : StateEntry) : StateEntry :=
  match v.dest with
  | none => v
  | some dest => { source := dest, dest := some v.source }

theorem StateEntry.turn_turn (v : StateEntry) : v.turn.turn = v := by
  obtain ⟨source, dest⟩ := v
  cases dest with
  | none => rfl
  | some dest => rfl

/-- The entry of a recorded path: what did not exist is to be removed, what
existed has a backup. -/
def recordedEntry (k : Path) (existed : Bool) : StateEntry :=
  { source := k, dest := if existed then some (kollaDefaults.concat k) else none }

/-- An entry as `backup_configs` recorded it, or turned. -/
def EntryOf (k : Path) (v : StateEntry) : Prop :=
  ∃ existed, v = recordedEntry k existed ∨ v = (recordedEntry k existed).turn

theorem EntryOf.turn {k : Path} {v : StateEntry} (h : EntryOf k v) : EntryOf k v.turn := by
  obtain ⟨existed, rfl | rfl⟩ := h
  · exact ⟨existed, Or.inr rfl⟩
  · exact ⟨existed, Or.inl (StateEntry.turn_turn _)⟩

variable {sys : System β}

/-- The restore phase turns every entry. -/
theorem restored_eq {state state' : State} {w w' : World β}
    (h : sys.removeOrRestoreConfigs state w = .ok state' w') :
    state' = state.map fun e => (e.1, e.2.turn) := by
  induction state generalizing state' w w' with
  | nil => rw [← (pure_eq_ok.mp h).1, List.map_nil]
  | cons e state ih =>
    obtain ⟨k, v⟩ := e
    obtain ⟨v', w₁, hone, hrest⟩ := bind_eq_ok.mp h
    obtain ⟨rest, w₂, hall, hpure⟩ := bind_eq_ok.mp hrest
    obtain ⟨rfl, -⟩ := pure_eq_ok.mp hpure
    rw [List.map_cons, ih hall]
    obtain ⟨source, dest⟩ := v
    cases dest with
    | none =>
      obtain ⟨_, w₃, -, hpure⟩ := bind_eq_ok.mp hone
      rw [← (pure_eq_ok.mp hpure).1]
      rfl
    | some dest =>
      obtain ⟨_, w₃, -, hpure⟩ := bind_eq_ok.mp hone
      rw [← (pure_eq_ok.mp hpure).1]
      rfl

/-- What a backup of one path does: nothing, or it records the path. -/
theorem backupPath_cases {src dst : Path} {state state' : State} {w w' : World β}
    (h : sys.backupPath src dst state w = .ok state' w') :
    state' = state ∧ w' = w ∨
      dst ∉ state.keys ∧
        state' = state.insert dst (recordedEntry dst (sys.pathExists w.tree dst)) ∧
        (sys.pathExists w.tree dst = false → w' = w) ∧
        (sys.pathExists w.tree dst = true →
          (StateEntry.configFile ⟨dst, some (kollaDefaults.concat dst)⟩).copy sys w = .ok () w') := by
  rw [System.backupPath, tree_bind] at h
  split at h
  · split at h
    · rename_i hexists
      split at h
      · obtain ⟨rfl, rfl⟩ := pure_eq_ok.mp h
        exact Or.inl ⟨rfl, rfl⟩
      · rename_i hdst
        obtain ⟨_, w₁, hcopy, hpure⟩ := bind_eq_ok.mp h
        obtain ⟨rfl, rfl⟩ := pure_eq_ok.mp hpure
        rw [hexists]
        exact Or.inr ⟨hdst, rfl, fun hmissing => absurd hmissing (by decide), fun _ => hcopy⟩
    · rename_i hexists
      rw [Bool.not_eq_true] at hexists
      split at h
      · obtain ⟨rfl, rfl⟩ := pure_eq_ok.mp h
        exact Or.inl ⟨rfl, rfl⟩
      · rename_i hdst
        obtain ⟨rfl, rfl⟩ := pure_eq_ok.mp h
        rw [hexists]
        exact Or.inr ⟨hdst, rfl, fun _ => rfl, fun hthere => absurd hthere (by decide)⟩
  · obtain ⟨rfl, rfl⟩ := pure_eq_ok.mp h
    exact Or.inl ⟨rfl, rfl⟩

/-- What the state has after one path was handed to the backup. -/
theorem mem_backupPath {src dst : Path} {state state' : State} {w w' : World β}
    (hnodup : state.keys.Nodup) (h : sys.backupPath src dst state w = .ok state' w') :
    state'.keys.Nodup ∧ (∀ e ∈ state, e ∈ state') ∧
      ∀ e ∈ state', e ∈ state ∨ e = (dst, recordedEntry dst (sys.pathExists w.tree dst)) := by
  obtain ⟨rfl, -⟩ | ⟨hdst, rfl, -⟩ := backupPath_cases h
  · exact ⟨hnodup, fun e he => he, fun e he => Or.inl he⟩
  · refine ⟨Dict.nodup_keys_insert hnodup _ _, fun e he => ?_, fun e he => ?_⟩
    · refine (Dict.mem_insert hnodup).mpr (Or.inr ⟨he, fun heq => hdst ?_⟩)
      rw [← heq]
      exact Dict.mem_keys_of_mem he
    · exact ((Dict.mem_insert hnodup).mp he).symm.imp_left And.left

/-- The backup phase keeps the entries that it finds. -/
theorem mem_backups {entries : List Entry} {state state' : State} {w w' : World β}
    (hnodup : state.keys.Nodup) (h : entries.foldlM sys.backupConfig state w = .ok state' w') :
    state'.keys.Nodup ∧ (∀ e ∈ state, e ∈ state') ∧ ∀ e ∈ state', e ∈ state ∨ EntryOf e.1 e.2 := by
  induction entries generalizing state w with
  | nil =>
    rw [List.foldlM_nil] at h
    obtain ⟨rfl, -⟩ := pure_eq_ok.mp h
    exact ⟨hnodup, fun e he => he, fun e he => Or.inl he⟩
  | cons data entries ih =>
    rw [List.foldlM_cons] at h
    obtain ⟨state₁, w₁, hdata, hrest⟩ := bind_eq_ok.mp h
    have hone : state₁.keys.Nodup ∧ (∀ e ∈ state, e ∈ state₁) ∧
        ∀ e ∈ state₁, e ∈ state ∨ EntryOf e.1 e.2 := by
      obtain ⟨dest, -, ⟨-, rfl, -⟩ | ⟨source, -, -, hpath⟩⟩ := System.backupConfig_cases hdata
      · exact ⟨hnodup, fun e he => he, fun e he => Or.inl he⟩
      · obtain ⟨hnodup₁, hold, hnew⟩ := mem_backupPath hnodup hpath
        refine ⟨hnodup₁, hold, fun e he => (hnew e he).imp_right ?_⟩
        rintro rfl
        exact ⟨_, Or.inl rfl⟩
    obtain ⟨hnodup₁, hold₁, hnew₁⟩ := hone
    obtain ⟨hnodup₂, hold₂, hnew₂⟩ := ih hnodup₁ hrest
    refine ⟨hnodup₂, fun e he => hold₂ e (hold₁ e he), fun e he => ?_⟩
    rcases hnew₂ e he with hmem | hentry
    · exact hnew₁ e hmem
    · exact Or.inr hentry

/-- The states of a life. -/
abbrev Follows (start start' : Start sys) : Prop := start'.read = start.saved

/-- `json.load` gives each key once. -/
theorem Start.nodup_read (start : Start sys) : start.read.keys.Nodup := by
  obtain ⟨_, w₁, -, hread⟩ := bind_eq_ok.mp start.reads
  rw [tree_bind] at hread
  split at hread
  · obtain ⟨content, w₂, -, hload⟩ := bind_eq_ok.mp hread
    cases hcontent : sys.codec.loads content with
    | none =>
      rw [hcontent] at hload
      exact absurd hload throw_ne_ok
    | some state =>
      rw [hcontent] at hload
      rw [← (pure_eq_ok.mp hload).1]
      exact sys.codec.nodup_of_loads _ _ hcontent
  · rw [← (pure_eq_ok.mp hread).1]
    exact List.nodup_nil

theorem Start.nodup_restored (start : Start sys) : start.restored.keys.Nodup := by
  rw [keys_restore start.restores]
  exact start.nodup_read

/-- What a start reads it saves, turned. -/
theorem Start.turn_mem (start : Start sys) {e : Path × StateEntry} (he : e ∈ start.read) :
    (e.1, e.2.turn) ∈ start.saved := by
  refine (mem_backups start.nodup_restored start.backs).2.1 _ ?_
  rw [restored_eq start.restores]
  exact List.mem_map_of_mem he

/-- The entries that a start saves are backups, as they are or turned, if
those are that it reads. -/
theorem Start.entryOf (start : Start sys) (h : ∀ e ∈ start.read, EntryOf e.1 e.2) :
    ∀ e ∈ start.saved, EntryOf e.1 e.2 := by
  intro e he
  rcases (mem_backups start.nodup_restored start.backs).2.2 e he with hold | hnew
  · rw [restored_eq start.restores] at hold
    obtain ⟨e', he', rfl⟩ := List.mem_map.mp hold
    exact (h e' he').turn
  · exact hnew

theorem Life.entryOf {starts : List (Start sys)} {last : Start sys}
    (h : Life (starts ++ [last])) : ∀ e ∈ last.read, EntryOf e.1 e.2 := by
  induction starts using List.reverseRecOn generalizing last with
  | nil =>
    rw [h.first last rfl]
    exact List.forall_mem_nil _
  | append_singleton starts start ih =>
    have hread : last.read = start.saved :=
      (List.isChain_append.mp h.next).2.2 start (by simp) last (by simp)
    rw [hread]
    exact start.entryOf (ih h.init)

/-- An entry is turned by every start. -/
theorem turned {start last : Start sys} {post : List (Start sys)}
    (h : (start :: (post ++ [last])).IsChain Follows) {e : Path × StateEntry}
    (he : e ∈ start.saved) : (e.1, StateEntry.turn^[post.length] e.2) ∈ last.read := by
  induction post generalizing start e with
  | nil =>
    have hread : last.read = start.saved := (List.isChain_cons_cons.mp h).1
    rw [hread]
    exact he
  | cons start' post ih =>
    obtain ⟨hread, hrest⟩ := List.isChain_cons_cons.mp h
    have he' : e ∈ start'.read := by
      rw [hread]
      exact he
    exact ih hrest (start'.turn_mem he')

/-! ## One restore -/

/-- The places of the path and of its backup do not meet those of the
others, and both can be spelled. -/
structure Tidy (sys : System β) (state : State) : Prop where
  straight : ∀ k ∈ state.keys, Straight k
  named : ∀ k ∈ state.keys, IsName (Path.basename k)
  plain : ∀ k ∈ state.keys, hasMagic k = false
  outside : ∀ k ∈ state.keys, Apart (Path.abspath sys.cwd k) defaultsLoc
  not_state : ∀ k ∈ state.keys, ¬ ["state"] <+: Path.abspath sys.cwd k
  apart : ∀ k ∈ state.keys, ∀ k' ∈ state.keys, k ≠ k' →
    Apart (Path.abspath sys.cwd k) (Path.abspath sys.cwd k')

theorem endswithSep_of_named {k : Path} (h : IsName (Path.basename k)) :
    Path.endswithSep k = false := by
  rw [Path.endswithSep, Bool.and_eq_false_iff]
  exact Or.inr (decide_eq_false h.1)

theorem hasMagic_backup {k : Path} (habs : Path.isabs k = true) (h : hasMagic k = false) :
    hasMagic (kollaDefaults.concat k) = false := by
  obtain ⟨rest, -, rfl⟩ := exists_rest habs
  have hrest : hasMagic rest = false := by
    rw [hasMagic, List.any_cons, Bool.or_eq_false_iff] at h
    exact h.2
  change hasMagic (["", "etc", "kolla", "defaults"] ++ rest) = false
  rw [hasMagic, List.any_append, ← hasMagic, ← hasMagic, hrest, Bool.or_false]
  decide

theorem basename_backup {k : Path} (habs : Path.isabs k = true) :
    Path.basename (kollaDefaults.concat k) = Path.basename k := by
  obtain ⟨rest, hne, rfl⟩ := exists_rest habs
  obtain ⟨init, x, rfl⟩ := (List.eq_nil_or_concat' rest).resolve_left hne
  change (["", "etc", "kolla", "defaults"] ++ (init ++ [x])).getLastD ""
    = ("" :: (init ++ [x])).getLastD ""
  rw [← List.append_assoc, List.getLastD_concat, ← List.cons_append, List.getLastD_concat]

/-- What is at a named path, in a tree without links, exists. -/
theorem content_of_missing {k : Path} {t : FileTree β} (ht : t.LinkFree) (hstraight : Straight k)
    (hname : IsName (Path.basename k)) (h : sys.pathExists t k = false) :
    t.content (Path.abspath sys.cwd k) = none := by
  rw [FileTree.content_eq_none]
  cases hl : t.lookup (Path.abspath sys.cwd k) with
  | none => rfl
  | some n =>
    exfalso
    have hfound : ∃ L m, sys.find t true k = .found L m := by
      cases n with
      | dir a => exact ⟨_, _, resolve_of_dir hstraight.isabs hstraight.direct hl⟩
      | file c a => exact (resolve_file_iff hstraight.isabs hstraight.direct hl).mpr hname
      | link target => exact absurd hl (ht _ _)
    obtain ⟨L, m, hfind⟩ := hfound
    rw [System.pathExists, System.look_of_find hfind] at h
    cases h

theorem subtree_of_missing {t : FileTree β} {loc : Loc} (h : t.content loc = none) :
    t.subtree loc = fun _ => none := by
  funext rel
  by_cases hrel : rel = []
  · rw [hrel, FileTree.subtree_nil, h]
  · exact FileTree.content_below (by rw [h]; exact (Option.some_ne_none _).symm) hrel

theorem confined_removeConfig {k : Path} :
    Moves (OnTree (Confined (Path.abspath sys.cwd k))) (sys.removeConfig k) := by
  refine Moves.bind moves_tree fun t => Moves.ite (fun _ => ?_) fun _ => Moves.pure ()
  exact Moves.ite (fun _ => System.confined_remove (List.prefix_refl _)) fun _ =>
    System.confined_rmtree (List.prefix_refl _)

theorem removeConfig_gone {k : Path} {w w' : World β} (ht : w.tree.LinkFree)
    (hstraight : Straight k) (hname : IsName (Path.basename k))
    (h : sys.removeConfig k w = .ok () w') :
    w'.tree.content (Path.abspath sys.cwd k) = none := by
  rw [System.removeConfig, tree_bind] at h
  split at h
  · rw [FileTree.content_eq_none]
    split at h
    · exact System.remove_gone ht h
    · exact System.rmtree_gone ht h
  · rename_i hexists
    obtain ⟨-, rfl⟩ := pure_eq_ok.mp h
    exact content_of_missing ht hstraight hname (Bool.eq_false_iff.mpr hexists)

/-- What a restore puts at the source of an entry. -/
def StateEntry.restored (sys : System β) (t : FileTree β) (v : StateEntry) :
    Loc → Option (Kind × Option β) :=
  match v.dest with
  | none => fun _ => none
  | some dest => t.subtree (Path.abspath sys.cwd dest)

/-- A copy of one place to another one, as the state has them. -/
theorem copy_of_entry {source dest : Path} {w w' : World β} (ht : w.tree.LinkFree)
    (htarget : ConfigFile.target dest source = dest) (hmagic : hasMagic source = false)
    (hdest : Straight dest) (hapart : Apart (Path.abspath sys.cwd source) (Path.abspath sys.cwd dest))
    (h : (StateEntry.configFile ⟨source, some dest⟩).copy sys w = .ok () w') :
    Confined (Path.abspath sys.cwd dest) w.tree w'.tree ∧
      w'.tree.subtree (Path.abspath sys.cwd dest) = w.tree.subtree (Path.abspath sys.cwd source) := by
  constructor
  · refine Moves.of_ok_at (R := OnTree (Confined _)) ?_ h
    refine ConfigFile.confined_copy_at rfl fun pattern hsource source' hglob => ?_
    obtain rfl := Option.some.inj hsource
    rw [System.glob_of_not_magic sys hmagic hglob, htarget]
    exact ⟨hdest, List.prefix_refl _⟩
  · funext rel
    have hdest' : Straight (ConfigFile.target dest source) := by rwa [htarget]
    have hapart' : Apart (Path.abspath sys.cwd source)
        (Path.abspath sys.cwd (ConfigFile.target dest source)) := by rwa [htarget]
    have hreplica := ConfigFile.copy_replica rfl rfl rfl rfl rfl hdest' hapart'
      (System.glob_cases hmagic) ht h rel
    rwa [htarget] at hreplica

section Restore

variable {k : Path} {v : StateEntry} (hstraight : Straight k) (hname : IsName (Path.basename k))
  (hmagic : hasMagic k = false) (houtside : Apart (Path.abspath sys.cwd k) defaultsLoc)

include hstraight hname hmagic houtside

omit hname hmagic in
theorem apart_backup :
    Apart (Path.abspath sys.cwd k) (Path.abspath sys.cwd (kollaDefaults.concat k)) := by
  have happ := houtside.append [] (Path.abspath sys.cwd k)
  rwa [List.append_nil, ← abspath_backup hstraight sys.cwd] at happ

/-- The copy of a path to the place of its backup. -/
theorem copy_to_backup {w w' : World β} (ht : w.tree.LinkFree)
    (h : (StateEntry.configFile ⟨k, some (kollaDefaults.concat k)⟩).copy sys w = .ok () w') :
    Confined (Path.abspath sys.cwd (kollaDefaults.concat k)) w.tree w'.tree ∧
      w'.tree.subtree (Path.abspath sys.cwd (kollaDefaults.concat k))
        = w.tree.subtree (Path.abspath sys.cwd k) := by
  have hname' : IsName (Path.basename (kollaDefaults.concat k)) := by
    rwa [basename_backup hstraight.isabs]
  refine copy_of_entry ht ?_ hmagic (straight_backup hstraight) (apart_backup hstraight houtside) h
  rw [ConfigFile.target, endswithSep_of_named hname', if_neg Bool.false_ne_true]

/-- One iteration of the restore phase changes the place at the source of the
entry, and nothing else. -/
theorem restore_one {v' : StateEntry} {w w' : World β} (hentry : EntryOf k v)
    (ht : w.tree.LinkFree) (h : sys.removeOrRestore k v w = .ok v' w') :
    Confined (Path.abspath sys.cwd v.source) w.tree w'.tree ∧
      w'.tree.subtree (Path.abspath sys.cwd v.source) = v.restored sys w.tree := by
  obtain ⟨existed, hv⟩ := hentry
  cases existed with
  | false =>
    obtain rfl : v = recordedEntry k false := hv.elim id id
    obtain ⟨_, w₁, hremove, hpure⟩ := bind_eq_ok.mp h
    obtain ⟨-, rfl⟩ := pure_eq_ok.mp hpure
    refine ⟨confined_removeConfig.of_ok hremove, ?_⟩
    exact subtree_of_missing (removeConfig_gone ht hstraight hname hremove)
  | true =>
    rcases hv with rfl | rfl
    · obtain ⟨_, w₁, hcopy, hpure⟩ := bind_eq_ok.mp h
      obtain ⟨-, rfl⟩ := pure_eq_ok.mp hpure
      have htarget : ConfigFile.target k (kollaDefaults.concat k) = k := by
        rw [ConfigFile.target, endswithSep_of_named hname, if_neg Bool.false_ne_true]
      exact copy_of_entry ht htarget (hasMagic_backup hstraight.isabs hmagic) hstraight
        (apart_backup hstraight houtside).symm hcopy
    · obtain ⟨_, w₁, hcopy, hpure⟩ := bind_eq_ok.mp h
      obtain ⟨-, rfl⟩ := pure_eq_ok.mp hpure
      exact copy_to_backup hstraight hname hmagic houtside ht hcopy

end Restore

/-! ## All restores -/

theorem subtree_apart {top loc : Loc} {t t' : FileTree β} (h : Confined top t t') (ht : t.LinkFree)
    (hapart : Apart loc top) : t'.subtree loc = t.subtree loc :=
  funext fun rel => h.content_apart ht hapart rel

/-- One of the two places of a path. -/
def PlaceOf (sys : System β) (k : Path) (loc : Loc) : Prop :=
  loc = Path.abspath sys.cwd k ∨ loc = defaultsLoc ++ Path.abspath sys.cwd k

theorem EntryOf.source {k : Path} {v : StateEntry} (h : EntryOf k v) (hstraight : Straight k) :
    PlaceOf sys k (Path.abspath sys.cwd v.source) := by
  obtain ⟨existed, rfl | rfl⟩ := h
  · exact Or.inl rfl
  · cases existed with
    | false => exact Or.inl rfl
    | true => exact Or.inr (abspath_backup hstraight _)

theorem EntryOf.dest {k dest : Path} {v : StateEntry} (h : EntryOf k v) (hstraight : Straight k)
    (hdest : v.dest = some dest) : PlaceOf sys k (Path.abspath sys.cwd dest) := by
  obtain ⟨existed, rfl | rfl⟩ := h
  · cases existed with
    | false => cases hdest
    | true =>
      cases hdest
      exact Or.inr (abspath_backup hstraight _)
  · cases existed with
    | false => cases hdest
    | true =>
      cases hdest
      exact Or.inl rfl

namespace Tidy

variable {state : State} (htidy : Tidy sys state)

include htidy

theorem of_sub {state' : State} (hsub : state'.keys ⊆ state.keys) : Tidy sys state' where
  straight k hk := htidy.straight k (hsub hk)
  named k hk := htidy.named k (hsub hk)
  plain k hk := htidy.plain k (hsub hk)
  outside k hk := htidy.outside k (hsub hk)
  not_state k hk := htidy.not_state k (hsub hk)
  apart k hk k' hk' := htidy.apart k (hsub hk) k' (hsub hk')

theorem places_apart {k k' : Path} (hk : k ∈ state.keys) (hk' : k' ∈ state.keys) (hne : k ≠ k')
    {loc loc' : Loc} (hloc : PlaceOf sys k loc) (hloc' : PlaceOf sys k' loc') : Apart loc loc' := by
  have hapart := htidy.apart k hk k' hk' hne
  rcases hloc with rfl | rfl <;> rcases hloc' with rfl | rfl
  · exact hapart
  · have happ := (htidy.outside k hk).append [] (Path.abspath sys.cwd k')
    rwa [List.append_nil] at happ
  · have happ := (htidy.outside k' hk').symm.append (Path.abspath sys.cwd k) []
    rwa [List.append_nil] at happ
  · exact hapart.below defaultsLoc

/-- The restore phase: each entry has its place copied, and nothing else has
changed. -/
theorem restore_all {state' : State} {w w' : World β} (hnodup : state.keys.Nodup)
    (hentry : ∀ e ∈ state, EntryOf e.1 e.2) (ht : w.tree.LinkFree)
    (h : sys.removeOrRestoreConfigs state w = .ok state' w') :
    w'.tree.LinkFree ∧
      (∀ loc, (∀ e ∈ state, Apart loc (Path.abspath sys.cwd e.2.source)) →
        w'.tree.subtree loc = w.tree.subtree loc) ∧
      ∀ e ∈ state, w'.tree.subtree (Path.abspath sys.cwd e.2.source) = e.2.restored sys w.tree := by
  induction state generalizing state' w with
  | nil =>
    obtain ⟨-, rfl⟩ := pure_eq_ok.mp h
    exact ⟨ht, fun _ _ => rfl, List.forall_mem_nil _⟩
  | cons e state ih =>
    obtain ⟨k, v⟩ := e
    obtain ⟨v', w₁, hone, hrest⟩ := bind_eq_ok.mp h
    obtain ⟨rest, w₂, hall, hpure⟩ := bind_eq_ok.mp hrest
    obtain ⟨-, rfl⟩ := pure_eq_ok.mp hpure
    have hk : k ∈ Dict.keys ((k, v) :: state) := List.mem_cons_self
    have hstraight := htidy.straight k hk
    obtain ⟨hkv, hentries⟩ := List.forall_mem_cons.mp hentry
    obtain ⟨hfresh, hnodup'⟩ := List.nodup_cons.mp hnodup
    obtain ⟨hconfined, heffect⟩ := restore_one hstraight (htidy.named k hk) (htidy.plain k hk)
      (htidy.outside k hk) hkv ht hone
    obtain ⟨ht₂, hframe, heffects⟩ := ih (htidy.of_sub (List.subset_cons_self _ _)) hnodup' hentries
      (hconfined ht).1 hall
    -- the places of another entry are apart from those of this one
    have hother : ∀ e ∈ state, ∀ loc, PlaceOf sys e.1 loc →
        Apart loc (Path.abspath sys.cwd v.source) := by
      intro e he loc hloc
      have hmem : e.1 ∈ Dict.keys state := Dict.mem_keys_of_mem he
      refine htidy.places_apart (List.mem_cons_of_mem _ hmem) hk ?_ hloc (hkv.source hstraight)
      rintro rfl
      exact hfresh hmem
    have hstraights : ∀ e ∈ state, Straight e.1 := fun e he =>
      htidy.straight e.1 (List.mem_cons_of_mem _ (Dict.mem_keys_of_mem he))
    refine ⟨ht₂, fun loc hloc => ?_, List.forall_mem_cons.mpr ⟨?_, fun e he => ?_⟩⟩
    · obtain ⟨hthis, hrest⟩ := List.forall_mem_cons.mp hloc
      rw [hframe loc hrest, subtree_apart hconfined ht hthis]
    · rw [hframe _ fun e he => (hother e he _ ((hentries e he).source (hstraights e he))).symm]
      exact heffect
    · rw [heffects e he]
      cases hdest : e.2.dest with
      | none => rw [StateEntry.restored, StateEntry.restored, hdest]
      | some dest =>
        rw [StateEntry.restored, StateEntry.restored, hdest]
        exact subtree_apart hconfined ht (hother e he _ ((hentries e he).dest (hstraights e he) hdest))

end Tidy

/-! ## The backups of a later start -/

/-- The entry records the path as it is in the one tree, and the other tree
has its backup. -/
def RecordedIn (sys : System β) (t t' : FileTree β) (k : Path) (v : StateEntry) : Prop :=
  v = recordedEntry k (sys.pathExists t k) ∧
    (sys.pathExists t k = true → t'.subtree (defaultsLoc ++ Path.abspath sys.cwd k)
      = t.subtree (Path.abspath sys.cwd k))

section Backup

variable {saved : State} (htidy : Tidy sys saved)

include htidy

theorem backup_apart {k k' : Path} (hk : k ∈ saved.keys) (hk' : k' ∈ saved.keys) (hne : k ≠ k') :
    Apart (defaultsLoc ++ Path.abspath sys.cwd k) (defaultsLoc ++ Path.abspath sys.cwd k') :=
  (htidy.apart k hk k' hk' hne).below defaultsLoc

/-- The backup of one path. -/
theorem backup_one {src dst : Path} {state state' : State} {w w' : World β}
    (hkeys : state'.keys ⊆ saved.keys) (hnodup : state.keys.Nodup) (ht : w.tree.LinkFree)
    (h : sys.backupPath src dst state w = .ok state' w') :
    Confined defaultsLoc w.tree w'.tree ∧
      (∀ k ∈ state.keys, w'.tree.subtree (defaultsLoc ++ Path.abspath sys.cwd k)
        = w.tree.subtree (defaultsLoc ++ Path.abspath sys.cwd k)) ∧
      ∀ e ∈ state', e ∈ state ∨ RecordedIn sys w.tree w'.tree e.1 e.2 := by
  obtain ⟨rfl, rfl⟩ | ⟨hdst, rfl, hmissing, hcopy⟩ := backupPath_cases h
  · exact ⟨refl_of (Confined defaultsLoc) _, fun _ _ => rfl, fun e he => Or.inl he⟩
  · have hmem : dst ∈ saved.keys := hkeys (Dict.mem_keys_insert.mpr (Or.inl rfl))
    have hback := abspath_backup (htidy.straight dst hmem) sys.cwd
    cases hexists : sys.pathExists w.tree dst with
    | false =>
      obtain rfl := hmissing hexists
      refine ⟨refl_of (Confined defaultsLoc) _, fun _ _ => rfl, fun e he => ?_⟩
      rcases (Dict.mem_insert hnodup).mp he with rfl | ⟨hold, -⟩
      · refine Or.inr ⟨by rw [hexists], fun hthere => ?_⟩
        rw [hexists] at hthere
        cases hthere
      · exact Or.inl hold
    | true =>
      obtain ⟨hconfined, hcopied⟩ := copy_to_backup (htidy.straight dst hmem) (htidy.named dst hmem)
        (htidy.plain dst hmem) (htidy.outside dst hmem) ht (hcopy hexists)
      rw [hback] at hconfined hcopied
      refine ⟨hconfined.mono (List.prefix_append _ _), fun k hk => ?_, fun e he => ?_⟩
      · refine subtree_apart hconfined ht (backup_apart htidy ?_ hmem ?_)
        · exact hkeys (Dict.mem_keys_insert.mpr (Or.inr hk))
        · rintro rfl
          exact hdst hk
      · rcases (Dict.mem_insert hnodup).mp he with rfl | ⟨hold, -⟩
        · exact Or.inr ⟨by rw [hexists], fun _ => hcopied⟩
        · exact Or.inl hold

/-- The backup phase: it changes nothing outside of `KOLLA_DEFAULTS`, keeps
the backups that it finds, and what it records has one. -/
theorem backup_all {entries : List Entry} {state state' : State} {w w' : World β}
    (hkeys : state'.keys ⊆ saved.keys) (hnodup : state.keys.Nodup) (ht : w.tree.LinkFree)
    (h : entries.foldlM sys.backupConfig state w = .ok state' w') :
    Confined defaultsLoc w.tree w'.tree ∧
      (∀ k ∈ state.keys, w'.tree.subtree (defaultsLoc ++ Path.abspath sys.cwd k)
        = w.tree.subtree (defaultsLoc ++ Path.abspath sys.cwd k)) ∧
      ∀ e ∈ state', e ∈ state ∨ RecordedIn sys w.tree w'.tree e.1 e.2 := by
  induction entries generalizing state w with
  | nil =>
    rw [List.foldlM_nil] at h
    obtain ⟨rfl, rfl⟩ := pure_eq_ok.mp h
    exact ⟨refl_of (Confined defaultsLoc) _, fun _ _ => rfl, fun e he => Or.inl he⟩
  | cons data entries ih =>
    rw [List.foldlM_cons] at h
    obtain ⟨state₁, w₁, hdata, hrest⟩ := bind_eq_ok.mp h
    obtain ⟨-, hkeys₁, -⟩ := keys_backup hrest
    obtain ⟨dest, -, ⟨-, rfl, rfl⟩ | ⟨source, -, -, hpath⟩⟩ := System.backupConfig_cases hdata
    · exact ih hnodup ht hrest
    · obtain ⟨hnodup₁, hmem₁, -⟩ := mem_backupPath hnodup hpath
      obtain ⟨hconfined, hkept, hnew⟩ := backup_one htidy (fun k hk => hkeys (hkeys₁ hk)) hnodup
        ht hpath
      have ht₁ := (hconfined ht).1
      obtain ⟨hconfined', hkept', hnew'⟩ := ih hnodup₁ ht₁ hrest
      refine ⟨trans_of (Confined defaultsLoc) hconfined hconfined', fun k hk => ?_, fun e he => ?_⟩
      · obtain ⟨v, hv⟩ := Dict.exists_of_mem_keys hk
        rw [hkept' k (Dict.mem_keys_of_mem (hmem₁ _ hv)), hkept k hk]
      · rcases hnew' e he with hmem | ⟨hv, hbackup⟩
        · refine (hnew e hmem).imp_right fun hrecorded => ⟨hrecorded.1, fun hthere => ?_⟩
          rw [hkept' e.1 (Dict.mem_keys_of_mem hmem), hrecorded.2 hthere]
        · -- before this backup the path was what it is now
          have hk : e.1 ∈ saved.keys := hkeys (Dict.mem_keys_of_mem he)
          have hsame := subtree_apart hconfined ht (htidy.outside e.1 hk)
          have hexists : sys.pathExists w₁.tree e.1 = sys.pathExists w.tree e.1 := by
            refine System.pathExists_congr ht ht₁ ((htidy.straight e.1 hk).direct_from _) ?_
            rw [← FileTree.subtree_nil, ← FileTree.subtree_nil, hsame]
          rw [hexists] at hv hbackup
          exact Or.inr ⟨hv, fun hthere => (hbackup hthere).trans hsame⟩

end Backup

/-! ## The contents over a life -/

/-- The place of a backup is apart from the state file. -/
theorem apart_state {loc : Loc} (houtside : Apart loc defaultsLoc) (hstate : ¬ ["state"] <+: loc) :
    Apart (defaultsLoc ++ loc) (defaultsLoc ++ ["state"]) := by
  cases loc with
  | nil => exact absurd List.nil_prefix houtside.1
  | cons x loc =>
    refine Apart.below ⟨fun hpre => hstate ?_, hstate⟩ defaultsLoc
    obtain ⟨rfl, -⟩ := List.cons_prefix_cons.mp hpre
    exact ⟨loc, rfl⟩

/-- Nothing but the phases of the starts writes under `KOLLA_DEFAULTS`. -/
def KeepsBackups (start start' : Start sys) : Prop :=
  start'.opened.tree.subtree defaultsLoc = start.handled.tree.subtree defaultsLoc

theorem KeepsBackups.subtree {start start' : Start sys} (h : KeepsBackups start start') (loc : Loc) :
    start'.opened.tree.subtree (defaultsLoc ++ loc) = start.handled.tree.subtree (defaultsLoc ++ loc) := by
  funext rel
  have hrel := congrFun h (loc ++ rel)
  rwa [FileTree.subtree, FileTree.subtree, ← List.append_assoc] at hrel

namespace Start

variable (start : Start sys) {saved : State} (htidy : Tidy sys saved)
  (hkeys : start.saved.keys ⊆ saved.keys) (hentry : ∀ e ∈ start.read, EntryOf e.1 e.2)
  (ht : start.opened.tree.LinkFree)

include htidy hkeys hentry ht

theorem restore_spec :
    start.settled.tree.LinkFree ∧
      (∀ loc, (∀ e ∈ start.read, Apart loc (Path.abspath sys.cwd e.2.source)) →
        start.settled.tree.subtree loc = start.opened.tree.subtree loc) ∧
      ∀ e ∈ start.read, start.settled.tree.subtree (Path.abspath sys.cwd e.2.source)
        = e.2.restored sys start.opened.tree :=
  (htidy.of_sub fun _ hk => hkeys (start.keys_sub hk)).restore_all start.nodup_read hentry ht
    start.restores

/-- What is restored from stays as it is. -/
theorem restore_dest {k dest : Path} {v : StateEntry} (he : (k, v) ∈ start.read)
    (hdest : v.dest = some dest) (hapart : Apart (Path.abspath sys.cwd dest) (Path.abspath sys.cwd v.source)) :
    start.settled.tree.subtree (Path.abspath sys.cwd dest)
      = start.opened.tree.subtree (Path.abspath sys.cwd dest) := by
  have hmem : ∀ e ∈ start.read, e.1 ∈ saved.keys :=
    fun e he => hkeys (start.keys_sub (Dict.mem_keys_of_mem he))
  refine (start.restore_spec htidy hkeys hentry ht).2.1 _ fun e he' => ?_
  by_cases hk : e.1 = k
  · obtain ⟨k', v'⟩ := e
    obtain rfl : k' = k := hk
    have hsame := List.inj_on_of_nodup_map start.nodup_read he' he rfl
    rw [(Prod.mk.inj hsame).2]
    exact hapart
  · exact htidy.places_apart (hmem _ he) (hmem e he') (Ne.symm hk)
      ((hentry _ he).dest (htidy.straight k (hmem _ he)) hdest)
      ((hentry e he').source (htidy.straight _ (hmem e he')))

theorem backup_spec :
    (∀ k ∈ start.read.keys, start.handled.tree.subtree (defaultsLoc ++ Path.abspath sys.cwd k)
      = start.settled.tree.subtree (defaultsLoc ++ Path.abspath sys.cwd k)) ∧
      ∀ k ∈ start.recorded, ∃ v, (k, v) ∈ start.saved ∧
        RecordedIn sys start.settled.tree start.handled.tree k v := by
  have hsettled := (start.restore_spec htidy hkeys hentry ht).1
  obtain ⟨hconfined, hkept, hnew⟩ := backup_all htidy hkeys start.nodup_restored hsettled start.backs
  have hwrite : Confined (defaultsLoc ++ ["state"]) start.backed.tree start.handled.tree :=
    (@System.confined_writeFile _ sys _ kollaDefaultsState (List.prefix_refl _) _).of_ok start.saves
  have hsaves : ∀ k ∈ start.saved.keys,
      start.handled.tree.subtree (defaultsLoc ++ Path.abspath sys.cwd k)
        = start.backed.tree.subtree (defaultsLoc ++ Path.abspath sys.cwd k) := fun k hk =>
    subtree_apart hwrite (hconfined hsettled).1
      (apart_state (htidy.outside k (hkeys hk)) (htidy.not_state k (hkeys hk)))
  rw [keys_restore start.restores] at hkept
  refine ⟨fun k hk => (hsaves k (start.keys_sub hk)).trans (hkept k hk), fun k hk => ?_⟩
  obtain ⟨hsaved, hread⟩ := start.mem_recorded.mp hk
  obtain ⟨v, hv⟩ := Dict.exists_of_mem_keys hsaved
  refine ⟨v, hv, ?_⟩
  rcases hnew (k, v) hv with hold | hrecorded
  · rw [← keys_restore start.restores] at hread
    exact absurd (Dict.mem_keys_of_mem hold) hread
  · exact ⟨hrecorded.1, fun hthere => (hsaves k hsaved).trans (hrecorded.2 hthere)⟩

end Start

theorem Life.of_append {starts : List (Start sys)} {start : Start sys} {rest : List (Start sys)}
    (h : Life (starts ++ start :: rest)) : Life (starts ++ [start]) := by
  refine ⟨fun first hfirst => h.first first ?_, ?_⟩
  · cases starts with
    | nil => exact hfirst
    | cons first' starts => exact hfirst
  · have hchain := h.next
    rw [List.append_cons] at hchain
    exact (List.isChain_append.mp hchain).1

theorem Life.follows {starts rest : List (Start sys)} (h : Life (starts ++ rest)) :
    rest.IsChain Follows :=
  (List.isChain_append.mp h.next).2.1

/-- The saved keys only grow. -/
theorem keys_sub_last {start last : Start sys} {post : List (Start sys)}
    (h : (start :: (post ++ [last])).IsChain Follows) : start.saved.keys ⊆ last.saved.keys := by
  induction post generalizing start with
  | nil =>
    rw [← (List.isChain_cons_cons.mp h).1]
    exact last.keys_sub
  | cons start' post ih =>
    obtain ⟨hread, hrest⟩ := List.isChain_cons_cons.mp h
    rw [← hread]
    exact fun k hk => ih hrest (start'.keys_sub hk)

theorem turn_even {v : StateEntry} {n : ℕ} (h : Even n) : StateEntry.turn^[n] v = v := by
  rw [Function.Involutive.iterate_even StateEntry.turn_turn h]
  rfl

theorem turn_odd {v : StateEntry} {n : ℕ} (h : Odd n) : StateEntry.turn^[n] v = v.turn := by
  rw [Function.Involutive.iterate_odd StateEntry.turn_turn h]

section Alternation

variable {pre post : List (Start sys)} {start last : Start sys}
  (life : Life (pre ++ start :: (post ++ [last]))) (htidy : Tidy sys last.saved)
  (hlinks : ∀ s ∈ start :: (post ++ [last]), s.opened.tree.LinkFree) {k : Path}
  (hk : k ∈ start.recorded)

include life htidy hlinks hk

/-- The entry of a recorded path at a later start. -/
theorem entry_at_last :
    (k, StateEntry.turn^[post.length] (recordedEntry k (sys.pathExists start.settled.tree k)))
        ∈ last.read ∧
      RecordedIn sys start.settled.tree start.handled.tree k
        (recordedEntry k (sys.pathExists start.settled.tree k)) := by
  have hkeys := keys_sub_last life.follows
  obtain ⟨v, hv, hrecorded⟩ := (start.backup_spec htidy hkeys life.of_append.entryOf
    (hlinks start List.mem_cons_self)).2 k hk
  rw [← hrecorded.1]
  exact ⟨turned life.follows hv, hrecorded⟩

/-- Every other restore goes from the backup to the path. -/
theorem restored_even (hexisted : sys.pathExists start.settled.tree k = true)
    (heven : Even post.length) :
    last.settled.tree.subtree (Path.abspath sys.cwd k)
      = last.opened.tree.subtree (defaultsLoc ++ Path.abspath sys.cwd k) := by
  have hentries : Life ((pre ++ start :: post) ++ [last]) := by simpa using life
  obtain ⟨hmem, -⟩ := entry_at_last life htidy hlinks hk
  rw [turn_even heven, hexisted] at hmem
  have hrestored := (last.restore_spec htidy (List.Subset.refl _) hentries.entryOf
    (hlinks last (by simp))).2.2 _ hmem
  have hstraight := htidy.straight k (last.keys_sub (Dict.mem_keys_of_mem hmem))
  rw [← abspath_backup hstraight]
  exact hrestored

/-- The others go from the path to the backup, and leave the path alone. -/
theorem restored_odd (hexisted : sys.pathExists start.settled.tree k = true)
    (hodd : Odd post.length) :
    last.settled.tree.subtree (Path.abspath sys.cwd k)
        = last.opened.tree.subtree (Path.abspath sys.cwd k) ∧
      last.settled.tree.subtree (defaultsLoc ++ Path.abspath sys.cwd k)
        = last.opened.tree.subtree (Path.abspath sys.cwd k) := by
  have hentries : Life ((pre ++ start :: post) ++ [last]) := by simpa using life
  obtain ⟨hmem, -⟩ := entry_at_last life htidy hlinks hk
  rw [turn_odd hodd, hexisted] at hmem
  have hlast := hlinks last (by simp)
  have hsaved := last.keys_sub (Dict.mem_keys_of_mem hmem)
  have hstraight := htidy.straight k hsaved
  have hrestored := (last.restore_spec htidy (List.Subset.refl _) hentries.entryOf hlast).2.2 _ hmem
  refine ⟨?_, ?_⟩
  · exact last.restore_dest htidy (List.Subset.refl _) hentries.entryOf hlast hmem rfl
      (apart_backup hstraight (htidy.outside k hsaved))
  · rw [← abspath_backup hstraight]
    exact hrestored

end Alternation

theorem linkFree_of_nodes {t : FileTree β} (h : ∀ e ∈ t.nodes, e.2.isLink = false) : t.LinkFree := by
  intro loc target hl
  cases h _ (FileTree.lookup_eq_some_iff.mp hl)

/-- What stands below a location is what the nodes there say. -/
theorem subtree_of_nodes {t t' : FileTree β} {loc : Loc}
    (h : (t.nodes.filter fun e => loc.isPrefixOf e.1) = t'.nodes.filter fun e => loc.isPrefixOf e.1) :
    t.subtree loc = t'.subtree loc := by
  have hfilter : ∀ (nodes : List (Loc × Node β)) (rel : Loc),
      nodes.lookup (loc ++ rel) = (nodes.filter fun e => loc.isPrefixOf e.1).lookup (loc ++ rel) := by
    intro nodes rel
    induction nodes with
    | nil => rfl
    | cons e nodes ih =>
      obtain ⟨l, n⟩ := e
      by_cases hl : loc ++ rel = l
      · subst hl
        simp
      · have hbeq : (loc ++ rel == l) = false := beq_false_of_ne hl
        rw [List.lookup_cons, hbeq, List.filter_cons]
        by_cases hpre : loc.isPrefixOf l = true
        · rw [if_pos hpre, List.lookup_cons, hbeq]
          exact ih
        · rw [if_neg hpre]
          exact ih
  funext rel
  rw [FileTree.subtree, FileTree.subtree, FileTree.content, FileTree.content, FileTree.lookup,
    FileTree.lookup, hfilter t.nodes, h, ← hfilter t'.nodes]

def oldTree : FileTree Content where
  nodes :=
    [([], rootDir), (["src"], rootFile "new"), (["etc"], rootDir),
      (["etc", "app.conf"], rootFile "old")]
  nodup := by decide
  root := by decide
  closed := by decide
  proper := by decide

def firstStart : Start rootSystem :=
  (Start.run rootSystem appConfig ⟨oldTree, []⟩).get (by decide +kernel)

def secondStart : Start rootSystem :=
  (Start.run rootSystem appConfig firstStart.after).get (by decide +kernel)

def thirdStart : Start rootSystem :=
  (Start.run rootSystem appConfig secondStart.after).get (by decide +kernel)

end Kolla.SetConfigs
