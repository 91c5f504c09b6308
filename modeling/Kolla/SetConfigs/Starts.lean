import Kolla.SetConfigs.Operations
import Mathlib.Data.List.Chain

/-!
# A container that is started again and again

`Start` is one start under `COPY_ALWAYS` that went through, with the states
that its phases hand on and the worlds between them.  A `Life` is a list of
such starts in which each one reads the state that the one before it saved;
what else happens to the file system between two starts is left open.

The keys of the state are what carries over.  No phase drops one
(`keys_restore`, `keys_backup`), so the state that a start reads has every
path that an earlier start recorded (`mem_keys_read`), and what a start
records is the path of an entry of its configuration
(`path_of_recorded`).
-/

namespace Kolla.SetConfigs

open Kolla.Lib

variable {β : Type}

/-- A start under `COPY_ALWAYS` that went through, by its phases. -/
structure Start (sys : System β) where
  config : Config
  before : World β
  read : State
  opened : World β
  reads : sys.getDefaultsState before = .ok read opened
  restored : State
  settled : World β
  restores : sys.removeOrRestoreConfigs read opened = .ok restored settled
  saved : State
  backed : World β
  backs : sys.backupConfigs config restored settled = .ok saved backed
  handled : World β
  saves : sys.setDefaultsState saved backed = .ok () handled
  copied : World β
  copies : sys.copyConfig config handled = .ok () copied
  after : World β
  permits : sys.handlePermissions (config.permissions.getD []) copied = .ok () after

variable {sys : System β}

/-- The start from a given world, if it goes through. -/
def Start.run (sys : System β) (config : Config) (before : World β) : Option (Start sys) :=
  match reads : sys.getDefaultsState before with
  | .error _ _ => none
  | .ok read opened =>
    match restores : sys.removeOrRestoreConfigs read opened with
    | .error _ _ => none
    | .ok restored settled =>
      match backs : sys.backupConfigs config restored settled with
      | .error _ _ => none
      | .ok saved backed =>
        match saves : sys.setDefaultsState saved backed with
        | .error _ _ => none
        | .ok _ handled =>
          match copies : sys.copyConfig config handled with
          | .error _ _ => none
          | .ok _ copied =>
            match permits : sys.handlePermissions (config.permissions.getD []) copied with
            | .error _ _ => none
            | .ok _ after =>
              some ⟨config, before, read, opened, reads, restored, settled, restores, saved, backed,
                backs, handled, saves, copied, copies, after, permits⟩

/-- The paths that the start recorded. -/
def Start.recorded (start : Start sys) : List Path :=
  start.saved.keys.filter fun path => !start.read.keys.contains path

/-- The starts of one container, from its first one on. -/
structure Life (starts : List (Start sys)) : Prop where
  first : ∀ start ∈ starts.head?, start.read = []
  next : starts.IsChain fun start start' => start'.read = start.saved

/-! ## The recorded paths -/

theorem keys_restore {state state' : State} {w w' : World β}
    (h : sys.removeOrRestoreConfigs state w = .ok state' w') : state'.keys = state.keys := by
  induction state generalizing state' w w' with
  | nil => rw [← (pure_eq_ok.mp h).1]
  | cons e state ih =>
    obtain ⟨k, v⟩ := e
    obtain ⟨v', w₁, -, h⟩ := bind_eq_ok.mp h
    obtain ⟨rest, w₂, hrest, h⟩ := bind_eq_ok.mp h
    obtain ⟨rfl, -⟩ := pure_eq_ok.mp h
    rw [Dict.keys_cons, Dict.keys_cons, ih hrest]

/-- The keys after a path was handed to the backup: those before, and the
path if it was recorded. -/
theorem keys_backupPath {src dst : Path} {state state' : State} {w w' : World β}
    (h : sys.backupPath src dst state w = .ok state' w') (k : Path) :
    k ∈ state'.keys ↔ k ∈ state.keys ∨ k = dst ∧ sys.pathExists w.tree src = true := by
  have hinsert : ∀ v : StateEntry, k ∈ (state.insert dst v).keys ↔ k ∈ state.keys ∨ k = dst := by
    intro v
    rw [Dict.mem_keys_insert]
    exact Or.comm
  have hold : dst ∈ state.keys → (k ∈ state.keys ↔ k ∈ state.keys ∨ k = dst) := by
    intro hdst
    exact ⟨Or.inl, fun h => h.elim id fun h => h ▸ hdst⟩
  rw [System.backupPath, tree_bind] at h
  split at h
  · rename_i hsrc
    rw [hsrc]
    simp only [and_true]
    split at h
    · split at h
      · rename_i hdst
        obtain ⟨rfl, -⟩ := pure_eq_ok.mp h
        exact hold hdst
      · obtain ⟨_, w₁, -, h⟩ := bind_eq_ok.mp h
        obtain ⟨rfl, -⟩ := pure_eq_ok.mp h
        exact hinsert _
    · split at h
      · rename_i hdst
        obtain ⟨rfl, -⟩ := pure_eq_ok.mp h
        exact hold hdst
      · obtain ⟨rfl, -⟩ := pure_eq_ok.mp h
        exact hinsert _
  · rename_i hsrc
    obtain ⟨rfl, -⟩ := pure_eq_ok.mp h
    simp [hsrc]

/-- The path that an entry names, where it names one. -/
def Entry.path (data : Entry) : Option Path :=
  match data.dest.get, data.source.get with
  | some dest, some source => some (System.recordedPath dest source)
  | _, _ => none

/-- What `backup_configs` does to the keys for one entry.  An entry that it
passes names a destination. -/
theorem keys_backupConfig {data : Entry} {state state' : State} {w w' : World β}
    (h : sys.backupConfig state data w = .ok state' w') :
    data.dest.get ≠ none ∧ state.keys ⊆ state'.keys ∧
      ∀ k ∈ state'.keys, k ∈ state.keys ∨ data.path = some k := by
  obtain ⟨dest, hdest, ⟨-, rfl, -⟩ | ⟨source, hsource, -, hpath⟩⟩ := System.backupConfig_cases h
  · exact ⟨by simp [hdest], fun k hk => hk, fun k hk => Or.inl hk⟩
  · have hkeys := keys_backupPath hpath
    refine ⟨by simp [hdest], fun k hk => (hkeys k).mpr (Or.inl hk), fun k hk => ?_⟩
    rcases (hkeys k).mp hk with hold | ⟨rfl, -⟩
    · exact Or.inl hold
    · exact Or.inr (by rw [Entry.path, hdest, hsource])

theorem keys_backup {entries : List Entry} {state state' : State} {w w' : World β}
    (h : entries.foldlM sys.backupConfig state w = .ok state' w') :
    (∀ data ∈ entries, data.dest.get ≠ none) ∧ state.keys ⊆ state'.keys ∧
      ∀ k ∈ state'.keys, k ∈ state.keys ∨ ∃ data ∈ entries, data.path = some k := by
  induction entries generalizing state w with
  | nil =>
    rw [List.foldlM_nil] at h
    obtain ⟨rfl, -⟩ := pure_eq_ok.mp h
    exact ⟨List.forall_mem_nil _, fun k hk => hk, fun k hk => Or.inl hk⟩
  | cons data entries ih =>
    rw [List.foldlM_cons] at h
    obtain ⟨state₁, w₁, hdata, h⟩ := bind_eq_ok.mp h
    obtain ⟨hdest, hmono, hnew⟩ := keys_backupConfig hdata
    obtain ⟨hdests, hmono', hnew'⟩ := ih h
    refine ⟨List.forall_mem_cons.mpr ⟨hdest, hdests⟩, fun k hk => hmono' (hmono hk),
      fun k hk => ?_⟩
    rcases hnew' k hk with hold | ⟨data', hmem, hpath⟩
    · rcases hnew k hold with hold | hpath
      · exact Or.inl hold
      · exact Or.inr ⟨data, List.mem_cons_self, hpath⟩
    · exact Or.inr ⟨data', List.mem_cons_of_mem _ hmem, hpath⟩

/-- An entry that was copied has a source. -/
theorem source_of_copied {entries : List Entry} {w w' : World β}
    (h : (entries.forM fun data => do
      let configFile ← data.configFile
      configFile.copy sys : Os β Unit) w = .ok () w') :
    ∀ data ∈ entries, data.source.get ≠ none := by
  induction entries generalizing w with
  | nil => exact List.forall_mem_nil _
  | cons data entries ih =>
    obtain ⟨w₁, hdata, h⟩ := forM_cons_eq_ok.mp h
    refine List.forall_mem_cons.mpr ⟨fun hnone => ?_, ih h⟩
    obtain ⟨configFile, w₂, hfile, hcopy⟩ := bind_eq_ok.mp hdata
    rw [Entry.configFile] at hfile
    split at hfile
    · exact absurd hfile throw_ne_ok
    · obtain ⟨rfl, -⟩ := pure_eq_ok.mp hfile
      rw [ConfigFile.copy] at hcopy
      simp only [hnone] at hcopy
      exact absurd hcopy throw_ne_ok

namespace Start

variable (start : Start sys)

theorem keys_sub : start.read.keys ⊆ start.saved.keys := by
  rw [← keys_restore start.restores]
  exact (keys_backup start.backs).2.1

/-- The entries of a start that went through name a destination and a
source. -/
theorem path_isSome : ∀ data ∈ start.config.files, data.path.isSome = true := by
  intro data hdata
  obtain ⟨_, w₁, hcopies, -⟩ := bind_eq_ok.mp start.copies
  have hdest := (keys_backup start.backs).1 data hdata
  have hsource := source_of_copied hcopies data hdata
  rw [Entry.path]
  cases hd : data.dest.get with
  | none => exact absurd hd hdest
  | some dest =>
    cases hs : data.source.get with
    | none => exact absurd hs hsource
    | some source => rfl

theorem mem_recorded {k : Path} :
    k ∈ start.recorded ↔ k ∈ start.saved.keys ∧ k ∉ start.read.keys := by
  rw [recorded, List.mem_filter, Bool.not_eq_true', ← Bool.not_eq_true, List.contains_iff_mem]

/-- A recorded path is the one of an entry. -/
theorem path_of_recorded {k : Path} (hk : k ∈ start.recorded) :
    ∃ data ∈ start.config.files, data.path = some k := by
  obtain ⟨hsaved, hread⟩ := start.mem_recorded.mp hk
  rw [← keys_restore start.restores] at hread
  exact ((keys_backup start.backs).2.2 k hsaved).resolve_left hread

end Start

theorem Life.init {starts : List (Start sys)} {last : Start sys} (h : Life (starts ++ [last])) :
    Life starts := by
  refine ⟨fun start hstart => h.first start ?_, (List.isChain_append.mp h.next).1⟩
  cases starts with
  | nil => cases hstart
  | cons first starts => exact hstart

/-- The state that a start reads has the paths that the starts before it
recorded, and no other ones. -/
theorem Life.mem_keys_read {starts : List (Start sys)} {last : Start sys}
    (h : Life (starts ++ [last])) (k : Path) :
    k ∈ last.read.keys ↔ ∃ start ∈ starts, k ∈ start.recorded := by
  induction starts using List.reverseRecOn generalizing last with
  | nil =>
    rw [h.first last rfl]
    simp
  | append_singleton starts start ih =>
    have hread : last.read = start.saved :=
      (List.isChain_append.mp h.next).2.2 start (by simp) last (by simp)
    have hstart := ih h.init
    rw [hread]
    constructor
    · intro hk
      by_cases hold : k ∈ start.read.keys
      · obtain ⟨start', hmem, hk'⟩ := hstart.mp hold
        exact ⟨start', List.mem_append_left _ hmem, hk'⟩
      · exact ⟨start, by simp, start.mem_recorded.mpr ⟨hk, hold⟩⟩
    · rintro ⟨start', hmem, hk⟩
      rcases List.mem_append.mp hmem with hmem | hmem
      · exact start.keys_sub (hstart.mpr ⟨start', hmem, hk⟩)
      · rw [List.mem_singleton.mp hmem] at hk
        exact (start.mem_recorded.mp hk).1

end Kolla.SetConfigs
