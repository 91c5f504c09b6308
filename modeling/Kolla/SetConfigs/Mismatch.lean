import Kolla.SetConfigs.Shapes
import Kolla.SetConfigs.Starts

/-!
# The state against the configuration

`execute_config_check` wants every path of the defaults state among the
destinations of the configuration.  No start drops a path from the state,
so the check after a start complains about every path that an earlier start
recorded and that is no destination any more (`no_mismatch_iff`), whether
the restore phase has dealt with it or not.  `dropped_mismatch` is the
shortest such run.

The two functions that compute the names of the destinations agree
(`recordedPath_eq`, `currentDests_eq`), but for the empty one.
-/

namespace Kolla.SetConfigs

open Kolla.Lib

variable {β : Type} {sys : System β}

/-! ## The names of the destinations -/

theorem concat_slash {init : Path} (hinit : init ≠ []) (x : String) :
    Lib.Path.concat (init ++ [""]) [x] = init ++ [x] := by
  induction init with
  | nil => exact absurd rfl hinit
  | cons y init ih =>
    cases init with
    | nil =>
      simp [Lib.Path.concat]
    | cons z init =>
      have h := ih (List.cons_ne_nil _ _)
      rw [List.cons_append, List.cons_append] at h ⊢
      change y :: Lib.Path.concat (z :: (init ++ [""])) [x] = y :: z :: (init ++ [x])
      rw [h]

/-- The path that the backup records is the one that the check computes. -/
theorem recordedPath_eq {dest : Path} (hdest : Path.endswithSep dest = true) (source : Path) :
    System.recordedPath dest source = Path.join dest [Path.basename source] := by
  obtain ⟨hlength, hlast⟩ : 2 ≤ dest.length ∧ dest.getLastD "" = "" := by
    simpa [Path.endswithSep] using hdest
  rw [System.recordedPath, if_pos hdest, Path.join_name, if_pos hlast, Path.basename]
  rcases List.eq_nil_or_concat' dest with rfl | ⟨init, x, rfl⟩
  · simp at hlength
  · obtain rfl : x = "" := by simpa using hlast
    have hinit : init ≠ [] := by
      rintro rfl
      simp at hlength
    rw [List.dropLast_concat, concat_slash hinit]

/-- Only an empty `dest` gives an empty path. -/
theorem recordedPath_empty {dest source : Path} (h : System.recordedPath dest source = [""]) :
    dest = [""] := by
  by_cases hdest : Path.endswithSep dest = true
  · rw [recordedPath_eq hdest, Path.join_name] at h
    obtain ⟨hlength, hlast⟩ : 2 ≤ dest.length ∧ dest.getLastD "" = "" := by
      simpa [Path.endswithSep] using hdest
    rw [if_pos hlast] at h
    have hlen := congrArg List.length h
    rw [List.length_append, List.length_dropLast, List.length_singleton, List.length_singleton]
      at hlen
    omega
  · rwa [System.recordedPath, if_neg hdest] at h

/-- The path under which the check knows an entry. -/
def Entry.tracked (data : Entry) : Option Path :=
  if data.dest.get = some [""] then none else data.path

theorem currentDests_eq {entries : List Entry} (h : ∀ data ∈ entries, data.path.isSome = true) :
    (System.currentDests entries : Os β (List Path)) = pure (entries.filterMap Entry.tracked) := by
  have hdest : ∀ data : Entry, data.path.isSome = true →
      (System.currentDest data : Os β (Option Path)) = pure data.tracked := by
    intro data hpath
    rw [Entry.path] at hpath
    rw [System.currentDest, Entry.tracked, Entry.path]
    cases hd : data.dest.get with
    | none =>
      rw [hd] at hpath
      cases hpath
    | some dest =>
      cases hs : data.source.get with
      | none =>
        rw [hd, hs] at hpath
        cases hpath
      | some source =>
        by_cases hempty : dest = [""]
        · simp [hempty]
        · by_cases hslash : Path.endswithSep dest = true
          · simp [hempty, hslash, recordedPath_eq, System.item_of_get hs]
          · simp [hempty, hslash, System.recordedPath]
  induction entries with
  | nil => rfl
  | cons data entries ih =>
    obtain ⟨hdata, hentries⟩ := List.forall_mem_cons.mp h
    rw [System.currentDests, hdest data hdata, ih hentries, pure_bind, pure_bind,
      List.filterMap_cons]
    cases data.tracked <;> rfl

/-- The destinations that the check of a configuration computes. -/
def Config.tracked (config : Config) : List Path := config.files.filterMap Entry.tracked

theorem tracked_ne_empty {config : Config} : [""] ∉ config.tracked := by
  intro hmem
  obtain ⟨data, -, hdata⟩ := List.mem_filterMap.mp hmem
  rw [Entry.tracked] at hdata
  split at hdata
  · cases hdata
  · rename_i hdest
    rw [Entry.path] at hdata
    split at hdata
    · rename_i dest source hd hs
      exact hdest (by rw [hd, recordedPath_empty (Option.some.inj hdata)])
    · cases hdata

/-- A start's own paths are known to its check, the empty one apart. -/
theorem Start.tracked_of_recorded (start : Start sys) {k : Path} (hk : k ∈ start.recorded)
    (hne : k ≠ [""]) : k ∈ start.config.tracked := by
  obtain ⟨data, hmem, hpath⟩ := start.path_of_recorded hk
  refine List.mem_filterMap.mpr ⟨data, hmem, ?_⟩
  rw [Entry.tracked, if_neg]
  · exact hpath
  · intro hdest
    rw [Entry.path, hdest] at hpath
    split at hpath
    · rename_i dest source hd hs
      obtain rfl := Option.some.inj hd
      exact hne (Option.some.inj hpath).symm
    · cases hpath

/-! ## The check -/

/-- Any exception but `StateMismatch`. -/
def NoMismatch (e : PyExn) : Prop := ∀ removedDests, e ≠ .stateMismatch removedDests

theorem noMismatch_of_ordinary (e : PyExn) (he : e.Ordinary) : NoMismatch e := by
  rintro removedDests rfl
  exact he

theorem raises_checks [DecidableEq β] (entries : List Entry) :
    Raises NoMismatch (entries.forM fun data => do
      let configFile ← data.configFile
      configFile.check sys) := by
  refine Raises.forM fun data _ => Raises.bind ?_ fun configFile => ?_
  · exact Raises.ite (fun _ => Raises.throw nofun) fun _ => Raises.pure _
  · exact ConfigFile.raises_check noMismatch_of_ordinary (fun _ => nofun) (fun _ => nofun)
      fun _ => nofun

/-- With a known state, the check raises `StateMismatch` where a path of the
state is no destination. -/
theorem executeConfigCheck_iff [DecidableEq β] {config : Config} {state : State} {w w₁ : World β}
    (hread : sys.getDefaultsState w = .ok state w₁)
    (hpaths : ∀ data ∈ config.files, data.path.isSome = true) :
    (∀ e w', sys.executeConfigCheck config w = .error e w' → NoMismatch e) ↔
      ∀ k ∈ state.keys, k ∈ config.tracked := by
  rw [System.executeConfigCheck, bind_of_ok hread, currentDests_eq hpaths, pure_bind]
  constructor
  · intro h k hk
    by_contra hmissing
    have hremoved : state.keys.filter (· ∉ config.tracked) ≠ [] :=
      List.ne_nil_of_mem (List.mem_filter.mpr ⟨hk, decide_eq_true hmissing⟩)
    rw [Config.tracked] at hremoved
    rw [if_pos hremoved] at h
    exact h _ _ rfl _ rfl
  · intro h e w' herror
    have hremoved : state.keys.filter (· ∉ config.tracked) = [] :=
      List.filter_eq_nil_iff.mpr fun k hk hmissing => of_decide_eq_true hmissing (h k hk)
    rw [Config.tracked] at hremoved
    rw [if_neg (not_not_intro hremoved)] at herror
    exact raises_checks config.files _ _ _ herror

/-- After any number of starts, the check of the last configuration does not
raise `StateMismatch` if and only if every path that an earlier start
recorded is one of its destinations, and the last start recorded no empty
path.  The state that the check reads is the one that the last start
saved. -/
theorem no_mismatch_iff [DecidableEq β] {starts : List (Start sys)} {last : Start sys}
    (hlife : Life (starts ++ [last])) {w : World β}
    (hread : sys.getDefaultsState last.after = .ok last.saved w) :
    (∀ e w', sys.executeConfigCheck last.config last.after = .error e w' → NoMismatch e) ↔
      (∀ start ∈ starts, ∀ k ∈ start.recorded, k ∈ last.config.tracked) ∧
        [""] ∉ last.recorded := by
  rw [executeConfigCheck_iff hread last.path_isSome]
  constructor
  · intro h
    refine ⟨fun start hstart k hk => ?_, fun hempty => ?_⟩
    · exact h k (last.keys_sub ((hlife.mem_keys_read k).mpr ⟨start, hstart, hk⟩))
    · exact tracked_ne_empty (h _ (last.mem_recorded.mp hempty).1)
  · rintro ⟨hstill, hempty⟩ k hk
    by_cases hold : k ∈ last.read.keys
    · obtain ⟨start, hstart, hrecorded⟩ := (hlife.mem_keys_read k).mp hold
      exact hstill start hstart k hrecorded
    · have hrecorded := last.mem_recorded.mpr ⟨hk, hold⟩
      refine last.tracked_of_recorded hrecorded ?_
      rintro rfl
      exact hempty hrecorded

/-! ## A path that is dropped -/

/-- A configuration without files. -/
def filelessConfig : Config := { appConfig with configFiles := none }

def appStart : Start rootSystem :=
  (Start.run rootSystem appConfig ⟨lateTree, []⟩).get (by decide +kernel)

/-- The next start with the same configuration. -/
def sameStart : Start rootSystem :=
  (Start.run rootSystem appConfig appStart.after).get (by decide +kernel)

/-- The next start with the entry taken out of the configuration. -/
def filelessStart : Start rootSystem :=
  (Start.run rootSystem filelessConfig appStart.after).get (by decide +kernel)

/-- `no_mismatch_iff` where the configuration stays. -/
theorem no_mismatch_same :
    sameStart.before = appStart.after ∧ ∀ e w',
      rootSystem.executeConfigCheck sameStart.config sameStart.after = .error e w' →
        NoMismatch e := by
  have hlife : Life ([appStart] ++ [sameStart]) := by
    refine ⟨fun start hstart => ?_, List.isChain_pair.mpr (by decide +kernel)⟩
    obtain rfl : appStart = start := by simpa using hstart
    decide +kernel
  have hread : answer (rootSystem.getDefaultsState sameStart.after) = some sameStart.saved := by
    decide +kernel
  refine ⟨rfl, (no_mismatch_iff hlife (eq_ok_of_answer hread)).mpr ⟨fun start hstart => ?_, ?_⟩⟩
  · rw [List.mem_singleton.mp hstart]
    decide +kernel
  · decide +kernel

/-- The second start removes the destination that has left the
configuration, and its check complains about it nevertheless. -/
theorem dropped_mismatch :
    Life [appStart, filelessStart] ∧ filelessStart.before = appStart.after ∧
      filelessStart.settled.tree.lookup ["etc", "app.conf"] = none ∧
      ∃ w, rootSystem.executeConfigCheck filelessStart.config filelessStart.after
        = .error (.stateMismatch [["", "etc", "app.conf"]]) w := by
  refine ⟨⟨fun start hstart => ?_, List.isChain_pair.mpr (by decide +kernel)⟩, rfl, ?_, _,
    eq_error_of_raised ?_⟩
  · obtain rfl : appStart = start := by simpa using hstart
    decide +kernel
  · decide +kernel
  · decide +kernel

end Kolla.SetConfigs
