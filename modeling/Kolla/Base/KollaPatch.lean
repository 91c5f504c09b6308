import Kolla.Lib.Masking
import Mathlib.Data.List.Infix

/-!
# The patches of an image

`kollaPatch` is the script that runs once in every image layer that brings a
`/patches/series`.  It puts the series of the earlier layers in front of the
new one, and applies each patch whose name it does not find in
`/etc/kolla/patched`, a file with one line for every applied patch.

The name is looked for anywhere in these lines, so a name that is part of
the line of an earlier patch counts as applied.  `patches_applied_iff` shows
that nothing else goes wrong: over any chain of layers the patches that are
applied and recorded are the distinct names in order of first appearance
exactly if no name is part of the line of another one before it.
-/

namespace Kolla.Base

open Kolla.Lib

/-- A line of a text file. -/
abbrev Line := List Char

/-- The files the script reads and writes, and the patches that `patch` was
called on. -/
structure PatchFs where
  series : Option (List Line)
  seriesApplied : Option (List Line)
  patched : Option (List Line)
  calls : List Line
deriving DecidableEq

/-! ## The script -/

/-- `grep -v '^#'` keeps the line. -/
def notComment (line : Line) : Bool := line.head? ≠ some '#'

/-- The blanks that separate words. -/
def isBlank (c : Char) : Bool := c = ' ' ∨ c = '\t' ∨ c = '\n'

/-- The words of a line. -/
def words (line : Line) : List Line := (line.splitOnP isBlank).filter (· ≠ [])

def logLine (patchfile : Line) : Line := "[i] Applied /patches/".toList ++ patchfile

/-- `patchfile` is part of `line`. -/
def occursIn (patchfile line : Line) : Bool := patchfile <:+: line

/-- `grep -q "$patchfile" /etc/kolla/patched`. -/
def isPatched (patched : List Line) (patchfile : Line) : Bool := patched.any (occursIn patchfile)

/-- The body of the loop, with the exit status of `patch` given by `patch`. -/
def applyPatch (patch : Line → Bool) (fs : PatchFs) (patchfile : Line) : Option PatchFs :=
  let patched := fs.patched.getD []
  if isPatched patched patchfile then some fs
  else if patch patchfile then
    some { fs with
      patched := some (patched ++ [logLine patchfile])
      calls := fs.calls ++ [patchfile] }
  else none

/-- The series with the one of the earlier layers in front. -/
def mergeSeries (seriesApplied : Option (List Line)) (series : List Line) : List Line :=
  match seriesApplied with
  | some seriesApplied => seriesApplied.filter notComment ++ series.filter notComment
  | none => series

/-- `kolla_patch`.  `expand` is the shell's pathname expansion of an unquoted
word, and `none` is the exit with status 1. -/
def kollaPatch (expand : Line → List Line) (patch : Line → Bool) (fs : PatchFs) :
    Option PatchFs :=
  match fs.series with
  | none => some fs
  | some series => do
    let series := mergeSeries fs.seriesApplied series
    let patchfiles := (series.filter notComment).flatMap words |>.flatMap expand
    let fs ← patchfiles.foldlM (applyPatch patch)
      { fs with series := some series, patched := some (fs.patched.getD []) }
    return { fs with series := none, seriesApplied := some (series.filter notComment) }

/-! ## Chains of layers -/

/-- The name of a patch, as it stands on a line of a series. -/
structure PatchName where
  text : Line
  ne_nil : text ≠ []
  not_blank : ∀ c ∈ text, isBlank c = false
  not_comment : notComment text = true

/-- An image layer: the series it brings, and the pathname expansion among
its files. -/
structure PatchLayer where
  series : List PatchName
  expand : Line → List Line

/-- `COPY patches /patches` and `RUN kolla_patch`. -/
def buildLayer (patch : Line → Bool) (fs : PatchFs) (layer : PatchLayer) : Option PatchFs :=
  kollaPatch layer.expand patch { fs with series := some (layer.series.map PatchName.text) }

/-- A chain of layers on an image without patches. -/
def buildChain (patch : Line → Bool) (layers : List PatchLayer) : Option PatchFs :=
  layers.foldlM (buildLayer patch) ⟨none, none, none, []⟩

/-- The names in the series of the layers, one after the other. -/
def patchNames (layers : List PatchLayer) : List Line :=
  layers.flatMap fun layer => layer.series.map PatchName.text

/-- The patches applied are the distinct names in order of first appearance,
each once, and the log has a line for each of them. -/
def Complete (layers : List PatchLayer) (fs : PatchFs) : Prop :=
  fs.calls = (patchNames layers).eraseDups ∧
    fs.patched.getD [] = (patchNames layers).eraseDups.map logLine

/-- The line of the patch `a` contains the name `b`. -/
def masks (a b : Line) : Bool := occursIn b (logLine a)

theorem masks_self (a : Line) : masks a a = true :=
  decide_eq_true (List.suffix_append _ _).isInfix

/-! ## One layer -/

section Layer

variable {fs : PatchFs} {names series : List Line}

theorem words_eq {line : Line} (hne : line ≠ []) (hblank : ∀ c ∈ line, isBlank c = false) :
    words line = [line] := by
  have hsplit : line.splitOnP isBlank = [line] :=
    List.splitOnP_eq_singleton hblank
  simp [words, hsplit, hne]

/-- The loop, where every call of `patch` succeeds and the log has the line
of every call so far. -/
theorem foldlM_applyPatch (patchfiles : List Line)
    (hlog : fs.patched = some (fs.calls.map logLine)) :
    patchfiles.foldlM (applyPatch fun _ => true) fs
      = some { fs with
          patched := some ((keepUnmasked masks fs.calls patchfiles).map logLine)
          calls := keepUnmasked masks fs.calls patchfiles } := by
  induction patchfiles generalizing fs with
  | nil => simp [← hlog]
  | cons p patchfiles ih =>
    have hany : isPatched (fs.patched.getD []) p = fs.calls.any (masks · p) := by
      rw [hlog, Option.getD_some, isPatched, List.any_map]
      rfl
    rw [List.foldlM_cons, applyPatch, hany]
    by_cases hp : fs.calls.any (masks · p) = true
    · have hkeep : keepUnmasked masks fs.calls (p :: patchfiles)
          = keepUnmasked masks fs.calls patchfiles := by
        rw [keepUnmasked, List.foldl_cons, keepOne, if_pos hp]
        rfl
      rw [if_pos hp, hkeep]
      exact ih hlog
    · have hkeep : keepUnmasked masks fs.calls (p :: patchfiles)
          = keepUnmasked masks (fs.calls ++ [p]) patchfiles := by
        rw [keepUnmasked, List.foldl_cons, keepOne, if_neg hp]
        rfl
      rw [if_neg hp, if_pos rfl, hkeep]
      exact ih (by simp [hlog])

/-- What the files hold after layers with these names. -/
structure Patched (names : List Line) (fs : PatchFs) : Prop where
  calls : fs.calls = keepUnmasked masks [] names
  patched : fs.patched.getD [] = fs.calls.map logLine
  seriesApplied : fs.seriesApplied.getD [] = names

theorem flatMap_singleton {f : Line → List Line} {xs : List Line} (h : ∀ x ∈ xs, f x = [x]) :
    xs.flatMap f = xs := by
  induction xs with
  | nil => rfl
  | cons x xs ih =>
    rw [List.flatMap_cons, h x (by simp), ih fun y hy => h y (by simp [hy])]
    rfl

theorem filter_mergeSeries (seriesApplied : Option (List Line)) (series : List Line) :
    (mergeSeries seriesApplied series).filter notComment
      = (seriesApplied.getD [] ++ series).filter notComment := by
  cases seriesApplied <;> simp [mergeSeries]

/-- A run of the script takes up the names of its series, and those of the
earlier layers once more. -/
theorem Patched.kollaPatch {expand : Line → List Line} (h : Patched names fs)
    (hnames : ∀ name ∈ names ++ series,
      notComment name = true ∧ words name = [name] ∧ expand name = [name]) :
    ∃ fs', kollaPatch expand (fun _ => true) { fs with series := some series } = some fs' ∧
      Patched (names ++ series) fs' := by
  have hseries : (mergeSeries fs.seriesApplied series).filter notComment = names ++ series := by
    rw [filter_mergeSeries, h.seriesApplied]
    exact List.filter_eq_self.mpr fun name hname => (hnames name hname).1
  have hwords : (names ++ series).flatMap words = names ++ series :=
    flatMap_singleton fun name hname => (hnames name hname).2.1
  have hexpand : (names ++ series).flatMap expand = names ++ series :=
    flatMap_singleton fun name hname => (hnames name hname).2.2
  let start : PatchFs := ⟨some (mergeSeries fs.seriesApplied series), fs.seriesApplied,
    some (fs.patched.getD []), fs.calls⟩
  have hlog : start.patched = some (start.calls.map logLine) := congrArg some h.patched
  have hloop := foldlM_applyPatch (names ++ series) hlog
  refine ⟨⟨none, some (names ++ series),
    some ((keepUnmasked masks fs.calls (names ++ series)).map logLine),
    keepUnmasked masks fs.calls (names ++ series)⟩, ?_, ?_⟩
  · rw [Base.kollaPatch]
    dsimp only
    rw [hseries, hwords, hexpand]
    change Option.bind ((names ++ series).foldlM _ start) _ = _
    rw [hloop]
    rfl
  · have hkeep : keepUnmasked masks fs.calls (names ++ series)
        = keepUnmasked masks [] (names ++ series) := by
      rw [h.calls]
      exact keepUnmasked_again masks_self
    exact ⟨hkeep, rfl, rfl⟩

end Layer

/-! ## The chain -/

theorem PatchName.words_text (name : PatchName) : words name.text = [name.text] :=
  words_eq name.ne_nil name.not_blank

/-- What the files hold after any chain of layers. -/
theorem exists_patched (layers : List PatchLayer)
    (hexpand : ∀ layer ∈ layers, ∀ name ∈ patchNames layers, layer.expand name = [name]) :
    ∃ fs, buildChain (fun _ => true) layers = some fs ∧ Patched (patchNames layers) fs := by
  induction layers using List.reverseRecOn with
  | nil => exact ⟨_, rfl, rfl, rfl, rfl⟩
  | append_singleton layers layer ih =>
    have hsplit : patchNames (layers ++ [layer])
        = patchNames layers ++ layer.series.map PatchName.text := by
      simp [patchNames]
    rw [hsplit] at hexpand ⊢
    obtain ⟨fs, hfs, hpatched⟩ := ih fun layer' hlayer name hname =>
      hexpand layer' (by simp [hlayer]) name (by simp [hname])
    obtain ⟨fs', hfs', hpatched'⟩ := hpatched.kollaPatch fun name hname => by
      have hmem : name ∈ patchNames (layers ++ [layer]) := hsplit ▸ hname
      obtain ⟨_, -, hmem⟩ := List.mem_flatMap.mp hmem
      obtain ⟨name, -, rfl⟩ := List.mem_map.mp hmem
      exact ⟨name.not_comment, name.words_text, hexpand layer (by simp) _ hname⟩
    refine ⟨fs', ?_, hpatched'⟩
    rw [buildChain, List.foldlM_append]
    rw [buildChain] at hfs
    rw [hfs]
    simpa [buildLayer] using hfs'

/-- Where the shell leaves the names as they are and every call of `patch`
succeeds, the chain applies and records every distinct name once, in order
of first appearance, exactly if no name is part of the log line of another
one that appears before it. -/
theorem patches_applied_iff (layers : List PatchLayer)
    (hexpand : ∀ layer ∈ layers, ∀ name ∈ patchNames layers, layer.expand name = [name]) :
    (∃ fs, buildChain (fun _ => true) layers = some fs ∧ Complete layers fs) ↔
      (patchNames layers).eraseDups.Pairwise fun a b => occursIn b (logLine a) = false := by
  obtain ⟨fs, hfs, hpatched⟩ := exists_patched layers hexpand
  have hiff : keepUnmasked masks [] (patchNames layers) = (patchNames layers).eraseDups ↔
      (patchNames layers).eraseDups.Pairwise fun a b => masks a b = false :=
    keepUnmasked_eq_eraseDups_iff masks_self
  rw [← hpatched.calls] at hiff
  refine Iff.trans ?_ hiff
  constructor
  · rintro ⟨fs', hfs', hcalls, -⟩
    obtain rfl : fs = fs' := Option.some.inj (hfs.symm.trans hfs')
    exact hcalls
  · intro hcalls
    exact ⟨fs, hfs, hcalls, by rw [hpatched.patched, hcalls]⟩

/-! ## Two layers -/

def firstPatch : PatchName := ⟨"0001-foo.patch".toList, by decide, by simp [isBlank], by decide⟩

def secondPatch : PatchName := ⟨"foo.patch".toList, by decide, by simp [isBlank], by decide⟩

/-- A layer in whose files no name is a pattern. -/
def plainLayer (series : List PatchName) : PatchLayer := ⟨series, fun name => [name]⟩

theorem patches_applied_iff_sample :
    ∃ fs, buildChain (fun _ => true) [plainLayer [secondPatch], plainLayer [firstPatch, secondPatch]]
        = some fs ∧
      Complete [plainLayer [secondPatch], plainLayer [firstPatch, secondPatch]] fs := by
  refine (patches_applied_iff _ fun layer hlayer name _ => ?_).mpr (by decide)
  simp only [List.mem_cons, List.not_mem_nil, or_false] at hlayer
  rcases hlayer with rfl | rfl <;> rfl

/-- The second patch is part of the line of the first one and never
applied. -/
theorem patch_left_out :
    ∃ fs, buildChain (fun _ => true) [plainLayer [firstPatch], plainLayer [secondPatch]] = some fs ∧
      fs.calls = [firstPatch.text] ∧
      ¬ Complete [plainLayer [firstPatch], plainLayer [secondPatch]] fs := by
  refine ⟨⟨none, some [firstPatch.text, secondPatch.text], some [logLine firstPatch.text],
    [firstPatch.text]⟩, by decide +kernel, rfl, fun h => ?_⟩
  have hcalls : [firstPatch.text] = [firstPatch.text, secondPatch.text] := h.1
  simp at hcalls

end Kolla.Base
