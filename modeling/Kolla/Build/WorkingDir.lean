import Kolla.Build.CopyTree
import Kolla.Build.ImageList
import Kolla.SetConfigs.Restore

/-!
# The working directory

The first half of `run_build` in `kolla/image/build.py`, up to the images: the methods
of `KollaWorker` that lay the trees of templates over one another, look for the
templates, render them, put patches beside them and read the Dockerfiles back.

* `workingDir_layers`: what the working directory shows is what the last layer
  that has something there shows, and the images are the directories that show a
  template.

What `jinja2` makes of a template is the parameter `render`.
-/

namespace Kolla.Build

open Kolla.Lib Kolla.SetConfigs Kolla.SetConfigs.System

variable {β α : Type}

/-! ## Programs -/

/-- The exceptions that get out of `run_build`. -/
inductive BuildExn where
  | python (e : PyExn)
  | copyError (errors : List CopyError)
  | templateError
  | indexError
deriving DecidableEq

abbrev BuildOs (β : Type) := EStateM BuildExn (World β)

/-- A part of the program that raises Python's own exceptions only. -/
def os (m : Os β α) : BuildOs β α := fun w =>
  match m w with
  | .ok a w' => .ok a w'
  | .error e w' => .error (.python e) w'

/-- What `KollaWorker` reads of its options.  `temp_dir` is the name that
`tempfile.mkdtemp` finds, and `render` is the rendering of the template in a
directory of the tree, or an exception. -/
structure WorkConf (β : Type) where
  imagesDir : Path
  workDir : Option Path
  tempDir : Path
  dockerDir : List Path
  aptSourcesList : Option Path
  aptPreferences : Option Path
  patchesPath : Option Path
  render : FileTree β → Path → Option String

/-- `self.working_dir`. -/
def WorkConf.workingDir (conf : WorkConf β) : Path :=
  Path.join (conf.workDir.getD conf.tempDir) ["docker"]

section Source

variable (sys : System β) (conf : WorkConf β)

/-- `tempfile.mkdtemp()`, which makes the directory for its owner only. -/
def mkdtemp (path : Path) : Os β Unit :=
  syscall fun t =>
    match sys.find t false path with
    | .found _ _ => .error .EEXIST
    | .free loc _ => .ok ((), t.create loc (.dir ⟨0o700 &&& ~~~sys.umask, sys.uid, sys.gid⟩))
    | .failed e => .error e

/-- `KollaWorker.copy_dir`. -/
def copyDir (src dest : Path) : BuildOs β Unit := do
  let errors ← os (sys.copytree sys.recursionLimit src dest)
  if errors = [] then pure () else throw (.copyError errors)

/-- The copy of one file of `copy_apt_files`. -/
def copyAptFile (name : String) : Option Path → BuildOs β Unit
  | some src => os (sys.copyfile src (Path.join conf.workingDir ["base", name]))
  | none => pure ()

/-- `KollaWorker.copy_apt_files`. -/
def copyAptFiles : BuildOs β Unit := do
  copyAptFile sys conf "sources.list" conf.aptSourcesList
  copyAptFile sys conf "apt_preferences" conf.aptPreferences

/-- The parent of the working directory: the one that is given, or a new one. -/
def chooseDir : BuildOs β Unit :=
  match conf.workDir with
  | some _ => pure ()
  | none => os (mkdtemp sys conf.tempDir)

/-- `KollaWorker.setup_working_dir`. -/
def setupWorkingDir : BuildOs β Unit := do
  chooseDir sys conf
  copyDir sys conf.imagesDir conf.workingDir
  conf.dockerDir.forM fun dir => copyDir sys dir conf.workingDir
  copyAptFiles sys conf

/-- `KollaWorker.find_dockerfiles`: the list `docker_build_paths`. -/
def findDockerfiles (t : FileTree β) : List Path :=
  ((sys.walk t conf.workingDir).filter fun e => decide ("Dockerfile.j2" ∈ e.2.2)).map Prod.fst

/-- `KollaWorker.create_dockerfiles`. -/
def createDockerfiles (dockerBuildPaths : List Path) : BuildOs β Unit :=
  dockerBuildPaths.forM fun path => do
    let t ← os tree
    match conf.render t path with
    | some content => os (sys.writeFile (Path.join path ["Dockerfile"]) (sys.codec.encode content))
    | none => throw .templateError

/-- A path out of a text. -/
def splitPath (text : List Char) : Path := (text.splitOn '/').map String.ofList

/-- `str.strip()`. -/
def strip (line : List Char) : List Char :=
  ((line.dropWhile Char.isWhitespace).reverse.dropWhile Char.isWhitespace).reverse

/-- The lines of a text file; what comes after the last newline is one if there is
anything. -/
def lines (text : List Char) : List (List Char) :=
  let parts := text.splitOn '\n'
  if parts.getLast? = some [] then parts.dropLast else parts

/-- The patch files that a `series` names. -/
def patchFiles (series : String) : List Path :=
  ((lines series.toList).filter fun line => line.head? ≠ some '#').map fun line =>
    splitPath (strip line)

/-- The series of an image: it is copied, and names the patches. -/
def copySeries (srcPatchFolder destPatchFolder : Path) : BuildOs β (List Path) := do
  let srcSeriesPath := Path.join srcPatchFolder ["series"]
  let destSeriesPath := Path.join destPatchFolder ["series"]
  let t ← os tree
  if sys.isfile t srcSeriesPath then do
    os (sys.copyfile srcSeriesPath destSeriesPath)
    let content ← os (sys.openRead srcSeriesPath)
    match sys.codec.decode content with
    | some series => pure (patchFiles series)
    | none => throw (.python .valueError)
  else pure []

/-- `create_patch_files` for one image whose patches are in a directory. -/
def copyPatches (srcPatchFolder destPatchFolder : Path) : BuildOs β Unit := do
  let patchFiles ← copySeries sys srcPatchFolder destPatchFolder
  patchFiles.forM fun patchFile => do
    let t ← os tree
    if sys.isfile t (Path.join srcPatchFolder patchFile) then
      os (sys.copyfile (Path.join srcPatchFolder patchFile) (Path.join destPatchFolder patchFile))
    else pure ()

/-- `KollaWorker.create_patch_files`. -/
def createPatchFiles (dockerBuildPaths : List Path) : BuildOs β Unit :=
  dockerBuildPaths.forM fun path => do
    let t ← os tree
    let srcPatchFolder := conf.patchesPath.bind fun patchesPath =>
      if sys.isdir t patchesPath then some (Path.join patchesPath [Path.basename path]) else none
    let destPatchFolder := Path.join path ["patches"]
    os (sys.makedirs destPatchFolder true)
    match srcPatchFolder with
    | some srcPatchFolder => do
      let t ← os tree
      if sys.isdir t srcPatchFolder then copyPatches sys srcPatchFolder destPatchFolder
      else pure ()
    | none => pure ()

/-- `KollaWorker.build_image_list`, with the files read. -/
def KollaWorker.buildImageList (listConf : ListConf) (dockerBuildPaths : List Path) :
    BuildOs β (List (Image ℕ)) :=
  dockerBuildPaths.mapM fun path => do
    let content ← os (sys.openRead (Path.join path ["Dockerfile"]))
    match sys.codec.decode content with
    | none => throw (.python .valueError)
    | some text =>
      match newImage listConf ⟨path, text⟩ with
      | some image => pure image
      | none => throw .indexError

end Source

variable {sys : System β} {conf : WorkConf β} {w w' : World β}

theorem os_eq_ok {m : Os β α} {a : α} : os m w = .ok a w' ↔ m w = .ok a w' := by
  unfold os
  cases m w with
  | ok b w₁ => simp
  | error e w₁ => simp

theorem moves_os {R : World β → World β → Prop} {m : Os β α} (hm : Moves R m) : Moves R (os m) := by
  intro w
  have h := hm w
  unfold os
  cases hw : m w with
  | ok a w' =>
    rw [hw] at h
    exact h
  | error e w' =>
    rw [hw] at h
    exact h

theorem copyDir_eq_ok {src dest : Path} (h : copyDir sys src dest w = .ok () w') :
    sys.copytree sys.recursionLimit src dest w = .ok [] w' := by
  obtain ⟨errors, w₁, hcopy, hraise⟩ := bind_eq_ok.mp h
  split at hraise
  · rename_i hnil
    obtain ⟨-, rfl⟩ := pure_eq_ok.mp hraise
    rw [← hnil]
    exact os_eq_ok.mp hcopy
  · exact absurd hraise throw_ne_ok

/-! ## The layers -/

/-- The trees that are laid over one another. -/
def dirLayers (sys : System β) (conf : WorkConf β) (t : FileTree β) :
    List (Loc → Option (Lib.Kind × Option β)) :=
  (conf.imagesDir :: conf.dockerDir).map fun dir => t.subtree (Path.abspath sys.cwd dir)

/-- A file of `copy_apt_files` as a layer. -/
def aptLayer (sys : System β) (t : FileTree β) (name : String) (src : Path) :
    Loc → Option (Lib.Kind × Option β) :=
  fun rel => if rel = ["base", name] then t.content (Path.abspath sys.cwd src) else none

def aptLayers (sys : System β) (conf : WorkConf β) (t : FileTree β) :
    List (Loc → Option (Lib.Kind × Option β)) :=
  conf.aptSourcesList.toList.map (aptLayer sys t "sources.list") ++
    conf.aptPreferences.toList.map (aptLayer sys t "apt_preferences")

/-- What the working directory shows after `setup_working_dir`. -/
def shown (sys : System β) (conf : WorkConf β) (t : FileTree β) : Loc → Option (Lib.Kind × Option β) :=
  stack (t.subtree (Path.abspath sys.cwd conf.workingDir)) (dirLayers sys conf t ++ aptLayers sys conf t)

/-- The trees stand apart from the working directory, and no file of one stands where
one before it has a directory. -/
structure Ready (sys : System β) (conf : WorkConf β) (t : FileTree β) : Prop where
  linkFree : t.LinkFree
  down : Down conf.workingDir
  apart : ∀ dir ∈ conf.imagesDir :: conf.dockerDir,
    Apart (Path.abspath sys.cwd dir) (Path.abspath sys.cwd conf.workingDir)
  apt : ∀ src ∈ conf.aptSourcesList.toList ++ conf.aptPreferences.toList,
    ¬ Path.abspath sys.cwd conf.workingDir <+: Path.abspath sys.cwd src
  clash : (t.subtree (Path.abspath sys.cwd conf.workingDir) :: dirLayers sys conf t).Pairwise
    NoFileOverDir

theorem isName_workingDir (conf : WorkConf β) : IsName (Path.basename conf.workingDir) := by
  rw [Path.basename, WorkConf.workingDir, Path.getLastD_join_name]
  decide

/-- Some trees laid over a directory, one after the other. -/
theorem copy_dirs_content {dest : Path} (hdown : Down dest) (hname : IsName (Path.basename dest))
    {dirs : List Path}
    (hapart : ∀ dir ∈ dirs, Apart (Path.abspath sys.cwd dir) (Path.abspath sys.cwd dest))
    (ht : w.tree.LinkFree)
    (hclash : (w.tree.subtree (Path.abspath sys.cwd dest) ::
      dirs.map fun dir => w.tree.subtree (Path.abspath sys.cwd dir)).Pairwise NoFileOverDir)
    (h : dirs.forM (fun dir => copyDir sys dir dest) w = .ok () w') :
    Confined (Path.abspath sys.cwd dest) w.tree w'.tree ∧
      w'.tree.subtree (Path.abspath sys.cwd dest) = stack (w.tree.subtree (Path.abspath sys.cwd dest))
        (dirs.map fun dir => w.tree.subtree (Path.abspath sys.cwd dir)) := by
  induction dirs generalizing w with
  | nil =>
    obtain ⟨-, rfl⟩ := pure_eq_ok.mp h
    exact ⟨refl_of (Confined _) _, rfl⟩
  | cons dir dirs ih =>
    obtain ⟨w₁, hdir, hdirs⟩ := forM_cons_eq_ok.mp h
    obtain ⟨hapartdir, hapart⟩ := List.forall_mem_cons.mp hapart
    have hcopy := copyDir_eq_ok hdir
    have hmoved : Confined (Path.abspath sys.cwd dest) w.tree w₁.tree :=
      (confined_copytree _ hdown (List.prefix_refl _)).of_ok hcopy
    rw [List.map_cons, List.pairwise_cons, List.pairwise_cons, List.forall_mem_cons] at hclash
    obtain ⟨⟨hclashdir, hlower⟩, hupper, hrest⟩ := hclash
    have hover := copytree_content _ hdown hname hapartdir ht hclashdir hcopy
    have hlayers : (dirs.map fun dir => w₁.tree.subtree (Path.abspath sys.cwd dir))
        = dirs.map fun dir => w.tree.subtree (Path.abspath sys.cwd dir) := by
      refine List.map_congr_left fun dir' hdir' => ?_
      exact funext (hmoved.content_apart ht (hapart dir' hdir'))
    have hnew : w₁.tree.subtree (Path.abspath sys.cwd dest)
        = fun rel => (w.tree.subtree (Path.abspath sys.cwd dir) rel).or
            (w.tree.subtree (Path.abspath sys.cwd dest) rel) := funext hover
    have hclash₁ : (w₁.tree.subtree (Path.abspath sys.cwd dest) ::
        dirs.map fun dir => w₁.tree.subtree (Path.abspath sys.cwd dir)).Pairwise NoFileOverDir := by
      rw [hlayers, List.pairwise_cons]
      refine ⟨fun upper hmem rel c hc hdir => ?_, hrest⟩
      rw [hnew] at hdir
      rcases Option.or_eq_some_iff.mp hdir with hdir | ⟨-, hdir⟩
      · exact hupper upper hmem rel c hc hdir
      · exact hlower upper hmem rel c hc hdir
    obtain ⟨hmoved', heq⟩ := ih hapart (hmoved ht).1 hclash₁ hdirs
    refine ⟨trans_of (Confined _) hmoved hmoved', ?_⟩
    rw [heq, hlayers, hnew]
    rfl

theorem abspath_workingDir (hwork : conf.workDir = none) :
    Path.abspath sys.cwd conf.workingDir = Path.abspath sys.cwd conf.tempDir ++ ["docker"] := by
  rw [WorkConf.workingDir, hwork]
  exact abspath_join (by decide)

theorem confined_mkdtemp (hwork : conf.workDir = none) :
    Moves (OnTree (Confined (Path.abspath sys.cwd conf.workingDir))) (mkdtemp sys conf.tempDir) := by
  refine moves_syscall fun t _ t' h ht => ?_
  cases hfind : sys.find t false conf.tempDir with
  | found loc n =>
    rw [hfind] at h
    cases h
  | failed e =>
    rw [hfind] at h
    cases h
  | free loc slash =>
    rw [hfind] at h
    cases h
    obtain ⟨rfl, -⟩ := free_loc ht hfind
    refine Changes.create_dir (Or.inr ?_) ht
    rw [abspath_workingDir hwork]
    exact List.prefix_append _ _

/-- `mkdtemp` makes the parent of the working directory and nothing in it. -/
theorem mkdtemp_content (hwork : conf.workDir = none) (ht : w.tree.LinkFree)
    (h : mkdtemp sys conf.tempDir w = .ok () w') :
    w'.tree.subtree (Path.abspath sys.cwd conf.workingDir)
      = w.tree.subtree (Path.abspath sys.cwd conf.workingDir) := by
  obtain ⟨hf, -⟩ := syscall_eq_ok h
  cases hfind : sys.find w.tree false conf.tempDir with
  | found loc n =>
    rw [hfind] at hf
    cases hf
  | failed e =>
    rw [hfind] at hf
    cases hf
  | free loc slash =>
    rw [hfind] at hf
    obtain ⟨-, htree⟩ := Prod.mk.inj (Except.ok.inj hf)
    obtain ⟨rfl, hvacant⟩ := free_loc ht hfind
    rw [← htree, abspath_workingDir hwork]
    refine funext fun rel => FileTree.subtree_congr ?_
    rw [FileTree.lookup_create hvacant, if_neg]
    intro heq
    have hlen := congrArg List.length heq
    simp at hlen

/-- A file of `copy_apt_files` lies over the rest. -/
theorem copyAptFile_content {name : String} (hname : IsName name) {src : Option Path} {t : FileTree β}
    (ht : t.LinkFree) (hmoved : Confined (Path.abspath sys.cwd conf.workingDir) t w.tree)
    (hsrc : ∀ path ∈ src.toList, ¬ Path.abspath sys.cwd conf.workingDir <+: Path.abspath sys.cwd path)
    (h : copyAptFile sys conf name src w = .ok () w') :
    Confined (Path.abspath sys.cwd conf.workingDir) w.tree w'.tree ∧
      w'.tree.subtree (Path.abspath sys.cwd conf.workingDir)
        = stack (w.tree.subtree (Path.abspath sys.cwd conf.workingDir))
            (src.toList.map (aptLayer sys t name)) := by
  cases src with
  | none =>
    obtain ⟨-, rfl⟩ := pure_eq_ok.mp h
    exact ⟨refl_of (Confined _) _, rfl⟩
  | some path =>
    have hcopy := os_eq_ok.mp h
    have hnames : ∀ x ∈ ["base", name], IsName x := by
      intro x hx
      rcases List.mem_cons.mp hx with rfl | hx
      · decide
      · rw [List.mem_singleton.mp hx]
        exact hname
    have hdst : Path.abspath sys.cwd (Path.join conf.workingDir ["base", name])
        = Path.abspath sys.cwd conf.workingDir ++ ["base", name] := by
      rw [← Path.under_eq_join (List.cons_ne_nil _ _) hnames, Path.abspath_under hnames]
    have ht' := (hmoved ht).1
    obtain ⟨c, hc, hcontent⟩ := content_copyfile ht' hcopy
    -- the source is the file that it was at the start
    have hstart : t.content (Path.abspath sys.cwd path) = some (.file, some c) := by
      rcases (hmoved ht).2 _ (hsrc path (by simp)) with heq | ⟨-, -, hdir⟩
      · rw [← heq, hc]
      · rw [hc] at hdir
        cases hdir
    refine ⟨(confined_copyfile (hdst ▸ List.prefix_append _ _)).of_ok hcopy, funext fun rel => ?_⟩
    change _ = (aptLayer sys t name path rel).or (w.tree.subtree _ rel)
    rw [FileTree.subtree, hcontent, hdst]
    unfold aptLayer
    by_cases hrel : rel = ["base", name]
    · rw [hrel, if_pos rfl, if_pos rfl, hstart]
      rfl
    · rw [if_neg (by simpa using hrel), if_neg hrel]
      rfl

/-- `setup_working_dir` lays the trees and the files over one another. -/
theorem setup_content (hready : Ready sys conf w.tree) (h : setupWorkingDir sys conf w = .ok () w') :
    Confined (Path.abspath sys.cwd conf.workingDir) w.tree w'.tree ∧
      w'.tree.subtree (Path.abspath sys.cwd conf.workingDir) = shown sys conf w.tree := by
  have hD := isName_workingDir conf
  obtain ⟨_, w₁, htemp, h⟩ := bind_eq_ok.mp h
  obtain ⟨_, w₂, himages, h⟩ := bind_eq_ok.mp h
  obtain ⟨_, w₃, hdocker, h⟩ := bind_eq_ok.mp h
  obtain ⟨_, w₄, hsources, hpreferences⟩ := bind_eq_ok.mp h
  have hchosen : Confined (Path.abspath sys.cwd conf.workingDir) w.tree w₁.tree ∧
      w₁.tree.subtree (Path.abspath sys.cwd conf.workingDir)
        = w.tree.subtree (Path.abspath sys.cwd conf.workingDir) := by
    unfold chooseDir at htemp
    cases hwork : conf.workDir with
    | some dir =>
      rw [hwork] at htemp
      obtain ⟨-, rfl⟩ := pure_eq_ok.mp htemp
      exact ⟨refl_of (Confined _) _, rfl⟩
    | none =>
      rw [hwork] at htemp
      have hmake := os_eq_ok.mp htemp
      exact ⟨(confined_mkdtemp hwork).of_ok hmake, mkdtemp_content hwork hready.linkFree hmake⟩
  obtain ⟨hmoved₁, hsub₁⟩ := hchosen
  have ht₁ := (hmoved₁ hready.linkFree).1
  have hlayers : dirLayers sys conf w₁.tree = dirLayers sys conf w.tree :=
    List.map_congr_left fun dir hdir =>
      funext (hmoved₁.content_apart hready.linkFree (hready.apart dir hdir))
  have hdirs : (conf.imagesDir :: conf.dockerDir).forM
      (fun dir => copyDir sys dir conf.workingDir) w₁ = .ok () w₃ :=
    forM_cons_eq_ok.mpr ⟨w₂, himages, hdocker⟩
  have hclash := hready.clash
  rw [← hlayers, ← hsub₁] at hclash
  obtain ⟨hmoved₃, hsub₃⟩ := copy_dirs_content hready.down hD hready.apart ht₁ hclash hdirs
  change _ = stack _ (dirLayers sys conf w₁.tree) at hsub₃
  have hmoved := trans_of (Confined _) hmoved₁ hmoved₃
  obtain ⟨hmoved₄, hsub₄⟩ := copyAptFile_content (by decide) hready.linkFree hmoved
    (fun path hpath => hready.apt path (List.mem_append_left _ hpath)) hsources
  obtain ⟨hmoved₅, hsub₅⟩ := copyAptFile_content (by decide) hready.linkFree
    (trans_of (Confined _) hmoved hmoved₄)
    (fun path hpath => hready.apt path (List.mem_append_right _ hpath)) hpreferences
  refine ⟨trans_of (Confined _) (trans_of (Confined _) hmoved hmoved₄) hmoved₅, ?_⟩
  rw [hsub₅, hsub₄, hsub₃, hlayers, hsub₁, shown, aptLayers, stack_append, stack_append]

/-! ## The templates -/

/-- What the walk lists as a file is no directory. -/
theorem isdir_of_mem_files {t : FileTree β} {n : ℕ} {top : Path} {e : Path × List String × List String}
    (he : e ∈ sys.walkAux t n top) {x : String} (hx : x ∈ e.2.2) :
    sys.isdir t (Path.join e.1 [x]) = false := by
  induction n generalizing top with
  | zero => exact absurd he List.not_mem_nil
  | succ n ih =>
    rw [walkAux] at he
    split at he
    · exact absurd he List.not_mem_nil
    · rcases List.mem_cons.mp he with rfl | he
      · simpa using (List.mem_filter.mp hx).2
      · obtain ⟨y, -, he⟩ := List.mem_flatMap.mp he
        split at he
        · exact absurd he List.not_mem_nil
        · exact ih he

/-- A walk that comes to anything starts at a directory. -/
theorem find_of_mem_walk {t : FileTree β} {n : ℕ} {top : Path} {e : Path × List String × List String}
    (he : e ∈ sys.walkAux t n top) : ∃ loc a, sys.find t true top = .found loc (.dir a) := by
  cases n with
  | zero => exact absurd he List.not_mem_nil
  | succ n =>
    rw [walkAux, scandir] at he
    cases hfind : sys.find t true top with
    | found loc m =>
      rw [hfind] at he
      cases m with
      | dir a => exact ⟨loc, a, rfl⟩
      | file c a => exact absurd he List.not_mem_nil
      | link target => exact absurd he List.not_mem_nil
    | free loc slash =>
      rw [hfind] at he
      exact absurd he List.not_mem_nil
    | failed errno =>
      rw [hfind] at he
      exact absurd he List.not_mem_nil

/-- The directories below the working directory that have a template. -/
theorem mem_findDockerfiles {t : FileTree β} (ht : t.LinkFree) (hdown : Down conf.workingDir)
    {path : Path} : path ∈ findDockerfiles sys conf t ↔
      ∃ rel c, path = Path.under conf.workingDir rel ∧
        t.subtree (Path.abspath sys.cwd conf.workingDir) (rel ++ ["Dockerfile.j2"])
          = some (.file, some c) := by
  unfold findDockerfiles FileTree.subtree
  simp only [List.mem_map, List.mem_filter, decide_eq_true_eq]
  constructor
  · rintro ⟨e, ⟨he, htemplate⟩, rfl⟩
    obtain ⟨loc, a, hfind⟩ := find_of_mem_walk he
    obtain ⟨rel, hrel, hbelow⟩ := walkAux_below _ _ loc a hfind e he
    obtain ⟨m, hm⟩ := hbelow _ (List.mem_append_right _ htemplate)
    obtain ⟨rfl, -⟩ := found_loc ht hfind
    rw [List.append_assoc] at hm
    have hlink : m.isLink = false := by
      cases m with
      | link target => exact absurd hm (ht _ _)
      | _ => rfl
    have hdir := isdir_of_mem_files he htemplate
    rw [hrel, ← Path.under_concat,
      isdir_eq_false (look_of_find (find_under hfind (by simp) hm fun _ => hlink))] at hdir
    cases m with
    | file c b => exact ⟨rel, c, hrel, FileTree.content_of_lookup hm⟩
    | dir b => cases hdir
    | link target => cases hlink
  · rintro ⟨rel, c, rfl, hfile⟩
    obtain ⟨b, hb⟩ := FileTree.content_eq_file.mp hfile
    obtain ⟨a, ha⟩ := FileTree.ancestor_dir hb (by simp)
    have hfind := find_of_dir hdown (isName_workingDir conf) ha true
    obtain ⟨e, he, htop, hmem⟩ := mem_walk hfind (by rwa [List.append_assoc])
    have hdir : sys.isdir t (Path.under conf.workingDir (rel ++ ["Dockerfile.j2"])) = false :=
      isdir_eq_false (look_of_find (find_under hfind (by simp) hb fun _ => rfl))
    rw [hdir, if_neg Bool.false_ne_true] at hmem
    exact ⟨e, ⟨he, hmem⟩, htop⟩

/-- After `setup_working_dir` each place has what the last layer has that has something
there, and the directories of images are those in which this is a template. -/
theorem workingDir_layers (hready : Ready sys conf w.tree)
    (h : setupWorkingDir sys conf w = .ok () w') :
    (∀ rel, w'.tree.subtree (Path.abspath sys.cwd conf.workingDir) rel
      = ((dirLayers sys conf w.tree ++ aptLayers sys conf w.tree).reverse.findSome?
          fun layer => layer rel).or (w.tree.subtree (Path.abspath sys.cwd conf.workingDir) rel)) ∧
      ∀ path, path ∈ findDockerfiles sys conf w'.tree ↔
        ∃ rel c, path = Path.under conf.workingDir rel ∧
          shown sys conf w.tree (rel ++ ["Dockerfile.j2"]) = some (.file, some c) := by
  obtain ⟨hmoved, hsub⟩ := setup_content hready h
  refine ⟨fun rel => ?_, fun path => ?_⟩
  · rw [hsub, shown, stack_eq_findSome]
  · rw [mem_findDockerfiles (hmoved hready.linkFree).1 hready.down, hsub]

/-- Two trees of which one has no file where the other has a directory, by their nodes. -/
theorem noFileOverDir_of_nodes {t : FileTree β} {lower upper : Loc}
    (h : ∀ e ∈ t.nodes, e.2.isFile = true → upper <+: e.1 →
      t.isDir (lower ++ e.1.drop upper.length) = false) :
    NoFileOverDir (t.subtree lower) (t.subtree upper) := by
  intro rel c hc hdir
  obtain ⟨n, hn, hcontent⟩ := Option.map_eq_some_iff.mp hc
  have hfile : n.isFile = true := by
    cases n with
    | file c' b => rfl
    | dir b => cases hcontent
    | link target => cases hcontent
  have hno := h _ (FileTree.lookup_eq_some_iff.mp hn) hfile (List.prefix_append _ _)
  rw [List.drop_left, FileTree.content_eq_dir.mp hdir] at hno
  cases hno

/-- Templates in the directory of the repository, one of them in a directory of the
user, and a patch. -/
def layerTree : FileTree Content where
  nodes :=
    [([], rootDir), (["work"], rootDir), (["kolla"], rootDir),
      (["kolla", "base"], rootDir), (["kolla", "base", "Dockerfile.j2"], rootFile "FROM scratch"),
      (["kolla", "nova"], rootDir), (["kolla", "nova", "Dockerfile.j2"], rootFile "FROM old"),
      (["local"], rootDir), (["local", "nova"], rootDir),
      (["local", "nova", "Dockerfile.j2"], rootFile "FROM base"),
      (["patches"], rootDir), (["patches", "nova"], rootDir),
      (["patches", "nova", "series"], rootFile "fix.patch"),
      (["patches", "nova", "fix.patch"], rootFile "+")]
  nodup := by decide
  root := by decide
  closed := by decide
  proper := by decide

/-- A template is rendered as it stands. -/
def plainRender (t : FileTree Content) (path : Path) : Option String :=
  match t.content (Path.abspath [] (Path.join path ["Dockerfile.j2"])) with
  | some (_, some (.inl text)) => some text
  | _ => none

def layerConf : WorkConf Content where
  imagesDir := ["", "kolla"]
  workDir := some ["", "work"]
  tempDir := ["", "tmp"]
  dockerDir := [["", "local"]]
  aptSourcesList := none
  aptPreferences := none
  patchesPath := some ["", "patches"]
  render := plainRender

theorem ready_layers : Ready rootSystem layerConf layerTree where
  linkFree := linkFree_of_nodes (by decide)
  down := by simp [Down, WorkConf.workingDir, layerConf, Path.join, Path.isabs]
  apart := by
    unfold Apart
    decide
  apt := by decide
  clash := by
    have hclash : ∀ lower ∈ [["work", "docker"], ["kolla"]], ∀ upper ∈ [["kolla"], ["local"]],
        NoFileOverDir (layerTree.subtree lower) (layerTree.subtree upper) := by
      intro lower hlower upper hupper
      refine noFileOverDir_of_nodes ?_
      revert lower upper
      decide
    refine List.pairwise_cons.mpr ⟨fun upper hupper => ?_, List.pairwise_pair.mpr ?_⟩
    · rcases List.mem_pair.mp hupper with rfl | rfl
      · exact hclash ["work", "docker"] (by decide) ["kolla"] (by decide)
      · exact hclash ["work", "docker"] (by decide) ["local"] (by decide)
    · exact hclash ["kolla"] (by decide) ["local"] (by decide)

/-- `workingDir_layers` for a template that the user replaces. -/
theorem workingDir_layers_sample :
    (exitState (setupWorkingDir rootSystem layerConf ⟨layerTree, []⟩)).tree.content
      ["work", "docker", "nova", "Dockerfile.j2"] = some (.file, some (.inl "FROM base")) := by
  have h : setupWorkingDir rootSystem layerConf ⟨layerTree, []⟩ = .ok () _ :=
    eq_ok_of_answer (by decide +kernel)
  exact ((workingDir_layers ready_layers h).1 ["nova", "Dockerfile.j2"]).trans rfl

end Kolla.Build
