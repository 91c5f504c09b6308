import Kolla.Build.WorkingDir
import Kolla.SetConfigs.Container

/-!
# From the layers to the images

What `run_build` does from `setup_working_dir` to `build_image_list`: it lays the
templates over one another, renders them, puts the patches beside them and makes the
images of the Dockerfiles.

* `images_loaded`: the images are those of the templates that the working directory
  shows, in the order of the walk, and each one is made of its rendered template.
* `front_end_confined`: wherever this ends, nothing outside of the working directory
  has changed.

A `series` may name files by absolute paths and through `..`; `PlainPatches` says that
it does not.
-/

namespace Kolla.Build

open Kolla.Lib Kolla.SetConfigs Kolla.SetConfigs.System

variable {β : Type}

/-- `run_build` from `setup_working_dir` to `build_image_list`: `docker_build_paths`
and the images. -/
def loadImages (sys : System β) (conf : WorkConf β) (listConf : ListConf) :
    BuildOs β (List Path × List (Image ℕ)) := do
  setupWorkingDir sys conf
  let t ← os tree
  let dockerBuildPaths := findDockerfiles sys conf t
  createDockerfiles sys conf dockerBuildPaths
  createPatchFiles sys conf dockerBuildPaths
  let images ← KollaWorker.buildImageList sys listConf dockerBuildPaths
  pure (dockerBuildPaths, images)

variable {sys : System β} {conf : WorkConf β} {w w' : World β}

theorem os_tree_eq_ok {t : FileTree β} (h : os tree w = .ok t w') : w.tree = t ∧ w = w' := by
  cases os_eq_ok.mp h
  exact ⟨rfl, rfl⟩

/-! ## The directories of images -/

/-- A directory below the working directory, by the names that lead there. -/
def At (conf : WorkConf β) (path : Path) (rel : Loc) : Prop :=
  path = Path.under conf.workingDir rel ∧ ∀ x ∈ rel, IsName x

theorem At.abspath {path : Path} {rel : Loc} (h : At conf path rel) (cwd : Loc) :
    Path.abspath cwd path = Path.abspath cwd conf.workingDir ++ rel := by
  rw [h.1, Path.abspath_under h.2]

/-- Two such directories at one location are one path. -/
theorem At.unique {path path' : Path} {rel rel' : Loc} (h : At conf path rel)
    (h' : At conf path' rel') (cwd : Loc) (hloc : Path.abspath cwd path = Path.abspath cwd path') :
    path = path' := by
  rw [h.abspath, h'.abspath] at hloc
  rw [h.1, h'.1, List.append_cancel_left hloc]

theorem At.down {path : Path} {rel : Loc} (h : At conf path rel) (hdown : Down conf.workingDir) :
    Down path := by
  obtain ⟨rfl, hnames⟩ := h
  induction rel using List.reverseRecOn with
  | nil => exact hdown
  | append_singleton rel x ih =>
    rw [Path.under_concat]
    exact down_join (ih fun y hy => hnames y (List.mem_append_left _ hy)) (hnames x (by simp))

theorem At.basename {path : Path} {rel : Loc} (h : At conf path rel) : IsName (Path.basename path) := by
  obtain ⟨rfl, hnames⟩ := h
  rcases List.eq_nil_or_concat' rel with rfl | ⟨rel, x, rfl⟩
  · exact isName_workingDir conf
  · rw [Path.basename, Path.under_concat, Path.getLastD_join_name]
    exact hnames x (by simp)

/-- The directories that `find_dockerfiles` comes to. -/
theorem at_of_findDockerfiles {t : FileTree β} (ht : t.LinkFree) (hdown : Down conf.workingDir)
    {path : Path} (h : path ∈ findDockerfiles sys conf t) : ∃ rel, At conf path rel := by
  obtain ⟨rel, c, hpath, hfile⟩ := (mem_findDockerfiles ht hdown).mp h
  obtain ⟨a, ha⟩ := FileTree.content_eq_file.mp hfile
  refine ⟨rel, hpath, fun x hx => FileTree.isName_of_lookup ha x ?_⟩
  exact List.mem_append_right _ (List.mem_append_left _ hx)

/-! ## Rendering -/

/-- The Dockerfile of an image directory. -/
def dockerfileLoc (sys : System β) (path : Path) : Loc := Path.abspath sys.cwd path ++ ["Dockerfile"]

theorem abspath_dockerfile (path : Path) :
    Path.abspath sys.cwd (Path.join path ["Dockerfile"]) = dockerfileLoc sys path :=
  abspath_join (by decide)

theorem confined_createDockerfiles {paths : List Path}
    (hat : ∀ path ∈ paths, ∃ rel, At conf path rel) :
    Moves (OnTree (Confined (Path.abspath sys.cwd conf.workingDir)))
      (createDockerfiles sys conf paths) := by
  refine Moves.forM fun path hpath => Moves.bind (moves_os moves_tree) fun t => ?_
  split
  · obtain ⟨rel, hrel⟩ := hat path hpath
    refine moves_os (confined_writeFile ?_ _)
    rw [abspath_dockerfile, dockerfileLoc, hrel.abspath, List.append_assoc]
    exact List.prefix_append _ _
  · exact Moves.throw _

/-- Two trees that differ in Dockerfiles of the working directory only. -/
def SameTemplates (sys : System β) (conf : WorkConf β) (t t' : FileTree β) : Prop :=
  Confined (Path.abspath sys.cwd conf.workingDir) t t' ∧
    ∀ rel, rel.getLast? ≠ some "Dockerfile" →
      t'.subtree (Path.abspath sys.cwd conf.workingDir) rel
        = t.subtree (Path.abspath sys.cwd conf.workingDir) rel

theorem SameTemplates.trans {t t' t'' : FileTree β} (h : SameTemplates sys conf t t')
    (h' : SameTemplates sys conf t' t'') : SameTemplates sys conf t t'' :=
  ⟨trans_of (Confined _) h.1 h'.1, fun rel hrel => (h'.2 rel hrel).trans (h.2 rel hrel)⟩

/-- The Dockerfile in a directory is what its template was rendered to, over a tree
with the templates of `t₀`. -/
def Rendered (sys : System β) (conf : WorkConf β) (t₀ t : FileTree β) (path : Path) : Prop :=
  ∃ u text, SameTemplates sys conf t₀ u ∧ conf.render u path = some text ∧
    t.content (dockerfileLoc sys path) = some (.file, some (sys.codec.encode text))

/-- What is written into Dockerfiles only keeps the templates. -/
theorem sameTemplates_of_frame {t t' : FileTree β} {paths : List Path}
    (hat : ∀ path ∈ paths, ∃ rel, At conf path rel)
    (hmoved : Confined (Path.abspath sys.cwd conf.workingDir) t t')
    (h : ∀ l, (∀ path ∈ paths, l ≠ dockerfileLoc sys path) → t'.content l = t.content l) :
    SameTemplates sys conf t t' := by
  refine ⟨hmoved, fun rel hrel => h _ fun path hpath heq => hrel ?_⟩
  obtain ⟨rel', hrel'⟩ := hat path hpath
  rw [dockerfileLoc, hrel'.abspath, List.append_assoc] at heq
  rw [List.append_cancel_left heq, List.getLast?_concat]

/-- One iteration of `create_dockerfiles`. -/
theorem create_dockerfile_content {path : Path} (ht : w.tree.LinkFree)
    (h : createDockerfiles sys conf [path] w = .ok () w') :
    w'.tree.LinkFree ∧ (∀ l, l ≠ dockerfileLoc sys path → w'.tree.content l = w.tree.content l) ∧
      Rendered sys conf w.tree w'.tree path := by
  obtain ⟨w₁, hstep, hnil⟩ := forM_cons_eq_ok.mp h
  obtain ⟨-, rfl⟩ := pure_eq_ok.mp hnil
  obtain ⟨t, w₂, htree, hwrite⟩ := bind_eq_ok.mp hstep
  obtain ⟨rfl, rfl⟩ := os_tree_eq_ok htree
  cases hrender : conf.render w.tree path with
  | none =>
    rw [hrender] at hwrite
    exact absurd hwrite throw_ne_ok
  | some text =>
    rw [hrender] at hwrite
    have hfile := os_eq_ok.mp hwrite
    have hcontent := content_writeFile ht hfile
    rw [abspath_dockerfile] at hcontent
    have hmoved : Confined [] w.tree w₁.tree :=
      (confined_writeFile List.nil_prefix _).of_ok hfile
    refine ⟨(hmoved ht).1, fun l hl => by rw [hcontent, if_neg hl],
      w.tree, text, ⟨refl_of (Confined _) _, fun _ _ => rfl⟩, hrender, by rw [hcontent, if_pos rfl]⟩

/-- `create_dockerfiles` leaves in each directory what its template was rendered to, and
changes nothing else. -/
theorem createDockerfiles_content {paths : List Path}
    (hat : ∀ path ∈ paths, ∃ rel, At conf path rel) (ht : w.tree.LinkFree)
    (h : createDockerfiles sys conf paths w = .ok () w') :
    w'.tree.LinkFree ∧
      (∀ l, (∀ path ∈ paths, l ≠ dockerfileLoc sys path) → w'.tree.content l = w.tree.content l) ∧
      ∀ path ∈ paths, Rendered sys conf w.tree w'.tree path := by
  induction paths generalizing w with
  | nil =>
    obtain ⟨-, rfl⟩ := pure_eq_ok.mp h
    exact ⟨ht, fun _ _ => rfl, fun path hpath => absurd hpath List.not_mem_nil⟩
  | cons path paths ih =>
    obtain ⟨w₁, hstep, hrest⟩ := forM_cons_eq_ok.mp h
    have hone : createDockerfiles sys conf [path] w = .ok () w₁ :=
      forM_cons_eq_ok.mpr ⟨w₁, hstep, rfl⟩
    obtain ⟨ht₁, hframe₁, hrendered⟩ := create_dockerfile_content ht hone
    obtain ⟨hatpath, hatpaths⟩ := List.forall_mem_cons.mp hat
    obtain ⟨ht', hframe, hall⟩ := ih hatpaths ht₁ hrest
    have hsame : SameTemplates sys conf w.tree w₁.tree :=
      sameTemplates_of_frame (List.forall_mem_singleton.mpr hatpath)
        ((confined_createDockerfiles (List.forall_mem_singleton.mpr hatpath)).of_ok hone)
        fun l hl => hframe₁ l (hl path (List.mem_singleton_self _))
    have hlater : ∀ q ∈ paths, Rendered sys conf w.tree w'.tree q := by
      intro q hq
      obtain ⟨u, text, hu, hrender, hcontent⟩ := hall q hq
      exact ⟨u, text, hsame.trans hu, hrender, hcontent⟩
    refine ⟨ht', fun l hl => ?_, List.forall_mem_cons.mpr ⟨?_, hlater⟩⟩
    · obtain ⟨hlpath, hlpaths⟩ := List.forall_mem_cons.mp hl
      rw [hframe l hlpaths, hframe₁ l hlpath]
    · -- a directory that comes again is rendered again
      by_cases hagain : path ∈ paths
      · exact hlater path hagain
      · obtain ⟨u, text, hu, hrender, hcontent⟩ := hrendered
        refine ⟨u, text, hu, hrender, ?_⟩
        rw [hframe _ fun q hq heq => hagain ?_, hcontent]
        obtain ⟨rel, hrel⟩ := hatpath
        obtain ⟨rel', hrel'⟩ := hatpaths q hq
        rwa [hrel.unique hrel' sys.cwd (List.append_cancel_right heq)]

/-- What is there stays where directories are added. -/
theorem content_of_addsDirs {t t' : FileTree β} (h : AddsDirs t t') {l : Loc} {c : Lib.Kind × Option β}
    (hc : t.content l = some c) : t'.content l = some c := by
  rcases h l with hsame | ⟨hnone, -⟩
  · rw [FileTree.content, hsame]
    exact hc
  · rw [FileTree.content, hnone] at hc
    cases hc

/-- The trees differ at one location only. -/
def Only (loc : Loc) (t t' : FileTree β) : Prop :=
  t.LinkFree → t'.LinkFree ∧ ∀ l, l ≠ loc → t'.content l = t.content l

instance (loc : Loc) : IsPreorder (FileTree β) (Only loc) where
  refl _ ht := ⟨ht, fun _ _ => rfl⟩
  trans t t' t'' h h' ht := by
    obtain ⟨ht', hl⟩ := h ht
    obtain ⟨ht'', hl'⟩ := h' ht'
    exact ⟨ht'', fun l hne => (hl' l hne).trans (hl l hne)⟩

theorem only_replace {loc : Loc} {t : FileTree β} {c content : β} {a : Attr}
    (h : t.lookup loc = some (.file c a)) : Only loc t (t.replace loc (.file content a)) := by
  intro ht
  have hconfined : Confined [] t (t.replace loc (.file content a)) :=
    Confined.replace List.nil_prefix h (by simp [Node.isDir]) rfl
  refine ⟨(hconfined ht).1, fun l hl => ?_⟩
  rw [FileTree.content, FileTree.lookup_replace h fun hdir => ?_, if_neg hl, FileTree.content]
  obtain ⟨b, hb⟩ := FileTree.isDir_iff.mp hdir
  rw [h] at hb
  cases hb

theorem only_openWrite {path : Path} :
    Moves (OnTree (Only (Path.abspath sys.cwd path))) (sys.openWrite path) := by
  refine moves_syscall fun t loc t' h ht => ?_
  cases hfind : sys.find t true path with
  | found l n =>
    rw [hfind] at h
    obtain ⟨rfl, hl⟩ := found_loc ht hfind
    cases n with
    | file c a =>
      cases h
      exact only_replace hl ht
    | dir a => cases h
    | link target => cases h
  | free l slash =>
    rw [hfind] at h
    dsimp only at h
    split at h
    · cases h
    · cases h
      obtain ⟨rfl, hvacant⟩ := free_loc ht hfind
      refine ⟨(Confined.create List.nil_prefix rfl ht).1, fun l hl => ?_⟩
      rw [FileTree.content, FileTree.lookup_create hvacant, if_neg hl, FileTree.content]
  | failed e =>
    rw [hfind] at h
    cases h

theorem only_writeFile {path : Path} (content : β) :
    Moves (OnTree (Only (Path.abspath sys.cwd path))) (sys.writeFile path content) := by
  intro w ht
  refine Moves.bind_at (R := OnTree (Only (Path.abspath sys.cwd path))) (only_openWrite w)
    (fun loc w₁ hopen => ?_) ht
  rw [← openWrite_loc ht hopen]
  refine moves_syscall (S := Only loc) (fun t a t' h => ?_) w₁
  cases hl : t.lookup loc with
  | none =>
    rw [hl] at h
    cases h
  | some n =>
    rw [hl] at h
    cases n with
    | file c a =>
      cases h
      exact only_replace hl
    | dir a => cases h
    | link target => cases h

theorem only_copyfile {src dst : Path} :
    Moves (OnTree (Only (Path.abspath sys.cwd dst))) (sys.copyfile src dst) := by
  refine Moves.bind moves_tree fun t => Moves.ite (fun _ => Moves.throw _) fun _ => ?_
  exact Moves.bind (moves_readOnly (readOnly_openRead _)) fun c => only_writeFile c

/-- Nothing outside of the working directory has changed, and every Dockerfile is still
what it was. -/
def Beside (sys : System β) (conf : WorkConf β) (t t' : FileTree β) : Prop :=
  Confined (Path.abspath sys.cwd conf.workingDir) t t' ∧ (t.LinkFree → ∀ l c,
    t.content (l ++ ["Dockerfile"]) = some c → t'.content (l ++ ["Dockerfile"]) = some c)

instance (sys : System β) (conf : WorkConf β) : IsPreorder (FileTree β) (Beside sys conf) where
  refl t := ⟨refl_of (Confined _) t, fun _ _ _ hc => hc⟩
  trans t t' t'' h h' := by
    refine ⟨trans_of (Confined _) h.1 h'.1, fun ht l c hc => ?_⟩
    exact h'.2 (h.1 ht).1 l c (h.2 ht l c hc)

theorem beside_makedirs {path : Path} (hdown : Down path)
    (hbelow : Path.abspath sys.cwd conf.workingDir <+: Path.abspath sys.cwd path) :
    Moves (OnTree (Beside sys conf)) (sys.makedirs path true) := fun w =>
  ⟨confined_makedirs true hdown (Or.inr hbelow) w,
    fun _ _ _ hc => content_of_addsDirs (addsDirs_makedirsAux _ _ w) hc⟩

theorem beside_copyfile {src dst : Path}
    (hbelow : Path.abspath sys.cwd conf.workingDir <+: Path.abspath sys.cwd dst)
    (hlast : (Path.abspath sys.cwd dst).getLast? ≠ some "Dockerfile") :
    Moves (OnTree (Beside sys conf)) (sys.copyfile src dst) := by
  refine fun w => ⟨confined_copyfile hbelow w, fun ht l c hc => ?_⟩
  rw [(only_copyfile w ht).2 _ fun heq => hlast ?_, hc]
  rw [← heq, List.getLast?_concat]

/-- The directory of patches is apart from the working directory, and each series in it
names files below its own directory, none of them through the name of a Dockerfile. -/
structure PlainPatches (sys : System β) (conf : WorkConf β) (t : FileTree β) : Prop where
  apart : ∀ dir, conf.patchesPath = some dir →
    Apart (Path.abspath sys.cwd dir) (Path.abspath sys.cwd conf.workingDir)
  names : ∀ dir image c text, conf.patchesPath = some dir →
    t.content (Path.abspath sys.cwd dir ++ [image, "series"]) = some (.file, some c) →
      sys.codec.decode c = some text → ∀ file ∈ patchFiles text,
        Path.isabs file = false ∧ Down file ∧ "Dockerfile" ∉ file

/-- Where a patch is copied to. -/
theorem abspath_patch {path file : Path} (habs : Path.isabs file = false) (hdown : Down file)
    (cwd : Loc) : Path.abspath cwd (Path.join (Path.join path ["patches"]) file)
      = Path.abspath cwd path ++ "patches" :: file.filter fun x => x ≠ "" ∧ x ≠ "." := by
  have hlast : (Path.join path ["patches"]).getLastD "" = "patches" := Path.getLastD_join_name _ _
  have hne : Path.join path ["patches"] ≠ [] ∧ Path.join path ["patches"] ≠ [""] := by
    constructor
    · intro h
      rw [h] at hlast
      exact absurd hlast (by decide)
    · intro h
      rw [h] at hlast
      exact absurd hlast (by decide)
  have hpatches : Path.abspath cwd (Path.join path ["patches"]) = Path.abspath cwd path ++ ["patches"] :=
    abspath_join (by decide)
  rw [Path.join, habs, hlast, if_neg Bool.false_ne_true, if_neg (by decide), Path.abspath,
    Path.isabs_append hne.1 hne.2, List.foldl_append]
  rw [Path.abspath] at hpatches
  rw [hpatches, foldl_absStep_filter hdown, List.append_assoc, List.singleton_append]

/-- A patch is copied beside the Dockerfile. -/
theorem beside_patch {path file src : Path} {rel : Loc} (hat : At conf path rel)
    (hfile : Path.isabs file = false ∧ Down file ∧ "Dockerfile" ∉ file) :
    Moves (OnTree (Beside sys conf))
      (sys.copyfile src (Path.join (Path.join path ["patches"]) file)) := by
  obtain ⟨habs, hdown, hno⟩ := hfile
  have hloc := @abspath_patch path file habs hdown sys.cwd
  refine beside_copyfile ?_ fun hlast => ?_
  · rw [hloc, hat.abspath, List.append_assoc]
    exact List.prefix_append _ _
  · rw [hloc] at hlast
    rcases List.mem_cons.mp (List.mem_of_getLast? (by simpa using hlast)) with heq | hmem
    · exact absurd heq (by decide)
    · exact hno (List.mem_of_mem_filter hmem)

theorem beside_series {path src : Path} {rel : Loc} (hat : At conf path rel) :
    Moves (OnTree (Beside sys conf))
      (sys.copyfile src (Path.join (Path.join path ["patches"]) ["series"])) :=
  beside_patch hat ⟨rfl, by simp [Down], by decide⟩

theorem beside_copySeries (dir : Path) {path : Path} {rel : Loc} (hat : At conf path rel) :
    Moves (OnTree (Beside sys conf)) (copySeries sys (Path.join dir [Path.basename path])
      (Path.join path ["patches"])) := by
  refine Moves.bind (moves_os moves_tree) fun t => Moves.ite (fun _ => ?_) fun _ => Moves.pure _
  refine Moves.bind (moves_os (beside_series hat)) fun _ => ?_
  refine Moves.bind (moves_os (moves_readOnly (readOnly_openRead _))) fun content => ?_
  split
  · exact Moves.pure _
  · exact Moves.throw _

/-- The patches that a series names, in a tree in which the directory of patches is as
it was. -/
theorem plain_of_copySeries {t₀ : FileTree β} (ht₀ : t₀.LinkFree) (hplain : PlainPatches sys conf t₀)
    {dir path : Path} {rel : Loc} (hdir : conf.patchesPath = some dir) (hat : At conf path rel)
    (hmoved : Confined (Path.abspath sys.cwd conf.workingDir) t₀ w.tree) {files : List Path}
    (h : copySeries sys (Path.join dir [Path.basename path]) (Path.join path ["patches"]) w
      = .ok files w') :
    ∀ file ∈ files, Path.isabs file = false ∧ Down file ∧ "Dockerfile" ∉ file := by
  obtain ⟨t, w₁, htree, h⟩ := bind_eq_ok.mp h
  obtain ⟨rfl, rfl⟩ := os_tree_eq_ok htree
  split at h
  · obtain ⟨_, w₂, hcopy, h⟩ := bind_eq_ok.mp h
    obtain ⟨c, w₃, hread, h⟩ := bind_eq_ok.mp h
    have hmoved₂ : Confined (Path.abspath sys.cwd conf.workingDir) t₀ w₂.tree :=
      trans_of (Confined _) hmoved ((beside_series hat).of_ok (os_eq_ok.mp hcopy)).1
    obtain ⟨a, hlook⟩ := openRead_eq_ok (os_eq_ok.mp hread)
    obtain ⟨loc, hfind⟩ := find_of_look hlook
    have hcontent := FileTree.content_of_lookup (found_loc (hmoved₂ ht₀).1 hfind).2
    rw [abspath_join (by decide), abspath_join hat.basename, List.append_assoc] at hcontent
    have hsame := hmoved₂.content_apart ht₀ (hplain.apart dir hdir) ([Path.basename path] ++ ["series"])
    cases hdecode : sys.codec.decode c with
    | none =>
      rw [hdecode] at h
      exact absurd h throw_ne_ok
    | some text =>
      rw [hdecode] at h
      obtain ⟨rfl, -⟩ := pure_eq_ok.mp h
      exact hplain.names dir (Path.basename path) c text hdir (hsame.symm.trans hcontent) hdecode
  · obtain ⟨rfl, -⟩ := pure_eq_ok.mp h
    exact fun file hfile => absurd hfile List.not_mem_nil

/-- `copyPatches` from a tree in which the directory of patches is as it was. -/
theorem beside_copyPatches {t₀ : FileTree β} (ht₀ : t₀.LinkFree) (hplain : PlainPatches sys conf t₀)
    {dir path : Path} {rel : Loc} (hdir : conf.patchesPath = some dir) (hat : At conf path rel)
    (hmoved : Confined (Path.abspath sys.cwd conf.workingDir) t₀ w.tree) :
    OnTree (Beside sys conf) w (exitState (copyPatches sys (Path.join dir [Path.basename path])
      (Path.join path ["patches"]) w)) := by
  refine Moves.bind_at (beside_copySeries dir hat w) fun files w₁ hfiles => ?_
  have hsafe := plain_of_copySeries ht₀ hplain hdir hat hmoved hfiles
  refine Moves.forM (fun file hfile => ?_) w₁
  refine Moves.bind (moves_os moves_tree) fun t => Moves.ite (fun _ => ?_) fun _ => Moves.pure _
  exact moves_os (beside_patch hat (hsafe file hfile))

/-- `create_patch_files` leaves the rest of the file system and the Dockerfiles alone. -/
theorem beside_createPatchFiles {t₀ : FileTree β} (ht₀ : t₀.LinkFree)
    (hdown : Down conf.workingDir) (hplain : PlainPatches sys conf t₀) {paths : List Path}
    (hat : ∀ path ∈ paths, ∃ rel, At conf path rel)
    (hmoved : Confined (Path.abspath sys.cwd conf.workingDir) t₀ w.tree) :
    OnTree (Beside sys conf) w (exitState (createPatchFiles sys conf paths w)) := by
  refine Moves.forM_at (refl_of (OnTree (Beside sys conf)) w) fun path hpath v hv => ?_
  obtain ⟨rel, hrel⟩ := hat path hpath
  refine Moves.bind_at (moves_os moves_tree v) fun t v₁ htree => ?_
  obtain ⟨rfl, rfl⟩ := os_tree_eq_ok htree
  have hmake : Moves (OnTree (Beside sys conf)) (sys.makedirs (Path.join path ["patches"]) true) := by
    refine beside_makedirs (down_join (hrel.down hdown) (by decide)) ?_
    rw [abspath_join (by decide), hrel.abspath, List.append_assoc]
    exact List.prefix_append _ _
  refine Moves.bind_at (moves_os hmake v) fun _ v₂ hmade => ?_
  cases hdir : conf.patchesPath with
  | none => exact Moves.pure _ v₂
  | some dir =>
    rw [Option.bind_some]
    split
    · refine Moves.bind_at (moves_os moves_tree v₂) fun t v₃ htree => ?_
      obtain ⟨rfl, rfl⟩ := os_tree_eq_ok htree
      split
      · refine beside_copyPatches ht₀ hplain hdir hrel (trans_of (Confined _) hmoved ?_)
        exact trans_of (Confined _) hv.1 (hmake.of_ok (os_eq_ok.mp hmade)).1
      · exact Moves.pure _ v₂
    · exact Moves.pure _ v₂

/-! ## The images -/

/-- `build_image_list` makes the image of each Dockerfile, in their order. -/
theorem buildImageList_eq_ok {listConf : ListConf} {paths : List Path} {images : List (Image ℕ)}
    (ht : w.tree.LinkFree) (h : KollaWorker.buildImageList sys listConf paths w = .ok images w') :
    w'.tree = w.tree ∧ List.Forall₂ (fun path image => ∃ c text,
      w.tree.content (dockerfileLoc sys path) = some (.file, some c) ∧
        sys.codec.decode c = some text ∧ newImage listConf ⟨path, text⟩ = some image) paths images := by
  induction paths generalizing w images with
  | nil =>
    obtain ⟨rfl, rfl⟩ := pure_eq_ok.mp h
    exact ⟨rfl, List.Forall₂.nil⟩
  | cons path paths ih =>
    rw [KollaWorker.buildImageList, List.mapM_cons] at h
    obtain ⟨image, w₁, hone, h⟩ := bind_eq_ok.mp h
    obtain ⟨rest, w₂, hrest, h⟩ := bind_eq_ok.mp h
    obtain ⟨rfl, rfl⟩ := pure_eq_ok.mp h
    obtain ⟨c, w₃, hread, hone⟩ := bind_eq_ok.mp hone
    have hread := os_eq_ok.mp hread
    have htree : w₃.tree = w.tree := (readOnly_openRead _).tree_eq hread
    obtain ⟨a, hlook⟩ := openRead_eq_ok hread
    obtain ⟨loc, hfind⟩ := find_of_look hlook
    have hcontent : w.tree.content (dockerfileLoc sys path) = some (.file, some c) := by
      rw [← abspath_dockerfile]
      exact FileTree.content_of_lookup (found_loc ht hfind).2
    cases hdecode : sys.codec.decode c with
    | none =>
      rw [hdecode] at hone
      exact absurd hone throw_ne_ok
    | some text =>
      rw [hdecode] at hone
      dsimp only at hone
      cases himage : newImage (ι := ℕ) listConf ⟨path, text⟩ with
      | none =>
        rw [himage] at hone
        exact absurd hone throw_ne_ok
      | some image' =>
        rw [himage] at hone
        obtain ⟨rfl, rfl⟩ := pure_eq_ok.mp hone
        rw [← htree] at ht
        obtain ⟨heq, hforall⟩ := ih ht hrest
        rw [htree] at heq hforall
        exact ⟨heq, List.Forall₂.cons ⟨c, text, hcontent, hdecode, himage⟩ hforall⟩

theorem loadImages_eq_ok {listConf : ListConf} {paths : List Path} {images : List (Image ℕ)}
    (h : loadImages sys conf listConf w = .ok (paths, images) w') :
    ∃ w₁ w₂ w₃, setupWorkingDir sys conf w = .ok () w₁ ∧ paths = findDockerfiles sys conf w₁.tree ∧
      createDockerfiles sys conf paths w₁ = .ok () w₂ ∧
      createPatchFiles sys conf paths w₂ = .ok () w₃ ∧
      KollaWorker.buildImageList sys listConf paths w₃ = .ok images w' := by
  obtain ⟨_, w₁, hsetup, h⟩ := bind_eq_ok.mp h
  obtain ⟨t, w₁', htree, h⟩ := bind_eq_ok.mp h
  obtain ⟨rfl, rfl⟩ := os_tree_eq_ok htree
  obtain ⟨_, w₂, hcreate, h⟩ := bind_eq_ok.mp h
  obtain ⟨_, w₃, hpatch, h⟩ := bind_eq_ok.mp h
  obtain ⟨images', w₄, hbuild, h⟩ := bind_eq_ok.mp h
  obtain ⟨heq, rfl⟩ := pure_eq_ok.mp h
  obtain ⟨rfl, rfl⟩ := Prod.mk.inj heq
  exact ⟨w₁, w₂, w₃, hsetup, rfl, hcreate, hpatch, hbuild⟩

theorem readOnly_buildImageList {R : FileTree β → FileTree β → Prop} [IsPreorder _ R]
    (listConf : ListConf) (paths : List Path) :
    Moves (OnTree R) (KollaWorker.buildImageList sys listConf paths) := by
  refine Moves.mapM fun path _ => Moves.bind (moves_os (moves_readOnly (readOnly_openRead _))) fun c => ?_
  split
  · exact Moves.throw _
  · split
    · exact Moves.pure _
    · exact Moves.throw _

/-- What a template is rendered to over a tree that shows the layers on `t`
everywhere in the working directory, except at files named `Dockerfile`, and is
otherwise as `t`. -/
def RenderedTo (sys : System β) (conf : WorkConf β) (t : FileTree β) (path : Path) (text : String) :
    Prop :=
  ∃ u, Confined (Path.abspath sys.cwd conf.workingDir) t u ∧
    (∀ rel, rel.getLast? ≠ some "Dockerfile" →
      u.subtree (Path.abspath sys.cwd conf.workingDir) rel = shown sys conf t rel) ∧
        conf.render u path = some text

/-- The Dockerfile that is read back where the template was rendered to `text`. -/
def ReadBack (sys : System β) (conf : WorkConf β) (t : FileTree β) (file : Dockerfile)
    (text : String) : Prop :=
  RenderedTo sys conf t file.path text ∧ file.content = universalNewlines text

/-- Images that are made one by one are the images of a list of Dockerfiles. -/
theorem files_of_images {listConf : ListConf} {P : Path → String → Prop} {paths : List Path}
    {images : List (Image ℕ)} (h : List.Forall₂ (fun path image => ∃ text, P path text ∧
      newImage listConf ⟨path, text⟩ = some image) paths images) :
    ∃ files : List Dockerfile, files.map Dockerfile.path = paths ∧
      (∀ file ∈ files, P file.path file.content) ∧ buildImageList listConf files = some images := by
  induction h with
  | nil => exact ⟨[], rfl, fun file hfile => absurd hfile List.not_mem_nil, rfl⟩
  | @cons path image paths images hone _ ih =>
    obtain ⟨text, hP, himage⟩ := hone
    obtain ⟨files, rfl, hall, hbuild⟩ := ih
    refine ⟨⟨path, text⟩ :: files, rfl, List.forall_mem_cons.mpr ⟨hP, hall⟩, ?_⟩
    rw [buildImageList] at hbuild ⊢
    rw [List.mapM_cons, himage, hbuild]
    rfl

/-- What a front end that returned has done. -/
theorem loaded_files {listConf : ListConf} {paths : List Path} {images : List (Image ℕ)}
    (hready : Ready sys conf w.tree) (hplain : PlainPatches sys conf w.tree)
    (h : loadImages sys conf listConf w = .ok (paths, images) w') :
    w'.tree.LinkFree ∧ (∀ path, path ∈ paths ↔ ∃ rel c, path = Path.under conf.workingDir rel ∧
      shown sys conf w.tree (rel ++ ["Dockerfile.j2"]) = some (.file, some c)) ∧
      ∃ files : List Dockerfile, files.map Dockerfile.path = paths ∧
        (∀ file ∈ files, ∃ text, ReadBack sys conf w.tree file text ∧
          w'.tree.content (dockerfileLoc sys file.path)
            = some (.file, some (sys.codec.encode text))) ∧
          buildImageList listConf files = some images := by
  obtain ⟨w₁, w₂, w₃, hsetup, rfl, hcreate, hpatch, hbuild⟩ := loadImages_eq_ok h
  obtain ⟨hmoved, hshown⟩ := setup_content hready hsetup
  have ht₁ := (hmoved hready.linkFree).1
  have hat : ∀ path ∈ findDockerfiles sys conf w₁.tree, ∃ rel, At conf path rel :=
    fun path hpath => at_of_findDockerfiles ht₁ hready.down hpath
  obtain ⟨ht₂, -, hrendered⟩ := createDockerfiles_content hat ht₁ hcreate
  have hmoved₂ := trans_of (Confined _) hmoved ((confined_createDockerfiles hat).of_ok hcreate)
  obtain ⟨hmoved₃, hkept⟩ := Moves.of_ok_at
    (beside_createPatchFiles hready.linkFree hready.down hplain hat hmoved₂) hpatch
  have ht₃ := (hmoved₃ ht₂).1
  obtain ⟨hread, hforall⟩ := buildImageList_eq_ok ht₃ hbuild
  refine ⟨hread ▸ ht₃, fun path => by rw [mem_findDockerfiles ht₁ hready.down, hshown], ?_⟩
  have hboth := (List.forall₂_and_left _ _).mpr ⟨hrendered, hforall⟩
  refine files_of_images (P := fun path content => ∃ text,
    ReadBack sys conf w.tree ⟨path, content⟩ text ∧
      w'.tree.content (dockerfileLoc sys path) = some (.file, some (sys.codec.encode text)))
    (hboth.imp fun path image h => ?_)
  obtain ⟨⟨u, text, ⟨hconfined, hu⟩, hrender, hwritten⟩, c, content, hcontent, hdecode, himage⟩ := h
  have hthere := hkept ht₂ _ _ hwritten
  obtain rfl : sys.codec.encode text = c := by simpa using hthere.symm.trans hcontent
  obtain rfl : universalNewlines text = content :=
    Option.some.inj ((sys.codec.decode_encode text).symm.trans hdecode)
  refine ⟨universalNewlines text, ⟨text, ⟨⟨u, ?_, fun rel hrel => ?_, hrender⟩, rfl⟩, ?_⟩, himage⟩
  · exact trans_of (Confined _) hmoved hconfined
  · rw [hu rel hrel, hshown]
  · rw [hread]
    exact hthere

theorem plain_layers : PlainPatches rootSystem layerConf layerTree where
  apart dir hdir := by
    cases hdir
    unfold Apart
    decide
  names dir image c text hdir hc hdecode := by
    cases hdir
    obtain ⟨a, ha⟩ := FileTree.content_eq_file.mp hc
    have hloc : Path.abspath rootSystem.cwd ["", "patches"] = ["patches"] := by decide
    rw [hloc] at ha
    have hmem := FileTree.lookup_eq_some_iff.mp ha
    obtain ⟨rfl, rfl⟩ : image = "nova" ∧ c = .inl "fix.patch" := by
      simp [layerTree, rootDir, rootFile] at hmem
      exact ⟨hmem.1, hmem.2.1⟩
    cases hdecode
    unfold Down
    decide

/-- What is loaded from `layerTree`. -/
def layerResult : List Path × List (Image ℕ) :=
  (answer (loadImages rootSystem layerConf sampleListConf ⟨layerTree, []⟩)).get (by decide +kernel)

/-- `setup_working_dir` changes nothing outside of the working directory. -/
theorem confined_setup (hdown : Down conf.workingDir) :
    Moves (OnTree (Confined (Path.abspath sys.cwd conf.workingDir))) (setupWorkingDir sys conf) := by
  have hcopy : ∀ dir, Moves (OnTree (Confined (Path.abspath sys.cwd conf.workingDir)))
      (copyDir sys dir conf.workingDir) := by
    intro dir
    refine Moves.bind (moves_os (confined_copytree _ hdown (List.prefix_refl _))) fun errors => ?_
    exact Moves.ite (fun _ => Moves.pure _) fun _ => Moves.throw _
  have hapt : ∀ name, IsName name → ∀ src,
      Moves (OnTree (Confined (Path.abspath sys.cwd conf.workingDir))) (copyAptFile sys conf name src) := by
    intro name hname src
    cases src with
    | none => exact Moves.pure _
    | some src =>
      have hnames : ∀ x ∈ ["base", name], IsName x :=
        List.forall_mem_cons.mpr ⟨by decide, List.forall_mem_singleton.mpr hname⟩
      refine moves_os (confined_copyfile ?_)
      rw [← Path.under_eq_join (List.cons_ne_nil _ _) hnames, Path.abspath_under hnames]
      exact List.prefix_append _ _
  refine Moves.bind ?_ fun _ => Moves.bind (hcopy _) fun _ => Moves.bind
    (Moves.forM fun dir _ => hcopy dir) fun _ => ?_
  · unfold chooseDir
    cases hwork : conf.workDir with
    | some dir => exact Moves.pure _
    | none => exact moves_os (confined_mkdtemp hwork)
  · exact Moves.bind (hapt _ (by decide) _) fun _ => hapt _ (by decide) _

/-- Wherever the front end stops, nothing outside of the working directory has
changed. -/
theorem front_end_confined {listConf : ListConf} (hdown : Down conf.workingDir)
    (ht : w.tree.LinkFree) (hplain : PlainPatches sys conf w.tree) :
    Confined (Path.abspath sys.cwd conf.workingDir) w.tree
      (exitState (loadImages sys conf listConf w)).tree := by
  refine Moves.bind_at (R := OnTree (Confined _)) (confined_setup hdown w) fun _ w₁ hsetup => ?_
  have hmoved₁ := (confined_setup hdown).of_ok hsetup
  refine Moves.bind_at (R := OnTree (Confined _)) (moves_os moves_tree w₁) fun t w₂ htree => ?_
  obtain ⟨rfl, rfl⟩ := os_tree_eq_ok htree
  have hat : ∀ path ∈ findDockerfiles sys conf w₁.tree, ∃ rel, At conf path rel :=
    fun path hpath => at_of_findDockerfiles (hmoved₁ ht).1 hdown hpath
  refine Moves.bind_at (R := OnTree (Confined _)) (confined_createDockerfiles hat w₁)
    fun _ w₂ hcreate => ?_
  have hmoved₂ := trans_of (Confined _) hmoved₁ ((confined_createDockerfiles hat).of_ok hcreate)
  refine Moves.bind_at (R := OnTree (Confined _))
    (beside_createPatchFiles ht hdown hplain hat hmoved₂).1 fun _ w₃ _ => ?_
  exact Moves.bind (readOnly_buildImageList _ _) (fun _ => Moves.pure _) w₃

/-- `front_end_confined` where the disk is full when the first template is copied. -/
theorem front_end_confined_sample :
    (exitState (loadImages rootSystem layerConf sampleListConf
      ⟨layerTree, List.replicate 5 none ++ [some .ENOSPC]⟩)).tree.subtree ["local"]
        = layerTree.subtree ["local"] := by
  have hconfined := @front_end_confined _ rootSystem layerConf
    ⟨layerTree, List.replicate 5 none ++ [some .ENOSPC]⟩ sampleListConf ready_layers.down
    ready_layers.linkFree plain_layers
  refine funext (hconfined.content_apart ready_layers.linkFree ?_)
  unfold Apart
  decide

end Kolla.Build
