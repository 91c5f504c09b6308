import Kolla.Lib.LinePattern
import Kolla.Lib.Posix
import Kolla.Build.Discipline
import Kolla.Build.Dependencies

/-!
# From Dockerfiles to images

`build_image_list` of `kolla/image/kolla_worker.py` makes an image of every
directory with a Dockerfile.  What the image is built from it reads out of the
text: the second word of the first line that begins with `FROM`
(`fromNames_iff`).  `find_parents` then looks for an image with this name.

* `image_links`: which links the texts give, and which texts are an `IndexError`.
* `from_discipline`: what `FROM` means for a run of the workers.

Directories with one base name share a canonical name, and only the last one of
them has any links.
-/

namespace Kolla.Build

open Kolla.Lib

/-! ## The configuration -/

/-- The options of `get_source_opts`, as a section has them. -/
structure SourceOpts where
  type : Option SourceType
  location : String
  reference : String
  enabled : Bool
  sha256 : Dict String String

/-- What `build_image_list` reads of the configuration.  `sections` is the set
`all_sections` in the order of its iteration. -/
structure ListConf where
  registry : Option String
  namespaceName : String
  imagePrefix : String
  tag : String
  sections : List String
  options : String → SourceOpts

/-- A directory of `docker_build_paths` and the text of its Dockerfile. -/
structure Dockerfile where
  path : Path
  content : String

namespace ListConf

variable (conf : ListConf)

/-- `self.namespace`. -/
def fullNamespace : String :=
  match conf.registry with
  | some registry => if registry = "" then conf.namespaceName else registry ++ "/" ++ conf.namespaceName
  | none => conf.namespaceName

/-- `canonical_name`. -/
def canonicalName (imageName : String) : String :=
  conf.fullNamespace ++ "/" ++ conf.imagePrefix ++ imageName ++ ":" ++ conf.tag

/-- `process_source_installation`. -/
def processSourceInstallation (sectionName : String) : Option Source :=
  (conf.options sectionName).type.map fun type =>
    { name := sectionName
      type := type
      source := (conf.options sectionName).location
      reference := if type = .git then (conf.options sectionName).reference else ""
      enabled := (conf.options sectionName).enabled
      sha256 := (conf.options sectionName).sha256 }

/-- `re.search('^{}-plugin-.+'.format(name), section).group(0)`, and the same for
the additions, where the name has no special characters. -/
def searchSection (name middle : String) (sectionName : String) : Option String :=
  let start := (name ++ middle).toList
  let rest := (sectionName.toList.drop start.length).takeWhile (· ≠ '\n')
  if start <+: sectionName.toList ∧ rest ≠ [] then some (String.ofList (start ++ rest)) else none

/-- The installations of the sections that the pattern finds. -/
def installations (name middle : String) : List (Option Source) :=
  (conf.sections.filterMap (searchSection name middle)).map conf.processSourceInstallation

end ListConf

/-! ## The images -/

/-- `r'^FROM.*$'`. -/
def parentSearchPattern : List LinePattern.Item := LinePattern.chars "FROM".toList ++ [.star]

/-- `parent_name`; `none` is the `IndexError` of a line with one word. -/
def readParentName (content : String) : Option String :=
  match LinePattern.searchLine parentSearchPattern content.toList with
  | some line => ((line.splitOn ' ')[1]?).map String.ofList
  | none => some ""

/-- The image of one directory. -/
def newImage {ι : Type} (conf : ListConf) (file : Dockerfile) : Option (Image ι) :=
  let name := Path.basename file.path
  (readParentName file.content).map fun parentName =>
    { name := name
      canonicalName := conf.canonicalName name
      parentName := parentName
      status := .unprocessed
      parent := none
      children := []
      source := conf.processSourceInstallation name
      plugins := conf.installations name "-plugin-"
      additions := conf.installations name "-additions-" }

/-- `KollaWorker.build_image_list`. -/
def buildImageList {ι : Type} (conf : ListConf) (files : List Dockerfile) : Option (List (Image ι)) :=
  files.mapM (newImage conf)

/-- The images as objects: each is referred to by its place in the list. -/
def heapOf (images : List (Image ℕ)) : Heap ℕ := fun i => images.getD i (freshImage "" "" "")

/-- `self.images`. -/
def refsOf (images : List (Image ℕ)) : ImageList ℕ where
  refs := List.range images.length
  distinct := List.nodup_range

/-- The images with their links, before a filter. -/
def linkedImages (images : List (Image ℕ)) : Heap ℕ := findParents (heapOf images) (refsOf images).refs

/-! ## What the texts say -/

/-- The first line that begins with `FROM`. -/
def FromLine (content : String) (line : List Char) : Prop :=
  (content.toList.splitOn '\n').find? (fun line => decide ("FROM".toList <+: line)) = some line

/-- The Dockerfile is for an image that is built from the one with this name. -/
def FromNames (content name : String) : Prop :=
  ∃ line first rest, FromLine content line ∧ line.splitOn ' ' = first :: name.toList :: rest

/-- The last of the directories with its base name. -/
def Latest (files : List Dockerfile) (i : ℕ) : Prop :=
  ∃ file, files[i]? = some file ∧
    ∀ j, i < j → ∀ other, files[j]? = some other → Path.basename other.path ≠ Path.basename file.path

/-- Where no two directories have one base name, each is the last one. -/
theorem latest_of_nodup {files : List Dockerfile}
    (hnodup : (files.map fun file => Path.basename file.path).Nodup) {i : ℕ} {file : Dockerfile}
    (hi : files[i]? = some file) : Latest files i := by
  refine ⟨file, hi, fun j hj other hother hbase => ?_⟩
  have hlt : i < (files.map fun file => Path.basename file.path).length := by
    rw [List.length_map]
    exact (List.getElem?_eq_some_iff.mp hi).1
  have heq : i = j := by
    refine (List.getElem?_inj hlt hnodup).mp ?_
    rw [List.getElem?_map, List.getElem?_map, hi, hother, Option.map_some, Option.map_some, hbase]
  omega

theorem search_parent (content : String) :
    LinePattern.searchLine parentSearchPattern content.toList
      = (content.toList.splitOn '\n').find? fun line => decide ("FROM".toList <+: line) :=
  LinePattern.searchLine_chars_star (by decide) content.toList

/-- `FROM` and what comes after the first blank. -/
theorem fromNames_iff {content name : String} (hname : name ≠ "") :
    FromNames content name ↔ readParentName content = some name := by
  unfold FromNames FromLine
  rw [readParentName, search_parent]
  cases hline : (content.toList.splitOn '\n').find? fun line => decide ("FROM".toList <+: line) with
  | none =>
    constructor
    · rintro ⟨line, first, rest, hfrom, -⟩
      cases hfrom
    · intro h
      exact absurd (Option.some.inj h).symm hname
  | some line =>
    have hword : ((line.splitOn ' ')[1]?).map String.ofList = some name ↔
        ∃ first rest, line.splitOn ' ' = first :: name.toList :: rest := by
      match line.splitOn ' ' with
      | [] => simp
      | [first] => simp
      | first :: word :: rest => simp [← String.toList_inj]
    dsimp only
    rw [hword]
    constructor
    · rintro ⟨line', first, rest, hfrom, hsplit⟩
      cases hfrom
      exact ⟨first, rest, hsplit⟩
    · rintro ⟨first, rest, hsplit⟩
      exact ⟨line, first, rest, rfl, hsplit⟩

/-- A text is one word if there is no blank in it. -/
theorem second_word_eq_none {line : List Char} : (line.splitOn ' ')[1]? = none ↔ ' ' ∉ line := by
  constructor
  · intro h hmem
    obtain ⟨word, rest, rfl, hword⟩ := List.eq_append_cons_of_mem hmem
    rw [List.splitOn_append_cons_self_of_not_mem hword] at h
    obtain ⟨next, more, hnext⟩ := List.exists_cons_of_ne_nil (List.splitOn_ne_nil ' ' rest)
    rw [hnext] at h
    cases h
  · intro h
    rw [List.splitOn_eq_singleton h]
    rfl

/-- The Dockerfiles that stop `build_image_list`. -/
theorem readParentName_eq_none {content : String} :
    readParentName content = none ↔ ∃ line, FromLine content line ∧ ' ' ∉ line := by
  unfold FromLine
  rw [readParentName, search_parent]
  cases hline : (content.toList.splitOn '\n').find? fun line => decide ("FROM".toList <+: line) with
  | none => simp
  | some line =>
    dsimp only
    rw [Option.map_eq_none_iff, second_word_eq_none]
    simp

/-! ## The list -/

section List

variable {conf : ListConf} {files : List Dockerfile} {images : List (Image ℕ)}

theorem newImage_eq_some {file : Dockerfile} {image : Image ℕ} (h : newImage conf file = some image) :
    image.name = Path.basename file.path ∧
      image.canonicalName = conf.canonicalName (Path.basename file.path) ∧
      readParentName file.content = some image.parentName ∧ image.status = .unprocessed ∧
      image.parent = none ∧ image.children = [] := by
  obtain ⟨parentName, hparent, rfl⟩ := Option.map_eq_some_iff.mp h
  exact ⟨rfl, rfl, hparent, rfl, rfl, rfl⟩

theorem mapM_get {α γ : Type} {f : α → Option γ} {xs : List α} {ys : List γ}
    (h : xs.mapM f = some ys) (i : ℕ) : ys[i]? = xs[i]?.bind f := by
  induction xs generalizing ys i with
  | nil =>
    cases h
    rfl
  | cons x xs ih =>
    obtain ⟨y, zs, hy, hzs, rfl⟩ := mapM_cons_eq_some.mp h
    cases i with
    | zero => simp [hy]
    | succ i => simpa using ih hzs i

theorem length_of_mapM {α γ : Type} {f : α → Option γ} {xs : List α} {ys : List γ}
    (h : xs.mapM f = some ys) : ys.length = xs.length := by
  induction xs generalizing ys with
  | nil =>
    cases h
    rfl
  | cons x xs ih =>
    obtain ⟨y, zs, -, hzs, rfl⟩ := mapM_cons_eq_some.mp h
    simpa using ih hzs

theorem mapM_eq_none {α γ : Type} {f : α → Option γ} {xs : List α} :
    xs.mapM f = none ↔ ∃ x ∈ xs, f x = none := by
  induction xs with
  | nil => simp
  | cons x xs ih =>
    rw [List.mapM_cons]
    cases hx : f x with
    | none => simp [hx]
    | some y =>
      cases hxs : xs.mapM f with
      | none => simpa [hxs, hx] using ih.mp hxs
      | some ys =>
        have hall : ¬ ∃ x ∈ xs, f x = none := by
          rw [← ih, hxs]
          simp
        simpa [hxs, hx] using hall

/-- The image of a directory stands where the directory stands. -/
theorem image_get (h : buildImageList conf files = some images) {i : ℕ} {image : Image ℕ}
    (hi : images[i]? = some image) : ∃ file, files[i]? = some file ∧ newImage conf file = some image := by
  rw [mapM_get h i, Option.bind_eq_some_iff] at hi
  exact hi

theorem heapOf_get (h : buildImageList conf files = some images) {i : ℕ} {file : Dockerfile}
    (hi : files[i]? = some file) : newImage conf file = some (heapOf images i) := by
  have hget := mapM_get h i
  have hlt : i < images.length := by
    rw [length_of_mapM h]
    exact (List.getElem?_eq_some_iff.mp hi).1
  rw [hi, List.getElem?_eq_getElem hlt] at hget
  rw [heapOf, List.getD_eq_getElem _ _ hlt]
  exact hget.symm

/-- The images have no links yet, and their statuses are `UNPROCESSED`. -/
theorem fresh_heapOf (h : buildImageList conf files = some images) : Fresh (heapOf images) := by
  have hall : ∀ i, (heapOf images i).status = .unprocessed ∧ (heapOf images i).parent = none ∧
      (heapOf images i).children = [] := by
    intro i
    unfold heapOf
    cases hi : images[i]? with
    | none =>
      rw [List.getD_eq_getElem?_getD, hi]
      exact ⟨rfl, rfl, rfl⟩
    | some image =>
      obtain ⟨file, -, hnew⟩ := image_get h hi
      rw [List.getD_eq_getElem?_getD, hi]
      exact (newImage_eq_some hnew).2.2.2
  exact ⟨fun i => (hall i).1, fun i => (hall i).2.1, fun i => (hall i).2.2⟩

/-! ### The names of `find_parents` -/

/-- Of the images with one canonical name, `sort_images` has the last one. -/
theorem mem_sortImages_range (image : Heap ℕ) (n i : ℕ) (name : String) :
    (name, i) ∈ sortImages image (List.range n) ↔
      i < n ∧ (image i).canonicalName = name ∧
        ∀ j, i < j → j < n → (image j).canonicalName ≠ name := by
  induction n with
  | zero => simp [sortImages]
  | succ n ih =>
    have hsnoc : sortImages image (List.range (n + 1))
        = (sortImages image (List.range n)).insert (image n).canonicalName n := by
      rw [List.range_succ, sortImages, List.foldl_append]
      rfl
    rw [hsnoc, Dict.mem_insert (sortImages_keys_nodup image _), ih]
    constructor
    · rintro (heq | ⟨⟨hlt, hname, hlast⟩, hne⟩)
      · cases heq
        exact ⟨Nat.lt_succ_self _, rfl, fun j hj hjn => by omega⟩
      · refine ⟨by omega, hname, fun j hj hjn => ?_⟩
        by_cases hjn' : j = n
        · rw [hjn']
          exact hne.symm
        · exact hlast j hj (by omega)
    · rintro ⟨hlt, hname, hlast⟩
      by_cases hin : i = n
      · rw [hin] at hname
        exact Or.inl (by rw [hin, hname])
      · have hlt' : i < n := by omega
        refine Or.inr ⟨⟨hlt', hname, fun j hj hjn => hlast j hj (by omega)⟩, ?_⟩
        exact (hlast n hlt' (Nat.lt_succ_self n)).symm

theorem canonicalName_inj {a b : String} : conf.canonicalName a = conf.canonicalName b ↔ a = b := by
  constructor
  · intro h
    unfold ListConf.canonicalName at h
    simp only [← String.toList_inj, String.toList_append] at h ⊢
    exact List.append_cancel_left (List.append_cancel_right (List.append_cancel_right h))
  · rintro rfl
    rfl

theorem canonicalName_ne_empty (name : String) : conf.canonicalName name ≠ "" := by
  intro h
  have hlist := congrArg String.toList h
  unfold ListConf.canonicalName at hlist
  simp [String.toList_append] at hlist

theorem mem_sortImages_iff (h : buildImageList conf files = some images) {name : String} {i : ℕ} :
    (name, i) ∈ sortImages (heapOf images) (refsOf images).refs ↔
      Latest files i ∧ ∃ file, files[i]? = some file ∧
        name = conf.canonicalName (Path.basename file.path) := by
  have hname : ∀ {j other}, files[j]? = some other →
      (heapOf images j).canonicalName = conf.canonicalName (Path.basename other.path) :=
    fun hj => (newImage_eq_some (heapOf_get h hj)).2.1
  have hlen := length_of_mapM h
  unfold refsOf Latest
  dsimp only
  rw [mem_sortImages_range, hlen]
  constructor
  · rintro ⟨hlt, rfl, hlast⟩
    have hi := List.getElem?_eq_getElem hlt
    refine ⟨⟨_, hi, fun j hj other hother hbase => ?_⟩, _, hi, hname hi⟩
    have hjn : j < files.length := (List.getElem?_eq_some_iff.mp hother).1
    refine hlast j hj hjn ?_
    rw [hname hother, hname hi, hbase]
  · rintro ⟨⟨file, hi, hlast⟩, file', hi', rfl⟩
    obtain rfl : file = file' := Option.some.inj (hi.symm.trans hi')
    refine ⟨(List.getElem?_eq_some_iff.mp hi).1, hname hi, fun j hj hjn hbase => ?_⟩
    have hother := List.getElem?_eq_getElem hjn
    rw [hname hother, canonicalName_inj] at hbase
    exact hlast j hj _ hother hbase

/-- The parent of an image is the one that its Dockerfile names. -/
theorem linkedImages_parent (h : buildImageList conf files = some images) {x p : ℕ} :
    (linkedImages images x).parent = some p ↔
      Latest files x ∧ Latest files p ∧ ∃ file base, files[x]? = some file ∧ files[p]? = some base ∧
        FromNames file.content (conf.canonicalName (Path.basename base.path)) := by
  rw [linkedImages, findParents_parent (fresh_heapOf h), mem_sortImages_iff h, Dict.values,
    List.mem_map]
  have hfrom : ∀ {file base : Dockerfile}, files[x]? = some file →
      ((heapOf images x).parentName = conf.canonicalName (Path.basename base.path) ↔
        FromNames file.content (conf.canonicalName (Path.basename base.path))) := by
    intro file base hx
    rw [fromNames_iff (canonicalName_ne_empty _), (newImage_eq_some (heapOf_get h hx)).2.2.1]
    simp
  constructor
  · rintro ⟨⟨⟨name, i⟩, hmem, rfl⟩, hp, base, hbase, hname⟩
    obtain ⟨hx, file, hfile, -⟩ := (mem_sortImages_iff h).mp hmem
    exact ⟨hx, hp, file, base, hfile, hbase, (hfrom hfile).mp hname⟩
  · rintro ⟨hx, hp, file, base, hfile, hbase, hname⟩
    exact ⟨⟨(_, x), (mem_sortImages_iff h).mpr ⟨hx, file, hfile, rfl⟩, rfl⟩, hp, base, hbase,
      (hfrom hfile).mpr hname⟩

/-- The links of the images for every list of Dockerfiles, and the lists that are an
`IndexError`. -/
theorem image_links (conf : ListConf) (files : List Dockerfile) :
    ((buildImageList conf files : Option (List (Image ℕ))) = none ↔
        ∃ file ∈ files, ∃ line, FromLine file.content line ∧ ' ' ∉ line) ∧
      ∀ images, buildImageList conf files = some images → images.length = files.length ∧
        ∀ x p, (linkedImages images x).parent = some p ↔
          Latest files x ∧ Latest files p ∧ ∃ file base, files[x]? = some file ∧
            files[p]? = some base ∧
            FromNames file.content (conf.canonicalName (Path.basename base.path)) := by
  constructor
  · rw [buildImageList, mapM_eq_none]
    simp only [newImage, Option.map_eq_none_iff, readParentName_eq_none]
  · exact fun images h => ⟨length_of_mapM h, fun x p => linkedImages_parent h⟩

/-! ## A run of the workers -/

/-- In a run over the images of some Dockerfiles, an image whose `FROM` names another
one of them is begun when that one is skipped or built. -/
theorem from_discipline (h : buildImageList conf files = some images) {filter : FilterConf} {fuel : ℕ}
    {image : Heap ℕ}
    (hfilter : filterImages filter fuel (refsOf images).refs (linkedImages images) = .ok (some image))
    {buildConf : Conf} {s : Sys ℕ}
    (hr : Reachable (step buildConf image) (initial image (refsOf images).refs) s) {i x k p : ℕ}
    (hpc : s.worker i = .running (.build x) k .enter) (hx : Latest files x) (hp : Latest files p)
    {file base : Dockerfile} (hfile : files[x]? = some file) (hbase : files[p]? = some base)
    (hfrom : FromNames file.content (conf.canonicalName (Path.basename base.path))) :
    s.status p = .skipped ∨ .ended (.build p) true ∈ s.log := by
  have hprep : Prepared (refsOf images) image := ⟨_, filter, fuel, fresh_heapOf h, hfilter⟩
  have hparent : (image x).parent = some p := by
    have hframe := filterImages_frame (findParents_linked (fresh_heapOf h) _) hfilter
    rw [hframe.statusOnly.parent]
    exact (linkedImages_parent h).mpr ⟨hx, hp, file, base, hfile, hbase, hfrom⟩
  have hacc := account hprep.linked (refsOf images).distinct hr
  rcases hacc.entered (issued_of_running hr hpc) with hnone | ⟨q, hq, hdone⟩
  · rw [hnone] at hparent
    cases hparent
  · rw [hparent] at hq
    cases hq
    exact hdone

end List

/-! ## A small run

`nova` and `cinder` are built from `base`, which is not among the images that are
asked for by name. -/

def sampleListConf : ListConf where
  registry := some "quay.io"
  namespaceName := "openstack"
  imagePrefix := ""
  tag := "1"
  sections := ["nova", "nova-plugin-blazar"]
  options := fun _ => ⟨none, "", "", true, []⟩

def sampleFiles : List Dockerfile :=
  [⟨["docker", "nova", "nova"], "# nova\nFROM quay.io/openstack/base:1\nRUN true"⟩,
    ⟨["docker", "base"], "FROM quay.io/centos:stream9 AS base\n"⟩,
    ⟨["docker", "cinder"], "FROM quay.io/openstack/base:1\n"⟩]

/-- The images of the sample files. -/
def sampleList : List (Image ℕ) := (buildImageList sampleListConf sampleFiles).getD []

theorem buildImageList_sample : buildImageList sampleListConf sampleFiles = some sampleList := by
  have hsome : (buildImageList sampleListConf sampleFiles : Option (List (Image ℕ))).isSome = true := by
    decide +kernel
  obtain ⟨images, himages⟩ := Option.isSome_iff_exists.mp hsome
  rw [sampleList, himages]
  rfl

theorem image_links_sample : sampleList.length = 3 ∧
    ∀ x p, (linkedImages sampleList x).parent = some p ↔
      Latest sampleFiles x ∧ Latest sampleFiles p ∧ ∃ file base, sampleFiles[x]? = some file ∧
        sampleFiles[p]? = some base ∧
        FromNames file.content (sampleListConf.canonicalName (Path.basename base.path)) :=
  (image_links sampleListConf sampleFiles).2 _ buildImageList_sample

/-- The images of the sample files after `filter_images`. -/
def sampleListImage : Heap ℕ :=
  match filterImages sampleConf 4 (refsOf sampleList).refs (linkedImages sampleList) with
  | .ok (some h) => h
  | _ => linkedImages sampleList

theorem filterImages_sample :
    filterImages sampleConf 4 (refsOf sampleList).refs (linkedImages sampleList)
      = .ok (some sampleListImage) := by
  have hsome : ((filterImages sampleConf 4 (refsOf sampleList).refs (linkedImages sampleList)).toOption.bind
      id).isSome = true := by
    decide +kernel
  unfold sampleListImage
  cases h : filterImages sampleConf 4 (refsOf sampleList).refs (linkedImages sampleList) with
  | error message =>
    rw [h] at hsome
    cases hsome
  | ok result =>
    cases result with
    | none =>
      rw [h] at hsome
      cases hsome
    | some image => rfl

theorem from_discipline_sample :
    ∃ s, Reachable (step sampleBuildConf sampleListImage)
        (initial sampleListImage (refsOf sampleList).refs) s ∧
      s.worker 0 = .running (.build 0) 0 .enter ∧
      (s.status 1 = .skipped ∨ .ended (.build 1) true ∈ s.log) := by
  obtain ⟨s, hr, hpc⟩ := exists_reachable (step sampleBuildConf sampleListImage)
    (s := initial sampleListImage (refsOf sampleList).refs) [.worker 0 .none, .worker 0 .none]
    (f := fun s => s.worker 0) (b := .running (.build 0) 0 .enter) (by decide +kernel)
  have hnodup : (sampleFiles.map fun file => Path.basename file.path).Nodup := by decide
  have hx : Latest sampleFiles 0 := latest_of_nodup hnodup rfl
  have hp : Latest sampleFiles 1 := latest_of_nodup hnodup rfl
  have hfrom : FromNames "# nova\nFROM quay.io/openstack/base:1\nRUN true"
      (sampleListConf.canonicalName "base") :=
    (fromNames_iff (canonicalName_ne_empty _)).mpr (by decide +kernel)
  exact ⟨s, hr, hpc, from_discipline buildImageList_sample filterImages_sample hr hpc hx hp rfl rfl hfrom⟩

end Kolla.Build
