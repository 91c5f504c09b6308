import Kolla.Lib.Dict
import Kolla.Build.Utils
import Mathlib.Logic.Function.Basic
import Mathlib.Data.List.Basic

/-!
# Images and their selection

`kolla/image/kolla_worker.py`: the images of one run, the links that
`find_parents` draws between them and the statuses that `filter_images`
gives them.

Python objects refer to each other, so the images live in a heap: `ι` is
the type of object references and `Heap ι` maps a reference to the fields
behind it.  `self.images` is a list of references.

A loop that walks from an image to its ancestors has no bound of its own.
It takes fuel, and `none` means that the fuel ran out.
-/

namespace Kolla.Build

open Kolla.Lib

/-- `type` of a source section. -/
inductive SourceType
  | url
  | git
  | local
  deriving DecidableEq, Repr

/-- A source, plugin or addition, as `process_source_installation` of
`build_image_list` fills it in.  A section without a `type` gives the
empty dictionary, which is `none` where an installation is stored. -/
structure Source where
  name : String
  type : SourceType
  source : String
  reference : String
  enabled : Bool
  sha256 : Dict String String

/-- `Image`. -/
structure Image (ι : Type) where
  name : String
  canonicalName : String
  parentName : String
  status : Status
  parent : Option ι
  children : List ι
  source : Option Source
  plugins : List (Option Source)
  additions : List (Option Source)

/-- The image objects behind their references. -/
abbrev Heap (ι : Type) := ι → Image ι

/-- `self.images`: the image objects in the order of `build_image_list`,
which creates a new object for every directory. -/
structure ImageList (ι : Type) where
  refs : List ι
  distinct : refs.Nodup

/-- The images as `build_image_list` leaves them: no links yet and every
status `UNPROCESSED`. -/
structure Fresh {ι : Type} (h : Heap ι) : Prop where
  status : ∀ x, (h x).status = .unprocessed
  parent : ∀ x, (h x).parent = none
  children : ∀ x, (h x).children = []

section Links

variable {ι : Type} [DecidableEq ι]

/-- `image.status = status`. -/
def Heap.setStatus (h : Heap ι) (x : ι) (status : Status) : Heap ι :=
  Function.update h x { h x with status := status }

/-- `parent.children.append(image); image.parent = parent`. -/
def Heap.link (h : Heap ι) (parent image : ι) : Heap ι :=
  let h := Function.update h parent
    { h parent with children := (h parent).children ++ [image] }
  Function.update h image { h image with parent := some parent }

/-- The dictionary `sort_images` of `find_parents`.  Of two images with one
canonical name only the later one is in it. -/
def sortImages (h : Heap ι) (images : List ι) : Dict String ι :=
  images.foldl (fun d x => d.insert (h x).canonicalName x) []

/-- The inner loop of `find_parents`. -/
def linkChildren (h : Heap ι) (parentName : String) (parent : ι) (images : List ι) : Heap ι :=
  images.foldl (fun h image =>
    if (h image).parentName = parentName then h.link parent image else h) h

/-- `KollaWorker.find_parents`. -/
def findParents (h : Heap ι) (images : List ι) : Heap ι :=
  let sortImages := sortImages h images
  sortImages.foldl (fun h item => linkChildren h item.1 item.2 sortImages.values) h

end Links

/-! ## The selection of `filter_images` -/

/-- The configuration that `filter_images` reads.  `search` is
`re.search` of the alternatives in a name, and `inEngineCache` is what
`Image.in_engine_cache` answers for a canonical name. -/
structure FilterConf where
  regex : List String
  profile : List String
  profiles : String → List String
  base : String
  baseArch : String
  enableUnbuildable : Bool
  unbuildableImages : Dict String (List String)
  search : List String → String → Bool
  skipExisting : Bool
  skipParents : Bool
  inEngineCache : String → Bool

/-- The list `filter_`.  A profile without images is a `ValueError`. -/
def filterPatterns (conf : FilterConf) : Except String (List String) :=
  if conf.regex ≠ [] then
    .ok conf.regex
  else
    conf.profile.foldlM (fun patterns profile =>
      if conf.profiles profile = [] then
        .error ("Profile: " ++ profile ++ " does not exist")
      else
        .ok (patterns ++ conf.profiles profile)) []

/-- `tag_re`: the tag is a `+`-separated list of the base and the
architecture. -/
def tagMatches (conf : FilterConf) (tag : String) : Bool :=
  (tag.toList.splitOn '+').all fun element =>
    element = conf.base.toList || element = conf.baseArch.toList

/-- The set `unbuildable_images`. -/
def unbuildableNames (conf : FilterConf) : List String :=
  if conf.enableUnbuildable then []
  else (conf.unbuildableImages.filter fun item => tagMatches conf item.1).flatMap Prod.snd

section Filter

variable {ι : Type} [DecidableEq ι]

/-- The walk to the ancestors in the first pass: whether the image can be
built, and the heap in which the ancestor that stopped the walk is marked. -/
def checkAncestors (names : List String) : ℕ → Heap ι → ι → Option (Heap ι × Bool)
  | 0, _, _ => none
  | fuel + 1, h, x =>
    match (h x).parent with
    | none => some (h, true)
    | some p =>
      if (h p).name ∈ names ∨ (h p).status = .unbuildable then
        some (h.setStatus p .unbuildable, false)
      else
        checkAncestors names fuel h p

/-- The first pass for one image. -/
def markUnbuildable (names : List String) (fuel : ℕ) (h : Heap ι) (x : ι) : Option (Heap ι) :=
  if (h x).name ∈ names then
    some (h.setStatus x .unbuildable)
  else do
    let (h, buildImage) ← checkAncestors names fuel h x
    return if buildImage then h else h.setStatus x .unbuildable

/-- The walk to the ancestors in the second pass. -/
def matchAncestors : ℕ → Heap ι → ι → Option (Heap ι)
  | 0, _, _ => none
  | fuel + 1, h, x =>
    match (h x).parent with
    | none => some h
    | some p =>
      if (h p).status ≠ .matched then
        matchAncestors fuel (h.setStatus p .matched) p
      else
        some h

/-- The second pass for one image, with a filter. -/
def markMatched (search : String → Bool) (fuel : ℕ) (h : Heap ι) (x : ι) : Option (Heap ι) :=
  if (h x).status ∈ [.matched, .unbuildable] then
    some h
  else if search (h x).name then
    matchAncestors fuel (h.setStatus x .matched) x
  else
    some (h.setStatus x .unmatched)

/-- The second pass for one image, without a filter. -/
def markAll (h : Heap ι) (x : ι) : Heap ι :=
  if (h x).status ≠ .unbuildable then h.setStatus x .matched else h

/-- The third pass for one image. -/
def markSkipped (conf : FilterConf) (h : Heap ι) (x : ι) : Heap ι :=
  if (h x).status ≠ .matched then
    h
  else if conf.skipExisting && conf.inEngineCache (h x).canonicalName then
    h.setStatus x .skipped
  else if conf.skipParents && !(h x).children.isEmpty then
    h.setStatus x .skipped
  else
    h

/-- The first pass: "mark unbuildable images and their children". -/
def firstPass (conf : FilterConf) (fuel : ℕ) (images : List ι) (h : Heap ι) : Option (Heap ι) :=
  if unbuildableNames conf = [] then
    some h
  else
    images.foldlM (markUnbuildable (unbuildableNames conf) fuel) h

/-- The second pass: "determine which buildable images match". -/
def secondPass (conf : FilterConf) (patterns : List String) (fuel : ℕ) (images : List ι)
    (h : Heap ι) : Option (Heap ι) :=
  if patterns = [] then
    some (images.foldl markAll h)
  else
    images.foldlM (markMatched (conf.search patterns) fuel) h

/-- The third pass: "mark any skipped images". -/
def thirdPass (conf : FilterConf) (images : List ι) (h : Heap ι) : Heap ι :=
  images.foldl (markSkipped conf) h

/-- `KollaWorker.filter_images`.  The outer result is the `ValueError` of
an unknown profile, the inner one whether the fuel was enough. -/
def filterImages (conf : FilterConf) (fuel : ℕ) (images : List ι) (h : Heap ι) :
    Except String (Option (Heap ι)) :=
  match filterPatterns conf with
  | .error message => .error message
  | .ok patterns =>
    .ok <| (firstPass conf fuel images h).bind fun h =>
      (secondPass conf patterns fuel images h).map fun h => thirdPass conf images h

end Filter

end Kolla.Build
