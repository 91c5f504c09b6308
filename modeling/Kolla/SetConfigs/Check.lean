import Kolla.SetConfigs.Operations

/-!
# What a passing check says

`ConfigFile.check` walks over the source and compares what it meets with
the destination.  `check_sound` says what is known once it has raised
nothing: each file below a source directory has its counterpart, with its
content, the configured mode and the configured owner, and each directory
that leads to a file has a directory for a counterpart.

The walk never looks at the destination on its own, so the destination may
hold more.  `check_blind` is a check that passes with an entry too many and
a directory missing.
-/

namespace Kolla.SetConfigs

open Kolla.Lib

variable {β : Type}

/-- A test that held for all elements of a list held for each, on the same
tree. -/
theorem allM_eq_true {α : Type} {f : α → Os β Bool} (hf : ∀ x, ReadOnly (f x)) {xs : List α}
    {w w' : World β} (h : xs.allM f w = .ok true w') :
    ∀ x ∈ xs, ∃ w₁ w₂, w₁.tree = w.tree ∧ f x w₁ = .ok true w₂ := by
  induction xs generalizing w with
  | nil =>
    intro x hx
    cases hx
  | cons y xs ih =>
    rw [List.allM_cons, bind_eq_ok] at h
    obtain ⟨b, w₁, hy, hrest⟩ := h
    cases b with
    | false =>
      rw [if_neg Bool.false_ne_true] at hrest
      exact absurd (pure_eq_ok.mp hrest).1 Bool.false_ne_true
    | true =>
      rw [if_pos rfl] at hrest
      intro x hx
      rcases List.mem_cons.mp hx with rfl | hx
      · exact ⟨w, w₁, rfl, hy⟩
      · obtain ⟨w₂, w₃, htree, hx₂⟩ := ih hrest x hx
        exact ⟨w₂, w₃, htree.trans ((hf y).tree_eq hy), hx₂⟩

namespace ConfigFile

variable {sys : System β} {self : ConfigFile}

/-- The owner of a node is the configured one. -/
def Owned (sys : System β) (self : ConfigFile) (a : Attr) : Prop :=
  ∃ owner, self.owner = some owner ∧ sys.userName a.uid = some (splitOwner owner).1 ∧
    sys.groupName a.gid = some (splitOwner owner).2

/-- The counterpart of a file: the same content under the configured mode
and owner. -/
def InPlace (sys : System β) (self : ConfigFile) (t : FileTree β) (source dest : Path) : Prop :=
  ∃ c a a', sys.look t source = some (.file c a) ∧ sys.look t dest = some (.file c a') ∧
    self.perm = some (actualPerm (.file c a')) ∧ Owned sys self a'

/-! ## Files -/

theorem readOnly_cmpOwner (n : Node β) : ReadOnly (self.cmpOwner sys n) := by
  refine Moves.bind (System.readOnly_userGroup _) fun r => ?_
  refine Moves.bind (System.readOnly_getpwuid _) fun actualUser => ?_
  refine Moves.ite (fun _ => Moves.pure _) fun _ => ?_
  exact Moves.bind (System.readOnly_getgrgid _) fun _ => Moves.pure _

theorem cmpOwner_eq_true {n : Node β} {w w' : World β}
    (h : self.cmpOwner sys n w = .ok true w') : Owned sys self n.attr := by
  obtain ⟨r, w₁, hr, h₁⟩ := bind_eq_ok.mp h
  obtain ⟨owner, howner, rfl, _⟩ := System.userGroup_eq_ok hr
  obtain ⟨user, w₂, huser, h₂⟩ := bind_eq_ok.mp h₁
  have hname := (System.getpwuid_eq_ok huser).1
  split at h₂
  · exact absurd (pure_eq_ok.mp h₂).1 Bool.false_ne_true
  · rename_i heq
    rw [ne_eq, not_not] at heq
    obtain ⟨group, w₃, hgroup, h₃⟩ := bind_eq_ok.mp h₂
    have hgname := (System.getgrgid_eq_ok hgroup).1
    obtain ⟨hdec, _⟩ := pure_eq_ok.mp h₃
    exact ⟨owner, howner, heq ▸ hname, of_decide_eq_true hdec ▸ hgname⟩

variable [DecidableEq β]

theorem readOnly_cmpFile (source dest : Path) : ReadOnly (self.cmpFile sys source dest) := by
  refine Moves.bind moves_tree fun t => ?_
  refine Moves.ite (fun _ => Moves.pure _) fun _ => ?_
  refine Moves.bind (System.readOnly_openRead _) fun f1 => ?_
  refine Moves.bind (System.readOnly_openRead _) fun f2 => ?_
  refine Moves.ite (fun _ => Moves.pure _) fun _ => ?_
  refine Moves.bind (System.readOnly_stat _) fun st => ?_
  exact Moves.ite (fun _ => Moves.pure _) fun _ => readOnly_cmpOwner st

theorem cmpFile_eq_true {source dest : Path} {w w' : World β}
    (h : self.cmpFile sys source dest w = .ok true w') :
    InPlace sys self w.tree source dest := by
  rw [cmpFile, tree_bind] at h
  split at h
  · exact absurd (pure_eq_ok.mp h).1 Bool.false_ne_true
  · obtain ⟨f1, w₁, h1, h⟩ := bind_eq_ok.mp h
    obtain ⟨f2, w₂, h2, h⟩ := bind_eq_ok.mp h
    have ht₁ := (System.readOnly_openRead _).tree_eq h1
    have ht₂ := ((System.readOnly_openRead _).tree_eq h2).trans ht₁
    obtain ⟨a, hsource⟩ := System.openRead_eq_ok h1
    obtain ⟨a', hdest⟩ := System.openRead_eq_ok h2
    rw [ht₁] at hdest
    split at h
    · exact absurd (pure_eq_ok.mp h).1 Bool.false_ne_true
    · rename_i hcontent
      rw [ne_eq, not_not] at hcontent
      subst hcontent
      obtain ⟨st, w₃, hst, h⟩ := bind_eq_ok.mp h
      have hlook := System.stat_eq_ok hst
      rw [ht₂, hdest] at hlook
      cases hlook
      split at h
      · exact absurd (pure_eq_ok.mp h).1 Bool.false_ne_true
      · rename_i hperm
        rw [ne_eq, not_not] at hperm
        exact ⟨f1, a, a', hsource, hdest, hperm, cmpOwner_eq_true h⟩

/-! ## Directories -/

omit [DecidableEq β] in
theorem readOnly_cmpSubdir (source dest root : Path) (dir_ : String) :
    ReadOnly (self.cmpSubdir sys source dest root dir_) :=
  Moves.bind (System.readOnly_stat _) fun _ => Moves.pure _

omit [DecidableEq β] in
theorem readOnly_cmp_subdirs (source dest root : Path) (dirs : List String) :
    ReadOnly (dirs.allM (self.cmpSubdir sys source dest root)) :=
  Moves.allM fun x _ => readOnly_cmpSubdir source dest root x

theorem readOnly_cmpLevel (source dest : Path) (e : Path × List String × List String) :
    ReadOnly (self.cmpLevel sys source dest e) := by
  refine Moves.bind (readOnly_cmp_subdirs _ _ _ _) fun ok => ?_
  refine Moves.ite (fun _ => ?_) fun _ => Moves.pure _
  exact Moves.allM fun x _ => readOnly_cmpFile _ _

theorem readOnly_cmpDir (source dest : Path) : ReadOnly (self.cmpDir sys source dest) :=
  Moves.bind moves_tree fun _ => Moves.allM fun e _ => readOnly_cmpLevel source dest e

/-- Every entry below the source that is not a directory is in place. The
path of its counterpart is the one that the program computes. -/
theorem cmpDir_eq_true {source dest : Path} {w w' : World β} {loc : Loc} {a : Attr}
    (h : self.cmpDir sys source dest w = .ok true w')
    (hfind : sys.find w.tree true source = .found loc (.dir a)) {rel : Loc} {n : Node β}
    (hrel : rel ≠ []) (hn : w.tree.lookup (loc ++ rel) = some n)
    (hfile : sys.isdir w.tree (Path.under source rel) = false) :
    InPlace sys self w.tree (Path.under source rel) (Path.under dest rel) := by
  obtain ⟨rel, x, rfl⟩ := (List.eq_nil_or_concat' rel).resolve_left hrel
  have hnames : ∀ y ∈ rel ++ [x], IsName y :=
    fun y hy => FileTree.isName_of_lookup hn y (List.mem_append_right _ hy)
  rw [← List.append_assoc] at hn
  obtain ⟨e, he, htop, hx⟩ := System.mem_walk hfind hn
  rw [hfile, if_neg Bool.false_ne_true] at hx
  rw [cmpDir, tree_bind] at h
  obtain ⟨w₁, w₂, ht₁, he'⟩ := allM_eq_true (readOnly_cmpLevel source dest) h e he
  obtain ⟨ok, w₃, hok, he'⟩ := bind_eq_ok.mp he'
  have ht₃ := (readOnly_cmp_subdirs source dest e.1 e.2.1).tree_eq hok
  cases ok with
  | false =>
    rw [if_neg Bool.false_ne_true] at he'
    exact absurd (pure_eq_ok.mp he').1 Bool.false_ne_true
  | true =>
    rw [if_pos rfl] at he'
    obtain ⟨w₄, w₅, ht₄, hcmp⟩ := allM_eq_true (fun x => readOnly_cmpFile _ _) he' x hx
    have hplace := cmpFile_eq_true hcmp
    rw [ht₄, ht₃, ht₁, htop, ← Path.under_concat] at hplace
    rwa [Path.relpath_under (by simp) hnames, ← Path.under_eq_join (by simp) hnames] at hplace

/-! ## The check -/

theorem readOnly_checkSource (source : Path) : ReadOnly (self.checkSource sys source) := by
  unfold checkSource
  split
  · exact Moves.throw _
  · refine Moves.bind moves_tree fun t => ?_
    exact Moves.ite (fun _ => readOnly_cmpDir _ _) fun _ => readOnly_cmpFile _ _

/-- A loop of the check that collected nothing passed on every source. -/
theorem bad_state_nil {sources : List Path} {bad : List Path} {w w' : World β}
    (h : sources.foldlM (self.checkStep sys) bad w = .ok [] w') :
    bad = [] ∧ ∀ source ∈ sources, ∃ w₁ w₂, w₁.tree = w.tree ∧
      self.checkSource sys source w₁ = .ok true w₂ := by
  induction sources generalizing bad w with
  | nil =>
    rw [List.foldlM_nil] at h
    exact ⟨(pure_eq_ok.mp h).1, fun source hs => absurd hs (by simp)⟩
  | cons source sources ih =>
    rw [List.foldlM_cons] at h
    obtain ⟨bad', w₁, hbody, h⟩ := bind_eq_ok.mp h
    obtain ⟨ok, w₂, hok, hbody⟩ := bind_eq_ok.mp hbody
    obtain ⟨rfl, rfl⟩ := pure_eq_ok.mp hbody
    obtain ⟨hbad, hrest⟩ := ih h
    cases ok with
    | false => simp at hbad
    | true =>
      rw [if_pos rfl] at hbad
      refine ⟨hbad, fun s hs => ?_⟩
      rcases List.mem_cons.mp hs with rfl | hs
      · exact ⟨w, w₂, rfl, hok⟩
      · obtain ⟨w₃, w₄, ht, hs⟩ := hrest s hs
        exact ⟨w₃, w₄, ht.trans ((readOnly_checkSource source).tree_eq hok), hs⟩

theorem check_eq_ok {pattern : Path} {w w' : World β} (hsource : self.source = some pattern)
    (h : self.check sys w = .ok () w') {source : Path}
    (hs : source ∈ sys.glob w.tree pattern) :
    ∃ w₁ w₂, w₁.tree = w.tree ∧ self.checkSource sys source w₁ = .ok true w₂ := by
  unfold check at h
  rw [hsource] at h
  dsimp only at h
  rw [tree_bind] at h
  split at h
  · rename_i hnil
    rw [hnil] at hs
    cases hs
  · obtain ⟨bad, w₁, hloop, h⟩ := bind_eq_ok.mp h
    split at h
    · exact absurd h throw_ne_ok
    · rename_i hbad
      rw [ne_eq, not_not] at hbad
      subst hbad
      exact (bad_state_nil hloop).2 source hs

/-- A check that raised nothing, for a source that is a directory: every
regular file below it, and every link below it that leads to no directory,
is in place; and what leads to a file has a directory for a counterpart. -/
theorem check_sound {pattern dest : Path} (hsource : self.source = some pattern)
    (hdest : self.dest = some dest) {w w' : World β} (h : self.check sys w = .ok () w')
    {source : Path} (hs : source ∈ sys.glob w.tree pattern) {loc : Loc} {a : Attr}
    (hdir : sys.find w.tree true source = .found loc (.dir a)) :
    (∀ rel c b, w.tree.lookup (loc ++ rel) = some (.file c b) →
      ∃ b', sys.look w.tree (Path.under (target dest source) rel) = some (.file c b') ∧
        self.perm = some (actualPerm (.file c b')) ∧ Owned sys self b') ∧
    (∀ rel path, w.tree.lookup (loc ++ rel) = some (.link path) →
      sys.isdir w.tree (Path.under source rel) = false →
      InPlace sys self w.tree (Path.under source rel) (Path.under (target dest source) rel)) ∧
    (∀ rel below c b, rel ≠ [] → below ≠ [] →
      w.tree.lookup (loc ++ rel ++ below) = some (.file c b) →
      sys.isdir w.tree (Path.under (target dest source) rel) = true) := by
  obtain ⟨w₁, w₂, ht₁, hcheck⟩ := check_eq_ok hsource h hs
  unfold checkSource at hcheck
  rw [hdest] at hcheck
  dsimp only at hcheck
  rw [tree_bind, ht₁, if_pos (System.isdir_iff.mpr ⟨loc, a, hdir⟩)] at hcheck
  have htop : w.tree.lookup loc = some (.dir a) := lookup_of_resolve hdir
  rw [← ht₁] at hdir htop
  -- a location with something else than a directory is not the source itself
  have hrel : ∀ rel n, w₁.tree.lookup (loc ++ rel) = some n → n.isDir = false → rel ≠ [] := by
    rintro rel n hn hdir rfl
    rw [List.append_nil, htop] at hn
    cases hn
    cases hdir
  have hfiles : ∀ rel c b, w₁.tree.lookup (loc ++ rel) = some (.file c b) →
      ∃ b', sys.look w₁.tree (Path.under (target dest source) rel) = some (.file c b') ∧
        self.perm = some (actualPerm (.file c b')) ∧ Owned sys self b' := by
    intro rel c b hn
    have hne := hrel rel _ hn rfl
    have hlook := System.look_of_find (@System.find_under _ _ _ true _ _ _ _ _ hdir hne hn
      fun _ => rfl)
    obtain ⟨c', b', b'', hc', hplace⟩ := cmpDir_eq_true hcheck hdir hne hn
      (by rw [System.isdir_eq_false hlook]; rfl)
    rw [hlook] at hc'
    cases hc'
    exact ⟨b'', hplace⟩
  rw [← ht₁]
  refine ⟨hfiles, fun rel path hn hfile => ?_, fun rel below c b hne hbelow hn => ?_⟩
  · exact cmpDir_eq_true hcheck hdir (hrel rel _ hn rfl) hn hfile
  · -- the counterpart of the file is reached through the counterpart of the directory
    rw [List.append_assoc] at hn
    obtain ⟨b', hlook, _⟩ := hfiles _ c b hn
    exact System.isdir_of_look_under hne hbelow
      (fun y hy => FileTree.isName_of_lookup hn y (List.mem_append_right _ hy)) hlook

end ConfigFile

/-! ## A check that passes too easily -/

/-- Contents for examples: a text, or a state as `json.dump` writes it. -/
abbrev Content := String ⊕ State

def contentCodec : Codec Content where
  empty := .inl ""
  encode := .inl
  dumps := .inr
  decode
    | .inl text => some (universalNewlines text)
    | .inr _ => none
  loads
    | .inl _ => none
    | .inr state => if state.keys.Nodup then some state else none
  decode_encode _ := rfl
  loads_dumps state h := if_pos h
  nodup_of_loads := by
    rintro (text | state) state' h
    · cases h
    · dsimp only at h
      split at h
      · cases h
        assumption
      · cases h
  loads_empty := rfl

/-- A container that runs as `root`. -/
def rootSystem : System Content where
  codec := contentCodec
  cwd := []
  umask := 0o022
  uid := 0
  gid := 0
  maxLinks := 40
  recursionLimit := 1000
  passwd := [("root", 0), ("nova", 42436)]
  group := [("root", 0), ("nova", 42436)]
  toAscii := id
  search _ _ := some false
  listed _ names := names
  listed_perm _ _ := List.Perm.refl _

def rootAttr (mode : BitVec 12) : Attr := ⟨mode, 0, 0⟩

def rootDir : Node Content := .dir (rootAttr 0o755)

def rootFile (text : String) : Node Content := .file (.inl text) (rootAttr 0o755)

/-- A source with a file and a directory, and a destination with the file
and another one. -/
def blindTree : FileTree Content where
  nodes :=
    [([], rootDir), (["src"], rootDir), (["src", "a"], rootFile "a"), (["src", "sub"], rootDir),
      (["etc"], rootDir), (["etc", "app"], rootDir), (["etc", "app", "a"], rootFile "a"),
      (["etc", "app", "extra"], rootFile "extra")]
  nodup := by decide
  root := by decide
  closed := by decide
  proper := by decide

def blindEntry : ConfigFile where
  source := some ["", "src"]
  dest := some ["", "etc", "app"]
  owner := some "root"
  perm := some "0755"
  optional := false
  preserveProperties := false
  merge := false

/-- The check passes although a subdirectory of the source is missing in the
destination and the destination has a file that the source has not. -/
theorem check_blind :
    (∃ w, blindEntry.check rootSystem ⟨blindTree, []⟩ = .ok () w) ∧
      blindTree.lookup ["src", "sub"] = some rootDir ∧
      blindTree.lookup ["etc", "app", "sub"] = none ∧
      blindTree.lookup ["etc", "app", "extra"] = some (rootFile "extra") ∧
      blindTree.lookup ["src", "extra"] = none := by
  refine ⟨?_, rfl, rfl, rfl, rfl⟩
  obtain ⟨_, w, h⟩ := exists_of_returned
    (r := blindEntry.check rootSystem ⟨blindTree, []⟩) (by decide +kernel)
  exact ⟨w, h⟩

/-- `check_sound` where the check passes. -/
theorem check_sound_blind :
    ∃ b', rootSystem.look blindTree ["", "etc", "app", "a"] = some (.file (.inl "a") b') ∧
      blindEntry.perm = some (actualPerm (.file (Sum.inl "a" : Content) b')) ∧
      ConfigFile.Owned rootSystem blindEntry b' := by
  obtain ⟨_, w, h⟩ := exists_of_returned
    (r := blindEntry.check rootSystem ⟨blindTree, []⟩) (by decide +kernel)
  have hsource : ["", "src"] ∈ rootSystem.glob blindTree ["", "src"] := by decide +kernel
  have hdir : rootSystem.find blindTree true ["", "src"] = .found ["src"] (.dir (rootAttr 0o755)) := by
    decide +kernel
  exact (@ConfigFile.check_sound _ _ blindEntry _ _ _ rfl rfl _ _ h _ hsource _ _ hdir).1
    ["a"] (.inl "a") (rootAttr 0o755) (by decide +kernel)

end Kolla.SetConfigs
