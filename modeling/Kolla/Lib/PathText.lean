import Kolla.Lib.Posix

/-!
# Normal path texts and textual prefixes

`absolute` is `os.path.abspath` as a text: one slash or exactly two, then
the components.  `startswith` is `str.startswith` on texts that are split at
their slashes (`startswith_iff` compares it with the texts themselves), and
`Within` is containment: the same path, or one below it.

A normal text that ends in a name is a textual prefix of another normal
text if it contains it, or if it contains one of its namesakes: a sibling
whose name is longer (`startswith_iff_prefix_or`).  A text that is not normal is a
prefix of no normal text (`normal_of_startswith`).
-/

namespace Kolla.Lib.Path

/-- `path.startswith('//') and not path.startswith('///')`. -/
def twoSlashes : Path → Bool
  | "" :: "" :: "" :: _ :: _ => false
  | "" :: "" :: _ :: _ => true
  | _ => false

/-- `os.path.abspath(path)`. -/
def absolute (cwd : Loc) (path : Path) : Path :=
  (if twoSlashes path then ["", ""] else [""]) ++
    (if abspath cwd path = [] then [""] else abspath cwd path)

/-- `text.startswith(path)`. -/
def startswith : Path → Path → Bool
  | _, [] => true
  | [], _ :: _ => false
  | x :: _, [y] => y.toList.isPrefixOf x.toList
  | x :: text, y :: path => decide (x = y) && startswith text path

/-- `os.path.abspath(path)` is that of `dir` or lies below it. -/
def Within (cwd : Loc) (dir path : Path) : Prop :=
  twoSlashes dir = twoSlashes path ∧ abspath cwd dir <+: abspath cwd path

instance (cwd : Loc) (dir path : Path) : Decidable (Within cwd dir path) :=
  inferInstanceAs (Decidable (_ ∧ _))

/-- `path` is one of the siblings of `dir` whose name goes on after that of
`dir`, or lies below one. -/
def Namesake (dir path : Path) : Prop :=
  ∃ name ∈ path[dir.length - 1]?, dir.dropLast <+: path ∧ name ≠ dir.basename ∧
    dir.basename.toList <+: name.toList

/-! ## The texts -/

/-- The characters of a path text. -/
def chars (path : Path) : List Char := ['/'].intercalate (path.map String.toList)

@[simp] theorem chars_singleton (x : String) : chars [x] = x.toList := by
  simp [chars]

@[simp] theorem chars_cons_cons (x y : String) (path : Path) :
    chars (x :: y :: path) = x.toList ++ '/' :: chars (y :: path) := by
  simp [chars, List.intercalate]

/-- Two words that end at the first slash. -/
theorem append_slash_prefix {a b : List Char} (ha : '/' ∉ a) (hb : '/' ∉ b) (c d : List Char) :
    a ++ '/' :: c <+: b ++ '/' :: d ↔ a = b ∧ c <+: d := by
  induction a generalizing b with
  | nil =>
    cases b with
    | nil => simp
    | cons y b =>
      have hy : '/' ≠ y := fun h => hb (h ▸ List.mem_cons_self)
      simp [hy]
  | cons x a ih =>
    have hx : x ≠ '/' := fun h => ha (h ▸ List.mem_cons_self)
    cases b with
    | nil => simp [hx]
    | cons y b =>
      have := @ih b (fun h => ha (List.mem_cons_of_mem _ h)) fun h => hb (List.mem_cons_of_mem _ h)
      simp only [List.cons_append, List.cons_prefix_cons, this, List.cons.injEq, and_assoc]

theorem prefix_append_slash {a b : List Char} (ha : '/' ∉ a) (d : List Char) :
    a <+: b ++ '/' :: d ↔ a <+: b := by
  induction a generalizing b with
  | nil => simp
  | cons x a ih =>
    have hx : x ≠ '/' := fun h => ha (h ▸ List.mem_cons_self)
    cases b with
    | nil => simp [hx]
    | cons y b =>
      have := @ih b fun h => ha (List.mem_cons_of_mem _ h)
      simp only [List.cons_append, List.cons_prefix_cons, this]

/-- On texts that are split at their slashes, `startswith` is the prefix
test on the characters. -/
theorem startswith_iff {text path : Path} (htext : text ≠ []) (hpath : path ≠ [])
    (hslash : ∀ x ∈ text ++ path, '/' ∉ x.toList) :
    startswith text path ↔ path.chars <+: text.chars := by
  fun_induction startswith text path with
  | case1 => exact absurd rfl hpath
  | case2 => exact absurd rfl htext
  | case3 x text y =>
    rw [List.isPrefixOf_iff_prefix, chars_singleton]
    cases text with
    | nil => rw [chars_singleton]
    | cons z text => rw [chars_cons_cons, prefix_append_slash (hslash y (by simp))]
  | case4 x text y path hlong ih =>
    obtain ⟨z, path, rfl⟩ := List.exists_cons_of_ne_nil fun h => hlong h
    have hy : '/' ∉ y.toList := hslash y (by simp)
    have hx : '/' ∉ x.toList := hslash x (by simp)
    rw [chars_cons_cons, Bool.and_eq_true, decide_eq_true_iff]
    cases text with
    | nil =>
      have hno : ¬ y.toList ++ '/' :: chars (z :: path) <+: x.toList := fun h =>
        hx (h.subset (by simp))
      simp [startswith, hno]
    | cons w text =>
      rw [chars_cons_cons, append_slash_prefix hy hx, String.toList_inj,
        ih (by simp) (by simp) fun v hv => hslash v (by simp at hv ⊢; tauto)]
      exact and_congr_left' eq_comm

/-! ## Normal texts -/

/-- One slash or two, then at least one component, all of them names. -/
def Normal (path : Path) : Prop :=
  ∃ names, names ≠ [] ∧ (∀ x ∈ names, IsName x) ∧ (path = "" :: names ∨ path = "" :: "" :: names)

theorem Normal.ne_nil {path : Path} (h : Normal path) : path ≠ [] := by
  obtain ⟨names, -, -, rfl | rfl⟩ := h <;> simp

theorem Normal.isabs {path : Path} (h : Normal path) : path.isabs = true := by
  obtain ⟨names, hne, -, rfl | rfl⟩ := h
  · obtain ⟨x, names, rfl⟩ := List.exists_cons_of_ne_nil hne
    rfl
  · rfl

theorem abspath_slash (cwd : Loc) {names : List String} (hne : names ≠ [])
    (hnames : ∀ x ∈ names, IsName x) :
    abspath cwd ("" :: names) = names ∧ abspath cwd ("" :: "" :: names) = names := by
  have habs : isabs ("" :: names) = true := Normal.isabs ⟨names, hne, hnames, .inl rfl⟩
  have hfold := foldl_absStep hnames []
  constructor
  · rw [abspath, habs]
    simpa [absStep] using hfold
  · simpa [abspath, isabs, absStep] using hfold

theorem twoSlashes_slash {names : List String} (hne : names ≠ []) (hnames : ∀ x ∈ names, IsName x) :
    twoSlashes ("" :: names) = false ∧ twoSlashes ("" :: "" :: names) = true := by
  obtain ⟨x, names, rfl⟩ := List.exists_cons_of_ne_nil hne
  have hx := (hnames x (by simp)).1
  constructor
  · cases names <;> simp [twoSlashes, hx]
  · cases names <;> simp [twoSlashes, hx]

/-- `os.path.abspath` leaves a normal text as it is. -/
theorem Normal.absolute {path : Path} (h : Normal path) (cwd : Loc) : path.absolute cwd = path := by
  obtain ⟨names, hne, hnames, rfl | rfl⟩ := h
  · rw [Path.absolute, (abspath_slash cwd hne hnames).1, (twoSlashes_slash hne hnames).1]
    simp [hne]
  · rw [Path.absolute, (abspath_slash cwd hne hnames).2, (twoSlashes_slash hne hnames).2]
    simp [hne]

theorem isName_foldl_absStep {loc : Loc} (hloc : ∀ x ∈ loc, IsName x) (path : Path) :
    ∀ x ∈ path.foldl absStep loc, IsName x := by
  induction path generalizing loc with
  | nil => exact hloc
  | cons y path ih =>
    refine ih fun x hx => ?_
    rw [absStep] at hx
    split_ifs at hx with hskip hup
    · exact hloc x hx
    · exact hloc x (List.dropLast_subset _ hx)
    · rcases List.mem_append.mp hx with hx | hx
      · exact hloc x hx
      · rw [List.mem_singleton.mp hx]
        exact ⟨fun h => hskip (.inl h), fun h => hskip (.inr h), hup⟩

/-- The components of an absolute path are names. -/
theorem isName_abspath {path : Path} (h : path.isabs = true) (cwd : Loc) :
    ∀ x ∈ abspath cwd path, IsName x := by
  rw [abspath, h]
  exact isName_foldl_absStep (by simp) path

/-- What `os.path.abspath` makes of an absolute path is normal, unless it is
the root. -/
theorem absolute_cases {path : Path} (h : path.isabs = true) (cwd : Loc) :
    Normal (path.absolute cwd) ∨
      path.absolute cwd = ["", ""] ∨ path.absolute cwd = ["", "", ""] := by
  rw [absolute]
  by_cases hnil : abspath cwd path = []
  · rw [if_pos hnil]
    cases twoSlashes path
    · exact .inr (.inl rfl)
    · exact .inr (.inr rfl)
  · rw [if_neg hnil]
    refine .inl ⟨_, hnil, isName_abspath h cwd, ?_⟩
    cases twoSlashes path
    · exact .inl rfl
    · exact .inr rfl

/-! ## Textual prefixes -/

/-- The components before the last one are the same, and the last one is a
prefix of the one that stands in its place. -/
theorem startswith_concat (text init : Path) (x : String) :
    startswith text (init ++ [x]) ↔
      ∃ name ∈ text[init.length]?, init <+: text ∧ x.toList <+: name.toList := by
  induction init generalizing text with
  | nil => cases text <;> simp [startswith, List.isPrefixOf_iff_prefix]
  | cons y init ih =>
    cases text with
    | nil => simp [startswith]
    | cons z text =>
      obtain ⟨w, path, hpath⟩ : ∃ w path, init ++ [x] = w :: path :=
        List.exists_cons_of_ne_nil (by simp)
      have hih := ih text
      rw [hpath] at hih
      rw [List.cons_append, hpath, startswith, Bool.and_eq_true, decide_eq_true_iff, hih]
      · simp only [List.length_cons, List.getElem?_cons_succ, List.cons_prefix_cons]
        constructor
        · rintro ⟨rfl, name, hname, hinit, hx⟩
          exact ⟨name, hname, ⟨rfl, hinit⟩, hx⟩
        · rintro ⟨name, hname, ⟨rfl, hinit⟩, hx⟩
          exact ⟨rfl, name, hname, hinit, hx⟩
      · simp

theorem concat_prefix_iff (text init : Path) (x : String) :
    init ++ [x] <+: text ↔ text[init.length]? = some x ∧ init <+: text := by
  constructor
  · rintro ⟨rest, rfl⟩
    simp
  · rintro ⟨hx, rest, rfl⟩
    obtain ⟨y, rest, rfl⟩ : ∃ y r, rest = y :: r := by
      cases rest with
      | nil => simp at hx
      | cons y rest => exact ⟨y, rest, rfl⟩
    obtain rfl : y = x := by simpa using hx
    exact ⟨rest, by simp⟩

/-- A path text is a textual prefix of what stands in or below it, and of
its namesakes. -/
theorem startswith_iff_prefix_or {text path : Path} (hpath : path ≠ []) :
    startswith text path ↔ path <+: text ∨ Namesake path text := by
  obtain ⟨init, x, rfl⟩ := (List.eq_nil_or_concat' path).resolve_left hpath
  rw [startswith_concat, concat_prefix_iff, Namesake]
  simp only [basename, List.length_append, List.length_singleton, Nat.add_sub_cancel,
    List.dropLast_concat, List.getLastD_concat, Option.mem_def]
  constructor
  · rintro ⟨name, hname, hinit, hx⟩
    by_cases heq : name = x
    · subst heq
      exact .inl ⟨hname, hinit⟩
    · exact .inr ⟨name, hname, hinit, heq, hx⟩
  · rintro (⟨hname, hinit⟩ | ⟨name, hname, hinit, -, hx⟩)
    · exact ⟨x, hname, hinit, List.prefix_rfl⟩
    · exact ⟨name, hname, hinit, hx⟩

theorem not_prefix_and_namesake {text path : Path} (hpath : path ≠ []) (h : path <+: text) :
    ¬ Namesake path text := by
  obtain ⟨init, x, rfl⟩ := (List.eq_nil_or_concat' path).resolve_left hpath
  rintro ⟨name, hname, -, hne, -⟩
  have hx := ((concat_prefix_iff _ _ _).mp h).1
  simp only [basename, List.length_append, List.length_singleton, Nat.add_sub_cancel,
    List.getLastD_concat, Option.mem_def, hx, Option.some.injEq] at hname hne
  exact hne hname.symm

/-- A text that ends in a name and is a textual prefix of what
`os.path.abspath` makes of an absolute path is normal. -/
theorem normal_of_startswith {cwd : Loc} {path dir : Path} (hpath : path.isabs = true)
    (hdir : IsName dir.basename) (h : startswith (path.absolute cwd) dir) : Normal dir := by
  have hne : dir ≠ [] := by
    rintro rfl
    exact hdir.1 rfl
  obtain ⟨init, x, rfl⟩ := (List.eq_nil_or_concat' dir).resolve_left hne
  have hx : IsName x := by simpa [basename] using hdir
  obtain ⟨name, hname, ⟨rest, hinit⟩, hprefix⟩ := (startswith_concat _ _ _).mp h
  -- an empty component has no name as a prefix
  have hname' : name ≠ "" := by
    rintro rfl
    exact hx.1 (String.toList_eq_nil_iff.mp (List.prefix_nil.mp hprefix))
  have hmem : name ∈ path.absolute cwd := List.mem_of_getElem? hname
  have hnames : ∀ {init' names : List String}, init' ++ rest = names → (∀ y ∈ names, IsName y) →
      ∀ y ∈ init' ++ [x], IsName y := by
    rintro init' _ rfl hnames
    exact isName_of_mem_under hx fun y hy => hnames y (List.mem_append_left _ hy)
  rcases absolute_cases hpath cwd with ⟨names, -, hall, heq | heq⟩ | heq | heq
  · rw [heq] at hinit hname
    match init with
    | [] => exact absurd (by simpa using hname.symm) hname'
    | y :: init' =>
      simp only [List.cons_append, List.cons.injEq] at hinit
      obtain ⟨rfl, hinit⟩ := hinit
      exact ⟨init' ++ [x], by simp, hnames hinit hall, .inl rfl⟩
  · rw [heq] at hinit hname
    match init with
    | [] => exact absurd (by simpa using hname.symm) hname'
    | [y] => exact absurd (by simpa using hname.symm) hname'
    | y :: z :: init' =>
      simp only [List.cons_append, List.cons.injEq] at hinit
      obtain ⟨rfl, rfl, hinit⟩ := hinit
      exact ⟨init' ++ [x], by simp, hnames hinit hall, .inr rfl⟩
  · simp [heq, hname'] at hmem
  · simp [heq, hname'] at hmem

/-- A text that ends in a name and is a textual prefix of what
`os.path.abspath` makes of some path is absolute. -/
theorem isabs_of_startswith {cwd : Loc} {path dir : Path} (hdir : IsName dir.basename)
    (h : startswith (path.absolute cwd) dir) : dir.isabs = true := by
  obtain ⟨text, htext⟩ : ∃ text, path.absolute cwd = "" :: text := by
    rw [absolute]
    split_ifs <;> exact ⟨_, rfl⟩
  rw [htext] at h
  match dir with
  | [] => exact absurd rfl hdir.1
  | [x] =>
    have hx : x = "" := by simpa [startswith] using h
    exact absurd hx hdir.1
  | x :: y :: dir =>
    have hx : "" = x := by
      rw [startswith, Bool.and_eq_true, decide_eq_true_iff] at h
      · exact h.1
      · simp
    subst hx
    rfl

/-- Containment in a normal text is a prefix of its components. -/
theorem within_iff_prefix {cwd : Loc} {dir path : Path} (hdir : Normal dir)
    (hpath : path.isabs = true) : Within cwd dir path ↔ dir <+: path.absolute cwd := by
  have hnames := isName_abspath hpath cwd
  have hno : ∀ names, ¬ "" :: names <+: abspath cwd path := fun names h =>
    (hnames "" (h.subset List.mem_cons_self)).1 rfl
  obtain ⟨names, hne, hdirs, rfl | rfl⟩ := id hdir
  all_goals
    obtain ⟨z, names, rfl⟩ := List.exists_cons_of_ne_nil hne
    have hz : z ≠ "" := (hdirs z (by simp)).1
  · rw [Within, (abspath_slash cwd hne hdirs).1, (twoSlashes_slash hne hdirs).1, absolute]
    cases twoSlashes path <;> by_cases hnil : abspath cwd path = [] <;> simp [hnil, hz]
  · rw [Within, (abspath_slash cwd hne hdirs).2, (twoSlashes_slash hne hdirs).2, absolute]
    cases twoSlashes path <;> by_cases hnil : abspath cwd path = [] <;> simp [hnil, hz, hno]

end Kolla.Lib.Path
