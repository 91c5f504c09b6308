import Kolla.Build.Tasks
import Kolla.Lib.PathText

/-!
# The check of an archive's member names

`make_an_archive` extracts the archives of plugins and additions into a
directory of the image, after `_test_malicious_tarball` has looked at the
names of the members.  The check compares the absolute path of a member
with the text of that directory.

On a normal directory the text comparison also lets through what goes into
a namesake of the directory, and on any other directory (a relative one, as
a relative `work_dir` gives, or one with a redundant component) it lets
nothing through.  `tarball_check_iff` gives the archives on which it agrees
with containment.
-/

namespace Kolla.Build

open Kolla.Lib

/-- The two calls of `make_an_archive`. -/
inductive ArcName
  | plugins
  | additions

def ArcName.text : ArcName → String
  | .plugins => "plugins"
  | .additions => "additions"

/-- `items_path` in `make_an_archive`, where `item_child_path` is the
archive's name. -/
def itemsPath (imagePath : Path) (arcname : ArcName) : Path :=
  Path.join imagePath [arcname.text]

/-- `_test_malicious_tarball` in `builder`, on the names that `getnames`
gives. -/
def testMaliciousTarball (cwd : Loc) (names : List Path) (path : Path) : Except PyError Unit :=
  forM names fun n =>
    if Path.startswith (Path.absolute cwd (Path.join path n)) path then pure ()
    else throw .archivingError

/-- A member named `n` is extracted inside `path`. -/
def Inside (cwd : Loc) (path n : Path) : Prop :=
  Path.Within cwd path (Path.join path n)

instance (cwd : Loc) (path n : Path) : Decidable (Inside cwd path n) :=
  inferInstanceAs (Decidable (Path.Within _ _ _))

/-- A member named `n` is extracted inside a sibling of `path` whose name
goes on after that of `path`. -/
def InNamesake (cwd : Loc) (path n : Path) : Prop :=
  Path.Namesake path (Path.absolute cwd (Path.join path n))

variable {cwd : Loc} {path : Path} {names : List Path}

theorem testMaliciousTarball_eq_ok :
    testMaliciousTarball cwd names path = .ok () ↔
      ∀ n ∈ names, Path.startswith (Path.absolute cwd (Path.join path n)) path = true := by
  unfold testMaliciousTarball
  induction names with
  | nil => simp [pure, Except.pure]
  | cons n names ih =>
    rw [List.forM_cons, List.forall_mem_cons, ← ih]
    by_cases hn : Path.startswith (Path.absolute cwd (Path.join path n)) path = true
    · rw [if_pos hn]
      exact (and_iff_right hn).symm
    · rw [if_neg hn]
      exact iff_of_false (fun h => by cases h) fun h => hn h.1

/-- Joining to a path that ends in a name keeps it absolute. -/
theorem isabs_join (hname : IsName path.basename) (habs : path.isabs = true) (n : Path) :
    (Path.join path n).isabs = true := by
  rw [Path.join]
  split_ifs with hn hlast
  · exact hn
  · exact absurd hlast hname.1
  · rw [Path.isabs_append (by rintro rfl; cases habs) (by rintro rfl; cases habs)]
    exact habs

/-- A path that `os.path.abspath` leaves as it is and that ends in a name
is normal. -/
theorem normal_of_absolute_eq (hname : IsName path.basename) (h : path.absolute cwd = path) :
    path.Normal := by
  have habs : path.isabs = true := by
    rw [← h, Path.absolute]
    split_ifs with h₁ h₂ h₂
    · rfl
    · rfl
    · rfl
    · obtain ⟨x, rest, hx⟩ := List.exists_cons_of_ne_nil h₂
      rw [hx]
      rfl
  rcases Path.absolute_cases habs cwd with hnormal | hroot | hroot
  · rwa [h] at hnormal
  · rw [h] at hroot
    rw [hroot] at hname
    exact absurd rfl hname.1
  · rw [h] at hroot
    rw [hroot] at hname
    exact absurd rfl hname.1

/-- On a normal directory the check of one name is containment, or the
textual accident. -/
theorem startswith_join_iff (hname : IsName path.basename) (hnormal : path.Normal) (n : Path) :
    Path.startswith (Path.absolute cwd (Path.join path n)) path = true ↔
      Inside cwd path n ∨ InNamesake cwd path n := by
  rw [Inside, Path.within_iff_prefix hnormal (isabs_join hname hnormal.isabs n)]
  exact Path.startswith_iff_prefix_or hnormal.ne_nil

/-- On any other directory the check refuses every name. -/
theorem not_startswith_join (hname : IsName path.basename) (h : path.absolute cwd ≠ path)
    (n : Path) : ¬ Path.startswith (Path.absolute cwd (Path.join path n)) path = true := by
  intro hstart
  have habs := isabs_join hname (Path.isabs_of_startswith hname hstart) n
  exact h ((Path.normal_of_startswith habs hname hstart).absolute cwd)

theorem isName_basename_itemsPath (imagePath : Path) (arcname : ArcName) :
    IsName (itemsPath imagePath arcname).basename := by
  rw [itemsPath, Path.basename, Path.getLastD_join_name]
  cases arcname <;> decide

/-- The check lets exactly the archives through whose members all stay
inside, in these two cases.  The directory is a normal path, and a member
that goes into a namesake of it comes with one that leaves both.  Or the
directory is not a normal path, and the archive is empty or has a member
that leaves. -/
theorem tarball_check_iff (cwd : Loc) (imagePath : Path) (arcname : ArcName) (names : List Path) :
    (testMaliciousTarball cwd names (itemsPath imagePath arcname) = .ok () ↔
        ∀ n ∈ names, Inside cwd (itemsPath imagePath arcname) n) ↔
      if Path.absolute cwd (itemsPath imagePath arcname) = itemsPath imagePath arcname then
        (∃ n ∈ names, InNamesake cwd (itemsPath imagePath arcname) n) →
          ∃ n ∈ names, ¬ Inside cwd (itemsPath imagePath arcname) n ∧
            ¬ InNamesake cwd (itemsPath imagePath arcname) n
      else names = [] ∨ ∃ n ∈ names, ¬ Inside cwd (itemsPath imagePath arcname) n := by
  have hname := isName_basename_itemsPath imagePath arcname
  generalize itemsPath imagePath arcname = path at hname ⊢
  rw [testMaliciousTarball_eq_ok]
  split_ifs with hpath
  · have hnormal := normal_of_absolute_eq hname hpath
    have hapart : ∀ n, Inside cwd path n → ¬ InNamesake cwd path n := fun n hin =>
      Path.not_prefix_and_namesake hnormal.ne_nil
        ((Path.within_iff_prefix hnormal (isabs_join hname hnormal.isabs n)).mp hin)
    simp only [startswith_join_iff hname hnormal]
    constructor
    · rintro hiff ⟨n, hn, hsibling⟩
      by_contra hno
      push Not at hno
      refine hapart n (hiff.mp (fun m hm => ?_) n hn) hsibling
      by_cases hin : Inside cwd path m
      · exact .inl hin
      · exact .inr (hno m hm hin)
    · intro hout
      refine ⟨fun hall n hn => ?_, fun hall n hn => .inl (hall n hn)⟩
      by_contra hin
      obtain ⟨m, hm, hmin, hmsib⟩ := hout ⟨n, hn, (hall n hn).resolve_left hin⟩
      exact (hall m hm).elim hmin hmsib
  · cases names with
    | nil => simp
    | cons n names =>
      have hrefused := not_startswith_join hname hpath n
      have hleft : ¬ ∀ m ∈ n :: names,
          Path.startswith (Path.absolute cwd (Path.join path m)) path = true := fun h =>
        hrefused (h n (by simp))
      rw [iff_false_left hleft]
      simp [imp_iff_not_or]

/-- A member that goes into a directory beside the image's `plugins` is let
through, and under a relative working directory a member that stays inside
is not. -/
theorem tarball_check_misses :
    (testMaliciousTarball ["w"] [["..", "plugins-evil", "x"]]
          (itemsPath ["", "w", "docker", "base"] .plugins) = .ok () ∧
        ¬ Inside ["w"] (itemsPath ["", "w", "docker", "base"] .plugins)
            ["..", "plugins-evil", "x"]) ∧
      testMaliciousTarball ["w"] [["x"]] (itemsPath ["docker", "base"] .plugins)
          = .error .archivingError ∧
        Inside ["w"] (itemsPath ["docker", "base"] .plugins) ["x"] := by
  refine ⟨⟨by rfl, by decide⟩, by rfl, by decide⟩

end Kolla.Build
