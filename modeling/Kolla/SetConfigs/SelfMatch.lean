import Kolla.SetConfigs.Copying
import Kolla.Lib.SameWay

/-!
# Paths that match themselves

`_set_properties_from_conf` hands the path that has been written to
`handle_permissions`, which reads it as a shell pattern.  A path matches itself if
each of its components does (`mem_globbed_self`).  A name without a bracket does
(`fnmatch_self`), and `[a]` does not.
-/

namespace Kolla.SetConfigs

open Kolla.Lib Kolla.SetConfigs.System

variable {β : Type}

/-! ## Names -/

theorem anyTail_cons {test : List Char → Bool} {c : Char} {cs : List Char} (h : test cs = true) :
    anyTail test (c :: cs) = true := by
  have htail : anyTail test cs = true := by
    cases cs with
    | nil => exact h
    | cons d cs => rw [anyTail, h, Bool.true_or]
  rw [anyTail, htail, Bool.or_true]

theorem matchTokens_self {n : ℕ} {cs : List Char} (hlen : cs.length ≤ n) (h : '[' ∉ cs) :
    matchTokens (tokens n cs) cs = true := by
  induction n generalizing cs with
  | zero =>
    obtain rfl : cs = [] := List.length_eq_zero_iff.mp (by omega)
    rfl
  | succ n ih =>
    cases cs with
    | nil => rfl
    | cons c cs =>
      rw [List.mem_cons, not_or] at h
      have hrest := ih (by simpa using hlen) h.2
      by_cases hstar : c = '*'
      · subst hstar
        exact anyTail_cons hrest
      · by_cases hany : c = '?'
        · subst hany
          exact hrest
        · have hbracket : c ≠ '[' := fun hc => h.1 hc.symm
          have htokens : tokens (n + 1) (c :: cs) = .literal c :: tokens n cs := by
            rw [tokens] <;> simp_all
          rw [htokens, matchTokens, hrest, matchChar]
          · simp
          · nofun

/-- A name without a bracket matches itself. -/
theorem fnmatch_self {x : String} (h : '[' ∉ x.toList) : fnmatch x x = true :=
  matchTokens_self (le_refl _) h

/-- `[a]` matches `a`, and not itself. -/
example : fnmatch "a" "[a]" = true ∧ fnmatch "[a]" "[a]" = false := by decide +kernel

/-- Every component that is a pattern matches itself. -/
def SelfMatching (path : Path) : Prop := ∀ x ∈ path, hasMagic [x] = true → fnmatch x x = true

instance (path : Path) : Decidable (SelfMatching path) :=
  inferInstanceAs (Decidable (∀ x ∈ path, _))

theorem SelfMatching.of_no_bracket {path : Path} (h : ∀ x ∈ path, '[' ∉ x.toList) :
    SelfMatching path := fun x hx _ => fnmatch_self (h x hx)

theorem SelfMatching.subset {path path' : Path} (h : SelfMatching path) (hsub : path' ⊆ path) :
    SelfMatching path' := fun x hx => h x (hsub hx)

/-- A component with a special character is a name. -/
theorem isName_of_hasMagic {x : String} (h : hasMagic [x] = true) : IsName x := by
  refine ⟨?_, ?_, ?_⟩ <;> rintro rfl <;> revert h <;> decide +kernel

namespace System

variable {sys : System β} {t : FileTree β} {path : Path} {L : Loc} {m : Node β}

theorem find_sameWay {p : Path} (h : SameWay sys.maxLinks sys.cwd t p path)
    (hfind : sys.find t true path = .found L m) : sys.find t true p = .found L m :=
  h.resolve_eq.trans hfind

theorem dirname_ne_empty {init : Path} (hinit : init ≠ []) (x : String) :
    Path.dirname (init ++ [x]) ≠ [] ∧ Path.dirname (init ++ [x]) ≠ [""] := by
  rw [Path.dirname, List.dropLast_concat, if_neg hinit]
  split
  · simp [hinit]
  · rename_i hall
    constructor
    · intro hnil
      rw [List.rdropWhile_eq_nil_iff] at hnil
      exact hall (by simpa using hnil)
    · intro hempty
      have := List.rdropWhile_last_not (· = "") init (by rw [hempty]; simp)
      simp [hempty] at this

/-- A directory with a special character is spelled as in the path. -/
theorem dirname_prefix {init : Path} {x : String}
    (h : hasMagic (Path.dirname (init ++ [x])) = true) :
    Path.dirname (init ++ [x]) <+: init := by
  have hempty : hasMagic [""] = false := by decide +kernel
  rw [Path.dirname, List.dropLast_concat] at h ⊢
  split at h
  · rw [hempty] at h
    cases h
  · rename_i hinit
    rw [if_neg hinit]
    split at h
    · rename_i hall
      obtain ⟨y, hy, hmagic⟩ := List.any_eq_true.mp h
      have hy : y = "" := by
        rcases List.mem_append.mp hy with hy | hy
        · simpa using List.all_eq_true.mp hall y hy
        · exact List.mem_singleton.mp hy
      rw [hy] at hmagic
      cases hmagic
    · rename_i hall
      rw [if_neg hall]
      exact List.rdropWhile_prefix _ init

section Entry

variable {d : Path} {x : String}

/-- What is found in a directory is an entry of it. -/
theorem find_entry (hway : SameWay sys.maxLinks sys.cwd t (Path.join d [x]) path)
    (hd : d ≠ [] ∧ d ≠ [""]) (hfind : sys.find t true path = .found L m) :
    ∃ P a, sys.find t true d = .found P (.dir a) ∧ (IsName x → t.lookup (P ++ [x]) ≠ none) := by
  have hjoin := find_sameWay hway hfind
  have hentry : resolve t sys.maxLinks sys.cwd true (d ++ [x]) = .found L m := by
    have heq := @resolve_join _ t sys.maxLinks sys.cwd d hd.1 hd.2 x [] true
    rw [List.append_nil] at heq
    rw [← heq]
    exact hjoin
  obtain ⟨P, a, hP⟩ := resolve_through hd.1 hd.2 (List.cons_ne_nil _ _) hentry
  refine ⟨P, a, hP, fun hx hnone => ?_⟩
  obtain ⟨left, hleft⟩ := resolve_under hP
  have hunder := hleft true [x] (List.cons_ne_nil _ _) (by simpa using hx)
  have hmissing := @walk_missing _ t true left [] P x
    (by simpa using FileTree.isDir_iff.mpr ⟨a, lookup_of_resolve hP⟩) hx (by simpa using hnone)
  rw [List.nil_append, List.append_nil] at hmissing
  rw [hmissing, Path.under_cons, Path.under_nil] at hunder
  change sys.find t true _ = _ at hunder
  rw [hunder] at hjoin
  cases hjoin

/-- A name that matches itself is among the matches in its directory. -/
theorem mem_glob1_self {dirname : Path} {dironly : Bool}
    (hdirname : (if dirname = [""] then ["."] else dirname) = d) (hd : d ≠ [] ∧ d ≠ [""])
    (hway : SameWay sys.maxLinks sys.cwd t (Path.join d [x]) path)
    (hfind : sys.find t true path = .found L m) (hdironly : dironly = true → m.isDir = true)
    (hx : IsName x) (hmatch : fnmatch x x = true) : x ∈ sys.glob1 t dirname x dironly := by
  obtain ⟨P, a, hP, hentry⟩ := find_entry hway hd hfind
  obtain ⟨n, hn⟩ := Option.ne_none_iff_exists'.mp (hentry hx)
  obtain ⟨names, hnames, hmem⟩ := mem_scandir hP
  have hdir : (!dironly || sys.isdir t (Path.join d [x])) = true := by
    cases dironly with
    | false => rfl
    | true =>
      cases m with
      | dir b => exact isdir_iff.mpr ⟨L, b, find_sameWay hway hfind⟩
      | file c b => cases hdironly rfl
      | link target => cases hdironly rfl
  rw [glob1, hdirname, hnames]
  simp only [Option.getD_some, List.mem_filter]
  exact ⟨⟨⟨(hmem x).mpr ⟨n, hn⟩, hdir⟩, by cases ishidden x <;> rfl⟩, hmatch⟩

theorem mem_glob0_self (hd : d ≠ [] ∧ d ≠ [""])
    (hway : SameWay sys.maxLinks sys.cwd t (Path.join d [x]) path)
    (hfind : sys.find t true path = .found L m) : x ∈ sys.glob0 t d x := by
  rw [glob0]
  split
  · rw [if_pos (lexists_of_find (find_sameWay hway hfind))]
    exact List.mem_singleton_self x
  · obtain ⟨P, a, hP, -⟩ := find_entry hway hd hfind
    rw [if_pos (isdir_iff.mpr ⟨P, a, hP⟩)]
    exact List.mem_singleton_self x

end Entry

/-- Below the working directory a name is what it is in `.`. -/
theorem sameWay_dot {x : String} (hx : IsName x) (hfind : sys.find t true [x] = .found L m) :
    SameWay sys.maxLinks sys.cwd t (Path.join ["."] [x]) [x] := by
  obtain ⟨-, -, hdir, -⟩ := resolve_eq_walk (fun e he => by
    change sys.find t true [x] = _ at he
    rw [hfind] at he
    cases he)
  intro follow rest _
  have habs : ∀ path : Path, Path.isabs ("." :: path) = false := fun path => rfl
  have habs' : Path.isabs (x :: rest) = false := by
    cases rest <;> simp [Path.isabs, hx.1]
  have hcwd : t.isDir sys.cwd = true := by simpa [Path.isabs] using hdir
  have hjoin : Path.join ["."] [x] ++ rest = "." :: x :: rest := by
    rw [Path.join_name, if_neg (by decide)]
    rfl
  rw [hjoin, List.singleton_append,
    resolve_of_base (by simp) (by simp) (by rwa [habs]),
    resolve_of_base (by simp) (by simp [hx.1]) (by rwa [habs']), habs, habs',
    walk_skip (Or.inr rfl)]

/-- A path whose components match themselves is among its own matches, perhaps in
another spelling. -/
theorem exists_mem_iglob (n : ℕ) {path : Path} (hlen : path.length ≤ n)
    (hself : SelfMatching path) {dironly : Bool} {L : Loc} {m : Node β}
    (hfind : sys.find t true path = .found L m) (hdironly : dironly = true → m.isDir = true) :
    ∃ p ∈ sys.iglob t n path dironly, SameWay sys.maxLinks sys.cwd t p path := by
  induction n generalizing path dironly L m with
  | zero =>
    rw [List.length_eq_zero_iff.mp (Nat.le_zero.mp hlen)] at hfind
    exact absurd rfl (ne_empty_of_find hfind).1
  | succ n ih =>
    obtain ⟨init, x, rfl⟩ := (List.eq_nil_or_concat' path).resolve_left (ne_empty_of_find hfind).1
    have hbase : Path.basename (init ++ [x]) = x := by simp [Path.basename]
    have hentry : init ≠ [] → ∃ P a, sys.find t true (Path.dirname (init ++ [x])) = .found P (.dir a) :=
      fun hinit => by
        obtain ⟨P, a, hP, -⟩ := find_entry (SameWay.split hinit x) (dirname_ne_empty hinit x) hfind
        exact ⟨P, a, hP⟩
    rw [iglob, hbase]
    by_cases hmagic : hasMagic (init ++ [x]) = true
    · rw [if_neg (by simp [hmagic])]
      by_cases hinit : init = []
      · subst hinit
        have hx : hasMagic [x] = true := hmagic
        have hname := isName_of_hasMagic hx
        have hdirname : Path.dirname ([] ++ [x]) = [""] := rfl
        rw [if_pos hdirname]
        exact ⟨[x], List.mem_map_of_mem (mem_glob1_self (if_pos hdirname) ⟨by simp, by simp⟩
          (sameWay_dot hname hfind) hfind hdironly hname (hself x (by simp) hx)), SameWay.refl _ _ _ _⟩
      · have hdirname := dirname_ne_empty hinit x
        obtain ⟨P, a, hP⟩ := hentry hinit
        -- the directory, spelled as its own match
        obtain ⟨d, hd, hway⟩ : ∃ d ∈ (if Path.dirname (init ++ [x]) ≠ init ++ [x] ∧
              hasMagic (Path.dirname (init ++ [x])) = true
            then sys.iglob t n (Path.dirname (init ++ [x])) true else [Path.dirname (init ++ [x])]),
            SameWay sys.maxLinks sys.cwd t d (Path.dirname (init ++ [x])) := by
          split
          · rename_i hmagic'
            have hbelow := dirname_prefix hmagic'.2
            refine ih ?_ (hself.subset ?_) hP fun _ => rfl
            · have := hbelow.length_le
              rw [List.length_append, List.length_singleton] at hlen
              omega
            · exact fun y hy => List.mem_append_left [x] (hbelow.subset hy)
          · exact ⟨_, List.mem_singleton_self _, SameWay.refl _ _ _ _⟩
        have hd' := ne_empty_of_find (find_sameWay hway hP)
        have hjoin := (hway.join hd'.1 hd'.2 hdirname.1 hdirname.2 x).trans (SameWay.split hinit x)
        rw [if_neg hdirname.2]
        refine ⟨Path.join d [x], List.mem_flatMap.mpr ⟨d, hd, List.mem_map_of_mem ?_⟩, hjoin⟩
        split
        · rename_i hx
          exact mem_glob1_self (if_neg hd'.2) hd' hjoin hfind hdironly (isName_of_hasMagic hx)
            (hself x (by simp) hx)
        · exact mem_glob0_self hd' hjoin hfind
    · refine ⟨init ++ [x], ?_, SameWay.refl _ _ _ _⟩
      rw [if_pos (by simpa using hmagic)]
      by_cases hx : x = ""
      · subst hx
        have hinit : init ≠ [] := by
          rintro rfl
          exact (ne_empty_of_find hfind).2 rfl
        obtain ⟨P, a, hP⟩ := hentry hinit
        rw [if_neg (by simp), if_pos (isdir_iff.mpr ⟨P, a, hP⟩)]
        exact List.mem_singleton_self _
      · rw [if_pos hx, if_pos (lexists_of_find hfind)]
        exact List.mem_singleton_self _

/-- A path whose components match themselves comes, as a pattern, to what it leads to. -/
theorem mem_globbed_self (hself : SelfMatching path) (hfind : sys.find t true path = .found L m) :
    L ∈ sys.globbed t path := by
  obtain ⟨p, hp, hway⟩ := exists_mem_iglob path.length le_rfl hself hfind
    fun h : false = true => absurd h Bool.false_ne_true
  exact ⟨p, hp, m, find_sameWay hway hfind⟩

end System

end Kolla.SetConfigs
