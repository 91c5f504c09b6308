import Kolla.Lib.Dict
import Kolla.Lib.Program
import Kolla.Template.Methods
import Mathlib.Data.List.Forall2

/-!
# Commands for repositories

`handle_repos` of `kolla/template/methods.py` makes one shell command that
enables or disables repositories.  A table, read from a YAML file, has a
section for the package type, one for the distribution and one for the
distribution on one architecture; later sections go over earlier ones.

The separator between the commands is added inside the branches that enable a
repository, and it goes by the position in the list.  Every repository has a
command there, so the result is a proper join.  To disable repositories of an
rpm distribution there is no separator, and `handleRepos_joined_iff` says that
the result is a join only as long as there is at most one such command.
-/

namespace Kolla.Template

open Kolla.Lib

/-! ## The table -/

/-- A scalar in the table. -/
inductive Yaml
  | str (text : String)
  | int (n : ℤ)
  | bool (b : Bool)
  | null
  deriving DecidableEq, Repr

namespace Yaml

/-- `bool(value)`. -/
def truthy : Yaml → Bool
  | .str text => text ≠ ""
  | .int n => n ≠ 0
  | .bool b => b
  | .null => false

/-- `str(value)`. -/
def text : Yaml → String
  | .str text => text
  | .int n => toString n
  | .bool b => if b then "True" else "False"
  | .null => "None"

end Yaml

/-- The exceptions of `handle_repos`. -/
inductive RepoError
  | keyError (key : String)
  | attributeError
  deriving DecidableEq, Repr

abbrev Repo := Dict String Yaml

/-- `_repo[key]`. -/
def Repo.item (repo : Repo) (key : String) : Except RepoError Yaml :=
  match repo.lookup key with
  | some value => .ok value
  | none => .error (.keyError key)

/-- Whether `_repo.get(key)` is true. -/
def Repo.flag (repo : Repo) (key : String) : Bool :=
  ((repo.lookup key).map Yaml.truthy).getD false

/-- A character at which `str.splitlines` breaks a line. -/
def isLineBreak (c : Char) : Bool :=
  c.toNat ∈ [0x0a, 0x0b, 0x0c, 0x0d, 0x1c, 0x1d, 0x1e, 0x85, 0x2028, 0x2029]

/-- The lines of a text; `line` is what has been read of the current one, from
its end. -/
def splitLinesAux : List Char → List Char → List String
  | [], [] => []
  | line, [] => [String.ofList line.reverse]
  | line, '\r' :: '\n' :: cs => String.ofList line.reverse :: splitLinesAux [] cs
  | line, c :: cs =>
    if isLineBreak c then String.ofList line.reverse :: splitLinesAux [] cs
    else splitLinesAux (c :: line) cs

/-- `value.splitlines()`, for a text. -/
def Yaml.splitlines : Yaml → Except RepoError (List String)
  | .str text => .ok (splitLinesAux [] text.toList)
  | _ => .error .attributeError

/-- The variables of the template. -/
structure RepoContext where
  basePackageType : String
  baseDistro : String
  baseArch : String

/-- `a | b`. -/
def union (a b : Dict String Repo) : Dict String Repo :=
  b.foldl (fun d e => d.insert e.1 e.2) a

/-- The repositories of the distribution. -/
def repoList (context : RepoContext) (repoData : Dict String (Dict String Repo)) :
    Dict String Repo :=
  let section_ (name : String) := (repoData.lookup name).getD []
  union (union (section_ context.basePackageType) (section_ context.baseDistro))
    (section_ (context.baseDistro ++ "-" ++ context.baseArch))

/-! ## The commands -/

/-- One more line of a `.repo` file. -/
def dnfLine (line repo : String) : String :=
  " && echo '" ++ line ++ "' >>/etc/yum.repos.d/" ++ repo ++ ".repo"

def dnfRepo (name repo : String) : String :=
  "echo '[" ++ name ++ "]' >/etc/yum.repos.d/" ++ repo ++ ".repo"
    ++ dnfLine ("name=" ++ name) repo ++ dnfLine "enabled=1" repo

def dnfGpgcheck (gpgcheck repo : String) : String := dnfLine ("gpgcheck=" ++ gpgcheck) repo

def dnfRepoGpgcheck (repoGpgcheck repo : String) : String :=
  dnfLine ("repo_gpgcheck=" ++ repoGpgcheck) repo

def dnfGpgkey (gpgkey repo : String) : String := dnfLine ("gpgkey=" ++ gpgkey) repo

def dnfGpgkeyAdd (gpgkey repo : String) : String := dnfLine ("       " ++ gpgkey) repo

def dnfBaseurl (baseurl repo : String) : String := dnfLine ("baseurl=" ++ baseurl) repo

def dnfMetalink (metalink repo : String) : String := dnfLine ("metalink=" ++ metalink) repo

def dnfMirrorlist (mirrorlist repo : String) : String :=
  dnfLine ("mirrorlist=" ++ mirrorlist) repo

def dnfEnable (name : String) : String := "dnf config-manager --enable " ++ name ++ " || true"

def dnfDisable (name : String) : String := "dnf config-manager --disable " ++ name ++ " || true"

/-- One more line of a `.sources` file. -/
def aptLine (line repo : String) : String :=
  " && echo '" ++ line ++ "' >>/etc/apt/sources.list.d/" ++ repo ++ ".sources"

def aptRepo (url component suite gpgKey repo : String) : String :=
  "echo 'Uris: " ++ url ++ "' >/etc/apt/sources.list.d/" ++ repo ++ ".sources"
    ++ aptLine ("Components: " ++ component) repo ++ aptLine "Types: deb" repo
    ++ aptLine ("Suites: " ++ suite) repo
    ++ aptLine ("Signed-By: /etc/kolla/apt-keys/" ++ gpgKey) repo

def aptArch (arch repo : String) : String := aptLine ("Architectures: " ++ arch) repo

/-- The keys of a repository: the first one on the line of its own name. -/
def gpgkeyCommands (repo : String) : List String → String
  | [] => ""
  | gpgkey :: gpgkeys =>
    dnfGpgkey gpgkey repo ++ String.join (gpgkeys.map fun gpgkey => dnfGpgkeyAdd gpgkey repo)

/-- The first part of the branch that enables an rpm repository. -/
def enableName (repo : String) (_repo : Repo) : Except RepoError String :=
  if _repo.flag "distro" = false then do
    let name ← _repo.item "name"
    let gpgcheck :=
      if _repo.flag "gpgcheck" then dnfGpgcheck (((_repo.lookup "gpgcheck").getD .null).text) repo
      else ""
    let repoGpgcheck :=
      if _repo.flag "repo_gpgcheck" then
        dnfRepoGpgcheck (((_repo.lookup "repo_gpgcheck").getD .null).text) repo
      else ""
    let gpgkey ← _repo.item "gpgkey"
    let gpgkeys ← gpgkey.splitlines
    pure (dnfRepo name.text repo ++ gpgcheck ++ repoGpgcheck ++ gpgkeyCommands repo gpgkeys)
  else do
    let name ← _repo.item "name"
    pure (dnfEnable name.text)

/-- The second part: where the packages are. -/
def enableUrls (repo : String) (_repo : Repo) : Except RepoError String :=
  match _repo.lookup "baseurl" with
  | some baseurl => do
    let urls ← baseurl.splitlines
    pure (String.join (urls.map fun url => dnfBaseurl url repo))
  | none =>
    match _repo.lookup "metalink" with
    | some metalink => pure (dnfMetalink metalink.text repo)
    | none =>
      match _repo.lookup "mirrorlist" with
      | some mirrorlist => pure (dnfMirrorlist mirrorlist.text repo)
      | none => pure ""

/-- The branch that enables a deb repository. -/
def enableApt (repo : String) (_repo : Repo) : Except RepoError String := do
  let component ← _repo.item "component"
  let gpgKey ← _repo.item "gpg_key"
  let suite ← _repo.item "suite"
  let url ← _repo.item "url"
  let arch :=
    match _repo.lookup "arch" with
    | some arch => aptArch arch.text repo
    | none => ""
  pure (aptRepo url.text component.text suite.text gpgKey.text repo ++ arch)

/-- What follows a command, unless it is the last one. -/
def separator (index length : ℕ) : String := if index ≠ length - 1 then " && " else ""

/-- One iteration of the loop: what it adds to the commands. -/
def handleRepo (context : RepoContext) (repos : Dict String Repo) (mode : String)
    (length index : ℕ) (repo : String) : Except RepoError String :=
  match repos.lookup repo with
  | none => .error (.keyError repo)
  | some _repo =>
    if context.basePackageType = "rpm" then
      if mode = "enable" then do
        let name ← enableName repo _repo
        let urls ← enableUrls repo _repo
        pure (name ++ urls ++ separator index length)
      else if mode = "disable" ∧ _repo.flag "distro" = true then do
        let name ← _repo.item "name"
        pure (dnfDisable name.text)
      else pure ""
    else if context.basePackageType = "deb" then
      if mode = "enable" then do
        let command ← enableApt repo _repo
        pure (command ++ separator index length)
      else pure ""
    else pure ""

/-- The loop from an index on. -/
def handleReposFrom (context : RepoContext) (repos : Dict String Repo) (mode : String)
    (length : ℕ) : ℕ → List String → String → Except RepoError String
  | _, [], commands => pure commands
  | index, repo :: reponames, commands => do
    let command ← handleRepo context repos mode length index repo
    handleReposFrom context repos mode length (index + 1) reponames (commands ++ command)

/-- `handle_repos(context, reponames, mode)` with the table `repoData`. -/
def handleRepos (context : RepoContext) (repoData : Dict String (Dict String Repo))
    (reponames : List String) (mode : String) : Except RepoError String := do
  let commands ← handleReposFrom context (repoList context repoData) mode reponames.length 0
    reponames ""
  pure (if commands ≠ "" then "RUN " ++ commands else commands)

/-! ## One iteration -/

section Iteration

variable {context : RepoContext} {repos : Dict String Repo} {mode repo command : String}
  {length index : ℕ}

/-- The modes and package types with a separator. -/
def Separated (context : RepoContext) (mode : String) : Prop :=
  mode = "enable" ∧ (context.basePackageType = "rpm" ∨ context.basePackageType = "deb")

instance (context : RepoContext) (mode : String) : Decidable (Separated context mode) :=
  inferInstanceAs (Decidable (_ ∧ _))

theorem separator_single : separator 0 1 = "" := rfl

/-- An iteration adds the command that the repository has for itself, and a
separator where there are separators. -/
theorem handleRepo_eq_ok (h : handleRepo context repos mode 1 0 repo = .ok command) :
    handleRepo context repos mode length index repo
      = .ok (command ++ if Separated context mode then separator index length else "") := by
  unfold handleRepo at h ⊢
  cases hrepo : repos.lookup repo with
  | none =>
    rw [hrepo] at h
    cases h
  | some _repo =>
    rw [hrepo] at h
    dsimp only at h ⊢
    split at h
    · rename_i hrpm
      split at h
      · rename_i henable
        rw [if_pos hrpm, if_pos henable, if_pos ⟨henable, Or.inl hrpm⟩]
        obtain ⟨name, hname, h⟩ := except_bind_eq_ok.mp h
        obtain ⟨urls, hurls, h⟩ := except_bind_eq_ok.mp h
        rw [← Except.ok.inj h, separator_single, String.append_empty, hname, hurls]
        rfl
      · rename_i henable
        rw [if_pos hrpm, if_neg henable, if_neg (c := Separated context mode)
          fun hsep => henable hsep.1, String.append_empty]
        exact h
    · rename_i hrpm
      rw [if_neg hrpm]
      split at h
      · rename_i hdeb
        rw [if_pos hdeb]
        split at h
        · rename_i henable
          rw [if_pos henable, if_pos ⟨henable, Or.inr hdeb⟩]
          obtain ⟨apt, happly, h⟩ := except_bind_eq_ok.mp h
          rw [← Except.ok.inj h, separator_single, String.append_empty, happly]
          rfl
        · rename_i henable
          rw [if_neg henable, if_neg (c := Separated context mode) fun hsep => henable hsep.1,
            String.append_empty]
          exact h
      · rename_i hdeb
        rw [if_neg hdeb, if_neg (c := Separated context mode)
          fun hsep => hsep.2.elim hrpm hdeb, String.append_empty]
        exact h

theorem ne_empty_of_append {a b : String} (h : a ≠ "") : a ++ b ≠ "" := by
  rw [Ne, String.append_eq_empty_iff]
  exact fun hempty => h hempty.1

theorem dnfEnable_ne_empty (name : String) : dnfEnable name ≠ "" :=
  ne_empty_of_append (ne_empty_of_append (by decide +kernel))

theorem dnfDisable_ne_empty (name : String) : dnfDisable name ≠ "" :=
  ne_empty_of_append (ne_empty_of_append (by decide +kernel))

theorem dnfRepo_ne_empty (name repo : String) : dnfRepo name repo ≠ "" := by
  refine ne_empty_of_append (ne_empty_of_append ?_)
  exact ne_empty_of_append (ne_empty_of_append (ne_empty_of_append (ne_empty_of_append
    (by decide +kernel))))

theorem aptRepo_ne_empty (url component suite gpgKey repo : String) :
    aptRepo url component suite gpgKey repo ≠ "" := by
  refine ne_empty_of_append (ne_empty_of_append (ne_empty_of_append (ne_empty_of_append ?_)))
  exact ne_empty_of_append (ne_empty_of_append (ne_empty_of_append (ne_empty_of_append
    (by decide +kernel))))

theorem enableName_ne_empty {_repo : Repo} (h : enableName repo _repo = .ok command) :
    command ≠ "" := by
  unfold enableName at h
  split at h
  · obtain ⟨name, -, h⟩ := except_bind_eq_ok.mp h
    obtain ⟨gpgkey, -, h⟩ := except_bind_eq_ok.mp h
    obtain ⟨gpgkeys, -, h⟩ := except_bind_eq_ok.mp h
    rw [← Except.ok.inj h]
    exact ne_empty_of_append (ne_empty_of_append (ne_empty_of_append (dnfRepo_ne_empty _ _)))
  · obtain ⟨name, -, h⟩ := except_bind_eq_ok.mp h
    rw [← Except.ok.inj h]
    exact dnfEnable_ne_empty _

theorem enableApt_ne_empty {_repo : Repo} (h : enableApt repo _repo = .ok command) :
    command ≠ "" := by
  obtain ⟨component, -, h⟩ := except_bind_eq_ok.mp h
  obtain ⟨gpgKey, -, h⟩ := except_bind_eq_ok.mp h
  obtain ⟨suite, -, h⟩ := except_bind_eq_ok.mp h
  obtain ⟨url, -, h⟩ := except_bind_eq_ok.mp h
  rw [← Except.ok.inj h]
  exact ne_empty_of_append (aptRepo_ne_empty _ _ _ _ _)

/-- Where there are separators, every repository has a command. -/
theorem command_ne_empty (hsep : Separated context mode)
    (h : handleRepo context repos mode 1 0 repo = .ok command) : command ≠ "" := by
  obtain ⟨rfl, htype⟩ := hsep
  unfold handleRepo at h
  cases hrepo : repos.lookup repo with
  | none =>
    rw [hrepo] at h
    cases h
  | some _repo =>
    rw [hrepo] at h
    dsimp only at h
    rcases htype with hrpm | hdeb
    · rw [if_pos hrpm, if_pos rfl] at h
      obtain ⟨name, hname, h⟩ := except_bind_eq_ok.mp h
      obtain ⟨urls, -, h⟩ := except_bind_eq_ok.mp h
      rw [← Except.ok.inj h]
      exact ne_empty_of_append (ne_empty_of_append (enableName_ne_empty hname))
    · rw [if_neg (by rw [hdeb]; decide), if_pos hdeb, if_pos rfl] at h
      obtain ⟨apt, happly, h⟩ := except_bind_eq_ok.mp h
      rw [← Except.ok.inj h]
      exact ne_empty_of_append (enableApt_ne_empty happly)

/-- The repositories of the distribution itself. -/
def isDistro (context : RepoContext) (repoData : Dict String (Dict String Repo)) (repo : String) :
    Bool :=
  (((repoList context repoData).lookup repo).map fun _repo => _repo.flag "distro").getD false

/-- Only the repositories of an rpm distribution have a command that disables
them. -/
theorem disable_ne_empty_iff {repoData : Dict String (Dict String Repo)}
    (h : handleRepo context (repoList context repoData) "disable" 1 0 repo = .ok command) :
    command ≠ "" ↔ context.basePackageType = "rpm" ∧ isDistro context repoData repo = true := by
  unfold handleRepo at h
  rw [isDistro]
  cases hrepo : (repoList context repoData).lookup repo with
  | none =>
    rw [hrepo] at h
    cases h
  | some _repo =>
    rw [hrepo] at h
    dsimp only at h
    rw [Option.map_some, Option.getD_some]
    split at h
    · rename_i hrpm
      rw [if_neg (by decide)] at h
      split at h
      · rename_i hdistro
        obtain ⟨name, -, h⟩ := except_bind_eq_ok.mp h
        rw [← Except.ok.inj h]
        exact iff_of_true (dnfDisable_ne_empty _) ⟨hrpm, hdistro.2⟩
      · rename_i hdistro
        rw [← Except.ok.inj h]
        exact iff_of_false (by simp) fun hrepo => hdistro ⟨rfl, hrepo.2⟩
    · rename_i hrpm
      have hempty : command = "" := by
        split at h
        · rw [if_neg (by decide)] at h
          exact (Except.ok.inj h).symm
        · exact (Except.ok.inj h).symm
      exact iff_of_false (by simp [hempty]) fun hrepo => hrpm hrepo.1

end Iteration

theorem exists_left_of_mem {α β : Type} {R : α → β → Prop} {xs : List α} {ys : List β}
    (h : List.Forall₂ R xs ys) {y : β} (hy : y ∈ ys) : ∃ x ∈ xs, R x y := by
  induction h with
  | nil => cases hy
  | @cons x y' xs ys hxy _ ih =>
    rcases List.mem_cons.mp hy with rfl | hy
    · exact ⟨x, List.mem_cons_self, hxy⟩
    · obtain ⟨x', hx', hR⟩ := ih hy
      exact ⟨x', List.mem_cons_of_mem _ hx', hR⟩

/-! ## The loop -/

section Loop

variable {context : RepoContext} {repos : Dict String Repo} {mode : String}

/-- The commands of a list, as the loop puts them together. -/
theorem handleReposFrom_eq {length index : ℕ} {reponames commands : List String}
    (h : List.Forall₂ (fun repo command => handleRepo context repos mode 1 0 repo = .ok command)
      reponames commands) (hlength : index + reponames.length = length) (acc : String) :
    handleReposFrom context repos mode length index reponames acc
      = .ok (acc ++ if Separated context mode then " && ".intercalate commands
          else String.join commands) := by
  induction h generalizing index acc with
  | nil =>
    rw [handleReposFrom, String.intercalate_nil, String.join_nil, ite_self, String.append_empty]
    rfl
  | @cons repo command reponames commands hrepo hrest ih =>
    rw [List.length_cons] at hlength
    rw [handleReposFrom, handleRepo_eq_ok hrepo]
    refine (ih (by omega) _).trans (congrArg Except.ok ?_)
    by_cases hsep : Separated context mode
    · rw [if_pos hsep, if_pos hsep, if_pos hsep, separator]
      cases hrest with
      | nil =>
        rw [List.length_nil] at hlength
        rw [if_neg (by omega), String.intercalate_nil, String.intercalate_singleton]
        simp
      | cons _ _ =>
        rw [List.length_cons] at hlength
        rw [if_pos (by omega), String.intercalate_cons_cons]
        simp only [String.append_assoc]
    · rw [if_neg hsep, if_neg hsep, if_neg hsep, String.join_cons, String.append_empty,
        String.append_assoc]

end Loop

/-! ## The law -/

/-- The commands of one repository: what `handle_repos` gives for it alone,
without `RUN `. -/
def standalone (context : RepoContext) (repoData : Dict String (Dict String Repo)) (mode repo : String) :
    Except RepoError String :=
  (handleRepos context repoData [repo] mode).map fun out => String.ofList (out.toList.drop 4)

/-- A `RUN` instruction with all the commands, if there are any. -/
def runOf (commands : List String) : String :=
  if commands = [] then "" else "RUN " ++ " && ".intercalate commands

/-- One instruction of two. -/
def joinRuns (out out' : String) : String :=
  if out = "" then out'
  else if out' = "" then out
  else out ++ " && " ++ String.ofList (out'.toList.drop 4)

theorem drop_run (command : String) : String.ofList (("RUN " ++ command).toList.drop 4) = command := by
  rw [String.toList_append]
  change String.ofList command.toList = command
  exact String.ofList_toList

theorem run_ne_empty (command : String) : "RUN " ++ command ≠ "" :=
  ne_empty_of_append (by decide)

theorem joinRuns_runOf (commands commands' : List String) :
    joinRuns (runOf commands) (runOf commands') = runOf (commands ++ commands') := by
  by_cases hnil : commands = []
  · rw [hnil, List.nil_append]
    exact if_pos rfl
  · have hrun : runOf commands = "RUN " ++ " && ".intercalate commands := if_neg hnil
    by_cases hnil' : commands' = []
    · rw [hnil', List.append_nil, joinRuns, hrun, if_neg (run_ne_empty _)]
      exact if_pos rfl
    · have hrun' : runOf commands' = "RUN " ++ " && ".intercalate commands' := if_neg hnil'
      rw [joinRuns, hrun, hrun', if_neg (run_ne_empty _), if_neg (run_ne_empty _), drop_run, runOf,
        if_neg (by simp [hnil]), String.intercalate_append_of_ne_nil hnil hnil']
      simp only [String.append_assoc]

section Law

variable {context : RepoContext} {repoData : Dict String (Dict String Repo)} {mode : String}

theorem standalone_eq_ok {repo command : String}
    (h : standalone context repoData mode repo = .ok command) :
    handleRepo context (repoList context repoData) mode 1 0 repo = .ok command := by
  rw [standalone, handleRepos, handleReposFrom] at h
  cases hrepo : handleRepo context (repoList context repoData) mode 1 0 repo with
  | error e =>
    rw [List.length_singleton, hrepo] at h
    cases h
  | ok command' =>
    rw [List.length_singleton, hrepo] at h
    have hout := Except.ok.inj h
    dsimp only at hout
    rw [String.empty_append] at hout
    by_cases hempty : command' = ""
    · subst hempty
      rw [← hout]
      rfl
    · rw [if_pos hempty, drop_run] at hout
      rw [hout]

/-- Commands that are put together without a separator are joined if and only
if there is at most one. -/
theorem join_eq_intercalate_iff (commands : List String) :
    String.join commands = " && ".intercalate (commands.filter (· ≠ "")) ↔
      (commands.filter (· ≠ "")).length ≤ 1 := by
  have hjoin : String.join commands = String.join (commands.filter (· ≠ "")) := by
    induction commands with
    | nil => rfl
    | cons command commands ih =>
      by_cases hempty : command = ""
      · rw [String.join_cons, hempty, String.empty_append, ih]
        simp
      · rw [List.filter_cons_of_pos (by simpa using hempty), String.join_cons, String.join_cons, ih]
  rw [hjoin]
  generalize commands.filter (· ≠ "") = commands
  match commands with
  | [] => exact iff_of_true rfl (by simp)
  | [command] => exact iff_of_true (by simp) (by simp)
  | command :: command' :: commands =>
    refine iff_of_false (fun heq => ?_) (by simp)
    have hlength := congrArg String.length heq
    have hseparated := @length_intercalate " && " (command :: command' :: commands)
      (List.cons_ne_nil _ _)
    have hsep : " && ".length = 4 := rfl
    have hsum : ∀ texts : List String, (texts.map fun text => text.length + 4).sum
        = (texts.map String.length).sum + 4 * texts.length := by
      intro texts
      induction texts with
      | nil => rfl
      | cons text texts ih =>
        rw [List.map_cons, List.map_cons, List.sum_cons, List.sum_cons, ih, List.length_cons]
        omega
    rw [hsep, hsum, ← String.length_join, List.length_cons, List.length_cons] at hseparated
    omega

/-- What is the law for a list with these commands: `handle_repos` joins them,
and it joins the outputs of any two parts of the list. -/
structure Joined (context : RepoContext) (repoData : Dict String (Dict String Repo)) (mode : String)
    (reponames commands : List String) : Prop where
  whole : handleRepos context repoData reponames mode = .ok (runOf (commands.filter (· ≠ "")))
  parts : ∀ xs ys, reponames = xs ++ ys → ∃ out out',
    handleRepos context repoData xs mode = .ok out ∧
      handleRepos context repoData ys mode = .ok out' ∧
      handleRepos context repoData reponames mode = .ok (joinRuns out out')

theorem run_eq_runOf_iff {commands : List String} (h : ∀ command ∈ commands, command ≠ "")
    (text : String) :
    (if text ≠ "" then "RUN " ++ text else text) = runOf commands ↔
      text = " && ".intercalate commands := by
  by_cases hempty : text = ""
  · rw [hempty, if_neg (not_not_intro rfl), runOf]
    split
    · rename_i hnil
      rw [hnil, String.intercalate_nil]
    · rename_i hnil
      obtain ⟨command, rest, rfl⟩ := List.exists_cons_of_ne_nil hnil
      have hne : " && ".intercalate (command :: rest) ≠ "" := by
        have hcommand := h command List.mem_cons_self
        by_cases hrest : rest = []
        · rwa [hrest, String.intercalate_singleton]
        · rw [String.intercalate_cons_of_ne_nil hrest]
          exact ne_empty_of_append (ne_empty_of_append hcommand)
      exact iff_of_false (run_ne_empty _).symm hne.symm
  · rw [if_pos hempty, runOf]
    split
    · rename_i hnil
      rw [hnil, String.intercalate_nil]
      exact iff_of_false (run_ne_empty _) hempty
    · exact String.append_right_inj _

/-- As many repositories of the distribution are disabled as the list
has. -/
theorem length_disabled {reponames commands : List String}
    (hrpm : context.basePackageType = "rpm")
    (h : List.Forall₂ (fun repo command =>
      handleRepo context (repoList context repoData) "disable" 1 0 repo = .ok command)
      reponames commands) :
    (commands.filter (· ≠ "")).length
      = (reponames.filter (isDistro context repoData)).length := by
  induction h with
  | nil => rfl
  | @cons repo command reponames commands hrepo _ ih =>
    have hiff := disable_ne_empty_iff hrepo
    by_cases hempty : command = ""
    · have hdistro : isDistro context repoData repo = false := by
        simpa [hempty, hrpm] using hiff
      rw [List.filter_cons_of_neg (by simpa using hempty),
        List.filter_cons_of_neg (by simp [hdistro]), ih]
    · rw [List.filter_cons_of_pos (by simpa using hempty),
        List.filter_cons_of_pos (hiff.mp hempty).2, List.length_cons, List.length_cons, ih]

/-- For one list: the output is the join, or there are at least two commands
without a separator. -/
theorem handleRepos_whole_iff (hmode : mode = "enable" ∨ mode = "disable")
    (htype : context.basePackageType = "rpm" ∨ context.basePackageType = "deb")
    {reponames commands : List String}
    (h : List.Forall₂ (fun repo command => standalone context repoData mode repo = .ok command)
      reponames commands) :
    handleRepos context repoData reponames mode = .ok (runOf (commands.filter (· ≠ ""))) ↔
      mode = "enable" ∨ context.basePackageType = "deb" ∨
        (reponames.filter (isDistro context repoData)).length ≤ 1 := by
  have hrepos := h.imp fun _ _ => standalone_eq_ok
  have hnonempty : ∀ command ∈ commands.filter (· ≠ ""), command ≠ "" := by simp
  rw [handleRepos, handleReposFrom_eq hrepos (Nat.zero_add _), String.empty_append]
  have hok : ∀ out out' : String, (Except.ok out : Except RepoError String) = .ok out' ↔ out = out' :=
    fun out out' => by rw [Except.ok.injEq]
  refine (hok _ _).trans ((run_eq_runOf_iff hnonempty _).trans ?_)
  rcases hmode with rfl | rfl
  · have hall : commands.filter (· ≠ "") = commands := by
      refine List.filter_eq_self.mpr fun command hmem => ?_
      obtain ⟨repo, -, hrepo⟩ := exists_left_of_mem hrepos hmem
      simpa using command_ne_empty ⟨rfl, htype⟩ hrepo
    rw [if_pos ⟨rfl, htype⟩, hall]
    exact iff_of_true rfl (Or.inl rfl)
  · rw [if_neg fun hsep => absurd hsep.1 (by decide), join_eq_intercalate_iff]
    rcases htype with hrpm | hdeb
    · rw [length_disabled hrpm hrepos, hrpm]
      simp
    · have hnone : commands.filter (· ≠ "") = [] := by
        refine List.filter_eq_nil_iff.mpr fun command hmem hne => ?_
        obtain ⟨repo, -, hrepo⟩ := exists_left_of_mem hrepos hmem
        have hrpm := ((disable_ne_empty_iff hrepo).mp (by simpa using hne)).1
        rw [hdeb] at hrpm
        exact absurd hrpm (by decide)
      rw [hnone]
      exact iff_of_true (Nat.zero_le _) (Or.inr (Or.inl hdeb))

/-- `handle_repos` joins the commands of the listed repositories, and the
outputs for any two parts of the list, if and only if it enables them, or they
are those of a deb distribution, or at most one of them is to be disabled. -/
theorem handleRepos_joined_iff (hmode : mode = "enable" ∨ mode = "disable")
    (htype : context.basePackageType = "rpm" ∨ context.basePackageType = "deb")
    {reponames commands : List String}
    (h : List.Forall₂ (fun repo command => standalone context repoData mode repo = .ok command)
      reponames commands) :
    Joined context repoData mode reponames commands ↔
      mode = "enable" ∨ context.basePackageType = "deb" ∨
        (reponames.filter (isDistro context repoData)).length ≤ 1 := by
  constructor
  · exact fun hjoined => (handleRepos_whole_iff hmode htype h).mp hjoined.whole
  · intro hcondition
    have hwhole := (handleRepos_whole_iff hmode htype h).mpr hcondition
    refine ⟨hwhole, ?_⟩
    rintro xs ys rfl
    -- the two parts of the list meet the condition as well
    have hxs := List.forall₂_take xs.length h
    have hys := List.forall₂_drop xs.length h
    rw [List.take_left] at hxs
    rw [List.drop_left] at hys
    rw [List.filter_append, List.length_append] at hcondition
    refine ⟨_, _, (handleRepos_whole_iff hmode htype hxs).mpr (hcondition.imp_right
      (Or.imp_right fun hle => by omega)), (handleRepos_whole_iff hmode htype hys).mpr
      (hcondition.imp_right (Or.imp_right fun hle => by omega)), ?_⟩
    rw [joinRuns_runOf, ← List.filter_append, List.take_append_drop]
    exact hwhole

end Law

/-! ## Two repositories to disable -/

def centos : RepoContext := ⟨"rpm", "centos", "x86_64"⟩

def centosRepos : Dict String (Dict String Repo) :=
  [("rpm",
    [("crb", [("distro", .bool true), ("name", .str "crb")]),
      ("extras", [("distro", .bool true), ("name", .str "extras")])])]

/-- `handleRepos_joined_iff` for two repositories that are enabled. -/
theorem joined_enable : Joined centos centosRepos "enable" ["crb", "extras"]
    ["dnf config-manager --enable crb || true", "dnf config-manager --enable extras || true"] := by
  refine (handleRepos_joined_iff (Or.inl rfl) (Or.inl rfl) ?_).mpr (Or.inl rfl)
  exact .cons (by decide +kernel) (.cons (by decide +kernel) .nil)

/-- The commands that disable two repositories run into each other. -/
theorem disable_glued :
    handleRepos centos centosRepos ["crb", "extras"] "disable"
        = .ok "RUN dnf config-manager --disable crb || truednf config-manager --disable extras || true" ∧
      ∃ commands, List.Forall₂ (fun repo command =>
          standalone centos centosRepos "disable" repo = .ok command) ["crb", "extras"] commands ∧
        ¬ Joined centos centosRepos "disable" ["crb", "extras"] commands := by
  have hcrb : standalone centos centosRepos "disable" "crb"
      = .ok "dnf config-manager --disable crb || true" := by decide +kernel
  have hextras : standalone centos centosRepos "disable" "extras"
      = .ok "dnf config-manager --disable extras || true" := by decide +kernel
  refine ⟨by decide +kernel, _, .cons hcrb (.cons hextras .nil), fun hjoined => ?_⟩
  exact absurd hjoined.whole (by decide +kernel)

end Kolla.Template
