import Mathlib

/-!
# Commands for packages

`debian_package_install` of `kolla/template/methods.py` makes one shell
command of a list of packages: those that `apt-get` can install, and those
that are URLs of `.deb` files.

The test for a URL looks at the first four characters only, so a package
whose name begins with `http` is downloaded like a URL.  The name of the file
that is downloaded is what comes after the last slash, and that may be nothing.
`Intended` says what the command is to be, in words of its own, and
`debianPackageInstall_intended_iff` that it is this exactly where neither
happens.  The converse direction compares the lengths of two commands.
-/

namespace Kolla.Template

/-! ## Joined texts -/

theorem length_intercalate {sep : String} {texts : List String} (h : texts ≠ []) :
    (sep.intercalate texts).length + sep.length
      = (texts.map fun text => text.length + sep.length).sum := by
  induction texts with
  | nil => exact absurd rfl h
  | cons text texts ih =>
    by_cases htexts : texts = []
    · subst htexts
      simp
    · have hrest := ih htexts
      rw [String.intercalate_cons_of_ne_nil htexts, List.map_cons, List.sum_cons, ← hrest]
      simp only [String.length_append]
      omega

/-! ## `debian_package_install` -/

/-- `text.startswith(start)`. -/
def startsWith (start text : String) : Bool := start.toList.isPrefixOf text.toList

/-- `url[url.rfind('/') + 1:]`. -/
def fileName (url : String) : String := String.ofList (url.toList.rtakeWhile (· ≠ '/'))

/-- The commands for the regular packages. -/
def aptCommands (regPackages : List String) (cleanPackageCache : Bool) : List String :=
  if regPackages = [] then []
  else
    ["apt-get --error-on=any update",
      "apt-get -y install --no-install-recommends " ++ " ".intercalate regPackages] ++
    if cleanPackageCache then ["apt-get clean", "rm -rf /var/lib/apt/lists/*"] else []

/-- The commands for one URL. -/
def urlCommands (url : String) : List String :=
  let name := fileName url
  ["curl --location " ++ url ++ " -o " ++ name, "dpkg -i " ++ name, "rm -rf " ++ name]

/-- One iteration of the loop that divides the packages. -/
def dividePackage (groups : List String × List String) (package : String) :
    List String × List String :=
  if startsWith "http" package then (groups.1, groups.2 ++ [package])
  else (groups.1 ++ [package], groups.2)

def debianPackageInstall (packages : List String) (cleanPackageCache : Bool) : String :=
  let groups := packages.foldl dividePackage ([], [])
  " && ".intercalate (aptCommands groups.1 cleanPackageCache ++ groups.2.flatMap urlCommands)

theorem dividePackages_eq (packages : List String) (groups : List String × List String) :
    packages.foldl dividePackage groups
      = (groups.1 ++ packages.filter (fun package => !startsWith "http" package),
          groups.2 ++ packages.filter (startsWith "http")) := by
  induction packages generalizing groups with
  | nil => simp
  | cons package packages ih =>
    rw [List.foldl_cons, ih, dividePackage]
    by_cases h : startsWith "http" package = true
    · simp [h]
    · simp [h]

/-! ## The intended command -/

/-- A URL, by its scheme. -/
def isUrl (package : String) : Bool :=
  startsWith "http://" package || startsWith "https://" package

/-- The file that a URL names. -/
def NamesFile (url file : String) : Prop :=
  (∃ start, url = start ++ "/" ++ file) ∧ '/' ∉ file.toList ∧ file ∉ ["", ".", ".."]

/-- A command, by its words. -/
def words (args : List String) : String := " ".intercalate args

/-- A download, an installation and a removal of the file that the URL names. -/
def Fetches (url : String) (commands : List String) : Prop :=
  ∃ file, NamesFile url file ∧ commands =
    [words ["curl", "--location", url, "-o", file], words ["dpkg", "-i", file],
      words ["rm", "-rf", file]]

/-- The update, one installation of all the packages, and the clean-up. -/
def Installs (packages : List String) (cleanPackageCache : Bool) (commands : List String) : Prop :=
  commands = [words ["apt-get", "--error-on=any", "update"],
    words (["apt-get", "-y", "install", "--no-install-recommends"] ++ packages)] ++
      if cleanPackageCache then
        [words ["apt-get", "clean"], words ["rm", "-rf", "/var/lib/apt/lists/*"]]
      else []

/-- The commands for the packages that are no URLs, and those for each URL. -/
structure Divided (packages : List String) (cleanPackageCache : Bool) (installs : List String)
    (fetches : List (List String)) : Prop where
  nothing : packages.filter (fun package => !isUrl package) = [] → installs = []
  installed : packages.filter (fun package => !isUrl package) ≠ [] →
    Installs (packages.filter fun package => !isUrl package) cleanPackageCache installs
  fetched : List.Forall₂ Fetches (packages.filter isUrl) fetches

/-- What the command for some packages and URLs is to be. -/
def Intended (packages : List String) (cleanPackageCache : Bool) (command : String) : Prop :=
  ∃ installs fetches, Divided packages cleanPackageCache installs fetches ∧
    command = " && ".intercalate (installs ++ fetches.flatten)

theorem NamesFile.eq_fileName {url file : String} (h : NamesFile url file) : file = fileName url := by
  obtain ⟨⟨start, rfl⟩, hslash, -⟩ := h
  have hkept : ∀ c ∈ file.toList.reverse, decide (c ≠ '/') = true := fun c hc =>
    decide_eq_true fun heq => hslash (heq ▸ List.mem_reverse.mp hc)
  have hname : (start ++ "/" ++ file).toList.rtakeWhile (fun c => decide (c ≠ '/')) = file.toList := by
    simp only [String.toList_append]
    rw [List.rtakeWhile, List.reverse_append, List.takeWhile_append_of_pos hkept]
    simp
  rw [fileName, hname, String.ofList_toList]

theorem fetches_iff {url : String} {commands : List String} :
    Fetches url commands ↔ (∃ file, NamesFile url file) ∧ commands = urlCommands url := by
  have hwords : ∀ name, [words ["curl", "--location", url, "-o", name], words ["dpkg", "-i", name],
      words ["rm", "-rf", name]]
        = ["curl --location " ++ url ++ " -o " ++ name, "dpkg -i " ++ name, "rm -rf " ++ name] := by
    intro name
    have hoption : " " ++ "-o " = " -o " := rfl
    simp only [words, String.intercalate_cons_cons, String.intercalate_singleton]
    simp only [String.reduceAppend, ← String.append_assoc, List.cons.injEq, String.append_left_inj,
      and_true]
    rw [String.append_assoc, hoption]
  constructor
  · rintro ⟨file, hfile, rfl⟩
    refine ⟨⟨file, hfile⟩, ?_⟩
    rw [urlCommands, ← hfile.eq_fileName, hwords]
  · rintro ⟨⟨file, hfile⟩, rfl⟩
    refine ⟨file, hfile, ?_⟩
    rw [urlCommands, ← hfile.eq_fileName, hwords]

/-- The command with URLs in one group and everything else in the other, in the words
of the code. -/
def installCommand (packages : List String) (cleanPackageCache : Bool) : String :=
  " && ".intercalate
    (aptCommands (packages.filter fun package => !isUrl package) cleanPackageCache ++
      (packages.filter isUrl).flatMap urlCommands)

theorem forall₂_fetches {urls : List String} {fetches : List (List String)} :
    List.Forall₂ Fetches urls fetches ↔
      (∀ url ∈ urls, ∃ file, NamesFile url file) ∧ fetches = urls.map urlCommands := by
  induction urls generalizing fetches with
  | nil => simp
  | cons url urls ih =>
    simp only [List.forall₂_cons_left_iff, fetches_iff, ih, List.forall_mem_cons, List.map_cons]
    constructor
    · rintro ⟨commands, rest, ⟨hfile, rfl⟩, ⟨hfiles, rfl⟩, rfl⟩
      exact ⟨⟨hfile, hfiles⟩, rfl⟩
    · rintro ⟨⟨hfile, hfiles⟩, rfl⟩
      exact ⟨_, _, ⟨hfile, rfl⟩, ⟨hfiles, rfl⟩, rfl⟩

theorem installs_iff {packages : List String} (h : packages ≠ []) {cleanPackageCache : Bool}
    {commands : List String} :
    Installs packages cleanPackageCache commands ↔
      commands = aptCommands packages cleanPackageCache := by
  have hfixed : "apt-get -y install --no-install-recommends "
      = " ".intercalate ["apt-get", "-y", "install", "--no-install-recommends"] ++ " " := by decide
  have hinstall : words (["apt-get", "-y", "install", "--no-install-recommends"] ++ packages)
      = "apt-get -y install --no-install-recommends " ++ " ".intercalate packages := by
    rw [words, String.intercalate_append_of_ne_nil (List.cons_ne_nil _ _) h, hfixed]
  have hupdate : words ["apt-get", "--error-on=any", "update"] = "apt-get --error-on=any update" := by
    decide
  have hclean : [words ["apt-get", "clean"], words ["rm", "-rf", "/var/lib/apt/lists/*"]]
      = ["apt-get clean", "rm -rf /var/lib/apt/lists/*"] := by decide
  rw [Installs, aptCommands, if_neg h, hinstall, hupdate, hclean]

/-- The command is to be the one in the words of the code, and there is none unless each
URL names a file. -/
theorem intended_iff {packages : List String} {cleanPackageCache : Bool} {command : String} :
    Intended packages cleanPackageCache command ↔
      (∀ url ∈ packages, isUrl url = true → ∃ file, NamesFile url file) ∧
        command = installCommand packages cleanPackageCache := by
  have hdivided : ∀ installs fetches, Divided packages cleanPackageCache installs fetches ↔
      installs = aptCommands (packages.filter fun package => !isUrl package) cleanPackageCache ∧
        (∀ url ∈ packages.filter isUrl, ∃ file, NamesFile url file) ∧
          fetches = (packages.filter isUrl).map urlCommands := by
    intro installs fetches
    rw [← forall₂_fetches]
    by_cases hnone : packages.filter (fun package => !isUrl package) = []
    · have hempty : aptCommands (packages.filter fun package => !isUrl package) cleanPackageCache
          = [] := if_pos hnone
      rw [hempty]
      exact ⟨fun h => ⟨h.nothing hnone, h.fetched⟩,
        fun h => ⟨fun _ => h.1, fun hsome => absurd hnone hsome, h.2⟩⟩
    · rw [← installs_iff hnone]
      exact ⟨fun h => ⟨h.installed hnone, h.fetched⟩,
        fun h => ⟨fun hempty => absurd hempty hnone, fun _ => h.1, h.2⟩⟩
  simp only [Intended, hdivided, List.mem_filter, and_imp]
  rw [installCommand, List.flatMap]
  constructor
  · rintro ⟨installs, fetches, ⟨rfl, hfiles, rfl⟩, rfl⟩
    exact ⟨hfiles, rfl⟩
  · rintro ⟨hfiles, rfl⟩
    exact ⟨_, _, ⟨rfl, hfiles, rfl⟩, rfl⟩

theorem startsWith_of_isUrl {package : String} (h : isUrl package = true) :
    startsWith "http" package = true := by
  rw [isUrl, Bool.or_eq_true] at h
  rw [startsWith, List.isPrefixOf_iff_prefix]
  rcases h with h | h
  · exact List.IsPrefix.trans (by decide) (List.isPrefixOf_iff_prefix.mp h)
  · exact List.IsPrefix.trans (by decide) (List.isPrefixOf_iff_prefix.mp h)

/-- What a package adds to the length of the command: as a URL, or among the
arguments of `apt-get`. -/
def weight (asUrl : String → Bool) (package : String) : ℕ :=
  if asUrl package then ((urlCommands package).map fun command => command.length + 4).sum
  else package.length + 1

theorem sum_weight (asUrl : String → Bool) (packages : List String) :
    (((packages.filter asUrl).flatMap urlCommands).map fun command => command.length + 4).sum
        + ((packages.filter fun package => !asUrl package).map fun package => package.length + 1).sum
      = (packages.map (weight asUrl)).sum := by
  induction packages with
  | nil => rfl
  | cons package packages ih =>
    rw [List.map_cons, List.sum_cons, ← ih, weight]
    by_cases h : asUrl package = true
    · simp only [h, List.filter_cons_of_pos, List.flatMap_cons, List.map_append, List.sum_append,
        Bool.not_true, Bool.false_eq_true, if_true, not_false_eq_true, List.filter_cons_of_neg]
      omega
    · simp only [h, List.filter_cons_of_neg, not_false_eq_true, Bool.not_false, if_false,
        List.filter_cons_of_pos, List.map_cons, List.sum_cons, Bool.false_eq_true]
      omega

/-- The length of the command, if there is a regular package: a constant and
the weights. -/
theorem length_command (cleanPackageCache : Bool) :
    ∃ overhead, ∀ (asUrl : String → Bool) (packages : List String),
      packages.filter (fun package => !asUrl package) ≠ [] →
        (" && ".intercalate (aptCommands (packages.filter fun package => !asUrl package)
            cleanPackageCache ++ (packages.filter asUrl).flatMap urlCommands)).length
          = overhead + (packages.map (weight asUrl)).sum := by
  refine ⟨"apt-get --error-on=any update".length + 4
    + ("apt-get -y install --no-install-recommends ".length - 1)
    + ((if cleanPackageCache then ["apt-get clean", "rm -rf /var/lib/apt/lists/*"] else []).map
        fun command => command.length + 4).sum, fun asUrl packages hregular => ?_⟩
  have hinstall := @length_intercalate " " _ hregular
  have hcommands := @length_intercalate " && "
    (aptCommands (packages.filter fun package => !asUrl package) cleanPackageCache
      ++ (packages.filter asUrl).flatMap urlCommands) (by simp [aptCommands, hregular])
  have hsep : " && ".length = 4 := rfl
  have hblank : " ".length = 1 := rfl
  have hpositive : 1 ≤ "apt-get -y install --no-install-recommends ".length := by decide
  rw [List.map_append, List.sum_append, aptCommands, if_neg hregular, List.map_append,
    List.sum_append, List.map_cons, List.map_cons, List.map_nil, List.sum_cons, List.sum_cons,
    List.sum_nil, String.length_append, hsep] at hcommands
  rw [hblank] at hinstall
  rw [aptCommands, if_neg hregular, ← sum_weight]
  omega

/-- A package counts more as a URL. -/
theorem weight_lt {asUrl asUrl' : String → Bool} {package : String}
    (h : asUrl package = false) (h' : asUrl' package = true) :
    weight asUrl package < weight asUrl' package := by
  have hcurl : ("curl --location " ++ package ++ " -o " ++ fileName package).length
      = "curl --location ".length + package.length + " -o ".length + (fileName package).length := by
    simp only [String.length_append]
  rw [weight, weight, h, h', if_neg Bool.false_ne_true, if_pos rfl, urlCommands, List.map_cons,
    List.sum_cons, hcurl]
  omega

/-! ## Where the command is the intended one -/

theorem debianPackageInstall_eq (packages : List String) (cleanPackageCache : Bool) :
    debianPackageInstall packages cleanPackageCache
      = " && ".intercalate
          (aptCommands (packages.filter fun package => !startsWith "http" package)
              cleanPackageCache ++
            (packages.filter (startsWith "http")).flatMap urlCommands) := by
  rw [debianPackageInstall, dividePackages_eq]
  rfl

/-- Commands that begin with a text begin with its first character. -/
theorem head_intercalate {sep text : String} {c : Char} (htext : text.toList.head? = some c)
    (texts : List String) : (sep.intercalate (text :: texts)).toList.head? = some c := by
  have hne : text.toList ≠ [] := by
    intro hnil
    rw [hnil] at htext
    cases htext
  by_cases htexts : texts = []
  · rw [htexts, String.intercalate_singleton, htext]
  · rw [String.intercalate_cons_of_ne_nil htexts, String.toList_append, String.toList_append,
      List.append_assoc, List.head?_append_of_ne_nil _ hne, htext]

/-- The code divides the packages as intended if and only if no package but a URL
begins with `http`. -/
theorem debianPackageInstall_eq_iff (packages : List String) (cleanPackageCache : Bool) :
    debianPackageInstall packages cleanPackageCache = installCommand packages cleanPackageCache ↔
      ∀ package ∈ packages, startsWith "http" package = true → isUrl package = true := by
  rw [debianPackageInstall_eq, installCommand]
  constructor
  · intro heq
    by_contra hnot
    obtain ⟨package, hmem, hhttp, hurl⟩ : ∃ package ∈ packages,
        startsWith "http" package = true ∧ isUrl package = false := by simpa using hnot
    have hregular : packages.filter (fun package => !isUrl package) ≠ [] :=
      List.ne_nil_of_mem (List.mem_filter.mpr ⟨hmem, by rw [hurl]; rfl⟩)
    by_cases hcode : packages.filter (fun package => !startsWith "http" package) = []
    · -- one command begins with `curl` and the other with `apt-get`
      have hcurl : packages.filter (startsWith "http") ≠ [] :=
        List.ne_nil_of_mem (List.mem_filter.mpr ⟨hmem, hhttp⟩)
      obtain ⟨url, urls, hurls⟩ := List.exists_cons_of_ne_nil hcurl
      rw [hcode, hurls, aptCommands, if_pos rfl, aptCommands, if_neg hregular, List.nil_append,
        List.flatMap_cons] at heq
      have hhead := congrArg (fun command => command.toList.head?) heq
      rw [urlCommands, List.cons_append, head_intercalate (c := 'c') (by simp), List.append_assoc,
        List.cons_append,
        @head_intercalate " && " "apt-get --error-on=any update" 'a' (by decide)] at hhead
      exact absurd hhead (by decide)
    · obtain ⟨overhead, hlength⟩ := length_command cleanPackageCache
      have hcompare := congrArg String.length heq
      rw [hlength _ _ hcode, hlength _ _ hregular] at hcompare
      have hlt : (packages.map (weight isUrl)).sum < (packages.map (weight (startsWith "http"))).sum := by
        refine List.sum_lt_sum _ _ (fun package _ => ?_) ⟨package, hmem, weight_lt hurl hhttp⟩
        by_cases hsame : isUrl package = startsWith "http" package
        · rw [weight, weight, hsame]
        · cases hu : isUrl package with
          | true => exact absurd (hu.trans (startsWith_of_isUrl hu).symm) hsame
          | false =>
            refine le_of_lt (weight_lt hu ?_)
            rw [hu] at hsame
            simpa using Ne.symm hsame
      omega
  · intro h
    have hsame : ∀ package ∈ packages, startsWith "http" package = isUrl package := by
      intro package hmem
      cases hu : isUrl package with
      | true => exact startsWith_of_isUrl hu
      | false =>
        by_contra hhttp
        rw [h package hmem (by simpa using hhttp)] at hu
        cases hu
    rw [List.filter_congr hsame, List.filter_congr (fun package hmem => by rw [hsame package hmem])]

/-- The command is the intended one if and only if no package but a URL begins with
`http` and each URL names a file. -/
theorem debianPackageInstall_intended_iff (packages : List String) (cleanPackageCache : Bool) :
    Intended packages cleanPackageCache (debianPackageInstall packages cleanPackageCache) ↔
      (∀ package ∈ packages, startsWith "http" package = true → isUrl package = true) ∧
        ∀ url ∈ packages, isUrl url = true → ∃ file, NamesFile url file := by
  rw [intended_iff, debianPackageInstall_eq_iff, and_comm]

/-- `httpie` is no URL, and it is downloaded. -/
theorem http_package_downloaded :
    ¬ Intended ["httpie"] false (debianPackageInstall ["httpie"] false) ∧
      debianPackageInstall ["httpie"] false
        = "curl --location httpie -o httpie && dpkg -i httpie && rm -rf httpie" := by
  have hcode : debianPackageInstall ["httpie"] false
      = "curl --location httpie -o httpie && dpkg -i httpie && rm -rf httpie" := by decide +kernel
  refine ⟨fun h => ?_, hcode⟩
  have hinstall := (intended_iff.mp h).2
  rw [hcode] at hinstall
  exact absurd hinstall (by decide +kernel)

/-- A URL that ends with a slash names no file. -/
example : fileName "http://a/" = "" := by decide +kernel

end Kolla.Template
