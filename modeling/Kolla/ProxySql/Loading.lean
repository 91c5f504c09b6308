import Kolla.Lib.Masking
import Kolla.Lib.PyValue
import Mathlib.Data.List.Forall2

/-!
# Loading the ProxySQL configuration

`_load_config` of `docker/proxysql/kolla_proxysql_config_sync` goes through three
paths.  A path that is no directory is a file of settings.  For each directory the
files of both directories are read, so that with two directories everything is read
twice; the lists are made anew each time.  `_users_sanity` and `_rules_sanity` then
leave out the users and the rules that are there already, and number the rules.

`loadConfig_spec` says what the result is for all files.
-/

namespace Kolla.ProxySql

open Kolla.Lib

variable {α : Type} [DecidableEq α]

/-- `os.path.join(a, b)`. -/
def join (a b : String) : String :=
  if b.toList.head? = some '/' then b
  else if a = "" ∨ a.toList.getLast? = some '/' then a ++ b
  else a ++ "/" ++ b

/-- The files.  `safe_load` is `open` with `yaml.safe_load`.  A directory may be
listed in another order each time, which goes by the path that is visited. -/
structure Disk (α : Type) where
  isdir : String → Bool
  safeLoad : String → Except PyFailure (PyValue α)
  names : String → List String
  listed : String → String → List String
  listed_perm : ∀ cfg dir, (listed cfg dir).Perm (names dir)

/-- `os.listdir(dir)` while the path of `cfg` is visited. -/
def Disk.listdir (disk : Disk α) (cfg dir : String) : Except PyFailure (List String) :=
  if disk.isdir dir then .ok (disk.listed cfg dir) else .error .osError

/-! ## `_load_config` -/

def globalPath (confDir : String) : String := confDir ++ "/proxysql.yaml"

def usersPath (confDir : String) : String := confDir ++ "/users"

def rulesPath (confDir : String) : String := confDir ++ "/rules"

/-- `self.configs`. -/
def configs (confDir : String) : Dict String String :=
  [("global", globalPath confDir), ("users", usersPath confDir), ("rules", rulesPath confDir)]

/-- `users`, `rules` and `self.config`. -/
structure Loading (α : Type) where
  users : Dict String (List (PyValue α))
  rules : Dict String (List (PyValue α))
  config : Dict (PyKey α) (PyValue α)

/-- `lists[key].append(i)`. -/
def append (key : String) (lists : Dict String (List (PyValue α))) (i : PyValue α) :
    Except PyFailure (Dict String (List (PyValue α))) :=
  match lists.lookup key with
  | some xs => .ok (lists.insert key (xs ++ [i]))
  | none => .error .keyError

/-- `config.update(lists)`. -/
def updateLists (config : Dict (PyKey α) (PyValue α)) (lists : Dict String (List (PyValue α))) :
    Dict (PyKey α) (PyValue α) :=
  lists.foldl (fun config e => config.insert (.str e.1) (.list e.2)) config

section Loops

variable (rt : Runtime α) (disk : Disk α)

/-- One file of users or of rules. -/
def readConf (key : String) (lists : Dict String (List (PyValue α))) (path : String) :
    Except PyFailure (Dict String (List (PyValue α))) := do
  let tmp ← disk.safeLoad path
  let value ← tmp.item key
  let elements ← rt.elements value
  elements.foldlM (append key) lists

/-- One round of the loop over `self.configs`. -/
def visit (confDir : String) (st : Loading α) (entry : String × String) :
    Except PyFailure (Loading α) := do
  let (cfg, path) := entry
  if ¬ disk.isdir path then
    let value ← disk.safeLoad path
    let config ← rt.update st.config value
    return { st with config := config }
  else
    let users := st.users.insert "mysql_users" []
    let rules := st.rules.insert "mysql_query_rules" []
    let userNames ← disk.listdir cfg (usersPath confDir)
    let ruleNames ← disk.listdir cfg (rulesPath confDir)
    let userPaths := userNames.map (join (usersPath confDir))
    let rulePaths := ruleNames.map (join (rulesPath confDir))
    let users ← userPaths.foldlM (readConf rt disk "mysql_users") users
    let config := updateLists st.config users
    let rules ← rulePaths.foldlM (readConf rt disk "mysql_query_rules") rules
    return ⟨users, rules, updateLists config rules⟩

/-! ## `_sanity` -/

/-- `users_added` and `users`. -/
structure AddedUsers (α : Type) where
  added : List (PyValue α)
  users : List (PyValue α)

/-- One round of `_users_sanity`. -/
def addUser (st : AddedUsers α) (user : PyValue α) : Except PyFailure (AddedUsers α) := do
  let username ← user.item "username"
  if st.added.any (rt.eqv username) then return st
  else return ⟨st.added ++ [username], st.users ++ [user]⟩

/-- The text of a rule in `rules_added`, if it has one. -/
def ruleText (rule : PyValue α) : Except PyFailure (Option String) := do
  if ← rt.contains "schemaname" rule then
    return some ("schema:" ++ rt.format (← rule.item "schemaname"))
  else if ← rt.contains "username" rule then
    return some ("user:" ++ rt.format (← rule.item "username"))
  else return none

/-- `rules_added`, `rules` and `rule_id`. -/
structure AddedRules (α : Type) where
  added : List String
  rules : List (PyValue α)
  ruleId : ℕ

/-- One round of `_rules_sanity`. -/
def addRule (st : AddedRules α) (rule : PyValue α) : Except PyFailure (AddedRules α) := do
  match ← ruleText rt rule with
  | none => return st
  | some key =>
    if key ∈ st.added then return st
    else
      let rule ← rule.setItem "rule_id" (.int st.ruleId)
      return ⟨st.added ++ [key], st.rules ++ [rule], st.ruleId + 1⟩

/-- `self.config[key]`, as the list that a loop goes through. -/
def configList (config : Dict (PyKey α) (PyValue α)) (key : String) :
    Except PyFailure (List (PyValue α)) := do
  let value ← PyValue.item (.dict config) key
  rt.elements value

def usersSanity (config : Dict (PyKey α) (PyValue α)) :
    Except PyFailure (Dict (PyKey α) (PyValue α)) := do
  let users ← configList rt config "mysql_users"
  let st ← users.foldlM (addUser rt) ⟨[], []⟩
  return config.insert (.str "mysql_users") (.list st.users)

def rulesSanity (config : Dict (PyKey α) (PyValue α)) :
    Except PyFailure (Dict (PyKey α) (PyValue α)) := do
  let rules ← configList rt config "mysql_query_rules"
  let st ← rules.foldlM (addRule rt) ⟨[], [], 1⟩
  return config.insert (.str "mysql_query_rules") (.list st.rules)

/-- `self.config` after `_load_config`. -/
def loadConfig (confDir : String) : Except PyFailure (Dict (PyKey α) (PyValue α)) := do
  let st ← (configs confDir).foldlM (visit rt disk confDir) ⟨[], [], []⟩
  let config ← usersSanity rt st.config
  rulesSanity rt config

end Loops

/-! ## What is to be loaded -/

/-- The file lists `xs` under `key`. -/
def Lists (rt : Runtime α) (disk : Disk α) (key path : String) (xs : List (PyValue α)) : Prop :=
  ∃ tmp value, disk.safeLoad path = .ok tmp ∧ tmp.item key = .ok value ∧
    rt.elements value = .ok xs

/-- The files list `xs` under `key`, one after the other. -/
def InOrder (rt : Runtime α) (disk : Disk α) (key : String) (paths : List String)
    (xs : List (PyValue α)) : Prop :=
  ∃ parts, List.Forall₂ (Lists rt disk key) paths parts ∧ xs = parts.flatten

/-- A user's name. -/
def userName (user : PyValue α) : Option String :=
  match user.item "username" with
  | .ok (.str s) => some s
  | _ => none

/-- A rule's schema, or its user if it has no schema. -/
def ruleKey (rule : PyValue α) : Option (String ⊕ String) :=
  match rule.item "schemaname", rule.item "username" with
  | .ok (.str s), _ => some (.inl s)
  | .error _, .ok (.str s) => some (.inr s)
  | _, _ => none

def sameKey {κ : Type} [DecidableEq κ] (key : PyValue α → Option κ) (x y : PyValue α) : Bool :=
  decide (key x = key y)

/-- The elements with a key, without those whose key one before them has. -/
def firstsBy {κ : Type} [DecidableEq κ] (key : PyValue α → Option κ) (xs : List (PyValue α)) :
    List (PyValue α) :=
  (xs.filter fun x => (key x).isSome).eraseDupsBy fun x y => sameKey key y x

/-- The rule with a number. -/
def withRuleId (n : ℕ) : PyValue α → PyValue α
  | .dict items => .dict (Dict.insert items (.str "rule_id") (.int n))
  | rule => rule

/-- The rules with the numbers from one on. -/
def numbered (rules : List (PyValue α)) : List (PyValue α) :=
  rules.mapIdx fun i rule => withRuleId (i + 1) rule

/-! ## Reading the files -/

section Reading

variable {rt : Runtime α} {disk : Disk α} {key path confDir : String} {l xs ys : List (PyValue α)}
  {paths : List String}

theorem Lists.unique (h : Lists rt disk key path xs) (h' : Lists rt disk key path ys) : xs = ys := by
  obtain ⟨tmp, value, hload, hitem, helements⟩ := h
  obtain ⟨tmp', value', hload', hitem', helements'⟩ := h'
  rw [hload] at hload'
  cases hload'
  rw [hitem] at hitem'
  cases hitem'
  rw [helements] at helements'
  cases helements'
  rfl

omit [DecidableEq α] in
theorem foldlM_append : xs.foldlM (append key) [(key, l)] = .ok [(key, l ++ xs)] := by
  induction xs generalizing l with
  | nil => simp [pure, Except.pure]
  | cons x xs ih =>
    have hstep : append key [(key, l)] x = .ok [(key, l ++ [x])] := by
      simp [append, Dict.insert]
    rw [List.foldlM_cons, hstep]
    change xs.foldlM (append key) [(key, l ++ [x])] = _
    rw [ih, List.append_assoc, List.singleton_append]

theorem readConf_eq_ok {lists : Dict String (List (PyValue α))} :
    readConf rt disk key [(key, l)] path = .ok lists ↔
      ∃ xs, Lists rt disk key path xs ∧ lists = [(key, l ++ xs)] := by
  unfold readConf
  simp only [except_bind_eq_ok, foldlM_append]
  constructor
  · rintro ⟨tmp, hload, value, hitem, xs, helements, hlists⟩
    cases hlists
    exact ⟨xs, ⟨tmp, value, hload, hitem, helements⟩, rfl⟩
  · rintro ⟨xs, ⟨tmp, value, hload, hitem, helements⟩, rfl⟩
    exact ⟨tmp, hload, value, hitem, xs, helements, rfl⟩

/-- All files of a directory. -/
theorem foldlM_readConf_eq_ok {lists : Dict String (List (PyValue α))} :
    paths.foldlM (readConf rt disk key) [(key, l)] = .ok lists ↔
      ∃ xs, InOrder rt disk key paths xs ∧ lists = [(key, l ++ xs)] := by
  induction paths generalizing l with
  | nil =>
    constructor
    · intro h
      cases h
      exact ⟨[], ⟨[], .nil, rfl⟩, by simp⟩
    · rintro ⟨xs, ⟨parts, hparts, rfl⟩, rfl⟩
      cases hparts
      simp [pure, Except.pure]
  | cons path paths ih =>
    rw [List.foldlM_cons, except_bind_eq_ok]
    constructor
    · rintro ⟨lists', hpath, hpaths⟩
      obtain ⟨xs, hxs, rfl⟩ := readConf_eq_ok.mp hpath
      obtain ⟨ys, ⟨parts, hparts, rfl⟩, rfl⟩ := ih.mp hpaths
      exact ⟨xs ++ parts.flatten, ⟨xs :: parts, .cons hxs hparts, rfl⟩, by rw [List.append_assoc]⟩
    · rintro ⟨_, ⟨_, hparts, rfl⟩, rfl⟩
      cases hparts with
      | @cons _ xs _ parts hxs hparts =>
        refine ⟨_, readConf_eq_ok.mpr ⟨xs, hxs, rfl⟩, ih.mpr ⟨_, ⟨parts, hparts, rfl⟩, ?_⟩⟩
        rw [List.flatten_cons, List.append_assoc]

theorem InOrder.mem_iff (h : InOrder rt disk key paths xs) {x : PyValue α} :
    x ∈ xs ↔ ∃ path ∈ paths, ∃ ys, Lists rt disk key path ys ∧ x ∈ ys := by
  obtain ⟨parts, hparts, rfl⟩ := h
  induction hparts with
  | nil => simp
  | @cons path part paths parts hpart hparts ih =>
    rw [List.flatten_cons, List.mem_append, ih, List.exists_mem_cons_iff]
    refine or_congr_left ⟨fun hx => ⟨part, hpart, hx⟩, ?_⟩
    rintro ⟨ys, hys, hx⟩
    rwa [hpart.unique hys]

theorem exists_inOrder_iff :
    (∃ xs, InOrder rt disk key paths xs) ↔ ∀ path ∈ paths, ∃ xs, Lists rt disk key path xs := by
  induction paths with
  | nil => exact ⟨fun _ => nofun, fun _ => ⟨[], [], .nil, rfl⟩⟩
  | cons path paths ih =>
    rw [List.forall_mem_cons, ← ih]
    constructor
    · rintro ⟨_, _, hparts, rfl⟩
      cases hparts with
      | @cons _ xs _ parts hxs hparts => exact ⟨⟨xs, hxs⟩, _, parts, hparts, rfl⟩
    · rintro ⟨⟨xs, hxs⟩, _, parts, hparts, rfl⟩
      exact ⟨_, xs :: parts, .cons hxs hparts, rfl⟩

/-- The files of a directory in the order in which they are read. -/
def filesOf (disk : Disk α) (cfg dir : String) : List String :=
  (disk.listed cfg dir).map (join dir)

omit [DecidableEq α] in
/-- Every visit reads the same files. -/
theorem mem_filesOf {cfg dir : String} :
    path ∈ filesOf disk cfg dir ↔ ∃ f ∈ disk.names dir, path = join dir f := by
  rw [filesOf, List.mem_map]
  constructor
  · rintro ⟨f, hf, rfl⟩
    exact ⟨f, (disk.listed_perm cfg dir).mem_iff.mp hf, rfl⟩
  · rintro ⟨f, hf, rfl⟩
    exact ⟨f, (disk.listed_perm cfg dir).mem_iff.mpr hf, rfl⟩

/-- A round of the loop for a directory. -/
theorem visit_eq_ok {st st' : Loading α} {cfg : String} (hpath : disk.isdir path = true)
    (husers : disk.isdir (usersPath confDir) = true)
    (hrules : disk.isdir (rulesPath confDir) = true)
    (hst : st.users.insert "mysql_users" [] = [("mysql_users", [])] ∧
      st.rules.insert "mysql_query_rules" [] = [("mysql_query_rules", [])]) :
    visit rt disk confDir st (cfg, path) = .ok st' ↔ ∃ users rules,
      InOrder rt disk "mysql_users" (filesOf disk cfg (usersPath confDir)) users ∧
      InOrder rt disk "mysql_query_rules" (filesOf disk cfg (rulesPath confDir)) rules ∧
      st' = ⟨[("mysql_users", users)], [("mysql_query_rules", rules)],
        (st.config.insert (.str "mysql_users") (.list users)).insert (.str "mysql_query_rules")
          (.list rules)⟩ := by
  have hlist : ∀ dir, disk.isdir dir = true → disk.listdir cfg dir = .ok (disk.listed cfg dir) :=
    fun dir hdir => if_pos hdir
  have hvisit : visit rt disk confDir st (cfg, path) = do
      let users ← (filesOf disk cfg (usersPath confDir)).foldlM (readConf rt disk "mysql_users")
        [("mysql_users", [])]
      let rules ← (filesOf disk cfg (rulesPath confDir)).foldlM
        (readConf rt disk "mysql_query_rules") [("mysql_query_rules", [])]
      return ⟨users, rules, updateLists (updateLists st.config users) rules⟩ := by
    unfold visit
    dsimp only
    rw [if_neg (by simp [hpath]), hlist _ husers, hlist _ hrules, hst.1, hst.2]
    rfl
  rw [hvisit]
  simp only [except_bind_eq_ok, foldlM_readConf_eq_ok, List.nil_append]
  constructor
  · rintro ⟨_, ⟨users, hu, rfl⟩, _, ⟨rules, hr, rfl⟩, hst'⟩
    cases hst'
    exact ⟨users, rules, hu, hr, rfl⟩
  · rintro ⟨users, rules, hu, hr, rfl⟩
    exact ⟨_, ⟨users, hu, rfl⟩, _, ⟨rules, hr, rfl⟩, rfl⟩

end Reading

/-! ## `_users_sanity` -/

section Users

variable {rt : Runtime α} {users kept : List (PyValue α)} {user : PyValue α}

/-- The names that the program has seen. -/
def seenUsers (kept : List (PyValue α)) : List (PyValue α) :=
  kept.filterMap fun user => (userName user).map PyValue.str

def sameUser (x y : PyValue α) : Bool := sameKey userName x y

/-- The name is a text, if there is one. -/
def UserNamed (user : PyValue α) : Prop :=
  ∀ name, user.item "username" = .ok name → ∃ s, name = .str s

theorem userName_eq_some {s : String} :
    userName user = some s ↔ user.item "username" = .ok (.str s) := by
  unfold userName
  split
  · rename_i s' h
    simp [h]
  · rename_i h
    refine iff_of_false nofun ?_
    exact h s

theorem addUser_eq_ok (hnamed : UserNamed user) {st : AddedUsers α} :
    addUser rt ⟨seenUsers kept, kept⟩ user = .ok st ↔
      (∃ name, user.item "username" = .ok name) ∧
        st = ⟨seenUsers (keepOne sameUser kept user), keepOne sameUser kept user⟩ := by
  unfold addUser
  rw [except_bind_eq_ok]
  have hstep : ∀ s, userName user = some s →
      (if (seenUsers kept).any (rt.eqv (.str s)) then (pure ⟨seenUsers kept, kept⟩ :
          Except PyFailure (AddedUsers α))
        else pure ⟨seenUsers kept ++ [.str s], kept ++ [user]⟩)
      = .ok ⟨seenUsers (keepOne sameUser kept user), keepOne sameUser kept user⟩ := by
    intro s hs
    have hany : (seenUsers kept).any (rt.eqv (.str s)) = kept.any (sameUser · user) := by
      rw [seenUsers, List.any_filterMap]
      refine List.any_congr rfl fun x => ?_
      rw [sameUser, sameKey, hs]
      cases userName x with
      | none => simp
      | some s' => simp [rt.eqv_str, eq_comm]
    rw [hany, keepOne]
    split
    · rfl
    · simp [seenUsers, hs, pure, Except.pure]
  constructor
  · rintro ⟨name, hname, h⟩
    obtain ⟨s, rfl⟩ := hnamed name hname
    rw [hstep s (userName_eq_some.mpr hname)] at h
    cases h
    exact ⟨⟨_, hname⟩, rfl⟩
  · rintro ⟨⟨name, hname⟩, rfl⟩
    obtain ⟨s, rfl⟩ := hnamed name hname
    exact ⟨_, hname, hstep s (userName_eq_some.mpr hname)⟩

theorem foldlM_addUser_eq_ok (hnamed : ∀ user ∈ users, UserNamed user) {st : AddedUsers α} :
    users.foldlM (addUser rt) ⟨seenUsers kept, kept⟩ = .ok st ↔
      (∀ user ∈ users, ∃ name, user.item "username" = .ok name) ∧
        st = ⟨seenUsers (keepUnmasked sameUser kept users), keepUnmasked sameUser kept users⟩ := by
  induction users generalizing kept with
  | nil =>
    rw [List.foldlM_nil]
    simp [pure, Except.pure, eq_comm]
  | cons user users ih =>
    rw [List.forall_mem_cons] at hnamed
    rw [List.foldlM_cons, except_bind_eq_ok, List.forall_mem_cons]
    constructor
    · rintro ⟨st', hst', h⟩
      obtain ⟨hname, rfl⟩ := (addUser_eq_ok hnamed.1).mp hst'
      obtain ⟨hnames, rfl⟩ := (ih hnamed.2).mp h
      exact ⟨⟨hname, hnames⟩, rfl⟩
    · rintro ⟨⟨hname, hnames⟩, rfl⟩
      exact ⟨_, (addUser_eq_ok hnamed.1).mpr ⟨hname, rfl⟩, (ih hnamed.2).mpr ⟨hnames, rfl⟩⟩

end Users

/-! ## `_rules_sanity` -/

section Rules

variable {rt : Runtime α} {rules kept : List (PyValue α)} {rule : PyValue α}

/-- The text of a key. -/
def keyText : String ⊕ String → String
  | .inl s => "schema:" ++ s
  | .inr s => "user:" ++ s

/-- A schema and a user never have the same text. -/
theorem keyText_injective : Function.Injective keyText := by
  rintro (s | s) (s' | s') h
  · exact congrArg Sum.inl ((String.append_right_inj "schema:").mp h)
  · exact absurd (congrArg String.toList h) (by simp [keyText])
  · exact absurd (congrArg String.toList h) (by simp [keyText])
  · exact congrArg Sum.inr ((String.append_right_inj "user:").mp h)

/-- The texts that the program has seen. -/
def seenRules (kept : List (PyValue α)) : List String :=
  kept.filterMap fun rule => (ruleKey rule).map keyText

def sameRule (x y : PyValue α) : Bool := sameKey ruleKey x y

/-- The schema is a text, if there is one, and the user if there is no schema. -/
def RuleNamed (rule : PyValue α) : Prop :=
  (∀ name, rule.item "schemaname" = .ok name → ∃ s, name = .str s) ∧
    ((∀ name, rule.item "schemaname" ≠ .ok name) →
      ∀ name, rule.item "username" = .ok name → ∃ s, name = .str s)

/-- The text that the program makes is that of the key. -/
theorem ruleText_eq_ok (hnamed : RuleNamed rule) {text : Option String}
    (h : ruleText rt rule = .ok text) : text = (ruleKey rule).map keyText := by
  unfold ruleText at h
  obtain ⟨hasSchema, hschema, h⟩ := except_bind_eq_ok.mp h
  cases hasSchema with
  | true =>
    rw [if_pos rfl] at h
    obtain ⟨name, hname, h⟩ := except_bind_eq_ok.mp h
    obtain ⟨s, rfl⟩ := hnamed.1 name hname
    cases h
    rw [rt.format_str, ruleKey, hname]
    rfl
  | false =>
    obtain ⟨e, he⟩ := PyValue.item_of_not_contains hschema
    rw [if_neg Bool.false_ne_true] at h
    obtain ⟨hasUser, huser, h⟩ := except_bind_eq_ok.mp h
    cases hasUser with
    | true =>
      rw [if_pos rfl] at h
      obtain ⟨name, hname, h⟩ := except_bind_eq_ok.mp h
      obtain ⟨s, rfl⟩ := hnamed.2 (fun _ h => by rw [he] at h; cases h) name hname
      cases h
      rw [rt.format_str, ruleKey, he, hname]
      rfl
    | false =>
      obtain ⟨e', he'⟩ := PyValue.item_of_not_contains huser
      rw [if_neg Bool.false_ne_true] at h
      cases h
      rw [ruleKey, he, he']
      rfl

/-- A rule with a key is a dictionary. -/
theorem setItem_of_ruleKey {key : String ⊕ String} (h : ruleKey rule = some key) (n : ℕ) :
    rule.setItem "rule_id" (.int n) = .ok (withRuleId n rule) := by
  cases rule with
  | dict items => rfl
  | str s => cases h
  | int m => cases h
  | other a => cases h
  | list xs => cases h

theorem addRule_eq_ok (hnamed : RuleNamed rule) {st : AddedRules α} :
    addRule rt ⟨seenRules kept, numbered kept, kept.length + 1⟩ rule = .ok st ↔
      (∃ text, ruleText rt rule = .ok text) ∧
        st = (fun kept => ⟨seenRules kept, numbered kept, kept.length + 1⟩ : _ → AddedRules α)
          (if (ruleKey rule).isSome then keepOne sameRule kept rule else kept) := by
  unfold addRule
  rw [except_bind_eq_ok]
  have hstep : ∀ text, ruleText rt rule = .ok text →
      (match text with
        | none => (pure ⟨seenRules kept, numbered kept, kept.length + 1⟩ :
            Except PyFailure (AddedRules α))
        | some key =>
          if key ∈ seenRules kept then pure ⟨seenRules kept, numbered kept, kept.length + 1⟩
          else do
            let rule ← rule.setItem "rule_id" (.int (kept.length + 1 : ℕ))
            pure ⟨seenRules kept ++ [key], numbered kept ++ [rule], kept.length + 1 + 1⟩)
      = .ok ((fun kept => ⟨seenRules kept, numbered kept, kept.length + 1⟩ : _ → AddedRules α)
          (if (ruleKey rule).isSome then keepOne sameRule kept rule else kept)) := by
    intro text htext
    rw [ruleText_eq_ok hnamed htext]
    cases hkey : ruleKey rule with
    | none => rfl
    | some key =>
      have hmem : keyText key ∈ seenRules kept ↔ kept.any (sameRule · rule) = true := by
        rw [seenRules, List.mem_filterMap, List.any_eq_true]
        refine exists_congr fun x => and_congr_right fun _ => ?_
        rw [sameRule, sameKey, hkey, decide_eq_true_iff, Option.map_eq_some_iff]
        constructor
        · rintro ⟨key', hkey', h⟩
          rw [hkey', keyText_injective h]
        · intro h
          exact ⟨key, h, rfl⟩
      rw [Option.map_some, Option.isSome_some, if_pos rfl, keepOne]
      dsimp only
      by_cases hseen : keyText key ∈ seenRules kept
      · rw [if_pos hseen, if_pos (hmem.mp hseen)]
        rfl
      · rw [if_neg hseen, if_neg (mt hmem.mpr hseen), setItem_of_ruleKey hkey]
        simp [seenRules, hkey, numbered, pure, Except.pure, bind, Except.bind, List.mapIdx_append]
  constructor
  · rintro ⟨text, htext, h⟩
    exact ⟨⟨text, htext⟩, Except.ok.inj (h.symm.trans (hstep text htext))⟩
  · rintro ⟨⟨text, htext⟩, rfl⟩
    exact ⟨text, htext, hstep text htext⟩

theorem foldlM_addRule_eq_ok (hnamed : ∀ rule ∈ rules, RuleNamed rule) {st : AddedRules α} :
    rules.foldlM (addRule rt) ⟨seenRules kept, numbered kept, kept.length + 1⟩ = .ok st ↔
      (∀ rule ∈ rules, ∃ text, ruleText rt rule = .ok text) ∧
        st = (fun kept => ⟨seenRules kept, numbered kept, kept.length + 1⟩ : _ → AddedRules α)
          (keepUnmasked sameRule kept (rules.filter fun rule => (ruleKey rule).isSome)) := by
  induction rules generalizing kept with
  | nil =>
    rw [List.foldlM_nil]
    simp [pure, Except.pure, eq_comm]
  | cons rule rules ih =>
    have hkeep : keepUnmasked sameRule kept
          ((rule :: rules).filter fun rule => (ruleKey rule).isSome)
        = keepUnmasked sameRule (if (ruleKey rule).isSome then keepOne sameRule kept rule else kept)
          (rules.filter fun rule => (ruleKey rule).isSome) := by
      rw [List.filter_cons]
      split
      · rfl
      · rfl
    rw [List.forall_mem_cons] at hnamed
    rw [List.foldlM_cons, except_bind_eq_ok, List.forall_mem_cons, hkeep]
    constructor
    · rintro ⟨st', hst', h⟩
      obtain ⟨htext, rfl⟩ := (addRule_eq_ok hnamed.1).mp hst'
      obtain ⟨htexts, rfl⟩ := (ih hnamed.2).mp h
      exact ⟨⟨htext, htexts⟩, rfl⟩
    · rintro ⟨⟨htext, htexts⟩, rfl⟩
      exact ⟨_, (addRule_eq_ok hnamed.1).mpr ⟨htext, rfl⟩, (ih hnamed.2).mpr ⟨htexts, rfl⟩⟩

end Rules

/-! ## The whole run -/

section Run

variable {rt : Runtime α} {disk : Disk α} {confDir : String}

/-- The names in the files are texts. -/
structure StringNames (rt : Runtime α) (disk : Disk α) (confDir : String) : Prop where
  users : ∀ f ∈ disk.names (usersPath confDir), ∀ xs,
    Lists rt disk "mysql_users" (join (usersPath confDir) f) xs → ∀ user ∈ xs, UserNamed user
  rules : ∀ f ∈ disk.names (rulesPath confDir), ∀ xs,
    Lists rt disk "mysql_query_rules" (join (rulesPath confDir) f) xs → ∀ rule ∈ xs, RuleNamed rule

/-- The program can read the files: the settings are items, every other file has its
list, every user a name, and a rule is something that may have a key. -/
structure Readable (rt : Runtime α) (disk : Disk α) (confDir : String) : Prop where
  settings : ∃ value config, disk.safeLoad (globalPath confDir) = .ok value ∧
    rt.update [] value = .ok config
  users : ∀ f ∈ disk.names (usersPath confDir), ∃ xs,
    Lists rt disk "mysql_users" (join (usersPath confDir) f) xs ∧
      ∀ user ∈ xs, ∃ name, user.item "username" = .ok name
  rules : ∀ f ∈ disk.names (rulesPath confDir), ∃ xs,
    Lists rt disk "mysql_query_rules" (join (rulesPath confDir) f) xs ∧
      ∀ rule ∈ xs, ∃ text, ruleText rt rule = .ok text

/-- The two lists in the configuration. -/
def withLists (config : Dict (PyKey α) (PyValue α)) (users rules : List (PyValue α)) :
    Dict (PyKey α) (PyValue α) :=
  (config.insert (.str "mysql_users") (.list users)).insert (.str "mysql_query_rules") (.list rules)

theorem lookup_withLists (config : Dict (PyKey α) (PyValue α)) (users rules : List (PyValue α))
    (key : PyKey α) : (withLists config users rules).lookup key
      = if key = .str "mysql_query_rules" then some (.list rules)
        else if key = .str "mysql_users" then some (.list users) else config.lookup key := by
  rw [withLists, Dict.lookup_insert, Dict.lookup_insert]

theorem configList_of_lookup {config : Dict (PyKey α) (PyValue α)} {key : String}
    {xs : List (PyValue α)} (h : config.lookup (.str key) = some (.list xs)) :
    configList rt config key = .ok xs := by
  rw [configList, PyValue.item, h]
  rfl

omit [DecidableEq α] in
theorem firstsBy_eq {κ : Type} [DecidableEq κ] {key : PyValue α → Option κ}
    {xs : List (PyValue α)} : firstsBy key xs = keepUnmasked (sameKey key) []
      (xs.filter fun x => (key x).isSome) := by
  rw [keepUnmasked_eq_eraseDupsBy, List.nil_append]
  simp [firstsBy]

/-- The users that are left, if all have names. -/
theorem usersSanity_eq_ok {config config' : Dict (PyKey α) (PyValue α)} {users : List (PyValue α)}
    (hlookup : config.lookup (.str "mysql_users") = some (.list users))
    (hnamed : ∀ user ∈ users, UserNamed user) :
    usersSanity rt config = .ok config' ↔
      (∀ user ∈ users, ∃ name, user.item "username" = .ok name) ∧
        config' = config.insert (.str "mysql_users") (.list (firstsBy userName users)) := by
  unfold usersSanity
  rw [configList_of_lookup hlookup]
  change (users.foldlM (addUser rt) ⟨seenUsers [], []⟩ >>= _) = _ ↔ _
  rw [except_bind_eq_ok]
  simp only [foldlM_addUser_eq_ok hnamed]
  have hfirsts : (∀ user ∈ users, ∃ name, user.item "username" = .ok name) →
      firstsBy userName users = keepUnmasked sameUser [] users := by
    intro h
    have hall : (users.filter fun x => (userName x).isSome) = users := by
      refine List.filter_eq_self.mpr fun user huser => ?_
      obtain ⟨name, hname⟩ := h user huser
      obtain ⟨s, rfl⟩ := hnamed user huser name hname
      rw [userName_eq_some.mpr hname]
      rfl
    rw [firstsBy_eq, hall]
    rfl
  constructor
  · rintro ⟨st, ⟨hnames, rfl⟩, h⟩
    cases h
    exact ⟨hnames, by rw [hfirsts hnames]⟩
  · rintro ⟨hnames, rfl⟩
    exact ⟨_, ⟨hnames, rfl⟩, by rw [hfirsts hnames]; rfl⟩

/-- The rules that are left, with their numbers. -/
theorem rulesSanity_eq_ok {config config' : Dict (PyKey α) (PyValue α)} {rules : List (PyValue α)}
    (hlookup : config.lookup (.str "mysql_query_rules") = some (.list rules))
    (hnamed : ∀ rule ∈ rules, RuleNamed rule) :
    rulesSanity rt config = .ok config' ↔
      (∀ rule ∈ rules, ∃ text, ruleText rt rule = .ok text) ∧
        config' = config.insert (.str "mysql_query_rules")
          (.list (numbered (firstsBy ruleKey rules))) := by
  have hfirsts : firstsBy ruleKey rules
      = keepUnmasked sameRule [] (rules.filter fun rule => (ruleKey rule).isSome) := firstsBy_eq
  unfold rulesSanity
  rw [configList_of_lookup hlookup, hfirsts]
  change (rules.foldlM (addRule rt) ((fun kept => ⟨seenRules kept, numbered kept, kept.length + 1⟩ :
    List (PyValue α) → AddedRules α) []) >>= _) = _ ↔ _
  rw [except_bind_eq_ok]
  simp only [foldlM_addRule_eq_ok hnamed]
  constructor
  · rintro ⟨st, ⟨htexts, rfl⟩, h⟩
    cases h
    exact ⟨htexts, rfl⟩
  · rintro ⟨htexts, rfl⟩
    exact ⟨_, ⟨htexts, rfl⟩, rfl⟩

/-- A round of the loop for a file. -/
theorem visit_file_eq_ok {st st' : Loading α} {cfg path : String}
    (hpath : disk.isdir path = false) :
    visit rt disk confDir st (cfg, path) = .ok st' ↔ ∃ value config,
      disk.safeLoad path = .ok value ∧ rt.update st.config value = .ok config ∧
        st' = { st with config := config } := by
  unfold visit
  dsimp only
  rw [if_pos (by simp [hpath])]
  simp only [except_bind_eq_ok]
  constructor
  · rintro ⟨value, hload, config, hupdate, h⟩
    cases h
    exact ⟨value, config, hload, hupdate, rfl⟩
  · rintro ⟨value, config, hload, hupdate, rfl⟩
    exact ⟨value, hload, config, hupdate, rfl⟩

/-- What the program does, from the visits to the two passes. -/
theorem loadConfig_eq_ok (hglobal : disk.isdir (globalPath confDir) = false)
    (husers : disk.isdir (usersPath confDir) = true)
    (hrules : disk.isdir (rulesPath confDir) = true) {config : Dict (PyKey α) (PyValue α)} :
    loadConfig rt disk confDir = .ok config ↔ ∃ value base users₁ rules₁ users rules config',
      disk.safeLoad (globalPath confDir) = .ok value ∧ rt.update [] value = .ok base ∧
      InOrder rt disk "mysql_users" (filesOf disk "users" (usersPath confDir)) users₁ ∧
      InOrder rt disk "mysql_query_rules" (filesOf disk "users" (rulesPath confDir)) rules₁ ∧
      InOrder rt disk "mysql_users" (filesOf disk "rules" (usersPath confDir)) users ∧
      InOrder rt disk "mysql_query_rules" (filesOf disk "rules" (rulesPath confDir)) rules ∧
      usersSanity rt (withLists (withLists base users₁ rules₁) users rules) = .ok config' ∧
      rulesSanity rt config' = .ok config := by
  unfold loadConfig configs
  simp only [List.foldlM_cons, List.foldlM_nil, except_bind_eq_ok, visit_file_eq_ok hglobal]
  constructor
  · rintro ⟨st, ⟨_, ⟨value, base, hload, hupdate, rfl⟩, st₁, hvisit₁, st₂, hvisit₂, hst⟩, config',
      hu, hr⟩
    obtain ⟨users₁, rules₁, hu₁, hr₁, rfl⟩ := (visit_eq_ok husers husers hrules ⟨rfl, rfl⟩).mp hvisit₁
    obtain ⟨users, rules, hu₂, hr₂, rfl⟩ := (visit_eq_ok hrules husers hrules ⟨rfl, rfl⟩).mp hvisit₂
    cases hst
    exact ⟨value, base, users₁, rules₁, users, rules, config', hload, hupdate, hu₁, hr₁, hu₂, hr₂,
      hu, hr⟩
  · rintro ⟨value, base, users₁, rules₁, users, rules, config', hload, hupdate, hu₁, hr₁, hu₂, hr₂,
      hu, hr⟩
    exact ⟨_, ⟨_, ⟨value, base, hload, hupdate, rfl⟩,
      _, (visit_eq_ok husers husers hrules ⟨rfl, rfl⟩).mpr ⟨users₁, rules₁, hu₁, hr₁, rfl⟩,
      _, (visit_eq_ok hrules husers hrules ⟨rfl, rfl⟩).mpr ⟨users, rules, hu₂, hr₂, rfl⟩, rfl⟩,
      config', hu, hr⟩

omit [DecidableEq α] in
/-- The keys of the elements that are left are those of all elements, each once. -/
theorem keys_firstsBy {κ : Type} [DecidableEq κ] (key : PyValue α → Option κ)
    (xs : List (PyValue α)) :
    ((firstsBy key xs).filterMap key).Nodup ∧
      ∀ k, k ∈ (firstsBy key xs).filterMap key ↔ ∃ x ∈ xs, key x = some k := by
  rw [firstsBy_eq]
  constructor
  · refine List.Pairwise.filterMap key ?_ (pairwise_keepUnmasked List.Pairwise.nil)
    rintro x y hxy k hk _ hk' rfl
    rw [sameKey, hk, hk'] at hxy
    exact absurd hxy (by simp)
  · intro k
    rw [List.mem_filterMap]
    constructor
    · rintro ⟨x, hx, hk⟩
      have hmem := (mem_of_mem_keepUnmasked hx).resolve_left List.not_mem_nil
      exact ⟨x, List.mem_of_mem_filter hmem, hk⟩
    · rintro ⟨x, hx, hk⟩
      have hmem : x ∈ xs.filter fun x => (key x).isSome :=
        List.mem_filter.mpr ⟨hx, by rw [hk]; rfl⟩
      have hrefl : ∀ x, sameKey key x x = true := fun x => decide_eq_true rfl
      obtain ⟨y, hy, hmask⟩ := List.any_eq_true.mp (any_keepUnmasked hrefl hmem)
      exact ⟨y, hy, (decide_eq_true_iff.mp hmask).trans hk⟩

/-- An element of a list in one of the files of a directory. -/
def ListedIn (rt : Runtime α) (disk : Disk α) (key dir : String) (x : PyValue α) : Prop :=
  ∃ f ∈ disk.names dir, ∃ xs, Lists rt disk key (join dir f) xs ∧ x ∈ xs

/-- Every element has a key, and the keys are those of the listed elements, each once. -/
structure EachOnce {κ : Type} (key : PyValue α → Option κ) (listed : PyValue α → Prop)
    (xs : List (PyValue α)) : Prop where
  keyed : ∀ x ∈ xs, (key x).isSome
  nodup : (xs.filterMap key).Nodup
  mem : ∀ k, k ∈ xs.filterMap key ↔ ∃ x, listed x ∧ key x = some k

theorem InOrder.mem_iff_listedIn {key cfg dir : String} {xs : List (PyValue α)}
    (h : InOrder rt disk key (filesOf disk cfg dir) xs) {x : PyValue α} :
    x ∈ xs ↔ ListedIn rt disk key dir x := by
  rw [h.mem_iff]
  constructor
  · rintro ⟨path, hpath, ys, hys, hx⟩
    obtain ⟨f, hf, rfl⟩ := mem_filesOf.mp hpath
    exact ⟨f, hf, ys, hys, hx⟩
  · rintro ⟨f, hf, ys, hys, hx⟩
    exact ⟨_, mem_filesOf.mpr ⟨f, hf, rfl⟩, ys, hys, hx⟩

theorem eachOnce_firstsBy {κ : Type} [DecidableEq κ] (name : PyValue α → Option κ)
    {key cfg dir : String} {xs : List (PyValue α)}
    (h : InOrder rt disk key (filesOf disk cfg dir) xs) :
    EachOnce name (ListedIn rt disk key dir) (firstsBy name xs) where
  keyed x hx := by
    rw [firstsBy_eq] at hx
    exact (List.mem_filter.mp ((mem_of_mem_keepUnmasked hx).resolve_left List.not_mem_nil)).2
  nodup := (keys_firstsBy name xs).1
  mem k := by
    rw [(keys_firstsBy name xs).2]
    exact exists_congr fun x => and_congr_left fun _ => h.mem_iff_listedIn

theorem item_withRuleId {rule : PyValue α} {key : String} (hkey : key ≠ "rule_id") (n : ℕ) :
    (withRuleId n rule).item key = rule.item key := by
  cases rule with
  | dict items =>
    rw [withRuleId, PyValue.item, PyValue.item, Dict.lookup_insert,
      if_neg (fun h => hkey (PyKey.str.inj h))]
  | str s => rfl
  | int m => rfl
  | other a => rfl
  | list xs => rfl

/-- The number does not change the key. -/
theorem ruleKey_withRuleId (n : ℕ) (rule : PyValue α) : ruleKey (withRuleId n rule) = ruleKey rule := by
  rw [ruleKey, item_withRuleId (by decide), item_withRuleId (by decide), ruleKey]

theorem filterMap_numbered (rules : List (PyValue α)) :
    (numbered rules).filterMap ruleKey = rules.filterMap ruleKey := by
  rw [numbered]
  induction rules using List.reverseRecOn with
  | nil => rfl
  | append_singleton rules rule ih =>
    rw [List.mapIdx_concat, List.filterMap_append, List.filterMap_append, ih]
    simp [List.filterMap_cons, ruleKey_withRuleId]

theorem getElem?_numbered {rules : List (PyValue α)} {i : ℕ} {rule : PyValue α}
    (h : (numbered rules)[i]? = some rule) :
    ∃ rule' ∈ rules, rule = withRuleId (i + 1) rule' := by
  rw [numbered, List.getElem?_mapIdx, Option.map_eq_some_iff] at h
  obtain ⟨rule', hrule', rfl⟩ := h
  exact ⟨rule', List.mem_of_getElem? hrule', rfl⟩

theorem EachOnce.numbered {listed : PyValue α → Prop} {rules : List (PyValue α)}
    (h : EachOnce ruleKey listed rules) : EachOnce ruleKey listed (numbered rules) where
  keyed rule hrule := by
    obtain ⟨i, hi⟩ := List.mem_iff_getElem?.mp hrule
    obtain ⟨rule', hrule', rfl⟩ := getElem?_numbered hi
    rw [ruleKey_withRuleId]
    exact h.keyed rule' hrule'
  nodup := by
    rw [filterMap_numbered]
    exact h.nodup
  mem k := by
    rw [filterMap_numbered]
    exact h.mem k

/-- The numbers are those of the positions. -/
theorem ruleId_numbered {listed : PyValue α → Prop} {rules : List (PyValue α)}
    (h : EachOnce ruleKey listed rules) {i : ℕ} {rule : PyValue α}
    (hrule : (ProxySql.numbered rules)[i]? = some rule) :
    rule.item "rule_id" = .ok (.int (i + 1 : ℕ)) := by
  obtain ⟨rule', hrule', rfl⟩ := getElem?_numbered hrule
  obtain ⟨key, hkey⟩ := Option.isSome_iff_exists.mp (h.keyed rule' hrule')
  cases rule' with
  | dict items => rw [withRuleId, PyValue.item, Dict.lookup_insert, if_pos rfl]
  | str s => cases hkey
  | int m => cases hkey
  | other a => cases hkey
  | list xs => cases hkey

/-- The two passes over the lists of the last visit. -/
theorem sanity_eq_ok {base config : Dict (PyKey α) (PyValue α)} {users rules : List (PyValue α)}
    (hu : ∀ user ∈ users, UserNamed user) (hr : ∀ rule ∈ rules, RuleNamed rule) :
    (∃ config', usersSanity rt (withLists base users rules) = .ok config' ∧
        rulesSanity rt config' = .ok config) ↔
      (∀ user ∈ users, ∃ name, user.item "username" = .ok name) ∧
      (∀ rule ∈ rules, ∃ text, ruleText rt rule = .ok text) ∧
      config = withLists (withLists base users rules) (firstsBy userName users)
        (numbered (firstsBy ruleKey rules)) := by
  have hlookup : (withLists base users rules).lookup (.str "mysql_users") = some (.list users) := by
    rw [lookup_withLists, if_neg (by simp), if_pos rfl]
  have hlookup' : ((withLists base users rules).insert (.str "mysql_users")
      (.list (firstsBy userName users))).lookup (.str "mysql_query_rules") = some (.list rules) := by
    rw [Dict.lookup_insert, if_neg (by simp), lookup_withLists, if_pos rfl]
  simp only [usersSanity_eq_ok hlookup hu]
  constructor
  · rintro ⟨config', ⟨hnames, rfl⟩, hrules⟩
    obtain ⟨htexts, rfl⟩ := (rulesSanity_eq_ok hlookup' hr).mp hrules
    exact ⟨hnames, htexts, rfl⟩
  · rintro ⟨hnames, htexts, rfl⟩
    exact ⟨_, ⟨hnames, rfl⟩, (rulesSanity_eq_ok hlookup' hr).mpr ⟨htexts, rfl⟩⟩

/-- What holds of every element of the lists holds of the elements of each file. -/
theorem InOrder.forall_iff {key cfg dir : String} {xs : List (PyValue α)} {P : PyValue α → Prop}
    (h : InOrder rt disk key (filesOf disk cfg dir) xs) :
    (∀ x ∈ xs, P x) ↔ ∀ f ∈ disk.names dir, ∃ ys, Lists rt disk key (join dir f) ys ∧
      ∀ y ∈ ys, P y := by
  constructor
  · intro hall f hf
    obtain ⟨ys, hys⟩ := exists_inOrder_iff.mp ⟨xs, h⟩ _ (mem_filesOf.mpr ⟨f, hf, rfl⟩)
    exact ⟨ys, hys, fun y hy => hall y (h.mem_iff_listedIn.mpr ⟨f, hf, ys, hys, hy⟩)⟩
  · intro hfiles x hx
    obtain ⟨f, hf, ys, hys, hy⟩ := h.mem_iff_listedIn.mp hx
    obtain ⟨ys', hys', hall⟩ := hfiles f hf
    exact hall x (hys.unique hys' ▸ hy)

theorem exists_inOrder_filesOf {key dir : String} (cfg : String) {P : PyValue α → Prop}
    (h : ∀ f ∈ disk.names dir, ∃ ys, Lists rt disk key (join dir f) ys ∧ ∀ y ∈ ys, P y) :
    ∃ xs, InOrder rt disk key (filesOf disk cfg dir) xs := by
  refine exists_inOrder_iff.mpr fun path hpath => ?_
  obtain ⟨f, hf, rfl⟩ := mem_filesOf.mp hpath
  obtain ⟨ys, hys, -⟩ := h f hf
  exact ⟨ys, hys⟩

/-- The names in the lists are texts. -/
theorem StringNames.inOrder (h : StringNames rt disk confDir) {cfg : String}
    {users rules : List (PyValue α)}
    (hu : InOrder rt disk "mysql_users" (filesOf disk cfg (usersPath confDir)) users)
    (hr : InOrder rt disk "mysql_query_rules" (filesOf disk cfg (rulesPath confDir)) rules) :
    (∀ user ∈ users, UserNamed user) ∧ ∀ rule ∈ rules, RuleNamed rule := by
  constructor
  · intro user huser
    obtain ⟨f, hf, xs, hxs, hx⟩ := hu.mem_iff_listedIn.mp huser
    exact h.users f hf xs hxs user hx
  · intro rule hrule
    obtain ⟨f, hf, xs, hxs, hx⟩ := hr.mem_iff_listedIn.mp hrule
    exact h.rules f hf xs hxs rule hx

/-- The program returns just if it can read the files. -/
theorem loadConfig_returns_iff (hglobal : disk.isdir (globalPath confDir) = false)
    (husers : disk.isdir (usersPath confDir) = true)
    (hrules : disk.isdir (rulesPath confDir) = true) (hnames : StringNames rt disk confDir) :
    (∃ config, loadConfig rt disk confDir = .ok config) ↔ Readable rt disk confDir := by
  simp only [loadConfig_eq_ok hglobal husers hrules]
  constructor
  · rintro ⟨config, value, base, users₁, rules₁, users, rules, config', hload, hupdate, -, -, hu, hr,
      hsanity⟩
    obtain ⟨hnu, hnr⟩ := hnames.inOrder hu hr
    obtain ⟨hnamed, htexts, -⟩ := (sanity_eq_ok hnu hnr).mp ⟨config', hsanity⟩
    exact ⟨⟨value, base, hload, hupdate⟩, hu.forall_iff.mp hnamed, hr.forall_iff.mp htexts⟩
  · intro h
    obtain ⟨value, base, hload, hupdate⟩ := h.settings
    obtain ⟨users₁, hu₁⟩ := exists_inOrder_filesOf "users" h.users
    obtain ⟨rules₁, hr₁⟩ := exists_inOrder_filesOf "users" h.rules
    obtain ⟨users, hu⟩ := exists_inOrder_filesOf "rules" h.users
    obtain ⟨rules, hr⟩ := exists_inOrder_filesOf "rules" h.rules
    obtain ⟨hnu, hnr⟩ := hnames.inOrder hu hr
    obtain ⟨config', hsanity⟩ := (sanity_eq_ok hnu hnr).mpr
      ⟨hu.forall_iff.mpr h.users, hr.forall_iff.mpr h.rules, rfl⟩
    exact ⟨_, value, base, users₁, rules₁, users, rules, config', hload, hupdate, hu₁, hr₁, hu, hr,
      hsanity⟩

/-- The configuration that is loaded.  The users and the rules are the first ones with
their names and keys, in the order of the last visit, and no name and no key of the
files is lost or repeated; the rules are numbered from one on; all other settings are
those of the file of settings. -/
theorem loadConfig_spec (hglobal : disk.isdir (globalPath confDir) = false)
    (husers : disk.isdir (usersPath confDir) = true)
    (hrules : disk.isdir (rulesPath confDir) = true) (hnames : StringNames rt disk confDir) :
    ((∃ config, loadConfig rt disk confDir = .ok config) ↔ Readable rt disk confDir) ∧
    ∀ config, loadConfig rt disk confDir = .ok config → ∃ users rules,
      InOrder rt disk "mysql_users" (filesOf disk "rules" (usersPath confDir)) users ∧
      InOrder rt disk "mysql_query_rules" (filesOf disk "rules" (rulesPath confDir)) rules ∧
      config.lookup (.str "mysql_users") = some (.list (firstsBy userName users)) ∧
      EachOnce userName (ListedIn rt disk "mysql_users" (usersPath confDir))
        (firstsBy userName users) ∧
      config.lookup (.str "mysql_query_rules")
        = some (.list (numbered (firstsBy ruleKey rules))) ∧
      EachOnce ruleKey (ListedIn rt disk "mysql_query_rules" (rulesPath confDir))
        (numbered (firstsBy ruleKey rules)) ∧
      (∀ (i : ℕ) (rule : PyValue α), (numbered (firstsBy ruleKey rules))[i]? = some rule →
        rule.item "rule_id" = .ok (.int (i + 1 : ℕ))) ∧
      ∃ value base, disk.safeLoad (globalPath confDir) = .ok value ∧
        rt.update [] value = .ok base ∧ ∀ key, key ≠ .str "mysql_users" →
          key ≠ .str "mysql_query_rules" → config.lookup key = base.lookup key := by
  refine ⟨loadConfig_returns_iff hglobal husers hrules hnames, fun config hconfig => ?_⟩
  obtain ⟨value, base, users₁, rules₁, users, rules, config', hload, hupdate, -, -, hu, hr, hsanity⟩ :=
    (loadConfig_eq_ok hglobal husers hrules).mp hconfig
  obtain ⟨hnu, hnr⟩ := hnames.inOrder hu hr
  obtain ⟨-, -, rfl⟩ := (sanity_eq_ok hnu hnr).mp ⟨config', hsanity⟩
  have honce := eachOnce_firstsBy ruleKey hr
  refine ⟨users, rules, hu, hr, ?_, eachOnce_firstsBy userName hu, ?_, honce.numbered,
    fun i rule => ruleId_numbered honce, value, base, hload, hupdate, fun key hkey hkey' => ?_⟩
  · rw [lookup_withLists, if_neg (by simp), if_pos rfl]
  · rw [lookup_withLists, if_pos rfl]
  · simp only [lookup_withLists, if_neg hkey, if_neg hkey']

end Run

/-! ## Two files of each kind -/

/-- Texts and integers. -/
def plainRuntime : Runtime Empty where
  format
    | .str s => s
    | .int n => toString n
    | _ => ""
  eqv
    | .str s, .str s' => decide (s = s')
    | .int n, .int n' => decide (n = n')
    | _, _ => false
  iterate := nofun
  holds := nofun
  hashable := nofun
  format_str _ := rfl
  eqv_str _ _ := rfl

def entry (key : String) (value : PyValue Empty) : PyKey Empty × PyValue Empty := (.str key, value)

/-- `nova` has two users, and the second file has a rule for the same schema. -/
def novaContent : String → Except PyFailure (PyValue Empty)
  | "/etc/proxysql.yaml" => .ok (.dict [entry "errorlog" (.str "/var/log/error.log")])
  | "/etc/users/a" => .ok (.dict [entry "mysql_users" (.list
      [.dict [entry "username" (.str "nova")], .dict [entry "username" (.str "glance")]])])
  | "/etc/users/b" => .ok (.dict [entry "mysql_users" (.list
      [.dict [entry "username" (.str "nova"), entry "active" (.int 1)]])])
  | "/etc/rules/a" => .ok (.dict [entry "mysql_query_rules" (.list
      [.dict [entry "schemaname" (.str "nova")], .dict [entry "username" (.str "nova")]])])
  | "/etc/rules/b" => .ok (.dict [entry "mysql_query_rules" (.list
      [.dict [entry "schemaname" (.str "nova")]])])
  | _ => .error .osError

def novaDisk : Disk Empty where
  isdir path := path = "/etc/users" || path = "/etc/rules"
  safeLoad := novaContent
  names _ := ["a", "b"]
  listed _ _ := ["a", "b"]
  listed_perm _ _ := List.Perm.refl _

theorem userNamed_of_lookup {items : List (PyKey Empty × PyValue Empty)} {s : String}
    (h : items.lookup (.str "username") = some (.str s)) : UserNamed (.dict items) := by
  intro name hname
  rw [PyValue.item, h] at hname
  cases hname
  exact ⟨s, rfl⟩

theorem ruleNamed_of_lookup {items : List (PyKey Empty × PyValue Empty)} {s : String}
    (h : items.lookup (.str "schemaname") = some (.str s) ∨
      items.lookup (.str "schemaname") = none ∧ items.lookup (.str "username") = some (.str s)) :
    RuleNamed (.dict items) := by
  rcases h with h | ⟨h, h'⟩
  · refine ⟨fun name hname => ?_, fun hno => ?_⟩
    · rw [PyValue.item, h] at hname
      cases hname
      exact ⟨s, rfl⟩
    · exact absurd (by rw [PyValue.item, h]) (hno (.str s))
  · refine ⟨fun name hname => ?_, fun _ => userNamed_of_lookup h'⟩
    rw [PyValue.item, h] at hname
    cases hname

/-- The lists of `novaDisk`. -/
theorem lists_novaDisk {key path : String} {items : List (PyKey Empty × PyValue Empty)}
    {ys xs : List (PyValue Empty)} (hload : novaContent path = .ok (.dict items))
    (hitem : items.lookup (.str key) = some (.list ys)) (h : Lists plainRuntime novaDisk key path xs) :
    xs = ys := by
  refine h.unique ⟨_, .list ys, hload, ?_, rfl⟩
  rw [PyValue.item, hitem]

theorem stringNames_novaDisk : StringNames plainRuntime novaDisk "/etc" := by
  have hjoin : join (usersPath "/etc") "a" = "/etc/users/a" ∧
      join (usersPath "/etc") "b" = "/etc/users/b" ∧
      join (rulesPath "/etc") "a" = "/etc/rules/a" ∧
      join (rulesPath "/etc") "b" = "/etc/rules/b" := by decide +kernel
  constructor
  · intro f hf xs hxs user huser
    rcases List.mem_pair.mp hf with rfl | rfl
    · rw [hjoin.1] at hxs
      rw [lists_novaDisk rfl rfl hxs] at huser
      rcases List.mem_pair.mp huser with rfl | rfl
      · exact userNamed_of_lookup rfl
      · exact userNamed_of_lookup rfl
    · rw [hjoin.2.1] at hxs
      rw [lists_novaDisk rfl rfl hxs] at huser
      rw [List.mem_singleton.mp huser]
      exact userNamed_of_lookup rfl
  · intro f hf xs hxs rule hrule
    rcases List.mem_pair.mp hf with rfl | rfl
    · rw [hjoin.2.2.1] at hxs
      rw [lists_novaDisk rfl rfl hxs] at hrule
      rcases List.mem_pair.mp hrule with rfl | rfl
      · exact ruleNamed_of_lookup (Or.inl rfl)
      · exact ruleNamed_of_lookup (Or.inr ⟨rfl, rfl⟩)
    · rw [hjoin.2.2.2] at hxs
      rw [lists_novaDisk rfl rfl hxs] at hrule
      rw [List.mem_singleton.mp hrule]
      exact ruleNamed_of_lookup (Or.inl rfl)

/-- `loadConfig_spec` for these files. -/
theorem load_novaDisk : ∃ config users rules,
    loadConfig plainRuntime novaDisk "/etc" = .ok config ∧
      config.lookup (.str "mysql_users") = some (.list (firstsBy userName users)) ∧
      EachOnce userName (ListedIn plainRuntime novaDisk "mysql_users" "/etc/users")
        (firstsBy userName users) ∧
      config.lookup (.str "mysql_query_rules") = some (.list (numbered (firstsBy ruleKey rules))) ∧
      EachOnce ruleKey (ListedIn plainRuntime novaDisk "mysql_query_rules" "/etc/rules")
        (numbered (firstsBy ruleKey rules)) := by
  have hreturns : (loadConfig plainRuntime novaDisk "/etc").toOption.isSome = true := by
    decide +kernel
  cases hconfig : loadConfig plainRuntime novaDisk "/etc" with
  | error e =>
    rw [hconfig] at hreturns
    cases hreturns
  | ok config =>
    obtain ⟨users, rules, -, -, husers, honce, hrules, honce', -⟩ :=
      (loadConfig_spec (by decide +kernel) (by decide +kernel) (by decide +kernel)
        stringNames_novaDisk).2 config hconfig
    have hpaths : usersPath "/etc" = "/etc/users" ∧ rulesPath "/etc" = "/etc/rules" := by
      decide +kernel
    rw [hpaths.1] at honce
    rw [hpaths.2] at honce'
    exact ⟨config, users, rules, rfl, husers, honce, hrules, honce'⟩

end Kolla.ProxySql
