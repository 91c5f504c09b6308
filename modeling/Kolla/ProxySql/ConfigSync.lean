import Kolla.Lib.Dict
import Kolla.Lib.Libconfig

/-!
# Writing the ProxySQL configuration

`docker/proxysql/kolla_proxysql_config_sync` writes the configuration that
it loaded from YAML files as a libconfig file.  `_write_dict`,
`_write_list` and `_write` put the texts together, and a string goes
between double quotes as it is.

`Config.tree` is the configuration as the tree of a libconfig file.
`writeConfig_iff` says that the file reads back as this tree exactly if
every string is clean: it has no quote and no escape in it.
-/

namespace Kolla.ProxySql

open Kolla.Lib

/-! ## The loaded configuration -/

/-- A key that is an identifier. -/
structure Key where
  text : List Char
  identifier : Libconfig.isName text = true
  deriving DecidableEq

inductive Scalar
  | str (s : List Char)
  | int (n : BitVec 32)
  | bool (b : Bool)
  deriving DecidableEq

/-- A dictionary of scalars. -/
structure Section where
  items : Dict Key Scalar
  distinct : items.keys.Nodup

inductive Value
  | scalar (v : Scalar)
  | dict (v : Section)
  | list (v : List Section)

/-- `ProxySQLConfig.config`. -/
structure Config where
  items : Dict Key Value
  distinct : items.keys.Nodup

/-! ## The writers

Each function gives the text that it appends to the file. -/

/-- `format(v)`, with a string put between quotes. -/
def Scalar.format : Scalar → List Char
  | .str s => '"' :: (s ++ ['"'])
  | .int n => (toString n.toInt).toList
  | .bool b => if b then "True".toList else "False".toList

/-- The loop over `value[i].items()`. -/
def writeItems (items : Dict Key Scalar) : List Char :=
  items.flatMap fun item =>
    "     ".toList ++ item.1.text ++ " = ".toList ++ item.2.format ++ "\n".toList

/-- The loop over `value`. -/
def writeSections : List Section → List Char
  | [] => []
  | [v] => "  \x7b\n".toList ++ writeItems v.items ++ "  \x7d\n".toList
  | v :: v' :: value =>
    "  \x7b\n".toList ++ writeItems v.items ++ "  \x7d,\n".toList ++ writeSections (v' :: value)

/-- `_write_dict`. -/
def writeDict (key : Option Key) (value : Section ⊕ List Section) : List Char :=
  (match key with
    | some key => key.text ++ " =\n".toList
    | none => []) ++
    match value with
    | .inl v => writeSections [v]
    | .inr value => writeSections value

/-- `_write_list`. -/
def writeList (key : Key) (values : List Section) : List Char :=
  key.text ++ " =\n".toList ++ "(\n".toList ++ writeDict none (.inr values) ++ ")\n".toList

/-- `_write`. -/
def write (key : Key) (value : Scalar) : List Char :=
  key.text ++ " = ".toList ++ value.format ++ "\n".toList

/-- The body of the loop in `write_config`. -/
def writeValue (key : Key) : Value → List Char
  | .dict v => writeDict (some key) (.inl v)
  | .list v => writeList key v
  | .scalar v => write key v

/-- `write_config`, which truncates the file first. -/
def writeConfig (config : Config) : List Char :=
  config.items.flatMap fun item => writeValue item.1 item.2

/-! ## The configuration as a tree -/

def Scalar.tree : Scalar → Libconfig.Scalar
  | .str s => .str s
  | .int n => .int n.toInt
  | .bool b => .bool b

def Section.tree (v : Section) : Libconfig.Setting :=
  .group (v.items.map fun item => (item.1.text, .scalar item.2.tree))

def Value.tree : Value → Libconfig.Setting
  | .scalar v => .scalar v.tree
  | .dict v => v.tree
  | .list v => .list (v.map Section.tree)

def Config.tree (config : Config) : List (List Char × Libconfig.Setting) :=
  config.items.map fun item => (item.1.text, item.2.tree)

/-- The strings of the configuration, in the order of the file. -/
def Config.strings (config : Config) : List (List Char) := Libconfig.memberStrings config.tree

theorem Key.text_injective : Function.Injective Key.text := by
  intro k k' h
  cases k
  cases k'
  cases h
  rfl

theorem Scalar.tree_injective : Function.Injective Scalar.tree := by
  intro v v' h
  cases v with
  | str s =>
    cases v' with
    | str s' => rw [Libconfig.Scalar.str.inj h]
    | int n => cases h
    | bool b => cases h
  | int n =>
    cases v' with
    | str s => cases h
    | int n' => rw [BitVec.toInt_inj.mp (Libconfig.Scalar.int.inj h)]
    | bool b => cases h
  | bool b =>
    cases v' with
    | str s => cases h
    | int n => cases h
    | bool b' => rw [Libconfig.Scalar.bool.inj h]

theorem Section.tree_injective : Function.Injective Section.tree := by
  intro v v' h
  obtain ⟨items, _⟩ := v
  obtain ⟨items', _⟩ := v'
  have hmap := Libconfig.Setting.group.inj h
  have hitem : Function.Injective fun item : Key × Scalar =>
      (item.1.text, Libconfig.Setting.scalar item.2.tree) := by
    rintro ⟨k, v⟩ ⟨k', v'⟩ heq
    obtain ⟨hk, hv⟩ := Prod.mk.inj heq
    exact Prod.ext (Key.text_injective hk) (Scalar.tree_injective (Libconfig.Setting.scalar.inj hv))
  obtain rfl := hitem.list_map hmap
  rfl

theorem Value.tree_injective : Function.Injective Value.tree := by
  intro v v' h
  cases v with
  | scalar v =>
    cases v' with
    | scalar v' => rw [Scalar.tree_injective (Libconfig.Setting.scalar.inj h)]
    | dict v' => cases h
    | list v' => cases h
  | dict v =>
    cases v' with
    | scalar v' => cases h
    | dict v' => rw [Section.tree_injective h]
    | list v' => cases h
  | list v =>
    cases v' with
    | scalar v' => cases h
    | dict v' => cases h
    | list v' => rw [Section.tree_injective.list_map (Libconfig.Setting.list.inj h)]

/-- No two configurations have the same tree. -/
theorem Config.tree_injective : Function.Injective Config.tree := by
  intro config config' h
  obtain ⟨items, _⟩ := config
  obtain ⟨items', _⟩ := config'
  have hitem : Function.Injective fun item : Key × Value => (item.1.text, item.2.tree) := by
    rintro ⟨k, v⟩ ⟨k', v'⟩ heq
    obtain ⟨hk, hv⟩ := Prod.mk.inj heq
    exact Prod.ext (Key.text_injective hk) (Value.tree_injective hv)
  obtain rfl := hitem.list_map h
  rfl

/-! ## What the writers put down -/

section Written

open Libconfig (Lexes Quoted Clean memberTokens memberStrings)

theorem lexes_key (key : Key) (text : List Char) {tokens : List Libconfig.Token}
    (h : Libconfig.marks text = some tokens) :
    Lexes (key.text ++ ' ' :: text) (.name key.text :: tokens) := by
  have := (Lexes.name (d := ' ') key.identifier rfl).append (Lexes.marks h)
  simpa using this

theorem int_range (n : BitVec 32) : -2 ^ 31 ≤ n.toInt ∧ n.toInt < 2 ^ 31 :=
  ⟨n.le_toInt, n.toInt_lt⟩

theorem lexes_format (v : Scalar) (h : ∀ s ∈ v.tree.strings, Clean s) :
    Lexes (v.format ++ "\n".toList) [v.tree.token] := by
  cases v with
  | str s =>
    have hend : Lexes "\n".toList [] := Lexes.marks rfl
    exact (Lexes.str (h s List.mem_cons_self)).append hend
  | int n => exact Lexes.int (d := '\n') (int_range n) rfl
  | bool b =>
    cases b with
    | true =>
      have hchars : ∀ e ∈ ['r', 'u', 'e'], Libconfig.isNameChar e = true :=
        List.all_eq_true.mp rfl
      exact Lexes.word (c := 'T') (d := '\n') rfl hchars rfl
    | false =>
      have hchars : ∀ e ∈ ['a', 'l', 's', 'e'], Libconfig.isNameChar e = true :=
        List.all_eq_true.mp rfl
      exact Lexes.word (c := 'F') (d := '\n') rfl hchars rfl

theorem lexes_writeItems (items : Dict Key Scalar)
    (h : ∀ s ∈ memberStrings (items.map fun item => (item.1.text, .scalar item.2.tree)), Clean s) :
    Lexes (writeItems items)
      (memberTokens (items.map fun item => (item.1.text, .scalar item.2.tree))) := by
  induction items with
  | nil => exact Lexes.nil
  | cons item items ih =>
    obtain ⟨hitem, hitems⟩ := List.forall_mem_append.mp h
    have hindent : Lexes "     ".toList [] := Lexes.marks rfl
    have hkey : Lexes (item.1.text ++ " = ".toList) [.name item.1.text, .assign] :=
      lexes_key item.1 ['=', ' '] rfl
    have hline := ((hindent.append hkey).append (lexes_format item.2 hitem)).append (ih hitems)
    simpa [writeItems, memberTokens, Libconfig.Setting.tokens] using hline

theorem lexes_section (v : Section) (h : ∀ s ∈ v.tree.strings, Clean s) (last : List Char)
    (tokens : List Libconfig.Token) (hlast : Libconfig.marks last = some (.closeBrace :: tokens)) :
    Lexes ("  \x7b\n".toList ++ writeItems v.items ++ last) (v.tree.tokens ++ tokens) := by
  have hopen : Lexes "  \x7b\n".toList [.openBrace] := Lexes.marks rfl
  have := (hopen.append (lexes_writeItems v.items h)).append (Lexes.marks hlast)
  simpa [Section.tree, Libconfig.Setting.tokens] using this

theorem lexes_writeSections (value : List Section)
    (h : ∀ s ∈ Libconfig.itemStrings (value.map Section.tree), Clean s) :
    Lexes (writeSections value) (Libconfig.itemTokens (value.map Section.tree)) := by
  induction value with
  | nil => exact Lexes.nil
  | cons v value ih =>
    obtain ⟨hv, hvalue⟩ := List.forall_mem_append.mp h
    cases value with
    | nil =>
      have := lexes_section v hv "  \x7d\n".toList [] rfl
      rwa [List.append_nil] at this
    | cons v' value =>
      have := (lexes_section v hv "  \x7d,\n".toList [.comma] rfl).append
        (ih hvalue)
      simpa [writeSections, Libconfig.itemTokens] using this

theorem lexes_writeValue (key : Key) (value : Value) (h : ∀ s ∈ value.tree.strings, Clean s) :
    Lexes (writeValue key value) (.name key.text :: .assign :: value.tree.tokens) := by
  have hheading : Lexes (key.text ++ " =\n".toList) [.name key.text, .assign] :=
    lexes_key key ['=', '\n'] rfl
  cases value with
  | scalar v =>
    have hkey : Lexes (key.text ++ " = ".toList) [.name key.text, .assign] :=
      lexes_key key ['=', ' '] rfl
    have := hkey.append (lexes_format v h)
    simpa [writeValue, write, Value.tree, Libconfig.Setting.tokens] using this
  | dict v =>
    have := hheading.append (lexes_section v h "  \x7d\n".toList [] rfl)
    simpa [writeValue, writeDict, writeSections, Value.tree] using this
  | list v =>
    have hopen : Lexes "(\n".toList [.openParen] := Lexes.marks rfl
    have hclose : Lexes ")\n".toList [.closeParen] := Lexes.marks rfl
    have := ((hheading.append hopen).append (lexes_writeSections v h)).append hclose
    simpa [writeValue, writeList, writeDict, Value.tree, Libconfig.Setting.tokens] using this

theorem lexes_writeConfig (items : Dict Key Value)
    (h : ∀ s ∈ memberStrings (items.map fun item => (item.1.text, item.2.tree)), Clean s) :
    Lexes (items.flatMap fun item => writeValue item.1 item.2)
      (memberTokens (items.map fun item => (item.1.text, item.2.tree))) := by
  induction items with
  | nil => exact Lexes.nil
  | cons item items ih =>
    obtain ⟨hitem, hitems⟩ := List.forall_mem_append.mp h
    exact (lexes_writeValue item.1 item.2 hitem).append (ih hitems)

/-! ## Quotes -/

theorem quote_not_mem_key (key : Key) : '"' ∉ key.text := by
  have hname := key.identifier
  intro hmem
  cases htext : key.text with
  | nil => simp [htext] at hmem
  | cons c cs =>
    rw [htext] at hname hmem
    simp only [Libconfig.isName, Bool.and_eq_true, List.all_eq_true] at hname
    rcases List.mem_cons.mp hmem with rfl | hmem
    · exact absurd hname.1.1 (by decide)
    · exact absurd (hname.1.2 _ hmem) (by decide)

theorem quote_not_mem_int (n : ℤ) : '"' ∉ (toString n).toList := by
  have hdigits : ∀ m, '"' ∉ Nat.toDigits 10 m := fun m hmem =>
    absurd (Nat.isDigit_of_mem_toDigits (by decide) (by decide) hmem) (by decide)
  cases n with
  | ofNat m =>
    rw [show (toString (Int.ofNat m)).toList = Nat.toDigits 10 m from Nat.toList_repr]
    exact hdigits m
  | negSucc m =>
    rw [show (toString (Int.negSucc m)).toList = ("-" ++ (m + 1).repr).toList from rfl,
      String.toList_append, Nat.toList_repr]
    simpa using hdigits (m + 1)

theorem quoted_format (v : Scalar) : Quoted v.format v.tree.strings := by
  cases v with
  | str s => exact Quoted.single s
  | int n => exact Quoted.plain (quote_not_mem_int _)
  | bool b => cases b <;> exact Quoted.plain (by decide)

theorem quoted_writeItems (items : Dict Key Scalar) :
    Quoted (writeItems items)
      (memberStrings (items.map fun item => (item.1.text, .scalar item.2.tree))) := by
  induction items with
  | nil => exact Quoted.plain List.not_mem_nil
  | cons item items ih =>
    have hkey : Quoted ("     ".toList ++ item.1.text ++ " = ".toList) [] :=
      Quoted.plain (by simp [quote_not_mem_key])
    have hend : Quoted "\n".toList [] := Quoted.plain (by decide)
    have := ((hkey.append (quoted_format item.2)).append hend).append ih
    simpa [writeItems, memberStrings, Libconfig.Setting.strings] using this

theorem quoted_section (v : Section) (last : List Char) (hlast : '"' ∉ last) :
    Quoted ("  \x7b\n".toList ++ writeItems v.items ++ last) v.tree.strings := by
  have hopen : Quoted "  \x7b\n".toList [] := Quoted.plain (by decide)
  have := (hopen.append (quoted_writeItems v.items)).append (Quoted.plain hlast)
  simpa [Section.tree, Libconfig.Setting.strings] using this

theorem quoted_writeSections (value : List Section) :
    Quoted (writeSections value) (Libconfig.itemStrings (value.map Section.tree)) := by
  induction value with
  | nil => exact Quoted.plain List.not_mem_nil
  | cons v value ih =>
    cases value with
    | nil =>
      have := quoted_section v "  \x7d\n".toList (by decide)
      simpa [writeSections, Libconfig.itemStrings] using this
    | cons v' value => exact (quoted_section v "  \x7d,\n".toList (by decide)).append ih

theorem quoted_writeValue (key : Key) (value : Value) :
    Quoted (writeValue key value) value.tree.strings := by
  have hheading : Quoted (key.text ++ " =\n".toList) [] :=
    Quoted.plain (by simp [quote_not_mem_key])
  cases value with
  | scalar v =>
    have hkey : Quoted (key.text ++ " = ".toList) [] := Quoted.plain (by simp [quote_not_mem_key])
    have hend : Quoted "\n".toList [] := Quoted.plain (by decide)
    have := (hkey.append (quoted_format v)).append hend
    simpa [writeValue, write, Value.tree, Libconfig.Setting.strings] using this
  | dict v => exact hheading.append (quoted_section v "  \x7d\n".toList (by decide))
  | list v =>
    have hopen : Quoted "(\n".toList [] := Quoted.plain (by decide)
    have hclose : Quoted ")\n".toList [] := Quoted.plain (by decide)
    have := ((hheading.append hopen).append (quoted_writeSections v)).append hclose
    simpa [writeValue, writeList, writeDict, Value.tree, Libconfig.Setting.strings] using this

theorem quoted_writeConfig (items : Dict Key Value) :
    Quoted (items.flatMap fun item => writeValue item.1 item.2)
      (memberStrings (items.map fun item => (item.1.text, item.2.tree))) := by
  induction items with
  | nil => exact Quoted.plain List.not_mem_nil
  | cons item items ih => exact (quoted_writeValue item.1 item.2).append ih

/-! ## Distinct names -/

theorem nodup_texts {ν μ : Type} {items : Dict Key ν} (f : ν → μ) (h : items.keys.Nodup) :
    ((items.map fun item => (item.1.text, f item.2)).map Prod.fst).Nodup := by
  rw [List.map_map]
  have := h.map Key.text_injective
  rwa [Dict.keys, List.map_map] at this

theorem Section.tree_distinct (v : Section) : v.tree.Distinct := by
  refine ⟨nodup_texts (fun v => Libconfig.Setting.scalar v.tree) v.distinct, ?_⟩
  generalize v.items = items
  induction items with
  | nil => trivial
  | cons item items ih => exact ⟨trivial, ih⟩

theorem Value.tree_distinct (v : Value) : v.tree.Distinct := by
  cases v with
  | scalar v => trivial
  | dict v => exact v.tree_distinct
  | list v =>
    change Libconfig.DistinctItems (v.map Section.tree)
    induction v with
    | nil => trivial
    | cons v value ih => exact ⟨v.tree_distinct, ih⟩

theorem distinctMembers_tree (items : Dict Key Value) :
    Libconfig.DistinctMembers (items.map fun item => (item.1.text, item.2.tree)) := by
  induction items with
  | nil => trivial
  | cons item items ih => exact ⟨item.2.tree_distinct, ih⟩

end Written

/-- The file that `write_config` writes reads back as the configuration, and
as no other one, if and only if no string of it has a quote or an escape. -/
theorem writeConfig_iff (config : Config) :
    (∀ config', Libconfig.parse (writeConfig config) = some config'.tree ↔ config' = config) ↔
      ∀ s ∈ config.strings, Libconfig.Clean s := by
  constructor
  · intro h
    exact Libconfig.clean_of_read (quoted_writeConfig config.items) ((h config).mpr rfl) rfl
  · intro h config'
    have hparse := (lexes_writeConfig config.items h).parse
      (nodup_texts Value.tree config.distinct) (distinctMembers_tree config.items)
    rw [writeConfig, hparse, Option.some.injEq]
    exact ⟨fun heq => (Config.tree_injective heq).symm, fun heq => heq ▸ rfl⟩

/-- A user whose password has a quote in it. -/
def quoteConfig : Config where
  items := [(⟨"mysql_users".toList, by decide⟩, .list [
    ⟨[(⟨"username".toList, by decide⟩, .str "nova".toList),
      (⟨"password".toList, by decide⟩, .str "a\", active = \"0".toList)], by decide⟩])]
  distinct := by decide

/-- The user is read back with another password and with one more
setting. -/
theorem quote_injects :
    (Libconfig.parse (writeConfig quoteConfig)).map Libconfig.memberStrings =
        some ["nova".toList, "a".toList, "0".toList] ∧
      ¬ ∀ config', Libconfig.parse (writeConfig quoteConfig) = some config'.tree ↔
        config' = quoteConfig := by
  have hread : (Libconfig.parse (writeConfig quoteConfig)).map Libconfig.memberStrings =
      some ["nova".toList, "a".toList, "0".toList] := by decide +kernel
  refine ⟨hread, fun h => ?_⟩
  rw [(h quoteConfig).mpr rfl] at hread
  exact absurd hread (by decide)

end Kolla.ProxySql
