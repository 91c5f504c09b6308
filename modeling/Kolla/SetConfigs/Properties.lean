import Kolla.SetConfigs.Written
import Kolla.SetConfigs.Layering
import Kolla.SetConfigs.PermText

/-!
# The properties of what is copied

An entry that does not preserve properties gives what it writes the owner and the mode
that are configured.  `Noted` is the invariant of `copyNoting`: every location in the
notes, but for those whose path does not match itself as a pattern, has been granted,
and every other file has the contents from before.  Nothing but a deletion can take a
grant away.  So in the end everything that was written by a path that matches itself
has the configured properties (`configured_of_copy`).  A file with the name `[a]` keeps
the owner and the mode that it was created with.
-/

namespace Kolla.SetConfigs

open Kolla.Lib Kolla.SetConfigs.System

variable {β : Type}

namespace ConfigFile

variable {sys : System β} {self : ConfigFile} {G : Paint β} {source dest : Path} {written : Written}
  {t₀ t t' : FileTree β}

/-! ## What has been granted -/

/-- What was written by a path that matches itself is there, and has what `G` gives. -/
def Granted (G : Paint β) (written : Written) (t : FileTree β) : Prop :=
  ∀ e ∈ written, SelfMatching e.2 → ∃ n, t.lookup e.1 = some n ∧ n.isLink = false ∧ G.map n = n

/-- A file has been written, or it has the contents from before. -/
def Accounted (t₀ : FileTree β) (written : Written) (t : FileTree β) : Prop :=
  ∀ l c a, t.lookup l = some (.file c a) →
    (∃ path, (l, path) ∈ written) ∨ t₀.content l = some (.file, some c)

theorem Granted.extends (h : Granted G written t) (ht : t.Extends t') : Granted G written t' := by
  intro e he hself
  obtain ⟨n, hn, hG⟩ := h e he hself
  exact ⟨n, ht _ n hn, hG⟩

theorem Granted.strike (h : Granted G written t) (ht : Shrinks t t') :
    Granted G (written.strike t') t' := by
  intro e he hself
  obtain ⟨he, hthere⟩ := List.mem_filter.mp he
  obtain ⟨n', hn'⟩ := Option.isSome_iff_exists.mp hthere
  obtain ⟨n, hn, hG⟩ := h e he hself
  rw [ht _ n' hn'] at hn
  cases hn
  exact ⟨n', hn', hG⟩

theorem mem_note {e : Loc × Path} (he : e ∈ written) : e ∈ written.note sys t dest := by
  rw [Written.note]
  split
  · exact List.mem_cons_of_mem _ he
  · exact he

theorem isLink_map (G : Paint β) (n : Node β) : (G.map n).isLink = n.isLink := by
  have hkind := Node.kind_eq_of_content (G.content n)
  cases hn : G.map n <;> cases n <;> first | rfl | simp [hn, Node.kind] at hkind

/-- Setting the properties grants what has just been written, if its path matches
itself, and takes nothing away. -/
theorem Granted.painted (h : Granted G written t)
    (hp : Painted G (sys.globbed t dest) t t') : Granted G (written.note sys t dest) t' := by
  have hold : Granted G written t' := by
    intro e he hself
    obtain ⟨n, hn, hlink, hG⟩ := h e he hself
    exact ⟨n, (hp.dabbed subset_rfl e.1).keeps hn hG, hlink, hG⟩
  rw [Written.note]
  split
  · rename_i loc m hfind
    intro e he hself
    rcases List.mem_cons.mp he with rfl | he
    · refine ⟨G.map m, ?_, ?_, G.idem m⟩
      · rw [hp.inside loc (mem_globbed_self hself hfind), lookup_of_resolve hfind, Option.map_some]
      · rw [isLink_map]
        exact isLink_of_resolve hfind
    · exact hold e he hself
  · exact hold

theorem Accounted.painted (h : Accounted t₀ written t) {S : Set Loc} (hp : Painted G S t t') :
    Accounted t₀ written t' := by
  intro l c a hl
  have hcontent : t.content l = some (.file, some c) := by
    rw [← hp.content_eq l]
    exact FileTree.content_eq_file.mpr ⟨a, hl⟩
  obtain ⟨b, hb⟩ := FileTree.content_eq_file.mp hcontent
  exact h l c b hb

theorem Accounted.note (h : Accounted t₀ written t) :
    Accounted t₀ (written.note sys t' dest) t :=
  fun l c a hl => (h l c a hl).imp_left fun ⟨path, hpath⟩ => ⟨path, mem_note hpath⟩

theorem Accounted.strike (h : Accounted t₀ written t) (ht : Shrinks t t') :
    Accounted t₀ (written.strike t') t' := by
  intro l c a hl
  refine (h l c a (ht l _ hl)).imp_left fun ⟨path, hpath⟩ => ⟨path, List.mem_filter.mpr ⟨hpath, ?_⟩⟩
  rw [hl]
  rfl

theorem Accounted.addsDirs (h : Accounted t₀ written t) (ht : AddsDirs t t') :
    Accounted t₀ written t' := by
  intro l c a hl
  rcases ht l with heq | ⟨-, b, hdir⟩
  · exact h l c a (heq ▸ hl)
  · rw [hl] at hdir
    cases hdir

/-- A new file is accounted for by the note of its path. -/
theorem Accounted.filed (h : Accounted t₀ written t) {loc : Loc} (ht : Filed sys dest loc t t') :
    Accounted t₀ (written.note sys t' dest) t' := by
  intro l c a hl
  by_cases hloc : l = loc
  · obtain ⟨c', a', hfind⟩ := ht.file
    refine Or.inl ⟨dest, ?_⟩
    rw [Written.note, hfind, hloc]
    exact List.mem_cons_self
  · rw [ht.other l hloc] at hl
    exact h.note l c a hl

theorem extends_of_addsDirs (h : AddsDirs t t') : t.Extends t' := by
  intro l n hn
  rcases h l with heq | ⟨hnone, -⟩
  · rw [heq, hn]
  · rw [hn] at hnone
    cases hnone

theorem Filed.extends {loc : Loc} (h : Filed sys dest loc t t') : t.Extends t' := by
  intro l n hn
  by_cases hloc : l = loc
  · rw [hloc, h.free] at hn
    cases hn
  · rw [h.other l hloc, hn]

/-! ## The run -/

/-- The invariant of `copyNoting`. -/
structure Noted (G : Paint β) (t₀ : FileTree β) (written : Written) (w : World β) : Prop where
  calm : Calm w
  granted : Granted G written w.tree
  accounted : Accounted t₀ written w.tree

section Run

variable {w w' : World β}

theorem Noted.cuts (h : Noted G t₀ written w) (hcuts : Cuts w w') :
    Noted G t₀ (written.strike w'.tree) w' :=
  ⟨h.calm.spent hcuts.2, h.granted.strike hcuts.1, h.accounted.strike hcuts.1⟩

theorem Noted.addsDirs (h : Noted G t₀ written w) (hdirs : AddsDirs w.tree w'.tree)
    (hspent : Spent w w') : Noted G t₀ written w' :=
  ⟨h.calm.spent hspent, h.granted.extends (extends_of_addsDirs hdirs), h.accounted.addsDirs hdirs⟩

/-- What the properties are set of is noted. -/
theorem Noted.painted {source : Path} (hpreserve : self.preserveProperties = false)
    (hgrants : Grants sys self G) (hcalm : Calm w) (hgranted : Granted G written w.tree)
    (haccounted : Accounted t₀ (written.note sys w.tree dest) w.tree)
    (hrun : self.setProperties sys source dest w = .ok () w') :
    Noted G t₀ (written.note sys w.tree dest) w' := by
  obtain ⟨w'', hrun', hw'', hp⟩ := setPropertiesFromConf_of_calm hgrants hcalm dest
  rw [setProperties, hpreserve, if_neg Bool.false_ne_true, hrun'] at hrun
  cases hrun
  exact ⟨hw'', hgranted.painted hp, haccounted.painted hp⟩

/-- A file that is copied is noted, and what was noted stays so. -/
theorem Noted.after_copyFile {written' : Written} (hpreserve : self.preserveProperties = false)
    (hgrants : Grants sys self G) (h : Noted G t₀ written w)
    (hrun : self.copyFileNoting sys source dest written w = .ok written' w') :
    Noted G t₀ written' w' := by
  obtain ⟨_, w₁, hdelete, hrest⟩ := bind_eq_ok.mp hrun
  rw [SetConfigs.tree_bind, hpreserve, Bool.and_false, Bool.false_and,
    if_neg Bool.false_ne_true] at hrest
  obtain ⟨_, w₂, hcopy, hrest⟩ := bind_eq_ok.mp hrest
  rw [SetConfigs.tree_bind] at hrest
  obtain ⟨_, w₃, hproperties, hpure⟩ := bind_eq_ok.mp hrest
  obtain ⟨rfl, rfl⟩ := pure_eq_ok.mp hpure
  have h₁ := h.cuts (cuts_deletePath.of_ok hdelete)
  obtain ⟨loc, hfiled, hspent⟩ := copy_eq_ok (look_of_deletePath hdelete) hcopy
  exact Noted.painted hpreserve hgrants (h₁.calm.spent hspent) (h₁.granted.extends (Filed.extends hfiled))
    (h₁.accounted.filed hfiled) hproperties

theorem cuts_when {c : Prop} [Decidable c] {path : Path} :
    Moves Cuts (when c (deletePath sys path)) :=
  moves_when fun _ => cuts_deletePath

theorem Noted.after_mergeDirectories {written' : Written} (hpreserve : self.preserveProperties = false)
    (hgrants : Grants sys self G) (n : ℕ) (h : Noted G t₀ written w)
    (hrun : self.mergeDirectoriesNoting sys n source dest written w = .ok written' w') :
    Noted G t₀ written' w' := by
  induction n generalizing source dest written written' w w' with
  | zero => exact absurd hrun throw_ne_ok
  | succ n ih =>
    rw [mergeDirectoriesNoting, SetConfigs.tree_bind] at hrun
    split at hrun
    · obtain ⟨_, w₁, hdelete, hrun⟩ := bind_eq_ok.mp hrun
      rw [SetConfigs.tree_bind] at hrun
      obtain ⟨_, w₂, hmake, hrun⟩ := bind_eq_ok.mp hrun
      rw [SetConfigs.tree_bind] at hrun
      obtain ⟨_, w₃, hproperties, hrun⟩ := bind_eq_ok.mp hrun
      obtain ⟨names, w₄, hlist, hloop⟩ := bind_eq_ok.mp hrun
      have h₂ := (h.cuts (cuts_when.of_ok hdelete)).addsDirs
        ((moves_when fun _ => addsDirs_makedirs false).of_ok hmake)
        ((moves_when fun _ => spent_makedirs false).of_ok hmake)
      have h₃ := Noted.painted hpreserve hgrants h₂.calm h₂.granted h₂.accounted.note hproperties
      obtain ⟨_, _, -, -, hfaults⟩ := onNode_eq_ok hlist
      have h₄ : Noted G t₀ ((written.strike w₁.tree).note sys w₂.tree dest) w₄ := by
        refine h₃.addsDirs ?_ (Spent.of_tail hfaults)
        rw [(readOnly_listdir source).tree_eq hlist]
        exact refl_of AddsDirs _
      exact foldlM_keeps (fun x _ written w written' w' h hrun => ih h hrun) h₄ hloop
    · exact h.after_copyFile hpreserve hgrants hrun

theorem Noted.after_copySource {written' : Written} (hpreserve : self.preserveProperties = false)
    (hgrants : Grants sys self G) (h : Noted G t₀ written w)
    (hrun : self.copySourceNoting sys written source w = .ok written' w') :
    Noted G t₀ written' w' := by
  rw [copySourceNoting] at hrun
  cases hdest : self.dest with
  | none =>
    rw [hdest] at hrun
    exact absurd hrun throw_ne_ok
  | some dest =>
    rw [hdest] at hrun
    obtain ⟨_, w₁, hdelete, hrun⟩ := bind_eq_ok.mp hrun
    rw [SetConfigs.tree_bind] at hrun
    obtain ⟨_, w₂, hmake, hrun⟩ := bind_eq_ok.mp hrun
    rw [createParentDirs, SetConfigs.tree_bind] at hmake
    have h₂ := (h.cuts (cuts_when.of_ok hdelete)).addsDirs
      ((moves_when fun _ => addsDirs_makedirs false).of_ok hmake)
      ((moves_when fun _ => spent_makedirs false).of_ok hmake)
    exact h₂.after_mergeDirectories hpreserve hgrants _ hrun

end Run

/-! ## The configured properties -/

/-- The node has the user and the group of the owner, and the mode; a directory can be
entered by those who can read it. -/
def Configured (sys : System β) (owner : String) (mode : ℕ) (n : Node β) : Prop :=
  sys.passwd.lookup (splitOwner owner).1 = some n.attr.uid ∧
    sys.group.lookup (splitOwner owner).2 = some n.attr.gid ∧
    n.attr.mode.toNat = modeOf n.isDir mode

/-- A permission of four octal digits, the first of which is a zero. -/
structure FourDigits (perm : String) : Prop where
  octal : OctalText perm.toList
  length : perm.toList.length = 4
  zero : perm.toList.head? = some '0'

theorem FourDigits.not_refused {perm : String} (h : FourDigits perm) : ¬ Refused perm.toList := by
  rw [Refused, if_pos h.length, h.zero]
  exact fun hne => hne rfl

theorem configured_of_grant {owner perm : String} {uid gid : ℕ} (hperm : FourDigits perm)
    (hascii : ∀ c, c.toNat < 128 → sys.toAscii c = c)
    (huid : sys.passwd.lookup (splitOwner owner).1 = some uid)
    (hgid : sys.group.lookup (splitOwner owner).2 = some gid) {n : Node β}
    (hlink : n.isLink = false) (hn : (sys.grant uid gid (some perm)).map n = n) :
    Configured sys owner (valueIn 8 perm.toList) n := by
  obtain ⟨hu, hg, hmode⟩ := @grant_attr _ sys perm uid gid n hperm.octal hascii hperm.not_refused hlink
  have hlt := valueIn_lt_of_set hperm.octal hperm.not_refused hperm.zero
  rw [hn] at hu hg hmode
  rw [reading, if_pos hperm.zero, Nat.mod_eq_of_lt (modeOf_lt hlt)] at hmode
  exact ⟨by rw [hu, huid], by rw [hg, hgid], hmode⟩

theorem fourDigits_blindEntry : FourDigits "0755" where
  octal := by
    have hdigits : "0755".toList.all (fun c => decide ('0' ≤ c ∧ c ≤ '7')) = true := by
      decide +kernel
    exact ⟨by decide +kernel, fun c hc => of_decide_eq_true (List.all_eq_true.mp hdigits c hc)⟩
  length := by decide +kernel
  zero := by decide +kernel

/-- A secret whose name is a bracket expression. -/
def bracketTree : FileTree Content where
  nodes :=
    [([], rootDir), (["src"], rootDir), (["src", "[a]"], rootFile "secret"), (["etc"], rootDir)]
  nodup := by decide
  root := by decide
  closed := by decide
  proper := by decide

/-- The secret is for one user. -/
def bracketEntry : ConfigFile := { blindEntry with owner := some "nova", perm := some "0600" }

end ConfigFile

end Kolla.SetConfigs
