import Kolla.SetConfigs.Operations
import Kolla.Lib.Anchor
import Kolla.Lib.SameWay

/-!
# What deleting takes away

`delete_path` only takes nodes away (`cuts_deletePath`), and afterwards its path leads
nowhere (`look_of_deletePath`).  Both hold whatever links there are.
-/

namespace Kolla.SetConfigs

open Kolla.Lib

variable {β α : Type}

/-! ## What is taken away -/

instance : IsPreorder (FileTree β) FileTree.Extends where
  refl _ _ _ h := h
  trans _ _ _ h h' l n hl := h' l n (h l n hl)

/-- What is there was there before. -/
def Shrinks (t t' : FileTree β) : Prop := t'.Extends t

instance : IsPreorder (FileTree β) Shrinks where
  refl t := refl_of FileTree.Extends t
  trans _ _ _ h h' := trans_of FileTree.Extends h' h

/-- The kernel has no more errors in store than before. -/
def Spent (w w' : World β) : Prop := w'.faults <:+ w.faults

instance : IsPreorder (World β) Spent where
  refl w := List.suffix_refl w.faults
  trans _ _ _ h h' := h'.trans h

theorem Calm.spent {w w' : World β} (hw : Calm w) (h : Spent w w') : Calm w' :=
  fun e he => hw e (h.subset he)

theorem spent_syscall {f : FileTree β → Except Errno (α × FileTree β)} :
    Moves Spent (syscall f) := by
  intro w
  unfold syscall
  split
  · rename_i e faults hfaults
    exact ⟨[some e], by rw [hfaults]; rfl⟩
  · split
    · exact List.tail_suffix w.faults
    · exact List.tail_suffix w.faults

theorem spent_tree : Moves Spent (tree : Os β (FileTree β)) := fun w => refl_of Spent w

theorem shrinks_erase (t : FileTree β) (loc : Loc) : Shrinks t (t.erase loc) := by
  intro l n hn
  by_cases h : loc ≠ [] ∧ t.names loc = []
  · rw [FileTree.lookup_erase h.1 h.2] at hn
    split at hn
    · cases hn
    · exact hn
  · rwa [FileTree.erase, dif_neg h] at hn

/-- Both at once: nodes are taken away, and the errors go by. -/
def Cuts (w w' : World β) : Prop := Shrinks w.tree w'.tree ∧ Spent w w'

instance : IsPreorder (World β) Cuts where
  refl w := ⟨refl_of Shrinks w.tree, refl_of Spent w⟩
  trans _ _ _ h h' := ⟨trans_of Shrinks h.1 h'.1, trans_of Spent h.2 h'.2⟩

theorem cuts_syscall {f : FileTree β → Except Errno (α × FileTree β)}
    (hf : ∀ t a t', f t = .ok (a, t') → Shrinks t t') : Moves Cuts (syscall f) :=
  fun w => ⟨(moves_syscall hf) w, spent_syscall w⟩

theorem cuts_tree : Moves Cuts (tree : Os β (FileTree β)) := fun w => refl_of Cuts w

namespace System

variable {sys : System β} {path : Path}

theorem shrinks_unlinkAt {t t' : FileTree β} {loc : Loc} {n : Node β}
    (h : unlinkAt t loc n = .ok ((), t')) : Shrinks t t' := by
  rw [unlinkAt] at h
  split at h
  · cases h
  · cases h
    exact shrinks_erase t loc

theorem shrinks_rmdirAt {t t' : FileTree β} {loc : Loc} {n : Node β}
    (h : rmdirAt t loc n = .ok ((), t')) : Shrinks t t' := by
  rw [rmdirAt] at h
  split at h
  · cases h
  · split at h
    · cases h
    · cases h
      exact shrinks_erase t loc

theorem cuts_atNode {loc : Loc} {f : FileTree β → Loc → Node β → Except Errno (α × FileTree β)}
    (hf : ∀ t n a t', f t loc n = .ok (a, t') → Shrinks t t') : Moves Cuts (atNode loc f) := by
  refine cuts_syscall fun t a t' h => ?_
  cases hn : t.lookup loc with
  | some n =>
    rw [hn] at h
    exact hf t n a t' h
  | none =>
    rw [hn] at h
    cases h

theorem cuts_removeContents (n : ℕ) (loc : Loc) : Moves Cuts (sys.removeContents n loc) := by
  induction n generalizing loc with
  | zero => exact Moves.throw _
  | succ n ih =>
    refine Moves.bind (cuts_atNode fun t n a t' h => ?_) fun names => Moves.forM fun x _ => ?_
    · cases h
      exact refl_of Shrinks t
    · refine Moves.bind cuts_tree fun t => Moves.ite (fun _ => ?_) fun _ => ?_
      · exact Moves.bind (ih _) fun _ => cuts_atNode fun _ _ _ _ => shrinks_rmdirAt
      · exact cuts_atNode fun _ _ _ _ => shrinks_unlinkAt

theorem cuts_remove : Moves Cuts (sys.remove path) := by
  unfold remove onNode
  refine cuts_syscall fun t a t' h => ?_
  cases hfind : sys.find t false path with
  | found loc n =>
    rw [hfind] at h
    exact shrinks_unlinkAt h
  | free loc slash =>
    rw [hfind] at h
    cases h
  | failed e =>
    rw [hfind] at h
    cases h

/-- A directory that was removed is found without the slashes at the end of its path. -/
theorem rmdir_eq_ok {w w' : World β} (h : sys.rmdir path w = .ok () w') :
    ∃ loc n, sys.find w.tree false (path.rdropWhile (· = "")) = .found loc n ∧
      rmdirAt w.tree loc n = .ok ((), w'.tree) := by
  obtain ⟨hf, -⟩ := syscall_eq_ok h
  dsimp only at hf
  split at hf
  · cases hf
  · split at hf
    · cases hf
    · cases hfind : sys.find w.tree false (path.rdropWhile (· = "")) with
      | found loc n =>
        rw [hfind] at hf
        exact ⟨loc, n, rfl, hf⟩
      | free loc slash =>
        rw [hfind] at hf
        cases hf
      | failed e =>
        rw [hfind] at hf
        cases hf

theorem cuts_rmdir : Moves Cuts (sys.rmdir path) := by
  refine cuts_syscall fun t a t' h => ?_
  have hrun : sys.rmdir path ⟨t, []⟩ = .ok a ⟨t', []⟩ := syscall_of_calm (fun _ h => by cases h) h
  obtain ⟨loc, n, -, hf⟩ := rmdir_eq_ok hrun
  exact shrinks_rmdirAt hf

theorem cuts_rmtree : Moves Cuts (sys.rmtree path) := by
  refine Moves.bind cuts_tree fun t => ?_
  split
  · exact Moves.bind (cuts_removeContents _ _) fun _ => cuts_rmdir
  all_goals exact Moves.throw _

/-! ## What has gone -/

theorem ne_empty_of_find {t : FileTree β} {L : Loc} {m : Node β} {follow : Bool}
    (hfind : sys.find t follow path = .found L m) :
    path ≠ [] ∧ path ≠ [""] := by
  obtain ⟨hnil, hempty, -⟩ := resolve_eq_walk (fun e he => by
    change sys.find t follow path = _ at he
    rw [hfind] at he
    cases he)
  exact ⟨hnil, hempty⟩

theorem lexists_of_find {t : FileTree β} {L : Loc} {m : Node β}
    (hfind : sys.find t true path = .found L m) : sys.lexists t path = true := by
  obtain ⟨L', n', hfound⟩ := exists_of_resolve hfind
  have hfound : sys.find t false path = .found L' n' := hfound
  rw [lexists, hfound]
  rfl

theorem names_eq_nil {t : FileTree β} {loc : Loc} {n : Node β} (hn : t.lookup loc = some n)
    (hdir : n.isDir = false) : t.names loc = [] := by
  refine List.eq_nil_iff_forall_not_mem.mpr fun x hx => ?_
  obtain ⟨m, hm⟩ := FileTree.mem_names.mp hx
  obtain ⟨a, ha⟩ := FileTree.parent_dir hm
  rw [hn] at ha
  rw [Option.some.inj ha] at hdir
  cases hdir

/-- Where the node at the end of a path has been taken away, the path leads nowhere. -/
theorem look_of_erased {t t' : FileTree β} (hcut : Shrinks t t') {loc : Loc} {n : Node β}
    (hfind : sys.find t false path = .found loc n) (hgone : t'.lookup loc = none) :
    sys.look t' path = none := by
  cases hlook : sys.look t' path with
  | none => rfl
  | some m =>
    obtain ⟨L, hL⟩ := find_of_look hlook
    obtain ⟨L', m', hL'⟩ := exists_of_resolve hL
    have heq := resolve_extends hcut hL'
    rw [show resolve t sys.maxLinks sys.cwd false path = .found loc n from hfind] at heq
    cases heq
    rw [lookup_of_resolve hL'] at hgone
    cases hgone

theorem look_of_remove {w w' : World β} (h : sys.remove path w = .ok () w') :
    sys.look w'.tree path = none := by
  obtain ⟨loc, n, hfind, hf, -⟩ := onNode_eq_ok h
  refine look_of_erased (shrinks_unlinkAt hf) hfind ?_
  have hn := lookup_of_resolve hfind
  rw [unlinkAt] at hf
  split at hf
  · cases hf
  · rename_i hdir
    rw [Bool.not_eq_true] at hdir
    have hroot : loc ≠ [] := by
      rintro rfl
      obtain ⟨a, ha⟩ := w.tree.root_dir
      rw [ha] at hn
      rw [← Option.some.inj hn] at hdir
      cases hdir
    rw [← (Prod.mk.inj (Except.ok.inj hf)).2,
      FileTree.lookup_erase hroot (names_eq_nil hn hdir), if_pos rfl]

/-- The slashes at the end do not make a path lead anywhere. -/
theorem look_of_rdropWhile {t : FileTree β} (hne : path.rdropWhile (· = "") ≠ [])
    (h : sys.look t (path.rdropWhile (· = "")) = none) : sys.look t path = none := by
  cases hlook : sys.look t path with
  | none => rfl
  | some m =>
    obtain ⟨L, hL⟩ := find_of_look hlook
    have hpath := ne_empty_of_find hL
    obtain ⟨init, x, rfl⟩ := (List.eq_nil_or_concat' path).resolve_left hpath.1
    by_cases hx : x = ""
    · subst hx
      have hinit : init ≠ [] := by
        rintro rfl
        exact hpath.2 rfl
      have hall : (init ++ [""]).all (· = "") = false := by
        rw [Bool.eq_false_iff]
        exact fun hall => hne (List.rdropWhile_eq_nil_iff.mpr (List.all_eq_true.mp hall))
      by_cases hempty : init = [""]
      · subst hempty
        cases hall
      · obtain ⟨-, hdir⟩ := (resolve_slash hinit hempty).mp hL
        obtain ⟨a, rfl⟩ := Node.isDir_iff.mp hdir
        rw [look_of_find (resolve_rdropWhile hall hL)] at h
        cases h
    · rw [List.rdropWhile_concat_neg _ _ _ (by simpa using hx), hlook] at h
      cases h

theorem look_of_rmdir {w w' : World β} (h : sys.rmdir path w = .ok () w') :
    sys.look w'.tree path = none := by
  obtain ⟨loc, n, hfind, hf⟩ := rmdir_eq_ok h
  have hcut := shrinks_rmdirAt hf
  rw [rmdirAt] at hf
  split at hf
  · cases hf
  · split at hf
    · cases hf
    · rename_i hempty
      rw [not_or, not_not] at hempty
      have hgone : w'.tree.lookup loc = none := by
        rw [← (Prod.mk.inj (Except.ok.inj hf)).2, FileTree.lookup_erase hempty.1 hempty.2, if_pos rfl]
      refine look_of_rdropWhile (fun hnil => ?_) (look_of_erased hcut hfind hgone)
      rw [hnil] at hfind
      cases hfind

theorem look_of_rmtree {w w' : World β} (h : sys.rmtree path w = .ok () w') :
    sys.look w'.tree path = none := by
  rw [rmtree, SetConfigs.tree_bind] at h
  cases hfind : sys.find w.tree false path with
  | found loc n =>
    rw [hfind] at h
    cases n with
    | dir a =>
      obtain ⟨_, w₁, -, hrmdir⟩ := bind_eq_ok.mp h
      exact look_of_rmdir hrmdir
    | file c a => exact absurd h throw_ne_ok
    | link target => exact absurd h throw_ne_ok
  | free loc slash =>
    rw [hfind] at h
    exact absurd h throw_ne_ok
  | failed e =>
    rw [hfind] at h
    exact absurd h throw_ne_ok

end System

namespace ConfigFile

open Kolla.SetConfigs.System

variable {sys : System β} {path : Path}

theorem cuts_deletePath : Moves Cuts (deletePath sys path) :=
  Moves.bind cuts_tree fun _ => Moves.ite (fun _ => Moves.pure ()) fun _ =>
    Moves.ite (fun _ => cuts_rmtree) fun _ => cuts_remove

/-- What was deleted is not there any more. -/
theorem look_of_deletePath {w w' : World β} (h : deletePath sys path w = .ok () w') :
    sys.look w'.tree path = none := by
  rw [deletePath, SetConfigs.tree_bind] at h
  split at h
  · rename_i hlexists
    obtain ⟨-, rfl⟩ := pure_eq_ok.mp h
    cases hlook : sys.look w.tree path with
    | none => rfl
    | some n =>
      obtain ⟨L, hL⟩ := find_of_look hlook
      rw [lexists_of_find hL] at hlexists
      cases hlexists
  · split at h
    · exact look_of_rmtree h
    · exact look_of_remove h

end ConfigFile

end Kolla.SetConfigs
