import Kolla.Lib.Overlay
import Kolla.SetConfigs.Replica

/-!
# `shutil.copytree`

`copy_dir` of `kolla/image/kolla_worker.py` lays a tree of files over the working
directory with `shutil.copytree(src, dest, dirs_exist_ok=True)`.

`copytree` goes on after an `OSError` and raises at its end what it has collected.
Where it collects nothing, the destination has what the source has, and what it had
before where the source has nothing (`copytree_content`).  On every exit it changes
nothing outside of the destination (`confined_copytree`).

A file of the source must not stand where the destination has a directory:
`shutil.copy2` copies it into that directory.
-/

namespace Kolla.SetConfigs.System

open Kolla.Lib

variable {β : Type}

/-- An entry in the list of a `shutil.Error`. -/
structure CopyError where
  srcname : Path
  dstname : Path
  why : Errno
deriving DecidableEq, Repr

section Source

variable (sys : System β)

/-- The handlers of `_copytree`: an `OSError` is collected. -/
def collectErrors (srcname dstname : Path) (m : Os β (List CopyError)) : Os β (List CopyError) :=
  tryCatch m fun
    | .osError why => pure [⟨srcname, dstname, why⟩]
    | e => throw e

/-- What `_copytree` does with one entry; a link is followed. -/
def copyEntry (copytree : Path → Path → Os β (List CopyError)) (srcname dstname : Path) :
    Os β (List CopyError) :=
  collectErrors srcname dstname do
    let t ← tree
    when (sys.islink t srcname) do
      let _ ← sys.readlink srcname
      pure ()
    if sys.isdir t srcname then copytree srcname dstname
    else do
      sys.copy srcname dstname
      pure []

/-- The loop over the entries, with the errors in their order. -/
def copyEntries (step : String → Os β (List CopyError)) : List String → Os β (List CopyError)
  | [] => pure []
  | x :: names => do
    let errors ← step x
    let more ← copyEntries step names
    pure (errors ++ more)

/-- `shutil.copytree(src, dst, dirs_exist_ok=True)` up to the `shutil.Error` that it
raises where there are errors. -/
def copytree : ℕ → Path → Path → Os β (List CopyError)
  | 0, _, _ => throw .recursionError
  | n + 1, src, dst => do
    let entries ← sys.listdir src
    sys.makedirs dst true
    let errors ← copyEntries (fun x =>
      sys.copyEntry (copytree n) (Path.join src [x]) (Path.join dst [x])) entries
    let more ← collectErrors src dst do
      sys.copystat src dst
      pure []
    pure (errors ++ more)

end Source

variable {sys : System β} {top : Loc} {src dst : Path}

/-- A path that ends in a name leads to the directory at its location. -/
theorem find_of_dir {t : FileTree β} {path : Path} (hdown : Down path) (hname : IsName (Path.basename path))
    {a : Attr} (hdir : t.lookup (Path.abspath sys.cwd path) = some (.dir a)) (follow : Bool) :
    sys.find t follow path = .found (Path.abspath sys.cwd path) (.dir a) := by
  have hbase : t.isDir (if Path.isabs path then [] else sys.cwd) = true := by
    obtain ⟨rel, hrel⟩ : (if Path.isabs path then [] else sys.cwd) <+: Path.abspath sys.cwd path :=
      prefix_foldl_absStep hdown _
    by_cases hnil : rel = []
    · rw [hnil, List.append_nil] at hrel
      exact FileTree.isDir_iff.mpr ⟨a, hrel ▸ hdir⟩
    · rw [← hrel] at hdir
      exact FileTree.isDir_iff.mpr (FileTree.ancestor_dir hdir hnil)
  have hnil : path ≠ [] ∧ path ≠ [""] := by
    constructor
    · rintro rfl
      exact hname.1 rfl
    · rintro rfl
      exact hname.1 rfl
  rw [find, resolve_of_base hnil.1 hnil.2 hbase, Path.abspath]
  exact walk_of_dir (hdown.direct _) hdir

/-! ## What is left alone -/

theorem confined_copyfile (htop : top <+: Path.abspath sys.cwd dst) :
    Moves (OnTree (Confined top)) (sys.copyfile src dst) := by
  refine Moves.bind moves_tree fun t => Moves.ite (fun _ => Moves.throw _) fun _ => ?_
  exact Moves.bind (moves_readOnly (readOnly_openRead _)) fun c => confined_writeFile htop c

theorem confined_copy (hname : IsName (Path.basename src)) (htop : top <+: Path.abspath sys.cwd dst) :
    Moves (OnTree (Confined top)) (sys.copy src dst) := by
  refine Moves.bind moves_tree fun t => ?_
  have htop' : top <+: Path.abspath sys.cwd
      (if sys.isdir t dst then Path.join dst [Path.basename src] else dst) := by
    split
    · rw [abspath_join hname]
      exact htop.trans (List.prefix_append _ _)
    · exact htop
  exact Moves.bind (confined_copyfile htop') fun _ => Confined.moves (sameContent_copymode _ _)

theorem moves_collectErrors {R : World β → World β → Prop} [IsPreorder _ R]
    {m : Os β (List CopyError)} (hm : Moves R m) : Moves R (collectErrors src dst m) := by
  refine Moves.tryCatch hm fun e => ?_
  split
  · exact Moves.pure _
  · exact Moves.throw _

theorem moves_copyEntries {R : World β → World β → Prop} [IsPreorder _ R]
    {step : String → Os β (List CopyError)} {names : List String}
    (hstep : ∀ x ∈ names, Moves R (step x)) : Moves R (copyEntries step names) := by
  induction names with
  | nil => exact Moves.pure _
  | cons x names ih =>
    obtain ⟨hx, hnames⟩ := List.forall_mem_cons.mp hstep
    exact Moves.bind hx fun _ => Moves.bind (ih hnames) fun _ => Moves.pure _

theorem readOnly_readlink (path : Path) : ReadOnly (sys.readlink path) := by
  refine moves_onNode fun t loc n a t' _ h => ?_
  cases n <;> cases h
  rfl

theorem confined_copyEntry {copytree : Path → Path → Os β (List CopyError)} {x : String} (hname : IsName x)
    (htree : Moves (OnTree (Confined top)) (copytree (Path.join src [x]) (Path.join dst [x])))
    (htop : top <+: Path.abspath sys.cwd (Path.join dst [x])) :
    Moves (OnTree (Confined top)) (sys.copyEntry copytree (Path.join src [x]) (Path.join dst [x])) := by
  have hbase : IsName (Path.basename (Path.join src [x])) := by
    rw [Path.basename, Path.getLastD_join_name]
    exact hname
  refine moves_collectErrors ?_
  refine Moves.bind moves_tree fun t => Moves.bind (moves_when fun _ => ?_) fun _ => ?_
  · exact Moves.bind (moves_readOnly (readOnly_readlink _)) fun _ => Moves.pure _
  · refine Moves.ite (fun _ => htree) fun _ => ?_
    exact Moves.bind (confined_copy hbase htop) fun _ => Moves.pure _

/-- Whatever `copytree` meets, it changes nothing but the destination. -/
theorem confined_copytree (n : ℕ) (hdown : Down dst) (htop : top <+: Path.abspath sys.cwd dst) :
    Moves (OnTree (Confined top)) (sys.copytree n src dst) := by
  induction n generalizing src dst with
  | zero => exact Moves.throw _
  | succ n ih =>
    intro w
    refine Moves.bind_at (moves_readOnly (readOnly_listdir _) w) fun names w₁ hlist => ?_
    have hnames := isName_of_listdir hlist
    refine Moves.bind (confined_makedirs _ hdown (Or.inr htop)) (fun _ => ?_) w₁
    refine Moves.bind (moves_copyEntries fun x hx => ?_) fun _ =>
      Moves.bind (moves_collectErrors ?_) fun _ => Moves.pure _
    · have htop' : top <+: Path.abspath sys.cwd (Path.join dst [x]) := by
        rw [abspath_join (hnames x hx)]
        exact htop.trans (List.prefix_append _ _)
      exact confined_copyEntry (hnames x hx) (ih (down_join hdown (hnames x hx)) htop') htop'
    · exact Moves.bind (Confined.moves (sameContent_copymode _ _)) fun _ => Moves.pure _

/-! ## What is copied -/

/-- After `os.makedirs` there is a directory. -/
theorem makedirs_dir {w w' : World β} (ht : w.tree.LinkFree) (hdown : Down dst)
    (hname : IsName (Path.basename dst)) (h : sys.makedirs dst true w = .ok () w') :
    w'.tree.content (Path.abspath sys.cwd dst) = some (.dir, none) := by
  have ht' : w'.tree.LinkFree :=
    ((confined_makedirs true hdown (Or.inr (List.prefix_refl _))).of_ok h ht).1
  unfold makedirs at h
  cases hlen : dst.length with
  | zero =>
    rw [List.length_eq_zero_iff.mp hlen] at hname
    exact absurd rfl hname.1
  | succ n =>
    rw [hlen, makedirsAux, if_neg hname.1, if_neg hname.1, tree_bind] at h
    obtain ⟨_, w₁, hhead, h⟩ := bind_eq_ok.mp h
    rw [if_neg fun hdot => hname.2.1 hdot.2] at h
    rcases tryCatch_eq_ok.mp h with hmkdir | ⟨e, w₂, -, hhandler⟩
    · obtain ⟨hf, -⟩ := syscall_eq_ok hmkdir
      cases hfind : sys.find w₁.tree false dst with
      | found loc n =>
        rw [hfind] at hf
        cases hf
      | failed e =>
        rw [hfind] at hf
        cases hf
      | free loc slash =>
        rw [hfind] at hf
        obtain ⟨-, htree⟩ := Prod.mk.inj (Except.ok.inj hf)
        have hvacant := vacant_of_resolve hfind
        have ht₁ : w₁.tree.LinkFree := by
          intro l target hl
          refine ht' l target ?_
          rw [← htree]
          exact FileTree.extends_create hvacant _ _ hl
        obtain ⟨rfl, -⟩ := free_loc ht₁ hfind
        rw [FileTree.content_eq_dir, FileTree.isDir_iff, ← htree, FileTree.lookup_create hvacant,
          if_pos rfl]
        exact ⟨_, rfl⟩
    · cases e with
      | osError e =>
        dsimp only at hhandler
        rw [tree_bind, Bool.true_and] at hhandler
        split at hhandler
        · rename_i hisdir
          obtain ⟨-, rfl⟩ := pure_eq_ok.mp hhandler
          obtain ⟨L, a, hfind⟩ := isdir_iff.mp hisdir
          exact FileTree.content_of_lookup (found_loc ht' hfind).2
        · exact absurd hhandler throw_ne_ok
      | _ => exact absurd hhandler throw_ne_ok

/-- `open(path, 'w')` makes a file or empties it, and touches nothing else. -/
theorem lookup_openWrite {w w' : World β} {loc : Loc} (h : sys.openWrite dst w = .ok loc w') :
    ∃ c a, ∀ l, w'.tree.lookup l = if l = loc then some (.file c a) else w.tree.lookup l := by
  obtain ⟨hf, -⟩ := syscall_eq_ok h
  cases hfind : sys.find w.tree true dst with
  | found L n =>
    rw [hfind] at hf
    have hL := lookup_of_resolve hfind
    cases n with
    | file c a =>
      obtain ⟨rfl, htree⟩ := Prod.mk.inj (Except.ok.inj hf)
      refine ⟨sys.codec.empty, a, fun l => ?_⟩
      rw [← htree, FileTree.lookup_replace hL fun hdir => ?_]
      obtain ⟨b, hb⟩ := FileTree.isDir_iff.mp hdir
      rw [hL] at hb
      cases hb
    | dir a => cases hf
    | link target => cases hf
  | free L slash =>
    rw [hfind] at hf
    cases slash with
    | true => cases hf
    | false =>
      obtain ⟨rfl, htree⟩ := Prod.mk.inj (Except.ok.inj hf)
      exact ⟨_, _, fun l => by rw [← htree, FileTree.lookup_create (vacant_of_resolve hfind)]⟩
  | failed e =>
    rw [hfind] at hf
    cases hf

/-- The contents after a file has been written. -/
theorem content_writeFile {content : β} {w w' : World β} (ht : w.tree.LinkFree)
    (h : sys.writeFile dst content w = .ok () w') (l : Loc) :
    w'.tree.content l = if l = Path.abspath sys.cwd dst then some (.file, some content)
      else w.tree.content l := by
  split
  · rename_i hl
    rw [hl]
    exact writeFile_content ht h
  · rename_i hl
    obtain ⟨loc, w₁, hopen, hwrite⟩ := bind_eq_ok.mp h
    rw [← openWrite_loc ht hopen] at hl
    obtain ⟨c, a, hlookup⟩ := lookup_openWrite hopen
    obtain ⟨hf, -⟩ := syscall_eq_ok hwrite
    have hloc : w₁.tree.lookup loc = some (.file c a) := by rw [hlookup, if_pos rfl]
    rw [hloc] at hf
    obtain ⟨-, htree⟩ := Prod.mk.inj (Except.ok.inj hf)
    rw [FileTree.content, ← htree, FileTree.lookup_replace hloc fun hdir => ?_, if_neg hl, hlookup,
      if_neg hl]
    · rfl
    · obtain ⟨b, hb⟩ := FileTree.isDir_iff.mp hdir
      rw [hloc] at hb
      cases hb

/-- The contents after `shutil.copyfile`. -/
theorem content_copyfile {w w' : World β} (ht : w.tree.LinkFree)
    (h : sys.copyfile src dst w = .ok () w') :
    ∃ c, w.tree.content (Path.abspath sys.cwd src) = some (.file, some c) ∧
      ∀ l, w'.tree.content l = if l = Path.abspath sys.cwd dst then some (.file, some c)
        else w.tree.content l := by
  rw [copyfile, tree_bind] at h
  split at h
  · exact absurd h throw_ne_ok
  · obtain ⟨c, w₁, hread, hwrite⟩ := bind_eq_ok.mp h
    have htree : w₁.tree = w.tree := (readOnly_openRead _).tree_eq hread
    obtain ⟨a, hlook⟩ := openRead_eq_ok hread
    obtain ⟨loc, hfind⟩ := find_of_look hlook
    refine ⟨c, FileTree.content_of_lookup (found_loc ht hfind).2, fun l => ?_⟩
    rw [content_writeFile (htree ▸ ht) hwrite, htree]

theorem isdir_eq_content {t : FileTree β} (ht : t.LinkFree) {path : Path}
    (h : t.content (Path.abspath sys.cwd path) ≠ some (.dir, none)) : sys.isdir t path = false := by
  by_contra hdir
  obtain ⟨L, a, hfind⟩ := isdir_iff.mp (Bool.not_eq_false _ ▸ hdir)
  exact h (FileTree.content_of_lookup (found_loc ht hfind).2)

/-- `shutil.copy2` reads a file and writes it. -/
theorem copy_content {w w' : World β} (ht : w.tree.LinkFree) (h : sys.copy src dst w = .ok () w') :
    ∃ c, w.tree.content (Path.abspath sys.cwd src) = some (.file, some c) ∧
      w'.tree.content (Path.abspath sys.cwd
        (if sys.isdir w.tree dst then Path.join dst [Path.basename src] else dst))
          = some (.file, some c) := by
  rw [System.copy, tree_bind] at h
  obtain ⟨_, w₁, hcopyfile, hcopymode⟩ := bind_eq_ok.mp h
  obtain ⟨c, hsrc, hcontent⟩ := content_copyfile ht hcopyfile
  refine ⟨c, hsrc, ?_⟩
  rw [(sameContent_copymode _ _).of_ok hcopymode, hcontent, if_pos rfl]

/-- No file of the upper tree stands where the lower one has a directory. -/
def NoFileOverDir (lower upper : Loc → Option (Kind × Option β)) : Prop :=
  ∀ rel c, upper rel = some (.file, some c) → lower rel ≠ some (.dir, none)

/-- The same for two places of one tree. -/
def NoClash (t : FileTree β) (S D : Loc) : Prop := NoFileOverDir (t.subtree D) (t.subtree S)

theorem NoClash.below {t : FileTree β} {S D : Loc} (h : NoClash t S D) (x : String) :
    NoClash t (S ++ [x]) (D ++ [x]) := by
  intro rel c
  rw [← FileTree.subtree_cons, ← FileTree.subtree_cons]
  exact h (x :: rel) c

theorem collectErrors_nil {m : Os β (List CopyError)} {w w' : World β}
    (h : collectErrors src dst m w = .ok [] w') : m w = .ok [] w' := by
  rcases tryCatch_eq_ok.mp h with hm | ⟨e, w₁, -, hhandler⟩
  · exact hm
  · cases e with
    | osError why =>
      obtain ⟨hnil, -⟩ := pure_eq_ok.mp hhandler
      cases hnil
    | _ => exact absurd hhandler throw_ne_ok

theorem append_eq_nil_ok {m : Os β (List CopyError)} {errors : List CopyError} {w w' : World β}
    (h : (m >>= fun more => pure (errors ++ more)) w = .ok [] w') : errors = [] ∧ m w = .ok [] w' := by
  obtain ⟨more, w₁, hm, hpure⟩ := bind_eq_ok.mp h
  obtain ⟨hnil, rfl⟩ := pure_eq_ok.mp hpure
  obtain ⟨rfl, rfl⟩ := List.append_eq_nil_iff.mp hnil
  exact ⟨rfl, hm⟩

/-- One entry, given what happens to a directory. -/
theorem copyEntry_content {copytree : Path → Path → Os β (List CopyError)} {w w' : World β}
    (ht : w.tree.LinkFree)
    (hclash : NoClash w.tree (Path.abspath sys.cwd src) (Path.abspath sys.cwd dst))
    (hdir : copytree src dst w = .ok [] w' →
      Over (w.tree.subtree (Path.abspath sys.cwd src)) (w.tree.subtree (Path.abspath sys.cwd dst))
        (w'.tree.subtree (Path.abspath sys.cwd dst)))
    (h : sys.copyEntry copytree src dst w = .ok [] w') :
    Over (w.tree.subtree (Path.abspath sys.cwd src)) (w.tree.subtree (Path.abspath sys.cwd dst))
      (w'.tree.subtree (Path.abspath sys.cwd dst)) := by
  have hbody := collectErrors_nil h
  rw [tree_bind, islink_eq_false ht] at hbody
  obtain ⟨_, w₁, hwhen, hbody⟩ := bind_eq_ok.mp hbody
  obtain ⟨-, rfl⟩ := pure_eq_ok.mp hwhen
  split at hbody
  · exact hdir hbody
  · obtain ⟨_, w₂, hcopy, hpure⟩ := bind_eq_ok.mp hbody
    obtain ⟨-, rfl⟩ := pure_eq_ok.mp hpure
    obtain ⟨c, hsrc, hnew⟩ := copy_content ht hcopy
    have hdst : w.tree.content (Path.abspath sys.cwd dst) ≠ some (.dir, none) := by
      have := hclash [] c
      rw [FileTree.subtree_nil, FileTree.subtree_nil] at this
      exact this hsrc
    rw [isdir_eq_content ht hdst, if_neg Bool.false_ne_true] at hnew
    intro rel
    unfold FileTree.subtree
    by_cases hrel : rel = []
    · rw [hrel, List.append_nil, List.append_nil, hsrc, hnew]
      rfl
    · rw [FileTree.content_below (by simp [hnew]) hrel,
        FileTree.content_below (by simp [hsrc]) hrel, FileTree.content_below hdst hrel]
      rfl

/-- The loop over the entries: each is copied to its own place, and the other places
keep what they have. -/
theorem copyEntries_content {step : String → Os β (List CopyError)} {names : List String} {S D : Loc}
    (hapart : Apart S D)
    (hstep : ∀ x ∈ names, ∀ w w' : World β, w.tree.LinkFree → NoClash w.tree (S ++ [x]) (D ++ [x]) →
      step x w = .ok [] w' →
        Over (w.tree.subtree (S ++ [x])) (w.tree.subtree (D ++ [x])) (w'.tree.subtree (D ++ [x])))
    (hconfined : ∀ x ∈ names, Moves (OnTree (Confined (D ++ [x]))) (step x)) (hnodup : names.Nodup)
    {w w' : World β} (ht : w.tree.LinkFree) (hclash : NoClash w.tree S D)
    (hdir : w.tree.content D = some (.dir, none)) (h : copyEntries step names w = .ok [] w') :
    w'.tree.content D = some (.dir, none) ∧
      (∀ x ∈ names, Over (w.tree.subtree (S ++ [x])) (w.tree.subtree (D ++ [x]))
        (w'.tree.subtree (D ++ [x]))) ∧
      ∀ x ∉ names, w'.tree.subtree (D ++ [x]) = w.tree.subtree (D ++ [x]) := by
  induction names generalizing w with
  | nil =>
    obtain ⟨-, rfl⟩ := pure_eq_ok.mp h
    exact ⟨hdir, fun x hx => absurd hx List.not_mem_nil, fun _ _ => rfl⟩
  | cons x names ih =>
    obtain ⟨errors, w₁, hx, hmore⟩ := bind_eq_ok.mp h
    obtain ⟨rfl, hnames⟩ := append_eq_nil_ok hmore
    obtain ⟨hstepx, hstep⟩ := List.forall_mem_cons.mp hstep
    obtain ⟨hconfinedx, hconfined⟩ := List.forall_mem_cons.mp hconfined
    obtain ⟨hnotin, hnodup⟩ := List.nodup_cons.mp hnodup
    have hover := hstepx w w₁ ht (hclash.below x) hx
    have hmoved : Confined (D ++ [x]) w.tree w₁.tree := hconfinedx.of_ok hx
    -- the other places, and the whole source, are apart from this one
    have hother : ∀ y, y ≠ x → w₁.tree.subtree (D ++ [y]) = w.tree.subtree (D ++ [y]) :=
      fun y hy => funext fun rel => hmoved.content_apart ht (Apart.of_ne hy _) rel
    have hsource : w₁.tree.subtree S = w.tree.subtree S := by
      have hapart' := hapart.append [] [x]
      rw [List.append_nil] at hapart'
      exact funext (hmoved.content_apart ht hapart')
    have hdir₁ : w₁.tree.content D = some (.dir, none) := by
      rw [← hdir]
      refine hmoved.content_of_ne_none ht (fun hpre => ?_) (by simp [hdir])
      have hlen := hpre.length_le
      rw [List.length_append, List.length_singleton] at hlen
      omega
    have hclash₁ : NoClash w₁.tree S D := by
      intro rel c hc
      rw [hsource] at hc
      cases rel with
      | nil =>
        have hno := hclash [] c hc
        rw [FileTree.subtree_nil] at hno
        exact absurd hdir hno
      | cons y rel =>
        rw [FileTree.subtree_cons]
        by_cases hy : y = x
        · subst hy
          rw [FileTree.subtree_cons] at hc
          rw [hover rel, hc]
          simp
        · rw [hother y hy, ← FileTree.subtree_cons]
          exact hclash (y :: rel) c hc
    obtain ⟨hdir', hin, hout⟩ := ih hstep hconfined hnodup (hmoved ht).1 hclash₁ hdir₁ hnames
    refine ⟨hdir', fun y hy => ?_, fun y hy => ?_⟩
    · by_cases hyx : y = x
      · subst hyx
        rw [hout y hnotin]
        exact hover
      · have hy' := hin y ((List.mem_cons.mp hy).resolve_left hyx)
        rw [hother y hyx] at hy'
        have hsub : w₁.tree.subtree (S ++ [y]) = w.tree.subtree (S ++ [y]) := by
          funext rel
          rw [← FileTree.subtree_cons, hsource, FileTree.subtree_cons]
        rwa [hsub] at hy'
    · obtain ⟨hyx, hy⟩ := not_or.mp (mt List.mem_cons.mpr hy)
      rw [hout y hy, hother y hyx]

/-- Where `copytree` collects no error, the source lies over what was there. -/
theorem copytree_content (n : ℕ) (hdown : Down dst) (hname : IsName (Path.basename dst))
    (hapart : Apart (Path.abspath sys.cwd src) (Path.abspath sys.cwd dst)) {w w' : World β}
    (ht : w.tree.LinkFree)
    (hclash : NoClash w.tree (Path.abspath sys.cwd src) (Path.abspath sys.cwd dst))
    (h : sys.copytree n src dst w = .ok [] w') :
    Over (w.tree.subtree (Path.abspath sys.cwd src)) (w.tree.subtree (Path.abspath sys.cwd dst))
      (w'.tree.subtree (Path.abspath sys.cwd dst)) := by
  induction n generalizing src dst w w' with
  | zero => exact absurd h throw_ne_ok
  | succ n ih =>
    obtain ⟨names, w₁, hlist, h⟩ := bind_eq_ok.mp h
    obtain ⟨_, w₂, hmake, h⟩ := bind_eq_ok.mp h
    obtain ⟨errors, w₃, hentries, h⟩ := bind_eq_ok.mp h
    obtain ⟨rfl, hstat⟩ := append_eq_nil_ok h
    have hnames := isName_of_listdir hlist
    obtain ⟨loc, a, hfind, rfl, htree₁⟩ := listdir_eq_ok hlist
    obtain ⟨rfl, hsrc⟩ := found_loc ht hfind
    rw [← htree₁] at ht hclash hsrc
    -- the destination is a directory now, and what it holds is what it held
    have hmoved : Confined (Path.abspath sys.cwd dst) w₁.tree w₂.tree :=
      (confined_makedirs true hdown (Or.inr (List.prefix_refl _))).of_ok hmake
    have hdir₂ := makedirs_dir ht hdown hname hmake
    have hbelow : ∀ rel, rel ≠ [] → w₂.tree.content (Path.abspath sys.cwd dst ++ rel)
        = w₁.tree.content (Path.abspath sys.cwd dst ++ rel) :=
      fun rel hrel => makedirs_below ht (fun l hl => hl.above hdown) hmake hrel
    have hsource : w₂.tree.subtree (Path.abspath sys.cwd src) = w₁.tree.subtree (Path.abspath sys.cwd src) :=
      funext (hmoved.content_apart ht hapart)
    have hclash₂ : NoClash w₂.tree (Path.abspath sys.cwd src) (Path.abspath sys.cwd dst) := by
      intro rel c hc
      rw [hsource] at hc
      cases rel with
      | nil =>
        rw [FileTree.subtree_nil, FileTree.content_of_lookup hsrc] at hc
        cases hc
      | cons x rel =>
        rw [FileTree.subtree, hbelow _ (List.cons_ne_nil _ _)]
        exact hclash _ c hc
    have hstep : ∀ x ∈ sys.listed (Path.abspath sys.cwd src) (w.tree.names (Path.abspath sys.cwd src)),
        ∀ v v' : World β, v.tree.LinkFree →
          NoClash v.tree (Path.abspath sys.cwd src ++ [x]) (Path.abspath sys.cwd dst ++ [x]) →
          sys.copyEntry (sys.copytree n) (Path.join src [x]) (Path.join dst [x]) v = .ok [] v' →
            Over (v.tree.subtree (Path.abspath sys.cwd src ++ [x]))
              (v.tree.subtree (Path.abspath sys.cwd dst ++ [x]))
              (v'.tree.subtree (Path.abspath sys.cwd dst ++ [x])) := by
      intro x hx v v' hv hclashv hentry
      have hname' := hnames x hx
      have hapart' := hapart.append [x] [x]
      rw [← abspath_join hname', ← abspath_join hname'] at hclashv hapart' ⊢
      refine copyEntry_content hv hclashv (fun htree => ?_) hentry
      refine ih (down_join hdown hname') ?_ hapart' hv hclashv htree
      rw [Path.basename, Path.getLastD_join_name]
      exact hname'
    have hconfined : ∀ x ∈ sys.listed (Path.abspath sys.cwd src) (w.tree.names (Path.abspath sys.cwd src)),
        Moves (OnTree (Confined (Path.abspath sys.cwd dst ++ [x])))
          (sys.copyEntry (sys.copytree n) (Path.join src [x]) (Path.join dst [x])) := by
      intro x hx
      have hname' := hnames x hx
      rw [← abspath_join hname']
      exact confined_copyEntry hname' (confined_copytree n (down_join hdown hname') (List.prefix_refl _))
        (List.prefix_refl _)
    obtain ⟨hdir₃, hin, hout⟩ := copyEntries_content hapart hstep hconfined
      ((sys.listed_perm _ _).nodup_iff.mpr (w.tree.nodup_names _)) (hmoved ht).1 hclash₂ hdir₂ hentries
    obtain ⟨_, w₄, hcopystat, hpure⟩ := bind_eq_ok.mp (collectErrors_nil hstat)
    obtain ⟨-, rfl⟩ := pure_eq_ok.mp hpure
    have hsame : ∀ l, w₄.tree.content l = w₃.tree.content l := (sameContent_copymode _ _).of_ok hcopystat
    rw [← htree₁]
    intro rel
    cases rel with
    | nil =>
      rw [FileTree.subtree_nil, hsame, hdir₃, FileTree.subtree_nil, FileTree.content_of_lookup hsrc]
      rfl
    | cons x rel =>
      have hold : ∀ rel, w₂.tree.subtree (Path.abspath sys.cwd dst ++ [x]) rel
          = w₁.tree.subtree (Path.abspath sys.cwd dst ++ [x]) rel := by
        intro rel
        unfold FileTree.subtree
        rw [List.append_assoc, hbelow _ (by simp)]
      have hupper : w₂.tree.subtree (Path.abspath sys.cwd src ++ [x]) rel
          = w₁.tree.subtree (Path.abspath sys.cwd src ++ [x]) rel := by
        rw [← FileTree.subtree_cons, hsource, FileTree.subtree_cons]
      have hnew : w₄.tree.subtree (Path.abspath sys.cwd dst ++ [x]) rel
          = w₃.tree.subtree (Path.abspath sys.cwd dst ++ [x]) rel := hsame _
      rw [FileTree.subtree_cons, FileTree.subtree_cons, FileTree.subtree_cons, hnew]
      by_cases hx : x ∈ sys.listed (Path.abspath sys.cwd src) (w.tree.names (Path.abspath sys.cwd src))
      · rw [hin x hx rel, hupper, hold]
      · -- the source has no such entry
        have hnone : w₁.tree.content (Path.abspath sys.cwd src ++ [x]) = none := by
          rw [FileTree.content_eq_none]
          by_contra hsome
          obtain ⟨m, hm⟩ := Option.ne_none_iff_exists'.mp hsome
          rw [htree₁] at hm
          exact hx ((sys.listed_perm _ _).mem_iff.mpr (FileTree.mem_names.mpr ⟨m, hm⟩))
        have hempty : w₁.tree.subtree (Path.abspath sys.cwd src ++ [x]) rel = none := by
          cases rel with
          | nil => rwa [FileTree.subtree_nil]
          | cons y rel => exact FileTree.content_below (by simp [hnone]) (List.cons_ne_nil _ _)
        rw [hout x hx, hold, hempty]
        rfl

end Kolla.SetConfigs.System
