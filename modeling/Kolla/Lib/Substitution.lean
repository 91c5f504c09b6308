import Mathlib.Data.List.Infix

/-!
# Global substitution

`subst matchAt repl text` goes through `text` from left to right and puts `repl` in
the place of each match.  `matchAt` says how long the match is that a text begins
with.  A match is found where the one before it ends, so matches do not overlap, and
an empty match counts as none.

Two rules describe a substitution piece by piece: a piece that is a match is replaced
(`subst_match`), and a piece in which no match begins is kept (`subst_keep`).
-/

namespace Kolla.Lib

variable {α : Type} {matchAt : List α → Option ℕ} {repl pre rest : List α}

/-- The substitution after `skip` more elements of the last match. -/
def substFrom (matchAt : List α → Option ℕ) (repl : List α) : ℕ → List α → List α
  | _, [] => []
  | skip + 1, _ :: rest => substFrom matchAt repl skip rest
  | 0, c :: rest =>
    match matchAt (c :: rest) with
    | some (n + 1) => repl ++ substFrom matchAt repl n rest
    | _ => c :: substFrom matchAt repl 0 rest

/-- Each match is replaced. -/
def subst (matchAt : List α → Option ℕ) (repl text : List α) : List α :=
  substFrom matchAt repl 0 text

@[simp] theorem subst_nil (matchAt : List α → Option ℕ) (repl : List α) :
    subst matchAt repl [] = [] := rfl

theorem substFrom_skip (matchAt : List α → Option ℕ) (repl pre rest : List α) :
    substFrom matchAt repl pre.length (pre ++ rest) = subst matchAt repl rest := by
  induction pre with
  | nil => rfl
  | cons c pre ih => exact ih

/-- A match is replaced, and the substitution goes on after it. -/
theorem subst_match (hpre : pre ≠ []) (h : matchAt (pre ++ rest) = some pre.length) :
    subst matchAt repl (pre ++ rest) = repl ++ subst matchAt repl rest := by
  obtain ⟨c, pre, rfl⟩ := List.exists_cons_of_ne_nil hpre
  rw [List.cons_append, List.length_cons] at h
  rw [subst, List.cons_append, substFrom, h]
  dsimp only
  rw [substFrom_skip]

theorem subst_cons {c : α} (h : matchAt (c :: rest) = none) :
    subst matchAt repl (c :: rest) = c :: subst matchAt repl rest := by
  rw [subst, substFrom, h]
  rfl

/-- What no match begins in is kept. -/
theorem subst_keep (h : ∀ suf, suf ≠ [] → suf <:+ pre → matchAt (suf ++ rest) = none) :
    subst matchAt repl (pre ++ rest) = pre ++ subst matchAt repl rest := by
  induction pre with
  | nil => rfl
  | cons c pre ih =>
    have hhead := h (c :: pre) (List.cons_ne_nil _ _) (List.suffix_refl _)
    rw [List.cons_append] at hhead ⊢
    rw [subst_cons hhead, ih fun suf hne hsuf => h suf hne (hsuf.trans (List.suffix_cons c pre)),
      List.cons_append]

/-! ## Literal patterns -/

variable [DecidableEq α]

/-- The match of a pattern that stands for itself. -/
def literal (pattern text : List α) : Option ℕ :=
  if pattern <+: text then some pattern.length else none

theorem literal_eq_none {pattern text : List α} : literal pattern text = none ↔ ¬ pattern <+: text := by
  unfold literal
  split <;> simp_all

theorem literal_append (pattern rest : List α) :
    literal pattern (pattern ++ rest) = some pattern.length :=
  if_pos (List.prefix_append _ _)

/-- One element is replaced wherever it stands. -/
theorem subst_singleton (x : α) (repl text : List α) :
    subst (literal [x]) repl text = text.flatMap fun y => if y = x then repl else [y] := by
  induction text with
  | nil => rfl
  | cons y text ih =>
    rw [List.flatMap_cons, ← ih]
    split
    · rename_i hy
      subst hy
      exact subst_match (List.cons_ne_nil _ _) (literal_append [y] text)
    · rename_i hy
      refine subst_cons (literal_eq_none.mpr fun hpre => hy ?_)
      exact (List.cons_prefix_cons.mp hpre).1.symm

end Kolla.Lib
