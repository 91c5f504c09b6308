import Mathlib.Data.Nat.Init
import Mathlib.Tactic.Push
import Kolla.Lib.Transition

/-!
# Work that runs out

Some actions of a system are *work*.  A potential is a number that work uses
up and that nothing adds to (`Spends`).  Then the potential of the first
state bounds the work of a run (`Spends.run`), and in a run without end the
work ends (`Forever.rests`).

`Reachable.completes` is the rule for the other direction: where some action
always leads closer to a goal, the goal can be reached, and the rank of the
state bounds the way.
-/

namespace Kolla.Lib

variable {σ α : Type} {step : σ → α → Option σ}

/-- Among the states with the invariant, work uses up the potential, and
nothing adds to it. -/
structure Spends (step : σ → α → Option σ) (inv : σ → Prop) (work : α → Bool) (φ : σ → ℕ) :
    Prop where
  preserved : ∀ s a t, inv s → step s a = some t → inv t
  works : ∀ s a t, inv s → step s a = some t → work a = true → φ t < φ s
  rests : ∀ s a t, inv s → step s a = some t → work a = false → φ t ≤ φ s

section Spending

variable {inv : σ → Prop} {work : α → Bool} {φ : σ → ℕ}

theorem Spends.step_le (h : Spends step inv work φ) {s t : σ} {a : α} (hs : inv s)
    (ha : step s a = some t) : φ t + (if work a then 1 else 0) ≤ φ s := by
  cases hw : work a with
  | false => exact h.rests s a t hs ha hw
  | true => exact h.works s a t hs ha hw

/-- The work of a run is paid from the potential. -/
theorem Spends.run (h : Spends step inv work φ) {s t : σ} {actions : List α} (hs : inv s)
    (hrun : Run step s actions t) : actions.countP work + φ t ≤ φ s := by
  induction actions generalizing s with
  | nil =>
    rw [run_nil.mp hrun]
    simp
  | cons a actions ih =>
    obtain ⟨u, ha, hrest⟩ := run_cons.mp hrun
    have hu := ih (h.preserved s a u hs ha) hrest
    have hle := h.step_le hs ha
    rw [List.countP_cons]
    omega

/-- A run without end. -/
def Forever (step : σ → α → Option σ) (s : ℕ → σ) (a : ℕ → α) : Prop :=
  ∀ n, step (s n) (a n) = some (s (n + 1))

theorem Forever.invariant {s : ℕ → σ} {a : ℕ → α} (hrun : Forever step s a) {P : σ → Prop}
    (h0 : P (s 0)) (hstep : ∀ u b v, P u → step u b = some v → P v) (n : ℕ) : P (s n) := by
  induction n with
  | zero => exact h0
  | succ n ih => exact hstep _ _ _ ih (hrun n)

/-- A run without end comes to a point from which it does no work. -/
theorem Forever.rests {s : ℕ → σ} {a : ℕ → α} (hrun : Forever step s a)
    (h : Spends step inv work φ) (h0 : inv (s 0)) : ∃ N, ∀ n, N ≤ n → work (a n) = false := by
  have hinv := hrun.invariant h0 h.preserved
  have hdown : ∀ m n, m ≤ n → φ (s n) ≤ φ (s m) := by
    intro m n hmn
    induction n, hmn using Nat.le_induction with
    | base => exact Nat.le_refl _
    | succ n _ ih =>
      have := h.step_le (hinv n) (hrun n)
      omega
  -- the induction is on the potential that is left
  have hkey : ∀ k m, φ (s m) ≤ k → ∃ N, ∀ n, N ≤ n → work (a n) = false := by
    intro k
    induction k with
    | zero =>
      intro m hm
      refine ⟨m, fun n hn => ?_⟩
      by_contra hw
      have := h.works _ _ _ (hinv n) (hrun n) (by simpa using hw)
      have := hdown m n hn
      omega
    | succ k ih =>
      intro m hm
      by_cases hall : ∀ n, m ≤ n → work (a n) = false
      · exact ⟨m, hall⟩
      · push Not at hall
        obtain ⟨n, hn, hw⟩ := hall
        have := h.works _ _ _ (hinv n) (hrun n) (by simpa using hw)
        have := hdown m n hn
        exact ih (n + 1) (by omega)
  exact hkey _ 0 (Nat.le_refl _)

end Spending

/-- Nothing goes down for ever. -/
theorem not_decreasing {f : ℕ → ℕ} {N : ℕ} (h : ∀ n, N ≤ n → f (n + 1) < f n) : False := by
  have hdown : ∀ k, f (N + k) + k ≤ f N := by
    intro k
    induction k with
    | zero => exact Nat.le_refl _
    | succ k ih =>
      have := h (N + k) (by omega)
      change f (N + k + 1) + (k + 1) ≤ f N
      omega
  have := hdown (f N + 1)
  omega

/-- Where some action always leads closer to the goal, the goal can be
reached. -/
theorem Reachable.completes (inv goal : σ → Prop) (rank : σ → ℕ)
    (hstep : ∀ s, inv s → ¬ goal s → ∃ a t, step s a = some t ∧ inv t ∧ rank t < rank s)
    {s : σ} (hs : inv s) :
    ∃ actions t, Run step s actions t ∧ goal t ∧ actions.length ≤ rank s := by
  induction hn : rank s using Nat.strong_induction_on generalizing s with
  | _ n ih =>
    by_cases hgoal : goal s
    · exact ⟨[], s, run_nil.mpr rfl, hgoal, Nat.zero_le _⟩
    · obtain ⟨a, u, ha, hu, hlt⟩ := hstep s hs hgoal
      obtain ⟨actions, t, hrun, ht, hle⟩ := ih (rank u) (hn ▸ hlt) hu rfl
      refine ⟨a :: actions, t, run_cons.mpr ⟨u, ha, hrun⟩, ht, ?_⟩
      rw [List.length_cons]
      omega

end Kolla.Lib
