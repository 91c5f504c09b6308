import Mathlib.Data.List.Induction
import Mathlib.Logic.Relation

/-!
# Runs of a partial step function

A system that moves by labelled actions is a function
`step : σ → α → Option σ`: `none` means that the action is not enabled.
`Run step s actions t` says that the actions, taken one after the other,
lead from `s` to `t`, and `Reachable step s t` forgets the actions.

`Reachable.invariant` is the induction of this module: a property that
holds at the start and survives every step holds in every reachable state.
`Reachable.simulated` is its form for two systems, where a step of one of
them is a step of the other or none.  `foldlM_total` is the same idea for a loop over a list whose body
may fail: an invariant of the prefix that the body can always re-establish
makes the whole loop succeed.
-/

namespace Kolla.Lib

variable {σ α β : Type}

/-- The actions lead from `s` to `t`. -/
def Run (step : σ → α → Option σ) (s : σ) (actions : List α) (t : σ) : Prop :=
  actions.foldlM step s = some t

/-- Some actions lead from `s` to `t`. -/
def Reachable (step : σ → α → Option σ) (s t : σ) : Prop :=
  ∃ actions, Run step s actions t

section Runs

variable {step : σ → α → Option σ}

@[simp] theorem run_nil {s t : σ} : Run step s [] t ↔ s = t := by
  simp [Run]

@[simp] theorem run_cons {s t : σ} {a : α} {actions : List α} :
    Run step s (a :: actions) t ↔ ∃ u, step s a = some u ∧ Run step u actions t := by
  simp [Run, Option.bind_eq_some_iff]

theorem run_append {s t : σ} {xs ys : List α} :
    Run step s (xs ++ ys) t ↔ ∃ u, Run step s xs u ∧ Run step u ys t := by
  simp [Run, Option.bind_eq_some_iff]

theorem Run.snoc {s t u : σ} {actions : List α} {a : α}
    (h : Run step s actions t) (ha : step t a = some u) :
    Run step s (actions ++ [a]) u :=
  run_append.mpr ⟨t, h, by simp [ha]⟩

theorem Reachable.tail {s t u : σ} {a : α} (h : Reachable step s t)
    (ha : step t a = some u) : Reachable step s u := by
  obtain ⟨actions, hrun⟩ := h
  exact ⟨actions ++ [a], hrun.snoc ha⟩

variable (step) in
/-- A run that can be evaluated, seen through a function of the state. -/
theorem exists_reachable {s : σ} (actions : List α) {f : σ → β} {b : β}
    (h : (actions.foldlM step s).map f = some b) : ∃ t, Reachable step s t ∧ f t = b := by
  obtain ⟨t, ht, hb⟩ := Option.map_eq_some_iff.mp h
  exact ⟨t, ⟨actions, ht⟩, hb⟩

/-- The induction rule.  The step may use that the state it starts from
is reachable, so an invariant proved earlier is at hand. -/
theorem Reachable.invariant {s t : σ} {P : σ → Prop} (h : Reachable step s t)
    (h0 : P s)
    (hstep : ∀ u a v, Reachable step s u → P u → step u a = some v → P v) :
    P t := by
  obtain ⟨actions, hrun⟩ := h
  induction actions using List.reverseRecOn generalizing t with
  | nil =>
    rw [run_nil] at hrun
    exact hrun ▸ h0
  | append_singleton actions a ih =>
    obtain ⟨u, hu, hlast⟩ := run_append.mp hrun
    obtain ⟨v, hv, hvt⟩ := run_cons.mp hlast
    rw [run_nil] at hvt
    subst hvt
    exact hstep u a v ⟨actions, hu⟩ (ih hu) hv

/-- What a system reaches is matched by what another one reaches, if the
relation survives every step, for which the other system takes one step or
none. -/
theorem Reachable.simulated {τ γ : Type} {step' : τ → γ → Option τ} {R : σ → τ → Prop} {s₀ s : σ}
    {t₀ : τ} (h : Reachable step s₀ s) (h0 : R s₀ t₀)
    (hstep : ∀ u a v t, R u t → Reachable step' t₀ t → step u a = some v →
      ∃ t', R v t' ∧ (t' = t ∨ ∃ b, step' t b = some t')) :
    ∃ t, Reachable step' t₀ t ∧ R s t := by
  refine h.invariant (P := fun s => ∃ t, Reachable step' t₀ t ∧ R s t)
    ⟨t₀, ⟨[], run_nil.mpr rfl⟩, h0⟩ ?_
  rintro u a v - ⟨t, ht, hut⟩ hv
  obtain ⟨t', hvt, rfl | ⟨b, hb⟩⟩ := hstep u a v t hut ht hv
  · exact ⟨t', ht, hvt⟩
  · exact ⟨t', ht.tail hb, hvt⟩

end Runs

/-- A loop over a list whose body may fail.  `P pre b` is the loop
invariant after the elements `pre`; when the body can always
re-establish it, the loop succeeds and the invariant holds of the whole
list. -/
theorem foldlM_total {f : β → α → Option β} {P : List α → β → Prop}
    {xs : List α} {b : β} (h0 : P [] b)
    (hstep : ∀ pre x suf b, xs = pre ++ x :: suf → P pre b →
      ∃ b', f b x = some b' ∧ P (pre ++ [x]) b') :
    ∃ b', xs.foldlM f b = some b' ∧ P xs b' := by
  have go : ∀ suf pre b, xs = pre ++ suf → P pre b →
      ∃ b', suf.foldlM f b = some b' ∧ P xs b' := by
    intro suf
    induction suf with
    | nil =>
      intro pre b hxs hP
      refine ⟨b, rfl, ?_⟩
      rwa [hxs, List.append_nil]
    | cons x suf ih =>
      intro pre b hxs hP
      obtain ⟨b₁, hb₁, hP₁⟩ := hstep pre x suf b hxs hP
      obtain ⟨b', hb', hP'⟩ := ih (pre ++ [x]) b₁ (by simp [hxs]) hP₁
      exact ⟨b', by simp [hb₁, hb'], hP'⟩
  exact go xs [] b rfl h0

/-- What survives each iteration of a loop that succeeds survives the
loop. -/
theorem foldlM_preserves {f : β → α → Option β} {P : β → Prop}
    {xs : List α} {b b' : β} (h : xs.foldlM f b = some b') (h0 : P b)
    (hstep : ∀ x ∈ xs, ∀ b b', f b x = some b' → P b → P b') : P b' := by
  induction xs generalizing b with
  | nil =>
    simp only [List.foldlM_nil, Option.pure_def, Option.some.injEq] at h
    exact h ▸ h0
  | cons x xs ih =>
    simp only [List.foldlM_cons, Option.bind_eq_bind, Option.bind_eq_some_iff] at h
    obtain ⟨b₁, hb₁, hrest⟩ := h
    exact ih hrest (hstep x (by simp) b b₁ hb₁ h0)
      (fun y hy => hstep y (by simp [hy]))

/-- In a loop that succeeds, the body succeeds on every element, from a state
with the invariant of the loop. -/
theorem foldlM_reaches {f : β → α → Option β} {P : β → Prop} {xs : List α} {b b' : β}
    (h : xs.foldlM f b = some b') (h0 : P b)
    (hstep : ∀ x ∈ xs, ∀ b b', f b x = some b' → P b → P b') {x : α} (hx : x ∈ xs) :
    ∃ b₁ b₂, P b₁ ∧ f b₁ x = some b₂ := by
  obtain ⟨pre, suf, rfl⟩ := List.append_of_mem hx
  simp only [List.foldlM_append, List.foldlM_cons, Option.bind_eq_bind,
    Option.bind_eq_some_iff] at h
  obtain ⟨b₁, hpre, b₂, hb₂, _⟩ := h
  exact ⟨b₁, b₂, foldlM_preserves hpre h0 (fun y hy => hstep y (by simp [hy])), hb₂⟩

/-- A loop whose body succeeds more often ends as before. -/
theorem foldlM_mono {f g : β → α → Option β} {xs : List α} {b b' : β}
    (hfg : ∀ x b b', f b x = some b' → g b x = some b') (h : xs.foldlM f b = some b') :
    xs.foldlM g b = some b' := by
  induction xs generalizing b with
  | nil => exact h
  | cons x xs ih =>
    simp only [List.foldlM_cons, Option.bind_eq_bind, Option.bind_eq_some_iff] at h ⊢
    obtain ⟨b₁, hb₁, hrest⟩ := h
    exact ⟨b₁, hfg x b b₁ hb₁, ih hrest⟩

end Kolla.Lib
