import Mathlib.Order.Defs.Unbundled

/-!
# Programs with a state and exceptions

A Python function that reads and writes some state and may raise is an
`EStateM ε σ α`: the state at the point of the exception is kept, and a
handler goes on from it.

`Triple P m Q E` is the Hoare triple with two exits.  Started in a state
with `P`, the program returns in a state with `Q` or raises in a state with
`E`.  The rules follow the constructs: `pure`, `throw`, sequencing,
branching and handlers.  `bind_eq_ok` is the other direction, for a program
that is known to have returned.

`Moves R m` is a weaker statement about both exits: whatever the program
does, the states before and after it are related by the preorder `R`.
`Raises E m` is one about the exceptions alone: those that get out of the
program satisfy `E`.  `Refines m m'` compares two programs: wherever the one
returns, the other does the same.  `forget m` is `m` without its result: a program
that returns notes of what it does is another program if that is left when the notes
are forgotten.
-/

namespace Kolla.Lib

variable {ε σ α β : Type}

/-- The Hoare triple with two exits. -/
def Triple (P : σ → Prop) (m : EStateM ε σ α) (Q : α → σ → Prop) (E : ε → σ → Prop) : Prop :=
  ∀ s, P s →
    match m s with
    | .ok a s' => Q a s'
    | .error e s' => E e s'

namespace Triple

variable {P R : σ → Prop} {Q Q' : α → σ → Prop} {E E' : ε → σ → Prop}

theorem pure {a : α} (h : ∀ s, P s → Q a s) : Triple P (Pure.pure a : EStateM ε σ α) Q E :=
  fun s hs => h s hs

theorem throw {e : ε} (h : ∀ s, P s → E e s) : Triple P (throw e : EStateM ε σ α) Q E :=
  fun s hs => h s hs

theorem get {Q : σ → σ → Prop} (h : ∀ s, P s → Q s s) :
    Triple P (MonadState.get : EStateM ε σ σ) Q E :=
  fun s hs => h s hs

theorem modify {f : σ → σ} {Q : Unit → σ → Prop} (h : ∀ s, P s → Q () (f s)) :
    Triple P (modify f : EStateM ε σ Unit) Q E :=
  fun s hs => h s hs

theorem bind {m : EStateM ε σ α} {f : α → EStateM ε σ β} {Q' : β → σ → Prop}
    (hm : Triple P m Q E) (hf : ∀ a, Triple (Q a) (f a) Q' E) :
    Triple P (m >>= f) Q' E := by
  intro s hs
  have h := hm s hs
  change match EStateM.bind m f s with
    | .ok a s' => Q' a s'
    | .error e s' => E e s'
  unfold EStateM.bind
  cases hms : m s with
  | ok a s' =>
    rw [hms] at h
    exact hf a s' h
  | error e s' =>
    rw [hms] at h
    exact h

theorem tryCatch {m : EStateM ε σ α} {f : ε → EStateM ε σ α}
    (hm : Triple P m Q E') (hf : ∀ e, Triple (E' e) (f e) Q E) :
    Triple P (tryCatch m f) Q E := by
  intro s hs
  have h := hm s hs
  change match EStateM.tryCatch m f s with
    | .ok a s' => Q a s'
    | .error e s' => E e s'
  unfold EStateM.tryCatch
  cases hms : m s with
  | ok a s' =>
    rw [hms] at h
    exact h
  | error e s' =>
    rw [hms] at h
    exact hf e s' h

theorem ite {c : Prop} [Decidable c] {m m' : EStateM ε σ α}
    (hpos : c → Triple P m Q E) (hneg : ¬ c → Triple P m' Q E) :
    Triple P (if c then m else m') Q E := by
  split
  · exact hpos ‹c›
  · exact hneg ‹¬ c›

end Triple

/-- A sequence that returned: both parts returned. -/
theorem bind_eq_ok {m : EStateM ε σ α} {f : α → EStateM ε σ β} {s s'' : σ} {b : β} :
    (m >>= f) s = .ok b s'' ↔ ∃ a s', m s = .ok a s' ∧ f a s' = .ok b s'' := by
  change EStateM.bind m f s = .ok b s'' ↔ _
  unfold EStateM.bind
  cases hms : m s with
  | ok a s' =>
    constructor
    · exact fun h => ⟨a, s', rfl, h⟩
    · rintro ⟨a', s₁, he, h⟩
      cases he
      exact h
  | error e s' => simp

/-- A loop that returned: the first iteration and the others did. -/
theorem forM_cons_eq_ok {x : β} {xs : List β} {f : β → EStateM ε σ PUnit} {s s'' : σ} :
    (x :: xs).forM f s = .ok ⟨⟩ s'' ↔ ∃ s', f x s = .ok ⟨⟩ s' ∧ xs.forM f s' = .ok ⟨⟩ s'' := by
  change (f x >>= fun _ => xs.forM f) s = _ ↔ _
  rw [bind_eq_ok]
  exact ⟨fun ⟨_, s', h⟩ => ⟨s', h⟩, fun ⟨s', h⟩ => ⟨⟨⟩, s', h⟩⟩

@[simp] theorem pure_eq_ok {s s' : σ} {a b : α} :
    (pure a : EStateM ε σ α) s = .ok b s' ↔ a = b ∧ s = s' := by
  change EStateM.Result.ok a s = .ok b s' ↔ _
  simp

@[simp] theorem throw_ne_ok {s s' : σ} {e : ε} {b : α} :
    (throw e : EStateM ε σ α) s ≠ .ok b s' := by
  change EStateM.Result.error e s ≠ .ok b s'
  simp

/-- A sequence from a state where the first part returns. -/
theorem bind_of_ok {m : EStateM ε σ α} {f : α → EStateM ε σ β} {s s' : σ} {a : α}
    (h : m s = .ok a s') : (m >>= f) s = f a s' := by
  change EStateM.bind m f s = f a s'
  unfold EStateM.bind
  rw [h]

/-- A sequence from a state where the first part raises. -/
theorem bind_of_error {m : EStateM ε σ α} {f : α → EStateM ε σ β} {s s' : σ} {e : ε}
    (h : m s = .error e s') : (m >>= f) s = .error e s' := by
  change EStateM.bind m f s = .error e s'
  unfold EStateM.bind
  rw [h]

/-- A loop that passes over elements until one raises. -/
theorem forM_of_error {xs : List β} {f : β → EStateM ε σ PUnit} {p : β → Bool} {x : β} {s s' : σ}
    {e : ε} (hfind : xs.find? p = some x) (hpass : ∀ y, p y = false → f y s = .ok ⟨⟩ s)
    (hraise : f x s = .error e s') : xs.forM f s = .error e s' := by
  induction xs with
  | nil => cases hfind
  | cons y xs ih =>
    change (f y >>= fun _ => xs.forM f) s = _
    cases hy : p y with
    | true =>
      rw [List.find?_cons, hy, Option.some.injEq] at hfind
      rw [hfind]
      exact bind_of_error hraise
    | false =>
      rw [List.find?_cons, hy] at hfind
      rw [bind_of_ok (hpass y hy)]
      exact ih hfind

theorem tryCatch_of_ok {m : EStateM ε σ α} {f : ε → EStateM ε σ α} {s s' : σ} {a : α}
    (h : m s = .ok a s') : (tryCatch m f) s = .ok a s' := by
  change EStateM.tryCatch m f s = .ok a s'
  unfold EStateM.tryCatch
  rw [h]

theorem tryCatch_of_error {m : EStateM ε σ α} {f : ε → EStateM ε σ α} {s s' : σ} {e : ε}
    (h : m s = .error e s') : (tryCatch m f) s = f e s' := by
  change EStateM.tryCatch m f s = f e s'
  unfold EStateM.tryCatch
  rw [h]
  rfl

/-- A handler that returned: the program did, or it raised and what handles
the exception did. -/
theorem tryCatch_eq_ok {m : EStateM ε σ α} {f : ε → EStateM ε σ α} {s s' : σ} {a : α} :
    (tryCatch m f) s = .ok a s' ↔
      m s = .ok a s' ∨ ∃ e s₁, m s = .error e s₁ ∧ f e s₁ = .ok a s' := by
  cases hms : m s with
  | ok b s₁ =>
    rw [tryCatch_of_ok hms]
    simp
  | error e s₁ =>
    rw [tryCatch_of_error hms]
    constructor
    · exact fun h => Or.inr ⟨e, s₁, rfl, h⟩
    · rintro (h | ⟨e', s₂, he, h⟩)
      · cases h
      · cases he
        exact h

/-- The same for programs without a state. -/
theorem except_bind_eq_ok {x : Except ε α} {f : α → Except ε β} {b : β} :
    (x >>= f) = .ok b ↔ ∃ a, x = .ok a ∧ f a = .ok b := by
  cases x with
  | error e => simp [bind, Except.bind]
  | ok a => simp [bind, Except.bind]

/-- Whether the program returned. -/
def returned : EStateM.Result ε σ α → Bool
  | .ok _ _ => true
  | .error _ _ => false

theorem exists_of_returned {r : EStateM.Result ε σ α} (h : returned r = true) :
    ∃ a s, r = .ok a s := by
  cases r with
  | ok a s => exact ⟨a, s, rfl⟩
  | error e s => cases h

/-! ## What a program does to the state on every exit -/

/-- The state at the exit. -/
def exitState : EStateM.Result ε σ α → σ
  | .ok _ s => s
  | .error _ s => s

/-- What the program returned, if it did. -/
def answer : EStateM.Result ε σ α → Option α
  | .ok a _ => some a
  | .error _ _ => none

theorem eq_ok_of_answer {r : EStateM.Result ε σ α} {a : α} (h : answer r = some a) :
    r = .ok a (exitState r) := by
  cases r with
  | ok a' s =>
    cases h
    rfl
  | error e s => cases h

/-- The exception that got out, if one did. -/
def raised : EStateM.Result ε σ α → Option ε
  | .ok _ _ => none
  | .error e _ => some e

theorem eq_error_of_raised {r : EStateM.Result ε σ α} {e : ε} (h : raised r = some e) :
    r = .error e (exitState r) := by
  cases r with
  | ok a s => cases h
  | error e' s =>
    cases h
    rfl

/-- The states before and after are related. -/
def Moves (R : σ → σ → Prop) (m : EStateM ε σ α) : Prop :=
  ∀ s, R s (exitState (m s))

namespace Moves

variable {R : σ → σ → Prop}

theorem of_ok {m : EStateM ε σ α} (hm : Moves R m) {s s' : σ} {a : α} (h : m s = .ok a s') :
    R s s' := by
  have hs := hm s
  rwa [h] at hs

theorem of_ok_at {m : EStateM ε σ α} {s s' : σ} {a : α} (hm : R s (exitState (m s)))
    (h : m s = .ok a s') : R s s' := by
  rwa [h] at hm

variable [IsPreorder σ R]

theorem pure (a : α) : Moves R (Pure.pure a : EStateM ε σ α) :=
  fun s => refl_of R s

theorem throw (e : ε) : Moves R (throw e : EStateM ε σ α) :=
  fun s => refl_of R s

theorem bind {m : EStateM ε σ α} {f : α → EStateM ε σ β} (hm : Moves R m)
    (hf : ∀ a, Moves R (f a)) : Moves R (m >>= f) := by
  intro s
  have h := hm s
  cases hms : m s with
  | ok a s' =>
    rw [hms] at h
    rw [bind_of_ok hms]
    exact trans_of R h (hf a s')
  | error e s' =>
    rw [hms] at h
    rw [bind_of_error hms]
    exact h

/-- A sequence from one state, where the second part may use what is known of
the first. -/
theorem bind_at {m : EStateM ε σ α} {f : α → EStateM ε σ β} {s : σ} (hm : R s (exitState (m s)))
    (hf : ∀ a s', m s = .ok a s' → R s' (exitState (f a s'))) :
    R s (exitState ((m >>= f) s)) := by
  cases hms : m s with
  | ok a s' =>
    rw [hms] at hm
    rw [bind_of_ok hms]
    exact trans_of R hm (hf a s' hms)
  | error e s' =>
    rw [hms] at hm
    rw [bind_of_error hms]
    exact hm

/-- A handler from one state. -/
theorem tryCatch_at {m : EStateM ε σ α} {f : ε → EStateM ε σ α} {s : σ}
    (hm : R s (exitState (m s))) (hf : ∀ e, Moves R (f e)) :
    R s (exitState (tryCatch m f s)) := by
  cases hms : m s with
  | ok a s' =>
    rw [hms] at hm
    rw [tryCatch_of_ok hms]
    exact hm
  | error e s' =>
    rw [hms] at hm
    rw [tryCatch_of_error hms]
    exact trans_of R hm (hf e s')

theorem tryCatch {m : EStateM ε σ α} {f : ε → EStateM ε σ α} (hm : Moves R m)
    (hf : ∀ e, Moves R (f e)) : Moves R (tryCatch m f) := by
  intro s
  have h := hm s
  cases hms : m s with
  | ok a s' =>
    rw [hms] at h
    rw [tryCatch_of_ok hms]
    exact h
  | error e s' =>
    rw [hms] at h
    rw [tryCatch_of_error hms]
    exact trans_of R h (hf e s')

omit [IsPreorder σ R] in
theorem ite {c : Prop} [Decidable c] {m m' : EStateM ε σ α}
    (hpos : c → Moves R m) (hneg : ¬ c → Moves R m') : Moves R (if c then m else m') := by
  split
  · exact hpos ‹c›
  · exact hneg ‹¬ c›

theorem forM {xs : List β} {f : β → EStateM ε σ PUnit} (hf : ∀ x ∈ xs, Moves R (f x)) :
    Moves R (forM xs f) := by
  induction xs with
  | nil =>
    rw [List.forM_nil]
    exact Moves.pure _
  | cons x xs ih =>
    rw [List.forM_cons]
    exact bind (hf x (by simp)) (fun _ => ih fun y hy => hf y (by simp [hy]))

/-- A loop from one state, where an iteration may use what the ones before it
have done. -/
theorem forM_at {xs : List β} {f : β → EStateM ε σ PUnit} {s₀ s : σ} (hs : R s₀ s)
    (hf : ∀ x ∈ xs, ∀ s, R s₀ s → R s (exitState (f x s))) : R s (exitState (xs.forM f s)) := by
  induction xs generalizing s with
  | nil => exact refl_of R s
  | cons x xs ih =>
    have hx := hf x List.mem_cons_self s hs
    refine bind_at hx fun _ s' hret => ih (trans_of R hs (of_ok_at hx hret)) ?_
    exact fun y hy => hf y (List.mem_cons_of_mem _ hy)

/-- A loop from one state, where an iteration may use what ran before it. -/
theorem forM_split {xs : List β} {f : β → EStateM ε σ PUnit} {s : σ}
    (hf : ∀ done x rest s', xs = done ++ x :: rest → done.forM f s = .ok ⟨⟩ s' →
      R s' (exitState (f x s'))) : R s (exitState (xs.forM f s)) := by
  induction xs generalizing s with
  | nil => exact refl_of R s
  | cons x xs ih =>
    refine bind_at (hf [] x xs s rfl rfl) fun _ s₁ hx => ih fun done y rest s' hxs hdone => ?_
    exact hf (x :: done) y rest s' (by rw [hxs, List.cons_append])
      (forM_cons_eq_ok.mpr ⟨s₁, hx, hdone⟩)

theorem mapM {γ : Type} {xs : List β} {f : β → EStateM ε σ γ} (hf : ∀ x ∈ xs, Moves R (f x)) :
    Moves R (xs.mapM f) := by
  induction xs with
  | nil =>
    rw [List.mapM_nil]
    exact pure _
  | cons x xs ih =>
    obtain ⟨hx, hxs⟩ := List.forall_mem_cons.mp hf
    rw [List.mapM_cons]
    exact bind hx fun _ => bind (ih hxs) fun _ => pure _

theorem allM {xs : List β} {f : β → EStateM ε σ Bool} (hf : ∀ x ∈ xs, Moves R (f x)) :
    Moves R (xs.allM f) := by
  induction xs with
  | nil =>
    rw [List.allM_nil]
    exact Moves.pure _
  | cons x xs ih =>
    rw [List.allM_cons]
    refine bind (hf x (by simp)) (fun b => ?_)
    cases b with
    | true => exact ih fun y hy => hf y (by simp [hy])
    | false => exact Moves.pure _

theorem foldlM {xs : List β} {f : α → β → EStateM ε σ α} (hf : ∀ a, ∀ x ∈ xs, Moves R (f a x))
    (a : α) : Moves R (xs.foldlM f a) := by
  induction xs generalizing a with
  | nil =>
    rw [List.foldlM_nil]
    exact Moves.pure _
  | cons x xs ih =>
    rw [List.foldlM_cons]
    exact bind (hf a x (by simp)) fun b => ih (fun b y hy => hf b y (by simp [hy])) b

end Moves

/-! ## What gets out of a program -/

/-- The exceptions that the program raises. -/
def Raises (E : ε → Prop) (m : EStateM ε σ α) : Prop :=
  ∀ s e s', m s = .error e s' → E e

namespace Raises

variable {E E' : ε → Prop}

theorem pure (a : α) : Raises E (Pure.pure a : EStateM ε σ α) := by
  intro s e s' h
  cases h

theorem throw {e : ε} (he : E e) : Raises E (throw e : EStateM ε σ α) := by
  intro s e' s' h
  cases h
  exact he

theorem bind {m : EStateM ε σ α} {f : α → EStateM ε σ β} (hm : Raises E m)
    (hf : ∀ a, Raises E (f a)) : Raises E (m >>= f) := by
  intro s e s' h
  cases hms : m s with
  | ok a s₁ =>
    rw [bind_of_ok hms] at h
    exact hf a s₁ e s' h
  | error e₁ s₁ =>
    rw [bind_of_error hms] at h
    cases h
    exact hm s _ _ hms

/-- The exceptions of the handler get out, and no others. -/
theorem tryCatch {m : EStateM ε σ α} {f : ε → EStateM ε σ α} (hm : Raises E' m)
    (hf : ∀ e, E' e → Raises E (f e)) : Raises E (tryCatch m f) := by
  intro s e s' h
  cases hms : m s with
  | ok a s₁ =>
    rw [tryCatch_of_ok hms] at h
    cases h
  | error e₁ s₁ =>
    rw [tryCatch_of_error hms] at h
    exact hf e₁ (hm s e₁ s₁ hms) s₁ e s' h

theorem ite {c : Prop} [Decidable c] {m m' : EStateM ε σ α}
    (hpos : c → Raises E m) (hneg : ¬ c → Raises E m') : Raises E (if c then m else m') := by
  split
  · exact hpos ‹c›
  · exact hneg ‹¬ c›

theorem forM {xs : List β} {f : β → EStateM ε σ PUnit} (hf : ∀ x ∈ xs, Raises E (f x)) :
    Raises E (forM xs f) := by
  induction xs with
  | nil =>
    rw [List.forM_nil]
    exact pure _
  | cons x xs ih =>
    rw [List.forM_cons]
    exact bind (hf x (by simp)) (fun _ => ih fun y hy => hf y (by simp [hy]))

theorem foldlM {xs : List β} {f : α → β → EStateM ε σ α} (hf : ∀ a, ∀ x ∈ xs, Raises E (f a x))
    (a : α) : Raises E (xs.foldlM f a) := by
  induction xs generalizing a with
  | nil =>
    rw [List.foldlM_nil]
    exact pure _
  | cons x xs ih =>
    rw [List.foldlM_cons]
    exact bind (hf a x (by simp)) (fun b => ih (fun b y hy => hf b y (by simp [hy])) b)

theorem allM {xs : List β} {f : β → EStateM ε σ Bool} (hf : ∀ x ∈ xs, Raises E (f x)) :
    Raises E (xs.allM f) := by
  induction xs with
  | nil =>
    rw [List.allM_nil]
    exact pure _
  | cons x xs ih =>
    rw [List.allM_cons]
    refine bind (hf x (by simp)) (fun b => ?_)
    cases b with
    | true => exact ih fun y hy => hf y (by simp [hy])
    | false => exact pure _

end Raises

/-! ## Programs that return more often -/

/-- Wherever `m` returns, `m'` returns the same in the same state. -/
def Refines (m m' : EStateM ε σ α) : Prop :=
  ∀ s a s', m s = .ok a s' → m' s = .ok a s'

namespace Refines

theorem refl (m : EStateM ε σ α) : Refines m m := fun _ _ _ h => h

theorem of_throw {e : ε} {m : EStateM ε σ α} : Refines (throw e) m :=
  fun _ _ _ h => absurd h throw_ne_ok

theorem bind {m m' : EStateM ε σ α} {f f' : α → EStateM ε σ β} (hm : Refines m m')
    (hf : ∀ a, Refines (f a) (f' a)) : Refines (m >>= f) (m' >>= f') := by
  intro s b s'' h
  obtain ⟨a, s', hms, hfs⟩ := bind_eq_ok.mp h
  exact bind_eq_ok.mpr ⟨a, s', hm s a s' hms, hf a s' b s'' hfs⟩

theorem ite {c : Prop} [Decidable c] {m₁ m₁' m₂ m₂' : EStateM ε σ α}
    (hpos : c → Refines m₁ m₁') (hneg : ¬ c → Refines m₂ m₂') :
    Refines (if c then m₁ else m₂) (if c then m₁' else m₂') := by
  split
  · exact hpos ‹c›
  · exact hneg ‹¬ c›

theorem forM {xs : List β} {f f' : β → EStateM ε σ PUnit} (hf : ∀ x ∈ xs, Refines (f x) (f' x)) :
    Refines (xs.forM f) (xs.forM f') := by
  induction xs with
  | nil => exact refl _
  | cons x xs ih =>
    intro s _ s'' h
    obtain ⟨s', hx, hxs⟩ := forM_cons_eq_ok.mp h
    exact forM_cons_eq_ok.mpr ⟨s', hf x List.mem_cons_self _ _ _ hx,
      ih (fun y hy => hf y (List.mem_cons_of_mem _ hy)) _ _ _ hxs⟩

end Refines

/-! ## Programs that return notes -/

/-- The program without its result. -/
def forget (m : EStateM ε σ α) : EStateM ε σ PUnit := m >>= fun _ => pure ⟨⟩

theorem forget_pure (a : α) : forget (pure a : EStateM ε σ α) = pure ⟨⟩ := rfl

theorem forget_throw (e : ε) : forget (throw e : EStateM ε σ α) = throw e := rfl

theorem forget_bind (m : EStateM ε σ α) (f : α → EStateM ε σ β) :
    forget (m >>= f) = m >>= fun a => forget (f a) :=
  bind_assoc m f _

theorem forget_ite {c : Prop} [Decidable c] (m m' : EStateM ε σ α) :
    forget (if c then m else m') = if c then forget m else forget m' := by
  split <;> rfl

theorem forget_foldlM {xs : List β} {f : α → β → EStateM ε σ α} {g : β → EStateM ε σ PUnit}
    (hf : ∀ a x, forget (f a x) = g x) (a : α) : forget (xs.foldlM f a) = xs.forM g := by
  induction xs generalizing a with
  | nil => rfl
  | cons x xs ih =>
    rw [List.foldlM_cons, forget_bind]
    change (f a x >>= fun b => forget (xs.foldlM f b)) = (g x >>= fun _ => xs.forM g)
    rw [← hf a x, forget, bind_assoc]
    simp only [ih, pure_bind]

/-- Where the program without its result returns, the program does. -/
theorem exists_of_forget {m : EStateM ε σ α} {s s' : σ} (h : forget m s = .ok ⟨⟩ s') :
    ∃ a, m s = .ok a s' := by
  obtain ⟨a, s₁, hm, hpure⟩ := bind_eq_ok.mp h
  obtain ⟨-, rfl⟩ := pure_eq_ok.mp hpure
  exact ⟨a, hm⟩

/-- What every iteration keeps holds after the loop. -/
theorem foldlM_keeps {P : α → σ → Prop} {xs : List β} {f : α → β → EStateM ε σ α}
    (hf : ∀ x ∈ xs, ∀ a s b s', P a s → f a x s = .ok b s' → P b s') {a b : α} {s s' : σ}
    (hP : P a s) (h : xs.foldlM f a s = .ok b s') : P b s' := by
  induction xs generalizing a s with
  | nil =>
    obtain ⟨rfl, rfl⟩ := pure_eq_ok.mp h
    exact hP
  | cons x xs ih =>
    rw [List.foldlM_cons] at h
    obtain ⟨a', s₁, hx, hxs⟩ := bind_eq_ok.mp h
    exact ih (fun y hy => hf y (List.mem_cons_of_mem x hy))
      (hf x List.mem_cons_self a s a' s₁ hP hx) hxs

end Kolla.Lib
