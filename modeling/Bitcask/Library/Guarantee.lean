import Mathlib.Tactic.Common

/-!
# Computations with state and exceptions

Running a composed computation (`bind_ok`, `bind_error`), and what computations
guarantee. A computation guarantees a relation `R` if the states before and after it are
related, whether it returns or throws. If `R` is a preorder, then a computation
guarantees it as soon as its parts do; there is a rule for each way of
composing computations.

That something is left alone is a guarantee. A computation keeps an invariant `I`
(`Keeps`) if it ends in a state of `I` when it starts in one, whether it returns or
throws; what it returns is then told by a postcondition, which the computations that
follow rely on. That it does return is a property of its own (`Returns`), and so is what it
throws (`Throws`).
-/

namespace Guarantee

universe u

variable {ε σ α β : Type u}

/-- The state a computation ends in. -/
def finalState : EStateM.Result ε σ α → σ
  | .ok _ s => s
  | .error _ s => s

@[simp]
theorem finalState_ok (a : α) (s : σ) : finalState (.ok a s : EStateM.Result ε σ α) = s := rfl

@[simp]
theorem finalState_error (e : ε) (s : σ) :
    finalState (.error e s : EStateM.Result ε σ α) = s := rfl

/-- What a computation returns, if it does. -/
def value? : EStateM.Result ε σ α → Option α
  | .ok a _ => some a
  | .error _ _ => none

theorem value?_eq_some {r : EStateM.Result ε σ α} {a : α} :
    value? r = some a ↔ ∃ s, r = .ok a s := by
  cases r <;> simp [value?]

/-- What a computation throws, if it does. -/
def exn? : EStateM.Result ε σ α → Option ε
  | .ok _ _ => none
  | .error e _ => some e

/-! ## Running -/

section Run

variable {x : EStateM ε σ α} {f : α → EStateM ε σ β} {g : ε → EStateM ε σ α} {s s' : σ} {a : α}
  {e : ε}

theorem bind_ok (h : x.run s = .ok a s') : (x >>= f).run s = (f a).run s' := by
  show EStateM.bind x f s = f a s'
  rw [EStateM.bind, show x s = .ok a s' from h]

theorem bind_error (h : x.run s = .error e s') : (x >>= f).run s = .error e s' := by
  show EStateM.bind x f s = .error e s'
  rw [EStateM.bind, show x s = .error e s' from h]

/-- What a computation that returns has done before it goes on. -/
theorem bind_eq_ok {b : β} (h : (x >>= f).run s = .ok b s') :
    ∃ a t, x.run s = .ok a t ∧ (f a).run t = .ok b s' := by
  cases hx : x.run s with
  | ok a t => exact ⟨a, t, rfl, (bind_ok hx).symm.trans h⟩
  | error e t => rw [bind_error hx] at h; cases h

theorem tryCatch_ok (h : x.run s = .ok a s') : (tryCatch x g).run s = .ok a s' := by
  show EStateM.tryCatch x g s = .ok a s'
  simp only [EStateM.tryCatch, show x s = .ok a s' from h]

theorem tryCatch_error (h : x.run s = .error e s') : (tryCatch x g).run s = (g e).run s' := by
  show EStateM.tryCatch x g s = g e s'
  simp only [EStateM.tryCatch, show x s = .error e s' from h]
  rfl

end Run

/-! ## Guarantees -/

/-- The states before and after a computation are related. -/
def Guarantees (R : σ → σ → Prop) (x : EStateM ε σ α) : Prop := ∀ s, R s (finalState (x.run s))

namespace Guarantees

variable {R : σ → σ → Prop} {x : EStateM ε σ α}

theorem pure [Std.Refl R] (a : α) : Guarantees R (Pure.pure a : EStateM ε σ α) :=
  fun s => Std.Refl.refl s

theorem throw [Std.Refl R] (e : ε) : Guarantees R (MonadExcept.throw e : EStateM ε σ α) :=
  fun s => Std.Refl.refl s

theorem get [Std.Refl R] : Guarantees R (MonadState.get : EStateM ε σ σ) :=
  fun s => Std.Refl.refl s

theorem modifyGet {f : σ → α × σ} (h : ∀ s, R s (f s).2) :
    Guarantees R (MonadState.modifyGet f : EStateM ε σ α) := h

theorem bind [IsTrans σ R] (hx : Guarantees R x) {f : α → EStateM ε σ β}
    (hf : ∀ a, Guarantees R (f a)) : Guarantees R (x >>= f) := by
  intro s
  have h := hx s
  cases hs : x.run s with
  | ok a s' =>
    rw [hs] at h
    rw [bind_ok hs]
    exact Trans.trans h (hf a s')
  | error e s' =>
    rw [hs] at h
    rwa [bind_error hs]

theorem map (hx : Guarantees R x) (f : α → β) : Guarantees R (f <$> x) := by
  intro s
  have h := hx s
  show R s (finalState (EStateM.map f x s))
  unfold EStateM.map
  cases hs : x s <;> rw [show x.run s = _ from hs] at h <;> exact h

theorem tryCatch [IsTrans σ R] (hx : Guarantees R x) {f : ε → EStateM ε σ α}
    (hf : ∀ e, Guarantees R (f e)) : Guarantees R (MonadExcept.tryCatch x f) := by
  intro s
  have h := hx s
  cases hs : x.run s with
  | ok a s' =>
    rw [hs] at h
    rwa [tryCatch_ok hs]
  | error e s' =>
    rw [hs] at h
    rw [tryCatch_error hs]
    exact Trans.trans h (hf e s')

theorem mono {R' : σ → σ → Prop} (h : ∀ s s', R s s' → R' s s') (hx : Guarantees R x) :
    Guarantees R' x := fun s => h _ _ (hx s)

end Guarantees

/-! ## Invariants -/

/-- A computation keeps an invariant, and what it returns satisfies `Q`. -/
def Keeps (I : σ → Prop) (x : EStateM ε σ α) (Q : α → Prop) : Prop :=
  ∀ s, I s → I (finalState (x.run s)) ∧ ∀ a s', x.run s = .ok a s' → Q a

namespace Keeps

variable {I : σ → Prop} {Q : α → Prop} {x : EStateM ε σ α}

/-- What is guaranteed can be used to keep an invariant. -/
theorem of_guarantees {R : σ → σ → Prop} (hx : Guarantees R x)
    (hI : ∀ s s', I s → R s s' → I s') (hQ : ∀ s a s', x.run s = .ok a s' → Q a) : Keeps I x Q :=
  fun s hs => ⟨hI s _ hs (hx s), fun a s' h => hQ s a s' h⟩

theorem pure {a : α} (h : Q a) : Keeps I (Pure.pure a : EStateM ε σ α) Q := by
  intro s hs
  refine ⟨hs, fun b s' hb => ?_⟩
  cases hb
  exact h

theorem throw (e : ε) : Keeps I (MonadExcept.throw e : EStateM ε σ α) Q :=
  fun s hs => ⟨hs, fun a s' h => by cases h⟩

theorem get : Keeps I (MonadState.get : EStateM ε σ σ) I := by
  intro s hs
  refine ⟨hs, fun a s' h => ?_⟩
  cases h
  exact hs

theorem modify {f : σ → σ} (h : ∀ s, I s → I (f s)) :
    Keeps I (modify f : EStateM ε σ PUnit) fun _ => True :=
  fun s hs => ⟨h s hs, fun _ _ _ => trivial⟩

theorem bind (hx : Keeps I x Q) {f : α → EStateM ε σ β} {Q' : β → Prop}
    (hf : ∀ a, Q a → Keeps I (f a) Q') : Keeps I (x >>= f) Q' := by
  intro s hs
  obtain ⟨hI, hQ⟩ := hx s hs
  cases hrun : x.run s with
  | ok a s' =>
    rw [hrun] at hI
    rw [bind_ok hrun]
    exact hf a (hQ a s' hrun) s' hI
  | error e s' =>
    rw [hrun] at hI
    rw [bind_error hrun]
    exact ⟨hI, fun b t h => by cases h⟩

theorem tryCatch (hx : Keeps I x Q) {f : ε → EStateM ε σ α} (hf : ∀ e, Keeps I (f e) Q) :
    Keeps I (MonadExcept.tryCatch x f) Q := by
  intro s hs
  obtain ⟨hI, hQ⟩ := hx s hs
  cases hrun : x.run s with
  | ok a s' =>
    rw [hrun] at hI
    rw [tryCatch_ok hrun]
    refine ⟨hI, fun b t h => ?_⟩
    cases h
    exact hQ a s' hrun
  | error e s' =>
    rw [hrun] at hI
    rw [tryCatch_error hrun]
    exact hf e s' hI

theorem mono {Q' : α → Prop} (hx : Keeps I x Q) (h : ∀ a, Q a → Q' a) : Keeps I x Q' :=
  fun s hs => ⟨(hx s hs).1, fun a s' hrun => h a ((hx s hs).2 a s' hrun)⟩

/-- Every pass of a loop over a list keeps the invariant. -/
theorem forIn {γ : Type u} {f : γ → PUnit → EStateM ε σ (ForInStep PUnit)} {l : List γ}
    (h : ∀ c ∈ l, Keeps I (f c ⟨⟩) fun _ => True) : Keeps I (ForIn.forIn l ⟨⟩ f) fun _ => True := by
  induction l with
  | nil => exact pure trivial
  | cons c l ih =>
    rw [List.forall_mem_cons] at h
    rw [List.forIn_cons]
    refine h.1.bind fun r _ => ?_
    cases r with
    | done => exact pure trivial
    | yield => exact ih h.2

end Keeps

/-! ## Computations that return -/

/-- Started in a state of `I`, a computation returns, in a state of `I` again, and what it
    returns satisfies `Q`. -/
def Returns (I : σ → Prop) (x : EStateM ε σ α) (Q : α → Prop) : Prop :=
  ∀ s, I s → ∃ a s', x.run s = .ok a s' ∧ I s' ∧ Q a

namespace Returns

variable {I : σ → Prop} {Q : α → Prop} {x : EStateM ε σ α}

theorem pure {a : α} (h : Q a) : Returns I (Pure.pure a : EStateM ε σ α) Q :=
  fun s hs => ⟨a, s, rfl, hs, h⟩

theorem get : Returns I (MonadState.get : EStateM ε σ σ) I := fun s hs => ⟨s, s, rfl, hs, hs⟩

theorem modify {f : σ → σ} (h : ∀ s, I s → I (f s)) :
    Returns I (modify f : EStateM ε σ PUnit) fun _ => True :=
  fun s hs => ⟨⟨⟩, f s, rfl, h s hs, trivial⟩

theorem bind (hx : Returns I x Q) {f : α → EStateM ε σ β} {Q' : β → Prop}
    (hf : ∀ a, Q a → Returns I (f a) Q') : Returns I (x >>= f) Q' := by
  intro s hs
  obtain ⟨a, t, hrun, ht, ha⟩ := hx s hs
  obtain ⟨b, u, hrun', hu, hb⟩ := hf a ha t ht
  exact ⟨b, u, (bind_ok hrun).trans hrun', hu, hb⟩

/-- A loop over a list returns if every pass of it does. -/
theorem forIn {γ : Type u} {f : γ → PUnit → EStateM ε σ (ForInStep PUnit)} {l : List γ}
    (h : ∀ c ∈ l, Returns I (f c ⟨⟩) fun _ => True) :
    Returns I (ForIn.forIn l ⟨⟩ f) fun _ => True := by
  induction l with
  | nil => exact pure trivial
  | cons c l ih =>
    rw [List.forall_mem_cons] at h
    rw [List.forIn_cons]
    refine h.1.bind fun r _ => ?_
    cases r with
    | done => exact pure trivial
    | yield => exact ih h.2

end Returns

/-! ## What is thrown -/

/-- What a computation throws satisfies `E`. -/
def Throws (E : ε → Prop) (x : EStateM ε σ α) : Prop := ∀ s e s', x.run s = .error e s' → E e

namespace Throws

variable {E : ε → Prop} {x : EStateM ε σ α}

theorem of_ok (h : ∀ s, ∃ a s', x.run s = .ok a s') : Throws E x := by
  intro s e s' hrun
  obtain ⟨a, t, hok⟩ := h s
  cases hok.symm.trans hrun

theorem pure {a : α} : Throws E (Pure.pure a : EStateM ε σ α) := of_ok fun s => ⟨a, s, rfl⟩

theorem get : Throws E (MonadState.get : EStateM ε σ σ) := of_ok fun s => ⟨s, s, rfl⟩

theorem set {s : σ} : Throws E (MonadStateOf.set s : EStateM ε σ PUnit) := of_ok fun _ => ⟨⟨⟩, s, rfl⟩

theorem modifyGet {f : σ → α × σ} : Throws E (MonadState.modifyGet f : EStateM ε σ α) :=
  of_ok fun s => ⟨(f s).1, (f s).2, rfl⟩

theorem throw {e : ε} (h : E e) : Throws E (MonadExcept.throw e : EStateM ε σ α) := by
  intro s e' s' hrun
  cases hrun
  exact h

theorem bind (hx : Throws E x) {f : α → EStateM ε σ β} (hf : ∀ a, Throws E (f a)) :
    Throws E (x >>= f) := by
  intro s e s' hrun
  cases hs : x.run s with
  | ok a t => exact hf a t e s' ((bind_ok hs).symm.trans hrun)
  | error e' t =>
    rw [bind_error hs] at hrun
    cases hrun
    exact hx _ _ _ hs

/-- What is thrown in a pass of a loop over a list. -/
theorem forIn {γ : Type u} {f : γ → PUnit → EStateM ε σ (ForInStep PUnit)} {l : List γ}
    (h : ∀ c ∈ l, Throws E (f c ⟨⟩)) : Throws E (ForIn.forIn l ⟨⟩ f) := by
  induction l with
  | nil => exact pure
  | cons c l ih =>
    rw [List.forall_mem_cons] at h
    rw [List.forIn_cons]
    refine h.1.bind fun r => ?_
    cases r with
    | done => exact pure
    | yield => exact ih h.2

end Throws

end Guarantee
