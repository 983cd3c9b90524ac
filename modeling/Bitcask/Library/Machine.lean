import Mathlib.Tactic.Common

/-!
# Machines

A machine takes inputs one after the other, each changing its state and giving
some outputs. What every step preserves, as long as the steps meet a condition,
holds after a run whose steps all meet it (`run_inv`).

What a machine is for may be said by a specification, whose steps are a relation: it
may do one of several things. If the machine simulates the specification step by step,
then every run of the machine is one of the specification (`run_refines`).
-/

namespace Machine

variable {σ α β : Type*} (step : σ → α → σ × List β)

/-- The state after some inputs, and what they have given. -/
def run : σ → List α → σ × List β
  | s, [] => (s, [])
  | s, a :: as =>
    let (s', bs) := step s a
    let (s'', bs') := run s' as
    (s'', bs ++ bs')

/-- Every step of a run meets a condition. -/
def AllSteps (C : σ → α → Prop) : σ → List α → Prop
  | _, [] => True
  | s, a :: as => C s a ∧ AllSteps C (step s a).1 as

instance AllSteps.decidable {C : σ → α → Prop} [∀ s a, Decidable (C s a)] :
    ∀ (s : σ) (as : List α), Decidable (AllSteps step C s as)
  | _, [] => .isTrue trivial
  | s, a :: as =>
    have := AllSteps.decidable (C := C) (step s a).1 as
    inferInstanceAs (Decidable (C s a ∧ AllSteps step C (step s a).1 as))

variable {step}

theorem run_cons (s : σ) (a : α) (as : List α) : run step s (a :: as) =
    ((run step (step s a).1 as).1, (step s a).2 ++ (run step (step s a).1 as).2) := rfl

theorem run_append (s : σ) (as as' : List α) : run step s (as ++ as') =
    ((run step (run step s as).1 as').1, (run step s as).2 ++ (run step (run step s as).1 as').2) := by
  induction as generalizing s with
  | nil => rfl
  | cons a as ih =>
    rw [List.cons_append, run_cons, run_cons, ih, List.append_assoc]

/-- The invariant rule for runs: `I` relates the state to all that has been given. -/
theorem run_inv {I : σ → List β → Prop} {C : σ → α → Prop}
    (hstep : ∀ s a bs, I s bs → C s a → I (step s a).1 (bs ++ (step s a).2))
    {s : σ} {as : List α} {bs : List β} (hs : I s bs) (hC : AllSteps step C s as) :
    I (run step s as).1 (bs ++ (run step s as).2) := by
  induction as generalizing s bs with
  | nil => simpa [run] using hs
  | cons a as ih =>
    have := ih (hstep s a bs hs hC.1) hC.2
    rwa [List.append_assoc] at this

/-- The rule for an invariant of the state alone. -/
theorem run_keeps {I : σ → Prop} {C : σ → α → Prop}
    (hstep : ∀ s a, I s → C s a → I (step s a).1) {s : σ} {as : List α} (hs : I s)
    (hC : AllSteps step C s as) : I (run step s as).1 := by
  induction as generalizing s with
  | nil => exact hs
  | cons a as ih => exact ih (hstep s a hs hC.1) hC.2

/-- What holds whenever an invariant does, holds of every step of a run. -/
theorem AllSteps.of_inv {I : σ → Prop} {C D : σ → α → Prop}
    (hstep : ∀ s a, I s → C s a → I (step s a).1) (hD : ∀ s a, I s → C s a → D s a) {s : σ}
    {as : List α} (hs : I s) (hC : AllSteps step C s as) : AllSteps step D s as := by
  induction as generalizing s with
  | nil => trivial
  | cons a as ih => exact ⟨hD s a hs hC.1, ih (hstep s a hs hC.1) hC.2⟩

theorem AllSteps.mono {C C' : σ → α → Prop} (h : ∀ s a, C s a → C' s a) {s : σ} {as : List α}
    (hC : AllSteps step C s as) : AllSteps step C' s as := by
  induction as generalizing s with
  | nil => exact hC
  | cons a as ih => exact ⟨h s a hC.1, ih hC.2⟩

theorem AllSteps.and {C D : σ → α → Prop} {s : σ} {as : List α} (hC : AllSteps step C s as)
    (hD : AllSteps step D s as) : AllSteps step (fun s a => C s a ∧ D s a) s as := by
  induction as generalizing s with
  | nil => trivial
  | cons a as ih => exact ⟨⟨hC.1, hD.1⟩, ih hC.2 hD.2⟩

/-! ## Specifications -/

section Specification

variable {τ : Type*} (Spec : τ → α → List β → τ → Prop)

/-- The runs of a specification. -/
inductive SpecRun : τ → List α → List β → τ → Prop
  | nil (t : τ) : SpecRun t [] [] t
  | cons {t t' t'' : τ} {a : α} {as : List α} {bs bs' : List β} (head : Spec t a bs t')
      (tail : SpecRun t' as bs' t'') : SpecRun t (a :: as) (bs ++ bs') t''

variable {Spec}

/-- The refinement rule: `R` relates the states of the machine and of the specification. -/
theorem run_refines {R : σ → τ → Prop} {C : σ → α → Prop}
    (hstep : ∀ s t a, R s t → C s a → ∃ t', Spec t a (step s a).2 t' ∧ R (step s a).1 t')
    {s : σ} {t : τ} {as : List α} (hs : R s t) (hC : AllSteps step C s as) :
    ∃ t', SpecRun Spec t as (run step s as).2 t' ∧ R (run step s as).1 t' := by
  induction as generalizing s t with
  | nil => exact ⟨t, .nil t, hs⟩
  | cons a as ih =>
    obtain ⟨t', hhead, ht'⟩ := hstep s t a hs hC.1
    obtain ⟨t'', htail, ht''⟩ := ih ht' hC.2
    exact ⟨t'', .cons hhead htail, ht''⟩

end Specification

end Machine
