import Mathlib.Data.Nat.Basic
import Mathlib.Tactic.Common

/-!
# Loops

A loop `while (true) { … }` whose body either goes round again in a new state
or breaks with a result (`Pass`). `loop body n s` makes at most `n` passes, and
is `none` if the loop is still running after them.

* `loop_inv`: what every pass preserves holds of the result;
* `loop_total`: a loop whose passes decrease a measure ends, when it may make
  more passes than the measure of its first state;
* `loop_again`: a pass that goes round again costs one pass;
* `Reaches.inv`: what every pass preserves holds of the states reached;
* `loop_related`: two loops whose passes are related, as long as the states of the first one
  are fine, have related results.
-/

namespace FuelLoop

variable {σ ρ : Type*}

/-- What a pass of a loop does. -/
inductive Pass (σ ρ : Type*)
  | again (s : σ)
  | done (r : ρ)

/-- A loop making at most `n` passes. -/
def loop (body : σ → Pass σ ρ) : ℕ → σ → Option ρ
  | 0, _ => none
  | n + 1, s =>
    match body s with
    | .again s' => loop body n s'
    | .done r => some r

variable {body : σ → Pass σ ρ} {s s' : σ} {r : ρ}

theorem loop_again (h : body s = .again s') (n : ℕ) :
    loop body (n + 1) s = loop body n s' := by
  rw [loop, h]

theorem loop_done (h : body s = .done r) (n : ℕ) : loop body (n + 1) s = some r := by
  rw [loop, h]

/-- The invariant rule: `I` holds before every pass, so `Q` holds of the result. -/
theorem loop_inv {I : σ → Prop} {Q : ρ → Prop} (hagain : ∀ s s', I s → body s = .again s' → I s')
    (hdone : ∀ s r, I s → body s = .done r → Q r) {n : ℕ} (hs : I s)
    (h : loop body n s = some r) : Q r := by
  induction n generalizing s with
  | zero => simp [loop] at h
  | succ n ih =>
    cases hb : body s with
    | again s' => exact ih (hagain s s' hs hb) (loop_again hb n ▸ h)
    | done r' =>
      rw [loop_done hb, Option.some.injEq] at h
      exact h ▸ hdone s r' hs hb

/-- The variant rule: every pass going round again decreases `μ`, so the loop ends. -/
theorem loop_total {I : σ → Prop} {μ : σ → ℕ} (hagain : ∀ s s', I s → body s = .again s' → I s')
    (hμ : ∀ s s', I s → body s = .again s' → μ s' < μ s) {n : ℕ} (hs : I s) (hn : μ s < n) :
    ∃ r, loop body n s = some r := by
  induction n generalizing s with
  | zero => exact absurd hn (Nat.not_lt_zero _)
  | succ n ih =>
    cases hb : body s with
    | again s' =>
      rw [loop_again hb]
      exact ih (hagain s s' hs hb) (by have := hμ s s' hs hb; omega)
    | done r => exact ⟨r, loop_done hb n⟩

/-- Going round from a state comes to another one. -/
inductive Reaches (body : σ → Pass σ ρ) (s : σ) : σ → Prop
  | here : Reaches body s s
  | again {t t' : σ} : Reaches body s t → body t = .again t' → Reaches body s t'

theorem Reaches.inv {I : σ → Prop} (hagain : ∀ s s', I s → body s = .again s' → I s')
    (hs : I s) (h : Reaches body s s') : I s' := by
  induction h with
  | here => exact hs
  | again _ hpass ih => exact hagain _ _ ih hpass

/-- Properties of the state or of the result of a pass. -/
def Pass.All (P : σ → Prop) (Q : ρ → Prop) : Pass σ ρ → Prop
  | .again s => P s
  | .done r => Q r

/-- Both passes go round again in related states, or have related results. -/
inductive Pass.Rel {σ' ρ' : Type*} (R : σ → σ' → Prop) (Q : ρ → ρ' → Prop) :
    Pass σ ρ → Pass σ' ρ' → Prop
  | again {s : σ} {s' : σ'} (h : R s s') : Rel R Q (.again s) (.again s')
  | done {r : ρ} {r' : ρ'} (h : Q r r') : Rel R Q (.done r) (.done r')

/-- If what is not fine stays so, a loop that ends fine starts fine. -/
theorem fine_of_loop (fine : σ → Prop) (fineResult : ρ → Prop)
    (hfine : ∀ s, (body s).All fine fineResult → fine s) {n : ℕ} (h : loop body n s = some r)
    (hr : fineResult r) : fine s := by
  by_contra hnot
  refine loop_inv (I := fun s => ¬fine s) (Q := fun r => ¬fineResult r) ?_ ?_ hnot h hr
  · exact fun s t hs hb ht => hs (hfine s (hb ▸ ht))
  · exact fun s r hs hb hr => hs (hfine s (hb ▸ hr))

/-- The simulation rule: from related states, the passes are related if that of the first loop
    is fine, and what is not fine stays so. -/
theorem loop_related {σ' ρ' : Type*} {body' : σ' → Pass σ' ρ'} {fine : σ → Prop}
    {fineResult : ρ → Prop} {R : σ → σ' → Prop} {Q : ρ → ρ' → Prop}
    (hfine : ∀ s, (body s).All fine fineResult → fine s)
    (hpass : ∀ s s', R s s' → (body s).All fine fineResult → Pass.Rel R Q (body s) (body' s'))
    {n : ℕ} {s' : σ'} (hs : R s s') (h : loop body n s = some r) (hr : fineResult r) :
    ∃ r', loop body' n s' = some r' ∧ Q r r' := by
  induction n generalizing s s' with
  | zero => simp [loop] at h
  | succ n ih =>
    cases hb : body s with
    | again t =>
      rw [loop_again hb] at h
      have ht : fine t := fine_of_loop fine fineResult hfine h hr
      have hrel := hpass s s' hs (hb ▸ ht)
      rw [hb] at hrel
      cases hb' : body' s' with
      | again t' =>
        rw [hb'] at hrel
        cases hrel with
        | again ht => exact loop_again hb' n ▸ ih ht h
      | done r' =>
        rw [hb'] at hrel
        cases hrel
    | done t =>
      rw [loop_done hb, Option.some.injEq] at h
      subst h
      have hrel := hpass s s' hs (hb ▸ hr)
      rw [hb] at hrel
      cases hb' : body' s' with
      | again t' =>
        rw [hb'] at hrel
        cases hrel
      | done r' =>
        rw [hb'] at hrel
        cases hrel with
        | done hr => exact ⟨r', loop_done hb' n, hr⟩

end FuelLoop
