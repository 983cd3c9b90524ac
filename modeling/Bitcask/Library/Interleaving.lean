import Mathlib.Data.Bool.Basic
import Mathlib.Logic.Function.Basic
import Bitcask.Library.Program

/-!
# Programs interleaved

Threads run programs on one state, a request at a time, and a schedule says whose
request is next (`Threads.run`). What a step preserves holds after any schedule
(`run_inv`); a thread given enough turns in a row runs its program as if it were
alone (`run_replicate`), and so does one of two whose other is done
(`state_run_of_done`). Over handlers one of which simulates the other, the threads come to
the same under every schedule (`run_simulates`).

A thread that gets the replies it expects `Follows` a list of requests: it is known
where it stands after any number of its steps.
-/

/-- Threads, one for each `ι`: the state they share, and what is left of their programs. -/
structure Threads (C : Type) (R : C → Type) (ε α σ ι : Type) where
  state : σ
  program : ι → Program C R ε α

namespace Threads

variable {C : Type} {R : C → Type} {ε α σ ι : Type} [DecidableEq ι]
  {h : (c : C) → σ → R c × σ}

/-- The next request of a thread is served; a thread that is done does nothing. -/
def step (h : (c : C) → σ → R c × σ) (t : Threads C R ε α σ ι) (i : ι) : Threads C R ε α σ ι :=
  match t.program i with
  | .request c rest =>
    { state := (h c t.state).2
      program := Function.update t.program i (rest (h c t.state).1) }
  | _ => t

/-- The threads whose turn it is, one after the other. -/
def run (h : (c : C) → σ → R c × σ) (t : Threads C R ε α σ ι) (schedule : List ι) :
    Threads C R ε α σ ι :=
  schedule.foldl (step h) t

variable {t : Threads C R ε α σ ι} {i : ι}

@[simp]
theorem run_nil (t : Threads C R ε α σ ι) : t.run h [] = t := rfl

@[simp]
theorem run_cons (t : Threads C R ε α σ ι) (i : ι) (schedule : List ι) :
    t.run h (i :: schedule) = (t.step h i).run h schedule := rfl

theorem run_append (t : Threads C R ε α σ ι) (xs ys : List ι) :
    t.run h (xs ++ ys) = (t.run h xs).run h ys :=
  List.foldl_append

theorem step_of_request {c : C} {rest : R c → Program C R ε α}
    (hp : t.program i = .request c rest) :
    t.step h i = {
      state := (h c t.state).2
      program := Function.update t.program i (rest (h c t.state).1) } := by
  unfold step
  rw [hp]

theorem program_step_self {c : C} {rest : R c → Program C R ε α}
    (hp : t.program i = .request c rest) : (t.step h i).program i = rest (h c t.state).1 := by
  rw [step_of_request hp]
  exact Function.update_self i _ _

theorem program_step_of_ne {j : ι} (hj : j ≠ i) : (t.step h i).program j = t.program j := by
  unfold step
  split
  · exact Function.update_of_ne hj _ _
  · rfl

theorem step_of_done {r : Except ε α} (hp : t.program i = .ofResult r) :
    t.step h i = t := by
  unfold step
  rw [hp]
  cases r <;> rfl

/-- The invariant rule: what every step preserves holds after any schedule. -/
theorem run_inv {I : Threads C R ε α σ ι → Prop} (hstep : ∀ t i, I t → I (t.step h i))
    (ht : I t) (schedule : List ι) : I (t.run h schedule) := by
  induction schedule generalizing t with
  | nil => exact ht
  | cons i schedule ih => exact ih (hstep t i ht)

/-! ## Threads over related states -/

section Simulates

variable {τ : Type} {h' : (c : C) → τ → R c × τ} {fine : σ → Prop} {Related : σ → τ → Prop}

theorem fine_of_run (hsim : Program.Simulates h h' fine Related) {schedule : List ι}
    (hfine : fine (t.run h schedule).state) : fine t.state := by
  induction schedule generalizing t with
  | nil => exact hfine
  | cons i schedule ih =>
    have hnext := ih hfine
    unfold step at hnext
    split at hnext
    · exact hsim.fine_of_next _ _ hnext
    · exact hnext

/-- Threads that run the same programs on related states come to the same. -/
theorem run_simulates (hsim : Program.Simulates h h' fine Related) {t' : Threads C R ε α τ ι}
    (hprogram : t.program = t'.program) (hrelated : Related t.state t'.state) {schedule : List ι}
    (hfine : fine (t.run h schedule).state) :
    (t.run h schedule).program = (t'.run h' schedule).program ∧
      Related (t.run h schedule).state (t'.run h' schedule).state := by
  induction schedule generalizing t t' with
  | nil => exact ⟨hprogram, hrelated⟩
  | cons i schedule ih =>
    rw [run_cons] at hfine ⊢
    rw [run_cons]
    have hnext := fine_of_run hsim hfine
    cases hp : t.program i with
    | request c rest =>
      have hp' : t'.program i = .request c rest := hprogram ▸ hp
      rw [step_of_request hp] at hnext
      obtain ⟨hreply, hstate⟩ := hsim.next c _ _ hrelated hnext
      refine ih ?_ ?_ hfine
      · rw [step_of_request hp, step_of_request hp', ← hreply, hprogram]
      · rw [step_of_request hp, step_of_request hp']
        exact hstate
    | pure a =>
      have hp' : t'.program i = .pure a := hprogram ▸ hp
      rw [step_of_done (r := .ok a) hp] at hfine ⊢
      rw [step_of_done (r := .ok a) hp']
      exact ih hprogram hrelated hfine
    | throw e =>
      have hp' : t'.program i = .throw e := hprogram ▸ hp
      rw [step_of_done (r := .error e) hp] at hfine ⊢
      rw [step_of_done (r := .error e) hp']
      exact ih hprogram hrelated hfine

end Simulates

/-! ## Threads that run alone -/

/-- Enough turns in a row finish a program. -/
theorem run_replicate {n : ℕ} (hn : (t.program i).cost h t.state ≤ n) :
    t.run h (List.replicate n i) = {
      state := ((t.program i).run h t.state).2
      program := Function.update t.program i (.ofResult ((t.program i).run h t.state).1) } := by
  induction n generalizing t with
  | zero =>
    obtain ⟨result, hdone⟩ := Program.exists_ofResult_of_cost (Nat.le_zero.1 hn)
    rw [hdone, Program.run_ofResult, ← hdone, Function.update_eq_self]
    rfl
  | succ n ih =>
    rw [List.replicate_succ, run_cons]
    cases hp : t.program i with
    | pure a =>
      rw [step_of_done (r := .ok a) hp, ih (by rw [hp]; exact Nat.zero_le n), hp]
    | throw e =>
      rw [step_of_done (r := .error e) hp, ih (by rw [hp]; exact Nat.zero_le n), hp]
    | request c rest =>
      have hn : (rest (h c t.state).1).cost h (h c t.state).2 ≤ n := by
        rw [hp] at hn
        exact Nat.le_of_succ_le_succ hn
      rw [ih (by rw [program_step_self hp, step_of_request hp]; exact hn), program_step_self hp,
        step_of_request hp, Function.update_idem]
      rfl

/-- Once one of two threads is done, the other runs alone. -/
theorem state_run_of_done {t : Threads C R ε α σ Bool} {i : Bool} {schedule : List Bool}
    {result r : Except ε α} (hdone : t.program i = .ofResult result)
    (hdone' : (t.run h schedule).program (!i) = .ofResult r) :
    (t.run h schedule).state = ((t.program (!i)).run h t.state).2 := by
  induction schedule generalizing t with
  | nil =>
    replace hdone' : t.program (!i) = .ofResult r := hdone'
    rw [hdone', Program.run_ofResult]
    rfl
  | cons turn schedule ih =>
    rw [run_cons] at hdone' ⊢
    rcases Bool.eq_or_eq_not turn i with rfl | rfl
    · rw [step_of_done hdone] at hdone' ⊢
      exact ih hdone hdone'
    · cases hp : t.program (!i) with
      | pure a =>
        rw [step_of_done (r := .ok a) hp] at hdone' ⊢
        rw [ih hdone hdone', hp]
      | throw e =>
        rw [step_of_done (r := .error e) hp] at hdone' ⊢
        rw [ih hdone hdone', hp]
      | request c rest =>
        have hother : (t.step h (!i)).program i = .ofResult result :=
          (program_step_of_ne (by simp)).trans hdone
        rw [ih hother hdone', program_step_self hp, step_of_request hp]
        rfl

/-- One of two threads is done before the other starts. -/
theorem state_run_of_isPrefix {t : Threads C R ε α σ Bool} {i : Bool} {n : ℕ}
    {schedule : List Bool} {r : Except ε α} (hserial : List.replicate n i <+: schedule)
    (hn : (t.program i).cost h t.state ≤ n)
    (hdone : (t.run h schedule).program (!i) = .ofResult r) :
    (t.run h schedule).state =
      ((t.program (!i)).run h ((t.program i).run h t.state).2).2 := by
  obtain ⟨rest, rfl⟩ := hserial
  have hfirst := run_replicate hn
  rw [run_append] at hdone ⊢
  have hi : (t.run h (List.replicate n i)).program i = .ofResult ((t.program i).run h t.state).1 := by
    rw [hfirst]
    exact Function.update_self i _ _
  have hother : (t.run h (List.replicate n i)).program (!i) = t.program (!i) := by
    rw [hfirst]
    exact Function.update_of_ne (by simp) _ _
  rw [state_run_of_done hi hdone, hother, hfirst]

end Threads

/-! ## Threads that follow a script -/

/-- A program makes the requests of a list, if it gets the replies in it, and has the result. -/
def Program.Follows {C : Type} {R : C → Type} {ε α : Type} (p : Program C R ε α) :
    List ((c : C) × R c) → Except ε α → Prop
  | [], result => p = .ofResult result
  | ⟨c, r⟩ :: script, result => ∃ rest, p = .request c rest ∧ (rest r).Follows script result

namespace Threads

variable {C : Type} {R : C → Type} {ε α σ ι : Type} [DecidableEq ι]
  {h : (c : C) → σ → R c × σ} {t : Threads C R ε α σ ι} {i : ι}
  {script : ι → List ((c : C) × R c)} {result : ι → Except ε α}

/-- Every thread stands where it has to after its turns in the schedule. -/
def Following (script : ι → List ((c : C) × R c)) (result : ι → Except ε α) (schedule : List ι)
    (t : Threads C R ε α σ ι) : Prop :=
  ∀ i, (t.program i).Follows ((script i).drop (schedule.count i)) (result i)

/-- A request that gets the reply expected. -/
theorem Following.step {schedule : List ι} {c : C} {r : R c} {rest : List ((c : C) × R c)}
    (ht : Following script result schedule t)
    (hnext : (script i).drop (schedule.count i) = ⟨c, r⟩ :: rest) (hr : (h c t.state).1 = r) :
    (t.step h i).state = (h c t.state).2 ∧
      Following script result (schedule ++ [i]) (t.step h i) := by
  have hi := ht i
  rw [hnext] at hi
  obtain ⟨f, hp, hf⟩ := hi
  refine ⟨by rw [step_of_request hp], fun j => ?_⟩
  by_cases hj : j = i
  · subst hj
    rw [program_step_self hp, hr, List.count_append, List.count_singleton_self, ← List.tail_drop,
      hnext]
    exact hf
  · rw [program_step_of_ne hj, List.count_append, List.count_singleton, if_neg, Nat.add_zero]
    · exact ht j
    · simpa using Ne.symm hj

/-- A turn of a thread that is done. -/
theorem Following.step_of_done {schedule : List ι} (ht : Following script result schedule t)
    (hdone : (script i).drop (schedule.count i) = []) :
    t.step h i = t ∧ Following script result (schedule ++ [i]) t := by
  have hi := ht i
  rw [hdone] at hi
  refine ⟨Threads.step_of_done hi, fun j => ?_⟩
  by_cases hj : j = i
  · subst hj
    rw [List.count_append, List.count_singleton_self, ← List.tail_drop, hdone]
    exact hi
  · rw [List.count_append, List.count_singleton, if_neg, Nat.add_zero]
    · exact ht j
    · simpa using Ne.symm hj

end Threads
