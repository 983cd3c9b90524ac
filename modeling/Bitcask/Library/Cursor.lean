import Mathlib.Tactic.Common

/-!
# Cursors

A cursor goes through the items of a list: back to the first one, to the place of a
key, or one on (`Cursor`). Whatever it is made of, what is read through it depends
only on the items still ahead of it: a kind of cursor that `Represents` them reads
what `readings` says, and a loop over it visits all of them (`Represents.visit_eq`), or, if
its body may throw or break, those up to there (`Represents.loop_eq`).

Two kinds of cursors over the same items read the same through all calls if and
only if they do after every `seek` (`readings_eq_iff`).
-/

/-- Cursors `γ` over items `α`, with keys `κ` to look for. An operation on a cursor is
    `none` where it would use a pointer that is not there; at the end there is no item. -/
class Cursor (γ : Type) (κ α : outParam Type) where
  rewind : γ → Option γ
  seek : γ → κ → Option γ
  next : γ → Option γ
  read : γ → Option (Option α)

namespace Cursor

/-- What a cursor is asked to do. -/
inductive Call (κ : Type)
  | rewind
  | seek (key : κ)
  | next
deriving DecidableEq, Repr

variable {γ κ α : Type} [Cursor γ κ α]

def apply (c : γ) : Call κ → Option γ
  | .rewind => rewind c
  | .seek key => seek c key
  | .next => next c

/-- What is read at first, and after every call. -/
def trace : γ → List (Call κ) → Option (List (Option α))
  | c, [] => do return [← read c]
  | c, call :: calls => do
    let item ← read c
    return item :: (← trace (← apply c call) calls)

/-- The loop that uses every item up to the end, if it ends before the fuel does. -/
def visit (fuel : ℕ) (c : γ) : Option (List α) := do
  match ← read c with
  | none => return []
  | some item =>
    match fuel with
    | 0 => none
    | fuel + 1 => return item :: (← visit fuel (← next c))

/-- The items ahead after a call. -/
def ahead (all : List α) (land : κ → List α) (rest : List α) : Call κ → List α
  | .rewind => all
  | .seek key => land key
  | .next => rest.tail

/-- What is read at first and after every call, with the items of a list ahead. -/
def readings (all : List α) (land : κ → List α) : List α → List (Call κ) → List (Option α)
  | rest, [] => [rest.head?]
  | rest, call :: calls => rest.head? :: readings all land (ahead all land rest call) calls

/-- A cursor `c` with `At c rest` reads the items of `rest`; it goes back to `all`, and
    lands at `land key` when it looks for a key. -/
structure Represents (At : γ → List α → Prop) (all : List α) (land : κ → List α) : Prop where
  read : ∀ c rest, At c rest → Cursor.read c = some rest.head?
  rewind : ∀ c rest, At c rest → ∃ c', Cursor.rewind c = some c' ∧ At c' all
  seek : ∀ c rest key, At c rest → ∃ c', Cursor.seek c key = some c' ∧ At c' (land key)
  next : ∀ c rest, At c rest → ∃ c', Cursor.next c = some c' ∧ At c' rest.tail

variable {At : γ → List α → Prop} {all rest : List α} {land land' : κ → List α} {c : γ}

theorem Represents.apply (h : Represents At all land) (hc : At c rest) (call : Call κ) :
    ∃ c', Cursor.apply c call = some c' ∧ At c' (ahead all land rest call) := by
  cases call with
  | rewind => exact h.rewind c rest hc
  | seek key => exact h.seek c rest key hc
  | next => exact h.next c rest hc

theorem Represents.trace_eq (h : Represents At all land) (hc : At c rest)
    (calls : List (Call κ)) : trace c calls = some (readings all land rest calls) := by
  induction calls generalizing c rest with
  | nil => simp [trace, readings, h.read c rest hc]
  | cons call calls ih =>
    obtain ⟨c', happly, hc'⟩ := h.apply hc call
    simp [trace, readings, h.read c rest hc, happly, ih hc']

/-- The loop visits all items ahead. -/
theorem Represents.visit_eq (h : Represents At all land) (hc : At c rest) {fuel : ℕ}
    (hfuel : rest.length ≤ fuel) : visit fuel c = some rest := by
  induction rest generalizing c fuel with
  | nil =>
    unfold visit
    simp [h.read c [] hc]
  | cons item rest ih =>
    obtain ⟨fuel, rfl⟩ := Nat.exists_eq_succ_of_ne_zero (Nat.ne_zero_of_lt hfuel)
    obtain ⟨c', hnext, hc'⟩ := h.next c _ hc
    unfold visit
    simp [h.read c _ hc, hnext, ih hc' (Nat.le_of_succ_le_succ hfuel)]

/-! ## Loops with a body -/

/-- The loop `for (; valid(); next())` from a state. Its body throws, or says whether to go on,
    and in which state. -/
def loop {ε τ : Type} (body : α → τ → Except ε (Bool × τ)) (fuel : ℕ) (c : γ) (state : τ) :
    Option (Except ε τ) := do
  match ← read c with
  | none => return .ok state
  | some item =>
    match body item state with
    | .error e => return .error e
    | .ok (true, state) =>
      match fuel with
      | 0 => none
      | fuel + 1 => loop body fuel (← next c) state
    | .ok (false, state) => return .ok state

/-- The same loop over a list. -/
def loopList {ε τ : Type} (body : α → τ → Except ε (Bool × τ)) : List α → τ → Except ε τ
  | [], state => .ok state
  | item :: items, state =>
    match body item state with
    | .error e => .error e
    | .ok (true, state) => loopList body items state
    | .ok (false, state) => .ok state

/-- A loop over a cursor is one over the items ahead. -/
theorem Represents.loop_eq {ε τ : Type} (h : Represents At all land) (hc : At c rest)
    (body : α → τ → Except ε (Bool × τ)) {fuel : ℕ} (hfuel : rest.length ≤ fuel) (state : τ) :
    loop body fuel c state = some (loopList body rest state) := by
  induction rest generalizing c fuel state with
  | nil =>
    unfold loop
    simp [h.read c [] hc, loopList]
  | cons item rest ih =>
    obtain ⟨fuel, rfl⟩ := Nat.exists_eq_succ_of_ne_zero (Nat.ne_zero_of_lt hfuel)
    obtain ⟨c', hnext, hc'⟩ := h.next c _ hc
    unfold loop
    rw [h.read c _ hc, loopList]
    simp only [List.head?_cons, Option.bind_eq_bind, Option.bind_some, hnext]
    rcases body item state with e | ⟨_ | _, state'⟩
    · rfl
    · rfl
    · exact ih hc' (Nat.le_of_succ_le_succ hfuel) state'

/-- Loops whose bodies do the same come to the same. -/
theorem loopList_map {ε τ β : Type} {body : α → τ → Except ε (Bool × τ)}
    {body' : β → τ → Except ε (Bool × τ)} {f : α → β} {items : List α}
    (h : ∀ item ∈ items, ∀ state, body item state = body' (f item) state) (state : τ) :
    loopList body items state = loopList body' (items.map f) state := by
  induction items generalizing state with
  | nil => rfl
  | cons item items ih =>
    rw [List.map_cons, loopList, loopList, h item List.mem_cons_self]
    rcases body' (f item) state with e | ⟨_ | _, state'⟩
    · rfl
    · rfl
    · exact ih (fun item hitem => h item (List.mem_cons_of_mem _ hitem)) state'

theorem head?_readings (calls : List (Call κ)) :
    (readings all land rest calls).head? = some rest.head? := by
  cases calls <;> rfl

/-- What is read is the same if and only if all calls that look for a key land at the
    same place, when places with the same first item are the same. -/
theorem readings_eq_iff
    (hland : ∀ key, (land key).head? = (land' key).head? → land key = land' key)
    (calls : List (Call κ)) :
    readings all land rest calls = readings all land' rest calls ↔
      ∀ key, .seek key ∈ calls → land key = land' key := by
  induction calls generalizing rest with
  | nil => simp [readings]
  | cons call calls ih =>
    rw [readings, readings, List.cons_inj_right]
    cases call with
    | rewind => simpa [ahead] using ih
    | next => simpa [ahead] using ih
    | seek key =>
      by_cases heq : land key = land' key
      · simp [ahead, heq, ih]
      · refine iff_of_false (fun h => heq (hland key ?_)) fun h => heq (h key List.mem_cons_self)
        have hhead := congrArg List.head? h
        rwa [head?_readings, head?_readings, Option.some_inj] at hhead

end Cursor
