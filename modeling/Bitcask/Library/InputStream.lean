import Mathlib.Data.Nat.Basic
import Mathlib.Tactic.Common

/-!
# Input streams

A stream of symbols with a flag that says whether all went well so far. Reading fills
a buffer; at the end of the stream, only its front is filled, the rest of it stays as it
was, and the stream is good no longer: from then on nothing is read (`run_read_short`,
`run_read_bad`).

Many items are read one by one, as long as the stream is good (`readMany`). From the
encodings of items, back to back, these items are read (`run_readMany_flatMap`); where
the encodings are cut off, they are up to the item that is cut (`exists_take_flatMap`).
-/

/-- What is still to be read, and whether the stream is good. -/
structure InputStream (β : Type) where
  rest : List β
  good : Bool
deriving DecidableEq, Repr

namespace InputStream

/-- A computation that reads from a stream, and may throw. -/
abbrev Reader (β ε α : Type) := StateT (InputStream β) (Except ε) α

variable {β ε α γ : Type}

/-- Fills a buffer. -/
def read (buffer : List β) : Reader β ε (List β) := fun s =>
  if s.good then
    .ok (s.rest.take buffer.length ++ buffer.drop s.rest.length,
      ⟨s.rest.drop buffer.length, buffer.length ≤ s.rest.length⟩)
  else .ok (buffer, s)

def isGood : Reader β ε Bool := fun s => .ok (s.good, s)

/-- Reads up to so many items, as long as the stream is good. -/
def readMany (item : Reader β ε α) : ℕ → Reader β ε (List α)
  | 0 => pure []
  | n + 1 => do
    if ← isGood then
      let a ← item
      return a :: (← readMany item n)
    else return []

/-! ## One read -/

theorem run_read (buffer rest : List β) :
    (read buffer : Reader β ε (List β)).run ⟨rest, true⟩ =
      .ok (rest.take buffer.length ++ buffer.drop rest.length,
        ⟨rest.drop buffer.length, buffer.length ≤ rest.length⟩) := rfl

theorem run_read_append {buffer bs : List β} (h : bs.length = buffer.length) (rest : List β) :
    (read buffer : Reader β ε (List β)).run ⟨bs ++ rest, true⟩ = .ok (bs, ⟨rest, true⟩) := by
  rw [run_read, List.take_left' h, List.drop_left' h, List.drop_eq_nil_of_le (by simp [h]),
    List.append_nil, decide_eq_true (by simp [h])]

theorem run_read_short {buffer rest : List β} (h : rest.length < buffer.length) :
    (read buffer : Reader β ε (List β)).run ⟨rest, true⟩ =
      .ok (rest ++ buffer.drop rest.length, ⟨[], false⟩) := by
  rw [run_read, List.take_of_length_le (Nat.le_of_lt h), List.drop_eq_nil_of_le (Nat.le_of_lt h),
    decide_eq_false (Nat.not_le.2 h)]

theorem run_read_bad (buffer rest : List β) :
    (read buffer : Reader β ε (List β)).run ⟨rest, false⟩ = .ok (buffer, ⟨rest, false⟩) := rfl

/-! ## Many items -/

variable {item : Reader β ε α} {s s' : InputStream β} {a : α}

@[simp]
theorem ok_bind (a : α) (f : α → Except ε γ) : (Except.ok a >>= f) = f a := rfl

theorem run_readMany_bad (item : Reader β ε α) (n : ℕ) (rest : List β) :
    (readMany item n).run ⟨rest, false⟩ = .ok ([], ⟨rest, false⟩) := by
  cases n <;> rfl

theorem run_readMany_succ (hgood : s.good = true) (h : item.run s = .ok (a, s')) (n : ℕ) :
    (readMany item (n + 1)).run s =
      (readMany item n).run s' >>= fun r => .ok (a :: r.1, r.2) := by
  have hs : (isGood : Reader β ε Bool).run s = .ok (true, s) := by
    rw [← hgood]
    rfl
  simp only [readMany, StateT.run_bind, hs, h, ok_bind, if_true]
  rfl

/-- An item read with which the stream ends is the last one. -/
theorem run_readMany_last (hgood : s.good = true) (h : item.run s = .ok (a, ⟨[], false⟩))
    (n : ℕ) : (readMany item (n + 1)).run s = .ok ([a], ⟨[], false⟩) := by
  rw [run_readMany_succ hgood h, run_readMany_bad]
  rfl

/-- The items are read whose encodings come first. -/
theorem run_readMany_flatMap {encode : γ → List β} {decode : γ → α} {xs : List γ}
    (h : ∀ x ∈ xs, ∀ rest, item.run ⟨encode x ++ rest, true⟩ = .ok (decode x, ⟨rest, true⟩))
    (rest : List β) (n : ℕ) :
    (readMany item (xs.length + n)).run ⟨xs.flatMap encode ++ rest, true⟩ =
      (readMany item n).run ⟨rest, true⟩ >>= fun r => .ok (xs.map decode ++ r.1, r.2) := by
  induction xs with
  | nil =>
    rw [List.length_nil, Nat.zero_add, List.flatMap_nil, List.nil_append]
    exact (bind_pure _).symm
  | cons x xs ih =>
    rw [List.forall_mem_cons] at h
    rw [List.length_cons, Nat.add_right_comm, List.flatMap_cons, List.append_assoc,
      run_readMany_succ rfl (h.1 _), ih h.2, bind_assoc]
    rfl

/-- Encodings that are cut off are those of some items, and the front of the next one. -/
theorem exists_take_flatMap (encode : γ → List β) {xs : List γ} {n : ℕ}
    (h : n < (xs.flatMap encode).length) : ∃ before x after k, xs = before ++ x :: after ∧
      k < (encode x).length ∧
      (xs.flatMap encode).take n = before.flatMap encode ++ (encode x).take k := by
  induction xs generalizing n with
  | nil => exact absurd h (Nat.not_lt_zero n)
  | cons x xs ih =>
    rw [List.flatMap_cons, List.length_append] at h
    rcases Nat.lt_or_ge n (encode x).length with hn | hn
    · refine ⟨[], x, xs, n, rfl, hn, ?_⟩
      rw [List.flatMap_cons, List.take_append_of_le_length (Nat.le_of_lt hn)]
      rfl
    · obtain ⟨before, y, after, k, rfl, hk, htake⟩ := ih (n := n - (encode x).length) (by omega)
      refine ⟨x :: before, y, after, k, rfl, hk, ?_⟩
      rw [List.flatMap_cons, List.take_append, List.take_of_length_le hn, htake,
        List.flatMap_cons, List.append_assoc]

end InputStream
