import Mathlib.Tactic.Common

/-!
# Binary search

Where a condition on the places of an array stops to hold: the interval in which
that is halved until it is empty. The condition may have no answer at a place
outside the array, so `lowerBound` has none then.
-/

namespace BinarySearch

/-- The first place of an interval from which on a condition does not hold. -/
def lowerBound (p : ℕ → Option Bool) : ℕ → ℕ → ℕ → Option ℕ
  | 0, _, _ => none
  | fuel + 1, left, right =>
    if left < right then do
      let mid := left + (right - left) / 2
      if ← p mid then lowerBound p fuel (mid + 1) right else lowerBound p fuel left mid
    else some left

/-- The place is found if the condition holds before it and nowhere else. -/
theorem lowerBound_eq {p : ℕ → Option Bool} {fuel left right n : ℕ}
    (hp : ∀ i < right, p i = some (decide (i < n))) (hleft : left ≤ n) (hright : n ≤ right)
    (hfuel : right - left < fuel) : lowerBound p fuel left right = some n := by
  induction fuel generalizing left right with
  | zero => exact absurd hfuel (Nat.not_lt_zero _)
  | succ fuel ih =>
    unfold lowerBound
    by_cases hlt : left < right
    · -- the place is in one of the two halves
      have hmid : left + (right - left) / 2 < right := by omega
      by_cases hn : left + (right - left) / 2 < n
      · simp only [hlt, hp _ hmid, hn, decide_true, if_true]
        exact ih hp (by omega) hright (by omega)
      · simp only [hlt, hp _ hmid, hn, decide_false, if_true]
        exact ih (fun i hi => hp i (by omega)) hleft (by omega) (by omega)
    · rw [if_neg hlt]
      exact congrArg some (by omega)

end BinarySearch
