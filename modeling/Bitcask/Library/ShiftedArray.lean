import Mathlib.Data.List.Basic
import Mathlib.Logic.Function.Basic

/-!
# Arrays with shifted entries

An array is a function of the index, of which the entries below a number `n` are
in use. An entry is inserted by moving those behind its place up (`shiftUp`), and
removed by moving them down (`shiftDown`), one after the other; a place is looked
for from the front (`firstIndex`).

* `exists_insert_iff`, `exists_erase_iff`: what is in two arrays that are shifted
  together, afterwards;
* `Ascending.insert`, `Ascending.erase`: an ascending array stays one.
-/

namespace ShiftedArray

variable {β γ : Type*}

/-- The first of `n` indices with a property, or `n`. -/
def firstIndex (p : ℕ → Bool) (n : ℕ) : ℕ := (List.range n).findIdx p

/-- The entries from `pos` on move up, from the last one down to it, `i` being the
    place the next one moves to. -/
def shiftUp (pos : ℕ) : ℕ → (ℕ → β) → ℕ → β
  | 0, a => a
  | i + 1, a => if pos < i + 1 then shiftUp pos i (Function.update a (i + 1) (a i)) else a

/-- The next `count` entries move down, the first of them to `i`. -/
def shiftDown : ℕ → ℕ → (ℕ → β) → ℕ → β
  | 0, _, a => a
  | count + 1, i, a => shiftDown count (i + 1) (Function.update a i (a (i + 1)))

/-! ## Places -/

theorem firstIndex_le (p : ℕ → Bool) (n : ℕ) : firstIndex p n ≤ n := by
  have hle : (List.range n).findIdx p ≤ (List.range n).length := List.findIdx_le_length
  rwa [List.length_range] at hle

/-- The place found has the property. -/
theorem firstIndex_spec {p : ℕ → Bool} {n : ℕ} (h : firstIndex p n < n) :
    p (firstIndex p n) = true := by
  have hlt : (List.range n).findIdx p < (List.range n).length := by
    rw [List.length_range]
    exact h
  have hp : p ((List.range n)[(List.range n).findIdx p]) = true := List.findIdx_getElem
  rwa [List.getElem_range] at hp

/-- No place before it has. -/
theorem of_lt_firstIndex {p : ℕ → Bool} {n i : ℕ} (h : i < firstIndex p n) : p i = false := by
  have hi : i < (List.range n).findIdx p := h
  have hp := List.not_of_lt_findIdx hi
  rwa [List.getElem_range] at hp

theorem firstIndex_lt_iff {p : ℕ → Bool} {n : ℕ} :
    firstIndex p n < n ↔ ∃ i < n, p i = true := by
  have hiff : (List.range n).findIdx p < (List.range n).length ↔ ∃ i ∈ List.range n, p i = true :=
    List.findIdx_lt_length
  simpa [firstIndex] using hiff

/-! ## Shifts -/

theorem shiftUp_apply (pos n : ℕ) (a : ℕ → β) (j : ℕ) :
    shiftUp pos n a j = if pos < j ∧ j ≤ n then a (j - 1) else a j := by
  induction n generalizing a with
  | zero =>
    rw [shiftUp, if_neg (by omega)]
  | succ i ih =>
    rw [shiftUp]
    split
    · rw [ih]
      rcases Nat.lt_trichotomy j (i + 1) with hj | rfl | hj
      · rw [Function.update_of_ne (by omega), Function.update_of_ne (by omega)]
        exact if_congr (by omega) rfl rfl
      · rw [if_neg (by omega), Function.update_self, if_pos (by omega), Nat.add_sub_cancel]
      · rw [if_neg (by omega), if_neg (by omega), Function.update_of_ne (by omega)]
    · rw [if_neg (by omega)]

theorem shiftDown_apply (count i : ℕ) (a : ℕ → β) (j : ℕ) :
    shiftDown count i a j = if i ≤ j ∧ j < i + count then a (j + 1) else a j := by
  induction count generalizing i a with
  | zero =>
    rw [shiftDown, if_neg (by omega)]
  | succ count ih =>
    rw [shiftDown, ih]
    rcases Nat.lt_trichotomy j i with hj | rfl | hj
    · rw [if_neg (by omega), if_neg (by omega), Function.update_of_ne (by omega)]
    · rw [if_neg (by omega), if_pos (by omega), Function.update_self]
    · rw [Function.update_of_ne (by omega), Function.update_of_ne (by omega)]
      exact if_congr (by omega) rfl rfl

/-- An entry put at `pos`, those behind it moved up. -/
def insert (pos n : ℕ) (v : β) (a : ℕ → β) : ℕ → β := Function.update (shiftUp pos n a) pos v

/-- The entry at `i` taken out, those behind it moved down. -/
def erase (i n : ℕ) (a : ℕ → β) : ℕ → β := shiftDown (n - 1 - i) i a

theorem insert_apply (pos n : ℕ) (v : β) (a : ℕ → β) (j : ℕ) : insert pos n v a j =
    if j = pos then v else if pos < j ∧ j ≤ n then a (j - 1) else a j := by
  rw [insert, Function.update_apply, shiftUp_apply]

theorem erase_apply (i n : ℕ) (a : ℕ → β) (j : ℕ) :
    erase i n a j = if i ≤ j ∧ j < n - 1 then a (j + 1) else a j := by
  rw [erase, shiftDown_apply]
  exact if_congr (by omega) rfl rfl

section TwoArrays

variable {a : ℕ → β} {b : ℕ → γ} {n : ℕ} (P : β → γ → Prop)

/-- What is in two arrays an entry is put into. -/
theorem exists_insert_iff {pos : ℕ} (hpos : pos ≤ n) (v : β) (w : γ) :
    (∃ j < n + 1, P (insert pos n v a j) (insert pos n w b j)) ↔
      P v w ∨ ∃ j < n, P (a j) (b j) := by
  simp only [insert_apply]
  constructor
  · rintro ⟨j, hj, h⟩
    split at h
    · exact .inl h
    · split at h
      · exact .inr ⟨j - 1, by omega, h⟩
      · exact .inr ⟨j, by omega, h⟩
  · rintro (h | ⟨j, hj, h⟩)
    · exact ⟨pos, by omega, by simpa using h⟩
    · rcases Nat.lt_or_ge j pos with hlt | hge
      · refine ⟨j, by omega, ?_⟩
        rwa [if_neg (by omega), if_neg (by omega), if_neg (by omega), if_neg (by omega)]
      · refine ⟨j + 1, by omega, ?_⟩
        rwa [if_neg (by omega), if_pos (by omega), if_neg (by omega), if_pos (by omega)]

/-- What is in two arrays an entry is taken out of. -/
theorem exists_erase_iff {i : ℕ} (hi : i < n) :
    (∃ j < n - 1, P (erase i n a j) (erase i n b j)) ↔ ∃ j < n, j ≠ i ∧ P (a j) (b j) := by
  simp only [erase_apply]
  constructor
  · rintro ⟨j, hj, h⟩
    split at h
    · exact ⟨j + 1, by omega, by omega, h⟩
    · exact ⟨j, by omega, by omega, h⟩
  · rintro ⟨j, hj, hne, h⟩
    rcases Nat.lt_or_ge j i with hlt | hge
    · refine ⟨j, by omega, ?_⟩
      rwa [if_neg (by omega), if_neg (by omega)]
    · refine ⟨j - 1, by omega, ?_⟩
      rwa [if_pos (by omega), if_pos (by omega), Nat.sub_add_cancel (by omega)]

end TwoArrays

/-! ## Order -/

section Order

variable [LT β]

/-- The first `n` entries are in strictly ascending order. -/
def Ascending (n : ℕ) (a : ℕ → β) : Prop := ∀ i j, i < j → j < n → a i < a j

theorem Ascending.erase {a : ℕ → β} {n : ℕ} (h : Ascending n a) (i : ℕ) :
    Ascending (n - 1) (erase i n a) := by
  intro j k hjk hk
  rw [erase_apply, erase_apply]
  split <;> split <;> exact h _ _ (by omega) (by omega)

variable [LE β] [Std.LawfulOrderLT β]

theorem Ascending.injOn {a : ℕ → β} {n : ℕ} (h : Ascending n a) {i j : ℕ} (hi : i < n) (hj : j < n)
    (heq : a i = a j) : i = j := by
  rcases Nat.lt_trichotomy i j with hlt | rfl | hlt
  · exact absurd (heq ▸ h i j hlt hj) Std.lt_irrefl
  · rfl
  · exact absurd (heq ▸ h j i hlt hi) Std.lt_irrefl

variable [Std.IsLinearOrder β]

/-- A new entry goes in front of the first one greater than it. -/
theorem Ascending.insert [DecidableLT β] {a : ℕ → β} {n : ℕ} {v : β} (h : Ascending n a)
    (hne : ∀ i < n, a i ≠ v) :
    Ascending (n + 1) (insert (firstIndex (fun i => v < a i) n) n v a) := by
  have hle := firstIndex_le (fun i => decide (v < a i)) n
  have hbefore (i : ℕ) (hi : i < firstIndex (fun i => decide (v < a i)) n) : a i < v := by
    have hnot : ¬v < a i := of_decide_eq_false (of_lt_firstIndex hi)
    exact Std.lt_of_le_of_ne (Std.not_lt.1 hnot) (hne i (by omega))
  have hbehind (i : ℕ) (hi : firstIndex (fun i => decide (v < a i)) n ≤ i) (hin : i < n) :
      v < a i := by
    have hfirst : v < a (firstIndex (fun i => decide (v < a i)) n) :=
      of_decide_eq_true (firstIndex_spec (p := fun i => decide (v < a i)) (by omega))
    rcases Nat.eq_or_lt_of_le hi with heq | hlt
    · rwa [← heq]
    · exact Std.lt_trans hfirst (h _ _ hlt hin)
  intro i j hij hj
  rw [insert_apply, insert_apply]
  split
  · rw [if_neg (by omega), if_pos (by omega)]
    exact hbehind _ (by omega) (by omega)
  · split
    · rw [if_neg (by omega), if_pos (by omega)]
      exact h _ _ (by omega) (by omega)
    · split
      · exact hbefore _ (by omega)
      · split
        · exact h _ _ (by omega) (by omega)
        · exact h _ _ (by omega) (by omega)

end Order

end ShiftedArray
