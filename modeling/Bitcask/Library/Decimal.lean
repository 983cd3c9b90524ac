import Mathlib.Algebra.Group.Nat.Defs
import Mathlib.Data.List.Basic
import Mathlib.Data.List.Induction
import Mathlib.Tactic.Common

/-!
# Decimal numbers

Natural numbers written in ASCII digits (`Decimal.digits`), and the number that
digits stand for (`Decimal.value`). Reading gives back what was written
(`value_digits`), and nothing shorter stands for it (`length_digits_value_le`).
-/

namespace Decimal

/-- Whether a byte is a digit, `'0'` to `'9'`. -/
def isDigit (b : UInt8) : Bool := 48 ≤ b && b ≤ 57

/-- The digits of a number, without leading zeros. -/
def digits (n : ℕ) : List UInt8 := (Nat.toDigits 10 n).map fun c => .ofNat c.toNat

/-- The number that digits stand for. -/
def value (ds : List UInt8) : ℕ := ds.foldl (fun n d => 10 * n + (d.toNat - 48)) 0

theorem toNat_of_isDigit {c : Char} (h : c.isDigit) : 48 ≤ c.toNat ∧ c.toNat ≤ 57 := by
  simpa [Char.isDigit, UInt32.le_iff_toNat_le] using h

theorem toNat_ofNat_of_isDigit {c : Char} (h : c.isDigit) : (UInt8.ofNat c.toNat).toNat = c.toNat :=
  UInt8.toNat_ofNat_of_lt' (Nat.lt_of_le_of_lt (toNat_of_isDigit h).2 (by decide))

theorem isDigit_of_mem_digits {n : ℕ} {b : UInt8} (h : b ∈ digits n) : isDigit b := by
  obtain ⟨c, hc, rfl⟩ := List.mem_map.1 h
  have hdigit := Nat.isDigit_of_mem_toDigits (by omega) (Nat.le_refl 10) hc
  rw [isDigit, Bool.and_eq_true, decide_eq_true_eq, decide_eq_true_eq, UInt8.le_iff_toNat_le,
    UInt8.le_iff_toNat_le, toNat_ofNat_of_isDigit hdigit]
  exact toNat_of_isDigit hdigit

theorem digits_ne_nil (n : ℕ) : digits n ≠ [] := by
  simp [digits]

@[simp]
theorem value_digits (n : ℕ) : value (digits n) = n := by
  rw [value, digits, List.foldl_map]
  calc
    _ = (Nat.toDigits 10 n).foldl (fun n c => 10 * n + (c.toNat - '0'.toNat)) 0 := by
      refine List.foldl_ext _ _ _ fun m c hc => ?_
      rw [toNat_ofNat_of_isDigit (Nat.isDigit_of_mem_toDigits (by omega) (Nat.le_refl 10) hc)]
      rfl
    _ = n := by rw [← Nat.ofDigitChars_eq_foldl, Nat.ofDigitChars_ten_toDigits]

theorem value_append_singleton (ds : List UInt8) (d : UInt8) :
    value (ds ++ [d]) = 10 * value ds + (d.toNat - 48) := by
  rw [value, List.foldl_append]
  rfl

theorem value_lt {ds : List UInt8} (h : ∀ d ∈ ds, isDigit d) : value ds < 10 ^ ds.length := by
  induction ds using List.reverseRecOn with
  | nil => exact Nat.one_pos
  | append_singleton ds d ih =>
    have hd : d.toNat ≤ 57 := by
      have := h d (List.mem_append_right _ List.mem_cons_self)
      rw [isDigit, Bool.and_eq_true, decide_eq_true_eq, decide_eq_true_eq] at this
      exact UInt8.le_iff_toNat_le.1 this.2
    have := ih fun d hd => h d (List.mem_append_left _ hd)
    rw [value_append_singleton, List.length_append, List.length_singleton, Nat.pow_succ]
    omega

/-- What stands for a number is no shorter than its digits. -/
theorem length_digits_value_le {ds : List UInt8} (h : ∀ d ∈ ds, isDigit d) (hne : ds ≠ []) :
    (digits (value ds)).length ≤ ds.length := by
  rw [digits, List.length_map]
  exact (Nat.length_toDigits_le_iff (by omega) (List.length_pos_iff.2 hne)).2 (value_lt h)

end Decimal
