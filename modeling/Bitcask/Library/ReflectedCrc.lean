import Mathlib.Data.UInt
import Mathlib.Logic.Function.Iterate

/-!
# Cyclic redundancy checks, bit by bit

The remainder of a message by a polynomial of degree `w`, the bits reflected: the
lowest bit of the remainder is the next to leave, and the polynomial is taken off
when it is set (`bitStep`). A byte is added to the low bits of the remainder and
leaves it after eight steps (`byteStep`).

* Steps are linear (`bitSteps_xor`), so those of the low byte may be looked up in
  a table (`bitSteps_eq_lookup`).
* Steps lose nothing when the polynomial has its highest bit: a byte step is
  injective in the remainder and in the byte (`byteStep_left_injective`,
  `byteStep_right_injective`), and two messages that differ in one byte leave
  different remainders (`foldl_byteStep_ne`).
-/

namespace ReflectedCrc

variable {w : ℕ} (poly : BitVec w)

/-- One bit leaves the remainder. -/
def bitStep (crc : BitVec w) : BitVec w :=
  if crc.getLsbD 0 then (crc >>> 1) ^^^ poly else crc >>> 1

/-- Some bits leave the remainder. -/
def bitSteps (n : ℕ) (crc : BitVec w) : BitVec w := (bitStep poly)^[n] crc

/-- The remainder after one more byte. -/
def byteStep (crc : BitVec w) (byte : UInt8) : BitVec w :=
  bitSteps poly 8 (crc ^^^ byte.toBitVec.setWidth w)

/-! ## Linearity -/

theorem bitStep_xor (x y : BitVec w) :
    bitStep poly (x ^^^ y) = bitStep poly x ^^^ bitStep poly y := by
  unfold bitStep
  rw [BitVec.getLsbD_xor, BitVec.ushiftRight_xor_distrib]
  cases x.getLsbD 0 <;> cases y.getLsbD 0
  · rfl
  · exact BitVec.xor_assoc _ _ _
  · show (x >>> 1 ^^^ y >>> 1) ^^^ poly = (x >>> 1 ^^^ poly) ^^^ y >>> 1
    rw [BitVec.xor_assoc, BitVec.xor_assoc, BitVec.xor_comm poly]
  · show x >>> 1 ^^^ y >>> 1 = (x >>> 1 ^^^ poly) ^^^ (y >>> 1 ^^^ poly)
    rw [BitVec.xor_comm (y >>> 1) poly, BitVec.xor_assoc, ← BitVec.xor_assoc poly poly,
      BitVec.xor_self, BitVec.zero_xor]

theorem bitSteps_xor (n : ℕ) (x y : BitVec w) :
    bitSteps poly n (x ^^^ y) = bitSteps poly n x ^^^ bitSteps poly n y := by
  induction n with
  | zero => rfl
  | succ n ih =>
    simp only [bitSteps, Function.iterate_succ_apply'] at ih ⊢
    rw [ih, bitStep_xor]

/-- Bits that are not set leave without a trace. -/
theorem bitSteps_of_low {x : BitVec w} {n : ℕ} (h : ∀ i < n, x.getLsbD i = false) :
    bitSteps poly n x = x >>> n := by
  induction n with
  | zero => simp [bitSteps]
  | succ n ih =>
    have hbit : (x >>> n).getLsbD 0 = false := by simpa using h n (by omega)
    have hn := ih fun i hi => h i (by omega)
    rw [bitSteps] at hn ⊢
    rw [Function.iterate_succ_apply', hn, bitStep, hbit, BitVec.shiftRight_add]
    rfl

/-- What the low bits of a remainder become may be looked up, while the high bits
    move down. -/
theorem bitSteps_eq_lookup (n : ℕ) (x : BitVec w) :
    bitSteps poly n x = (x >>> n) ^^^ bitSteps poly n (x &&& BitVec.ofNat w (2 ^ n - 1)) := by
  have hmask (i : ℕ) : (BitVec.ofNat w (2 ^ n - 1)).getLsbD i = (decide (i < w) && decide (i < n)) := by
    rw [BitVec.getLsbD_ofNat, Nat.testBit_two_pow_sub_one]
  have hsplit : x = (x &&& ~~~BitVec.ofNat w (2 ^ n - 1)) ^^^ (x &&& BitVec.ofNat w (2 ^ n - 1)) := by
    refine BitVec.eq_of_getLsbD_eq fun i hi => ?_
    simp only [BitVec.getLsbD_xor, BitVec.getLsbD_and, BitVec.getLsbD_not]
    cases x.getLsbD i <;> cases (BitVec.ofNat w (2 ^ n - 1)).getLsbD i <;> simp [hi]
  have hlow (i : ℕ) (hi : i < n) : (x &&& ~~~BitVec.ofNat w (2 ^ n - 1)).getLsbD i = false := by
    simp only [BitVec.getLsbD_and, BitVec.getLsbD_not, hmask, hi]
    cases decide (i < w) <;> simp
  have hhigh : (x &&& ~~~BitVec.ofNat w (2 ^ n - 1)) >>> n = x >>> n := by
    refine BitVec.eq_of_getLsbD_eq fun i hi => ?_
    simp only [BitVec.getLsbD_ushiftRight, BitVec.getLsbD_and, BitVec.getLsbD_not, hmask]
    have : ¬n + i < n := by omega
    rcases Nat.lt_or_ge (n + i) w with hlt | hge
    · simp [hlt]
    · simp [BitVec.getLsbD_of_ge x _ hge]
  conv_lhs => rw [hsplit, bitSteps_xor, bitSteps_of_low poly hlow, hhigh]

/-! ## Injectivity -/

section Injective

variable {poly} (hpoly : poly.msb = true)
include hpoly

/-- Only the remainder zero is followed by zero. -/
theorem eq_zero_of_bitStep {x : BitVec w} (h : bitStep poly x = 0) : x = 0 := by
  have hmsb : (x >>> 1).msb = false := by simp
  unfold bitStep at h
  split at h
  · -- the polynomial sets the highest bit, which the shift has cleared
    have := congrArg BitVec.msb h
    rw [BitVec.msb_xor, hmsb, hpoly] at this
    simp at this
  · rename_i hbit
    refine BitVec.eq_of_getLsbD_eq fun i hi => ?_
    cases i with
    | zero => simpa using hbit
    | succ i =>
      have := congrArg (fun y => y.getLsbD i) h
      simpa [Nat.add_comm] using this

theorem bitStep_injective : Function.Injective (bitStep poly) := by
  intro x y h
  have hxor : bitStep poly (x ^^^ y) = 0 := by
    rw [bitStep_xor, h]
    exact BitVec.xor_self
  exact BitVec.xor_eq_zero_iff.1 (eq_zero_of_bitStep hpoly hxor)

theorem bitSteps_injective (n : ℕ) : Function.Injective (bitSteps poly n) :=
  (bitStep_injective hpoly).iterate n

theorem byteStep_left_injective (byte : UInt8) :
    Function.Injective fun crc => byteStep poly crc byte := by
  intro x y h
  have h8 := bitSteps_injective hpoly 8 h
  exact (BitVec.xor_left_inj _).1 h8

theorem byteStep_right_injective (hw : 8 ≤ w) (crc : BitVec w) :
    Function.Injective (byteStep poly crc) := by
  intro a b h
  have h8 := (BitVec.xor_right_inj _).1 (bitSteps_injective hpoly 8 h)
  refine UInt8.toBitVec_inj.1 (BitVec.eq_of_toNat_eq ?_)
  have := congrArg BitVec.toNat h8
  rwa [BitVec.toNat_setWidth_of_le hw, BitVec.toNat_setWidth_of_le hw] at this

theorem foldl_byteStep_injective (data : List UInt8) :
    Function.Injective fun crc => data.foldl (byteStep poly) crc := by
  induction data with
  | nil => exact fun _ _ h => h
  | cons byte data ih =>
    intro x y h
    exact byteStep_left_injective hpoly byte (ih h)

/-- Messages that differ in one byte leave different remainders. -/
theorem foldl_byteStep_ne (hw : 8 ≤ w) (crc : BitVec w) (front back : List UInt8) {a b : UInt8}
    (hab : a ≠ b) : (front ++ a :: back).foldl (byteStep poly) crc ≠
      (front ++ b :: back).foldl (byteStep poly) crc := by
  intro h
  rw [List.foldl_append, List.foldl_append, List.foldl_cons, List.foldl_cons] at h
  exact hab (byteStep_right_injective hpoly hw _ (foldl_byteStep_injective hpoly back h))

end Injective

end ReflectedCrc
