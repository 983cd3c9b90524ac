import Mathlib.Data.Nat.Bitwise
import Mathlib.Data.UInt
import Mathlib.Tactic.Ring

/-!
# Little-endian numbers

The `n` low bytes of a number, the lowest first (`encode`), and the number
spelled by such bytes (`decode`). Decoding is a left inverse up to the bytes
dropped (`decode_encode`), and every byte string of length `n` is an encoding
(`encode_decode`).
-/

namespace LittleEndian

/-- The `n` low bytes of `v`, the lowest first. -/
def encode : ℕ → ℕ → List UInt8
  | 0, _ => []
  | n + 1, v => UInt8.ofNat (v &&& 0xFF) :: encode n (v >>> 8)

/-- The number spelled by bytes, the lowest first. -/
def decode : List UInt8 → ℕ
  | [] => 0
  | b :: bs => b.toNat ||| decode bs <<< 8

@[simp]
theorem length_encode (n v : ℕ) : (encode n v).length = n := by
  induction n generalizing v with
  | zero => rfl
  | succ n ih => simp [encode, ih]

theorem decode_cons (b : UInt8) (bs : List UInt8) :
    decode (b :: bs) = b.toNat + 256 * decode bs := by
  rw [decode, Nat.or_comm, ← Nat.shiftLeft_add_eq_or_of_lt b.toNat_lt, Nat.shiftLeft_eq]
  ring

theorem encode_succ (n v : ℕ) :
    encode (n + 1) v = UInt8.ofNat (v % 256) :: encode n (v / 256) := by
  rw [encode, Nat.shiftRight_eq_div_pow, show (0xFF : ℕ) = 2 ^ 8 - 1 from rfl,
    Nat.and_two_pow_sub_one_eq_mod]

theorem decode_encode (n v : ℕ) : decode (encode n v) = v % 256 ^ n := by
  induction n generalizing v with
  | zero => simp [encode, decode, Nat.mod_one]
  | succ n ih =>
    rw [encode_succ, decode_cons, ih, UInt8.toNat_ofNat', Nat.mod_mod, Nat.pow_succ',
      Nat.mod_mul]

theorem decode_lt (bs : List UInt8) : decode bs < 256 ^ bs.length := by
  induction bs with
  | nil => simp [decode]
  | cons b bs ih =>
    rw [decode_cons, List.length_cons, Nat.pow_succ']
    have := b.toNat_lt
    omega

theorem encode_decode (bs : List UInt8) : encode bs.length (decode bs) = bs := by
  induction bs with
  | nil => rfl
  | cons b bs ih =>
    have hb := b.toNat_lt
    rw [List.length_cons, encode_succ, decode_cons,
      show (b.toNat + 256 * decode bs) % 256 = b.toNat by omega,
      show (b.toNat + 256 * decode bs) / 256 = decode bs by omega, ih, UInt8.ofNat_toNat]

theorem decode_eq_zero_iff {bs : List UInt8} : decode bs = 0 ↔ ∀ b ∈ bs, b = 0 := by
  induction bs with
  | nil => simp [decode]
  | cons b bs ih =>
    rw [decode_cons, List.forall_mem_cons, ← ih, ← UInt8.toNat_inj]
    simp

end LittleEndian
