import Bitcask.Common
import Bitcask.Crc32c

/-!
# Log records

The records of the data files and of the hint file, and their encodings. A
record is laid out as its checksum, its type, the varints of the lengths of key
and value, the key, the value.

* `decodeVarint_encodeVarint`, `LogRecordPos.decode_encode`: decoding inverts
  encoding;
* `LogRecordPos.codec`: so does it for every number and position, and no part of the
  bytes of a position is decoded;
* `decodeLogRecordHeader_header`: the header of a record, with anything behind it,
  decodes to the fields of the record.
-/

namespace Bitcask

open Crc32c

/-! ## Varints -/

/-- The loop of `encodeVarint`. A number of 64 bits takes ten passes at most. -/
def encodeVarintLoop : ℕ → ℕ → Bytes
  | 0, _ => []
  | fuel + 1, value =>
    if 0x80 ≤ value then
      UInt8.ofNat ((value &&& 0xFF) ||| 0x80) :: encodeVarintLoop fuel (value >>> 7)
    else [UInt8.ofNat (value &&& 0xFF)]

/-- A number of 64 bits in groups of seven, the lowest first, the high bit of a
    byte telling whether another one follows. -/
def encodeVarint (value : ℕ) : Bytes := encodeVarintLoop 10 (value % 2 ^ 64)

/-- The loop of `decodeVarint`. -/
def decodeVarintLoop (result shift pos : ℕ) : Bytes → Except Exn (ℕ × ℕ)
  | [] => .error (.bitcask "Incomplete varint")
  | byte :: buffer =>
    let result := result ||| ((byte.toNat &&& 0x7F) <<< shift) % 2 ^ 64
    if byte.toNat &&& 0x80 = 0 then .ok (result, pos + 1)
    else if 64 ≤ shift + 7 then .error (.bitcask "Varint too long")
    else decodeVarintLoop result (shift + 7) (pos + 1) buffer

/-- The number a buffer starts with, and the bytes it takes. -/
def decodeVarint (buffer : Bytes) : Except Exn (ℕ × ℕ) :=
  if buffer.length = 0 then .error (.bitcask "Empty buffer for varint")
  else decodeVarintLoop 0 0 0 buffer

/-! ## Positions -/

/-- Where a log record is: its file, its offset there and its size. -/
structure LogRecordPos where
  fid : ℕ
  offset : ℕ
  size : ℕ
deriving DecidableEq, Repr

namespace LogRecordPos

def encode (pos : LogRecordPos) : Bytes :=
  encodeVarint pos.fid ++ encodeVarint pos.offset ++ encodeVarint pos.size

def decode (data : Bytes) : Except Exn LogRecordPos := do
  let (fid, fidLen) ← decodeVarint data
  let (offset, offsetLen) ← decodeVarint (data.drop fidLen)
  let (size, _) ← decodeVarint ((data.drop fidLen).drop offsetLen)
  return ⟨fid % 2 ^ 32, offset, size % 2 ^ 32⟩

end LogRecordPos

/-! ## Records -/

/-- A record of a log. -/
structure LogRecord where
  key : Bytes
  value : Bytes := []
  type : LogRecordType := .normal
deriving DecidableEq, Repr

/-- The head of an encoded record. -/
structure LogRecordHeader where
  crc : UInt32
  type : LogRecordType
  keySize : ℕ
  valueSize : ℕ
deriving DecidableEq, Repr

namespace LogRecord

/-- What follows the checksum in an encoded record, and is checked by it. -/
def body (record : LogRecord) : Bytes :=
  record.type.toByte :: (encodeVarint record.key.length ++ encodeVarint record.value.length ++
    record.key ++ record.value)

/-- The checksum of a record. -/
def getCrc (record : LogRecord) : UInt32 := crc32c record.body

/-- The bytes of a record. -/
def encode (record : LogRecord) : Bytes :=
  LittleEndian.encode 4 (crc32c record.body).toNat ++ record.body

/-- The loop of `encodedSize` over the groups of a length. -/
def varintSizeLoop : ℕ → ℕ → ℕ
  | 0, _ => 0
  | fuel + 1, len => if 0x80 ≤ len then varintSizeLoop fuel (len >>> 7) + 1 else 1

/-- The number of bytes of an encoded record, computed without encoding it. -/
def encodedSize (record : LogRecord) : ℕ :=
  4 + 1 + varintSizeLoop 10 (record.key.length % 2 ^ 64) +
    varintSizeLoop 10 (record.value.length % 2 ^ 64) + (record.key.length + record.value.length)

end LogRecord

/-- The header some data starts with, and the bytes it takes. -/
def decodeLogRecordHeader (data : Bytes) : Except Exn (LogRecordHeader × ℕ) :=
  if data.length < 5 then .error (.bitcask "Invalid header data")
  else do
    let crc := UInt32.ofNat (LittleEndian.decode (data.take 4))
    let type : LogRecordType := ⟨data.getD 4 0⟩
    let (keySize, keyLen) ← decodeVarint (data.drop 5)
    let (valueSize, valueLen) ← decodeVarint (data.drop (5 + keyLen))
    return (⟨crc, type, keySize % 2 ^ 32, valueSize % 2 ^ 32⟩, 5 + keyLen + valueLen)

/-! ## Decoding varints -/

theorem encodeVarintLoop_of_lt {value : ℕ} (h : value < 0x80) (fuel : ℕ) :
    encodeVarintLoop (fuel + 1) value = [UInt8.ofNat value] := by
  rw [encodeVarintLoop, if_neg (by omega), show (0xFF : ℕ) = 2 ^ 8 - 1 from rfl,
    Nat.and_two_pow_sub_one_eq_mod, Nat.mod_eq_of_lt (by omega)]

theorem encodeVarintLoop_of_le {value : ℕ} (h : 0x80 ≤ value) (fuel : ℕ) :
    encodeVarintLoop (fuel + 1) value =
      UInt8.ofNat (value % 128 + 128) :: encodeVarintLoop fuel (value / 128) := by
  have hor : (value &&& 0xFF) ||| 0x80 = value % 128 + 128 := by
    have h8 : value % 256 = value % 128 ∨ value % 256 = 128 + value % 128 := by omega
    have hlow : value % 128 < 2 ^ 7 := by omega
    have hsum : 128 + value % 128 = 128 ||| value % 128 := Nat.two_pow_add_eq_or_of_lt hlow 1
    rw [show (0xFF : ℕ) = 2 ^ 8 - 1 from rfl, Nat.and_two_pow_sub_one_eq_mod]
    rcases h8 with h8 | h8
    · rw [h8, Nat.or_comm, ← hsum, Nat.add_comm]
    · rw [h8, hsum, Nat.or_comm, ← Nat.or_assoc, Nat.or_self, ← hsum, Nat.add_comm]
  rw [encodeVarintLoop, if_pos h, hor, Nat.shiftRight_eq_div_pow]

theorem length_encodeVarintLoop_pos (fuel value : ℕ) :
    0 < (encodeVarintLoop (fuel + 1) value).length := by
  rw [encodeVarintLoop]
  split <;> simp

theorem length_encodeVarintLoop_le (fuel value : ℕ) :
    (encodeVarintLoop fuel value).length ≤ fuel := by
  induction fuel generalizing value with
  | zero => rfl
  | succ fuel ih =>
    rw [encodeVarintLoop]
    split
    · simpa using ih _
    · simp

/-- A number of `7 * n` bits takes `n` bytes at most. -/
theorem length_encodeVarintLoop_le_of_lt {fuel value n : ℕ} (hn : 0 < n)
    (h : value < 2 ^ (7 * n)) : (encodeVarintLoop fuel value).length ≤ n := by
  induction fuel generalizing value n with
  | zero => exact Nat.zero_le _
  | succ fuel ih =>
    rcases Nat.lt_or_ge value 0x80 with hv | hv
    · rw [encodeVarintLoop_of_lt hv]
      exact hn
    · obtain ⟨m, rfl⟩ : ∃ m, n = m + 2 := by
        refine ⟨n - 2, ?_⟩
        rcases Nat.lt_or_ge n 2 with h1 | h1
        · have : n = 1 := by omega
          subst this
          omega
        · omega
      rw [encodeVarintLoop_of_le hv, List.length_cons]
      refine Nat.succ_le_succ (ih (Nat.succ_pos _) ?_)
      rw [show 7 * (m + 2) = 7 * (m + 1) + 7 by ring, Nat.pow_add] at h
      exact Nat.div_lt_of_lt_mul (by omega)

theorem length_encodeVarint_pos (value : ℕ) : 0 < (encodeVarint value).length :=
  length_encodeVarintLoop_pos _ _

theorem length_encodeVarint_le (value : ℕ) : (encodeVarint value).length ≤ 10 :=
  length_encodeVarintLoop_le _ _

theorem length_encodeVarint_le_of_lt {value n : ℕ} (hn : 0 < n) (h : value < 2 ^ (7 * n)) :
    (encodeVarint value).length ≤ n :=
  length_encodeVarintLoop_le_of_lt hn ((Nat.mod_le _ _).trans_lt h)

theorem high_bit_ne_zero {group : ℕ} (h : group < 128) : (group + 128) &&& 0x80 ≠ 0 := by
  have hsplit : group + 128 = 2 ^ 7 * 1 ||| group := by
    rw [← Nat.two_pow_add_eq_or_of_lt (by omega), Nat.add_comm]
  rw [hsplit, Nat.and_or_distrib_right]
  exact fun h => absurd (Nat.or_eq_zero_iff.1 h).1 (by decide)

/-- The loop of `decodeVarint` on the low groups of a number: it goes on with
    the number in front of which the result has been read. -/
theorem decodeVarintLoop_append {fuel value result shift : ℕ} (hfuel : value < 2 ^ (7 * fuel))
    (hpos : 0 < fuel) (hres : result < 2 ^ shift) (hval : value * 2 ^ shift < 2 ^ 64) (pos : ℕ)
    (rest : Bytes) :
    decodeVarintLoop result shift pos (encodeVarintLoop fuel value ++ rest) =
      .ok (result + value * 2 ^ shift, pos + (encodeVarintLoop fuel value).length) := by
  induction fuel generalizing value result shift pos with
  | zero => omega
  | succ fuel ih =>
    -- The bits of a group do not overlap those read before.
    have hor (group : ℕ) (hg : group * 2 ^ shift < 2 ^ 64) :
        result ||| (group <<< shift) % 2 ^ 64 = result + group * 2 ^ shift := by
      rw [Nat.shiftLeft_eq, Nat.mod_eq_of_lt hg, Nat.or_comm, ← Nat.shiftLeft_eq,
        ← Nat.shiftLeft_add_eq_or_of_lt hres, Nat.shiftLeft_eq, Nat.add_comm]
    rcases Nat.lt_or_ge value 0x80 with hv | hv
    · have hbyte : (UInt8.ofNat value).toNat = value := by
        rw [UInt8.toNat_ofNat', Nat.mod_eq_of_lt (by omega)]
      have hlow : value &&& 0x7F = value := by
        rw [show (0x7F : ℕ) = 2 ^ 7 - 1 from rfl, Nat.and_two_pow_sub_one_eq_mod,
          Nat.mod_eq_of_lt hv]
      have hhigh : value &&& 0x80 = 0 := by
        rw [← hlow, Nat.and_assoc]
        exact Nat.and_zero _
      rw [encodeVarintLoop_of_lt hv, List.cons_append, List.nil_append, decodeVarintLoop, hbyte,
        if_pos hhigh, hlow, hor _ hval]
      rfl
    · have hbyte : (UInt8.ofNat (value % 128 + 128)).toNat = value % 128 + 128 := by
        rw [UInt8.toNat_ofNat', Nat.mod_eq_of_lt (by omega)]
      have hlow : (value % 128 + 128) &&& 0x7F = value % 128 := by
        rw [show (0x7F : ℕ) = 2 ^ 7 - 1 from rfl, Nat.and_two_pow_sub_one_eq_mod]
        omega
      have hhigh : (value % 128 + 128) &&& 0x80 ≠ 0 := high_bit_ne_zero (by omega)
      have hshift : shift + 7 < 64 := by
        by_contra hge
        have h1 : 2 ^ 57 ≤ 2 ^ shift := Nat.pow_le_pow_right (by decide) (by omega)
        have h2 : 0x80 * 2 ^ 57 ≤ value * 2 ^ shift := Nat.mul_le_mul hv h1
        omega
      have hmul : value % 128 * 2 ^ shift + value / 128 * 2 ^ (shift + 7) = value * 2 ^ shift := by
        rw [Nat.pow_add]
        conv_rhs => rw [← Nat.mod_add_div value 128]
        ring
      rw [encodeVarintLoop_of_le hv, List.cons_append, decodeVarintLoop, hbyte, if_neg hhigh,
        if_neg (by omega), hlow, hor _ (by omega), ih, List.length_cons, Nat.add_assoc result, hmul]
      · congr 2
        omega
      · rw [show 7 * (fuel + 1) = 7 * fuel + 7 by ring, Nat.pow_add] at hfuel
        exact Nat.div_lt_of_lt_mul (by omega)
      · rcases Nat.eq_zero_or_pos fuel with rfl | h
        · omega
        · exact h
      · rw [Nat.pow_add]
        have : value % 128 * 2 ^ shift ≤ 127 * 2 ^ shift := Nat.mul_le_mul_right _ (by omega)
        omega
      · omega

/-- Decoding finds the number in front of anything. -/
theorem decodeVarint_encodeVarint (value : ℕ) (rest : Bytes) :
    decodeVarint (encodeVarint value ++ rest) =
      .ok (value % 2 ^ 64, (encodeVarint value).length) := by
  have hlt : value % 2 ^ 64 < 2 ^ 64 := Nat.mod_lt _ (by decide)
  have hne : ¬(encodeVarint value ++ rest).length = 0 := by
    have := length_encodeVarint_pos value
    rw [List.length_append]
    omega
  rw [decodeVarint, if_neg hne, encodeVarint,
    decodeVarintLoop_append (hlt.trans (by decide)) (by decide) (by decide) (by simpa using hlt)]
  simp

/-- What is behind a number does not matter to decoding it. -/
theorem decodeVarintLoop_append_right {result shift pos : ℕ} {buffer : Bytes} {x : ℕ × ℕ}
    (h : decodeVarintLoop result shift pos buffer = .ok x) (rest : Bytes) :
    decodeVarintLoop result shift pos (buffer ++ rest) = .ok x := by
  induction buffer generalizing result shift pos with
  | nil => simp [decodeVarintLoop] at h
  | cons byte buffer ih =>
    rw [List.cons_append, decodeVarintLoop]
    rw [decodeVarintLoop] at h
    split
    · rwa [if_pos ‹_›] at h
    · rw [if_neg ‹_›] at h
      split
      · rw [if_pos ‹_›] at h
        cases h
      · rw [if_neg ‹_›] at h
        exact ih h

theorem decodeVarint_append_right {buffer : Bytes} {x : ℕ × ℕ}
    (h : decodeVarint buffer = .ok x) (rest : Bytes) : decodeVarint (buffer ++ rest) = .ok x := by
  unfold decodeVarint at h ⊢
  split at h
  · cases h
  · rw [if_neg (by rw [List.length_append]; omega)]
    exact decodeVarintLoop_append_right h rest

/-- A varint of `n` bytes has at most `7 * n` bits. -/
theorem lt_of_decodeVarintLoop {result shift pos : ℕ} {buffer : Bytes} {x : ℕ × ℕ}
    (hres : result < 2 ^ shift) (h : decodeVarintLoop result shift pos buffer = .ok x) :
    ∃ n, 0 < n ∧ n ≤ buffer.length ∧ x.2 = pos + n ∧ x.1 < 2 ^ (shift + 7 * n) := by
  induction buffer generalizing result shift pos with
  | nil => simp [decodeVarintLoop] at h
  | cons byte buffer ih =>
    have hnext : result ||| ((byte.toNat &&& 0x7F) <<< shift) % 2 ^ 64 < 2 ^ (shift + 7) := by
      refine Nat.or_lt_two_pow (hres.trans_le (Nat.pow_le_pow_right (by decide) (by omega)))
        ((Nat.mod_le _ _).trans_lt ?_)
      rw [Nat.shiftLeft_eq, Nat.add_comm shift, Nat.pow_add]
      exact Nat.mul_lt_mul_of_pos_right
        (Nat.lt_of_le_of_lt Nat.and_le_right (by decide)) (Nat.two_pow_pos _)
    rw [decodeVarintLoop] at h
    split at h
    · cases h
      exact ⟨1, by decide, by simp, rfl, hnext⟩
    · split at h
      · cases h
      · obtain ⟨n, h1, h2, h3, h4⟩ := ih hnext h
        refine ⟨n + 1, by omega, by simpa using h2, by omega, ?_⟩
        rwa [show shift + 7 * (n + 1) = shift + 7 + 7 * n by ring]

theorem lt_of_decodeVarint {buffer : Bytes} {x : ℕ × ℕ} (h : decodeVarint buffer = .ok x) :
    0 < x.2 ∧ x.2 ≤ buffer.length ∧ x.1 < 2 ^ (7 * x.2) := by
  unfold decodeVarint at h
  split at h
  · cases h
  · obtain ⟨n, h1, h2, h3, h4⟩ := lt_of_decodeVarintLoop (by decide) h
    rw [Nat.zero_add] at h3 h4
    rw [h3]
    exact ⟨h1, h2, h4⟩

/-- A byte that ends a varint. -/
def endsVarint (byte : UInt8) : Bool := byte.toNat &&& 0x80 = 0

/-- A varint is read up to a byte that ends it. -/
theorem countP_of_decodeVarintLoop {result shift pos : ℕ} {buffer : Bytes} {x : ℕ × ℕ}
    (h : decodeVarintLoop result shift pos buffer = .ok x) :
    0 < (buffer.take (x.2 - pos)).countP endsVarint ∧ pos < x.2 := by
  induction buffer generalizing result shift pos with
  | nil => simp [decodeVarintLoop] at h
  | cons byte buffer ih =>
    rw [decodeVarintLoop] at h
    split at h
    · cases h
      simp [endsVarint, *]
    · split at h
      · cases h
      · obtain ⟨h1, h2⟩ := ih h
        refine ⟨?_, by omega⟩
        rw [show x.2 - pos = x.2 - (pos + 1) + 1 by omega, List.take_succ_cons, List.countP_cons]
        omega

theorem countP_of_decodeVarint {buffer : Bytes} {x : ℕ × ℕ} (h : decodeVarint buffer = .ok x) :
    0 < (buffer.take x.2).countP endsVarint := by
  unfold decodeVarint at h
  split at h
  · cases h
  · exact (countP_of_decodeVarintLoop h).1

/-- Only its last byte ends a varint. -/
theorem countP_take_encodeVarintLoop {fuel value n : ℕ}
    (hn : n < (encodeVarintLoop fuel value).length) :
    ((encodeVarintLoop fuel value).take n).countP endsVarint = 0 := by
  induction fuel generalizing value n with
  | zero => exact absurd hn (Nat.not_lt_zero _)
  | succ fuel ih =>
    rcases Nat.lt_or_ge value 0x80 with hv | hv
    · rw [encodeVarintLoop_of_lt hv, List.length_singleton, Nat.lt_one_iff] at hn
      subst hn
      rfl
    · rw [encodeVarintLoop_of_le hv, List.length_cons] at hn
      cases n with
      | zero => rfl
      | succ n =>
        have hbyte : (UInt8.ofNat (value % 128 + 128)).toNat = value % 128 + 128 := by
          rw [UInt8.toNat_ofNat', Nat.mod_eq_of_lt (by omega)]
        have hend : endsVarint (UInt8.ofNat (value % 128 + 128)) = false := by
          rw [endsVarint, hbyte]
          exact decide_eq_false (high_bit_ne_zero (Nat.mod_lt _ (by decide)))
        rw [encodeVarintLoop_of_le hv, List.take_succ_cons, List.countP_cons, hend,
          ih (by omega)]
        rfl

theorem countP_encodeVarint_le (value : ℕ) : (encodeVarint value).countP endsVarint ≤ 1 := by
  have hpos := length_encodeVarint_pos value
  have htake : (encodeVarint value).take ((encodeVarint value).length - 1) ++
      (encodeVarint value).drop ((encodeVarint value).length - 1) = encodeVarint value :=
    List.take_append_drop _ _
  rw [← htake, List.countP_append]
  have h1 : ((encodeVarint value).take ((encodeVarint value).length - 1)).countP endsVarint = 0 :=
    countP_take_encodeVarintLoop (by show _ < (encodeVarint value).length; omega)
  have h2 := List.countP_le_length (p := endsVarint)
    (l := (encodeVarint value).drop ((encodeVarint value).length - 1))
  rw [List.length_drop] at h2
  omega

/-- A position whose fields are of the store's widths survives its encoding. -/
theorem LogRecordPos.decode_encode {pos : LogRecordPos} (hfid : pos.fid < 2 ^ 32)
    (hoffset : pos.offset < 2 ^ 64) (hsize : pos.size < 2 ^ 32) : decode pos.encode = .ok pos := by
  have h32 {n : ℕ} (hn : n < 2 ^ 32) : n % 2 ^ 64 % 2 ^ 32 = n := by omega
  have hlast := decodeVarint_encodeVarint pos.size []
  rw [List.append_nil] at hlast
  simp only [decode, encode, List.append_assoc, decodeVarint_encodeVarint, List.drop_left, hlast,
    bind, Except.bind, pure, Except.pure, h32 hfid, h32 hsize, Nat.mod_eq_of_lt hoffset]

/-! ## Parts of positions -/

/-- Reading a number of a buffer that goes on with `rest` finds the number the
    whole starts with, and takes no byte of `rest`. -/
theorem decodeVarint_of_append {value : ℕ} {buffer rest bytes : Bytes} {x : ℕ × ℕ}
    (hbytes : buffer ++ rest = encodeVarint value ++ bytes) (h : decodeVarint buffer = .ok x) :
    buffer.drop x.2 ++ rest = bytes := by
  have hwhole := decodeVarint_append_right h rest
  rw [hbytes, decodeVarint_encodeVarint] at hwhole
  obtain rfl := Except.ok.inj hwhole
  have hle : (encodeVarint value).length ≤ buffer.length := (lt_of_decodeVarint h).2.1
  rw [← List.drop_append_of_le_length hle, hbytes, List.drop_left]

/-- Decoding a number throws exceptions of the store only. -/
theorem message_of_decodeVarintLoop {result shift pos : ℕ} {buffer : Bytes} {e : Exn}
    (h : decodeVarintLoop result shift pos buffer = .error e) :
    ∃ message, e = .bitcask message := by
  induction buffer generalizing result shift pos with
  | nil => exact ⟨_, (Except.error.inj h).symm⟩
  | cons byte buffer ih =>
    rw [decodeVarintLoop] at h
    split at h
    · cases h
    · split at h
      · exact ⟨_, (Except.error.inj h).symm⟩
      · exact ih h

theorem message_of_decodeVarint {buffer : Bytes} {e : Exn} (h : decodeVarint buffer = .error e) :
    ∃ message, e = .bitcask message := by
  unfold decodeVarint at h
  split at h
  · exact ⟨_, (Except.error.inj h).symm⟩
  · exact message_of_decodeVarintLoop h

namespace LogRecordPos

/-- Decoding a position takes three numbers, and fails where one of them fails. -/
theorem decode_cases (data : Bytes) :
    (∃ message, decode data = .error (.bitcask message)) ∨
      ∃ fid offset size, decodeVarint data = .ok fid ∧
        decodeVarint (data.drop fid.2) = .ok offset ∧
        decodeVarint ((data.drop fid.2).drop offset.2) = .ok size := by
  unfold decode
  cases hfid : decodeVarint data with
  | error e =>
    obtain ⟨message, rfl⟩ := message_of_decodeVarint hfid
    exact .inl ⟨message, rfl⟩
  | ok fid =>
    cases hoffset : decodeVarint (data.drop fid.2) with
    | error e =>
      obtain ⟨message, rfl⟩ := message_of_decodeVarint hoffset
      refine .inl ⟨message, ?_⟩
      simp only [bind, Except.bind, hoffset]
    | ok offset =>
      cases hsize : decodeVarint ((data.drop fid.2).drop offset.2) with
      | error e =>
        obtain ⟨message, rfl⟩ := message_of_decodeVarint hsize
        refine .inl ⟨message, ?_⟩
        simp only [bind, Except.bind, hoffset, hsize]
      | ok size => exact .inr ⟨fid, offset, size, rfl, hoffset, hsize⟩

/-- A part of the bytes of a position is not one: decoding it throws. -/
theorem decode_of_part {pos : LogRecordPos} {data : Bytes} (hpart : data <+: pos.encode)
    (hne : data ≠ pos.encode) : ∃ message, decode data = .error (.bitcask message) := by
  refine (decode_cases data).resolve_right ?_
  rintro ⟨fid, offset, size, hfid, hoffset, hsize⟩
  obtain ⟨rest, hrest⟩ := hpart
  have hnil : rest = [] := by
    have hwhole := hrest
    rw [encode, List.append_assoc] at hwhole
    have hafter := decodeVarint_of_append (decodeVarint_of_append hwhole hfid) hoffset
    rw [← List.append_nil (encodeVarint pos.size)] at hafter
    exact (List.append_eq_nil_iff.1 (decodeVarint_of_append hafter hsize)).2
  rw [hnil, List.append_nil] at hrest
  exact hne hrest

/-- A number in front of anything is read back, from ten bytes at most, and so is
    a position; no part of the bytes of a position is read as one. -/
theorem codec :
    (∀ (v : UInt64) (rest : Bytes),
      decodeVarint (encodeVarint v.toNat ++ rest) =
          .ok (v.toNat, (encodeVarint v.toNat).length) ∧
        1 ≤ (encodeVarint v.toNat).length ∧ (encodeVarint v.toNat).length ≤ 10) ∧
    ∀ (fid : UInt32) (offset : UInt64) (size : UInt32),
      let pos : LogRecordPos := ⟨fid.toNat, offset.toNat, size.toNat⟩
      decode pos.encode = .ok pos ∧
        ∀ data, data <+: pos.encode → data ≠ pos.encode →
          ∃ message, decode data = .error (.bitcask message) := by
  refine ⟨fun v rest => ⟨?_, ?_, ?_⟩, fun fid offset size => ⟨?_, fun data => ?_⟩⟩
  · rw [decodeVarint_encodeVarint, Nat.mod_eq_of_lt v.toNat_lt]
  · exact length_encodeVarint_pos _
  · exact length_encodeVarint_le _
  · exact decode_encode fid.toNat_lt offset.toNat_lt size.toNat_lt
  · exact decode_of_part

/-- The first byte of a position of file 300. -/
theorem codec_firstByte : ∃ message, decode [0xAC] = .error (.bitcask message) :=
  (codec.2 300 7 5).2 [0xAC] (by decide) (by decide)

end LogRecordPos

/-! ## Decoding headers -/

theorem bind_eq_ok {ε α β : Type _} {x : Except ε α} {f : α → Except ε β} {b : β} :
    (x >>= f) = .ok b ↔ ∃ a, x = .ok a ∧ f a = .ok b := by
  cases x <;> simp [bind, Except.bind]

namespace LogRecord

variable (record : LogRecord)

/-- The number of bytes before the key. -/
def headerSize : ℕ :=
  5 + (encodeVarint record.key.length).length + (encodeVarint record.value.length).length

theorem length_encode : record.encode.length =
    record.headerSize + (record.key.length + record.value.length) := by
  simp only [encode, body, headerSize, List.length_append, LittleEndian.length_encode,
    List.length_cons]
  omega

theorem seven_le_headerSize : 7 ≤ record.headerSize := by
  have h1 := length_encodeVarint_pos record.key.length
  have h2 := length_encodeVarint_pos record.value.length
  unfold headerSize
  omega

theorem headerSize_le_length_encode : record.headerSize ≤ record.encode.length := by
  rw [length_encode]
  exact Nat.le_add_right _ _

theorem length_encode_pos : 0 < record.encode.length := by
  have := record.seven_le_headerSize
  have := record.headerSize_le_length_encode
  omega

theorem varintSizeLoop_eq (fuel len : ℕ) :
    varintSizeLoop fuel len = (encodeVarintLoop fuel len).length := by
  induction fuel generalizing len with
  | zero => rfl
  | succ fuel ih =>
    rw [varintSizeLoop, encodeVarintLoop]
    split
    · rw [ih, List.length_cons]
    · rfl

/-- The size computed without encoding is right. -/
theorem encodedSize_eq : record.encodedSize = record.encode.length := by
  rw [length_encode, encodedSize, varintSizeLoop_eq, varintSizeLoop_eq, headerSize]
  rfl

/-- The bytes before the key. -/
def header : Bytes :=
  LittleEndian.encode 4 (crc32c record.body).toNat ++
    (record.type.toByte ::
      (encodeVarint record.key.length ++ encodeVarint record.value.length))

@[simp]
theorem length_header : record.header.length = record.headerSize := by
  simp only [header, headerSize, List.length_append, LittleEndian.length_encode, List.length_cons]
  omega

theorem encode_eq : record.encode = record.header ++ (record.key ++ record.value) := by
  simp [encode, body, header]

/-- The checksum field holds the checksum. -/
theorem decode_take_header (rest : Bytes) :
    UInt32.ofNat (LittleEndian.decode ((record.header ++ rest).take 4)) = record.getCrc := by
  have htake : (record.header ++ rest).take 4 =
      LittleEndian.encode 4 (crc32c record.body).toNat := by
    rw [header, List.append_assoc]
    exact List.take_left' (LittleEndian.length_encode _ _)
  rw [htake, LittleEndian.decode_encode, show 256 ^ 4 = 2 ^ 32 from rfl,
    Nat.mod_eq_of_lt (crc32c record.body).toNat_lt, UInt32.ofNat_toNat]
  rfl

theorem getD_header (rest : Bytes) : (record.header ++ rest).getD 4 0 = record.type.toByte := by
  rw [header, List.append_assoc, List.getD_eq_getElem?_getD,
    List.getElem?_append_right (by simp), LittleEndian.length_encode]
  rfl

/-- The lengths come behind the type. -/
theorem drop_header (rest : Bytes) :
    (record.header ++ rest).drop 5 = encodeVarint record.key.length ++
      (encodeVarint record.value.length ++ rest) := by
  have hlen := LittleEndian.length_encode 4 (crc32c record.body).toNat
  rw [header, List.append_assoc, show 5 = 4 + 1 from rfl, ← List.drop_drop,
    List.drop_left' hlen]
  simp

/-- What the header of a record decodes to. -/
def decodedHeader : LogRecordHeader :=
  ⟨record.getCrc, record.type, record.key.length % 2 ^ 64 % 2 ^ 32,
    record.value.length % 2 ^ 64 % 2 ^ 32⟩

end LogRecord

/-- The header of a record is found in front of anything. -/
theorem decodeLogRecordHeader_header (record : LogRecord) (rest : Bytes) :
    decodeLogRecordHeader (record.header ++ rest) =
      .ok (record.decodedHeader, record.headerSize) := by
  have hlen : ¬(record.header ++ rest).length < 5 := by
    have := record.seven_le_headerSize
    rw [List.length_append, LogRecord.length_header]
    omega
  simp only [decodeLogRecordHeader, if_neg hlen, bind, Except.bind, pure, Except.pure,
    LogRecord.getD_header, LogRecord.decode_take_header, ← List.drop_drop, LogRecord.drop_header,
    decodeVarint_encodeVarint, List.drop_left, LogRecord.headerSize, LogRecord.decodedHeader]

/-- What is behind a header does not matter to decoding it. -/
theorem decodeLogRecordHeader_append_right {data : Bytes} {x : LogRecordHeader × ℕ}
    (h : decodeLogRecordHeader data = .ok x) (rest : Bytes) :
    decodeLogRecordHeader (data ++ rest) = .ok x := by
  unfold decodeLogRecordHeader at h ⊢
  split at h
  · cases h
  rename_i hlen
  rw [if_neg (by rw [List.length_append]; omega)]
  obtain ⟨⟨keySize, keyLen⟩, h1, h⟩ := bind_eq_ok.1 h
  obtain ⟨⟨valueSize, valueLen⟩, h2, h⟩ := bind_eq_ok.1 h
  have hkey := (lt_of_decodeVarint h1).2.1
  rw [List.length_drop] at hkey
  simp only at hkey h2
  rw [← h]
  have htake : (data ++ rest).take 4 = data.take 4 := List.take_append_of_le_length (by omega)
  have htype : (data ++ rest).getD 4 0 = data.getD 4 0 := by
    rw [List.getD_eq_getElem?_getD, List.getD_eq_getElem?_getD,
      List.getElem?_append_left (by omega)]
  simp only [htake, htype, List.drop_append_of_le_length (show 5 ≤ data.length by omega),
    List.drop_append_of_le_length (show 5 + keyLen ≤ data.length by omega),
    decodeVarint_append_right h1, decodeVarint_append_right h2, bind, Except.bind]

/-- A header is long enough for the lengths it declares, and holds its type. -/
theorem decodeLogRecordHeader_bounds {data : Bytes} {header : LogRecordHeader} {size : ℕ}
    (h : decodeLogRecordHeader data = .ok (header, size)) :
    size ≤ data.length ∧ header.type.toByte = data.getD 4 0 ∧
      ∀ k ≤ header.keySize, ∀ v ≤ header.valueSize,
        5 + (encodeVarint k).length + (encodeVarint v).length ≤ size := by
  unfold decodeLogRecordHeader at h
  split at h
  · cases h
  rename_i hlen
  obtain ⟨⟨keySize, keyLen⟩, h1, h⟩ := bind_eq_ok.1 h
  obtain ⟨⟨valueSize, valueLen⟩, h2, h⟩ := bind_eq_ok.1 h
  cases h
  obtain ⟨hk1, hk2, hk3⟩ := lt_of_decodeVarint h1
  obtain ⟨hv1, hv2, hv3⟩ := lt_of_decodeVarint h2
  rw [List.length_drop] at hk2 hv2
  simp only at hk1 hk2 hk3 hv1 hv2 hv3
  refine ⟨by omega, rfl, fun k hk v hv => ?_⟩
  have := length_encodeVarint_le_of_lt hk1 ((hk.trans (Nat.mod_le _ _)).trans_lt hk3)
  have := length_encodeVarint_le_of_lt hv1 ((hv.trans (Nat.mod_le _ _)).trans_lt hv3)
  omega

/-- A header takes two varints. -/
theorem countP_of_decodeLogRecordHeader {data : Bytes} {x : LogRecordHeader × ℕ}
    (h : decodeLogRecordHeader data = .ok x) : 2 ≤ (data.drop 5).countP endsVarint := by
  unfold decodeLogRecordHeader at h
  split at h
  · cases h
  obtain ⟨⟨keySize, keyLen⟩, h1, h⟩ := bind_eq_ok.1 h
  obtain ⟨⟨valueSize, valueLen⟩, h2, h⟩ := bind_eq_ok.1 h
  have hk := countP_of_decodeVarint h1
  have hv := countP_of_decodeVarint h2
  rw [← List.drop_drop] at hv
  have hle := (List.take_sublist valueLen ((data.drop 5).drop keyLen)).countP_le (p := endsVarint)
  rw [← List.take_append_drop keyLen (data.drop 5), List.countP_append]
  simp only at hk hv
  omega

/-- A part of a header holds at most one whole varint. -/
theorem countP_take_header {record : LogRecord} {n : ℕ} (hn : n < record.headerSize) :
    ((record.header.take n).drop 5).countP endsVarint ≤ 1 := by
  have hdrop : (record.header.take n).drop 5 =
      (encodeVarint record.key.length ++ encodeVarint record.value.length).take (n - 5) := by
    have := record.drop_header []
    rw [List.append_nil, List.append_nil] at this
    rw [List.drop_take, this]
  rw [hdrop, List.take_append, List.countP_append]
  have h1 := (List.take_sublist (n - 5) (encodeVarint record.key.length)).countP_le (p := endsVarint)
  have h2 := countP_encodeVarint_le record.key.length
  have h3 : ((encodeVarint record.value.length).take
      (n - 5 - (encodeVarint record.key.length).length)).countP endsVarint = 0 := by
    refine countP_take_encodeVarintLoop ?_
    have hpos := length_encodeVarint_pos record.value.length
    unfold LogRecord.headerSize at hn
    show _ < (encodeVarint record.value.length).length
    omega
  omega

/-- Whatever is read of a record's header is its header. -/
theorem decodeLogRecordHeader_take {record : LogRecord} {rest : Bytes} {n : ℕ}
    {x : LogRecordHeader × ℕ} (h : decodeLogRecordHeader ((record.header ++ rest).take n) = .ok x) :
    x = (record.decodedHeader, record.headerSize) := by
  have := decodeLogRecordHeader_append_right h ((record.header ++ rest).drop n)
  rw [List.take_append_drop, decodeLogRecordHeader_header] at this
  exact (Except.ok.inj this).symm

end Bitcask
