import Bitcask.LogRecord
import Bitcask.Library.ReflectedCrc

/-!
# Checksums of records

The table-driven checksum is the one defined bit by bit, which a build with zlib
computes: the remainder by the reflected polynomial 0xEDB88320, inverted before
and after.

* `crc32c_bitwise`: the two agree, a checksum goes on where it has stopped, and so
  the checksum of a record is found from its parts;
* `crc32c_oneByteChanged`: any change of one byte is detected, in data as in the
  key or the value of a record.
-/

namespace Bitcask

namespace Crc32c

/-- The polynomial of the checksum, the bits reflected. -/
def polynomial : BitVec 32 := 0xEDB88320#32

/-- The function of zlib: a running checksum, its remainder inverted before and
    after. -/
def crc32 (crc : UInt32) (data : List UInt8) : UInt32 :=
  .ofBitVec (data.foldl (ReflectedCrc.byteStep polynomial) (crc.toBitVec ^^^ 0xFFFFFFFF#32) ^^^
    0xFFFFFFFF#32)

/-- The entries of the table are the remainders of their indices. -/
theorem crc32Table_eq : ∀ i < 256, (crc32Table.getD i 0).toBitVec =
    ReflectedCrc.bitSteps polynomial 8 (BitVec.ofNat 32 i) := by
  -- The table is gone through once, as a list: a lookup of each entry would go through it anew.
  have htable : crc32Table.toList.map UInt32.toBitVec =
      (List.range 256).map fun i => ReflectedCrc.bitSteps polynomial 8 (BitVec.ofNat 32 i) := by
    decide +kernel
  intro i hi
  have hentries := congrArg (·[i]?) htable
  simp only [List.getElem?_map, List.getElem?_range hi, Option.map_some, Array.getElem?_toList]
    at hentries
  obtain ⟨entry, hsome, hentry⟩ := Option.map_eq_some_iff.1 hentries
  rw [Array.getD_eq_getD_getElem?, hsome, Option.getD_some, hentry]

/-- A lookup in the table is eight steps of one bit. -/
theorem update_toBitVec (crc : UInt32) (byte : UInt8) :
    (update crc byte).toBitVec = ReflectedCrc.byteStep polynomial crc.toBitVec byte := by
  have hshift : (byte.toBitVec.setWidth 32) >>> 8 = 0#32 := by
    refine BitVec.eq_of_toNat_eq ?_
    have := byte.toNat_lt
    rw [BitVec.toNat_ushiftRight, BitVec.toNat_setWidth_of_le (by decide),
      Nat.shiftRight_eq_div_pow]
    exact Nat.div_eq_of_lt this
  have hlow : ((crc ^^^ byte.toUInt32) &&& 0xFF).toNat < 256 := by
    rw [UInt32.toNat_and]
    exact Nat.lt_of_le_of_lt Nat.and_le_right (by decide)
  have hindex : BitVec.ofNat 32 ((crc ^^^ byte.toUInt32) &&& 0xFF).toNat =
      (crc.toBitVec ^^^ byte.toBitVec.setWidth 32) &&& BitVec.ofNat 32 (2 ^ 8 - 1) := by
    rw [UInt32.toNat, BitVec.ofNat_toNat, BitVec.setWidth_eq]
    rfl
  calc (update crc byte).toBitVec = crc.toBitVec >>> 8 ^^^
        ReflectedCrc.bitSteps polynomial 8
          (BitVec.ofNat 32 ((crc ^^^ byte.toUInt32) &&& 0xFF).toNat) := by
        rw [← crc32Table_eq _ hlow]
        rfl
    _ = ReflectedCrc.byteStep polynomial crc.toBitVec byte := by
        rw [hindex, ReflectedCrc.byteStep, ReflectedCrc.bitSteps_eq_lookup _ _ (_ ^^^ _),
          BitVec.ushiftRight_xor_distrib, hshift, BitVec.xor_zero]

theorem foldl_update_toBitVec (crc : UInt32) (data : List UInt8) :
    (data.foldl update crc).toBitVec =
      data.foldl (ReflectedCrc.byteStep polynomial) crc.toBitVec := by
  induction data generalizing crc with
  | nil => rfl
  | cons byte data ih => rw [List.foldl_cons, List.foldl_cons, ih, update_toBitVec]

/-- Going on with a checksum is what zlib does. -/
theorem extend_eq_crc32 (crc : UInt32) (data : List UInt8) : extend crc data = crc32 crc data :=
  UInt32.toBitVec_inj.1 (congrArg (· ^^^ 0xFFFFFFFF#32) (foldl_update_toBitVec _ data))

/-- The checksum of no data is 0, from which the one of any data goes on. -/
theorem crc32c_eq_extend (data : List UInt8) : crc32c data = extend 0 data := by
  unfold crc32c
  split
  · rename_i hdata
    rw [List.length_eq_zero_iff.1 hdata]
    rfl
  · rfl

theorem extend_extend (crc : UInt32) (a b : List UInt8) :
    extend (extend crc a) b = extend crc (a ++ b) := by
  unfold extend
  rw [UInt32.xor_assoc, UInt32.xor_self, UInt32.xor_zero, List.foldl_append]

/-- Two byte strings of one length that differ at one place. -/
def OneByteChanged (xs ys : List UInt8) : Prop :=
  xs.length = ys.length ∧ ∃! i : ℕ, xs[i]? ≠ ys[i]?

/-- What is in front of the changed byte and what is behind it are the same. -/
theorem OneByteChanged.split {xs ys : List UInt8} (h : OneByteChanged xs ys) :
    ∃ front a b back, a ≠ b ∧ xs = front ++ a :: back ∧ ys = front ++ b :: back := by
  obtain ⟨hlen, i, hne, hunique⟩ := h
  have hx : i < xs.length := by
    by_contra hge
    refine hne ?_
    rw [List.getElem?_eq_none (by omega), List.getElem?_eq_none (by omega)]
  have hy : i < ys.length := hlen ▸ hx
  have hsame (j : ℕ) (hj : j ≠ i) : xs[j]? = ys[j]? := by
    by_contra hdiff
    exact hj (hunique j hdiff)
  have hfront : xs.take i = ys.take i := by
    refine List.ext_getElem? fun j => ?_
    rw [List.getElem?_take, List.getElem?_take]
    split
    · exact hsame j (by omega)
    · rfl
  have hback : xs.drop (i + 1) = ys.drop (i + 1) := by
    refine List.ext_getElem? fun j => ?_
    rw [List.getElem?_drop, List.getElem?_drop]
    exact hsame _ (by omega)
  refine ⟨xs.take i, xs[i], ys[i], xs.drop (i + 1), ?_, ?_, ?_⟩
  · intro heq
    refine hne ?_
    rw [List.getElem?_eq_getElem hx, List.getElem?_eq_getElem hy, heq]
  · rw [List.cons_getElem_drop_succ, List.take_append_drop]
  · rw [hfront, hback, List.cons_getElem_drop_succ, List.take_append_drop]

/-- A change of one byte stays one, whatever is put around it. -/
theorem crc32c_ne_of_split (front back : List UInt8) {a b : UInt8} (hab : a ≠ b) :
    crc32c (front ++ a :: back) ≠ crc32c (front ++ b :: back) := by
  intro h
  rw [crc32c_eq_extend, crc32c_eq_extend, extend_eq_crc32, extend_eq_crc32] at h
  have hrem := (BitVec.xor_left_inj _).1 (congrArg UInt32.toBitVec h)
  exact ReflectedCrc.foldl_byteStep_ne (by decide) (by decide) _ _ _ hab hrem

end Crc32c

/-! ## Records -/

open Crc32c

/-- What the checksum of a record covers in front of the key: the type and the lengths. -/
def LogRecord.checkedHeader (record : LogRecord) : Bytes :=
  record.type.toByte :: (encodeVarint record.key.length ++ encodeVarint record.value.length)

theorem LogRecord.body_eq (record : LogRecord) :
    record.body = record.checkedHeader ++ record.key ++ record.value := by
  simp [body, checkedHeader]

/-- The checksum of a record whose header has been read apart. -/
def getLogRecordCrc (record : LogRecord) (header : Bytes) : UInt32 :=
  extend (extend (crc32c header) record.key) record.value

/-- The built-in checksum is the CRC-32 computed bit by bit, and goes on where it
    has stopped: a record's checksum is found from its parts. -/
theorem crc32c_bitwise :
    (∀ data, crc32c data = crc32 0 data) ∧
    (∀ a b, extend (crc32c a) b = crc32c (a ++ b)) ∧
    ∀ record : LogRecord, getLogRecordCrc record record.checkedHeader = record.getCrc := by
  have hextend (a b : Bytes) : extend (crc32c a) b = crc32c (a ++ b) := by
    rw [crc32c_eq_extend, crc32c_eq_extend, extend_extend]
  refine ⟨fun data => ?_, hextend, fun record => ?_⟩
  · rw [crc32c_eq_extend, extend_eq_crc32]
  · rw [getLogRecordCrc, hextend, hextend, LogRecord.getCrc, LogRecord.body_eq]

/-- The checksum tells any change of one byte, of data as of the key or the value
    of a record. -/
theorem crc32c_oneByteChanged :
    (∀ xs ys, OneByteChanged xs ys → crc32c xs ≠ crc32c ys) ∧
    (∀ (record : LogRecord) (key : Bytes), OneByteChanged record.key key →
      record.getCrc ≠ LogRecord.getCrc { record with key }) ∧
    ∀ (record : LogRecord) (value : Bytes), OneByteChanged record.value value →
      record.getCrc ≠ LogRecord.getCrc { record with value } := by
  refine ⟨fun xs ys h => ?_, fun record key h => ?_, fun record value h => ?_⟩
  · obtain ⟨front, a, b, back, hab, rfl, rfl⟩ := h.split
    exact crc32c_ne_of_split front back hab
  · obtain ⟨front, a, b, back, hab, hx, rfl⟩ := h.split
    have := crc32c_ne_of_split (record.checkedHeader ++ front) (back ++ record.value) hab
    simpa [LogRecord.getCrc, LogRecord.body_eq, LogRecord.checkedHeader, hx] using this
  · obtain ⟨front, a, b, back, hab, hx, rfl⟩ := h.split
    have := crc32c_ne_of_split (record.checkedHeader ++ record.key ++ front) back hab
    simpa [LogRecord.getCrc, LogRecord.body_eq, LogRecord.checkedHeader, hx] using this

/-- A byte in the middle of three, and the key of a record. -/
theorem crc32c_oneByteChanged_middle :
    crc32c [1, 2, 3] ≠ crc32c [1, 7, 3] ∧
      LogRecord.getCrc { key := [1, 2, 3] } ≠ LogRecord.getCrc { key := [1, 7, 3] } := by
  have hchanged : OneByteChanged [1, 2, 3] [1, 7, 3] := by
    refine ⟨rfl, 1, by decide, fun i hi => ?_⟩
    match i with
    | 0 | 2 | _ + 3 => exact absurd rfl hi
    | 1 => rfl
  exact ⟨crc32c_oneByteChanged.1 _ _ hchanged,
    crc32c_oneByteChanged.2.1 { key := [1, 2, 3] } _ hchanged⟩

end Bitcask
