import Mathlib.Data.UInt
import Bitcask.Common

/-!
# Metadata and internal keys

What the Redis layer stores in the database. A collection is its metadata, stored
under the key itself (`RedisMetadata`), and one entry for each element, stored
under an internal key: the key, the version of the metadata, and what tells the
elements apart, one after the other. A score is the bits of its double.

* `RedisMetadata.decode_encode`, `RedisMetadata.metadata_codec`: metadata is read
  back as it is stored, and data of the length of its type is written back.
-/

namespace Bitcask.Redis

/-! ## Numbers of fixed width -/

/-- Eight bytes, the lowest first. -/
def littleEndian64 (v : UInt64) : Bytes := LittleEndian.encode 8 v.toNat

/-- Four bytes, the lowest first. -/
def littleEndian32 (v : UInt32) : Bytes := LittleEndian.encode 4 v.toNat

/-- The number of the eight bytes at `offset`. -/
def read64 (data : Bytes) (offset : ℕ) : UInt64 :=
  .ofNat (LittleEndian.decode ((data.drop offset).take 8))

/-- The number of the four bytes at `offset`. -/
def read32 (data : Bytes) (offset : ℕ) : UInt32 :=
  .ofNat (LittleEndian.decode ((data.drop offset).take 4))

@[simp]
theorem length_littleEndian64 (v : UInt64) : (littleEndian64 v).length = 8 :=
  LittleEndian.length_encode 8 _

@[simp]
theorem length_littleEndian32 (v : UInt32) : (littleEndian32 v).length = 4 :=
  LittleEndian.length_encode 4 _

theorem ofNat_decode_littleEndian64 (v : UInt64) :
    UInt64.ofNat (LittleEndian.decode (littleEndian64 v)) = v := by
  have hv : v.toNat < 256 ^ 8 := v.toNat_lt
  rw [littleEndian64, LittleEndian.decode_encode, Nat.mod_eq_of_lt hv, UInt64.ofNat_toNat]

theorem ofNat_decode_littleEndian32 (v : UInt32) :
    UInt32.ofNat (LittleEndian.decode (littleEndian32 v)) = v := by
  have hv : v.toNat < 256 ^ 4 := v.toNat_lt
  rw [littleEndian32, LittleEndian.decode_encode, Nat.mod_eq_of_lt hv, UInt32.ofNat_toNat]

theorem littleEndian64_injective : Function.Injective littleEndian64 :=
  Function.LeftInverse.injective (g := fun bs => UInt64.ofNat (LittleEndian.decode bs))
    ofNat_decode_littleEndian64

/-- The eight bytes written after `xs` are read back. -/
theorem read64_append (xs ys : Bytes) (v : UInt64) {offset : ℕ} (h : xs.length = offset) :
    read64 (xs ++ littleEndian64 v ++ ys) offset = v := by
  rw [read64, List.append_assoc, List.drop_left' h, List.take_left' (length_littleEndian64 v),
    ofNat_decode_littleEndian64]

theorem littleEndian64_read64 {data : Bytes} {offset : ℕ} (h : offset + 8 ≤ data.length) :
    littleEndian64 (read64 data offset) = (data.drop offset).take 8 := by
  have hlength : ((data.drop offset).take 8).length = 8 := by simp; omega
  have hlt := LittleEndian.decode_lt ((data.drop offset).take 8)
  rw [hlength] at hlt
  rw [littleEndian64, read64, UInt64.toNat_ofNat_of_lt' hlt]
  nth_rewrite 1 [← hlength]
  exact LittleEndian.encode_decode _

theorem read32_append (xs ys : Bytes) (v : UInt32) {offset : ℕ} (h : xs.length = offset) :
    read32 (xs ++ littleEndian32 v ++ ys) offset = v := by
  rw [read32, List.append_assoc, List.drop_left' h, List.take_left' (length_littleEndian32 v),
    ofNat_decode_littleEndian32]

theorem littleEndian32_read32 {data : Bytes} {offset : ℕ} (h : offset + 4 ≤ data.length) :
    littleEndian32 (read32 data offset) = (data.drop offset).take 4 := by
  have hlength : ((data.drop offset).take 4).length = 4 := by simp; omega
  have hlt := LittleEndian.decode_lt ((data.drop offset).take 4)
  rw [hlength] at hlt
  rw [littleEndian32, read32, UInt32.toNat_ofNat_of_lt' hlt]
  nth_rewrite 1 [← hlength]
  exact LittleEndian.encode_decode _

/-! ## Metadata -/

/-- The type of a value. The enumeration is one of bytes, and the type read from
    the database is any byte. -/
structure RedisDataType where
  toByte : UInt8
deriving DecidableEq, Repr

namespace RedisDataType

def string : RedisDataType := ⟨0⟩
def hash : RedisDataType := ⟨1⟩
def set : RedisDataType := ⟨2⟩
def list : RedisDataType := ⟨3⟩
def zset : RedisDataType := ⟨4⟩

end RedisDataType

/-- The metadata of a collection: when it expires (0: never), the version of its
    elements and their number, and, for a list, the index of the first element
    and the one after the last. -/
structure RedisMetadata where
  dataType : RedisDataType := .string
  expire : UInt64 := 0
  version : UInt64 := 0
  size : UInt32 := 0
  head : UInt64 := 0
  tail : UInt64 := 0
deriving DecidableEq, Repr

namespace RedisMetadata

/-- The fields that every metadata has: 21 bytes. -/
def fields (m : RedisMetadata) : Bytes :=
  m.dataType.toByte :: littleEndian64 m.expire ++ littleEndian64 m.version ++
    littleEndian32 m.size

/-- The marks of a list: 16 bytes, or none for the other collections. -/
def marks (m : RedisMetadata) : Bytes :=
  if m.dataType = .list then littleEndian64 m.head ++ littleEndian64 m.tail else []

def encode (m : RedisMetadata) : Bytes := m.fields ++ m.marks

def decode (data : Bytes) : Except Exn RedisMetadata :=
  if data.length < 21 then
    .error (.bitcask "Invalid metadata size")
  else
    let dataType := RedisDataType.mk (data.getD 0 0)
    -- the marks of a list are read only where they are
    let marks := dataType = .list ∧ data.length ≥ 37
    .ok {
      dataType
      expire := read64 data 1
      version := read64 data 9
      size := read32 data 17
      head := if marks then read64 data 21 else 0
      tail := if marks then read64 data 29 else 0 }

/-- The metadata a stored one is read as: the marks are kept for lists only. -/
def stored (m : RedisMetadata) : RedisMetadata :=
  if m.dataType = .list then m else { m with head := 0, tail := 0 }

@[simp]
theorem version_stored (m : RedisMetadata) : m.stored.version = m.version := by
  unfold stored
  split <;> rfl

@[simp]
theorem dataType_stored (m : RedisMetadata) : m.stored.dataType = m.dataType := by
  unfold stored
  split <;> rfl

@[simp]
theorem expire_stored (m : RedisMetadata) : m.stored.expire = m.expire := by
  unfold stored
  split <;> rfl

@[simp]
theorem size_stored (m : RedisMetadata) : m.stored.size = m.size := by
  unfold stored
  split <;> rfl

theorem stored_of_list {m : RedisMetadata} (h : m.dataType = .list) : m.stored = m := if_pos h

@[simp]
theorem length_fields (m : RedisMetadata) : m.fields.length = 21 := by
  simp [fields]

theorem read64_fields_expire (m : RedisMetadata) (bs : Bytes) :
    read64 (m.fields ++ bs) 1 = m.expire := by
  simpa [fields] using read64_append [m.dataType.toByte]
    (littleEndian64 m.version ++ (littleEndian32 m.size ++ bs)) m.expire rfl

theorem read64_fields_version (m : RedisMetadata) (bs : Bytes) :
    read64 (m.fields ++ bs) 9 = m.version := by
  have h : (m.dataType.toByte :: littleEndian64 m.expire).length = 9 := by simp
  simpa [fields] using read64_append _ (littleEndian32 m.size ++ bs) m.version h

theorem read32_fields_size (m : RedisMetadata) (bs : Bytes) :
    read32 (m.fields ++ bs) 17 = m.size := by
  have h : (m.dataType.toByte :: littleEndian64 m.expire ++ littleEndian64 m.version).length = 17 :=
    by simp
  simpa [fields] using read32_append _ bs m.size h

theorem dataType_of_decode {data : Bytes} {m : RedisMetadata} (h : decode data = .ok m) :
    m.dataType = ⟨data.getD 0 0⟩ := by
  unfold decode at h
  split at h
  · cases h
  · obtain rfl := Except.ok.inj h
    rfl

theorem decode_encode (m : RedisMetadata) : decode m.encode = .ok m.stored := by
  have htype : RedisDataType.mk ((m.fields ++ m.marks).getD 0 0) = m.dataType := rfl
  have hlength : ¬(m.fields ++ m.marks).length < 21 := by simp
  rw [encode, decode, if_neg hlength]
  simp only [htype, read64_fields_expire, read64_fields_version, read32_fields_size]
  by_cases hlist : m.dataType = .list
  · have hmarks : m.marks = littleEndian64 m.head ++ littleEndian64 m.tail := if_pos hlist
    have hhead : read64 (m.fields ++ m.marks) 21 = m.head := by
      rw [hmarks, ← List.append_assoc]
      exact read64_append _ _ _ m.length_fields
    have htail : read64 (m.fields ++ m.marks) 29 = m.tail := by
      have h : (m.fields ++ littleEndian64 m.head).length = 29 := by simp
      simpa [hmarks] using read64_append _ [] m.tail h
    have hwhole : (m.fields ++ m.marks).length ≥ 37 := by simp [hmarks]
    rw [if_pos ⟨hlist, hwhole⟩, if_pos ⟨hlist, hwhole⟩, hhead, htail, stored_of_list hlist]
  · rw [if_neg (fun h => hlist h.1), if_neg (fun h => hlist h.1), stored, if_neg hlist]

theorem stored_of_unmarked {m : RedisMetadata}
    (hmarks : m.dataType ≠ .list → m.head = 0 ∧ m.tail = 0) : m.stored = m := by
  unfold stored
  split
  · rfl
  · rename_i hlist
    obtain ⟨hhead, htail⟩ := hmarks hlist
    cases m
    subst hhead htail
    rfl

/-- The fields read from some data are written as the first 21 bytes of it. -/
theorem fields_of_decode {data : Bytes} {m : RedisMetadata} (h : decode data = .ok m) :
    m.fields = data.take 21 := by
  unfold decode at h
  split at h
  · cases h
  · rename_i hlen
    obtain rfl := Except.ok.inj h
    have hhead : data.take 1 = [data.getD 0 0] := by
      cases data with
      | nil => simp at hlen
      | cons b bs => simp
    calc fields _ = [data.getD 0 0] ++ (data.drop 1).take 8 ++ (data.drop 9).take 8 ++
          (data.drop 17).take 4 := by
          simp only [fields, littleEndian64_read64 (show 1 + 8 ≤ data.length by omega),
            littleEndian64_read64 (show 9 + 8 ≤ data.length by omega),
            littleEndian32_read32 (show 17 + 4 ≤ data.length by omega)]
          rfl
      _ = data.take 21 := by
          rw [← hhead, ← List.take_add, ← List.take_add, ← List.take_add]

/-- The marks read from the metadata of a list are written as the 16 bytes behind. -/
theorem marks_of_decode {data : Bytes} {m : RedisMetadata} (h : decode data = .ok m)
    (hlist : data.getD 0 0 = RedisDataType.list.toByte) (hlen : data.length = 37) :
    m.marks = data.drop 21 := by
  have htype : m.dataType = .list := by rw [dataType_of_decode h, hlist]
  unfold decode at h
  rw [if_neg (by omega)] at h
  obtain rfl := Except.ok.inj h
  have hmarks : RedisDataType.mk (data.getD 0 0) = .list ∧ data.length ≥ 37 := ⟨htype, hlen.ge⟩
  rw [marks, if_pos htype]
  simp only [if_pos hmarks, littleEndian64_read64 (show 21 + 8 ≤ data.length by omega),
    littleEndian64_read64 (show 29 + 8 ≤ data.length by omega)]
  rw [← List.drop_drop (i := 8) (j := 21), ← List.take_add, List.take_of_length_le]
  rw [List.length_drop, hlen]

/-- What is read from data of the length of its type is written as that data. -/
theorem encode_of_decode {data : Bytes} {m : RedisMetadata} (h : decode data = .ok m)
    (hlen : data.length = if data.getD 0 0 = RedisDataType.list.toByte then 37 else 21) :
    m.encode = data := by
  rw [encode, fields_of_decode h]
  split at hlen
  · rename_i hlist
    rw [marks_of_decode h hlist hlen, List.take_append_drop]
  · rename_i hlist
    have htype : m.dataType ≠ .list := by
      rw [dataType_of_decode h]
      exact fun heq => hlist (congrArg RedisDataType.toByte heq)
    rw [marks, if_neg htype, List.append_nil, List.take_of_length_le hlen.le]

/-- Metadata without marks but those of a list are read back as they are, and
    data of the length of its type is written back as it is. -/
theorem metadata_codec :
    (∀ m : RedisMetadata, (m.dataType ≠ .list → m.head = 0 ∧ m.tail = 0) →
      decode m.encode = .ok m) ∧
    ∀ data : Bytes,
      data.length = 21 ∧ data.getD 0 0 ≠ RedisDataType.list.toByte ∨
        data.length = 37 ∧ data.getD 0 0 = RedisDataType.list.toByte →
      ∃ m, decode data = .ok m ∧ m.encode = data := by
  refine ⟨fun m hmarks => ?_, fun data hdata => ?_⟩
  · rw [decode_encode, stored_of_unmarked hmarks]
  · have hlen : data.length = if data.getD 0 0 = RedisDataType.list.toByte then 37 else 21 := by
      rcases hdata with ⟨hlen, htype⟩ | ⟨hlen, htype⟩
      · rw [hlen, if_neg htype]
      · rw [hlen, if_pos htype]
    obtain ⟨m, hm⟩ : ∃ m, decode data = .ok m := by
      rw [decode, if_neg (by split at hlen <;> omega)]
      exact ⟨_, rfl⟩
    exact ⟨m, hm, encode_of_decode hm hlen⟩

/-- A list with the marks 5 and 9, and 37 bytes that are a list. -/
theorem metadata_codec_list :
    decode (encode ⟨.list, 1, 2, 4, 5, 9⟩) = .ok ⟨.list, 1, 2, 4, 5, 9⟩ ∧
      ∃ m, decode (3 :: List.replicate 36 7) = .ok m ∧ m.encode = 3 :: List.replicate 36 7 :=
  ⟨metadata_codec.1 _ (fun h => absurd rfl h),
    metadata_codec.2 _ (.inr ⟨by simp, rfl⟩)⟩

end RedisMetadata

/-! ## Internal keys -/

/-- The key of an entry of the elements of `key`. -/
def internalKey (key : Bytes) (version : UInt64) (element : Bytes) : Bytes :=
  key ++ littleEndian64 version ++ element

structure HashInternalKey where
  key : Bytes
  version : UInt64
  field : Bytes

def HashInternalKey.encode (k : HashInternalKey) : Bytes := internalKey k.key k.version k.field

structure SetInternalKey where
  key : Bytes
  version : UInt64
  member : Bytes

def SetInternalKey.encode (k : SetInternalKey) : Bytes := internalKey k.key k.version k.member

structure ListInternalKey where
  key : Bytes
  version : UInt64
  index : UInt64

def ListInternalKey.encode (k : ListInternalKey) : Bytes :=
  internalKey k.key k.version (littleEndian64 k.index)

structure ZSetInternalKey where
  key : Bytes
  version : UInt64
  score : UInt64
  member : Bytes

def ZSetInternalKey.encode (k : ZSetInternalKey) : Bytes :=
  internalKey k.key k.version (littleEndian64 k.score ++ k.member)

theorem internalKey_inj {key : Bytes} {v v' : UInt64} {e e' : Bytes} :
    internalKey key v e = internalKey key v' e' ↔ v = v' ∧ e = e' := by
  constructor
  · intro h
    rw [internalKey, internalKey, List.append_assoc, List.append_assoc] at h
    obtain ⟨hv, he⟩ := List.append_inj (List.append_cancel_left h) (by simp)
    exact ⟨littleEndian64_injective hv, he⟩
  · rintro ⟨rfl, rfl⟩
    rfl

/-- No entry of an element is stored under the key of its collection. -/
theorem internalKey_ne (key : Bytes) (v : UInt64) (e : Bytes) : internalKey key v e ≠ key := by
  intro h
  have := congrArg List.length h
  simp [internalKey] at this

end Bitcask.Redis
