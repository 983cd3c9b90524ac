import Bitcask.DataFile

/-!
# What reading a record guarantees

A record that has been encoded is read back from wherever it is
(`readLogRecord_roundTrip`). The other way round, `readLogRecord_eq_ok_iff` tells
exactly when bytes are taken for a record, and for which one: the header has to
be there as a whole, while the key and the value may be cut by the end of the
file, and of a checksum that does not fit only three values are refused.
-/

namespace Bitcask

/-! ## Round trip -/

/-- An encoded record is read back, whatever is before and behind it. Its size is
    what `encodedSize` tells, and it starts with its checksum. -/
theorem readLogRecord_roundTrip {record : LogRecord}
    (hkey : record.key.length ≤ maxRecordSize) (hvalue : record.value.length ≤ maxRecordSize)
    (htype : record.type = .normal ∨ record.type = .deleted ∨ record.type = .txnFinished)
    (before after : Bytes) :
    readLogRecord (before ++ record.encode ++ after) before.length =
        .ok ⟨record, record.encode.length⟩ ∧
      record.encodedSize = record.encode.length ∧
      LittleEndian.decode (record.encode.take 4) = record.getCrc.toNat := by
  have hread := LogRecord.readable_of_le hkey hvalue htype
  have hdrop : (before ++ record.encode ++ after).drop before.length = record.encode ++ after := by
    rw [List.append_assoc, List.drop_left]
  refine ⟨readLogRecord_encode hread hdrop, record.encodedSize_eq, ?_⟩
  have hlen : (LittleEndian.encode 4 (Crc32c.crc32c record.body).toNat).length = 4 :=
    LittleEndian.length_encode _ _
  rw [LogRecord.encode, List.take_left' hlen, LittleEndian.decode_encode]
  exact Nat.mod_eq_of_lt (Crc32c.crc32c record.body).toNat_lt

/-- A record at the start of a file, with three bytes behind it. -/
theorem readLogRecord_roundTrip_deleted :
    readLogRecord (LogRecord.encode ⟨[107], [], .deleted⟩ ++ [1, 2, 3]) 0 =
      .ok ⟨⟨[107], [], .deleted⟩, 8⟩ := by
  have h := @readLogRecord_roundTrip ⟨[107], [], .deleted⟩ (by decide) (by decide)
    (.inr (.inl rfl)) [] [1, 2, 3]
  exact h.1

/-! ## What is read -/

/-- What is read at an offset where a header has been decoded. -/
structure ReadsAs (content : Bytes) (offset : ℕ) (header : LogRecordHeader) (headerSize : ℕ)
    (read : ReadLogRecord) : Prop where
  /-- There are a checksum and a type. -/
  five_le : offset + 5 ≤ content.length
  decoded : decodeLogRecordHeader ((content.drop offset).take maxLogRecordHeaderSize) =
    .ok (header, headerSize)
  not_end : ¬(header.crc = 0 ∧ header.keySize = 0 ∧ header.valueSize = 0)
  keySize_le : header.keySize ≤ maxRecordSize
  valueSize_le : header.valueSize ≤ maxRecordSize
  header_le : offset + headerSize ≤ content.length
  /-- If a key or a value is declared, the first byte of them is there. -/
  available : header.keySize + header.valueSize = 0 ∨ offset + headerSize < content.length
  size_eq : read.size = headerSize + header.keySize + header.valueSize
  type_eq : read.record.type = header.type
  /-- The key and the value are cut by the end of the file. -/
  key_eq : read.record.key = (content.drop (offset + headerSize)).take header.keySize
  value_eq : read.record.value =
    (content.drop (offset + headerSize + header.keySize)).take header.valueSize
  /-- Of the checksums that do not fit a whole record three are refused. -/
  crc : offset + read.size ≤ content.length → header.crc = read.record.getCrc ∨
    (header.crc ≠ 0 ∧ header.crc ≠ 0xDEADBEEF ∧ header.crc ≠ 0x12345678)

section ReadsAs

variable {content : Bytes} {offset : ℕ} {header : LogRecordHeader} {headerSize : ℕ}
  {read : ReadLogRecord}

/-- A header is accepted if it is there as a whole and declares what may be. -/
theorem readLogRecordHeader_eq_ok_iff :
    readLogRecordHeader content offset = .ok (header, headerSize) ↔
      offset + 5 ≤ content.length ∧
      decodeLogRecordHeader ((content.drop offset).take maxLogRecordHeaderSize) =
        .ok (header, headerSize) ∧
      ¬(header.crc = 0 ∧ header.keySize = 0 ∧ header.valueSize = 0) ∧
      header.keySize ≤ maxRecordSize ∧ header.valueSize ≤ maxRecordSize ∧
      offset + headerSize ≤ content.length := by
  have hmax : maxLogRecordHeaderSize = 15 := rfl
  rw [readLogRecordHeader]
  by_cases h5 : offset + 5 ≤ content.length
  · have htake : (content.drop offset).take (min maxLogRecordHeaderSize (content.length - offset)) =
        (content.drop offset).take maxLogRecordHeaderSize := by
      rw [← List.length_drop, ← List.take_eq_take_min]
    rw [if_neg (by omega)]
    simp only [if_neg (by omega : ¬min maxLogRecordHeaderSize (content.length - offset) < 5)]
    rw [readNBytes_eq (.inr (by omega)), htake]
    constructor
    · intro h
      obtain ⟨headerBuf, hbuf, hheader⟩ := bind_eq_ok.1 h
      obtain rfl := Except.ok.inj hbuf
      obtain ⟨⟨header', headerSize'⟩, hdecode, hchecks⟩ := bind_eq_ok.1 hheader
      simp only at hchecks
      -- The checks are passed one after the other.
      split at hchecks
      · cases hchecks
      split at hchecks
      · cases hchecks
      split at hchecks
      · cases hchecks
      obtain ⟨rfl, rfl⟩ := Prod.mk.inj (Except.ok.inj hchecks)
      exact ⟨h5, hdecode, ‹_›, by omega, by omega, by omega⟩
    · rintro ⟨-, hdecode, hend, hkey, hvalue, hle⟩
      refine bind_eq_ok.2 ⟨_, rfl, bind_eq_ok.2 ⟨_, hdecode, ?_⟩⟩
      simp only
      rw [if_neg hend, if_neg (by omega), if_neg (by omega)]
  · rw [eq_false h5, false_and, iff_false]
    intro h
    split at h
    · cases h
    · simp only [if_pos (by omega : min maxLogRecordHeaderSize (content.length - offset) < 5)] at h
      cases h

/-- What is split is all of the key and value that there is. -/
theorem splitKeyValue_take (header : LogRecordHeader) (rest : Bytes) :
    splitKeyValue header (rest.take (header.keySize + header.valueSize)) =
      { key := rest.take header.keySize
        value := (rest.drop header.keySize).take header.valueSize
        type := header.type } := by
  rcases Nat.le_total header.keySize rest.length with h | h
  · have hmin : min header.keySize (min (header.keySize + header.valueSize) rest.length) =
        header.keySize := by omega
    rw [splitKeyValue, List.length_take, hmin, List.take_take, List.drop_take, List.take_take]
    simp
  · have hmin : min header.keySize (min (header.keySize + header.valueSize) rest.length) =
        rest.length := by omega
    rw [splitKeyValue, List.length_take, hmin, List.take_of_length_le h, List.drop_of_length_le h,
      List.take_of_length_le (by omega : rest.length ≤ header.keySize + header.valueSize),
      List.take_length, List.drop_length]

/-- A checksum is accepted if it fits, or if it is none of three values. -/
theorem checkCRC_eq_true_iff {record : LogRecord} :
    checkCRC header record = true ↔
      (record.key.length = header.keySize ∧ record.value.length = header.valueSize →
        header.crc = record.getCrc ∨
          (header.crc ≠ 0 ∧ header.crc ≠ 0xDEADBEEF ∧ header.crc ≠ 0x12345678)) := by
  rw [checkCRC]
  split
  · simp only [*, and_self, forall_const]
    by_cases hcrc : header.crc = record.getCrc
    · simp [hcrc]
    · have hne : record.getCrc ≠ header.crc := Ne.symm hcrc
      by_cases h0 : header.crc = 0
      · rw [h0] at hne
        simp [h0, hne, hne.symm]
      · simp [hcrc, hne, h0]
  · simp [*]

/-- A read declares as many bytes as there are just if it has got all of its key and
    value. -/
theorem whole_iff (header : LogRecordHeader) {rest : Bytes} (hle : offset + headerSize ≤ content.length)
    (hrest : content.drop (offset + headerSize) = rest) :
    (rest.take header.keySize).length = header.keySize ∧
        ((rest.drop header.keySize).take header.valueSize).length = header.valueSize ↔
      offset + (headerSize + header.keySize + header.valueSize) ≤ content.length := by
  have hlen := congrArg List.length hrest
  rw [List.length_drop] at hlen
  rw [List.length_take, List.length_take, List.length_drop]
  omega

/-- A record is returned exactly where one is read. -/
theorem readLogRecord_eq_ok_iff :
    readLogRecord content offset = .ok read ↔
      ∃ header headerSize, ReadsAs content offset header headerSize read := by
  have hkv (header : LogRecordHeader) (headerSize : ℕ)
      (hle : header.keySize + header.valueSize = 0 ∨ offset + headerSize < content.length) :
      readNBytes content (header.keySize + header.valueSize) (offset + headerSize) =
        .ok ((content.drop (offset + headerSize)).take (header.keySize + header.valueSize)) :=
    readNBytes_eq hle
  rw [readLogRecord]
  constructor
  · intro h
    obtain ⟨⟨header, headerSize⟩, hheader, hbody⟩ := bind_eq_ok.1 h
    obtain ⟨kvBuf, hbuf, hrecord⟩ := bind_eq_ok.1 hbody
    obtain ⟨h5, hdecode, hend, hkey, hvalue, hle⟩ := readLogRecordHeader_eq_ok_iff.1 hheader
    have havailable : header.keySize + header.valueSize = 0 ∨
        offset + headerSize < content.length := by
      by_contra hnone
      push Not at hnone
      rw [readNBytes, if_neg hnone.1, if_pos hnone.2] at hbuf
      cases hbuf
    obtain rfl := Except.ok.inj ((hkv header headerSize havailable).symm.trans hbuf)
    rw [splitKeyValue_take, List.drop_drop] at hrecord
    simp only at hrecord
    split at hrecord
    · obtain rfl := Except.ok.inj hrecord
      refine ⟨header, headerSize, h5, hdecode, hend, hkey, hvalue, hle, havailable, rfl, rfl, rfl,
        rfl, fun hwhole => ?_⟩
      refine checkCRC_eq_true_iff.1 ‹_› ?_
      have := (whole_iff header hle rfl).2 hwhole
      rwa [List.drop_drop] at this
    · cases hrecord
  · rintro ⟨header, headerSize, h5, hdecode, hend, hkey, hvalue, hle, havailable, hsize, htype,
      hrkey, hrvalue, hcrc⟩
    refine bind_eq_ok.2 ⟨(header, headerSize),
      readLogRecordHeader_eq_ok_iff.2 ⟨h5, hdecode, hend, hkey, hvalue, hle⟩,
      bind_eq_ok.2 ⟨_, hkv header headerSize havailable, ?_⟩⟩
    obtain ⟨⟨key, value, type⟩, size⟩ := read
    dsimp only at hsize htype hrkey hrvalue hcrc
    subst hsize htype hrkey hrvalue
    rw [splitKeyValue_take, List.drop_drop]
    refine if_pos (checkCRC_eq_true_iff.2 fun hwhole => hcrc ?_)
    refine (whole_iff header hle rfl).1 ?_
    rwa [List.drop_drop]

/-! ## The sizes of reads -/

theorem seven_le_of_decodeLogRecordHeader {data : Bytes} {x : LogRecordHeader × ℕ}
    (h : decodeLogRecordHeader data = .ok x) : 7 ≤ x.2 := by
  unfold decodeLogRecordHeader at h
  split at h
  · cases h
  · obtain ⟨keySize, hkey, h⟩ := bind_eq_ok.1 h
    obtain ⟨valueSize, hvalue, h⟩ := bind_eq_ok.1 h
    obtain rfl := Except.ok.inj h
    have hkey := (lt_of_decodeVarint hkey).1
    have hvalue := (lt_of_decodeVarint hvalue).1
    show 7 ≤ 5 + _ + _
    omega

/-- A record that is read starts in the file, takes at least seven bytes, and does
    not reach far behind the file. -/
theorem readLogRecord_bounds (h : readLogRecord content offset = .ok read) :
    offset < content.length ∧ 7 ≤ read.size ∧
      offset + read.size ≤ content.length + 2 * maxRecordSize := by
  obtain ⟨⟨header, headerSize⟩, hheader, h⟩ := bind_eq_ok.1 h
  obtain ⟨kvBuf, -, h⟩ := bind_eq_ok.1 h
  obtain ⟨h5, hdecode, -, hkey, hvalue, hle⟩ := readLogRecordHeader_eq_ok_iff.1 hheader
  have hsize := seven_le_of_decodeLogRecordHeader hdecode
  simp only at h hsize
  split at h
  · obtain rfl := Except.ok.inj h
    refine ⟨by omega, ?_, ?_⟩
    · show 7 ≤ headerSize + _ + _
      omega
    · show offset + (headerSize + _ + _) ≤ _
      omega
  · cases h

/-- Only at an offset in the file something else is thrown than that it ends. -/
theorem lt_of_readLogRecord_error {e : Exn} (h : readLogRecord content offset = .error e)
    (hne : e ≠ .readDataFileEOF) : offset < content.length := by
  by_contra hge
  rw [readLogRecord_eof (by omega)] at h
  exact hne (Except.error.inj h).symm

end ReadsAs

/-- The type of a record is the fifth byte of its encoding. -/
theorem type_of_readLogRecord {record : LogRecord} {content rest : Bytes} {offset : ℕ}
    {read : ReadLogRecord} (h : readLogRecord content offset = .ok read)
    (hdrop : content.drop offset = record.encode ++ rest) : read.record.type = record.type := by
  obtain ⟨header, headerSize, hread⟩ := readLogRecord_eq_ok_iff.1 h
  have hheader := hread.decoded
  rw [decodeLogRecordHeader] at hheader
  split at hheader
  · cases hheader
  · obtain ⟨⟨keySize, keyLen⟩, -, hheader⟩ := bind_eq_ok.1 hheader
    obtain ⟨⟨valueSize, valueLen⟩, -, hheader⟩ := bind_eq_ok.1 hheader
    obtain ⟨rfl, -⟩ := Prod.mk.inj (Except.ok.inj hheader)
    have hencode : record.encode = LittleEndian.encode 4 record.getCrc.toNat ++ record.body := rfl
    have hbyte : ((content.drop offset).take maxLogRecordHeaderSize).getD 4 0 =
        record.type.toByte := by
      have hcrc := LittleEndian.length_encode 4 record.getCrc.toNat
      rw [hdrop, hencode, List.getD_eq_getElem?_getD, List.getElem?_take_of_lt (by decide),
        List.append_assoc, List.getElem?_append_right (by omega), hcrc]
      rfl
    rw [hread.type_eq]
    exact congrArg LogRecordType.mk hbyte

/-- What has been read is encoded under a key that is not longer in the bytes it has been
    read from. -/
theorem length_encode_le_of_read {content : Bytes} {offset : ℕ} {read : ReadLogRecord}
    {key : Bytes} (h : readLogRecord content offset = .ok read)
    (hkey : key.length ≤ read.record.key.length) :
    ({ read.record with key := key } : LogRecord).encode.length ≤ read.size ∧
      offset + ({ read.record with key := key } : LogRecord).encode.length ≤ content.length := by
  obtain ⟨header, headerSize, hread⟩ := readLogRecord_eq_ok_iff.1 h
  have hkeyLength := congrArg List.length hread.key_eq
  have hvalueLength := congrArg List.length hread.value_eq
  rw [List.length_take, List.length_drop] at hkeyLength hvalueLength
  obtain ⟨-, -, hsize⟩ := decodeLogRecordHeader_bounds hread.decoded
  have hheader := hsize key.length (by omega) read.record.value.length (by omega)
  have hle := hread.header_le
  have hlength := LogRecord.length_encode { read.record with key := key }
  rw [LogRecord.headerSize] at hlength
  rw [hlength, hread.size_eq]
  dsimp only
  omega

/-- The record of a key and a value of one byte each, its checksum replaced. -/
def wrongCRC : Bytes := [1, 0, 0, 0, 1, 1, 1, 107, 118]

/-- Bytes whose checksum is wrong are returned as a record, and so are cut ones. -/
theorem not_forall_readLogRecord_whole :
    ¬∀ (content : Bytes) (offset : ℕ) (read : ReadLogRecord),
      readLogRecord content offset = .ok read →
        offset + read.size ≤ content.length ∧
          LittleEndian.decode ((content.drop offset).take 4) =
            (Crc32c.crc32c ((content.drop (offset + 4)).take (read.size - 4))).toNat := by
  intro h
  have hread : readLogRecord wrongCRC 0 = .ok ⟨⟨[107], [118], .normal⟩, 9⟩ := by decide +kernel
  have hcrc := (h wrongCRC 0 _ hread).2
  revert hcrc
  decide +kernel

end Bitcask
