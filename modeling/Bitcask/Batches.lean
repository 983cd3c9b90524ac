import Bitcask.ShortWrites
import Bitcask.SkipList

/-!
# Batches and single writes

Committing a batch of some writes, or making them one by one. Either way the index gets
the same keys, and what is read of a key is determined by the last write of it
(`Answers`): in a batch its record is stored with a sequence number behind the key, which
makes a difference only for keys that thereby exceed what is read back
(`DB.commit_eq_writeAll_iff`).
-/

namespace Bitcask

open Framing Transaction DataFile DBM Guarantee Proc

/-! ## Reading records wherever they are -/

section Encoded

variable {content rest : Bytes} {offset : ℕ} {record : LogRecord}

/-- What is read of a header does not depend on where the record is. -/
theorem readLogRecordHeader_encode (h : content.drop offset = record.encode ++ rest) :
    readLogRecordHeader content offset =
      (decodeLogRecordHeader (record.header.take maxLogRecordHeaderSize) >>= fun x =>
        if x.1.crc = 0 ∧ x.1.keySize = 0 ∧ x.1.valueSize = 0 then .error .readDataFileEOF
        else if maxRecordSize < x.1.keySize ∨ maxRecordSize < x.1.valueSize then
          .error (.bitcask "Record size too large, data may be corrupted")
        else .ok x) := by
  have hmax : maxLogRecordHeaderSize = 15 := rfl
  have hseven := record.seven_le_headerSize
  rw [LogRecord.encode_eq, List.append_assoc] at h
  have hlen := congrArg List.length h
  rw [List.length_drop, List.length_append, LogRecord.length_header] at hlen
  set window := min maxLogRecordHeaderSize (content.length - offset) with hwindow
  have hdecode : decodeLogRecordHeader ((content.drop offset).take window) =
      decodeLogRecordHeader (record.header.take maxLogRecordHeaderSize) := by
    rcases Nat.lt_or_ge maxLogRecordHeaderSize record.headerSize with hlong | hshort
    · have hfull : window = maxLogRecordHeaderSize := by omega
      rw [h, hfull, List.take_append_of_le_length (by rw [LogRecord.length_header]; omega)]
    · have hheader := decodeLogRecordHeader_header record []
      rw [List.append_nil] at hheader
      have hall : record.header.take maxLogRecordHeaderSize = record.header :=
        List.take_of_length_le (by rw [LogRecord.length_header]; exact hshort)
      rw [h, List.take_append, LogRecord.length_header,
        List.take_of_length_le (by rw [LogRecord.length_header]; omega), hall, hheader,
        decodeLogRecordHeader_header]
  rw [readLogRecordHeader, if_neg (by omega)]
  simp only [← hwindow]
  rw [if_neg (by omega), readNBytes_eq (.inr (by omega))]
  simp only [bind, Except.bind, hdecode]
  cases hx : decodeLogRecordHeader (record.header.take maxLogRecordHeaderSize) with
  | error e => rfl
  | ok x =>
    have hsize := (decodeLogRecordHeader_bounds (show _ = Except.ok (x.1, x.2) from hx)).1
    rw [List.length_take, LogRecord.length_header] at hsize
    simp only [if_neg (by omega : ¬content.length < offset + x.2)]

/-- The bytes of a record are found where it is. -/
theorem take_drop_encode (h : content.drop offset = record.encode ++ rest) {n m : ℕ}
    (hle : n + m ≤ record.encode.length) :
    (content.drop (offset + n)).take m = (record.encode.drop n).take m := by
  rw [← List.drop_drop, h, List.drop_append_of_le_length (by omega),
    List.take_append_of_le_length (by rw [List.length_drop]; omega)]

/-- What is read of a record does not depend on where it is. -/
theorem readLogRecord_encode_congr (h : content.drop offset = record.encode ++ rest) :
    readLogRecord content offset = readLogRecord record.encode 0 := by
  have hself : record.encode.drop 0 = record.encode ++ [] := (List.append_nil _).symm
  have hkey : record.decodedHeader.keySize ≤ record.key.length :=
    (Nat.mod_le _ _).trans (Nat.mod_le _ _)
  have hvalue : record.decodedHeader.valueSize ≤ record.value.length :=
    (Nat.mod_le _ _).trans (Nat.mod_le _ _)
  have hlen := record.length_encode
  have hend : offset + record.encode.length ≤ content.length := by
    have := congrArg List.length h
    rw [List.length_drop, List.length_append] at this
    have := record.length_encode_pos
    omega
  have hbuf : readNBytes content (record.decodedHeader.keySize + record.decodedHeader.valueSize)
        (offset + record.headerSize) =
      readNBytes record.encode (record.decodedHeader.keySize + record.decodedHeader.valueSize)
        (0 + record.headerSize) := by
    rw [Nat.zero_add]
    rcases Nat.eq_zero_or_pos (record.decodedHeader.keySize + record.decodedHeader.valueSize)
      with hzero | hpos
    · rw [readNBytes_eq (.inl hzero), readNBytes_eq (.inl hzero), hzero, List.take_zero,
        List.take_zero]
    · rw [readNBytes_eq (.inr (by omega)), readNBytes_eq (.inr (by omega)),
        take_drop_encode h (by omega)]
  rw [readLogRecord, readLogRecord, readLogRecordHeader_encode h, readLogRecordHeader_encode hself]
  cases hx : decodeLogRecordHeader (record.header.take maxLogRecordHeaderSize) with
  | error e => rfl
  | ok x =>
    have hheader := hx
    rw [← List.append_nil record.header] at hheader
    obtain ⟨rfl, rfl⟩ : x = (record.decodedHeader, record.headerSize) :=
      decodeLogRecordHeader_take hheader
    simp only [bind, Except.bind]
    by_cases hzero : record.decodedHeader.crc = 0 ∧ record.decodedHeader.keySize = 0 ∧
      record.decodedHeader.valueSize = 0
    · simp only [if_pos hzero]
    · by_cases hlarge : maxRecordSize < record.decodedHeader.keySize ∨
        maxRecordSize < record.decodedHeader.valueSize
      · simp only [if_neg hzero, if_pos hlarge]
      · simp only [if_neg hzero, if_neg hlarge, hbuf]

/-- Up to four gigabytes, whether a record is read depends on the sizes of its key and
    value. -/
theorem readValue_encode_of_lt (hkey : record.key ≠ []) (hkeySize : record.key.length < 2 ^ 32)
    (hvalueSize : record.value.length < 2 ^ 32) (htype : record.type = .normal) :
    readValue record.encode 0 =
      if record.key.length ≤ maxRecordSize ∧ record.value.length ≤ maxRecordSize then
        .ok record.value
      else .error (.bitcask "Record size too large, data may be corrupted") := by
  have hself : record.encode.drop 0 = record.encode ++ [] := (List.append_nil _).symm
  have hkeyPos := List.length_pos_iff.2 hkey
  split
  · rename_i hle
    rw [readValue, readLogRecord_encode (LogRecord.readable_of_le hle.1 hle.2 (.inl htype)) hself]
    show (if record.type = .deleted then _ else _) = _
    rw [htype]
    rfl
  · rename_i hlarge
    have hdecoded : record.decodedHeader.keySize = record.key.length ∧
        record.decodedHeader.valueSize = record.value.length := by
      rw [LogRecord.decodedHeader, Nat.mod_eq_of_lt (hkeySize.trans (by decide)),
        Nat.mod_eq_of_lt hkeySize, Nat.mod_eq_of_lt (hvalueSize.trans (by decide)),
        Nat.mod_eq_of_lt hvalueSize]
      exact ⟨rfl, rfl⟩
    have hheaderSize : record.headerSize ≤ maxLogRecordHeaderSize := by
      have h1 := length_encodeVarint_le_of_lt (n := 5) (by decide)
        (hkeySize.trans (by decide : 2 ^ 32 < 2 ^ (7 * 5)))
      have h2 := length_encodeVarint_le_of_lt (n := 5) (by decide)
        (hvalueSize.trans (by decide : 2 ^ 32 < 2 ^ (7 * 5)))
      show 5 + _ + _ ≤ 15
      omega
    have hheader := decodeLogRecordHeader_header record []
    rw [List.append_nil] at hheader
    rw [readValue, readLogRecord, readLogRecordHeader_encode hself,
      List.take_of_length_le (by rw [LogRecord.length_header]; exact hheaderSize), hheader]
    simp only [bind, Except.bind]
    rw [if_neg (by rintro ⟨-, hzero, -⟩; omega), if_pos (by omega)]

end Encoded

/-! ## Lists of writes -/

/-- The record of a write. -/
def Write.toRecord (w : Write) : LogRecord :=
  match w.2 with
  | some value => { key := w.1, value := value, type := .normal }
  | none => { key := w.1, type := .deleted }

theorem Write.toWrite_toRecord (w : Write) : (Write.toRecord w).toWrite = w := by
  obtain ⟨k, v⟩ := w
  cases v <;> rfl

/-- Adds a write to a batch. -/
def WriteBatch.addWrite (batch : WriteBatch) (w : Write) : Except Exn WriteBatch :=
  match w.2 with
  | some value => batch.put w.1 value
  | none => batch.remove w.1

/-- Adds some writes to a batch. -/
def WriteBatch.addAll (batch : WriteBatch) : List Write → Except Exn WriteBatch
  | [] => .ok batch
  | w :: ws => do (← batch.addWrite w).addAll ws

/-- Makes a write. -/
def DB.write {ι : Type} [Indexer ι] (w : Write) : DBM ι Unit :=
  match w.2 with
  | some value => DB.put w.1 value
  | none => DB.remove w.1

/-- Makes some writes one by one. -/
def DB.writeAll {ι : Type} [Indexer ι] : List Write → DBM ι Unit
  | [] => return
  | w :: ws => do
    DB.write w
    DB.writeAll ws

theorem WriteBatch.addWrite_eq_ok {batch batch' : WriteBatch} {w : Write}
    (h : batch.addWrite w = .ok batch') :
    w.1 ≠ [] ∧ batch'.pendingWrites = batch.pendingWrites ++ [Write.toRecord w] ∧
      batch'.seqNo = batch.seqNo := by
  obtain ⟨k, v⟩ := w
  have hadd (record : LogRecord) (htype : record.type = .normal ∨ record.type = .deleted)
      (h : batch.add record htype = .ok batch') : record.key ≠ [] ∧
        batch'.pendingWrites = batch.pendingWrites ++ [record] ∧ batch'.seqNo = batch.seqNo := by
    unfold add at h
    split at h
    · cases h
    · split at h
      · cases h
      · obtain rfl := Except.ok.inj h
        exact ⟨‹_›, rfl, rfl⟩
  cases v with
  | some value => exact hadd _ (.inl rfl) h
  | none => exact hadd _ (.inr rfl) h

/-- The writes of a batch are those that have been added. -/
theorem WriteBatch.addAll_eq_ok {batch batch' : WriteBatch} {writes : List Write}
    (h : batch.addAll writes = .ok batch') :
    (∀ w ∈ writes, w.1 ≠ []) ∧
      batch'.pendingWrites = batch.pendingWrites ++ writes.map Write.toRecord ∧
      batch'.seqNo = batch.seqNo := by
  induction writes generalizing batch with
  | nil =>
    obtain rfl := Except.ok.inj h
    exact ⟨List.forall_mem_nil _, by rw [List.map_nil, List.append_nil], rfl⟩
  | cons w ws ih =>
    obtain ⟨next, hnext, h⟩ := bind_eq_ok.1 h
    obtain ⟨hkey, hpending, hseqNo⟩ := addWrite_eq_ok hnext
    obtain ⟨hkeys, hpending', hseqNo'⟩ := ih h
    refine ⟨List.forall_mem_cons.2 ⟨hkey, hkeys⟩, ?_, hseqNo'.trans hseqNo⟩
    rw [hpending', hpending, List.append_assoc]
    rfl

/-- The last write of a key. -/
def lastWrite (writes : List Write) (k : Bytes) : Option (Option Bytes) :=
  (writes.reverse.find? fun w => w.1 = k).map Prod.snd

theorem lastWrite_append (ws vs : List Write) (k : Bytes) :
    lastWrite (ws ++ vs) k = (lastWrite vs k).or (lastWrite ws k) := by
  rw [lastWrite, List.reverse_append, List.find?_append, Option.map_or]
  rfl

theorem lastWrite_singleton (w : Write) (k : Bytes) :
    lastWrite [w] k = if w.1 = k then some w.2 else none := by
  rw [lastWrite, List.reverse_singleton, List.find?_singleton]
  by_cases h : w.1 = k <;> simp [h]

theorem lastWrite_eq_none {writes : List Write} {k : Bytes} (h : ∀ w ∈ writes, w.1 ≠ k) :
    lastWrite writes k = none := by
  rw [lastWrite, Option.map_eq_none_iff, List.find?_eq_none]
  intro w hw
  simpa using h w (List.mem_reverse.1 hw)

theorem lastWrite_of_last {as bs : List Write} {w : Write} (h : ∀ later ∈ bs, later.1 ≠ w.1) :
    lastWrite (as ++ w :: bs) w.1 = some w.2 := by
  have hsplit : w :: bs = [w] ++ bs := rfl
  rw [lastWrite_append, hsplit, lastWrite_append, lastWrite_eq_none h, lastWrite_singleton,
    if_pos rfl]
  rfl

/-! ## Databases that store what they are given -/

variable {ι : Type}

/-- If no write fails, all of each record is stored. -/
theorem storeAll_of_ok {outcomes : List Outcome} (h : ∀ o ∈ outcomes, o = .ok)
    (records : List LogRecord) : storeAll outcomes records = (records.map LogRecord.encode, true) := by
  induction records generalizing outcomes with
  | nil => rfl
  | cons record records ih =>
    have hhead : outcomes.headD .ok = .ok := by
      cases outcomes with
      | nil => rfl
      | cons o os => exact h o List.mem_cons_self
    have hpart : (outcomes.headD .ok).stored record.encode = some record.encode := by
      rw [hhead]
      rfl
    rw [storeAll_of_some hpart, ih fun o ho => h o (List.mem_of_mem_tail ho)]
    rfl

/-- The file written to is there after a write. -/
theorem Proc.Appended.hasFile {p q : Proc ι} {parts : List Bytes}
    (h : Appended p.db.writer parts p.started q) (hfile : p.HasFile) : q.HasFile := by
  intro file hactive
  obtain ⟨c, hc⟩ := hfile.exists
  rw [h.activeFile] at hactive
  obtain rfl := Option.some.inj hactive
  rw [FS.fileExists_iff]
  rcases eq_or_ne parts [] with hnil | hne
  · exact ⟨c, by rw [h.fs_eq hnil]; exact hc⟩
  · exact ⟨_, h.content hne c hc⟩

/-- What lies in front of a bound lies there whatever is written behind it. -/
theorem LiesBefore.mono {content content' : Bytes} {bound bound' offset : ℕ}
    (h : LiesBefore content bound offset) (hle : bound ≤ bound') (hbound : bound ≤ content.length)
    (htake : content'.take bound = content.take bound) : LiesBefore content' bound' offset := by
  have hheader := readLogRecordHeader_congr h hbound htake
  unfold LiesBefore at h ⊢
  rw [hheader]
  split at h <;> exact h.trans hle

variable [Indexer ι]

/-- A database that writes without errors and finds what it has written. -/
structure Proc.Calm (p : Proc ι) : Prop where
  canStart : p.CanStart
  hasFile : p.HasFile
  settled : p.Settled
  outcomes : ∀ o ∈ p.outcomes, o = .ok

section Calm

variable {p q : Proc ι} {seqNo : ℕ} {items records front back as bs : List LogRecord}
  {item record : LogRecord}

/-- A record is found where it has been written. -/
theorem Proc.Calm.drop_contentAfter (hp : p.Calm) (hrecords : records = front ++ record :: back) :
    ∃ rest, (p.contentAfter records).drop (p.offsetOf records front.length) =
      record.encode ++ rest := by
  obtain ⟨rest, hrest⟩ := p.drop_contentAfter records front.length
  rw [hrest, storeAll_of_ok hp.outcomes, hrecords, List.map_append,
    List.drop_left' (List.length_map _), List.map_cons, List.flatten_cons, List.append_assoc]
  exact ⟨_, rfl⟩

/-- Records end in front of the write offset there is once they have been written. -/
theorem Proc.Calm.offsetOf_add_le (hp : p.Calm) (hrecords : records = front ++ record :: back) :
    p.offsetOf records front.length + record.encode.length ≤
      p.db.writer.writeOff + (storeAll p.outcomes records).1.flatten.length := by
  rw [Proc.offsetOf, storeAll_of_ok hp.outcomes, hrecords, List.map_append,
    List.take_left' (List.length_map _), List.flatten_append, List.map_cons, List.flatten_cons,
    List.length_append, List.length_append]
  omega

/-- A record of a batch is one of those that are written for it. -/
theorem exists_split_records (hrecords : items.map (WriteBatch.withSeq seqNo) <+: records)
    (hsplit : items = as ++ item :: bs) : ∃ front back, front.length = as.length ∧
      records = front ++ WriteBatch.withSeq seqNo item :: back := by
  obtain ⟨more, rfl⟩ := hrecords
  refine ⟨as.map (WriteBatch.withSeq seqNo), bs.map (WriteBatch.withSeq seqNo) ++ more,
    List.length_map _, ?_⟩
  rw [hsplit, List.map_append, List.map_cons, List.append_assoc, List.cons_append]

/-- A settled database stays settled if all of what it writes is stored. -/
theorem Written.settled (h : Written p seqNo items (storeAll p.outcomes records).1 q) (hp : p.Calm)
    (hitems : ∀ item ∈ items, item.IsWrite)
    (hrecords : items.map (WriteBatch.withSeq seqNo) <+: records) : q.Settled := by
  obtain ⟨c, hc⟩ := hp.hasFile.exists
  have hqWriter : q.db.writer = { p.db.writer with
      writeOff := p.db.writer.writeOff + (storeAll p.outcomes records).1.flatten.length } := by
    rw [DB.writer, h.appended.activeFile]
    rfl
  rw [Proc.Settled, started_of_some h.appended.activeFile, hqWriter]
  intro k pos f hpos hf hpath
  have hbehind := p.db.writer.writtenBehind (storeAll p.outcomes records).1.flatten c
  by_cases hk : ∃ item ∈ items, item.key = k
  · obtain ⟨as, item, bs, hsplit, rfl, hlast⟩ := exists_last_write hk
    obtain ⟨front, back, hlen, hfront⟩ := exists_split_records hrecords hsplit
    have hle := h.length_le
    rw [hsplit, List.length_append, List.length_cons] at hle
    have hindex := congrFun h.index item.key
    rw [hsplit, overlay_indexWritesAt (by omega) hlast, hpos] at hindex
    have htype : item.type = .normal := by
      rcases (hitems item (by rw [hsplit]; simp)).type_eq with htype | htype
      · exact htype
      · rw [htype] at hindex
        cases hindex
    rw [htype] at hindex
    obtain rfl := Option.some.inj hindex
    obtain ⟨rest, hrest⟩ := hp.drop_contentAfter hfront
    have hend := hp.offsetOf_add_le hfront
    have hne : (storeAll p.outcomes records).1 ≠ [] := List.ne_nil_of_length_pos (by omega)
    have hcontent : f.content q.world.fs = p.contentAfter records := by
      rw [Proc.contentAfter, content_eq_of_file? hc]
      exact content_eq_of_file? (by rw [hpath]; exact h.appended.content hne c hc)
    have hlong : p.db.writer.writeOff + (storeAll p.outcomes records).1.flatten.length ≤
        (p.contentAfter records).length := by
      have hpart := (WriteBatch.withSeq seqNo item).length_encode_pos
      rw [Proc.contentAfter, content_eq_of_file? hc]
      refine hbehind.end_le fun hnil => ?_
      rw [hnil, Proc.offsetOf, List.length_nil] at hend
      omega
    rw [hcontent]
    rw [hlen] at hrest hend
    exact liesBefore_encode hrest (.inl htype) (le_min hend (hend.trans hlong))
  · have hindex := congrFun h.index k
    rw [overlay_of_not_mem, hpos] at hindex
    · have hmap := h.appended.map_path_fileOf pos.fid
      rw [hf] at hmap
      obtain ⟨f', hf', hpath'⟩ := Option.map_eq_some_iff.1 hmap.symm
      have hlies := hp.settled k pos f' hindex.symm hf' (hpath'.trans hpath)
      rw [content_eq_of_file? (by rw [hpath', hpath]; exact hc)] at hlies
      rcases eq_or_ne (storeAll p.outcomes records).1 [] with hnil | hne
      · rw [hnil, h.appended.fs_eq hnil, content_eq_of_file? (by rw [hpath]; exact hc)]
        exact hlies
      · rw [content_eq_of_file? (by rw [hpath]; exact h.appended.content hne c hc)]
        refine hlies.mono ?_ (Nat.min_le_right _ _) hbehind.take_eq
        have := hbehind.length_le
        simp only
        omega
    · intro w hw
      obtain ⟨item, hitem, hkey⟩ := key_of_mem_indexWritesAt hw
      rintro rfl
      exact hk ⟨item, hitem, hkey⟩

/-- What some writes answer afterwards, whose records are stored under a sequence number:
    which keys are there and what is read of them is what the last write of each says. -/
structure Answers (p : Proc ι) (seqNo : ℕ) (writes : List Write) (q : Proc ι) : Prop where
  isSome (k : Bytes) : (Indexer.get q.db.index k).isSome =
    (lastWrite writes k).elim (Indexer.get p.db.index k).isSome Option.isSome
  get (k : Bytes) : q.db.get q.world.fs k =
    (lastWrite writes k).elim (p.db.get p.world.fs k) fun v =>
      v.elim (.error .keyNotFound) fun value =>
        readValue (LogRecord.encode ⟨logRecordKeyWithSeq k seqNo, value, .normal⟩) 0

theorem Answers.nil (p : Proc ι) (seqNo : ℕ) : Answers p seqNo [] p := ⟨fun _ => rfl, fun _ => rfl⟩

theorem Answers.append {r : Proc ι} {ws vs : List Write} (h : Answers p seqNo ws q)
    (h' : Answers q seqNo vs r) : Answers p seqNo (ws ++ vs) r where
  isSome k := by
    rw [h'.isSome, h.isSome, lastWrite_append]
    cases lastWrite vs k <;> rfl
  get k := by
    rw [h'.get, h.get, lastWrite_append]
    cases lastWrite vs k <;> rfl

/-- Of a key that is absent, removing it answers what it did before. -/
theorem Answers.remove_of_absent {k : Bytes} (hk : k ≠ [])
    (habsent : Indexer.get p.db.index k = none) : Answers p seqNo [(k, none)] p where
  isSome k' := by
    rw [lastWrite_singleton]
    split
    · rename_i heq
      obtain rfl : k = k' := heq
      rw [habsent]
      rfl
    · rfl
  get k' := by
    rw [lastWrite_singleton]
    split
    · rename_i heq
      obtain rfl : k = k' := heq
      rw [DB.get, if_neg hk, habsent]
      rfl
    · rfl

/-- What is answered once the records of some writes have been stored. -/
theorem Written.answers (h : Written p seqNo items (storeAll p.outcomes records).1 q) (hp : p.Calm)
    (hitems : ∀ item ∈ items, item.IsWrite)
    (hrecords : items.map (WriteBatch.withSeq seqNo) <+: records) :
    Answers p seqNo (items.map LogRecord.toWrite) q := by
  have hwritten {as bs : List LogRecord} {item : LogRecord} (hsplit : items = as ++ item :: bs)
      (hlast : ∀ later ∈ bs, later.key ≠ item.key) :
      lastWrite (items.map LogRecord.toWrite) item.key = some item.toWrite.2 := by
    rw [hsplit, List.map_append, List.map_cons]
    refine lastWrite_of_last fun w hw => ?_
    obtain ⟨later, hlater, rfl⟩ := List.mem_map.1 hw
    exact hlast later hlater
  have hother {k : Bytes} (hk : ¬∃ item ∈ items, item.key = k) :
      lastWrite (items.map LogRecord.toWrite) k = none ∧
        Indexer.get q.db.index k = Indexer.get p.db.index k := by
    refine ⟨lastWrite_eq_none fun w hw => ?_, ?_⟩
    · obtain ⟨item, hitem, rfl⟩ := List.mem_map.1 hw
      exact fun hkey => hk ⟨item, hitem, hkey⟩
    · rw [h.index, overlay_of_not_mem]
      intro w hw
      obtain ⟨item, hitem, hkey⟩ := key_of_mem_indexWritesAt hw
      rintro rfl
      exact hk ⟨item, hitem, hkey⟩
  refine ⟨fun k => ?_, fun k => ?_⟩ <;> by_cases hk : ∃ item ∈ items, item.key = k
  · obtain ⟨as, item, bs, hsplit, rfl, hlast⟩ := exists_last_write hk
    have hle := h.length_le
    rw [hsplit, List.length_append, List.length_cons] at hle
    rw [hwritten hsplit hlast, h.index, hsplit, overlay_indexWritesAt (by omega) hlast]
    rcases (hitems item (by rw [hsplit]; simp)).type_eq with htype | htype <;>
      rw [LogRecord.toWrite, htype] <;> rfl
  · obtain ⟨hnone, hsame⟩ := hother hk
    rw [hnone, hsame]
    rfl
  · obtain ⟨as, item, bs, hsplit, rfl, hlast⟩ := exists_last_write hk
    obtain ⟨front, back, hlen, hfront⟩ := exists_split_records hrecords hsplit
    have hitem := hitems item (by rw [hsplit]; simp)
    have hget := (hsplit ▸ h).get_eq hp.hasFile hitem hlast
    obtain ⟨rest, hrest⟩ := hp.drop_contentAfter hfront
    rw [hwritten hsplit hlast, hget, ← hlen]
    rcases hitem.type_eq with htype | htype
    · have hrecord : WriteBatch.withSeq seqNo item =
          ⟨logRecordKeyWithSeq item.key seqNo, item.value, .normal⟩ := by
        rw [← htype]
        rfl
      rw [if_pos htype, readValue, readLogRecord_encode_congr hrest, ← readValue, hrecord,
        LogRecord.toWrite, htype]
      rfl
    · rw [LogRecord.toWrite, htype]
      rfl
  · obtain ⟨hnone, hsame⟩ := hother hk
    rw [hnone]
    exact hp.settled.get_eq h.appended hsame

end Calm

/-! ## Committing and writing one by one -/

section Runs

variable {p : Proc ι} {writes : List Write}

/-- Committing a batch. -/
theorem WriteBatch.commit_answers {batch : WriteBatch} (hp : p.Calm)
    (hfit : NoRotation p.db.options.dataFileSize p.db.writer.writeOff p.outcomes batch.records) :
    ∃ batch' q, batch.commit.run p = .ok batch' q ∧
      Answers p batch.seqNo (batch.pendingWrites.map LogRecord.toWrite) q := by
  rcases eq_or_ne batch.pendingWrites [] with hnil | hne
  · refine ⟨batch, p, ?_, ?_⟩
    · exact WriteBatch.commit_nil hnil p
    · rw [hnil]
      exact .nil p batch.seqNo
  · rcases commit_run hne hp.canStart hfit with ⟨-, q, hrun, hq⟩ | ⟨hfail, -⟩
    · exact ⟨_, q, hrun, hq.answers hp batch.isWrite (List.prefix_append _ _)⟩
    · rw [storeAll_of_ok hp.outcomes] at hfail
      cases hfail

/-- The records that are written for some writes made one by one, given which keys are
    there: nothing is written to remove a key that is not. -/
def directRecords : (Bytes → Bool) → List Write → List LogRecord
  | _, [] => []
  | present, w :: ws =>
    if w.2 = none ∧ present w.1 = false then directRecords present ws
    else Write.toRecord w :: directRecords (Function.update present w.1 w.2.isSome) ws

/-- Making one write, whose record is written. -/
theorem DB.write_run {w : Write} (hp : p.Calm) (hkey : w.1 ≠ [])
    (hpresent : ¬(w.2 = none ∧ (Indexer.get p.db.index w.1).isSome = false))
    (hfit : NoRotation p.db.options.dataFileSize p.db.writer.writeOff p.outcomes
      [Write.toRecord w]) :
    ∃ q, (DB.write w).run p = .ok () q ∧ Written p nonTransactionSeqNo [Write.toRecord w]
        (storeAll p.outcomes [Write.toRecord w]).1 q ∧
      q.world.outcomes (.write p.db.writer.path) = p.outcomes.tail := by
  have hstored : (storeAll p.outcomes [Write.toRecord w]).2 = true := by
    rw [storeAll_of_ok hp.outcomes]
  obtain ⟨k, v⟩ := w
  cases v with
  | some value =>
    rcases put_run hkey hp.canStart hfit with ⟨-, hrun⟩ | ⟨hfail, -⟩
    · exact hrun
    · exact absurd (hfail.symm.trans hstored) (by simp)
  | none =>
    have hsome : Indexer.get p.db.index k ≠ none := fun hnone =>
      hpresent ⟨rfl, by rw [hnone]; rfl⟩
    rcases remove_run hkey hsome hp.canStart hfit with ⟨-, hrun⟩ | ⟨hfail, -⟩
    · exact hrun
    · exact absurd (hfail.symm.trans hstored) (by simp)

theorem Write.isWrite_toRecord {w : Write} (hkey : w.1 ≠ []) : (Write.toRecord w).IsWrite := by
  obtain ⟨k, v⟩ := w
  cases v with
  | some value => exact ⟨hkey, .inl rfl⟩
  | none => exact ⟨hkey, .inr rfl⟩

/-- A database stays calm when it writes a record. -/
theorem Written.calm {q : Proc ι} {record : LogRecord}
    (h : Written p nonTransactionSeqNo [record] (storeAll p.outcomes [record]).1 q) (hp : p.Calm)
    (hrecord : record.IsWrite)
    (hout : q.world.outcomes (.write p.db.writer.path) = p.outcomes.tail) :
    q.Calm ∧ q.db.writer.writeOff =
      p.db.writer.writeOff + (storeAll p.outcomes [record]).1.flatten.length ∧
      q.outcomes = p.outcomes.tail := by
  have hwriter : q.db.writer = { p.db.writer with
      writeOff := p.db.writer.writeOff + (storeAll p.outcomes [record]).1.flatten.length } := by
    rw [DB.writer, h.appended.activeFile]
    rfl
  have houtcomes : q.outcomes = p.outcomes.tail := by rw [Proc.outcomes, hwriter, hout]
  refine ⟨⟨fun hnone => ?_, h.appended.hasFile hp.hasFile,
    h.settled hp (List.forall_mem_singleton.2 hrecord) List.prefix_rfl, fun o ho => ?_⟩,
    by rw [hwriter], houtcomes⟩
  · rw [h.appended.activeFile] at hnone
    cases hnone
  · rw [houtcomes] at ho
    exact hp.outcomes o (List.mem_of_mem_tail ho)

/-- Making some writes one by one: by induction on them, each leaves a database that
    writes without errors and finds what it has written. -/
theorem DB.writeAll_answers (hp : p.Calm) (hkeys : ∀ w ∈ writes, w.1 ≠ [])
    (hfit : NoRotation p.db.options.dataFileSize p.db.writer.writeOff p.outcomes
      (directRecords (fun k => (Indexer.get p.db.index k).isSome) writes)) :
    ∃ q, (DB.writeAll writes).run p = .ok () q ∧ Answers p nonTransactionSeqNo writes q := by
  induction writes generalizing p with
  | nil => exact ⟨p, rfl, .nil p _⟩
  | cons w ws ih =>
    obtain ⟨hkey, hrest⟩ := List.forall_mem_cons.1 hkeys
    rw [directRecords] at hfit
    split at hfit
    · -- A key that is not there is not removed.
      rename_i habsent
      obtain ⟨k, v⟩ := w
      obtain ⟨rfl, hisSome⟩ : v = none ∧ _ := habsent
      have hnone : Indexer.get p.db.index k = none := Option.not_isSome_iff_eq_none.1 (by
        rw [hisSome]
        simp)
      obtain ⟨q, hrun, hq⟩ := ih hp hrest hfit
      refine ⟨q, ?_, (Answers.remove_of_absent hkey hnone).append hq⟩
      rw [DB.writeAll]
      exact (bind_ok (remove_run_of_absent hkey hnone)).trans hrun
    · rename_i hpresent
      rw [← List.singleton_append, noRotation_append] at hfit
      obtain ⟨hfirst, hfit⟩ := hfit
      obtain ⟨q, hrun, hq, hout⟩ := DB.write_run hp hkey hpresent hfirst
      have hrecord := Write.isWrite_toRecord hkey
      obtain ⟨hcalm, hwriteOff, houtcomes⟩ := hq.calm hp hrecord hout
      have hanswers := hq.answers hp (List.forall_mem_singleton.2 hrecord) List.prefix_rfl
      rw [List.map_singleton, Write.toWrite_toRecord] at hanswers
      have hpresent' : (fun k => (Indexer.get q.db.index k).isSome) =
          Function.update (fun k => (Indexer.get p.db.index k).isSome) w.1 w.2.isSome := by
        funext k
        rw [hanswers.isSome, lastWrite_singleton, Function.update_apply]
        by_cases hk : k = w.1
        · rw [if_pos hk, if_pos hk.symm]
          rfl
        · rw [if_neg hk, if_neg (Ne.symm hk)]
          rfl
      obtain ⟨r, hrun', hr⟩ := ih hcalm hrest (by
        rw [hq.appended.options, hwriteOff, houtcomes, hpresent', ← List.drop_one]
        refine hfit ?_
        rw [storeAll_of_ok hp.outcomes])
      refine ⟨r, ?_, hanswers.append hr⟩
      rw [DB.writeAll]
      exact (bind_ok hrun).trans hrun'

end Runs

/-! ## The same answers -/

/-- An index that lists its keys in order. -/
class SortedIndexer (ι : Type) [Indexer ι] : Prop where
  sortedKeys (i : ι) : SortedKeys (Indexer.listKeys i)

instance : SortedIndexer BTreeIndex := ⟨fun _ => Std.TreeMap.ordered_keys⟩

instance : SortedIndexer ARTIndex := ⟨fun _ => Std.TreeMap.ordered_keys⟩

instance (levels : ℕ → ℕ → ℕ) : SortedIndexer (SkipListIndex levels) :=
  ⟨fun i => List.pairwise_map.2 <| i.ascending.imp fun h => by rwa [← compareKeys_eq_compare]⟩

namespace DB

/-- The keys of a database. -/
def listKeys (db : DB ι) : List Bytes := Indexer.listKeys db.index

/-- How many keys a database has, as `stat` tells. -/
def keyNum (db : DB ι) : ℕ := Indexer.size db.index % 2 ^ 32

end DB

/-- Databases with the same keys list them in the same way. -/
theorem listKeys_eq_of_isSome [SortedIndexer ι] {db db' : DB ι}
    (h : ∀ k, (Indexer.get db.index k).isSome = (Indexer.get db'.index k).isSome) :
    db.listKeys = db'.listKeys := by
  refine (SortedIndexer.sortedKeys db.index).eq_of_mem_iff (SortedIndexer.sortedKeys db'.index)
    fun k => ?_
  show k ∈ Indexer.listKeys db.index ↔ k ∈ Indexer.listKeys db'.index
  rw [Indexer.mem_listKeys, Indexer.mem_listKeys, h]

/-- What is read of a key is the same whether the record is written for a batch or alone. -/
def SameRead (seqNo : ℕ) (key value : Bytes) : Prop :=
  readValue (LogRecord.encode ⟨logRecordKeyWithSeq key seqNo, value, .normal⟩) 0 =
    readValue (LogRecord.encode ⟨key, value, .normal⟩) 0

/-- Only keys differ that can be read back, but not with a sequence number behind them. -/
theorem sameRead_iff {seqNo : ℕ} {key value : Bytes} (hkey : key ≠ [])
    (hkeySize : key.length + 8 < 2 ^ 32) (hvalueSize : value.length < 2 ^ 32) :
    SameRead seqNo key value ↔ ¬(seqNo ≠ nonTransactionSeqNo ∧ key.length ≤ maxRecordSize ∧
      maxRecordSize < key.length + 8 ∧ value.length ≤ maxRecordSize) := by
  rcases eq_or_ne seqNo nonTransactionSeqNo with rfl | hseqNo
  · exact iff_of_true rfl fun h => h.1 rfl
  have hstored : logRecordKeyWithSeq key seqNo = key ++ LittleEndian.encode 8 seqNo := if_neg hseqNo
  have hlen : (key ++ LittleEndian.encode 8 seqNo).length = key.length + 8 := by simp
  rw [SameRead, hstored, readValue_encode_of_lt (by simp [hkey]) (by simpa using hkeySize) hvalueSize rfl,
    readValue_encode_of_lt hkey (by simp only; omega) hvalueSize rfl]
  simp only [hlen]
  by_cases hvalue : value.length ≤ maxRecordSize
  · by_cases hsuffix : key.length + 8 ≤ maxRecordSize
    · rw [if_pos ⟨hsuffix, hvalue⟩, if_pos ⟨by omega, hvalue⟩]
      exact iff_of_true rfl fun h => by omega
    · rw [if_neg fun h => hsuffix h.1]
      by_cases hplain : key.length ≤ maxRecordSize
      · rw [if_pos ⟨hplain, hvalue⟩]
        exact iff_of_false (fun h => by cases h)
          fun h => h ⟨hseqNo, hplain, Nat.not_le.1 hsuffix, hvalue⟩
      · rw [if_neg fun h => hplain h.1]
        exact iff_of_true rfl fun h => hplain h.2.1
  · rw [if_neg fun h => hvalue h.2, if_neg fun h => hvalue h.2]
    exact iff_of_true rfl fun h => hvalue h.2.2.2

section Same

variable {p q q' : Proc ι} {seqNo : ℕ} {writes : List Write}

/-- What is read after the same writes, made in two ways, is the same just if that is so
    for the keys that are put. -/
theorem Answers.get_eq_iff (h : Answers p seqNo writes q)
    (h' : Answers p nonTransactionSeqNo writes q') :
    (∀ k, q.db.get q.world.fs k = q'.db.get q'.world.fs k) ↔
      ∀ k value, lastWrite writes k = some (some value) → SameRead seqNo k value := by
  constructor
  · intro hget k value hlast
    have hk := hget k
    rw [h.get, h'.get, hlast] at hk
    simp only [Option.elim_some] at hk
    exact hk
  · intro hread k
    rw [h.get, h'.get]
    cases hlast : lastWrite writes k with
    | none => simp only [Option.elim_none]
    | some v =>
      cases v with
      | none => simp only [Option.elim_some, Option.elim_none]
      | some value =>
        simp only [Option.elim_some]
        exact hread k value hlast

/-- Adding some writes to an empty batch and committing it, or making them one by one:
    the same keys are listed and counted, and the same values read of all keys, if and
    only if each of those that are put last is read in the same way. Up to four
    gigabytes, this fails just for keys of 64 MiB less up to seven bytes. -/
theorem WriteBatch.commit_eq_writeAll_iff [SortedIndexer ι] {options : WriteBatchOptions}
    {batch : WriteBatch} (hp : p.Calm)
    (hadd : WriteBatch.addAll { options := options, seqNo := seqNo } writes = .ok batch)
    (hfit : NoRotation p.db.options.dataFileSize p.db.writer.writeOff p.outcomes batch.records)
    (hfit' : NoRotation p.db.options.dataFileSize p.db.writer.writeOff p.outcomes
      (directRecords (fun k => (Indexer.get p.db.index k).isSome) writes)) :
    ∃ batch' q q', batch.commit.run p = .ok batch' q ∧ (DB.writeAll writes).run p = .ok () q' ∧
      q.db.listKeys = q'.db.listKeys ∧ q.db.keyNum = q'.db.keyNum ∧
      ((∀ k, q.db.get q.world.fs k = q'.db.get q'.world.fs k) ↔
        ∀ k value, lastWrite writes k = some (some value) → SameRead seqNo k value) ∧
      ∀ k value, (k, some value) ∈ writes → k.length + 8 < 2 ^ 32 → value.length < 2 ^ 32 →
        (SameRead seqNo k value ↔ ¬(seqNo ≠ nonTransactionSeqNo ∧ k.length ≤ maxRecordSize ∧
          maxRecordSize < k.length + 8 ∧ value.length ≤ maxRecordSize)) := by
  obtain ⟨hkeys, hpending, hseqNo⟩ := addAll_eq_ok hadd
  obtain ⟨batch', q, hrun, hq⟩ := commit_answers hp hfit
  obtain ⟨q', hrun', hq'⟩ := DB.writeAll_answers hp hkeys hfit'
  have hwrites : batch.pendingWrites.map LogRecord.toWrite = writes := by
    rw [hpending, List.nil_append, List.map_map]
    exact (List.map_congr_left fun w _ => Write.toWrite_toRecord w).trans (List.map_id _)
  rw [hwrites, hseqNo] at hq
  have hsome (k : Bytes) : (Indexer.get q.db.index k).isSome = (Indexer.get q'.db.index k).isSome := by
    rw [hq.isSome, hq'.isSome]
  have hlist := listKeys_eq_of_isSome hsome
  refine ⟨batch', q, q', hrun, hrun', hlist, ?_, hq.get_eq_iff hq', fun k value hmem hk hvalue =>
    sameRead_iff (hkeys _ hmem) hk hvalue⟩
  rw [DB.keyNum, DB.keyNum, Indexer.size_eq, Indexer.size_eq]
  exact congrArg (fun l : List Bytes => l.length % 2 ^ 32) hlist

end Same

/-- New databases are calm if the writes to their first file do not fail. -/
theorem Made.calm {options : Options} {w w' : World} {db : DB ι} (h : Made options w db w')
    (hw : ∀ o ∈ w.outcomes (.write (getDataFileName options.dirPath initialFileId)), o = .ok) :
    Proc.Calm ⟨db, w'⟩ := by
  obtain ⟨-, hwriter, hstart, hfile⟩ := h.writer_eq
  refine ⟨hstart, hfile, fun k pos file hpos => ?_, ?_⟩
  · rw [show Indexer.get db.index k = none from h.index k] at hpos
    cases hpos
  · rw [Proc.outcomes, hwriter, DB.firstFile, DB.firstPath, h.options_eq, h.outcomes]
    exact hw

/-- Records do not take a rotation if they fit behind each other. -/
theorem noRotation_of_ok {outcomes : List Outcome} (h : ∀ o ∈ outcomes, o = .ok)
    {dataFileSize offset : ℕ} {records : List LogRecord}
    (hle : offset + (encodeAll records).length ≤ dataFileSize) :
    NoRotation dataFileSize offset outcomes records := by
  induction records generalizing offset outcomes with
  | nil => trivial
  | cons record records ih =>
    have hall : encodeAll (record :: records) = record.encode ++ encodeAll records := List.flatMap_cons
    have hstored : (storeAll outcomes [record]).1 = [record.encode] := by rw [storeAll_of_ok h]; rfl
    rw [hall, List.length_append] at hle
    refine ⟨by omega, fun part hpart => ih (fun o ho => h o (List.mem_of_mem_tail ho)) ?_⟩
    rw [storeAll_of_some hpart] at hstored
    obtain ⟨rfl, -⟩ := List.cons.inj hstored
    omega

theorem LogRecord.length_encode_le (record : LogRecord) :
    record.encode.length ≤ 25 + (record.key.length + record.value.length) := by
  have h1 := length_encodeVarint_le record.key.length
  have h2 := length_encodeVarint_le record.value.length
  rw [record.length_encode, LogRecord.headerSize]
  omega

/-- A put can be added to an empty batch. -/
theorem WriteBatch.addAll_put {options : WriteBatchOptions} (seqNo : ℕ) {key : Bytes}
    (value : Bytes) (hkey : key ≠ []) (hmax : 0 < options.maxBatchNum) :
    ∃ batch, WriteBatch.addAll { options := options, seqNo := seqNo } [(key, some value)] =
      .ok batch := by
  obtain ⟨batch, hbatch⟩ : ∃ batch, WriteBatch.addWrite { options := options, seqNo := seqNo }
      (key, some value) = .ok batch := by
    show ∃ batch, WriteBatch.add _ ⟨key, value, .normal⟩ (.inl rfl) = .ok batch
    rw [add, dif_neg hkey]
    exact ⟨_, if_neg (Nat.not_le.2 hmax)⟩
  exact ⟨batch, bind_eq_ok.2 ⟨batch, hbatch, rfl⟩⟩

/-- Batches of a put fit into a new data file that is large enough for them. -/
theorem noRotation_put (dataFileSize : ℕ) {outcomes : List Outcome} (h : ∀ o ∈ outcomes, o = .ok)
    {options : WriteBatchOptions} {seqNo : ℕ} {key value : Bytes} {batch : WriteBatch}
    (hadd : WriteBatch.addAll { options := options, seqNo := seqNo } [(key, some value)] = .ok batch)
    (hle : 66 + (key.length + value.length) ≤ dataFileSize) :
    NoRotation dataFileSize 0 outcomes batch.records ∧
      ∀ present, NoRotation dataFileSize 0 outcomes
        (directRecords present [(key, some value)]) := by
  obtain ⟨-, hpending, hseqNo⟩ := WriteBatch.addAll_eq_ok hadd
  have hsuffix (k : Bytes) (n : ℕ) : (logRecordKeyWithSeq k n).length ≤ k.length + 8 := by
    unfold logRecordKeyWithSeq
    split
    · omega
    · simp
  refine ⟨noRotation_of_ok h ?_, fun present => noRotation_of_ok h ?_⟩
  · have hrecords : batch.records =
        [WriteBatch.withSeq seqNo ⟨key, value, .normal⟩, WriteBatch.txnFinRecord seqNo] := by
      rw [WriteBatch.records, hpending, hseqNo]
      rfl
    have hput := (WriteBatch.withSeq seqNo ⟨key, value, .normal⟩).length_encode_le
    have hfin := (WriteBatch.txnFinRecord seqNo).length_encode_le
    have hkey := hsuffix key seqNo
    have hnil := hsuffix [] seqNo
    have hall : encodeAll batch.records = (WriteBatch.withSeq seqNo ⟨key, value, .normal⟩).encode ++
        (WriteBatch.txnFinRecord seqNo).encode := by simp [hrecords]
    simp only [WriteBatch.withSeq, WriteBatch.txnFinRecord, List.length_nil] at hput hfin hkey hnil
    rw [hall, List.length_append, Nat.zero_add]
    simp only [WriteBatch.withSeq, WriteBatch.txnFinRecord]
    omega
  · have hput := LogRecord.length_encode_le ⟨key, value, .normal⟩
    have hall : encodeAll (directRecords present [(key, some value)]) =
        LogRecord.encode ⟨key, value, .normal⟩ := by simp [directRecords, Write.toRecord]
    rw [hall, Nat.zero_add]
    simp only at hput
    omega

/-- On a new database, putting a value in a batch is putting it. -/
theorem WriteBatch.commit_eq_writeAll_iff_put : ∃ (db : DB BTreeIndex) (w : World)
    (batch : WriteBatch), (DB.open ⟨['d'], 100, false⟩ : Sys (DB BTreeIndex)).run { fs := ∅ } =
        .ok db w ∧
      (WriteBatch.new db ⟨10⟩).addAll [([107], some [118])] = .ok batch ∧
      ∃ batch' q q', batch.commit.run ⟨db, w⟩ = .ok batch' q ∧
        (DB.writeAll [([107], some [118])]).run ⟨db, w⟩ = .ok () q' ∧
        ∀ k, q.db.get q.world.fs k = q'.db.get q'.world.fs k := by
  have hfresh := Session.fresh_empty (by decide : 100 ≠ 0) false
  obtain ⟨db, w, hopen, hmade⟩ := hfresh.open (ι := BTreeIndex)
  have hcalm := hmade.calm (List.forall_mem_nil _)
  obtain ⟨batch, hadd⟩ := addAll_put ((db.seqNo + 1) % seqNoBound) [118]
    (by decide : ([107] : Bytes) ≠ []) (by decide : 0 < (⟨10⟩ : WriteBatchOptions).maxBatchNum)
  obtain ⟨hfit, hfit'⟩ := noRotation_put 100 hcalm.outcomes hadd (by decide)
  have hsize : db.options.dataFileSize = 100 := by rw [hmade.options_eq]
  have hoffset : db.writer.writeOff = 0 := by rw [hmade.writer_eq.2.1]; rfl
  obtain ⟨batch', q, q', hrun, hrun', -, -, hiff, hread⟩ := commit_eq_writeAll_iff hcalm hadd
    (by rw [hsize, hoffset]; exact hfit) (by rw [hsize, hoffset]; exact hfit' _)
  refine ⟨db, w, batch, hopen, hadd, batch', q, q', hrun, hrun', hiff.2 fun k value hlast => ?_⟩
  obtain ⟨rfl, rfl⟩ : k = [107] ∧ value = [118] := by
    rw [lastWrite_singleton] at hlast
    split at hlast
    · rename_i hk
      cases hlast
      exact ⟨hk.symm, rfl⟩
    · cases hlast
  rw [hread [107] [118] (List.mem_singleton_self _) (by decide) (by decide)]
  exact fun h => absurd h.2.2.1 (by decide)

/-- A key of 64 MiB that has been put in a batch cannot be read. -/
theorem WriteBatch.not_forall_commit_eq_writeAll :
    ¬∀ (options : Options) (w w' : World) (db : DB BTreeIndex),
      (DB.open options : Sys (DB BTreeIndex)).run w = .ok db w' → (∀ c, w'.outcomes c = []) →
      ∀ (writes : List Write) (batchOptions : WriteBatchOptions) (batch : WriteBatch),
        (WriteBatch.new db batchOptions).addAll writes = .ok batch →
        NoRotation db.options.dataFileSize db.writer.writeOff (Proc.outcomes ⟨db, w'⟩)
          batch.records →
        NoRotation db.options.dataFileSize db.writer.writeOff (Proc.outcomes ⟨db, w'⟩)
          (directRecords (fun k => (Indexer.get db.index k).isSome) writes) →
        ∀ batch' q q', batch.commit.run ⟨db, w'⟩ = .ok batch' q →
          (DB.writeAll writes).run ⟨db, w'⟩ = .ok () q' →
          ∀ k, q.db.get q.world.fs k = q'.db.get q'.world.fs k := by
  intro h
  obtain ⟨key, hlen⟩ : ∃ key : Bytes, key.length = maxRecordSize :=
    ⟨List.replicate maxRecordSize 97, List.length_replicate⟩
  have hmax : maxRecordSize = 67108864 := rfl
  have hkey : key ≠ [] := List.ne_nil_of_length_pos (by omega)
  have hfresh := Session.fresh_empty (by decide : 2 ^ 30 ≠ 0) false
  obtain ⟨db, w, hopen, hmade⟩ := hfresh.open (ι := BTreeIndex)
  have hcalm := hmade.calm (List.forall_mem_nil _)
  obtain ⟨batch, hadd⟩ := addAll_put ((db.seqNo + 1) % seqNoBound) [] hkey
    (by decide : 0 < (⟨10⟩ : WriteBatchOptions).maxBatchNum)
  obtain ⟨hfit, hfit'⟩ := noRotation_put (2 ^ 30) hcalm.outcomes hadd
    (by rw [List.length_nil]; omega)
  have hsize : db.options.dataFileSize = 2 ^ 30 := by rw [hmade.options_eq]
  have hoffset : db.writer.writeOff = 0 := by rw [hmade.writer_eq.2.1]; rfl
  rw [← hsize, ← hoffset] at hfit hfit'
  obtain ⟨batch', q, hrun, hq⟩ := commit_answers hcalm hfit
  obtain ⟨q', hrun', hq'⟩ := DB.writeAll_answers hcalm (List.forall_mem_singleton.2 hkey) (hfit' _)
  obtain ⟨-, hpending, hseqNo⟩ := addAll_eq_ok hadd
  have hwrites : batch.pendingWrites.map LogRecord.toWrite = [(key, some [])] := by
    rw [hpending]
    rfl
  rw [hwrites, hseqNo] at hq
  have hsame := (hq.get_eq_iff hq').1 (h _ _ _ _ hopen (fun c => by rw [hmade.outcomes]) _ ⟨10⟩
    batch hadd hfit (hfit' _) _ _ _ hrun hrun') key [] (by rw [lastWrite_singleton, if_pos rfl])
  rw [sameRead_iff hkey (by omega) (by simp)] at hsame
  refine hsame ⟨?_, hlen.le, by omega, by simp⟩
  rw [show db.seqNo = _ from hmade.seqNo]
  decide

end Bitcask
