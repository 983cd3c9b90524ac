import Bitcask.ReadIntegrity
import Bitcask.Writes

/-!
# Writing on in the active file

What appending records does to any database, as long as no file is rotated: all that
changes are the active file's write offset and what its file holds behind it. What is
read of a record that lies in front of the write offset and the end of the file, as
its header declares it, stays the same (`readLogRecord_congr`). So the database reads
as before (`DB.get_of_kept`) if all records it has indexed in the active file do
(`Proc.Settled`).
-/

namespace Bitcask

open DataFile DBM Guarantee

/-! ## Reading in front of a bound -/

/-- A number is decoded from the bytes it takes. -/
theorem decodeVarintLoop_take {result shift pos : ℕ} {buffer : Bytes} {x : ℕ × ℕ}
    (h : decodeVarintLoop result shift pos buffer = .ok x) :
    ∃ n, x.2 = pos + n ∧ decodeVarintLoop result shift pos (buffer.take n) = .ok x := by
  induction buffer generalizing result shift pos with
  | nil => simp [decodeVarintLoop] at h
  | cons byte buffer ih =>
    rw [decodeVarintLoop] at h
    split at h
    · cases h
      exact ⟨1, rfl, by rw [List.take_succ_cons, decodeVarintLoop, if_pos ‹_›]⟩
    · split at h
      · cases h
      · obtain ⟨n, hn, hloop⟩ := ih h
        refine ⟨n + 1, by omega, ?_⟩
        rw [List.take_succ_cons, decodeVarintLoop, if_neg ‹_›, if_neg ‹_›, hloop]

theorem decodeVarint_take {buffer : Bytes} {x : ℕ × ℕ} (h : decodeVarint buffer = .ok x) {n : ℕ}
    (hn : x.2 ≤ n) : decodeVarint (buffer.take n) = .ok x := by
  obtain ⟨hpos, hle, -⟩ := lt_of_decodeVarint h
  have htake : decodeVarint (buffer.take x.2) = .ok x := by
    unfold decodeVarint at h ⊢
    rw [List.length_take, if_neg (by omega)]
    rw [if_neg (by omega)] at h
    obtain ⟨m, hm, hloop⟩ := decodeVarintLoop_take h
    rwa [hm, Nat.zero_add]
  have hpart : buffer.take x.2 = (buffer.take n).take x.2 := by
    rw [List.take_take, Nat.min_eq_left hn]
  have := decodeVarint_append_right htake ((buffer.take n).drop x.2)
  rwa [hpart, List.take_append_drop] at this

/-- A header is decoded from the bytes it takes. -/
theorem decodeLogRecordHeader_take_of_le {data : Bytes} {x : LogRecordHeader × ℕ}
    (h : decodeLogRecordHeader data = .ok x) {n : ℕ} (hn : x.2 ≤ n) :
    decodeLogRecordHeader (data.take n) = .ok x := by
  have hle := (decodeLogRecordHeader_bounds (show _ = Except.ok (x.1, x.2) from h)).1
  unfold decodeLogRecordHeader at h ⊢
  split at h
  · cases h
  obtain ⟨⟨keySize, keyLen⟩, h1, h⟩ := bind_eq_ok.1 h
  obtain ⟨⟨valueSize, valueLen⟩, h2, h⟩ := bind_eq_ok.1 h
  obtain rfl := Except.ok.inj h
  dsimp only at hn hle h1 h2 ⊢
  have htype : (data.take n).getD 4 0 = data.getD 4 0 := by
    rw [List.getD_eq_getElem?_getD, List.getD_eq_getElem?_getD, List.getElem?_take_of_lt (by omega)]
  rw [List.length_take, if_neg (by omega), List.take_take, Nat.min_eq_left (by omega), htype,
    List.drop_take, decodeVarint_take h1 (by omega)]
  simp only [bind, Except.bind]
  rw [List.drop_take, decodeVarint_take h2 (by omega)]
  rfl

/-- What is read at an offset lies in front of a bound: the record, as its header
    declares it, or all that is looked at before it is rejected. -/
def LiesBefore (content : Bytes) (bound offset : ℕ) : Prop :=
  match readLogRecordHeader content offset with
  | .ok (header, headerSize) => offset + headerSize + header.keySize + header.valueSize ≤ bound
  | .error _ => offset + maxLogRecordHeaderSize ≤ bound

section LiesBefore

variable {content content' : Bytes} {bound offset : ℕ}

theorem LiesBefore.pos (h : LiesBefore content bound offset) : 0 < bound := by
  have hmax : maxLogRecordHeaderSize = 15 := rfl
  unfold LiesBefore at h
  split at h
  · rename_i header headerSize hheader
    have := seven_le_of_decodeLogRecordHeader (readLogRecordHeader_eq_ok_iff.1 hheader).2.1
    simp only at this
    omega
  · omega

/-- Bytes in front of a bound do not depend on what is behind it. -/
theorem take_drop_congr (htake : content'.take bound = content.take bound) {o n : ℕ}
    (hn : o + n ≤ bound) : (content'.drop o).take n = (content.drop o).take n := by
  have hpart (l : Bytes) : l.take (o + n) = (l.take bound).take (o + n) := by
    rw [List.take_take, Nat.min_eq_left hn]
  rw [List.take_drop, List.take_drop, hpart content', hpart content, htake]

/-- If there are enough bytes, what is read of a header depends on just as many. -/
theorem readLogRecordHeader_of_le (h : offset + maxLogRecordHeaderSize ≤ content.length) :
    readLogRecordHeader content offset =
      (decodeLogRecordHeader ((content.drop offset).take maxLogRecordHeaderSize) >>= fun x =>
        if x.1.crc = 0 ∧ x.1.keySize = 0 ∧ x.1.valueSize = 0 then .error .readDataFileEOF
        else if maxRecordSize < x.1.keySize ∨ maxRecordSize < x.1.valueSize then
          .error (.bitcask "Record size too large, data may be corrupted")
        else .ok x) := by
  have hmax : maxLogRecordHeaderSize = 15 := rfl
  have hmin : min maxLogRecordHeaderSize (content.length - offset) = maxLogRecordHeaderSize := by
    omega
  rw [readLogRecordHeader, if_neg (by omega)]
  simp only [hmin]
  rw [if_neg (by omega), readNBytes_eq (.inr (by omega))]
  simp only [bind, Except.bind]
  cases hdecode : decodeLogRecordHeader ((content.drop offset).take maxLogRecordHeaderSize) with
  | error e => rfl
  | ok x =>
    have hle := (decodeLogRecordHeader_bounds (show _ = Except.ok (x.1, x.2) from hdecode)).1
    rw [List.length_take] at hle
    simp only [if_neg (by omega : ¬content.length < offset + x.2)]

/-- A header in front of a bound is read as before. -/
theorem readLogRecordHeader_of_take {header : LogRecordHeader} {headerSize : ℕ}
    (hheader : readLogRecordHeader content offset = .ok (header, headerSize))
    (hle : offset + headerSize ≤ bound) (hbound : bound ≤ content'.length)
    (htake : content'.take bound = content.take bound) :
    readLogRecordHeader content' offset = .ok (header, headerSize) := by
  obtain ⟨h5, hdecode, hend, hkey, hvalue, hsize⟩ := readLogRecordHeader_eq_ok_iff.1 hheader
  have hmax := (decodeLogRecordHeader_bounds hdecode).1
  rw [List.length_take] at hmax
  have hmin := seven_le_of_decodeLogRecordHeader hdecode
  simp only at hmin
  refine readLogRecordHeader_eq_ok_iff.2 ⟨by omega, ?_, hend, hkey, hvalue, by omega⟩
  have hpart := decodeLogRecordHeader_take_of_le hdecode (le_refl headerSize)
  rw [List.take_take, Nat.min_eq_left (by omega), ← take_drop_congr htake hle] at hpart
  have hfront : (content'.drop offset).take headerSize =
      ((content'.drop offset).take maxLogRecordHeaderSize).take headerSize := by
    rw [List.take_take, Nat.min_eq_left (by omega)]
  have := decodeLogRecordHeader_append_right hpart
    (((content'.drop offset).take maxLogRecordHeaderSize).drop headerSize)
  rwa [hfront, List.take_append_drop] at this

/-- A header is read, or rejected, as before. -/
theorem readLogRecordHeader_congr (h : LiesBefore content bound offset)
    (hbound : bound ≤ content.length) (htake : content'.take bound = content.take bound) :
    readLogRecordHeader content' offset = readLogRecordHeader content offset := by
  have hlen : bound ≤ content'.length := by
    have := congrArg List.length htake
    rw [List.length_take, List.length_take] at this
    omega
  unfold LiesBefore at h
  split at h
  · rw [‹readLogRecordHeader content offset = _›]
    exact readLogRecordHeader_of_take ‹_› (by omega) hlen htake
  · rw [readLogRecordHeader_of_le (by omega), readLogRecordHeader_of_le (by omega),
      take_drop_congr htake h]

/-- What is read in front of a bound does not depend on what is behind it. -/
theorem readLogRecord_congr (h : LiesBefore content bound offset) (hbound : bound ≤ content.length)
    (htake : content'.take bound = content.take bound) :
    readLogRecord content' offset = readLogRecord content offset := by
  have hlen : bound ≤ content'.length := by
    have := congrArg List.length htake
    rw [List.length_take, List.length_take] at this
    omega
  rw [readLogRecord, readLogRecord, readLogRecordHeader_congr h hbound htake]
  unfold LiesBefore at h
  split at h
  · rename_i header headerSize hheader
    have hread : readNBytes content' (header.keySize + header.valueSize) (offset + headerSize) =
        readNBytes content (header.keySize + header.valueSize) (offset + headerSize) := by
      rcases Nat.eq_zero_or_pos (header.keySize + header.valueSize) with hzero | hpos
      · rw [readNBytes_eq (.inl hzero), readNBytes_eq (.inl hzero),
          take_drop_congr htake (by omega)]
      · rw [readNBytes_eq (.inr (by omega)), readNBytes_eq (.inr (by omega)),
          take_drop_congr htake (by omega)]
    rw [hheader]
    simp only [bind, Except.bind, hread]
  · rename_i e hheader
    rw [hheader]
    rfl

end LiesBefore

/-! ## What a write does to a file -/

/-- Writing behind a part of a file leaves that part alone, and the data are found
    where they have been written. -/
structure WrittenBehind (offset : ℕ) (data content content' : Bytes) : Prop where
  length_le : content.length ≤ content'.length
  take_eq : content'.take (min offset content.length) = content.take (min offset content.length)
  drop_eq : ∃ rest, content'.drop offset = data ++ rest

/-- The data end in the file. -/
theorem WrittenBehind.end_le {offset : ℕ} {data content content' : Bytes}
    (h : WrittenBehind offset data content content') (hne : data ≠ []) :
    offset + data.length ≤ content'.length := by
  obtain ⟨rest, hrest⟩ := h.drop_eq
  have hpos := List.length_pos_iff.2 hne
  have hlen := congrArg List.length hrest
  rw [List.length_drop, List.length_append] at hlen
  omega

theorem writtenBehind_overwrite (offset : ℕ) (data content : Bytes) :
    WrittenBehind offset data content (overwrite content offset data) := by
  rw [overwrite]
  split
  · subst data
    exact ⟨le_rfl, rfl, _, rfl⟩
  · have hfront : (content.take offset ++ List.replicate (offset - content.length) 0).length =
        offset := by
      rw [List.length_append, List.length_take, List.length_replicate]
      omega
    refine ⟨?_, ?_, content.drop (offset + data.length), ?_⟩
    · rw [List.length_append, List.length_append, hfront, List.length_drop]
      omega
    · rw [List.append_assoc, List.append_assoc, List.take_append_of_le_length, List.take_take]
      · congr 1
        omega
      · rw [List.length_take]
    · rw [List.append_assoc, List.drop_left' hfront]

/-- What a write through a handle does to the file, whatever the kind of I/O. -/
theorem DataFile.writtenBehind (file : DataFile) (data content : Bytes) :
    WrittenBehind file.writeOff data content (file.written data content) := by
  have hover := writtenBehind_overwrite file.writeOff data content
  unfold DataFile.written
  split
  · exact hover
  · split
    · -- The zeros the file is extended by do not matter in front of its end.
      generalize roundUpToPage (file.writeOff + data.length) - content.length = n
      obtain ⟨hlen, htake, hdrop⟩ :=
        writtenBehind_overwrite file.writeOff data (content ++ List.replicate n 0)
      rw [List.length_append] at hlen htake
      have hmin : min (min file.writeOff content.length)
          (min file.writeOff (content.length + (List.replicate n (0 : UInt8)).length)) =
          min file.writeOff content.length := by omega
      have hpart := congrArg (List.take (min file.writeOff content.length)) htake
      rw [List.take_take, List.take_take, hmin,
        List.take_append_of_le_length (Nat.min_le_right _ _)] at hpart
      exact ⟨by omega, hpart, hdrop⟩
    · exact hover

/-- The zeros a memory-mapped file is extended by, to hold so many bytes. -/
def padding (length size : ℕ) : ℕ := if length < size then roundUpToPage size - length else 0

theorem le_add_padding (length size : ℕ) : size ≤ length + padding length size := by
  unfold padding roundUpToPage pageSize
  split <;> omega

/-- Extending a file twice is extending it once. -/
theorem padding_add_padding (length : ℕ) {size size' : ℕ} (h : size ≤ size') :
    padding length size + padding (length + padding length size) size' = padding length size' := by
  unfold padding roundUpToPage pageSize
  split <;> split <;> split <;> omega

theorem DataFile.written_memoryMap {file : DataFile} (h : file.ioType = .memoryMap)
    (data content : Bytes) :
    file.written data content = overwrite
      (content ++ List.replicate (padding content.length (file.writeOff + data.length)) 0)
      file.writeOff data := by
  rw [written, h]
  simp only [padding]
  split
  · rfl
  · rw [List.replicate_zero, List.append_nil]

/-- Two writes through a handle, one behind the other, make one. -/
theorem DataFile.written_written (file : DataFile) (a b content : Bytes) :
    ({ file with writeOff := file.writeOff + a.length } : DataFile).written b
      (file.written a content) = file.written (a ++ b) content := by
  obtain ⟨path, fileId, offset, ioType⟩ := file
  cases ioType with
  | standardFio => exact overwrite_overwrite _ _ _ _
  | memoryMap =>
    have hle : offset + a.length ≤ (content ++
        List.replicate (padding content.length (offset + a.length)) (0 : UInt8)).length := by
      rw [List.length_append, List.length_replicate]
      exact le_add_padding _ _
    have hpad := padding_add_padding content.length
      (Nat.le_add_right (offset + a.length) b.length)
    rw [Nat.add_assoc, ← List.length_append] at hpad
    rw [written_memoryMap rfl a, written_memoryMap rfl (a ++ b), written_memoryMap rfl b,
      length_overwrite_of_le hle, List.length_append, List.length_replicate,
      ← overwrite_append_right hle, overwrite_overwrite, List.append_assoc,
      List.replicate_append_replicate]
    dsimp only
    rw [Nat.add_assoc, ← List.length_append, hpad]

/-! ## Databases with an active file -/

variable {ι : Type}

/-- The handle records are written through: the one of the active file, or of the first
    data file, which is opened if there is none. -/
def DB.writer (db : DB ι) : DataFile := db.activeFile.getD db.firstFile

namespace Proc

/-- The process once its database has got an active file. -/
def started (p : Proc ι) : Proc ι where
  db := { p.db with activeFile := some p.db.writer }
  world := if p.db.activeFile.isSome then p.world else p.world.opened p.db.firstPath

/-- If there is no active file, the first data file can be opened. -/
def CanStart (p : Proc ι) : Prop :=
  p.db.activeFile = none → p.world.outcomes (.open p.db.firstPath) = []

/-- The outcomes that writing to the active file will have. -/
def outcomes (p : Proc ι) : List Outcome := p.world.outcomes (.write p.db.writer.path)

variable {p q : Proc ι} {file : DataFile}

theorem started_of_some (h : p.db.activeFile = some file) : p.started = p := by
  obtain ⟨db, world⟩ := p
  have hdb : { db with activeFile := some (DB.writer db) } = db := by
    rw [DB.writer, show db.activeFile = some file from h, Option.getD_some, ← h]
  simp only [started, hdb, show db.activeFile = some file from h, Option.isSome_some, if_true]

@[simp]
theorem started_outcomes (p : Proc ι) : p.started.world.outcomes = p.world.outcomes := by
  unfold started
  dsimp only
  split
  · rfl
  · rw [World.opened_outcomes]

/-- Getting an active file leaves the index alone. -/
theorem sameIndex_of_started (h : SameIndex p.started q) : SameIndex p q :=
  ⟨h.index, h.seqNo, h.reclaimSize⟩

/-- Appending starts by getting an active file. -/
theorem activeDataFile_run_started (h : p.CanStart) :
    (DB.activeDataFile : DBM ι DataFile).run p = .ok p.db.writer p.started := by
  cases hactive : p.db.activeFile with
  | some file =>
    rw [started_of_some hactive, DB.activeDataFile_run hactive, DB.writer, hactive]
    rfl
  | none =>
    have hstarted : p.started =
        ⟨{ p.db with activeFile := some p.db.firstFile }, p.world.opened p.db.firstPath⟩ := by
      rw [started, DB.writer, hactive]
      rfl
    rw [hstarted, DB.activeDataFile, bind_ok (proc_run p), hactive]
    show (DB.setActiveDataFile >>= fun _ => proc >>= fun _ => _).run p = _
    rw [bind_ok (DB.setActiveDataFile_run_of_none hactive (h hactive)), bind_ok (proc_run _),
      DB.writer, hactive]
    rfl

theorem append_run_started (h : p.CanStart) (record : LogRecord) :
    (DB.appendLogRecordInternal record : DBM ι _).run p =
      (DB.appendLogRecordInternal record : DBM ι _).run p.started := by
  rw [DB.appendLogRecordInternal, bind_ok (activeDataFile_run_started h),
    bind_ok (DB.activeDataFile_run (p := p.started) rfl)]

/-- Some parts of data have been written through a handle, and nothing else has
    happened to the files of a database. -/
structure Appended (file : DataFile) (parts : List Bytes) (p q : Proc ι) : Prop where
  activeFile : q.db.activeFile =
    some { file with writeOff := file.writeOff + parts.flatten.length }
  olderFiles : q.db.olderFiles = p.db.olderFiles
  options : q.db.options = p.db.options
  others : ∀ path ≠ file.path, q.world.fs.file? path = p.world.fs.file? path
  content : parts ≠ [] → ∀ c, p.world.fs.file? file.path = some c →
    q.world.fs.file? file.path = some (file.written parts.flatten c)
  fs_eq : parts = [] → q.world.fs = p.world.fs

namespace Appended

theorem nil (hactive : p.db.activeFile = some file) (hdb : q.db = p.db)
    (hfs : q.world.fs = p.world.fs) : Appended file [] p q :=
  ⟨by rw [hdb, hactive]; rfl, by rw [hdb], by rw [hdb], fun path _ => by rw [hfs],
    fun hne => absurd rfl hne, fun _ => hfs⟩

/-- A change of the index does not concern the files. -/
theorem of_sameFiles {r : Proc ι} {parts : List Bytes} (h : Appended file parts p q)
    (hactive : r.db.activeFile = q.db.activeFile) (holder : r.db.olderFiles = q.db.olderFiles)
    (hoptions : r.db.options = q.db.options) (hworld : r.world = q.world) :
    Appended file parts p r :=
  ⟨hactive.trans h.activeFile, holder.trans h.olderFiles, hoptions.trans h.options,
    by rw [hworld]; exact h.others, by rw [hworld]; exact h.content,
    by rw [hworld]; exact h.fs_eq⟩

theorem trans {r : Proc ι} {as bs : List Bytes} (h : Appended file as p q)
    (h' : Appended { file with writeOff := file.writeOff + as.flatten.length } bs q r) :
    Appended file (as ++ bs) p r where
  activeFile := by
    rw [h'.activeFile, List.flatten_append, List.length_append, ← Nat.add_assoc]
  olderFiles := h'.olderFiles.trans h.olderFiles
  options := h'.options.trans h.options
  others path hne := (h'.others path hne).trans (h.others path hne)
  content hne c hc := by
    rw [List.flatten_append]
    rcases eq_or_ne as [] with rfl | has
    · exact h'.content hne c (by rw [h.fs_eq rfl]; exact hc)
    · have hfirst := h.content has c hc
      rcases eq_or_ne bs [] with rfl | hbs
      · rw [h'.fs_eq rfl, hfirst, List.flatten_nil, List.append_nil]
      · rw [h'.content hbs _ hfirst, file.written_written]
  fs_eq hnil := by
    obtain ⟨has, hbs⟩ := List.append_eq_nil_iff.1 hnil
    rw [h'.fs_eq hbs, h.fs_eq has]

theorem cons {r : Proc ι} {part : Bytes} {parts : List Bytes} (h : Appended file [part] p q)
    (h' : Appended { file with writeOff := file.writeOff + part.length } parts q r) :
    Appended file (part :: parts) p r :=
  h.trans (by rwa [List.flatten_singleton])

end Appended

end Proc

open Proc

/-! ## What writes store -/

/-- What a write stores of the data, unless it fails. -/
def Outcome.stored (outcome : Outcome) (data : Bytes) : Option Bytes :=
  match outcome with
  | .ok => some data
  | .fail => none
  | .short count => some (data.take count)

/-- What writing some records stores of each, up to the first write that fails, and
    whether all writes succeed. -/
def storeAll : List Outcome → List LogRecord → List Bytes × Bool
  | _, [] => ([], true)
  | outcomes, record :: records =>
    match (outcomes.headD .ok).stored record.encode with
    | none => ([], false)
    | some part =>
      (part :: (storeAll outcomes.tail records).1, (storeAll outcomes.tail records).2)

/-- No write of some records takes a rotation: each record fits behind what has been
    stored of those before it. -/
def NoRotation (dataFileSize : ℕ) : ℕ → List Outcome → List LogRecord → Prop
  | _, _, [] => True
  | offset, outcomes, record :: records =>
    offset + record.encode.length ≤ dataFileSize ∧
      ∀ part, (outcomes.headD .ok).stored record.encode = some part →
        NoRotation dataFileSize (offset + part.length) outcomes.tail records

instance NoRotation.decidable (dataFileSize : ℕ) :
    ∀ (offset : ℕ) (outcomes : List Outcome) (records : List LogRecord),
      Decidable (NoRotation dataFileSize offset outcomes records)
  | _, _, [] => .isTrue trivial
  | offset, outcomes, record :: records =>
    match h : (outcomes.headD .ok).stored record.encode with
    | none => decidable_of_iff (offset + record.encode.length ≤ dataFileSize) (by
        rw [NoRotation, h]
        simp)
    | some part =>
      have := NoRotation.decidable dataFileSize (offset + part.length) outcomes.tail records
      decidable_of_iff (offset + record.encode.length ≤ dataFileSize ∧
        NoRotation dataFileSize (offset + part.length) outcomes.tail records) (by
          rw [NoRotation, h]
          simp)

section StoreAll

variable {outcomes : List Outcome} {record : LogRecord} {records as bs : List LogRecord}

theorem storeAll_of_some {part : Bytes} (h : (outcomes.headD .ok).stored record.encode = some part) :
    storeAll outcomes (record :: records) =
      (part :: (storeAll outcomes.tail records).1, (storeAll outcomes.tail records).2) := by
  rw [storeAll, h]

theorem storeAll_of_none (h : (outcomes.headD .ok).stored record.encode = none) :
    storeAll outcomes (record :: records) = ([], false) := by
  rw [storeAll, h]

/-- Something is stored of every record if no write fails. -/
theorem length_storeAll (h : (storeAll outcomes records).2 = true) :
    (storeAll outcomes records).1.length = records.length := by
  induction records generalizing outcomes with
  | nil => rfl
  | cons record records ih =>
    cases hpart : (outcomes.headD .ok).stored record.encode with
    | none =>
      rw [storeAll_of_none hpart] at h
      cases h
    | some part =>
      rw [storeAll_of_some hpart] at h ⊢
      rw [List.length_cons, List.length_cons, ih h]

theorem storeAll_append (as bs : List LogRecord) :
    storeAll outcomes (as ++ bs) =
      if (storeAll outcomes as).2 then
        ((storeAll outcomes as).1 ++ (storeAll (outcomes.drop as.length) bs).1,
          (storeAll (outcomes.drop as.length) bs).2)
      else storeAll outcomes as := by
  induction as generalizing outcomes with
  | nil => simp [storeAll]
  | cons record as ih =>
    rw [List.cons_append]
    cases hpart : (outcomes.headD .ok).stored record.encode with
    | none =>
      rw [storeAll_of_none hpart, storeAll_of_none hpart]
      rfl
    | some part =>
      rw [storeAll_of_some hpart, storeAll_of_some hpart, ih, List.drop_tail, List.length_cons]
      dsimp only
      split <;> rfl

theorem noRotation_append {dataFileSize offset : ℕ} :
    NoRotation dataFileSize offset outcomes (as ++ bs) ↔
      NoRotation dataFileSize offset outcomes as ∧
        ((storeAll outcomes as).2 = true →
          NoRotation dataFileSize (offset + (storeAll outcomes as).1.flatten.length)
            (outcomes.drop as.length) bs) := by
  induction as generalizing offset outcomes with
  | nil => simp [storeAll, NoRotation]
  | cons record as ih =>
    rw [List.cons_append, NoRotation, NoRotation, and_assoc]
    refine and_congr_right fun _ => ?_
    cases hpart : (outcomes.headD .ok).stored record.encode with
    | none => simp [storeAll_of_none hpart]
    | some part =>
      rw [storeAll_of_some hpart]
      simp only [Option.some.injEq, forall_eq', ih, List.flatten_cons, List.length_append,
        List.drop_tail, List.length_cons, Nat.add_assoc]

end StoreAll

/-! ## Appending -/

theorem DataFile.write_run (file : DataFile) (data : Bytes) (w : World) :
    (file.write data).run w =
      match (w.next (.write file.path)).1.stored data with
      | some part => .ok { file with writeOff := file.writeOff + part.length }
          ((w.next (.write file.path)).2.wrote file part)
      | none => .error (.bitcask "Failed to write data to file") (w.next (.write file.path)).2 := by
  rw [DataFile.write, bind_ok (Sys.call_run _ _)]
  cases (w.next (.write file.path)).1 <;> rfl

section Append

variable {p : Proc ι} {file : DataFile} {record : LogRecord} {seqNo : ℕ} {items : List LogRecord}

/-- Writing a record that fits behind the others. -/
theorem append_run (hactive : p.db.activeFile = some file)
    (hfit : file.writeOff + record.encode.length ≤ p.db.options.dataFileSize) :
    (∃ part, (p.world.next (.write file.path)).1.stored record.encode = some part ∧
      ∃ q, (DB.appendLogRecordInternal record : DBM ι _).run p = .ok (DB.posAt file record) q ∧
        Appended file [part] p q ∧ SameIndex p q ∧
        q.world.outcomes = (p.world.next (.write file.path)).2.outcomes) ∨
    ((p.world.next (.write file.path)).1.stored record.encode = none ∧
      ∃ e q, (DB.appendLogRecordInternal record : DBM ι _).run p = .error e q ∧
        Appended file [] p q ∧ SameIndex p q) := by
  have hwrite := file.write_run record.encode p.world
  have hrun : (DB.appendLogRecordInternal record : DBM ι _).run p =
      ((liftM (file.write record.encode) : DBM ι DataFile) >>= fun written => do
        modifyDB fun db => { db with activeFile := some written }
        return DB.posAt file record).run p := by
    rw [DB.appendLogRecordInternal, bind_ok (DB.activeDataFile_run hactive)]
    show (proc >>= fun _ => _).run p = _
    rw [bind_ok (proc_run p), if_neg (Nat.not_lt.2 hfit)]
    show (DB.activeDataFile >>= fun _ => _).run p = _
    rw [bind_ok (DB.activeDataFile_run hactive)]
    rfl
  cases hstored : (p.world.next (.write file.path)).1.stored record.encode with
  | some part =>
    rw [hstored] at hwrite
    refine .inl ⟨part, rfl, _, hrun.trans (bind_ok (lift_ok hwrite)), ⟨?_, rfl, rfl,
      fun path hne => ?_, fun _ c hc => ?_, fun hnil => by cases hnil⟩, ⟨rfl, rfl, rfl⟩, rfl⟩
    · rw [List.flatten_singleton]
    · exact (World.wrote_file?_of_ne _ _ _ hne).trans (by rw [World.next_fs])
    · rw [List.flatten_singleton]
      exact World.wrote_file?_self _ _ _ (by rw [World.next_fs, hc])
  | none =>
    rw [hstored] at hwrite
    exact .inr ⟨rfl, _, _, hrun.trans (bind_error (lift_error hwrite)),
      .nil hactive rfl (World.next_fs _ _), ⟨rfl, rfl, rfl⟩⟩

/-- The positions records are written at, given the parts of them that are stored. -/
def writePositions : DataFile → List LogRecord → List Bytes → List LogRecordPos
  | file, record :: records, part :: parts =>
    DB.posAt file record ::
      writePositions { file with writeOff := file.writeOff + part.length } records parts
  | _, _, _ => []

/-- What is stored behind the records does not matter to their positions. -/
theorem writePositions_append_right (file : DataFile) {records : List LogRecord}
    {parts : List Bytes} (h : parts.length = records.length) (more : List Bytes) :
    writePositions file records (parts ++ more) = writePositions file records parts := by
  induction records generalizing file parts with
  | nil =>
    rw [List.eq_nil_of_length_eq_zero h]
    cases more <;> rfl
  | cons record records ih =>
    obtain ⟨part, parts, rfl⟩ := List.exists_cons_of_length_eq_add_one h
    rw [List.cons_append, writePositions, writePositions, ih _ (Nat.succ_injective h)]

/-- Writing records one behind the other, up to the first write that fails. -/
theorem appendAll_run (hactive : p.db.activeFile = some file)
    (hfit : NoRotation p.db.options.dataFileSize file.writeOff
      (p.world.outcomes (.write file.path)) (items.map (WriteBatch.withSeq seqNo))) :
    let x := storeAll (p.world.outcomes (.write file.path))
      (items.map (WriteBatch.withSeq seqNo))
    (x.2 = true ∧ ∃ q, (WriteBatch.appendAll seqNo items : DBM ι _).run p =
        .ok (writePositions file (items.map (WriteBatch.withSeq seqNo)) x.1) q ∧
      Appended file x.1 p q ∧ SameIndex p q ∧ q.world.outcomes (.write file.path) =
        (p.world.outcomes (.write file.path)).drop items.length) ∨
    (x.2 = false ∧ ∃ e q, (WriteBatch.appendAll seqNo items : DBM ι _).run p = .error e q ∧
      Appended file x.1 p q ∧ SameIndex p q) := by
  induction items generalizing p file with
  | nil => exact .inl ⟨rfl, p, rfl, .nil hactive rfl rfl, .refl p, rfl⟩
  | cons record items ih =>
    obtain ⟨hfirst, hrest⟩ := hfit
    rw [← World.next_fst] at hrest
    rcases append_run hactive hfirst with ⟨part, hpart, q, hrun, hq, hindex, hout⟩ |
      ⟨hpart, e, q, hrun, hq⟩
    · have houtcomes : q.world.outcomes (.write file.path) =
          (p.world.outcomes (.write file.path)).tail := by rw [hout, World.next_outcomes_self]
      have hactive' := hq.activeFile
      rw [List.flatten_singleton] at hactive'
      have hfit' := hrest part hpart
      rw [World.next_fst] at hpart
      have ih := ih hactive' (by rw [hq.options, houtcomes]; exact hfit')
      rw [houtcomes] at ih
      rw [List.map_cons, storeAll_of_some hpart]
      rcases ih with ⟨hok, q', hrun', hq', hindex', hout'⟩ | ⟨hfail, e, q', hrun', hq', hindex'⟩
      · refine .inl ⟨hok, q', ?_, hq.cons hq', hindex.trans hindex',
          by rw [hout', List.drop_tail]; rfl⟩
        rw [WriteBatch.appendAll, bind_ok hrun, bind_ok hrun']
        rfl
      · refine .inr ⟨hfail, e, q', ?_, hq.cons hq', hindex.trans hindex'⟩
        rw [WriteBatch.appendAll, bind_ok hrun, bind_error hrun']
    · rw [World.next_fst] at hpart
      rw [List.map_cons, storeAll_of_none hpart]
      refine .inr ⟨rfl, e, q, ?_, hq⟩
      rw [WriteBatch.appendAll, bind_error hrun]

theorem appendAll_run_started (h : p.CanStart) (hitems : items ≠ []) :
    (WriteBatch.appendAll seqNo items : DBM ι _).run p =
      (WriteBatch.appendAll seqNo items : DBM ι _).run p.started := by
  obtain ⟨record, rest, rfl⟩ := List.exists_cons_of_ne_nil hitems
  have hrun := append_run_started h (WriteBatch.withSeq seqNo record)
  unfold WriteBatch.appendAll
  cases hfirst : (DB.appendLogRecordInternal (WriteBatch.withSeq seqNo record) : DBM ι _).run p with
  | ok pos q => rw [bind_ok hfirst, bind_ok (hrun.symm.trans hfirst)]
  | error e q => rw [bind_error hfirst, bind_error (hrun.symm.trans hfirst)]

variable {batch : WriteBatch}

theorem length_records (batch : WriteBatch) :
    batch.records.length = batch.pendingWrites.length + 1 := by simp [WriteBatch.records]

/-- Writing a batch and the end of its transaction, up to the first write that fails. -/
theorem appendBatch_run (hstart : p.CanStart) (hpending : batch.pendingWrites ≠ [])
    (hfit : NoRotation p.db.options.dataFileSize p.db.writer.writeOff p.outcomes batch.records) :
    let x := storeAll p.outcomes batch.records
    (x.2 = true ∧ ∃ q, (∀ {α : Type} (f : List LogRecordPos → DBM ι α),
        (WriteBatch.appendAll batch.seqNo batch.pendingWrites >>= fun positions => do
          let _ ← DB.appendLogRecordInternal (WriteBatch.txnFinRecord batch.seqNo)
          f positions).run p =
        (f (writePositions p.db.writer (batch.pendingWrites.map (WriteBatch.withSeq batch.seqNo))
          x.1)).run q) ∧
      Appended p.db.writer x.1 p.started q ∧ SameIndex p q) ∨
    (x.2 = false ∧ ∃ e q, (∀ {α : Type} (f : List LogRecordPos → DBM ι α),
        (WriteBatch.appendAll batch.seqNo batch.pendingWrites >>= fun positions => do
          let _ ← DB.appendLogRecordInternal (WriteBatch.txnFinRecord batch.seqNo)
          f positions).run p = .error e q) ∧
      Appended p.db.writer x.1 p.started q ∧ SameIndex p q) := by
  have houtcomes : p.started.world.outcomes (.write p.db.writer.path) = p.outcomes := by
    rw [started_outcomes, outcomes]
  rw [WriteBatch.records, noRotation_append, List.length_map] at hfit
  obtain ⟨hfit, hfitFin⟩ := hfit
  rw [WriteBatch.records, storeAll_append, List.length_map]
  have hrun := appendAll_run (show p.started.db.activeFile = some p.db.writer from rfl)
    (by rw [houtcomes]; exact hfit)
  rw [houtcomes, ← appendAll_run_started hstart hpending] at hrun
  rcases hrun with ⟨hok, q, hrun, hq, hindex, hout⟩ | ⟨hfail, e, q, hrun, hq, hindex⟩
  · rw [hok] at hfitFin ⊢
    rw [if_pos rfl]
    have hlen := length_storeAll hok
    obtain ⟨hfin, -⟩ := hfitFin rfl
    rcases append_run hq.activeFile (by rw [hq.options]; exact hfin) with
      ⟨part, hpart, q', hrun', hq', hindex', -⟩ | ⟨hpart, e, q', hrun', hq', hindex'⟩
    · rw [World.next_fst, hout] at hpart
      rw [storeAll_of_some hpart]
      refine .inl ⟨rfl, q', fun f => ?_, hq.trans hq',
        sameIndex_of_started (hindex.trans hindex')⟩
      rw [bind_ok hrun, bind_ok hrun']
      simp only [writePositions_append_right _ hlen]
    · rw [World.next_fst, hout] at hpart
      rw [storeAll_of_none hpart]
      refine .inr ⟨rfl, e, q', fun f => ?_, hq.trans hq',
        sameIndex_of_started (hindex.trans hindex')⟩
      rw [bind_ok hrun, bind_error hrun']
  · rw [hfail, if_neg (by simp)]
    exact .inr ⟨hfail, e, q, fun f => bind_error hrun, hq, sameIndex_of_started hindex⟩

end Append

/-! ## Reading as before -/

namespace DB

theorem fileOf_of_eq {db : DB ι} {file : DataFile} (h : db.activeFile = some file) :
    db.fileOf file.fileId = some file := by
  rw [fileOf, h]
  exact if_pos rfl

/-- Other files than the active one are old ones. -/
theorem fileOf_of_ne {db : DB ι} {fid : ℕ} (h : ∀ file, db.activeFile = some file → file.fileId ≠ fid) :
    db.fileOf fid = db.olderFiles.lookup fid := by
  unfold fileOf
  split
  · exact if_neg (h _ ‹_›)
  · rfl

/-- A value is read as before from a file of the same path, if the record is. -/
theorem getValueByPosition_congr {db db' : DB ι} {fs fs' : FS} {pos : LogRecordPos}
    (hfile : (db'.fileOf pos.fid).map DataFile.path = (db.fileOf pos.fid).map DataFile.path)
    (hread : ∀ file, db.fileOf pos.fid = some file →
      readLogRecord (file.content fs') pos.offset = readLogRecord (file.content fs) pos.offset) :
    db'.getValueByPosition fs' pos = db.getValueByPosition fs pos := by
  unfold getValueByPosition
  cases hdb : db.fileOf pos.fid with
  | none =>
    rw [hdb] at hfile
    rw [Option.map_eq_none_iff.1 hfile]
  | some file =>
    rw [hdb] at hfile
    obtain ⟨file', hdb', hpath⟩ := Option.map_eq_some_iff.1 hfile
    have hcontent : file'.content fs' = file.content fs' := by
      rw [DataFile.content, DataFile.content, hpath]
    rw [hdb']
    simp only [hcontent, hread file hdb]

end DB

namespace Proc

variable {p q : Proc ι} {parts : List Bytes}

theorem started_file?_of_ne {path : FilePath} (h : path ≠ p.db.writer.path) :
    p.started.world.fs.file? path = p.world.fs.file? path := by
  cases hactive : p.db.activeFile with
  | some file => rw [started_of_some hactive]
  | none =>
    have hfirst : p.db.writer.path = p.db.firstPath := by rw [DB.writer, hactive]; rfl
    unfold started
    rw [hactive]
    exact World.opened_file?_of_ne _ _ (by rwa [← hfirst])

/-- What is read of a record in the file written to stays the same. -/
theorem Appended.readLogRecord_eq (h : Appended p.db.writer parts p.started q) {file : DataFile}
    (hpath : file.path = p.db.writer.path) {offset : ℕ}
    (hlies : LiesBefore (file.content p.started.world.fs)
      (min p.db.writer.writeOff (file.content p.started.world.fs).length) offset) :
    readLogRecord (file.content q.world.fs) offset =
      readLogRecord (file.content p.started.world.fs) offset := by
  rcases eq_or_ne parts [] with hnil | hne
  · rw [h.fs_eq hnil]
  cases hc : p.started.world.fs.file? file.path with
  | none =>
    have hempty : file.content p.started.world.fs = [] := by rw [DataFile.content, hc]; rfl
    rw [hempty] at hlies
    exact absurd hlies.pos (by simp)
  | some c =>
    rw [content_eq_of_file? hc] at hlies ⊢
    have hc' := h.content hne c (hpath ▸ hc)
    rw [content_eq_of_file? (by rw [hpath]; exact hc')]
    exact readLogRecord_congr hlies (Nat.min_le_right _ _) (p.db.writer.writtenBehind _ c).take_eq

/-- The files keep their paths. -/
theorem Appended.map_path_fileOf (h : Appended p.db.writer parts p.started q) (fid : ℕ) :
    (q.db.fileOf fid).map DataFile.path = (p.started.db.fileOf fid).map DataFile.path := by
  by_cases hfid : p.db.writer.fileId = fid
  · subst hfid
    have hq := DB.fileOf_of_eq h.activeFile
    rw [show p.started.db.fileOf p.db.writer.fileId = _ from DB.fileOf_of_eq rfl, hq]
    rfl
  · have holder := h.olderFiles
    rw [DB.fileOf_of_ne fun file hfile => ?_, DB.fileOf_of_ne fun file hfile => ?_, holder]
    · cases hfile
      exact hfid
    · rw [h.activeFile] at hfile
      cases hfile
      exact hfid

variable [Indexer ι]

/-- Where nothing has been written, everything is read as before. -/
theorem Appended.get_eq_of_nil {file : DataFile} (h : Appended p.db.writer [] p q)
    (hactive : p.db.activeFile = some file) (hindex : SameIndex p q) (k : Bytes) :
    q.db.get q.world.fs k = p.db.get p.world.fs k := by
  have hfile (fid : ℕ) : q.db.fileOf fid = p.db.fileOf fid := by
    have hq : q.db.activeFile = p.db.activeFile := by
      rw [h.activeFile, DB.writer, hactive]
      rfl
    rw [DB.fileOf, DB.fileOf, hq, h.olderFiles]
  rw [DB.get, DB.get, hindex.index]
  simp only [DB.getValueByPosition, hfile, h.fs_eq rfl]

/-- The records a database has indexed in the file it writes to lie in front of its
    write offset and of the end of the file. -/
def Settled (p : Proc ι) : Prop :=
  ∀ k pos file, Indexer.get p.db.index k = some pos → p.started.db.fileOf pos.fid = some file →
    file.path = p.db.writer.path →
    LiesBefore (file.content p.started.world.fs)
      (min p.db.writer.writeOff (file.content p.started.world.fs).length) pos.offset

/-- In a database without an active file, no record is indexed in the first data file. -/
theorem Settled.active {k : Bytes} {pos : LogRecordPos} {file : DataFile} (h : p.Settled)
    (hindex : Indexer.get p.db.index k = some pos) (hfile : p.started.db.fileOf pos.fid = some file)
    (hpath : file.path = p.db.writer.path) : p.db.activeFile = some p.db.writer := by
  have hpos := (h k pos file hindex hfile hpath).pos
  unfold DB.writer at hpos ⊢
  cases hactive : p.db.activeFile with
  | some file => rfl
  | none =>
    rw [hactive] at hpos
    exact absurd hpos (by simp [DB.firstFile])

/-- A settled database reads a key as before if it finds it where it was. -/
theorem Settled.get_eq (h : p.Settled) (hq : Appended p.db.writer parts p.started q) {k : Bytes}
    (hindex : Indexer.get q.db.index k = Indexer.get p.db.index k) :
    q.db.get q.world.fs k = p.db.get p.world.fs k := by
  rw [DB.get, DB.get, hindex]
  split
  · rfl
  · cases hpos : Indexer.get p.db.index k with
    | none => rfl
    | some pos =>
      show q.db.getValueByPosition q.world.fs pos = p.db.getValueByPosition p.world.fs pos
      calc q.db.getValueByPosition q.world.fs pos
          = p.started.db.getValueByPosition p.started.world.fs pos := by
            refine DB.getValueByPosition_congr (hq.map_path_fileOf pos.fid) fun file hfile => ?_
            by_cases hpath : file.path = p.db.writer.path
            · exact hq.readLogRecord_eq hpath (h k pos file hpos hfile hpath)
            · rw [DataFile.content, hq.others _ hpath, ← DataFile.content]
        _ = p.db.getValueByPosition p.world.fs pos := by
            cases hactive : p.db.activeFile with
            | some file => rw [started_of_some hactive]
            | none =>
              -- There is no position in the file that has just been opened.
              have hne {file : DataFile} (hfile : p.started.db.fileOf pos.fid = some file) :
                  file.path ≠ p.db.writer.path := fun hpath => by
                have := h.active hpos hfile hpath
                rw [hactive] at this
                cases this
              have hfid : pos.fid ≠ p.db.writer.fileId := fun hfid =>
                hne (hfid ▸ DB.fileOf_of_eq rfl) rfl
              have hfile : p.started.db.fileOf pos.fid = p.db.fileOf pos.fid := by
                rw [DB.fileOf_of_ne fun file hfile => ?_, DB.fileOf_of_ne fun file hfile => ?_]
                · rfl
                · rw [hactive] at hfile
                  cases hfile
                · cases hfile
                  exact Ne.symm hfid
              refine DB.getValueByPosition_congr (by rw [hfile]) fun file hfile' => ?_
              rw [DataFile.content, started_file?_of_ne (hne (hfile ▸ hfile')), ← DataFile.content]

end Proc

end Bitcask
