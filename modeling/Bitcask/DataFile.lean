import Bitcask.FileSystem
import Bitcask.LogRecord
import Bitcask.Library.Guarantee

/-!
# Data files

Reading log records from the contents of a file, and the handles through which
files are opened and written.

* `readLogRecord_encode`: a record is read back, whatever is around it;
* `readLogRecord_zeros`: behind the records, a file filled up with zeros has none.

Sizes and reads are those of the file's current contents, whatever the kind of
I/O: no handle outlives its file, and only one handle at a time extends a file
that is memory mapped.
-/

namespace Bitcask

/-- What a read returns: a record and the bytes it declares to take. -/
structure ReadLogRecord where
  record : LogRecord
  size : ℕ
deriving DecidableEq, Repr

/-! ## Reading -/

/-- At most `n` bytes at an offset, fewer at the end of the file. -/
def readNBytes (content : Bytes) (n offset : ℕ) : Except Exn Bytes :=
  if n = 0 then .ok []
  else if content.length ≤ offset then .error .readDataFileEOF
  else .ok ((content.drop offset).take (min n (content.length - offset)))

/-- The header at an offset and the bytes it takes, with the checks made before
    the key and value are read. -/
def readLogRecordHeader (content : Bytes) (offset : ℕ) : Except Exn (LogRecordHeader × ℕ) :=
  if content.length ≤ offset then .error .readDataFileEOF
  else
    let headerBytes := min maxLogRecordHeaderSize (content.length - offset)
    if headerBytes < 5 then .error .readDataFileEOF
    else do
      let headerBuf ← readNBytes content headerBytes offset
      let (header, headerSize) ← decodeLogRecordHeader headerBuf
      if header.crc = 0 ∧ header.keySize = 0 ∧ header.valueSize = 0 then .error .readDataFileEOF
      else if maxRecordSize < header.keySize ∨ maxRecordSize < header.valueSize then
        .error (.bitcask "Record size too large, data may be corrupted")
      else if content.length < offset + headerSize then
        .error (.bitcask "Header extends beyond file size, data may be corrupted")
      else .ok (header, headerSize)

/-- The record read, out of the bytes available for its key and value. -/
def splitKeyValue (header : LogRecordHeader) (kvBuf : Bytes) : LogRecord :=
  let keyActualSize := min header.keySize kvBuf.length
  { key := kvBuf.take keyActualSize
    value := (kvBuf.drop keyActualSize).take header.valueSize
    type := header.type }

/-- A wrong checksum is an error only if it looks made up. -/
def checkCRC (header : LogRecordHeader) (record : LogRecord) : Bool :=
  if record.key.length = header.keySize ∧ record.value.length = header.valueSize then
    let calculated := record.getCrc
    !(calculated != header.crc &&
      ((header.crc == 0 && calculated != 0) ||
        header.crc == 0xDEADBEEF || header.crc == 0x12345678))
  else true

/-- The record at an offset. The key and the value may be cut by the end of the file. -/
def readLogRecord (content : Bytes) (offset : ℕ) : Except Exn ReadLogRecord := do
  let (header, headerSize) ← readLogRecordHeader content offset
  let kvBuf ← readNBytes content (header.keySize + header.valueSize) (offset + headerSize)
  let record := splitKeyValue header kvBuf
  if checkCRC header record then
    .ok ⟨record, headerSize + header.keySize + header.valueSize⟩
  else .error .invalidCRC

/-! ## Reading records back -/

/-- A record that can be read back. A record without key and value whose checksum
    is zero would be taken for the end of the file. -/
structure LogRecord.Readable (record : LogRecord) : Prop where
  key_le : record.key.length ≤ maxRecordSize
  value_le : record.value.length ≤ maxRecordSize
  nonzero : ¬(record.getCrc = 0 ∧ record.key = [] ∧ record.value = [])

/-- Records of the store's own types are read back if they are small enough. -/
theorem LogRecord.readable_of_le {record : LogRecord} (hk : record.key.length ≤ maxRecordSize)
    (hv : record.value.length ≤ maxRecordSize)
    (htype : record.type = .normal ∨ record.type = .deleted ∨ record.type = .txnFinished) :
    record.Readable := by
  refine ⟨hk, hv, ?_⟩
  obtain ⟨key, value, type⟩ := record
  rintro ⟨hcrc, rfl, rfl⟩
  rcases htype with rfl | rfl | rfl <;> revert hcrc <;> decide +kernel

theorem LogRecord.Readable.encodedSize_lt {record : LogRecord} (h : record.Readable) :
    record.encode.length < 2 ^ 32 := by
  have hmax : maxRecordSize = 67108864 := rfl
  have h1 := h.key_le
  have h2 := h.value_le
  have h3 := length_encodeVarint_le record.key.length
  have h4 := length_encodeVarint_le record.value.length
  rw [record.length_encode, LogRecord.headerSize]
  omega

theorem readNBytes_eq {content : Bytes} {n offset : ℕ} (h : n = 0 ∨ offset < content.length) :
    readNBytes content n offset = .ok ((content.drop offset).take n) := by
  unfold readNBytes
  split
  · simp [*]
  · rw [if_neg (by omega), ← List.length_drop, ← List.take_eq_take_min]

/-- Less than five bytes are not read. -/
theorem readLogRecord_eof {content : Bytes} {offset : ℕ} (h : content.length < offset + 5) :
    readLogRecord content offset = .error .readDataFileEOF := by
  have hmin : min maxLogRecordHeaderSize (content.length - offset) < 5 := by omega
  unfold readLogRecord readLogRecordHeader
  split
  · rfl
  · simp only [if_pos hmin]
    rfl

/-- Zeros are taken for the end of the file, unless just five or six are left. -/
theorem readLogRecord_zeros {content : Bytes} {offset zeros : ℕ}
    (h : content.drop offset = List.replicate zeros 0) (h5 : zeros ≠ 5) (h6 : zeros ≠ 6) :
    readLogRecord content offset = .error .readDataFileEOF := by
  have hlen := congrArg List.length h
  rw [List.length_drop, List.length_replicate] at hlen
  rcases Nat.lt_or_ge zeros 7 with hlt | hge
  · exact readLogRecord_eof (by omega)
  have hmin : 7 ≤ min maxLogRecordHeaderSize (content.length - offset) := by
    unfold maxLogRecordHeaderSize
    omega
  have htake : (content.drop offset).take (min maxLogRecordHeaderSize (content.length - offset)) =
      List.replicate 7 0 ++
        List.replicate (min maxLogRecordHeaderSize (content.length - offset) - 7) 0 := by
    rw [h, List.take_replicate, List.replicate_append_replicate]
    congr 1
    omega
  have hdecode : decodeLogRecordHeader (List.replicate 7 0) = .ok (⟨0, ⟨0⟩, 0, 0⟩, 7) := rfl
  rw [readLogRecord, readLogRecordHeader, if_neg (by omega)]
  simp only [if_neg (by omega : ¬min maxLogRecordHeaderSize (content.length - offset) < 5)]
  rw [readNBytes_eq (.inr (by omega)), htake]
  simp only [bind, Except.bind, decodeLogRecordHeader_append_right hdecode]
  rfl

section Encoded

variable {content rest : Bytes} {offset : ℕ} {record : LogRecord}

theorem LogRecord.Readable.headerSize_le (h : record.Readable) : record.headerSize ≤ 13 := by
  have hmax : maxRecordSize < 2 ^ (7 * 4) := by decide
  have h1 := length_encodeVarint_le_of_lt (by decide) (h.key_le.trans_lt hmax)
  have h2 := length_encodeVarint_le_of_lt (by decide) (h.value_le.trans_lt hmax)
  unfold headerSize
  omega

theorem LogRecord.Readable.decodedHeader_eq (h : record.Readable) : record.decodedHeader =
    ⟨record.getCrc, record.type, record.key.length, record.value.length⟩ := by
  have hmax : maxRecordSize < 2 ^ 32 := by decide
  have h1 := h.key_le
  have h2 := h.value_le
  rw [decodedHeader, Nat.mod_eq_of_lt (by omega : record.key.length < 2 ^ 64),
    Nat.mod_eq_of_lt (by omega : record.value.length < 2 ^ 64), Nat.mod_eq_of_lt (by omega),
    Nat.mod_eq_of_lt (by omega)]

/-- A file ends behind what is found at an offset. -/
theorem length_eq_of_drop {data : Bytes} (h : content.drop offset = data) (hne : data ≠ []) :
    content.length = offset + data.length := by
  have hlen := congrArg List.length h
  have hpos := List.length_pos_iff.2 hne
  rw [List.length_drop] at hlen
  omega

/-- The header of a record is read if it is complete, however much of the key and
    value is there. -/
theorem readLogRecordHeader_header (hr : record.Readable)
    (h : content.drop offset = record.header ++ rest) :
    readLogRecordHeader content offset =
      .ok (⟨record.getCrc, record.type, record.key.length, record.value.length⟩,
        record.headerSize) := by
  have h7 := record.seven_le_headerSize
  have hne : record.header ++ rest ≠ [] := fun hnil => by
    have := congrArg List.length hnil
    simp at this
    omega
  have hlen := length_eq_of_drop h hne
  rw [List.length_append, LogRecord.length_header] at hlen
  have h13 := hr.headerSize_le
  have hmin : record.headerSize ≤ min maxLogRecordHeaderSize (content.length - offset) := by
    unfold maxLogRecordHeaderSize
    omega
  have hnz : ¬(record.getCrc = 0 ∧ record.key.length = 0 ∧ record.value.length = 0) := by
    simpa only [List.length_eq_zero_iff] using hr.nonzero
  rw [readLogRecordHeader, if_neg (by omega)]
  simp only [if_neg (by omega : ¬min maxLogRecordHeaderSize (content.length - offset) < 5)]
  rw [readNBytes_eq (.inr (by omega)), h, List.take_append, LogRecord.length_header,
    List.take_of_length_le (by rw [LogRecord.length_header]; exact hmin)]
  simp only [bind, Except.bind, decodeLogRecordHeader_header, hr.decodedHeader_eq, if_neg hnz]
  rw [if_neg (by have := hr.key_le; have := hr.value_le; omega), if_neg (by omega)]

/-- A record is read back, whatever is around it. -/
theorem readLogRecord_encode (hr : record.Readable)
    (h : content.drop offset = record.encode ++ rest) :
    readLogRecord content offset = .ok ⟨record, record.encode.length⟩ := by
  rw [LogRecord.encode_eq, List.append_assoc] at h
  have hdrop : content.drop (offset + record.headerSize) = record.key ++ record.value ++ rest := by
    rw [← List.drop_drop, h, List.drop_left' record.length_header]
  have hread : readNBytes content (record.key.length + record.value.length)
      (offset + record.headerSize) = .ok (record.key ++ record.value) := by
    rw [readNBytes_eq, hdrop, List.take_left' List.length_append]
    by_contra hneg
    have hlen := congrArg List.length hdrop
    rw [List.length_drop, List.length_append, List.length_append] at hlen
    omega
  have hsplit : splitKeyValue
      ⟨record.getCrc, record.type, record.key.length, record.value.length⟩
      (record.key ++ record.value) = record := by
    simp [splitKeyValue]
  rw [readLogRecord, readLogRecordHeader_header hr h]
  simp only [bind, Except.bind, hread, hsplit, checkCRC]
  rw [if_pos (by simp), LogRecord.length_encode, Nat.add_assoc]

end Encoded

/-! ## Handles -/

/-- A handle of a file. -/
structure DataFile where
  path : FilePath
  fileId : ℕ
  writeOff : ℕ
  ioType : IOType
deriving DecidableEq, Repr

open Sys Guarantee

/-- The size a memory-mapped file is extended to, to hold so many bytes. -/
def roundUpToPage (size : ℕ) : ℕ := (size + pageSize - 1) / pageSize * pageSize

/-- Opens a file, creating it and, for standard I/O, its directory. An empty
    file is extended when it is memory mapped. -/
def createIOManager (path : FilePath) : IOType → Sys Unit
  | .standardFio => do
    ensureDirectory path.dir
    match ← call (.open path) with
    | .fail => throw (.bitcask "Failed to open file")
    | _ => touch path
  | .memoryMap => do
    match ← call (.open path) with
    | .fail => throw (.runtimeError "Failed to open file")
    | _ =>
      touch path
      if (← get).fs.file? path = some [] then
        change (·.store path (List.replicate pageSize 0))

/-- The world after a file has been opened for standard I/O. -/
def World.opened (w : World) (path : FilePath) : World :=
  (w.withDirectory path.dir).withFile path

section Opened

variable (w : World) (path : FilePath)

@[simp]
theorem World.opened_outcomes : (w.opened path).outcomes = w.outcomes := by simp [opened]

@[simp]
theorem World.opened_seeds : (w.opened path).seeds = w.seeds := by simp [opened]

theorem World.opened_file?_self :
    (w.opened path).fs.file? path = some ((w.fs.file? path).getD []) := by
  rw [opened, withFile_file?_self _ _ (withDirectory_directoryExists _ _), withDirectory_file?]

theorem World.opened_file?_of_ne {p : FilePath} (h : p ≠ path) :
    (w.opened path).fs.file? p = w.fs.file? p := by
  rw [opened, withFile_file?_of_ne _ _ h, withDirectory_file?]

theorem World.opened_lookup_of_ne {dir : Path} (h : dir ≠ path.dir) :
    (w.opened path).fs.lookup dir = w.fs.lookup dir := by
  rw [opened, withFile_lookup_of_ne _ _ h, withDirectory_lookup_of_ne _ _ h]

/-- Opening a file that exists changes nothing. -/
theorem World.opened_of_exists {content : Bytes} (h : w.fs.file? path = some content) :
    w.opened path = w := by
  rw [opened, withDirectory, if_pos (FS.directoryExists_of_file? h), withFile,
    if_pos (FS.fileExists_iff.2 ⟨_, h⟩)]

end Opened

theorem createIOManager_run {path : FilePath} {w : World} (h : w.outcomes (.open path) = []) :
    (createIOManager path .standardFio).run w = .ok () (w.opened path) := by
  have hcall : (w.withDirectory path.dir).next (.open path) = (.ok, w.withDirectory path.dir) :=
    World.next_of_nil (by rw [World.withDirectory_outcomes, h])
  rw [createIOManager, bind_ok (ensureDirectory_run _ _), bind_ok (call_run _ _), hcall]
  exact touch_run _ _

/-- The file system with the contents of an open file changed. A file that has
    been removed meanwhile is not there any more. -/
def storeOpen (fs : FS) (path : FilePath) (f : Bytes → Bytes) : FS :=
  match fs.file? path with
  | some content => fs.store path (f content)
  | none => fs

/-- The world after a file has been opened memory mapped. -/
def World.mapped (w : World) (path : FilePath) : World :=
  if (w.withFile path).fs.file? path = some [] then
    (w.withFile path).change ((w.withFile path).fs.store path (List.replicate pageSize 0))
  else w.withFile path

theorem createIOManager_run_memoryMap {path : FilePath} {w : World}
    (h : w.outcomes (.open path) = []) :
    (createIOManager path .memoryMap).run w = .ok () (w.mapped path) := by
  rw [createIOManager, bind_ok (call_run _ _), World.next_of_nil h]
  show (touch path >>= fun _ => _).run w = _
  rw [bind_ok (touch_run _ _)]
  show (if (w.withFile path).fs.file? path = some [] then _ else _ : Sys Unit).run _ = _
  unfold World.mapped
  split <;> rfl

section Mapped

variable (w : World) (path : FilePath)

@[simp]
theorem World.mapped_outcomes : (w.mapped path).outcomes = w.outcomes := by
  unfold mapped
  split <;> simp

@[simp]
theorem World.mapped_seeds : (w.mapped path).seeds = w.seeds := by
  unfold mapped
  split <;> simp

theorem World.mapped_file?_of_ne {p : FilePath} (h : p ≠ path) :
    (w.mapped path).fs.file? p = w.fs.file? p := by
  unfold mapped
  split
  · rw [change_fs, FS.file?_store_of_ne h, withFile_file?_of_ne _ _ h]
  · exact withFile_file?_of_ne _ _ h

theorem World.mapped_lookup_of_ne {dir : Path} (h : dir ≠ path.dir) :
    (w.mapped path).fs.lookup dir = w.fs.lookup dir := by
  unfold mapped
  split
  · rw [change_fs, FS.lookup_store_of_ne h, withFile_lookup_of_ne _ _ h]
  · exact withFile_lookup_of_ne _ _ h

/-- A file that is not empty is mapped as it is. -/
theorem World.mapped_of_ne_nil {content : Bytes} (h : w.fs.file? path = some content)
    (hne : content ≠ []) : w.mapped path = w := by
  have hfile : w.withFile path = w := if_pos (FS.fileExists_iff.2 ⟨_, h⟩)
  rw [mapped, hfile, h, if_neg (by simpa using hne)]

/-- An empty file is extended when it is mapped. -/
theorem World.mapped_file?_of_nil (h : w.fs.file? path = some []) :
    (w.mapped path).fs.file? path = some (List.replicate pageSize 0) := by
  have hfile : w.withFile path = w := if_pos (FS.fileExists_iff.2 ⟨_, h⟩)
  rw [mapped, hfile, if_pos h]
  exact FS.file?_store_self (FS.directoryExists_of_file? h)

end Mapped

namespace DataFile

def getDataFileName (dirPath : Path) (fileId : ℕ) : FilePath := ⟨dirPath, .data fileId⟩

def openDataFile (dirPath : Path) (fileId : ℕ) (ioType : IOType) : Sys DataFile := do
  createIOManager (getDataFileName dirPath fileId) ioType
  return ⟨getDataFileName dirPath fileId, fileId, 0, ioType⟩

theorem openDataFile_run {dirPath : Path} {fileId : ℕ} {w : World}
    (h : w.outcomes (.open (getDataFileName dirPath fileId)) = []) :
    (openDataFile dirPath fileId .standardFio).run w =
      .ok ⟨getDataFileName dirPath fileId, fileId, 0, .standardFio⟩
        (w.opened (getDataFileName dirPath fileId)) := by
  rw [openDataFile, bind_ok (createIOManager_run h)]
  rfl

/-- Opens one of the other files of a database. Its handle is first made for the
    data file of id 0, which is thereby created. -/
def openAuxFile (dirPath : Path) (name : FileName) : Sys DataFile := do
  let dataFile ← openDataFile dirPath 0 .standardFio
  createIOManager ⟨dirPath, name⟩ .standardFio
  return { dataFile with path := ⟨dirPath, name⟩ }

def openHintFile (dirPath : Path) : Sys DataFile := openAuxFile dirPath .hintIndex

def openMergeFinishedFile (dirPath : Path) : Sys DataFile := openAuxFile dirPath .mergeFinished

def openSeqNoFile (dirPath : Path) : Sys DataFile := openAuxFile dirPath .seqNo

variable (file : DataFile)

/-- The contents of the file of a handle. -/
def content (fs : FS) : Bytes := (fs.file? file.path).getD []

variable {file} in
theorem content_eq_of_file? {fs : FS} {content : Bytes} (h : fs.file? file.path = some content) :
    file.content fs = content := by
  rw [DataFile.content, h]
  rfl

/-- The contents of the file of a handle after writing at the handle's offset.
    A memory-mapped file that is too small is extended first. -/
def written (data content : Bytes) : Bytes :=
  match file.ioType with
  | .standardFio => overwrite content file.writeOff data
  | .memoryMap =>
    if content.length < file.writeOff + data.length then
      overwrite
        (content ++ List.replicate
          (roundUpToPage (file.writeOff + data.length) - content.length) 0)
        file.writeOff data
    else overwrite content file.writeOff data

/-- Writes at the handle's offset, which moves by the bytes written. -/
def write (data : Bytes) : Sys DataFile := do
  match ← call (.write file.path) with
  | .fail => throw (.bitcask "Failed to write data to file")
  | .ok =>
    change fun fs => storeOpen fs file.path (file.written data)
    return { file with writeOff := file.writeOff + data.length }
  | .short count =>
    change fun fs => storeOpen fs file.path (file.written (data.take count))
    return { file with writeOff := file.writeOff + (data.take count).length }

end DataFile

/-- The world after some bytes have been written through a handle. -/
def World.wrote (w : World) (file : DataFile) (data : Bytes) : World :=
  w.change (storeOpen w.fs file.path (file.written data))

section Wrote

variable (w : World) (file : DataFile) (data : Bytes)

@[simp]
theorem World.wrote_outcomes : (w.wrote file data).outcomes = w.outcomes := rfl

@[simp]
theorem World.wrote_seeds : (w.wrote file data).seeds = w.seeds := rfl

theorem World.wrote_file?_self {content : Bytes} (h : w.fs.file? file.path = some content) :
    (w.wrote file data).fs.file? file.path = some (file.written data content) := by
  rw [wrote, change_fs, storeOpen, h]
  exact FS.file?_store_self (FS.directoryExists_of_file? h)

theorem World.wrote_file?_of_ne {p : FilePath} (h : p ≠ file.path) :
    (w.wrote file data).fs.file? p = w.fs.file? p := by
  rw [wrote, change_fs, storeOpen]
  split
  · exact FS.file?_store_of_ne h
  · rfl

theorem World.wrote_lookup_of_ne {dir : Path} (h : dir ≠ file.path.dir) :
    (w.wrote file data).fs.lookup dir = w.fs.lookup dir := by
  rw [wrote, change_fs, storeOpen]
  split
  · exact FS.lookup_store_of_ne h
  · rfl

end Wrote

namespace DataFile

variable (file : DataFile)

theorem write_ok {w w' : World} {data : Bytes} (h : w.next (.write file.path) = (.ok, w')) :
    (file.write data).run w =
      .ok { file with writeOff := file.writeOff + data.length } (w'.wrote file data) := by
  rw [write, bind_ok (call_run _ _), h]
  rfl

theorem write_fail {w w' : World} {data : Bytes} (h : w.next (.write file.path) = (.fail, w')) :
    (file.write data).run w = .error (.bitcask "Failed to write data to file") w' := by
  rw [write, bind_ok (call_run _ _), h]
  rfl

def writeHintRecord (key : Bytes) (pos : LogRecordPos) : Sys DataFile :=
  file.write (LogRecord.encode { key := key, value := pos.encode, type := .normal })

/-- Opens the data file of a handle again. -/
def setIOManager (dirPath : Path) (ioType : IOType) : Sys DataFile := do
  createIOManager (getDataFileName dirPath file.fileId) ioType
  return { file with path := getDataFileName dirPath file.fileId, ioType := ioType }

end DataFile

end Bitcask
