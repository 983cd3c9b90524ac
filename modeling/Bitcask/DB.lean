import Mathlib.Data.List.Sort
import Bitcask.DataFile
import Bitcask.Index

/-!
# The database

A database in memory and its reads and writes: appending records to the active
file, with the rotation to a new one, and the batches that commit several writes
at once. A `Proc` is a database and the world it runs in; the methods that
change them are computations in `DBM`, which keep their effects when they throw.

How a database is opened is in `Bitcask.Load`, how it is merged in
`Bitcask.Merge`.
-/

namespace Bitcask

open DataFile Guarantee

/-- A database. -/
structure DB (ι : Type) where
  options : Options
  fileIds : List ℕ := []
  activeFile : Option DataFile := none
  olderFiles : AList (fun _ : ℕ => DataFile) := ∅
  index : ι
  seqNo : ℕ := nonTransactionSeqNo
  isMerging : Bool := false
  isInitial : Bool := false
  reclaimSize : ℤ := 0

/-- A database and the world it runs in. -/
structure Proc (ι : Type) where
  db : DB ι
  world : World

/-- Computations of a database. -/
abbrev DBM (ι : Type) := EStateM Exn (Proc ι)

namespace DBM

variable {ι α : Type}

/-- System calls made by a database. -/
def sys (m : Sys α) : DBM ι α := fun p =>
  match m.run p.world with
  | .ok a world => .ok a { p with world := world }
  | .error e world => .error e { p with world := world }

instance : MonadLift Sys (DBM ι) := ⟨sys⟩

/-- The database and the world, at this moment. -/
def proc : DBM ι (Proc ι) := MonadState.get

def modifyDB (f : DB ι → DB ι) : DBM ι Unit := modify fun p => { p with db := f p.db }

theorem proc_run (p : Proc ι) : (proc : DBM ι _).run p = .ok p p := rfl

theorem modifyDB_run (f : DB ι → DB ι) (p : Proc ι) :
    (modifyDB f).run p = .ok () { p with db := f p.db } := rfl

theorem lift_ok {m : Sys α} {p : Proc ι} {a : α} {w : World} (h : m.run p.world = .ok a w) :
    (liftM m : DBM ι α).run p = .ok a { p with world := w } := by
  show (match m.run p.world with | .ok a world => _ | .error e world => _) = _
  rw [h]

theorem lift_error {m : Sys α} {p : Proc ι} {e : Exn} {w : World}
    (h : m.run p.world = .error e w) :
    (liftM m : DBM ι α).run p = .error e { p with world := w } := by
  show (match m.run p.world with | .ok a world => _ | .error e world => _) = _
  rw [h]

/-- What a system call has returned. -/
theorem lift_eq_ok {m : Sys α} {p q : Proc ι} {a : α} (h : (liftM m : DBM ι α).run p = .ok a q) :
    ∃ w, m.run p.world = .ok a w ∧ q = { p with world := w } := by
  cases hm : m.run p.world with
  | ok b w =>
    rw [lift_ok hm] at h
    cases h
    exact ⟨w, rfl, rfl⟩
  | error e w =>
    rw [lift_error hm] at h
    cases h

end DBM

open DBM

/-! ## Stored keys -/

/-- The key and sequence number a stored key stands for. -/
def parseLogRecordKey (key : Bytes) : Bytes × ℕ :=
  if key.length < 8 then (key, nonTransactionSeqNo)
  else
    let seqNo := LittleEndian.decode (key.drop (key.length - 8))
    if seqNo = nonTransactionSeqNo then (key, nonTransactionSeqNo)
    else (key.take (key.length - 8), seqNo)

/-- The stored key of a key written under a sequence number. -/
def logRecordKeyWithSeq (key : Bytes) (seqNo : ℕ) : Bytes :=
  if seqNo = nonTransactionSeqNo then key else key ++ LittleEndian.encode 8 seqNo

theorem parseLogRecordKey_withSeq {seqNo : ℕ} (h0 : seqNo ≠ nonTransactionSeqNo)
    (hlt : seqNo < seqNoBound) (key : Bytes) :
    parseLogRecordKey (logRecordKeyWithSeq key seqNo) = (key, seqNo) := by
  have hdecode : LittleEndian.decode (LittleEndian.encode 8 seqNo) = seqNo := by
    rw [LittleEndian.decode_encode]
    exact Nat.mod_eq_of_lt hlt
  rw [logRecordKeyWithSeq, if_neg h0, parseLogRecordKey, if_neg (by simp)]
  simp [hdecode, h0]

namespace DB

variable {ι : Type}

/-! ## Reading -/

/-- The handle of a data file. -/
def fileOf (db : DB ι) (fid : ℕ) : Option DataFile :=
  match db.activeFile with
  | some file => if file.fileId = fid then some file else db.olderFiles.lookup fid
  | none => db.olderFiles.lookup fid

def getValueByPosition (db : DB ι) (fs : FS) (pos : LogRecordPos) : Except Exn Bytes :=
  match db.fileOf pos.fid with
  | none => .error .dataFileNotFound
  | some file => do
    let read ← readLogRecord (file.content fs) pos.offset
    if read.record.type = .deleted then .error .keyNotFound else .ok read.record.value

/-- The value of a key. -/
def get [Indexer ι] (db : DB ι) (fs : FS) (key : Bytes) : Except Exn Bytes :=
  if key = [] then .error .keyEmpty
  else
    match Indexer.get db.index key with
    | none => .error .keyNotFound
    | some pos => db.getValueByPosition fs pos

/-! ## Appending -/

/-- Adds a file id to a sorted list of them. -/
def addFileId (fileIds : List ℕ) (fileId : ℕ) : List ℕ :=
  if fileId ∈ fileIds then fileIds else (fileIds ++ [fileId]).insertionSort (· ≤ ·)

/-- Opens the next data file as the active one. The first id is taken if there
    is no active file. -/
def setActiveDataFile : DBM ι Unit := do
  let db := (← proc).db
  let fileId := match db.activeFile with
    | some file => (file.fileId + 1) % 2 ^ 32
    | none => initialFileId
  let file ← openDataFile db.options.dirPath fileId .standardFio
  modifyDB fun db => { db with activeFile := some file }

/-- The active file, opened if there is none. -/
def activeDataFile : DBM ι DataFile := do
  if (← proc).db.activeFile.isNone then setActiveDataFile
  match (← proc).db.activeFile with
  | some file => return file
  | none => throw .dataFileNotFound

/-- Makes the active file an old one and opens its successor. The active file is
    gone by the time the successor's id is chosen. -/
def rotate (file : DataFile) : DBM ι Unit := do
  modifyDB fun db => { db with
    activeFile := none
    olderFiles := db.olderFiles.insert file.fileId file
    fileIds := addFileId db.fileIds file.fileId }
  setActiveDataFile

/-- Writes a record behind the end of the active file, or into a new file if it
    does not fit. -/
def appendLogRecordInternal (record : LogRecord) : DBM ι LogRecordPos := do
  let active ← activeDataFile
  let data := record.encode
  let size := data.length
  if (← proc).db.options.dataFileSize < active.writeOff + size then rotate active
  let file ← activeDataFile
  let written ← file.write data
  modifyDB fun db => { db with activeFile := some written }
  return ⟨file.fileId, file.writeOff, size % 2 ^ 32⟩

section Append

variable {p : Proc ι} {file : DataFile} {record : LogRecord} {w : World}

theorem activeDataFile_run (h : p.db.activeFile = some file) :
    (activeDataFile : DBM ι DataFile).run p = .ok file p := by
  rw [activeDataFile, bind_ok (proc_run p)]
  simp only [h, Option.isNone_some, Bool.false_eq_true, if_false]
  show (proc >>= fun _ => _).run p = _
  rw [bind_ok (proc_run p)]
  simp only [h]
  rfl

/-- The database after a record has been written through a handle. -/
def written (db : DB ι) (file : DataFile) (record : LogRecord) : DB ι :=
  { db with
    activeFile := some { file with writeOff := file.writeOff + record.encode.length } }

/-- The position a record is written at. -/
def posAt (file : DataFile) (record : LogRecord) : LogRecordPos :=
  ⟨file.fileId, file.writeOff, record.encode.length % 2 ^ 32⟩

theorem appendLogRecordInternal_ok (hactive : p.db.activeFile = some file)
    (hfit : file.writeOff + record.encode.length ≤ p.db.options.dataFileSize)
    (hnext : p.world.next (.write file.path) = (.ok, w)) :
    (appendLogRecordInternal record : DBM ι _).run p =
      .ok (posAt file record) ⟨p.db.written file record, w.wrote file record.encode⟩ := by
  rw [appendLogRecordInternal, bind_ok (activeDataFile_run hactive)]
  show (proc >>= fun _ => _).run p = _
  rw [bind_ok (proc_run p), if_neg (Nat.not_lt.2 hfit)]
  show (activeDataFile >>= fun _ => _).run p = _
  rw [bind_ok (activeDataFile_run hactive), bind_ok (lift_ok (DataFile.write_ok _ hnext))]
  rfl

/-- A write that fails leaves the database as it is. -/
theorem appendLogRecordInternal_fail (hactive : p.db.activeFile = some file)
    (hfit : file.writeOff + record.encode.length ≤ p.db.options.dataFileSize)
    (hnext : p.world.next (.write file.path) = (.fail, w)) :
    (appendLogRecordInternal record : DBM ι _).run p =
      .error (.bitcask "Failed to write data to file") { p with world := w } := by
  rw [appendLogRecordInternal, bind_ok (activeDataFile_run hactive)]
  show (proc >>= fun _ => _).run p = _
  rw [bind_ok (proc_run p), if_neg (Nat.not_lt.2 hfit)]
  show (activeDataFile >>= fun _ => _).run p = _
  rw [bind_ok (activeDataFile_run hactive), bind_error (lift_error (DataFile.write_fail _ hnext))]

/-- The first data file of a database. -/
def firstPath (db : DB ι) : FilePath := getDataFileName db.options.dirPath initialFileId

/-- The handle of the first data file, to be written from its start. -/
def firstFile (db : DB ι) : DataFile := ⟨db.firstPath, initialFileId, 0, .standardFio⟩

/-- The handle of the first data file, written up to an offset. -/
def activeAt (db : DB ι) (offset : ℕ) : DataFile := { db.firstFile with writeOff := offset }

theorem firstPath_congr {db db' : DB ι} (h : db'.options = db.options) :
    db'.firstPath = db.firstPath := by
  rw [firstPath, firstPath, h]

theorem activeAt_congr {db db' : DB ι} (h : db'.options = db.options) (offset : ℕ) :
    db'.activeAt offset = db.activeAt offset := by
  rw [activeAt, activeAt, firstFile, firstFile, firstPath_congr h]

theorem setActiveDataFile_run_of_none (hactive : p.db.activeFile = none)
    (hopen : p.world.outcomes (.open p.db.firstPath) = []) :
    (setActiveDataFile : DBM ι Unit).run p =
      .ok () ⟨{ p.db with activeFile := some p.db.firstFile }, p.world.opened p.db.firstPath⟩ := by
  rw [setActiveDataFile, bind_ok (proc_run p)]
  simp only [hactive]
  rw [bind_ok (lift_ok (openDataFile_run hopen))]
  rfl

/-- The database whose active file is the first one, opened anew. -/
def reset (db : DB ι) (file : DataFile) : DB ι :=
  { db with
    activeFile := some db.firstFile
    olderFiles := db.olderFiles.insert file.fileId file
    fileIds := addFileId db.fileIds file.fileId }

/-- The successor of the active file is the first file, written from its start. -/
theorem rotate_run (hopen : p.world.outcomes (.open p.db.firstPath) = []) :
    (rotate file : DBM ι Unit).run p =
      .ok () ⟨p.db.reset file, p.world.opened p.db.firstPath⟩ := by
  rw [rotate, bind_ok (modifyDB_run _ p)]
  exact setActiveDataFile_run_of_none (p := ⟨_, p.world⟩) rfl hopen

/-- A record that does not fit is written at the start of the first file. -/
theorem appendLogRecordInternal_rotate (hactive : p.db.activeFile = some file)
    (hfit : p.db.options.dataFileSize < file.writeOff + record.encode.length)
    (hopen : p.world.outcomes (.open p.db.firstPath) = [])
    (hnext : (p.world.opened p.db.firstPath).next (.write p.db.firstPath) = (.ok, w)) :
    (appendLogRecordInternal record : DBM ι _).run p =
      .ok (posAt p.db.firstFile record)
        ⟨(p.db.reset file).written p.db.firstFile record,
          w.wrote p.db.firstFile record.encode⟩ := by
  rw [appendLogRecordInternal, bind_ok (activeDataFile_run hactive)]
  show (proc >>= fun _ => _).run p = _
  rw [bind_ok (proc_run p), if_pos hfit]
  show (rotate file >>= fun _ => _).run p = _
  rw [bind_ok (rotate_run hopen)]
  have hfirst : (p.db.reset file).activeFile = some p.db.firstFile := rfl
  show (activeDataFile >>= fun _ => _).run _ = _
  rw [bind_ok (activeDataFile_run (p := ⟨p.db.reset file, p.world.opened _⟩) hfirst),
    bind_ok (lift_ok (DataFile.write_ok _ hnext))]
  rfl

theorem appendLogRecordInternal_rotate_fail (hactive : p.db.activeFile = some file)
    (hfit : p.db.options.dataFileSize < file.writeOff + record.encode.length)
    (hopen : p.world.outcomes (.open p.db.firstPath) = [])
    (hnext : (p.world.opened p.db.firstPath).next (.write p.db.firstPath) = (.fail, w)) :
    (appendLogRecordInternal record : DBM ι _).run p =
      .error (.bitcask "Failed to write data to file") ⟨p.db.reset file, w⟩ := by
  rw [appendLogRecordInternal, bind_ok (activeDataFile_run hactive)]
  show (proc >>= fun _ => _).run p = _
  rw [bind_ok (proc_run p), if_pos hfit]
  show (rotate file >>= fun _ => _).run p = _
  rw [bind_ok (rotate_run hopen)]
  have hfirst : (p.db.reset file).activeFile = some p.db.firstFile := rfl
  show (activeDataFile >>= fun _ => _).run _ = _
  rw [bind_ok (activeDataFile_run (p := ⟨p.db.reset file, p.world.opened _⟩) hfirst),
    bind_error (lift_error (DataFile.write_fail _ hnext))]

end Append

/-! ## Writing -/

variable [Indexer ι]

/-- The position of a key in the index becomes another one. -/
def indexPut (key : Bytes) (pos : LogRecordPos) : DBM ι Unit := modifyDB fun db =>
  let (oldPos, index) := Indexer.put db.index key pos
  { db with
    index := index
    reclaimSize := db.reclaimSize + (oldPos.elim 0 fun old => (old.size : ℤ)) }

def put (key value : Bytes) : DBM ι Unit := do
  if key = [] then throw .keyEmpty
  let pos ← appendLogRecordInternal
    { key := logRecordKeyWithSeq key nonTransactionSeqNo, value := value, type := .normal }
  indexPut key pos

theorem put_nil {key : Bytes} (hkey : key = []) (value : Bytes) (p : Proc ι) :
    (put key value : DBM ι Unit).run p = .error .keyEmpty p := by
  rw [put, if_pos hkey]
  rfl

/-- A key leaves the index, and whether it was there. -/
def indexRemove (key : Bytes) : DBM ι Bool := do
  let ((oldPos, ok), index) := Indexer.remove (← proc).db.index key
  modifyDB fun db => { db with
    index := index
    reclaimSize := db.reclaimSize + (oldPos.elim 0 fun old => (old.size : ℤ)) }
  return ok

def remove (key : Bytes) : DBM ι Unit := do
  if key = [] then throw .keyEmpty
  if (Indexer.get (← proc).db.index key).isNone then return
  let pos ← appendLogRecordInternal
    { key := logRecordKeyWithSeq key nonTransactionSeqNo, type := .deleted }
  modifyDB fun db => { db with reclaimSize := db.reclaimSize + pos.size }
  unless ← indexRemove key do throw .indexUpdateFailed

theorem remove_nil {key : Bytes} (hkey : key = []) (p : Proc ι) :
    (remove key : DBM ι Unit).run p = .error .keyEmpty p := by
  rw [remove, if_pos hkey]
  rfl

end DB

/-! ## Batches -/

/-- A record that puts or deletes a key. -/
structure LogRecord.IsWrite (record : LogRecord) : Prop where
  key_ne : record.key ≠ []
  type_eq : record.type = .normal ∨ record.type = .deleted

/-- Writes to be committed together. -/
structure WriteBatch where
  options : WriteBatchOptions
  pendingWrites : List LogRecord := []
  isWrite : ∀ record ∈ pendingWrites, record.IsWrite := by simp
  seqNo : ℕ

namespace WriteBatch

open DB

variable {ι : Type}

/-- A batch takes its sequence number when it is created. -/
def new (db : DB ι) (options : WriteBatchOptions) : WriteBatch :=
  { options := options, seqNo := (db.seqNo + 1) % seqNoBound }

/-- Adds a write to a batch. -/
def add (batch : WriteBatch) (record : LogRecord)
    (htype : record.type = .normal ∨ record.type = .deleted) : Except Exn WriteBatch :=
  if hkey : record.key = [] then .error .keyEmpty
  else if batch.options.maxBatchNum ≤ batch.pendingWrites.length then
    .error (.bitcask "Batch size exceeds maximum limit")
  else .ok { batch with
    pendingWrites := batch.pendingWrites ++ [record]
    isWrite := List.forall_mem_append.2
      ⟨batch.isWrite, List.forall_mem_singleton.2 ⟨hkey, htype⟩⟩ }

def put (batch : WriteBatch) (key value : Bytes) : Except Exn WriteBatch :=
  batch.add { key := key, value := value, type := .normal } (.inl rfl)

def remove (batch : WriteBatch) (key : Bytes) : Except Exn WriteBatch :=
  batch.add { key := key, type := .deleted } (.inr rfl)

/-- A record as a batch stores it. -/
def withSeq (seqNo : ℕ) (record : LogRecord) : LogRecord :=
  { record with key := logRecordKeyWithSeq record.key seqNo }

/-- Writes the records of a batch. -/
def appendAll (seqNo : ℕ) : List LogRecord → DBM ι (List LogRecordPos)
  | [] => return []
  | record :: records => do
    let pos ← appendLogRecordInternal (withSeq seqNo record)
    let positions ← appendAll seqNo records
    return pos :: positions

/-- The record that marks the end of a transaction. -/
def txnFinRecord (seqNo : ℕ) : LogRecord :=
  { key := logRecordKeyWithSeq [] seqNo, type := .txnFinished }

variable [Indexer ι]

/-- Updates the index for one of the records of a batch. -/
def updateIndex (record : LogRecord) (pos : LogRecordPos) : DBM ι Unit := do
  if record.type = .normal then indexPut record.key pos
  else if record.type = .deleted then
    let _ ← indexRemove record.key
    modifyDB fun db => { db with reclaimSize := db.reclaimSize + pos.size }

def updateIndexes : List (LogRecord × LogRecordPos) → DBM ι Unit
  | [] => return
  | (record, pos) :: rest => do
    updateIndex record pos
    updateIndexes rest

/-- Writes a batch and the end of its transaction, then updates the index. A
    batch that is committed is empty. -/
def commit (batch : WriteBatch) : DBM ι WriteBatch := do
  if batch.pendingWrites = [] then return batch
  let positions ← appendAll batch.seqNo batch.pendingWrites
  let _ ← appendLogRecordInternal (txnFinRecord batch.seqNo)
  updateIndexes (batch.pendingWrites.zip positions)
  modifyDB fun db => { db with seqNo := (batch.seqNo + 1) % seqNoBound }
  return { options := batch.options, seqNo := batch.seqNo }

/-- A batch without writes is not changed by a commit, and changes nothing. -/
theorem commit_nil {batch : WriteBatch} (hpending : batch.pendingWrites = []) (p : Proc ι) :
    batch.commit.run p = .ok batch p := by
  rw [commit, if_pos hpending]
  rfl

end WriteBatch

end Bitcask
