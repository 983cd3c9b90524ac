import Bitcask.DB
import Bitcask.Library.Guarantee
import Bitcask.Library.Loop

/-!
# Opening and closing a database

How a database is loaded: the data files of its directory are opened, and their
records are read one after the other to build the index, the records of a
transaction being held back until its end is found. The hint file is loaded too,
but the index it gives is built again from the data files.
-/

namespace Bitcask

open DataFile DBM Sys FuelLoop

/-! ## Scanning a data file -/

/-- A record held back until the end of its transaction is found. -/
structure TransactionRecord where
  record : LogRecord
  pos : LogRecordPos
deriving DecidableEq, Repr

/-- What is built while the data files are read. -/
structure Loading (ι : Type) where
  index : ι
  reclaimSize : ℤ
  transactionRecords : ℕ → List TransactionRecord := fun _ => []
  seqNo : ℕ := nonTransactionSeqNo

namespace Loading

variable {ι : Type} [Indexer ι]

/-- Applies a record to the index. Whatever does not delete its key puts it. -/
def updateIndex (s : Loading ι) (key : Bytes) (type : LogRecordType) (pos : LogRecordPos) :
    Loading ι :=
  if type = .deleted then
    let ((oldPos, _), index) := Indexer.remove s.index key
    { s with
      index := index
      reclaimSize := s.reclaimSize + pos.size + (oldPos.elim 0 fun old => (old.size : ℤ)) }
  else
    let (oldPos, index) := Indexer.put s.index key pos
    { s with
      index := index
      reclaimSize := s.reclaimSize + (oldPos.elim 0 fun old => (old.size : ℤ)) }

/-- Applies the records held back for a transaction. -/
def finish (s : Loading ι) (seqNo : ℕ) : Loading ι :=
  let s' := (s.transactionRecords seqNo).foldl
    (fun s txn => s.updateIndex txn.record.key txn.record.type txn.pos) s
  { s' with transactionRecords := Function.update s'.transactionRecords seqNo [] }

/-- Holds a record of a transaction back. -/
def hold (s : Loading ι) (seqNo : ℕ) (txn : TransactionRecord) : Loading ι :=
  { s with transactionRecords :=
      Function.update s.transactionRecords seqNo (s.transactionRecords seqNo ++ [txn]) }

/-- Takes a record into account that has been read at a position. -/
def process (s : Loading ι) (record : LogRecord) (pos : LogRecordPos) : Loading ι :=
  let (realKey, seqNo) := parseLogRecordKey record.key
  let s' :=
    if seqNo = nonTransactionSeqNo then s.updateIndex realKey record.type pos
    else if record.type = .txnFinished then s.finish seqNo
    else s.hold seqNo ⟨{ record with key := realKey }, pos⟩
  { s' with seqNo := max s'.seqNo seqNo }

end Loading

/-- A pass of the loop that reads a file. A record that cannot be read is skipped
    byte by byte. -/
def scanPass {ι : Type} [Indexer ι] (fid : ℕ) (content : Bytes) :
    ℕ × Loading ι → Pass (ℕ × Loading ι) (ℕ × Loading ι)
  | (offset, s) =>
    match readLogRecord content offset with
    | .ok read =>
      .again (offset + read.size, s.process read.record ⟨fid, offset, read.size % 2 ^ 32⟩)
    | .error .readDataFileEOF => .done (offset, s)
    | .error _ =>
      if content.length ≤ offset + 1 then .done (offset + 1, s) else .again (offset + 1, s)

/-- Reads a file: the offset where reading ends and what has been built. -/
def scanFile {ι : Type} [Indexer ι] (fid : ℕ) (content : Bytes) (s : Loading ι) :
    ℕ × Loading ι :=
  (loop (scanPass fid content) (content.length + 1) (0, s)).getD (0, s)

namespace DB

variable {ι : Type}

/-! ## Data files -/

def maxScanFiles : ℕ := 1000

def maxConsecutiveMissing : ℕ := 5

/-- The loop of `findDataFiles`: it stops when files have been found and enough
    ids in a row are missing. -/
def findDataFilesLoop (fileExists : ℕ → Bool) : ℕ → ℕ → ℕ → List ℕ → List ℕ
  | 0, _, _, fileIds => fileIds
  | n + 1, fid, missing, fileIds =>
    if fileExists fid then findDataFilesLoop fileExists n (fid + 1) 0 (fileIds ++ [fid])
    else if fileIds ≠ [] ∧ maxConsecutiveMissing ≤ missing + 1 then fileIds
    else findDataFilesLoop fileExists n (fid + 1) (missing + 1) fileIds

/-- The ids of the data files in a directory. -/
def findDataFiles (fs : FS) (dirPath : Path) : List ℕ :=
  findDataFilesLoop (fun fid => fs.fileExists (getDataFileName dirPath fid)) maxScanFiles 0 0 []

/-- Opens data files, the last one as the active one. -/
def openDataFiles : List ℕ → DBM ι Unit
  | [] => return
  | fid :: rest => do
    let options := (← proc).db.options
    let ioType := if options.mmapAtStartup then .memoryMap else .standardFio
    let file ← openDataFile options.dirPath fid ioType
    if rest = [] then modifyDB fun db => { db with activeFile := some file }
    else modifyDB fun db => { db with olderFiles := db.olderFiles.insert fid file }
    openDataFiles rest

def loadDataFiles : DBM ι Unit := do
  let p ← proc
  let fileIds := findDataFiles p.world.fs p.db.options.dirPath
  modifyDB fun db => { db with fileIds := fileIds }
  if fileIds = [] then
    if p.db.isInitial then setActiveDataFile
  else openDataFiles fileIds

/-- The active file if its id is not listed. -/
def unlistedFile (db : DB ι) : List (ℕ × DataFile) :=
  match db.activeFile with
  | some file => if file.fileId ∈ db.fileIds then [] else [(file.fileId, file)]
  | none => []

/-- The files to be read, each under its id. -/
def filesToProcess (db : DB ι) : List (ℕ × DataFile) :=
  (db.fileIds.filterMap fun fid => (db.fileOf fid).map (fid, ·)) ++ db.unlistedFile

/-! ## The index -/

variable [Indexer ι]

/-- A new index. It is one in memory; an index of type `BPLUS_TREE` is loaded from its own file
    instead. -/
def createIndexer : DBM ι ι := return Indexer.create (← randomDevice)

theorem createIndexer_run (p : Proc ι) : (createIndexer : DBM ι ι).run p =
    .ok (Indexer.create p.world.seeds)
      { p with world := { p.world with seeds := p.world.seeds + 1 } } := rfl

/-- Sets the write offset of the active file if it is the one just read. -/
def setWriteOff (db : DB ι) (fid offset : ℕ) : DB ι :=
  match db.activeFile with
  | some file =>
    if file.fileId = fid then { db with activeFile := some { file with writeOff := offset } }
    else db
  | none => db

/-- Reads files one after the other. -/
def scanFiles (fs : FS) : List (ℕ × DataFile) → DB ι × Loading ι → DB ι × Loading ι
  | [], x => x
  | (fid, file) :: rest, (db, s) =>
    let x := scanFile fid (file.content fs) s
    scanFiles fs rest (db.setWriteOff fid x.1, x.2)

/-- The database after its data files have been read into an index. -/
def scanned (db : DB ι) (fs : FS) (index : ι) : DB ι :=
  let x := scanFiles fs db.filesToProcess (db, { index := index, reclaimSize := db.reclaimSize })
  { x.1 with index := x.2.index, reclaimSize := x.2.reclaimSize, seqNo := x.2.seqNo }

/-- Builds the index from the data files. The marker of a finished merge has
    served its purpose. -/
def loadIndexFromDataFiles : DBM ι Unit := do
  let db := (← proc).db
  if db.fileIds = [] ∧ db.activeFile.isNone then return
  let index ← createIndexer
  removeIfExists ⟨db.options.dirPath, .mergeFinished⟩
  let fs := (← proc).world.fs
  modifyDB fun db => db.scanned fs index

/-- A pass of the loop that reads the hint file. Only its end stops it. -/
def hintPass (content : Bytes) : ℕ × ι → Pass (ℕ × ι) (Option Exn × ι)
  | (offset, index) =>
    match readLogRecord content offset with
    | .ok read =>
      match LogRecordPos.decode read.record.value with
      | .ok pos => .again (offset + read.size, (Indexer.put index read.record.key pos).2)
      | .error e => .done (some e, index)
    | .error .readDataFileEOF => .done (none, index)
    | .error e => .done (some e, index)

/-- Loads positions from the hint file, if there is one. -/
def loadIndexFromHintFile : DBM ι Unit := do
  let dirPath := (← proc).db.options.dirPath
  unless ← fileExists ⟨dirPath, .hintIndex⟩ do return
  let hintFile ← openHintFile dirPath
  let content := hintFile.content (← proc).world.fs
  let index := (← proc).db.index
  let (e, index) := (loop (hintPass content) (content.length + 1) (0, index)).getD (none, index)
  modifyDB fun db => { db with index := index }
  match e with
  | some e => throw e
  | none => return

/-! ## Opening and closing -/

/-- Copies the files of a directory but one into another directory. -/
def copyDirectory (src dst : Path) (exclude : FileName) : List FileName → Sys Unit
  | [] => return
  | name :: rest => do
    if name ≠ exclude then copyFile ⟨src, name⟩ ⟨dst, name⟩
    copyDirectory src dst exclude rest

/-- Takes over the files of a merge that was finished but not completed, from the
    subdirectory `merge`. -/
def loadMergeFiles : DBM ι Unit := do
  let dirPath := (← proc).db.options.dirPath
  let mergeDir := dirPath ++ "/merge".toList
  unless ← directoryExists mergeDir do return
  unless ← fileExists ⟨mergeDir, .mergeFinished⟩ do return
  let names := (((← proc).world.fs.lookup mergeDir).getD ∅).keys
  copyDirectory mergeDir dirPath .mergeFinished names
  removeDirectory mergeDir

/-- Opens the handles of the data files again, for standard I/O. -/
def resetIOType : DBM ι Unit := do
  let dirPath := (← proc).db.options.dirPath
  if let some file := (← proc).db.activeFile then
    let file ← file.setIOManager dirPath .standardFio
    modifyDB fun db => { db with activeFile := some file }
  for fid in (← proc).db.olderFiles.keys do
    if let some file := (← proc).db.olderFiles.lookup fid then
      let file ← file.setIOManager dirPath .standardFio
      modifyDB fun db => { db with olderFiles := db.olderFiles.insert fid file }

/-- Makes the directory and locks it. A database in a directory that is new or
    without contents is an initial one. -/
def initDirectory : DBM ι Unit := do
  let dirPath := (← proc).db.options.dirPath
  let dirExisted ← directoryExists dirPath
  ensureDirectory dirPath
  touch ⟨dirPath, .flock⟩
  let dirSize := (← proc).world.fs.dirSize dirPath
  modifyDB fun db => { db with isInitial := !dirExisted || dirSize == 0 }

/-- Loads the data files and the index. -/
def load : DBM ι Unit := do
  loadDataFiles
  if (← proc).db.fileIds ≠ [] ∨ (← proc).db.activeFile.isSome then
    loadIndexFromHintFile
    loadIndexFromDataFiles
    if (← proc).db.options.mmapAtStartup then resetIOType

def init : DBM ι Unit := do
  initDirectory
  let index ← createIndexer
  modifyDB fun db => { db with index := index }
  loadMergeFiles
  load

def checkOptions (options : Options) : Except Exn Unit :=
  if options.dirPath = [] then .error (.bitcask "Database directory path is empty")
  else if options.dataFileSize = 0 then
    .error (.bitcask "Database data file size must be greater than 0")
  else .ok ()

/-- The decimal digits of a number. -/
def decimal (n : ℕ) : Bytes := (Nat.toDigits 10 n).map fun c => UInt8.ofNat c.toNat

def seqNoKey : Bytes := [115, 101, 113, 46, 110, 111]

/-- Closes a database. Its sequence number is saved for the next opening. -/
def close : DBM ι Unit := do
  let db := (← proc).db
  let seqNoFile ← openSeqNoFile db.options.dirPath
  let _ ← seqNoFile.write (LogRecord.encode { key := seqNoKey, value := decimal db.seqNo })
  if let some file := db.activeFile then
    modifyDB fun db => { db with fileIds := addFileId db.fileIds file.fileId }

/-- The destructor of a database, which closes it. An exception that leaves it ends the
    process. -/
def destroy (db : DB ι) : Sys Unit := fun world =>
  match (close : DBM ι Unit).run ⟨db, world⟩ with
  | .ok _ p => .ok () p.world
  | .error _ p => .error .terminated p.world

/-- Opens a database in its directory. One that cannot be initialized is destroyed. -/
def «open» (options : Options) : Sys (DB ι) := fun world =>
  match checkOptions options with
  | .error e => .error e world
  | .ok _ =>
    match (init : DBM ι Unit).run ⟨{ options := options, index := Indexer.create 0 }, world⟩ with
    | .ok _ p => .ok p.db p.world
    | .error e p =>
      match (destroy p.db).run p.world with
      | .ok _ world => .error e world
      | .error ended world => .error ended world

section Open

variable {options : Options} {w : World} {p : Proc ι} {e : Exn}

theorem open_of_invalid (h : checkOptions options = .error e) :
    («open» options : Sys (DB ι)).run w = .error e w := by
  show «open» options w = _
  unfold «open»
  simp only [h]

theorem open_of_ok (hvalid : checkOptions options = .ok ())
    (h : (init : DBM ι Unit).run ⟨{ options := options, index := Indexer.create 0 }, w⟩ = .ok () p) :
    («open» options : Sys (DB ι)).run w = .ok p.db p.world := by
  show «open» options w = _
  unfold «open»
  simp only [hvalid, h]

/-- What cannot be initialized is destroyed. -/
theorem open_of_error (hvalid : checkOptions options = .ok ())
    (h : (init : DBM ι Unit).run ⟨{ options := options, index := Indexer.create 0 }, w⟩ =
      .error e p) :
    («open» options : Sys (DB ι)).run w = .error
      (((Guarantee.exn? ((destroy p.db).run p.world))).getD e)
      (Guarantee.finalState ((destroy p.db).run p.world)) := by
  show «open» options w = _
  unfold «open»
  simp only [hvalid, h]
  cases (destroy p.db).run p.world <;> rfl

end Open

end DB

end Bitcask
