import Bitcask.Load

/-!
# Merging

A merge copies the records the index points to into a new database in a
directory next to that of the database, writes a hint file and a marker there,
and then replaces the data files of the database by the copies and loads them.
Records that cannot be read are skipped byte by byte while copying; so are
records that cannot be written.
-/

namespace Bitcask

open DataFile DBM Sys FuelLoop

namespace DB

variable {ι : Type}

/-- The directory of a merge: next to the one of the database, with a suffix. -/
def getMergePath (dirPath : Path) : Path :=
  if '/' ∈ dirPath then
    let dirName := (dirPath.reverse.takeWhile (· ≠ '/')).reverse
    let parentPath := dirPath.take (dirPath.length - dirName.length - 1)
    parentPath ++ ['/'] ++ dirName ++ mergeDirSuffix
  else dirPath ++ mergeDirSuffix

/-- Opens data files for reading. -/
def openMergeFiles (dirPath : Path) : List ℕ → Sys (List DataFile)
  | [] => return []
  | fid :: rest => do
    let file ← openDataFile dirPath fid .standardFio
    let files ← openMergeFiles dirPath rest
    return file :: files

/-- Makes the active file an old one, opens its successor, and opens all old files
    for reading. -/
def rotateMergeFiles : DBM ι (List DataFile) := do
  let db := (← proc).db
  let olderIds := db.olderFiles.keys
  if let some file := db.activeFile then
    modifyDB fun db => { db with
      activeFile := none
      olderFiles := db.olderFiles.insert file.fileId file }
    setActiveDataFile
    openMergeFiles db.options.dirPath ((olderIds ++ [file.fileId]).insertionSort (· ≤ ·))
  else openMergeFiles db.options.dirPath (olderIds.insertionSort (· ≤ ·))

variable [Indexer ι]

/-- The keys of an index with their positions. -/
def validRecords (index : ι) : List (Bytes × LogRecordPos) :=
  (Indexer.listKeys index).filterMap fun key => (Indexer.get index key).map (key, ·)

/-- A merge while it copies records: where it reads, the database and the hint file
    it writes, and the world. -/
structure MergeScan (ι : Type) where
  offset : ℕ
  mergeDb : DB ι
  hintFile : DataFile
  world : World

/-- Whether a record read is the one its key stands for. -/
def isValid (valid : List (Bytes × LogRecordPos)) (fid offset : ℕ) (record : LogRecord) : Bool :=
  match valid.lookup (parseLogRecordKey record.key).1 with
  | some pos => pos.fid = fid ∧ pos.offset = offset ∧ record.type ≠ .deleted
  | none => false

/-- A record as it is copied: its key stored plainly. -/
def copyOf (record : LogRecord) : LogRecord :=
  { record with
    key := logRecordKeyWithSeq (parseLogRecordKey record.key).1 nonTransactionSeqNo }

/-- Reading goes on after an exception, one byte further, unless it is the end of
    the file. -/
def MergeScan.skip (s : MergeScan ι) : Exn → Pass (MergeScan ι) (MergeScan ι)
  | .readDataFileEOF => .done s
  | _ => .again { s with offset := s.offset + 1 }

omit [Indexer ι] in
/-- Copies a record to the merge database, and its new position to the hint file. -/
def copyRecord (record : LogRecord) (size : ℕ) (s : MergeScan ι) :
    Pass (MergeScan ι) (MergeScan ι) :=
  match (appendLogRecordInternal (copyOf record)).run ⟨s.mergeDb, s.world⟩ with
  | .error e p => MergeScan.skip { s with mergeDb := p.db, world := p.world } e
  | .ok pos p =>
    match (s.hintFile.writeHintRecord (parseLogRecordKey record.key).1 pos).run p.world with
    | .error e world => MergeScan.skip { s with mergeDb := p.db, world := world } e
    | .ok hintFile world =>
      .again ⟨s.offset + size, p.db, hintFile, world⟩

/-- A pass of the loop that copies the valid records of a file. -/
def mergePass (valid : List (Bytes × LogRecordPos)) (file : DataFile) (s : MergeScan ι) :
    Pass (MergeScan ι) (MergeScan ι) :=
  match readLogRecord (file.content s.world.fs) s.offset with
  | .error e => s.skip e
  | .ok read =>
    if isValid valid file.fileId s.offset read.record then copyRecord read.record read.size s
    else .again { s with offset := s.offset + read.size }

/-- Copies the valid records of files. -/
def mergeScan (valid : List (Bytes × LogRecordPos)) :
    List DataFile → MergeScan ι → MergeScan ι
  | [], s => s
  | file :: rest, s =>
    let s := { s with offset := 0 }
    let s := (loop (mergePass valid file) ((file.content s.world.fs).length + 1) s).getD s
    mergeScan valid rest s

/-- Writes the marker of a finished merge. -/
def writeMergeFinished (mergePath : Path) (nonMergeFileId : ℕ) : Sys Unit := do
  let file ← openMergeFinishedFile mergePath
  let _ ← file.write (LogRecord.encode
    { key := mergeFinishedKey, value := decimal nonMergeFileId, type := .normal })

def maxMergeFiles : ℕ := 10000

/-- Removes data files. -/
def removeDataFiles (dirPath : Path) : List ℕ → Sys Unit
  | [] => return
  | fid :: rest => do
    removeIfExists (getDataFileName dirPath fid)
    removeDataFiles dirPath rest

/-- Copies data files, up to the first one missing behind one that is there. -/
def copyMergedFiles (src dst : Path) : ℕ → ℕ → Bool → Sys Unit
  | 0, _, _ => return
  | n + 1, fid, found => do
    if ← fileExists (getDataFileName src fid) then
      copyFile (getDataFileName src fid) (getDataFileName dst fid)
      copyMergedFiles src dst n (fid + 1) true
    else if found then return
    else copyMergedFiles src dst n (fid + 1) false

/-- Copies a file that may be missing. -/
def copyIfExists (src dst : FilePath) : Sys Unit := do
  if ← fileExists src then copyFile src dst

/-- Replaces the data files of the database by the copies, and adds the hint file
    and the marker. -/
def replaceFiles (mergePath : Path) : DBM ι Unit := do
  modifyDB fun db => { db with olderFiles := ∅, activeFile := none }
  let db := (← proc).db
  let dirPath := db.options.dirPath
  removeDataFiles dirPath db.fileIds
  copyMergedFiles mergePath dirPath maxMergeFiles 0 false
  copyIfExists ⟨mergePath, .hintIndex⟩ ⟨dirPath, .hintIndex⟩
  copyIfExists ⟨mergePath, .mergeFinished⟩ ⟨dirPath, .mergeFinished⟩

/-- Builds the index again. Exceptions are ignored. -/
def rebuildIndex (currentSeq : ℕ) : DBM ι Unit := do
  try
    let index ← createIndexer
    modifyDB fun db => { db with index := index }
    loadIndexFromHintFile
    loadIndexFromDataFiles
    modifyDB fun db => { db with seqNo := currentSeq }
  catch _ => return

/-- Loads the files that have replaced the old ones. -/
def reload (currentSeq : ℕ) : DBM ι Unit := do
  modifyDB fun db => { db with reclaimSize := 0, fileIds := [] }
  loadDataFiles
  rebuildIndex currentSeq
  modifyDB fun db => { db with reclaimSize := 0 }

/-- Runs a method of another database in the same world. -/
def onOther {α : Type} (other : DB ι) (m : DBM ι α) : DBM ι α := fun p =>
  match m.run ⟨other, p.world⟩ with
  | .ok a q => .ok a { p with world := q.world }
  | .error e q => .error e { p with world := q.world }

/-- Makes the copies: everything a merge does before it touches the files of the
    database. -/
def writeCopies (mergePath : Path) (files : List DataFile) (mergeDb : DB ι) : DBM ι Unit := do
  let hintFile ← openHintFile mergePath
  let p ← proc
  let s := mergeScan (validRecords p.db.index) files ⟨0, mergeDb, hintFile, p.world⟩
  set { p with world := s.world }
  writeMergeFinished mergePath (files.getLast?.elim 0 fun file => (file.fileId + 1) % 2 ^ 32)
  onOther s.mergeDb close

/-- Makes the copies, and replaces the files of the database by them. -/
def copyAndReplace (mergePath : Path) (files : List DataFile) (mergeDb : DB ι) : DBM ι Unit := do
  writeCopies mergePath files mergeDb
  let currentSeq := (← proc).db.seqNo
  replaceFiles mergePath
  reload currentSeq
  removeDirectory mergePath

/-- Runs a computation in the scope of another database, which is destroyed behind it. -/
def withDestructor (other : DB ι) (m : DBM ι Unit) : DBM ι Unit := fun p =>
  match m.run p with
  | .ok _ q =>
    match (destroy other).run q.world with
    | .ok _ world => .ok () { q with world := world }
    | .error ended world => .error ended { q with world := world }
  | .error e q =>
    match (destroy other).run q.world with
    | .ok _ world => .error e { q with world := world }
    | .error ended world => .error ended { q with world := world }

section WithDestructor

open Guarantee

variable (other : DB ι) (m : DBM ι Unit)

omit [Indexer ι] in
/-- Whatever comes of the computation, the other database is destroyed behind it. -/
theorem finalState_withDestructor (p : Proc ι) : finalState ((withDestructor other m).run p) =
    { finalState (m.run p) with
      world := finalState ((destroy other).run (finalState (m.run p)).world) } := by
  show finalState (withDestructor other m p) = _
  unfold withDestructor
  rcases m.run p with ⟨_, q⟩ | ⟨e, q⟩
  all_goals
    rw [finalState]
    dsimp only
    cases (destroy other).run q.world <;> rfl

omit [Indexer ι] in
variable {m} in
/-- What is thrown is thrown on, unless it is the end of the process. -/
theorem withDestructor_error {e : Exn} {p q : Proc ι} (h : m.run p = .error e q) :
    (withDestructor other m).run p = .error ((exn? ((destroy other).run q.world)).getD e)
      { q with world := finalState ((destroy other).run q.world) } := by
  show withDestructor other m p = _
  unfold withDestructor
  rw [h]
  dsimp only
  cases (destroy other).run q.world <;> rfl

end WithDestructor

/-- The directory of a merge, made anew, the files to be merged and the database
    the copies are written to. -/
def prepareMerge : DBM ι (Path × List DataFile × DB ι) := do
  let options := (← proc).db.options
  let mergePath := getMergePath options.dirPath
  if ← directoryExists mergePath then removeDirectory mergePath
  createDirectory mergePath
  let files ← rotateMergeFiles
  let mergeDb ← DB.open (ι := ι) { options with dirPath := mergePath }
  return (mergePath, files, mergeDb)

/-- The part of a merge during which exceptions only reset the merging flag. -/
def mergeFiles : DBM ι Unit := do
  let (mergePath, files, mergeDb) ← prepareMerge
  withDestructor mergeDb (copyAndReplace mergePath files mergeDb)

/-- The free space a merge asks for: 100 MiB. -/
def minAvailableSize : ℕ := 100 * 1024 * 1024

/-- Merges the data files. `shouldMerge` tells whether enough space is reclaimable,
    and `availableSize` is the space left on the disk. -/
def merge (shouldMerge : Bool) (availableSize : ℕ) : DBM ι Unit := do
  let db := (← proc).db
  if (db.activeFile.all fun file => file.writeOff = 0) ∧ db.olderFiles.keys = [] then return
  if db.isMerging then throw .mergeInProgress
  modifyDB fun db => { db with isMerging := true }
  if !shouldMerge then
    modifyDB fun db => { db with isMerging := false }
    throw .mergeRatioUnreached
  if availableSize < minAvailableSize then
    modifyDB fun db => { db with isMerging := false }
    throw .noEnoughSpaceForMerge
  try mergeFiles
  catch e =>
    modifyDB fun db => { db with isMerging := false }
    throw e
  modifyDB fun db => { db with isMerging := false }

end DB

end Bitcask
