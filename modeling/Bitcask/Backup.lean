import Bitcask.Appending
import Bitcask.HintFile

/-!
# Backups

A backup copies the data files of a database into a directory, over what is there
already, and removes nothing. A file is copied in chunks, each written before the next
one is read (`World.rewritten`).

A database that has its data in the first file (`AtFirst`) keeps them there, whatever is
requested of it (`AtFirst.step`). A backup of it copies the first file, the hint file, if
there is one, and the file of sequence numbers (`AtFirst.backup_run`).
-/

namespace Bitcask

open Transaction DataFile DBM Sys Guarantee

variable {ι : Type}

namespace DB

/-! ## Making a backup -/

/-- Copies a file into another directory if it is there, and tells whether it has been. -/
def backupFile (dirPath dir : Path) (name : FileName) : Sys Bool := do
  if ← fileExists ⟨dirPath, name⟩ then
    copyFile ⟨dirPath, name⟩ ⟨dir, name⟩
    return true
  else return false

/-- Copies a file, if possible. -/
def tryBackupFile (dirPath dir : Path) (name : FileName) : Sys Bool :=
  tryCatch (backupFile dirPath dir name) fun _ => return false

/-- Copies the data files of some ids but the active one, and tells whether any of them has
    been copied. A file that cannot be copied is left out. -/
def backupOlderFiles (dirPath dir : Path) (active : Option DataFile) : List ℕ → Sys Bool
  | [] => return false
  | fid :: rest => do
    let copied ← if active.any fun file => file.fileId = fid then pure false
      else tryBackupFile dirPath dir (.data fid)
    let more ← backupOlderFiles dirPath dir active rest
    return copied || more

/-- Copies the active file. That it cannot be copied is serious. -/
def backupActiveFile (dirPath dir : Path) : Option DataFile → Sys Bool
  | some file => tryCatch (backupFile dirPath dir (.data file.fileId)) fun _ =>
      throw (.bitcask "Failed to backup active data file")
  | none => return false

/-- Copies the data files of a database, its hint file and its file of sequence numbers. -/
def backupFiles (dirPath dir : Path) (active : Option DataFile) (fileIds : List ℕ) : Sys Unit := do
  let activeCopied ← backupActiveFile dirPath dir active
  let olderCopied ← backupOlderFiles dirPath dir active fileIds
  if !(activeCopied || olderCopied) then
    throw (.bitcask "No data files were copied during backup")
  let _ ← tryBackupFile dirPath dir .hintIndex
  let _ ← tryBackupFile dirPath dir .seqNo

/-- Copies the files of a database whose index is in memory into a directory. -/
def backup (dir : Path) : DBM ι Unit := do
  createDirectory dir
  if let some file := (← proc).db.activeFile then
    modifyDB fun db => { db with fileIds := addFileId db.fileIds file.fileId }
  let db := (← proc).db
  if db.fileIds = [] ∧ db.activeFile.isNone then return
  backupFiles db.options.dirPath dir db.activeFile db.fileIds

end DB

/-! ## Databases in the first data file -/

/-- The only data file in a directory is the first one, the hint file, if there is one, can be
    read, there is no finished merge, and no call will fail. -/
structure OneDataFile (options : Options) (w : World) : Prop where
  first : (w.fs.file? (getDataFileName options.dirPath 0)).isSome = true
  others : ∀ fid ≠ 0, w.fs.file? (getDataFileName options.dirPath fid) = none
  hint : DB.HintFits w.fs options.dirPath
  merge : DB.NoMerge w.fs options.dirPath
  outcomes : ∀ c, w.outcomes c = []

/-- A database that has its data in the first file. -/
structure AtFirst (options : Options) (p : Proc ι) : Prop where
  options_eq : p.db.options = options
  active : ∃ file, p.db.activeFile = some file ∧ file.fileId = 0 ∧
    file.path = getDataFileName options.dirPath 0
  older : ∀ fid ∈ p.db.olderFiles.keys, fid = 0
  fileIds : p.db.fileIds = [] ∨ p.db.fileIds = [0]
  world : OneDataFile options p.world

theorem OneDataFile.of_sameOthers {options : Options} {w w' : World} (h : OneDataFile options w)
    (hsame : w.SameOthers options.dirPath w')
    (hfirst : (w'.fs.file? (getDataFileName options.dirPath 0)).isSome = true) :
    OneDataFile options w' where
  first := hfirst
  others fid hne := (hsame.others fid hne).trans (h.others fid hne)
  hint content hcontent := h.hint content (hsame.hint.symm.trans hcontent)
  merge := h.merge.congr (hsame.lookup _ (DB.merge_ne _))
  outcomes c := by rw [hsame.outcomes, h.outcomes]

namespace AtFirst

variable {options : Options} {p : Proc ι}

theorem of_db (h : AtFirst options p) {q : Proc ι} (hoptions : q.db.options = p.db.options)
    (hactive : q.db.activeFile = p.db.activeFile) (holder : q.db.olderFiles = p.db.olderFiles)
    (hfileIds : q.db.fileIds = p.db.fileIds) (hworld : q.world = p.world) : AtFirst options q where
  options_eq := hoptions.trans h.options_eq
  active := hactive ▸ h.active
  older := holder ▸ h.older
  fileIds := hfileIds ▸ h.fileIds
  world := hworld ▸ h.world

theorem wrote (h : AtFirst options p) {db : DB ι} {file : DataFile} {record : LogRecord}
    (hoptions : db.options = options) (holder : ∀ fid ∈ db.olderFiles.keys, fid = 0)
    (hfileIds : db.fileIds = [] ∨ db.fileIds = [0])
    (hid : file.fileId = 0) (hpath : file.path = getDataFileName options.dirPath 0) :
    AtFirst options ⟨db.written file record, p.world.wrote file record.encode⟩ where
  options_eq := hoptions
  active := ⟨_, rfl, hid, hpath⟩
  older := holder
  fileIds := hfileIds
  world := by
    obtain ⟨content, hcontent⟩ := Option.isSome_iff_exists.1 h.world.first
    refine h.world.of_sameOthers (.of_first (World.wrote_outcomes _ _ _) (fun path hne => ?_)
      fun dir hne => ?_) ?_
    · exact World.wrote_file?_of_ne _ _ _ (by rwa [hpath])
    · exact World.wrote_lookup_of_ne _ _ _ (by rwa [hpath])
    · rw [← hpath] at hcontent ⊢
      rw [World.wrote_file?_self _ _ _ hcontent]
      rfl

/-- A record is appended to the first file. A rotation goes on with the first file, too. -/
theorem append (record : LogRecord) :
    Keeps (AtFirst options) (DB.appendLogRecordInternal record : DBM ι _) fun _ => True := by
  intro p h
  obtain ⟨file, hactive, hid, hpath⟩ := h.active
  have hfirstPath : p.db.firstPath = getDataFileName options.dirPath 0 := by
    rw [DB.firstPath, h.options_eq]
    rfl
  by_cases hfit : file.writeOff + record.encode.length ≤ p.db.options.dataFileSize
  · rw [DB.appendLogRecordInternal_ok hactive hfit (World.next_of_nil (h.world.outcomes _))]
    exact ⟨h.wrote h.options_eq h.older h.fileIds hid hpath, fun _ _ _ => trivial⟩
  · obtain ⟨content, hcontent⟩ := Option.isSome_iff_exists.1 h.world.first
    have hopened : p.world.opened p.db.firstPath = p.world :=
      World.opened_of_exists _ _ (hfirstPath ▸ hcontent)
    have hfileIds : (p.db.reset file).fileIds = [0] := by
      show DB.addFileId p.db.fileIds file.fileId = [0]
      rw [hid]
      rcases h.fileIds with hnil | hone
      · rw [hnil]
        rfl
      · rw [hone]
        rfl
    have holder (fid : ℕ) (hfid : fid ∈ (p.db.reset file).olderFiles.keys) : fid = 0 := by
      rcases (AList.mem_insert _).1 (AList.mem_keys.2 hfid) with rfl | hmem
      · exact hid
      · exact h.older fid (AList.mem_keys.1 hmem)
    rw [DB.appendLogRecordInternal_rotate hactive (Nat.not_le.1 hfit) (h.world.outcomes _)
      (World.next_of_nil (by rw [hopened]; exact h.world.outcomes _)), hopened]
    exact ⟨h.wrote h.options_eq holder (.inr hfileIds) rfl hfirstPath, fun _ _ _ => trivial⟩

/-- Whatever is requested, the data stay in the first file. -/
theorem step [Indexer ι] {s : Session ι} (h : AtFirst options s.proc) (op : Op) :
    AtFirst options (s.step op).1.proc :=
  Session.step_of_append (fun _ _ hsame hp => hp.of_db hsame.options hsame.activeFile
    hsame.olderFiles hsame.fileIds hsame.world) append h op

end AtFirst

/-! ## The copies -/

namespace World

/-- The world after so many chunks of contents have been written to a file that has some of them
    already. -/
def chunked (path : FilePath) (content : Bytes) : ℕ → ℕ → World → World
  | 0, _, w => w
  | n + 1, chunks, w => chunked path content n (chunks + 1)
      (w.change (w.fs.store path (content.take ((chunks + 1) * copyBufferSize))))

/-- The world with new contents of a file, which has been emptied before. -/
def rewritten (w : World) (path : FilePath) (content : Bytes) : World :=
  (w.change (w.fs.store path [])).chunked path content (chunkCount content) 0

/-- What each chunk keeps is kept when a file gets new contents. -/
theorem rewritten_induction {path : FilePath} {content : Bytes} {P : World → Prop}
    (hchunk : ∀ w n, P w → P (w.change (w.fs.store path (content.take (n * copyBufferSize)))))
    {w : World} (h : P w) : P (w.rewritten path content) := by
  have hchunks (n chunks : ℕ) (w : World) (h : P w) : P (w.chunked path content n chunks) := by
    induction n generalizing chunks w with
    | zero => exact h
    | succ n ih => exact ih _ _ (hchunk w _ h)
  refine hchunks _ _ _ ?_
  have hempty := hchunk w 0 h
  rwa [Nat.zero_mul, List.take_zero] at hempty

theorem le_chunkCount (content : Bytes) :
    content.length ≤ chunkCount content * copyBufferSize := by
  unfold chunkCount copyBufferSize
  omega

section Rewritten

variable (w : World) (path : FilePath) (content : Bytes)

theorem rewritten_outcomes : (w.rewritten path content).outcomes = w.outcomes :=
  rewritten_induction (P := fun w' => w'.outcomes = w.outcomes) (fun _ _ h => h) rfl

theorem rewritten_lookup_of_ne {d : Path} (h : d ≠ path.dir) :
    (w.rewritten path content).fs.lookup d = w.fs.lookup d :=
  rewritten_induction (P := fun w' => w'.fs.lookup d = w.fs.lookup d)
    (fun _ _ hw => (FS.lookup_store_of_ne h).trans hw) rfl

theorem rewritten_file?_of_ne {p : FilePath} (h : p ≠ path) :
    (w.rewritten path content).fs.file? p = w.fs.file? p :=
  rewritten_induction (P := fun w' => w'.fs.file? p = w.fs.file? p)
    (fun _ _ hw => (FS.file?_store_of_ne h).trans hw) rfl

theorem rewritten_directoryExists (d : Path) :
    (w.rewritten path content).fs.directoryExists d = w.fs.directoryExists d :=
  rewritten_induction (P := fun w' => w'.fs.directoryExists d = w.fs.directoryExists d)
    (fun _ _ hw => FS.directoryExists_store.trans hw) rfl

variable {w path content}

theorem rewritten_file?_self (h : w.fs.directoryExists path.dir = true) :
    (w.rewritten path content).fs.file? path = some content := by
  -- The chunks that have been written are the front part of the contents.
  have hchunks (n chunks : ℕ) (w : World) (hdir : w.fs.directoryExists path.dir = true)
      (hfile : w.fs.file? path = some (content.take (chunks * copyBufferSize))) :
      (w.chunked path content n chunks).fs.file? path =
        some (content.take ((chunks + n) * copyBufferSize)) := by
    induction n generalizing chunks w with
    | zero => exact hfile
    | succ n ih =>
      rw [chunked, ih (chunks + 1) _ (FS.directoryExists_store.trans hdir)
        (FS.file?_store_self hdir), Nat.add_right_comm, Nat.add_assoc]
  rw [rewritten, hchunks _ 0 _ (FS.directoryExists_store.trans h), Nat.zero_add,
    List.take_of_length_le (le_chunkCount content)]
  rw [Nat.zero_mul, List.take_zero]
  exact FS.file?_store_self h

end Rewritten

/-- The world after a file has been copied into another directory, if it is there. -/
def copied (w : World) (dirPath dir : Path) (name : FileName) : World :=
  match w.fs.file? ⟨dirPath, name⟩ with
  | some content => w.rewritten ⟨dir, name⟩ content
  | none => w

section Copied

variable (w : World) (dirPath dir : Path) (name : FileName)

theorem copied_outcomes : (w.copied dirPath dir name).outcomes = w.outcomes := by
  unfold copied
  split
  · exact rewritten_outcomes _ _ _
  · rfl

theorem copied_lookup_of_ne {d : Path} (h : d ≠ dir) :
    (w.copied dirPath dir name).fs.lookup d = w.fs.lookup d := by
  unfold copied
  split
  · exact rewritten_lookup_of_ne _ _ _ h
  · rfl

theorem copied_file?_of_ne {path : FilePath} (h : path ≠ ⟨dir, name⟩) :
    (w.copied dirPath dir name).fs.file? path = w.fs.file? path := by
  unfold copied
  split
  · exact rewritten_file?_of_ne _ _ _ h
  · rfl

theorem copied_directoryExists (d : Path) :
    (w.copied dirPath dir name).fs.directoryExists d = w.fs.directoryExists d := by
  unfold copied
  split
  · exact rewritten_directoryExists _ _ _ d
  · rfl

/-- The copy has the contents of the file, if that is there. -/
theorem copied_file?_eq (hdir : w.fs.directoryExists dir = true) :
    (w.copied dirPath dir name).fs.file? ⟨dir, name⟩ =
      (w.fs.file? ⟨dirPath, name⟩).or (w.fs.file? ⟨dir, name⟩) := by
  unfold copied
  split
  · rw [rewritten_file?_self hdir, ‹w.fs.file? ⟨dirPath, name⟩ = _›]
    rfl
  · rw [‹w.fs.file? ⟨dirPath, name⟩ = _›]
    rfl

theorem copied_file?_self {content : Bytes} (h : w.fs.file? ⟨dirPath, name⟩ = some content)
    (hdir : w.fs.directoryExists dir = true) :
    (w.copied dirPath dir name).fs.file? ⟨dir, name⟩ = some content := by
  rw [copied_file?_eq _ _ _ _ hdir, h]
  rfl

end Copied

end World

/-- Writing chunks without a failing call. -/
theorem Sys.writeChunks_run {w : World} (houtcomes : ∀ c, w.outcomes c = []) (dst : FilePath)
    (content : Bytes) (n chunks : ℕ) :
    (writeChunks dst content n chunks).run w = .ok () (w.chunked dst content n chunks) := by
  induction n generalizing chunks w with
  | zero => rfl
  | succ n ih =>
    have hcall : (call (.write dst)).run w = .ok .ok w := by
      rw [call_run, World.next_of_nil (houtcomes _)]
    have hstore : (change (·.store dst (content.take ((chunks + 1) * copyBufferSize)))).run w =
        .ok () (w.change (w.fs.store dst (content.take ((chunks + 1) * copyBufferSize)))) := rfl
    rw [writeChunks, bind_ok hcall]
    dsimp only
    rw [bind_ok hstore]
    exact ih (w := w.change _) houtcomes (chunks + 1)

/-- Copying a file to another place, without a failing call. -/
theorem Sys.copyFile_run {w : World} (houtcomes : ∀ c, w.outcomes c = []) {src dst : FilePath}
    {content : Bytes} (hsrc : w.fs.file? src = some content) (hne : src ≠ dst) :
    (copyFile src dst).run w = .ok () (w.rewritten dst content) := by
  set w₁ := w.change (w.fs.store dst []) with hw₁
  have hget (w : World) : (get : Sys World).run w = .ok w w := rfl
  have hcall : (call (.open dst)).run w = .ok .ok w := by
    rw [call_run, World.next_of_nil (houtcomes _)]
  have hempty : (change (·.store dst [])).run w = .ok () w₁ := rfl
  have hsrc₁ : w₁.fs.file? src = some content := (FS.file?_store_of_ne hne).trans hsrc
  rw [copyFile, bind_ok (hget w)]
  simp only [hsrc]
  rw [bind_ok hcall]
  simp only
  rw [bind_ok hempty, bind_ok (hget w₁), hsrc₁, Option.getD_some]
  exact writeChunks_run (w := w₁) houtcomes dst content (chunkCount content) 0

namespace DB

theorem backupFile_run {w : World} (houtcomes : ∀ c, w.outcomes c = []) {dirPath dir : Path}
    (hdir : dir ≠ dirPath) (name : FileName) : (backupFile dirPath dir name).run w =
      .ok (w.fs.fileExists ⟨dirPath, name⟩) (w.copied dirPath dir name) := by
  have hexists : (fileExists ⟨dirPath, name⟩).run w = .ok (w.fs.fileExists ⟨dirPath, name⟩) w := rfl
  rw [backupFile, bind_ok hexists, World.copied, FS.fileExists]
  rcases hfile : w.fs.file? ⟨dirPath, name⟩ with _ | content
  · rfl
  · rw [Option.isSome_some, if_pos rfl,
      bind_ok (copyFile_run houtcomes hfile (by simpa using hdir.symm))]
    rfl

theorem tryBackupFile_run {w : World} (houtcomes : ∀ c, w.outcomes c = []) {dirPath dir : Path}
    (hdir : dir ≠ dirPath) (name : FileName) : (tryBackupFile dirPath dir name).run w =
      .ok (w.fs.fileExists ⟨dirPath, name⟩) (w.copied dirPath dir name) :=
  tryCatch_ok (backupFile_run houtcomes hdir name)

end DB

/-- The world after a backup of a database that has its data in the first file. -/
def World.backedUp (w : World) (dirPath dir : Path) : World :=
  (((w.change (w.fs.createDirectory dir)).copied dirPath dir (.data 0)).copied dirPath dir
    .hintIndex).copied dirPath dir .seqNo

section BackedUp

variable {w : World} {dirPath dir : Path}

theorem World.backedUp_outcomes : (w.backedUp dirPath dir).outcomes = w.outcomes := by
  rw [backedUp, copied_outcomes, copied_outcomes, copied_outcomes, change_outcomes]

theorem World.backedUp_lookup_of_ne {d : Path} (h : d ≠ dir) :
    (w.backedUp dirPath dir).fs.lookup d = w.fs.lookup d := by
  rw [backedUp, copied_lookup_of_ne _ _ _ _ h, copied_lookup_of_ne _ _ _ _ h,
    copied_lookup_of_ne _ _ _ _ h, change_fs, FS.lookup_createDirectory_of_ne h]

/-- What is in the target already stays there, if it is not overwritten. -/
theorem World.backedUp_file?_of_ne {name : FileName} (hdata : name ≠ .data 0)
    (hhint : name ≠ .hintIndex) (hseqNo : name ≠ .seqNo) :
    (w.backedUp dirPath dir).fs.file? ⟨dir, name⟩ = w.fs.file? ⟨dir, name⟩ := by
  rw [backedUp, copied_file?_of_ne _ _ _ _ (by simpa using hseqNo),
    copied_file?_of_ne _ _ _ _ (by simpa using hhint),
    copied_file?_of_ne _ _ _ _ (by simpa using hdata), change_fs, FS.file?_createDirectory]

theorem World.backedUp_file?_first {content : Bytes}
    (h : w.fs.file? (getDataFileName dirPath 0) = some content) :
    (w.backedUp dirPath dir).fs.file? (getDataFileName dir 0) = some content := by
  rw [backedUp, copied_file?_of_ne _ _ _ _ (by simp [getDataFileName]),
    copied_file?_of_ne _ _ _ _ (by simp [getDataFileName])]
  refine copied_file?_self _ _ _ _ ?_ FS.directoryExists_createDirectory_self
  rw [change_fs, FS.file?_createDirectory]
  exact h

/-- The hint file in the target is that of the database, or else the one that is there. -/
theorem World.backedUp_file?_hint :
    (w.backedUp dirPath dir).fs.file? ⟨dir, .hintIndex⟩ =
      (w.fs.file? ⟨dirPath, .hintIndex⟩).or (w.fs.file? ⟨dir, .hintIndex⟩) := by
  rw [backedUp, copied_file?_of_ne _ _ _ _ (by simp), copied_file?_eq,
    copied_file?_of_ne _ _ _ _ (by simp), copied_file?_of_ne _ _ _ _ (by simp), change_fs,
    FS.file?_createDirectory, FS.file?_createDirectory]
  rw [copied_directoryExists]
  exact FS.directoryExists_createDirectory_self

end BackedUp

/-- The first file is copied, and the others if they are there. -/
theorem DB.backupFiles_run {options : Options} {w : World} {dir : Path} {file : DataFile}
    (h : OneDataFile options w) (hdir : dir ≠ options.dirPath) (hid : file.fileId = 0) :
    (backupFiles options.dirPath dir (some file) [0]).run (w.change (w.fs.createDirectory dir)) =
      .ok () (w.backedUp options.dirPath dir) := by
  set w₁ := w.change (w.fs.createDirectory dir) with hw₁
  set w₂ := w₁.copied options.dirPath dir (.data 0) with hw₂
  have hdata : (backupActiveFile options.dirPath dir (some file)).run w₁ = .ok true w₂ := by
    have hexists : w₁.fs.fileExists ⟨options.dirPath, .data file.fileId⟩ = true := by
      rw [hw₁, World.change_fs, FS.fileExists, FS.file?_createDirectory, hid]
      exact h.first
    have hrun := backupFile_run (w := w₁) h.outcomes hdir (.data file.fileId)
    rw [hexists] at hrun
    rw [hw₂, ← hid]
    exact tryCatch_ok hrun
  have holder : (backupOlderFiles options.dirPath dir (some file) [0]).run w₂ = .ok false w₂ := by
    rw [backupOlderFiles, Option.any_some, decide_eq_true hid]
    rfl
  have houtcomes₂ (c : Call) : w₂.outcomes c = [] := by
    rw [hw₂, World.copied_outcomes]
    exact h.outcomes c
  have houtcomes₃ (c : Call) : (w₂.copied options.dirPath dir .hintIndex).outcomes c = [] := by
    rw [World.copied_outcomes, houtcomes₂]
  rw [backupFiles, bind_ok hdata, bind_ok holder, Bool.or_false, Bool.not_true, if_neg (by simp),
    bind_ok (tryBackupFile_run houtcomes₂ hdir _), bind_ok (tryBackupFile_run houtcomes₃ hdir _)]
  rfl

theorem AtFirst.backup_run {options : Options} {p : Proc ι} {dir : Path} (h : AtFirst options p)
    (hdir : dir ≠ options.dirPath) :
    (DB.backup dir : DBM ι Unit).run p = .ok ()
      ⟨{ p.db with fileIds := [0] }, p.world.backedUp options.dirPath dir⟩ := by
  obtain ⟨file, hactive, hid, -⟩ := h.active
  have hfileIds : DB.addFileId p.db.fileIds file.fileId = [0] := by
    rw [hid]
    rcases h.fileIds with hnil | hone
    · rw [hnil]
      rfl
    · rw [hone]
      rfl
  have hcreate : (createDirectory dir).run p.world =
      .ok () (p.world.change (p.world.fs.createDirectory dir)) := rfl
  have hfiles := DB.backupFiles_run h.world hdir hid
  rw [DB.backup, bind_ok (lift_ok hcreate), bind_ok (proc_run _)]
  simp only [hactive]
  rw [bind_ok (modifyDB_run _ _), bind_ok (proc_run _), hfileIds]
  dsimp only
  rw [if_neg (by simp), hactive, h.options_eq]
  exact lift_ok hfiles

end Bitcask
