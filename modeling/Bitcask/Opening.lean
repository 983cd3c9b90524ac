import Bitcask.Recovery

/-!
# Closing and opening again

A directory whose only data file is the first one is opened by reading that file
(`open_run_first`); a directory without data files is opened by making the first one
(`open_run_new`). Closing a database leaves its data files alone
(`close_run`).
-/

namespace Bitcask

open FuelLoop DataFile DBM Sys Guarantee

/-! ## Worlds with the same data files -/

/-- The data files of a directory but the first one, its hint file, the other
    directories and the outcomes of calls are the same. -/
structure World.SameOthers (dirPath : Path) (w w' : World) : Prop where
  outcomes : w'.outcomes = w.outcomes
  others : ∀ fid ≠ 0, w'.fs.file? (getDataFileName dirPath fid) =
    w.fs.file? (getDataFileName dirPath fid)
  hint : w'.fs.file? ⟨dirPath, .hintIndex⟩ = w.fs.file? ⟨dirPath, .hintIndex⟩
  lookup : ∀ dir ≠ dirPath, w'.fs.lookup dir = w.fs.lookup dir

/-- The first data file is the same, too. -/
structure World.SameData (dirPath : Path) (w w' : World) : Prop
    extends SameOthers dirPath w w' where
  first : w'.fs.file? (getDataFileName dirPath 0) = w.fs.file? (getDataFileName dirPath 0)

/-- The files of a directory can be opened. -/
def World.OpensOk (dirPath : Path) (w : World) : Prop :=
  ∀ name, w.outcomes (.open ⟨dirPath, name⟩) = []

namespace World.SameOthers

variable {dirPath : Path} {w w' w'' : World}

theorem opensOk (h : SameOthers dirPath w w') (hw : w.OpensOk dirPath) : w'.OpensOk dirPath :=
  fun name => by rw [h.outcomes, hw]

theorem trans (h : SameOthers dirPath w w') (h' : SameOthers dirPath w' w'') :
    SameOthers dirPath w w'' :=
  ⟨h'.outcomes.trans h.outcomes, fun fid hne => (h'.others fid hne).trans (h.others fid hne),
    h'.hint.trans h.hint, fun dir hne => (h'.lookup dir hne).trans (h.lookup dir hne)⟩

/-- Only the first data file changes. -/
theorem of_first (houtcomes : w'.outcomes = w.outcomes)
    (hfile : ∀ path, path ≠ getDataFileName dirPath 0 → w'.fs.file? path = w.fs.file? path)
    (hlookup : ∀ dir ≠ dirPath, w'.fs.lookup dir = w.fs.lookup dir) : SameOthers dirPath w w' :=
  ⟨houtcomes, fun fid hne => hfile _ (by simpa [getDataFileName] using hne),
    hfile _ (by simp [getDataFileName]), hlookup⟩

end World.SameOthers

namespace World.SameData

variable {dirPath : Path} {w w' w'' : World}

theorem refl (w : World) : SameData dirPath w w :=
  ⟨⟨rfl, fun _ _ => rfl, rfl, fun _ _ => rfl⟩, rfl⟩

theorem trans (h : SameData dirPath w w') (h' : SameData dirPath w' w'') :
    SameData dirPath w w'' :=
  ⟨h.toSameOthers.trans h'.toSameOthers, h'.first.trans h.first⟩

/-- Only a file of another kind changes. -/
theorem of_other {name : FileName} (hdata : ∀ fid, name ≠ .data fid) (hhint : name ≠ .hintIndex)
    (houtcomes : w'.outcomes = w.outcomes)
    (hfile : ∀ path, path ≠ ⟨dirPath, name⟩ → w'.fs.file? path = w.fs.file? path)
    (hlookup : ∀ dir ≠ dirPath, w'.fs.lookup dir = w.fs.lookup dir) : SameData dirPath w w' := by
  have hfid (fid : ℕ) : w'.fs.file? (getDataFileName dirPath fid) =
      w.fs.file? (getDataFileName dirPath fid) :=
    hfile _ fun h => hdata fid (congrArg FilePath.name h).symm
  exact ⟨⟨houtcomes, fun fid _ => hfid fid,
    hfile _ fun h => hhint (congrArg FilePath.name h).symm, hlookup⟩, hfid 0⟩

theorem of_fs (houtcomes : w'.outcomes = w.outcomes) (hfs : w'.fs = w.fs) :
    SameData dirPath w w' :=
  ⟨⟨houtcomes, fun _ _ => by rw [hfs], by rw [hfs], fun _ _ => by rw [hfs]⟩, by rw [hfs]⟩

section Other

variable {name : FileName} (hdata : ∀ fid, name ≠ .data fid) (hhint : name ≠ .hintIndex)
  (w : World)

include hdata hhint

theorem withFile : SameData dirPath w (w.withFile ⟨dirPath, name⟩) :=
  of_other hdata hhint (withFile_outcomes _ _) (fun _ h => withFile_file?_of_ne _ _ h)
    fun _ h => withFile_lookup_of_ne _ _ h

theorem withoutFile : SameData dirPath w (w.withoutFile ⟨dirPath, name⟩) :=
  of_other hdata hhint (withoutFile_outcomes _ _) (fun _ h => withoutFile_file?_of_ne _ _ h)
    fun _ h => withoutFile_lookup_of_ne _ _ h

theorem opened : SameData dirPath w (w.opened ⟨dirPath, name⟩) :=
  of_other hdata hhint (opened_outcomes _ _) (fun _ h => opened_file?_of_ne _ _ h)
    fun _ h => opened_lookup_of_ne _ _ h

theorem wrote {file : DataFile} (hpath : file.path = ⟨dirPath, name⟩) (data : Bytes) :
    SameData dirPath w (w.wrote file data) := by
  refine of_other hdata hhint (wrote_outcomes _ _ _) (fun _ h => ?_) fun _ h => ?_
  · exact wrote_file?_of_ne _ _ _ (by rwa [hpath])
  · exact wrote_lookup_of_ne _ _ _ (by rwa [hpath])

end Other

end World.SameData

namespace DB

variable {ι : Type}

/-! ## Closing -/

theorem openAuxFile_run {dirPath : Path} {name : FileName} {w : World}
    (hfirst : w.outcomes (.open (getDataFileName dirPath 0)) = [])
    (hopen : w.outcomes (.open ⟨dirPath, name⟩) = []) :
    (openAuxFile dirPath name).run w = .ok ⟨⟨dirPath, name⟩, 0, 0, .standardFio⟩
      ((w.opened (getDataFileName dirPath 0)).opened ⟨dirPath, name⟩) := by
  rw [openAuxFile, bind_ok (openDataFile_run hfirst),
    bind_ok (createIOManager_run (by rwa [World.opened_outcomes]))]
  rfl

/-- The database after it has been closed. -/
def closed (db : DB ι) : DB ι :=
  match db.activeFile with
  | some file => { db with fileIds := addFileId db.fileIds file.fileId }
  | none => db

theorem closed_of_some {db : DB ι} {file : DataFile} (h : db.activeFile = some file) :
    db.closed = { db with fileIds := addFileId db.fileIds file.fileId } := by
  unfold closed
  split
  · cases h.symm.trans ‹_›
    rfl
  · simp_all

theorem closed_of_none {db : DB ι} (h : db.activeFile = none) : db.closed = db := by
  rw [closed, h]

/-- The handle of the file of a database's sequence number. -/
def seqNoFile (db : DB ι) : DataFile := ⟨⟨db.options.dirPath, .seqNo⟩, 0, 0, .standardFio⟩

/-- The world after a database has been closed in it. -/
def closedWorld (p : Proc ι) : World :=
  ((p.world.opened p.db.firstPath).opened ⟨p.db.options.dirPath, .seqNo⟩).wrote p.db.seqNoFile
    (LogRecord.encode { key := seqNoKey, value := decimal p.db.seqNo })

/-- A database is closed if the calls made for it do not fail. -/
theorem close_eq {p : Proc ι} (hfirst : p.world.outcomes (.open p.db.firstPath) = [])
    (hopen : p.world.outcomes (.open ⟨p.db.options.dirPath, .seqNo⟩) = [])
    (hwrite : p.world.outcomes (.write ⟨p.db.options.dirPath, .seqNo⟩) = []) :
    (close : DBM ι Unit).run p = .ok () ⟨p.db.closed, closedWorld p⟩ := by
  have hseqNo : (openSeqNoFile p.db.options.dirPath).run p.world = .ok p.db.seqNoFile
      ((p.world.opened p.db.firstPath).opened ⟨p.db.options.dirPath, .seqNo⟩) :=
    openAuxFile_run hfirst hopen
  have hnext (w : World) (hw : w.outcomes = p.world.outcomes) :
      w.next (.write p.db.seqNoFile.path) = (.ok, w) :=
    World.next_of_nil (by rw [hw]; exact hwrite)
  rw [close, bind_ok (proc_run p)]
  show ((liftM (openSeqNoFile p.db.options.dirPath) : DBM ι _) >>= fun _ => _).run p = _
  rw [bind_ok (lift_ok hseqNo), bind_ok (lift_ok (DataFile.write_ok _ (hnext _ (by simp))))]
  split
  · rw [closed_of_some ‹_›]
    rfl
  · rw [closed_of_none (Option.eq_none_iff_forall_ne_some.2 ‹_›)]
    rfl

/-- Closing touches the directory of the database only. -/
theorem closedWorld_lookup_of_ne (p : Proc ι) {dir : Path} (h : dir ≠ p.db.options.dirPath) :
    (closedWorld p).fs.lookup dir = p.world.fs.lookup dir := by
  rw [closedWorld, World.wrote_lookup_of_ne _ _ _ h, World.opened_lookup_of_ne _ _ h,
    World.opened_lookup_of_ne _ _ h]

theorem close_run {p : Proc ι} {content : Bytes}
    (hfirst : p.world.fs.file? p.db.firstPath = some content)
    (houtcomes : p.world.outcomes (.open p.db.firstPath) = [])
    (hopen : p.world.outcomes (.open ⟨p.db.options.dirPath, .seqNo⟩) = [])
    (hwrite : p.world.outcomes (.write ⟨p.db.options.dirPath, .seqNo⟩) = []) :
    ∃ w, (close : DBM ι Unit).run p = .ok () ⟨p.db.closed, w⟩ ∧
      p.world.SameData p.db.options.dirPath w := by
  refine ⟨_, close_eq houtcomes hopen hwrite, ?_⟩
  rw [closedWorld, World.opened_of_exists _ _ hfirst]
  have hpath : p.db.seqNoFile.path = ⟨p.db.options.dirPath, .seqNo⟩ := rfl
  exact (World.SameData.opened (by simp) (by simp) _).trans (.wrote (by simp) (by simp) _ hpath _)

/-! ## Finding data files -/

theorem findDataFiles_eq_nil {fs : FS} {dirPath : Path}
    (h : ∀ fid, fs.file? (getDataFileName dirPath fid) = none) :
    findDataFiles fs dirPath = [] := by
  have hloop (n fid missing : ℕ) : findDataFilesLoop
      (fun fid => fs.fileExists (getDataFileName dirPath fid)) n fid missing [] = [] := by
    induction n generalizing fid missing with
    | zero => rfl
    | succ n ih =>
      rw [findDataFilesLoop, if_neg (by simp [FS.fileExists, h]), if_neg (by simp)]
      exact ih _ _
  exact hloop _ _ _

theorem findDataFiles_eq_first {fs : FS} {dirPath : Path} {content : Bytes}
    (h : fs.file? (getDataFileName dirPath 0) = some content)
    (hothers : ∀ fid ≠ 0, fs.file? (getDataFileName dirPath fid) = none) :
    findDataFiles fs dirPath = [0] := by
  have h0 : fs.fileExists (getDataFileName dirPath 0) = true := FS.fileExists_iff.2 ⟨_, h⟩
  have hmissing (fid : ℕ) : fs.fileExists (getDataFileName dirPath (fid + 1)) = false := by
    simp [FS.fileExists, hothers (fid + 1) (Nat.succ_ne_zero fid)]
  rw [findDataFiles, show maxScanFiles = 994 + 6 from rfl]
  simp [findDataFilesLoop, h0, hmissing, maxConsecutiveMissing]

/-! ## Loading -/

/-- The kind of I/O data files are opened with to be loaded. -/
def loadingIOType (options : Options) : IOType :=
  if options.mmapAtStartup then .memoryMap else .standardFio

/-- The contents of a data file when it is loaded: an empty file is extended if it
    is memory mapped. -/
def loadingContent (options : Options) (content : Bytes) : Bytes :=
  if options.mmapAtStartup ∧ content = [] then List.replicate pageSize 0 else content

section Load

variable {p : Proc ι} {content : Bytes}

/-- The only data file becomes the active one. -/
theorem openDataFiles_run {fid : ℕ} {file : DataFile} {w : World}
    (h : (openDataFile p.db.options.dirPath fid (loadingIOType p.db.options)).run p.world =
      .ok file w) :
    (openDataFiles [fid] : DBM ι Unit).run p =
      .ok () ⟨{ p.db with activeFile := some file }, w⟩ := by
  rw [openDataFiles, bind_ok (proc_run _)]
  show ((liftM (openDataFile p.db.options.dirPath fid (loadingIOType p.db.options)) : DBM ι _)
    >>= fun _ => _).run p = _
  rw [bind_ok (lift_ok h)]
  rfl

/-- If there is only the first data file, it becomes the active one. -/
theorem loadDataFiles_run_first (hfirst : p.world.fs.file? p.db.firstPath = some content)
    (hothers : ∀ fid ≠ 0, p.world.fs.file? (getDataFileName p.db.options.dirPath fid) = none)
    (hopen : p.world.outcomes (.open p.db.firstPath) = []) :
    ∃ w, (loadDataFiles : DBM ι Unit).run p = .ok ()
        ⟨{ p.db with
            fileIds := [0]
            activeFile := some ⟨p.db.firstPath, 0, 0, loadingIOType p.db.options⟩ }, w⟩ ∧
      p.world.SameOthers p.db.options.dirPath w ∧
      w.fs.file? p.db.firstPath = some (loadingContent p.db.options content) := by
  have hstart : (loadDataFiles : DBM ι Unit).run p =
      (openDataFiles [0]).run { p with db := { p.db with fileIds := [0] } } := by
    rw [loadDataFiles, bind_ok (proc_run p), findDataFiles_eq_first hfirst hothers]
    rfl
  suffices hw : ∃ w, (openDataFile p.db.options.dirPath 0 (loadingIOType p.db.options)).run p.world =
        .ok ⟨p.db.firstPath, 0, 0, loadingIOType p.db.options⟩ w ∧
      p.world.SameOthers p.db.options.dirPath w ∧
      w.fs.file? p.db.firstPath = some (loadingContent p.db.options content) by
    obtain ⟨w, hrun, hsame, hcontent⟩ := hw
    exact ⟨w, hstart.trans
      (openDataFiles_run (p := { p with db := { p.db with fileIds := [0] } }) hrun), hsame, hcontent⟩
  -- Mapping an empty file fills it up with zeros; otherwise it is opened as it is.
  cases hmmap : p.db.options.mmapAtStartup with
  | false =>
    refine ⟨p.world, ?_, (World.SameData.refl _).toSameOthers, ?_⟩
    · rw [loadingIOType, if_neg (by simp [hmmap])]
      exact (openDataFile_run hopen).trans
        (congrArg (EStateM.Result.ok _) (World.opened_of_exists _ _ hfirst))
    · rw [loadingContent, if_neg (by simp [hmmap]), hfirst]
  | true =>
    refine ⟨p.world.mapped p.db.firstPath, ?_, .of_first (World.mapped_outcomes _ _)
      (fun _ h => World.mapped_file?_of_ne _ _ h) (fun _ h => World.mapped_lookup_of_ne _ _ h), ?_⟩
    · have hmapped : (createIOManager (getDataFileName p.db.options.dirPath 0) .memoryMap).run
          p.world = .ok () (p.world.mapped p.db.firstPath) := createIOManager_run_memoryMap hopen
      rw [loadingIOType, if_pos hmmap, openDataFile, bind_ok hmapped]
      rfl
    · by_cases hnil : content = []
      · subst hnil
        rw [World.mapped_file?_of_nil _ _ hfirst, loadingContent, if_pos ⟨hmmap, rfl⟩]
      · rw [World.mapped_of_ne_nil _ _ hfirst hnil, hfirst, loadingContent, if_neg (by simp [hnil])]

/-- If there are no data files in a new directory, the first one is made. -/
theorem loadDataFiles_run_new (hnone : findDataFiles p.world.fs p.db.options.dirPath = [])
    (hactive : p.db.activeFile = none) (hinitial : p.db.isInitial = true)
    (hopen : p.world.outcomes (.open p.db.firstPath) = []) :
    (loadDataFiles : DBM ι Unit).run p = .ok ()
      ⟨{ p.db with fileIds := [], activeFile := some p.db.firstFile },
        p.world.opened p.db.firstPath⟩ := by
  have hstart : (loadDataFiles : DBM ι Unit).run p =
      (if p.db.isInitial then setActiveDataFile else pure () : DBM ι Unit).run
        { p with db := { p.db with fileIds := [] } } := by
    rw [loadDataFiles, bind_ok (proc_run p), hnone]
    rfl
  rw [hstart, if_pos hinitial]
  exact setActiveDataFile_run_of_none (p := { p with db := { p.db with fileIds := [] } }) hactive hopen

/-- If there is only one file, the index is built from it. -/
theorem loadIndexFromDataFiles_run_one [Indexer ι] {file : DataFile}
    (hactive : p.db.activeFile = some file)
    (hids : p.db.fileIds = [] ∨ p.db.fileIds = [file.fileId])
    (hpath : file.path = getDataFileName p.db.options.dirPath file.fileId)
    (hcontent : p.world.fs.file? file.path = some content) :
    ∃ w, p.world.SameData p.db.options.dirPath w ∧
      let x := scanFile file.fileId content
        { index := Indexer.create p.world.seeds, reclaimSize := p.db.reclaimSize }
      (loadIndexFromDataFiles : DBM ι Unit).run p = .ok ()
        ⟨{ p.db with
            activeFile := some { file with writeOff := x.1 }
            index := x.2.index
            reclaimSize := x.2.reclaimSize
            seqNo := x.2.seqNo }, w⟩ := by
  have hsome : ¬(p.db.fileIds = [] ∧ p.db.activeFile.isNone) := by simp [hactive]
  set w := World.withoutFile { p.world with seeds := p.world.seeds + 1 }
    ⟨p.db.options.dirPath, .mergeFinished⟩ with hw
  have hseeds : p.world.SameData p.db.options.dirPath
      { p.world with seeds := p.world.seeds + 1 } := .of_fs rfl rfl
  refine ⟨w, hseeds.trans (.withoutFile (by simp) (by simp) _), ?_⟩
  have hcontent : file.content w.fs = content := by
    refine content_eq_of_file? ?_
    rw [hpath, hw, World.withoutFile_file?_of_ne _ _ (by simp [getDataFileName]), ← hpath, hcontent]
  have hfiles : p.db.filesToProcess = [(file.fileId, file)] := by
    rcases hids with hids | hids <;>
      simp [filesToProcess, unlistedFile, hids, hactive, fileOf]
  rw [loadIndexFromDataFiles_run p hsome]
  simp only [← hw, scanned, hfiles, scanFiles, hcontent, setWriteOff, hactive, if_true]

/-- The only handle is opened again for standard I/O. -/
theorem resetIOType_run (file : DataFile) (hactive : p.db.activeFile = some file)
    (hpath : file.path = getDataFileName p.db.options.dirPath file.fileId)
    (holder : p.db.olderFiles = ∅) (hcontent : p.world.fs.file? file.path = some content)
    (hopen : p.world.outcomes (.open file.path) = []) :
    (resetIOType : DBM ι Unit).run p =
      .ok () { p with
        db := { p.db with activeFile := some { file with ioType := .standardFio } } } := by
  have hio : (file.setIOManager p.db.options.dirPath .standardFio).run p.world =
      .ok { file with ioType := .standardFio } p.world := by
    rw [hpath] at hopen hcontent
    rw [setIOManager, bind_ok (createIOManager_run hopen), World.opened_of_exists _ _ hcontent,
      ← hpath]
    rfl
  rw [resetIOType, bind_ok (proc_run p)]
  show (proc >>= fun _ => _).run p = _
  rw [bind_ok (proc_run p)]
  simp only [hactive]
  show ((liftM (file.setIOManager p.db.options.dirPath .standardFio) : DBM ι _) >>=
    fun _ => _).run p = _
  rw [bind_ok (lift_ok hio)]
  show (proc >>= fun _ => _).run _ = _
  rw [bind_ok (proc_run _)]
  simp only [holder]
  rfl

variable [Indexer ι]

/-- The hint file, if there is one, is read without an exception. -/
def HintOk (ι : Type) [Indexer ι] (fs : FS) (dirPath : Path) : Prop :=
  ∀ content, fs.file? ⟨dirPath, .hintIndex⟩ = some content → ∀ index : ι, ∃ index',
    (loop (hintPass content) (content.length + 1) (0, index)).getD (none, index) = (none, index')

theorem loadIndexFromHintFile_run (hfirst : p.world.fs.file? p.db.firstPath = some content)
    (hopen : World.OpensOk p.db.options.dirPath p.world)
    (hhint : HintOk ι p.world.fs p.db.options.dirPath) :
    ∃ index, (loadIndexFromHintFile : DBM ι Unit).run p =
      .ok () { p with db := { p.db with index := index } } := by
  have hexists : (fileExists ⟨p.db.options.dirPath, .hintIndex⟩).run p.world =
      .ok (p.world.fs.fileExists ⟨p.db.options.dirPath, .hintIndex⟩) p.world := rfl
  rw [loadIndexFromHintFile, bind_ok (proc_run p)]
  show ∃ index, ((liftM (fileExists ⟨p.db.options.dirPath, .hintIndex⟩) : DBM ι _) >>=
    fun _ => _).run p = _
  rw [bind_ok (lift_ok hexists)]
  cases hcase : p.world.fs.fileExists ⟨p.db.options.dirPath, .hintIndex⟩ with
  | false => exact ⟨p.db.index, rfl⟩
  | true =>
    obtain ⟨hint, hhintFile⟩ := FS.fileExists_iff.1 hcase
    obtain ⟨index, hloop⟩ := hhint hint hhintFile p.db.index
    have haux : (openHintFile p.db.options.dirPath).run p.world =
        .ok ⟨⟨p.db.options.dirPath, .hintIndex⟩, 0, 0, .standardFio⟩ p.world := by
      have hfile : p.world.opened (getDataFileName p.db.options.dirPath 0) = p.world :=
        World.opened_of_exists _ _ hfirst
      rw [openHintFile, openAuxFile_run (hopen _) (hopen _), hfile, World.opened_of_exists _ _ hhintFile]
    have hcontent : DataFile.content ⟨⟨p.db.options.dirPath, .hintIndex⟩, 0, 0, .standardFio⟩
        p.world.fs = hint := content_eq_of_file? hhintFile
    refine ⟨index, ?_⟩
    rw [if_pos rfl, bind_ok (lift_ok haux), bind_ok (proc_run _), bind_ok (proc_run _)]
    simp only [hcontent, hloop]
    rfl

/-- Loading a database whose only data file has become the active one. -/
theorem load_run {q : Proc ι} {ioType : IOType}
    (hload : (loadDataFiles : DBM ι Unit).run p = .ok () q)
    (hactive : q.db.activeFile = some ⟨q.db.firstPath, 0, 0, ioType⟩)
    (hids : q.db.fileIds = [] ∨ q.db.fileIds = [0])
    (hio : q.db.options.mmapAtStartup = false → ioType = .standardFio)
    (holder : q.db.olderFiles = ∅) (hcontent : q.world.fs.file? q.db.firstPath = some content)
    (hopen : World.OpensOk q.db.options.dirPath q.world)
    (hhint : HintOk ι q.world.fs q.db.options.dirPath) :
    ∃ w, q.world.SameData q.db.options.dirPath w ∧
      let x := scanFile 0 content
        { index := Indexer.create q.world.seeds, reclaimSize := q.db.reclaimSize }
      (load : DBM ι Unit).run p = .ok ()
        ⟨{ q.db with
            activeFile := some ⟨q.db.firstPath, 0, x.1, .standardFio⟩
            index := x.2.index
            reclaimSize := x.2.reclaimSize
            seqNo := x.2.seqNo }, w⟩ := by
  obtain ⟨index, hhintRun⟩ := loadIndexFromHintFile_run hcontent hopen hhint
  obtain ⟨w, hsame, hindex⟩ := loadIndexFromDataFiles_run_one
    (p := { q with db := { q.db with index := index } }) hactive hids rfl hcontent
  refine ⟨w, hsame, ?_⟩
  have hsome : q.db.fileIds ≠ [] ∨ q.db.activeFile.isSome := by simp [hactive]
  rw [load, bind_ok hload, bind_ok (proc_run _), bind_ok (proc_run _)]
  rw [if_pos hsome, bind_ok hhintRun, bind_ok hindex, bind_ok (proc_run _)]
  cases hmmap : q.db.options.mmapAtStartup with
  | false =>
    simp only [hio hmmap]
    rfl
  | true =>
    rw [if_pos rfl]
    refine Eq.trans (resetIOType_run ⟨q.db.firstPath, 0, _, ioType⟩ rfl rfl ?_
      (hsame.first.trans hcontent) ?_) rfl
    · exact holder
    · exact (hsame.toSameOthers.opensOk hopen) _

end Load

/-! ## Opening -/

section Open

variable [Indexer ι] {p : Proc ι}

omit [Indexer ι] in
/-- The directory is there and locked. -/
theorem initDirectory_run (p : Proc ι) :
    let w := (p.world.withDirectory p.db.options.dirPath).withFile ⟨p.db.options.dirPath, .flock⟩
    (initDirectory : DBM ι Unit).run p = .ok ()
      ⟨{ p.db with isInitial := !p.world.fs.directoryExists p.db.options.dirPath ||
        w.fs.dirSize p.db.options.dirPath == 0 }, w⟩ := by
  intro w
  have hexists : (directoryExists p.db.options.dirPath).run p.world =
      .ok (p.world.fs.directoryExists p.db.options.dirPath) p.world := rfl
  rw [initDirectory, bind_ok (proc_run p)]
  show ((liftM (directoryExists p.db.options.dirPath) : DBM ι _) >>= fun _ => _).run p = _
  rw [bind_ok (lift_ok hexists), bind_ok (lift_ok (ensureDirectory_run _ _)),
    bind_ok (lift_ok (touch_run _ _)), bind_ok (proc_run _)]
  rfl

/-- The directory and the lock are no data. -/
theorem sameData_initDirectory (dirPath : Path) (w : World) :
    w.SameData dirPath ((w.withDirectory dirPath).withFile ⟨dirPath, .flock⟩) := by
  have hdir : w.SameData dirPath (w.withDirectory dirPath) :=
    ⟨⟨World.withDirectory_outcomes _ _, fun _ _ => World.withDirectory_file? _ _ _,
      World.withDirectory_file? _ _ _, fun _ h => World.withDirectory_lookup_of_ne _ _ h⟩,
      World.withDirectory_file? _ _ _⟩
  exact hdir.trans (.withFile (by simp) (by simp) _)

/-- No finished merge waits to be taken over. -/
def NoMerge (fs : FS) (dirPath : Path) : Prop :=
  fs.file? ⟨dirPath ++ "/merge".toList, .mergeFinished⟩ = none

theorem NoMerge.of_lookup {fs : FS} {dirPath : Path}
    (h : fs.lookup (dirPath ++ "/merge".toList) = none) : NoMerge fs dirPath := by
  rw [NoMerge, FS.file?, h]
  rfl

theorem NoMerge.congr {fs fs' : FS} {dirPath : Path} (h : NoMerge fs dirPath)
    (hfs : fs'.lookup (dirPath ++ "/merge".toList) = fs.lookup (dirPath ++ "/merge".toList)) :
    NoMerge fs' dirPath := (FS.file?_congr hfs).trans h

omit [Indexer ι] in
theorem loadMergeFiles_run (h : NoMerge p.world.fs p.db.options.dirPath) :
    (loadMergeFiles : DBM ι Unit).run p = .ok () p := by
  have hdirectory : (directoryExists (p.db.options.dirPath ++ "/merge".toList)).run p.world =
      .ok (p.world.fs.directoryExists (p.db.options.dirPath ++ "/merge".toList)) p.world := rfl
  have hmarker : (fileExists ⟨p.db.options.dirPath ++ "/merge".toList, .mergeFinished⟩).run p.world =
      .ok false p.world := by
    show EStateM.Result.ok (p.world.fs.fileExists _) p.world = _
    rw [FS.fileExists, h]
    rfl
  rw [loadMergeFiles, bind_ok (proc_run p)]
  show ((liftM (directoryExists (p.db.options.dirPath ++ "/merge".toList)) : DBM ι _) >>=
    fun _ => _).run p = _
  rw [bind_ok (lift_ok hdirectory)]
  split
  · show ((liftM (fileExists ⟨p.db.options.dirPath ++ "/merge".toList, .mergeFinished⟩) : DBM ι _)
      >>= fun _ => _).run p = _
    rw [bind_ok (lift_ok hmarker)]
    rfl
  · rfl

theorem merge_ne (dirPath : Path) : dirPath ++ "/merge".toList ≠ dirPath := by
  intro h
  have := congrArg List.length h
  simp at this

/-- A database is loaded in its directory, with a new index. -/
theorem init_run (hmerge : NoMerge p.world.fs p.db.options.dirPath) :
    ∃ w initial, p.world.SameData p.db.options.dirPath w ∧
      (initial = true ↔ p.world.fs.directoryExists p.db.options.dirPath = false ∨
        ((p.world.withDirectory p.db.options.dirPath).withFile
          ⟨p.db.options.dirPath, .flock⟩).fs.dirSize p.db.options.dirPath = 0) ∧
      ∃ index, (∀ k, Indexer.get index k = none) ∧ (init : DBM ι Unit).run p =
        load.run ⟨{ p.db with isInitial := initial, index := index }, w⟩ := by
  set w := (p.world.withDirectory p.db.options.dirPath).withFile ⟨p.db.options.dirPath, .flock⟩
  have hw : p.world.SameData p.db.options.dirPath w := sameData_initDirectory _ _
  refine ⟨{ w with seeds := w.seeds + 1 }, !p.world.fs.directoryExists p.db.options.dirPath ||
    w.fs.dirSize p.db.options.dirPath == 0, hw.trans (.of_fs rfl rfl), by simp,
    Indexer.create w.seeds, Indexer.get_create _, ?_⟩
  rw [init, bind_ok (initDirectory_run p), bind_ok (createIndexer_run _),
    bind_ok (modifyDB_run _ _), bind_ok (loadMergeFiles_run ?_)]
  exact hmerge.congr (hw.lookup _ (merge_ne _))

/-- A database that has been opened with some contents of its first data file. -/
structure Opened (options : Options) (fileIds : List ℕ) (content : Bytes) (w : World) (db : DB ι)
    (w' : World) : Prop where
  options_eq : db.options = options
  fileIds_eq : db.fileIds = fileIds
  olderFiles_eq : db.olderFiles = ∅
  isMerging_eq : db.isMerging = false
  loaded : ∃ seed,
    let x := scanFile 0 content { index := Indexer.create seed, reclaimSize := 0 }
    db.activeFile = some (db.activeAt x.1) ∧ db.index = x.2.index ∧ db.seqNo = x.2.seqNo
  first : w'.fs.file? db.firstPath = some content
  sameOthers : w.SameOthers options.dirPath w'

variable {options : Options} {w : World} {content : Bytes}

/-- Opening is loading, once the directory is there and locked. -/
theorem open_run (hvalid : checkOptions options = .ok ())
    (hmerge : NoMerge w.fs options.dirPath) :
    ∃ w₁ initial, w.SameData options.dirPath w₁ ∧
      (initial = true ↔ w.fs.directoryExists options.dirPath = false ∨
        ((w.withDirectory options.dirPath).withFile
          ⟨options.dirPath, .flock⟩).fs.dirSize options.dirPath = 0) ∧
      ∃ index : ι, (∀ k, Indexer.get index k = none) ∧
        let p₁ : Proc ι := ⟨{ options := options, index := index, isInitial := initial }, w₁⟩
        (∀ p, load.run p₁ = .ok () p → («open» options : Sys (DB ι)).run w = .ok p.db p.world) ∧
        ∀ e p, load.run p₁ = .error e p →
          ∃ e' w', («open» options : Sys (DB ι)).run w = .error e' w' := by
  obtain ⟨w₁, initial, hsame, hinitial, index, hindex, hinit⟩ :=
    init_run (p := ⟨{ options := options, index := (Indexer.create 0 : ι) }, w⟩) hmerge
  exact ⟨w₁, initial, hsame, hinitial, index, hindex,
    fun p hp => open_of_ok hvalid (hinit.trans hp),
    fun e p hp => ⟨_, _, open_of_error hvalid (hinit.trans hp)⟩⟩

/-- A directory whose only data file is the first one is opened by reading it. -/
theorem open_run_first (hvalid : checkOptions options = .ok ())
    (hmerge : NoMerge w.fs options.dirPath)
    (hfirst : w.fs.file? (getDataFileName options.dirPath 0) = some content)
    (hothers : ∀ fid ≠ 0, w.fs.file? (getDataFileName options.dirPath fid) = none)
    (hopen : World.OpensOk options.dirPath w) (hhint : HintOk ι w.fs options.dirPath) :
    ∃ (db : DB ι) (w' : World), («open» options : Sys (DB ι)).run w = .ok db w' ∧
      Opened options [0] (loadingContent options content) w db w' := by
  obtain ⟨w₁, initial, hsame, -, index, -, hrun, -⟩ := open_run (ι := ι) hvalid hmerge
  obtain ⟨w₂, hload, hothers₂, hcontent⟩ := loadDataFiles_run_first
    (p := ⟨{ options := options, index := index, isInitial := initial }, w₁⟩)
    (hsame.first.trans hfirst) (fun fid hne => (hsame.others fid hne).trans (hothers fid hne))
    (hsame.opensOk hopen _)
  have hsame₂ := hsame.toSameOthers.trans hothers₂
  obtain ⟨w₃, hsame₃, hload'⟩ := load_run hload rfl (.inr rfl)
    (fun h => by rw [loadingIOType, if_neg (by simpa using h)]) rfl hcontent
    (hsame₂.opensOk hopen) (fun c hc => hhint c (hsame₂.hint.symm.trans hc))
  exact ⟨_, w₃, hrun _ hload', rfl, rfl, rfl, rfl, ⟨w₂.seeds, rfl, rfl, rfl⟩,
    hsame₃.first.trans hcontent, hsame₂.trans hsame₃.toSameOthers⟩

/-- A directory without data files is opened by making the first one. -/
theorem open_run_new (hvalid : checkOptions options = .ok ())
    (hmerge : NoMerge w.fs options.dirPath)
    (hnone : ∀ fid, w.fs.file? (getDataFileName options.dirPath fid) = none)
    (hinitial : w.fs.directoryExists options.dirPath = false ∨
      ((w.withDirectory options.dirPath).withFile
        ⟨options.dirPath, .flock⟩).fs.dirSize options.dirPath = 0)
    (hopen : World.OpensOk options.dirPath w) (hhint : HintOk ι w.fs options.dirPath) :
    ∃ (db : DB ι) (w' : World), («open» options : Sys (DB ι)).run w = .ok db w' ∧
      Opened options [] [] w db w' ∧ db.reclaimSize = 0 := by
  obtain ⟨w₁, initial, hsame, hinit, index, -, hrun, -⟩ := open_run (ι := ι) hvalid hmerge
  have hnone₁ (fid : ℕ) : w₁.fs.file? (getDataFileName options.dirPath fid) = none := by
    rcases Nat.eq_zero_or_pos fid with rfl | hpos
    · rw [hsame.first, hnone]
    · rw [hsame.others fid (Nat.ne_of_gt hpos), hnone]
  have hload := loadDataFiles_run_new
    (p := ⟨{ options := options, index := index, isInitial := initial }, w₁⟩)
    (findDataFiles_eq_nil hnone₁) rfl
    (hinit.2 hinitial) (hsame.opensOk hopen _)
  have hcontent : (w₁.opened (getDataFileName options.dirPath 0)).fs.file?
      (getDataFileName options.dirPath 0) = some [] := by
    rw [World.opened_file?_self, hnone₁]
    rfl
  have hothers₂ : w₁.SameOthers options.dirPath
      (w₁.opened (getDataFileName options.dirPath 0)) :=
    .of_first (World.opened_outcomes _ _) (fun _ h => World.opened_file?_of_ne _ _ h)
      (fun _ h => World.opened_lookup_of_ne _ _ h)
  have hsame₂ := hsame.toSameOthers.trans hothers₂
  obtain ⟨w₃, hsame₃, hload'⟩ := load_run hload rfl (.inl rfl) (fun _ => rfl) rfl hcontent
    (hsame₂.opensOk hopen) (fun c hc => hhint c (hsame₂.hint.symm.trans hc))
  exact ⟨_, w₃, hrun _ hload', ⟨rfl, rfl, rfl, rfl, ⟨_, rfl, rfl, rfl⟩,
    hsame₃.first.trans hcontent, hsame₂.trans hsame₃.toSameOthers⟩, rfl⟩

end Open

end DB

end Bitcask
