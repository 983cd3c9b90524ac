import Bitcask.Backup
import Bitcask.Containment
import Bitcask.Copies

/-!
# A merge that goes through

If the data of a database are in its first file and no call fails, a merge goes through:
its directory is made anew (`prepareMerge_run`), the copies are made there
(`writeCopies_run`), they replace the data file (`replaceFiles_run`), and the database is
loaded from them (`reload_run`). In the end it contains what the copies say
(`mergeFiles_run`).
-/

namespace Bitcask

open Framing FuelLoop Transaction DataFile DBM Sys Guarantee

/-! ## Making the directory -/

/-- Files without contents take no space. -/
theorem FS.dirSize_eq_zero {fs : FS} {dir : Path}
    (h : ∀ path content, FS.below dir path.dir = true → fs.file? path = some content →
      content = []) : fs.dirSize dir = 0 := by
  refine List.sum_eq_zero fun n hn => ?_
  obtain ⟨e, he, rfl⟩ := List.mem_map.1 hn
  rw [List.mem_filter] at he
  refine List.sum_eq_zero fun n hn => ?_
  obtain ⟨f, hf, rfl⟩ := List.mem_map.1 hn
  have hdir : fs.lookup e.1 = some e.2 := AList.mem_lookup_iff.2 he.1
  have hfile : e.2.lookup f.1 = some f.2 := AList.mem_lookup_iff.2 hf
  rw [h ⟨e.1, f.1⟩ f.2 he.2 (by rw [FS.file?, hdir]; exact hfile), List.length_nil]

/-- The world with a directory made anew. -/
def World.renewed (w : World) (dir : Path) : World :=
  let w₁ := if w.fs.directoryExists dir then w.change (w.fs.removeDirectory dir) else w
  w₁.change (w₁.fs.createDirectory dir)

section Renewed

variable {w : World} {dir : Path}

theorem World.renewed_outcomes : (w.renewed dir).outcomes = w.outcomes := by
  unfold renewed
  dsimp only
  split <;> rfl

theorem World.renewed_lookup_of_not_below {d : Path} (h : FS.below dir d = false) :
    (w.renewed dir).fs.lookup d = w.fs.lookup d := by
  have hne : d ≠ dir := by
    rintro rfl
    simp [FS.below] at h
  unfold renewed
  dsimp only
  split
  · rw [change_fs, change_fs, FS.lookup_createDirectory_of_ne hne,
      FS.lookup_removeDirectory_of_not_below h]
  · rw [change_fs, FS.lookup_createDirectory_of_ne hne]

/-- There is nothing in it. -/
theorem World.renewed_file? (hfs : w.fs.Hierarchical dir) {path : FilePath}
    (h : FS.below dir path.dir = true) : (w.renewed dir).fs.file? path = none := by
  unfold renewed
  dsimp only
  split
  · rw [change_fs, change_fs, FS.file?_createDirectory, FS.file?,
      FS.lookup_removeDirectory_of_below h]
    rfl
  · rename_i hmissing
    have hnone : w.fs.lookup dir = none := by simpa [FS.directoryExists] using hmissing
    rw [change_fs, FS.file?_createDirectory, FS.file?, hfs hnone path.dir h]
    rfl

end Renewed

namespace DB

variable {ι : Type}

/-! ## Making the copies -/

/-- The database of which the active file has become an old one. -/
def setAside (db : DB ι) (file : DataFile) : DB ι :=
  { db with activeFile := some db.firstFile, olderFiles := db.olderFiles.insert file.fileId file }

theorem rotateMergeFiles_run {p : Proc ι} {file : DataFile} {content : Bytes}
    (hactive : p.db.activeFile = some file) (hid : file.fileId = 0)
    (holder : p.db.olderFiles = ∅) (hfirst : p.world.fs.file? p.db.firstPath = some content)
    (hopen : p.world.outcomes (.open p.db.firstPath) = []) :
    (rotateMergeFiles : DBM ι _).run p =
      .ok [p.db.firstFile] { p with db := p.db.setAside file } := by
  have hsame : p.world.opened p.db.firstPath = p.world := World.opened_of_exists _ _ hfirst
  let moved : DB ι := { p.db with
    activeFile := none, olderFiles := p.db.olderFiles.insert file.fileId file }
  have hset : (setActiveDataFile : DBM ι Unit).run ⟨moved, p.world⟩ =
      .ok () { p with db := p.db.setAside file } := by
    refine (setActiveDataFile_run_of_none (p := ⟨moved, p.world⟩) rfl hopen).trans ?_
    exact congrArg (fun w => EStateM.Result.ok () (Proc.mk (p.db.setAside file) w)) hsame
  have hfile : (openDataFile p.db.options.dirPath initialFileId .standardFio).run p.world =
      .ok p.db.firstFile p.world :=
    (openDataFile_run hopen).trans (congrArg (EStateM.Result.ok _) hsame)
  have hfiles : (openMergeFiles p.db.options.dirPath [initialFileId]).run p.world =
      .ok [p.db.firstFile] p.world := by
    rw [openMergeFiles, bind_ok hfile]
    rfl
  have hids : (p.db.olderFiles.keys ++ [file.fileId]).insertionSort (· ≤ ·) =
      [initialFileId] := by
    rw [holder, hid]
    rfl
  rw [rotateMergeFiles, bind_ok (proc_run p)]
  simp only [hactive]
  rw [hids]
  show (modifyDB _ >>= fun _ => setActiveDataFile >>= fun _ => _).run p = _
  rw [bind_ok (modifyDB_run _ p)]
  show (setActiveDataFile >>= fun _ => _).run ⟨moved, p.world⟩ = _
  rw [bind_ok hset]
  exact lift_ok hfiles

/-- The options of the database the copies are written to. -/
def mergeOptions (options : Options) : Options :=
  { options with dirPath := getMergePath options.dirPath }

theorem checkOptions_mergeOptions {options : Options} (h : checkOptions options = .ok ()) :
    checkOptions (mergeOptions options) = .ok () := by
  have hne : getMergePath options.dirPath ≠ [] := by
    intro hnil
    have hlength := length_getMergePath options.dirPath
    rw [hnil] at hlength
    exact absurd hlength (by simp)
  unfold checkOptions at h ⊢
  rw [mergeOptions, if_neg hne]
  split at h
  · cases h
  · exact h

/-- The directory made anew has no contents, once it is locked. -/
theorem dirSize_renewed {w : World} {dir : Path} (hfs : w.fs.Hierarchical dir) :
    (((w.renewed dir).withDirectory dir).withFile ⟨dir, .flock⟩).fs.dirSize dir = 0 := by
  refine FS.dirSize_eq_zero fun path content hbelow hfile => ?_
  by_cases hpath : path = ⟨dir, .flock⟩
  · have hself := World.withFile_file?_self ((w.renewed dir).withDirectory dir) ⟨dir, .flock⟩
      (World.withDirectory_directoryExists _ dir)
    rw [hpath, hself, World.withDirectory_file?,
      World.renewed_file? hfs (FS.below_self dir)] at hfile
    exact (Option.some.inj hfile).symm
  · rw [World.withFile_file?_of_ne _ _ hpath, World.withDirectory_file?,
      World.renewed_file? hfs hbelow] at hfile
    cases hfile

variable [Indexer ι]

/-- The database for the copies, as it is opened in a directory made anew. -/
structure MergeOpened (options : Options) (w : World) (mergeDb : DB ι) (w' : World) : Prop where
  options_eq : mergeDb.options = mergeOptions options
  olderFiles_eq : mergeDb.olderFiles = ∅
  stored : Stored ⟨mergeDb, w'⟩ [] 0
  others : ∀ fid ≠ 0, w'.fs.file? (getDataFileName (getMergePath options.dirPath) fid) = none
  hint : w'.fs.file? ⟨getMergePath options.dirPath, .hintIndex⟩ = none
  lookup : ∀ dir, FS.below (getMergePath options.dirPath) dir = false →
    w'.fs.lookup dir = w.fs.lookup dir
  outcomes : ∀ c, w'.outcomes c = []

/-- A merge is prepared in a directory made anew. -/
theorem prepareMerge_eq (p : Proc ι) : (prepareMerge : DBM ι _).run p = (do
    let files ← rotateMergeFiles
    let mergeDb ← liftM (DB.open (mergeOptions p.db.options) : Sys (DB ι))
    return (getMergePath p.db.options.dirPath, files, mergeDb) : DBM ι _).run
      ⟨p.db, p.world.renewed (getMergePath p.db.options.dirPath)⟩ := by
  set mergePath := getMergePath p.db.options.dirPath with hmergePath
  have hexists : (directoryExists mergePath).run p.world =
      .ok (p.world.fs.directoryExists mergePath) p.world := rfl
  have hcreate (w : World) : (createDirectory mergePath).run w =
      .ok () (w.change (w.fs.createDirectory mergePath)) := rfl
  have hremove : (removeDirectory mergePath).run p.world =
      .ok () (p.world.change (p.world.fs.removeDirectory mergePath)) := rfl
  rw [prepareMerge, bind_ok (proc_run p)]
  dsimp only
  rw [← hmergePath, bind_ok (lift_ok hexists), World.renewed]
  split
  · rename_i hdir
    rw [bind_ok (lift_ok hremove), bind_ok (lift_ok (hcreate _))]
    rfl
  · rename_i hdir
    rw [bind_ok (lift_ok (hcreate _))]
    rfl

/-- A database whose only data file is the first one, ready to be merged without a failing
    call. -/
structure Mergeable (options : Options) (p : Proc ι) : Prop where
  options_eq : p.db.options = options
  valid : checkOptions options = .ok ()
  active : ∃ file, p.db.activeFile = some file ∧ file.fileId = 0
  olderFiles_eq : p.db.olderFiles = ∅
  first : (p.world.fs.file? (getDataFileName options.dirPath 0)).isSome = true
  others : ∀ fid ≠ 0, p.world.fs.file? (getDataFileName options.dirPath fid) = none
  outcomes : ∀ c, p.world.outcomes c = []

omit [Indexer ι] in
theorem Mergeable.of_db {options : Options} {p : Proc ι} (h : Mergeable options p) {db : DB ι}
    (hoptions : db.options = p.db.options) (hactive : db.activeFile = p.db.activeFile)
    (holder : db.olderFiles = p.db.olderFiles) : Mergeable options { p with db := db } where
  options_eq := hoptions.trans h.options_eq
  valid := h.valid
  active := hactive ▸ h.active
  olderFiles_eq := holder.trans h.olderFiles_eq
  first := h.first
  others := h.others
  outcomes := h.outcomes

theorem prepareMerge_run {options : Options} {p : Proc ι} (h : Mergeable options p)
    (hfs : p.world.fs.Hierarchical (getMergePath options.dirPath)) :
    ∃ file mergeDb w, p.db.activeFile = some file ∧
      (prepareMerge : DBM ι _).run p =
        .ok (getMergePath options.dirPath, [p.db.firstFile], mergeDb) ⟨p.db.setAside file, w⟩ ∧
      MergeOpened options p.world mergeDb w := by
  obtain ⟨file, hactive, hid⟩ := h.active
  obtain ⟨content, hcontent⟩ := Option.isSome_iff_exists.1 h.first
  have hfirst : p.world.fs.file? p.db.firstPath = some content := by
    rwa [DB.firstPath, h.options_eq]
  set mergePath := getMergePath options.dirPath with hmergePath
  set w₀ := p.world.renewed mergePath with hw₀
  have hfile (path : FilePath) (hbelow : FS.below mergePath path.dir = true) :
      w₀.fs.file? path = none := World.renewed_file? hfs hbelow
  have hself (name : FileName) : w₀.fs.file? ⟨mergePath, name⟩ = none :=
    hfile _ (FS.below_self mergePath)
  have hnil (c : Call) : w₀.outcomes c = [] := by
    rw [hw₀, World.renewed_outcomes, h.outcomes]
  have hfirst₀ : w₀.fs.file? p.db.firstPath = some content := by
    rw [← hfirst]
    refine FS.file?_congr (World.renewed_lookup_of_not_below ?_)
    rw [DB.firstPath, h.options_eq]
    exact not_below_getMergePath _
  obtain ⟨mergeDb, w, hopen, hopened, -⟩ := open_run_new (ι := ι) (w := w₀)
    (checkOptions_mergeOptions h.valid) (hfile _ (FS.below_append _ _)) (fun fid => hself _)
    (.inr (dirSize_renewed hfs)) (fun name => hnil _)
    (fun c hc => by cases (hself _).symm.trans hc)
  have hrotate := rotateMergeFiles_run (p := ⟨p.db, w₀⟩) hactive hid h.olderFiles_eq hfirst₀ (hnil _)
  refine ⟨file, mergeDb, w, hactive, ?_, ?_⟩
  · rw [prepareMerge_eq, h.options_eq, ← hmergePath, ← hw₀, bind_ok hrotate,
      bind_ok (lift_ok (p := ⟨p.db.setAside file, w₀⟩) hopen)]
    rfl
  · have hempty : DB.Opened (mergeOptions options) [] (encodeAll [] ++ List.replicate 0 0) w₀
        mergeDb w := hopened
    obtain ⟨hstored, -, -⟩ := hempty.replayed (List.forall_mem_nil _) (by decide) (by decide)
    refine ⟨hopened.options_eq, hopened.olderFiles_eq, hstored, fun fid hne => ?_, ?_,
      fun dir hdir => ?_, fun c => ?_⟩
    · exact (hopened.sameOthers.others fid hne).trans (hself _)
    · exact hopened.sameOthers.hint.trans (hself _)
    · rw [hopened.sameOthers.lookup dir (FS.ne_of_not_below (FS.below_self _) hdir), hw₀,
        World.renewed_lookup_of_not_below hdir]
    · rw [hopened.sameOthers.outcomes, hnil]

/-- The copies have been made: they are in the first file of their directory, with their
    positions in the hint file, and nothing else has changed. -/
structure CopiesMade (options : Options) (w : World) (records : List LogRecord) (w' : World) :
    Prop where
  first : w'.fs.file? (getDataFileName (getMergePath options.dirPath) 0) = some (encodeAll records)
  others : ∀ fid ≠ 0, w'.fs.file? (getDataFileName (getMergePath options.dirPath) fid) = none
  hint : w'.fs.file? ⟨getMergePath options.dirPath, .hintIndex⟩ =
    some (encodeAll (hintRecords records))
  lookup : ∀ dir, FS.below (getMergePath options.dirPath) dir = false →
    w'.fs.lookup dir = w.fs.lookup dir
  outcomes : ∀ c, w'.outcomes c = []

omit [Indexer ι] in
theorem CopiesMade.of_sameData {options : Options} {w w' w'' : World} {records : List LogRecord}
    (h : CopiesMade options w records w')
    (hsame : w'.SameData (getMergePath options.dirPath) w'') :
    CopiesMade options w records w'' where
  first := hsame.first.trans h.first
  others fid hne := (hsame.others fid hne).trans (h.others fid hne)
  hint := hsame.hint.trans h.hint
  lookup dir hdir := (hsame.lookup dir (FS.ne_of_not_below (FS.below_self _) hdir)).trans
    (h.lookup dir hdir)
  outcomes c := by rw [hsame.outcomes, h.outcomes]

omit [Indexer ι] in
theorem writeMergeFinished_run {options : Options} {w w' : World} {records : List LogRecord}
    (h : CopiesMade options w records w') (nonMergeFileId : ℕ) :
    ∃ w'', (writeMergeFinished (getMergePath options.dirPath) nonMergeFileId).run w' = .ok () w'' ∧
      w'.SameData (getMergePath options.dirPath) w'' := by
  set mergePath := getMergePath options.dirPath with hmergePath
  set w₁ := w'.opened ⟨mergePath, .mergeFinished⟩ with hw₁
  set file : DataFile := ⟨⟨mergePath, .mergeFinished⟩, 0, 0, .standardFio⟩ with hfile
  set data := LogRecord.encode
    { key := mergeFinishedKey, value := decimal nonMergeFileId, type := .normal } with hdata
  have hopen : (openMergeFinishedFile mergePath).run w' = .ok file w₁ := by
    rw [openMergeFinishedFile, openAuxFile_run (h.outcomes _) (h.outcomes _),
      World.opened_of_exists _ _ h.first]
  have hwrite : (file.write data).run w₁ =
      .ok { file with writeOff := file.writeOff + data.length } (w₁.wrote file data) :=
    DataFile.write_ok _ (World.next_of_nil (by rw [hw₁, World.opened_outcomes]; exact h.outcomes _))
  have hopened : w'.SameData mergePath w₁ := .opened (by simp) (by simp) _
  have hpath : file.path = ⟨mergePath, .mergeFinished⟩ := rfl
  refine ⟨w₁.wrote file data, ?_, hopened.trans (.wrote (by simp) (by simp) _ hpath _)⟩
  rw [writeMergeFinished, bind_ok hopen, bind_ok hwrite]
  rfl

theorem writeCopies_run {options : Options} {p : Proc ι} {w : World} {mergeDb : DB ι}
    {content : Bytes} {file : DataFile} (db : DB ι)
    (hopened : MergeOpened options p.world mergeDb w)
    (hcontent : p.world.fs.file? (getDataFileName options.dirPath 0) = some content)
    (hlength : (encodeAll (copies (validRecords db.index) 0 (readsOf content))).length ≤
      options.dataFileSize) (hfile : file.fileId = 0)
    (hpath : file.path = getDataFileName options.dirPath 0) :
    ∃ w', (writeCopies (getMergePath options.dirPath) [file] mergeDb : DBM ι Unit).run ⟨db, w⟩ =
        .ok () ⟨db, w'⟩ ∧
      CopiesMade options p.world (copies (validRecords db.index) 0 (readsOf content)) w' := by
  set mergePath := getMergePath options.dirPath with hmergePath
  set w₁ := w.opened ⟨mergePath, .hintIndex⟩ with hw₁
  set hintFile : DataFile := ⟨⟨mergePath, .hintIndex⟩, 0, 0, .standardFio⟩ with hhintFile
  have hdir : mergeDb.options.dirPath = mergePath := congrArg Options.dirPath hopened.options_eq
  have hfirst : w.fs.file? (getDataFileName mergePath 0) = some [] := by
    have hcontent := hopened.stored.content
    rwa [DB.firstPath, hdir] at hcontent
  have hopen : (openHintFile mergePath).run w = .ok hintFile w₁ := by
    rw [openHintFile, openAuxFile_run (hopened.outcomes _) (hopened.outcomes _),
      World.opened_of_exists _ _ hfirst]
  have hstart : Copying (mergeOptions options) w₁ ⟨0, mergeDb, hintFile, w₁⟩ [] := by
    refine ⟨hopened.options_eq, ⟨hopened.stored.active, ?_⟩, rfl, ?_, fun _ _ => rfl,
      fun _ _ => rfl, fun c => ?_⟩
    · show w₁.fs.file? mergeDb.firstPath = _
      rw [hw₁, World.opened_file?_of_ne _ _ (by simp [DB.firstPath, getDataFileName])]
      exact hopened.stored.content
    · show w₁.fs.file? ⟨mergePath, .hintIndex⟩ = _
      rw [hw₁, World.opened_file?_self, hopened.hint]
      rfl
    · rw [hw₁, World.opened_outcomes]
      exact hopened.outcomes c
  have hne : file.path.dir ≠ (mergeOptions options).dirPath := by
    rw [hpath]
    exact (getMergePath_ne _).symm
  have hfileContent : file.content w₁.fs = content := by
    refine content_eq_of_file? ?_
    rw [hpath, hw₁, World.opened_file?_of_ne _ _ (by simp [getDataFileName]), ← hcontent]
    exact FS.file?_congr (hopened.lookup _ (not_below_getMergePath _))
  have hscan := hstart.mergeScan_run (validRecords db.index) hne hfileContent (by rwa [hfile])
  rw [hfile] at hscan
  set s := mergeScan (validRecords db.index) [file] ⟨0, mergeDb, hintFile, w₁⟩ with hs
  set records := copies (validRecords db.index) 0 (readsOf content)
  have hsdir : s.mergeDb.options.dirPath = mergePath :=
    congrArg Options.dirPath hscan.options_eq
  have hmade : CopiesMade options p.world records s.world := by
    refine ⟨?_, fun fid hne => ?_, hscan.hint, fun dir hdir => ?_, hscan.outcomes⟩
    · have hcontent := hscan.stored.content
      rwa [DB.firstPath, hsdir, List.replicate_zero, List.append_nil] at hcontent
    · rw [← hopened.others fid hne]
      refine (hscan.others fid hne).trans ?_
      rw [hw₁, World.opened_file?_of_ne _ _ (by simp [getDataFileName])]
      rfl
    · rw [hscan.lookup dir (FS.ne_of_not_below (FS.below_self _) hdir), hw₁,
        World.opened_lookup_of_ne _ _ (FS.ne_of_not_below (FS.below_self _) hdir),
        hopened.lookup dir hdir]
  obtain ⟨w₂, hmarker, hsame₂⟩ := writeMergeFinished_run hmade
    ([file].getLast?.elim 0 fun file => (file.fileId + 1) % 2 ^ 32)
  have hmade₂ := hmade.of_sameData hsame₂
  obtain ⟨w₃, hclose, hsame₃⟩ := close_run (p := ⟨s.mergeDb, w₂⟩)
    (by rw [DB.firstPath, hsdir]; exact hmade₂.first) (hmade₂.outcomes _) (hmade₂.outcomes _)
    (hmade₂.outcomes _)
  have hother : (onOther s.mergeDb close : DBM ι Unit).run ⟨db, w₂⟩ = .ok () ⟨db, w₃⟩ := by
    show onOther s.mergeDb close ⟨db, w₂⟩ = _
    unfold onOther
    rw [hclose]
  dsimp only at hsame₃
  rw [hsdir] at hsame₃
  refine ⟨w₃, ?_, hmade₂.of_sameData hsame₃⟩
  rw [writeCopies, bind_ok (lift_ok (p := ⟨db, w⟩) hopen), bind_ok (proc_run _)]
  show (liftM (writeMergeFinished mergePath _) >>= fun _ => onOther s.mergeDb close :
    DBM ι Unit).run ⟨db, s.world⟩ = _
  rw [bind_ok (lift_ok (p := ⟨db, s.world⟩) hmarker)]
  exact hother

/-! ## Replacing the files -/

omit [Indexer ι] in
theorem removeDataFiles_run (dirPath : Path) (fids : List ℕ) (w : World) :
    (removeDataFiles dirPath fids).run w =
      .ok () (fids.foldl (fun w fid => w.withoutFile (getDataFileName dirPath fid)) w) := by
  induction fids generalizing w with
  | nil => rfl
  | cons fid fids ih => rw [removeDataFiles, bind_ok (removeIfExists_run _ w), ih, List.foldl_cons]

omit [Indexer ι] in
/-- Removing data files leaves other files alone. -/
theorem withoutFiles_spec (dirPath : Path) (fids : List ℕ) (w : World) :
    let w' := fids.foldl (fun w fid => w.withoutFile (getDataFileName dirPath fid)) w
    w'.outcomes = w.outcomes ∧ (∀ dir, w'.fs.directoryExists dir = w.fs.directoryExists dir) ∧
      (∀ path, w.fs.file? path = none → w'.fs.file? path = none) ∧
      ∀ dir ≠ dirPath, w'.fs.lookup dir = w.fs.lookup dir := by
  induction fids generalizing w with
  | nil => exact ⟨rfl, fun _ => rfl, fun _ h => h, fun _ _ => rfl⟩
  | cons fid fids ih =>
    obtain ⟨houtcomes, hexists, hfile, hlookup⟩ :=
      ih (w.withoutFile (getDataFileName dirPath fid))
    rw [List.foldl_cons]
    refine ⟨houtcomes.trans (World.withoutFile_outcomes _ _), fun dir => ?_,
      fun path hpath => hfile path ?_, fun dir hdir => ?_⟩
    · rw [hexists, World.withoutFile_directoryExists]
    · by_cases hremoved : path = getDataFileName dirPath fid
      · rw [hremoved, World.withoutFile_file?_self]
      · rw [World.withoutFile_file?_of_ne _ _ hremoved, hpath]
    · rw [hlookup dir hdir, World.withoutFile_lookup_of_ne _ _ hdir]

omit [Indexer ι] in
theorem copyIfExists_run {w : World} (houtcomes : ∀ c, w.outcomes c = []) {src dst : Path}
    (hne : src ≠ dst) (name : FileName) :
    (copyIfExists ⟨src, name⟩ ⟨dst, name⟩).run w = .ok () (w.copied src dst name) := by
  have hexists : (fileExists ⟨src, name⟩).run w = .ok (w.fs.fileExists ⟨src, name⟩) w := rfl
  rw [copyIfExists, bind_ok hexists, World.copied, FS.fileExists]
  rcases hfile : w.fs.file? ⟨src, name⟩ with _ | content
  · rfl
  · exact copyFile_run houtcomes hfile (by simpa using hne)

omit [Indexer ι] in
/-- If there is only the first file of a merge, that file is copied. -/
theorem copyMergedFiles_run {w : World} (houtcomes : ∀ c, w.outcomes c = []) {src dst : Path}
    (hne : src ≠ dst) (hfirst : w.fs.fileExists (getDataFileName src 0) = true)
    (hnext : w.fs.file? (getDataFileName src 1) = none) (n : ℕ) :
    (copyMergedFiles src dst (n + 2) 0 false).run w = .ok () (w.copied src dst (.data 0)) := by
  obtain ⟨content, hcontent⟩ := FS.fileExists_iff.1 hfirst
  set w₁ := w.copied src dst (.data 0) with hw₁
  have hexists : (fileExists (getDataFileName src 0)).run w = .ok true w := by
    rw [← hfirst]
    rfl
  have hcopy : (copyFile (getDataFileName src 0) (getDataFileName dst 0)).run w = .ok () w₁ := by
    rw [hw₁, World.copied, show w.fs.file? ⟨src, .data 0⟩ = some content from hcontent]
    exact copyFile_run houtcomes hcontent (by simpa [getDataFileName] using hne)
  have hmissing : (fileExists (getDataFileName src 1)).run w₁ = .ok false w₁ := by
    show EStateM.Result.ok (w₁.fs.fileExists (getDataFileName src 1)) w₁ = _
    rw [FS.fileExists, hw₁, World.copied_file?_of_ne _ _ _ _ (by simp [getDataFileName]), hnext]
    rfl
  rw [copyMergedFiles, bind_ok hexists, if_pos rfl, bind_ok hcopy, copyMergedFiles,
    bind_ok hmissing]
  rfl

/-- The files of the database have been replaced by the copies. -/
structure Replaced (options : Options) (records : List LogRecord) (w : World) : Prop where
  first : w.fs.file? (getDataFileName options.dirPath 0) = some (encodeAll records)
  others : ∀ fid ≠ 0, w.fs.file? (getDataFileName options.dirPath fid) = none
  hint : w.fs.file? ⟨options.dirPath, .hintIndex⟩ = some (encodeAll (hintRecords records))
  outcomes : ∀ c, w.outcomes c = []

/-- The world without data files. -/
def withoutDataFiles (w : World) (dirPath : Path) (fids : List ℕ) : World :=
  fids.foldl (fun w fid => w.withoutFile (getDataFileName dirPath fid)) w

/-- The world after data files have been replaced by the first one of another directory, with
    the hint file and the marker that are there. -/
def replacedWorld (w : World) (src dst : Path) (fids : List ℕ) : World :=
  (((withoutDataFiles w dst fids).copied src dst (.data 0)).copied src dst .hintIndex).copied
    src dst .mergeFinished

omit [Indexer ι] in
theorem replaceFiles_eq {db : DB ι} {w : World} {src : Path} (hne : src ≠ db.options.dirPath)
    (houtcomes : ∀ c, w.outcomes c = [])
    (hfirst : w.fs.fileExists (getDataFileName src 0) = true)
    (hnext : w.fs.file? (getDataFileName src 1) = none) :
    (replaceFiles src : DBM ι Unit).run ⟨db, w⟩ =
      .ok () ⟨{ db with olderFiles := ∅, activeFile := none },
        replacedWorld w src db.options.dirPath db.fileIds⟩ := by
  set dst := db.options.dirPath with hdst
  set w₁ := withoutDataFiles w dst db.fileIds with hw₁
  obtain ⟨houtcomes₁, -, -, hlookup₁⟩ := withoutFiles_spec dst db.fileIds w
  have hnil₁ (c : Call) : w₁.outcomes c = [] := by rw [hw₁, withoutDataFiles, houtcomes₁, houtcomes]
  have hfile₁ (name : FileName) : w₁.fs.file? ⟨src, name⟩ = w.fs.file? ⟨src, name⟩ :=
    FS.file?_congr (hlookup₁ _ hne)
  set w₂ := w₁.copied src dst (.data 0) with hw₂
  set w₃ := w₂.copied src dst .hintIndex with hw₃
  have hnil₂ (c : Call) : w₂.outcomes c = [] := by rw [hw₂, World.copied_outcomes, hnil₁]
  have hnil₃ (c : Call) : w₃.outcomes c = [] := by rw [hw₃, World.copied_outcomes, hnil₂]
  have hfiles : (copyMergedFiles src dst maxMergeFiles 0 false).run w₁ = .ok () w₂ := by
    refine copyMergedFiles_run hnil₁ hne ?_ ?_ 9998
    · rw [FS.fileExists, getDataFileName, hfile₁]
      exact hfirst
    · rw [getDataFileName, hfile₁]
      exact hnext
  rw [replaceFiles, bind_ok (modifyDB_run _ _), bind_ok (proc_run _)]
  dsimp only
  rw [← hdst, bind_ok (lift_ok (removeDataFiles_run dst db.fileIds w)), ← withoutDataFiles, ← hw₁,
    bind_ok (lift_ok hfiles), bind_ok (lift_ok (copyIfExists_run hnil₂ hne .hintIndex))]
  exact lift_ok (copyIfExists_run hnil₃ hne .mergeFinished)

omit [Indexer ι] in
theorem replaceFiles_run {options : Options} {p : Proc ι} {w : World} {records : List LogRecord}
    {db : DB ι} (hoptions : db.options = options) (hp : Mergeable options p)
    (h : CopiesMade options p.world records w) :
    ∃ w', (replaceFiles (getMergePath options.dirPath) : DBM ι Unit).run ⟨db, w⟩ =
        .ok () ⟨{ db with olderFiles := ∅, activeFile := none }, w'⟩ ∧
      Replaced options records w' ∧ ∀ dir ≠ options.dirPath, w'.fs.lookup dir = w.fs.lookup dir := by
  subst hoptions
  set mergePath := getMergePath db.options.dirPath with hmergePath
  set dirPath := db.options.dirPath with hdirPath
  have hne : mergePath ≠ dirPath := getMergePath_ne _
  have hsame (name : FileName) : w.fs.file? ⟨dirPath, name⟩ = p.world.fs.file? ⟨dirPath, name⟩ :=
    FS.file?_congr (h.lookup _ (not_below_getMergePath _))
  have hrun : (replaceFiles mergePath : DBM ι Unit).run ⟨db, w⟩ = _ := replaceFiles_eq hne h.outcomes
    (FS.fileExists_iff.2 ⟨_, h.first⟩) (h.others 1 Nat.one_ne_zero)
  obtain ⟨houtcomes₁, hexists₁, hfile₁, hlookup₁⟩ := withoutFiles_spec dirPath db.fileIds w
  set w₁ := withoutDataFiles w dirPath db.fileIds with hw₁
  rw [← withoutDataFiles, ← hw₁] at houtcomes₁ hexists₁ hfile₁ hlookup₁
  have hmerge₁ (name : FileName) : w₁.fs.file? ⟨mergePath, name⟩ = w.fs.file? ⟨mergePath, name⟩ :=
    FS.file?_congr (hlookup₁ _ hne)
  have hdir₁ : w₁.fs.directoryExists dirPath = true := by
    obtain ⟨content, hcontent⟩ := Option.isSome_iff_exists.1 hp.first
    rw [hexists₁]
    exact FS.directoryExists_of_file? ((hsame (.data 0)).trans hcontent)
  set w₂ := w₁.copied mergePath dirPath (.data 0) with hw₂
  set w₃ := w₂.copied mergePath dirPath .hintIndex with hw₃
  have hfirst₂ : w₂.fs.file? ⟨dirPath, .data 0⟩ = some (encodeAll records) :=
    World.copied_file?_self _ _ _ _ ((hmerge₁ _).trans h.first) hdir₁
  have hw₄ : replacedWorld w mergePath dirPath db.fileIds =
      w₃.copied mergePath dirPath .mergeFinished := rfl
  refine ⟨_, hrun, ⟨?_, fun fid hfid => ?_, ?_, fun c => ?_⟩, fun dir hdir => ?_⟩
  · rw [getDataFileName, hw₄, World.copied_file?_of_ne _ _ _ _ (by simp), hw₃,
      World.copied_file?_of_ne _ _ _ _ (by simp)]
    exact hfirst₂
  · rw [getDataFileName, hw₄, World.copied_file?_of_ne _ _ _ _ (by simp), hw₃,
      World.copied_file?_of_ne _ _ _ _ (by simp), hw₂,
      World.copied_file?_of_ne _ _ _ _ (by simp [hfid])]
    exact hfile₁ _ ((hsame _).trans (hp.others fid hfid))
  · rw [hw₄, World.copied_file?_of_ne _ _ _ _ (by simp)]
    refine World.copied_file?_self _ _ _ _ ?_ (FS.directoryExists_of_file? hfirst₂)
    rw [FS.file?_congr (World.copied_lookup_of_ne _ _ _ _ hne), hmerge₁]
    exact h.hint
  · rw [hw₄, World.copied_outcomes, hw₃, World.copied_outcomes, hw₂, World.copied_outcomes,
      houtcomes₁, h.outcomes]
  · rw [hw₄, World.copied_lookup_of_ne _ _ _ _ hdir, hw₃, World.copied_lookup_of_ne _ _ _ _ hdir,
      hw₂, World.copied_lookup_of_ne _ _ _ _ hdir, hlookup₁ dir hdir]

/-! ## Loading the copies -/

/-- Loading the copies makes the first file the active one. If it is not memory mapped, what
    is written next goes behind the copies. -/
structure Reloaded (options : Options) (records : List LogRecord) (currentSeq : ℕ)
    (p q : Proc ι) : Prop where
  olderFiles_eq : q.db.olderFiles = ∅
  fileIds_eq : q.db.fileIds = [0]
  isMerging_eq : q.db.isMerging = p.db.isMerging
  seqNo_eq : q.db.seqNo = currentSeq
  stored : options.mmapAtStartup = false → (∀ r ∈ records, r.Readable) → Stored q records 0
  sameOthers : p.world.SameOthers options.dirPath q.world

theorem Reloaded.of_run {options : Options} {records : List LogRecord} {currentSeq : ℕ}
    {p q : Proc ι} (hoptions : p.db.options = options) (holder : p.db.olderFiles = ∅)
    (h : Replaced options records p.world) (hhint : HintReads (encodeAll (hintRecords records)))
    (hrun : (reload currentSeq : DBM ι Unit).run p = .ok () q) :
    Reloaded options records currentSeq p q := by
  subst hoptions
  set p₁ : Proc ι := { p with db := { p.db with reclaimSize := 0, fileIds := [] } } with hp₁
  obtain ⟨w₂, hload, hsame₂, hcontent₂⟩ := loadDataFiles_run_first (p := p₁) h.first h.others
    (h.outcomes _)
  set p₂ : Proc ι := ⟨{ p₁.db with
    fileIds := [0]
    activeFile := some ⟨p₁.db.firstPath, 0, 0, loadingIOType p₁.db.options⟩ }, w₂⟩ with hp₂
  set p₃ : Proc ι := ⟨{ p₂.db with index := Indexer.create w₂.seeds },
    { w₂ with seeds := w₂.seeds + 1 }⟩ with hp₃
  have hseeds : w₂.SameData p.db.options.dirPath p₃.world := .of_fs rfl rfl
  have hsame₃ : p.world.SameOthers p.db.options.dirPath p₃.world :=
    hsame₂.trans hseeds.toSameOthers
  have hopens : World.OpensOk p.db.options.dirPath p₃.world :=
    hsame₃.opensOk fun name => h.outcomes _
  have hfits : HintFits p₃.world.fs p.db.options.dirPath := by
    intro content hcontent
    obtain rfl := Option.some.inj ((hsame₃.hint.symm.trans hcontent).symm.trans h.hint)
    exact hhint
  obtain ⟨index, hhintRun⟩ := loadIndexFromHintFile_run (p := p₃) hcontent₂ hopens
    (hintOk_of_fits hfits)
  obtain ⟨w₅, hsame₅, hindex⟩ := loadIndexFromDataFiles_run_one
    (p := { p₃ with db := { p₃.db with index := index } }) rfl (.inr rfl) rfl hcontent₂
  set x := scanFile 0 (loadingContent p₁.db.options (encodeAll records))
    { index := (Indexer.create p₃.world.seeds : ι), reclaimSize := p₃.db.reclaimSize } with hx
  set r : Proc ι := ⟨{ p₃.db with
    activeFile := some ⟨p₁.db.firstPath, 0, x.1, loadingIOType p₁.db.options⟩
    index := x.2.index
    reclaimSize := 0
    seqNo := currentSeq }, w₅⟩ with hr
  have hrebuild : (rebuildIndex currentSeq : DBM ι Unit).run p₂ =
      .ok () { r with db := { r.db with reclaimSize := x.2.reclaimSize } } := by
    unfold rebuildIndex
    refine Eq.trans (bind_ok (tryCatch_ok (?_ : EStateM.run _ p₂ = .ok (Except.ok ())
      { r with db := { r.db with reclaimSize := x.2.reclaimSize } }))) rfl
    rw [bind_ok (createIndexer_run p₂), bind_ok (modifyDB_run _ _), bind_ok hhintRun,
      bind_ok hindex]
    rfl
  have hreload : (reload currentSeq : DBM ι Unit).run p = .ok () r := by
    rw [reload, bind_ok (modifyDB_run _ p), bind_ok hload, bind_ok hrebuild]
    rfl
  obtain ⟨-, rfl⟩ := EStateM.Result.ok.inj (hrun.symm.trans hreload)
  refine ⟨holder, rfl, rfl, rfl, fun hmmap hreadable => ?_, hsame₃.trans hsame₅.toSameOthers⟩
  have hcontent : loadingContent p₁.db.options (encodeAll records) =
      encodeAll records ++ List.replicate 0 0 := by
    rw [loadingContent, if_neg (by simp [p₁, hmmap]), List.replicate_zero, List.append_nil]
  have hoff : x.1 = (encodeAll records).length := by
    rw [hx, hcontent, scanFile_zeros 0 _ hreadable (by decide) (by decide)]
  have hio : loadingIOType p₁.db.options = .standardFio := if_neg (by simp [p₁, hmmap])
  refine ⟨?_, (hsame₅.first.trans hcontent₂).trans (congrArg some hcontent)⟩
  show some (DataFile.mk p₁.db.firstPath 0 x.1 (loadingIOType p₁.db.options)) = _
  rw [hoff, hio]
  rfl

theorem reload_run {options : Options} {records : List LogRecord} {p : Proc ι}
    (hoptions : p.db.options = options) (hactive : p.db.activeFile = none)
    (holder : p.db.olderFiles = ∅) (h : Replaced options records p.world)
    (hhint : HintReads (encodeAll (hintRecords records)))
    (currentSeq : ℕ) :
    let files := [(0, loadingContent options (encodeAll records))]
    ∃ q, (reload currentSeq : DBM ι Unit).run p = .ok () q ∧ Loaded options files q ∧
      Indexer.get q.db.index = positionsIn files ∧ (∀ c, q.world.outcomes c = []) ∧
      Reloaded options records currentSeq p q := by
  intro files
  set p₁ : Proc ι := { p with db := { p.db with reclaimSize := 0, fileIds := [] } } with hp₁
  have hids : findDataFiles p₁.world.fs options.dirPath = [0] :=
    findDataFiles_eq_first h.first h.others
  have hfiles : filesIn options p₁.world.fs = files := by
    rw [filesIn, hids, List.map_singleton, h.first]
    rfl
  obtain ⟨p₂, hload, hp₂, hothers⟩ := loadDataFiles_loaded (p := p₁) holder
    (fun name => h.outcomes _) (by dsimp only [p₁]; rw [hoptions, hids]; simp)
  have hp₂ : Loaded options files p₂ := by
    have hdb : p₁.db.options = options := hoptions
    rwa [hdb, hfiles] at hp₂
  set p₃ : Proc ι := ⟨{ p₂.db with index := Indexer.create p₂.world.seeds },
    { p₂.world with seeds := p₂.world.seeds + 1 }⟩ with hp₃
  have hp₃ : Loaded options files p₃ := hp₂.congr rfl rfl rfl rfl (fun _ _ => rfl) rfl
  have hfits : HintFits p₃.world.fs options.dirPath := by
    intro content hcontent
    have hsame : p₂.world.fs.file? ⟨options.dirPath, .hintIndex⟩ = some content := hcontent
    rw [hothers _ (by simp [getDataFileName])] at hsame
    obtain rfl := Option.some.inj (hsame.symm.trans h.hint)
    exact hhint
  obtain ⟨p₄, hhintRun, hp₄⟩ := hp₃.loadIndexFromHintFile.1 hfits
  obtain ⟨p₅, hindex, hp₅, hget⟩ := hp₄.loadIndexFromDataFiles (List.cons_ne_nil _ _)
  have hrebuild : (rebuildIndex currentSeq : DBM ι Unit).run p₂ =
      .ok () { p₅ with db := { p₅.db with seqNo := currentSeq } } := by
    unfold rebuildIndex
    refine Eq.trans (bind_ok (tryCatch_ok (?_ : EStateM.run _ p₂ = .ok (Except.ok ())
      { p₅ with db := { p₅.db with seqNo := currentSeq } }))) rfl
    rw [bind_ok (createIndexer_run p₂), bind_ok (modifyDB_run _ _), bind_ok hhintRun,
      bind_ok hindex]
    rfl
  have hquiet : Proc.InDir options.dirPath World.Unfailing p₅ := by
    have hJ := World.indifferent_unfailing options.dirPath
    have h₁ : Proc.InDir options.dirPath World.Unfailing p₁ :=
      ⟨congrArg Options.dirPath hoptions, (fun file hfile => by cases hactive.symm.trans hfile),
        (fun fid file hfile => by cases (congrArg (AList.lookup fid) holder).symm.trans hfile),
        h.outcomes⟩
    have h₂ := (loadDataFiles_inDir hJ p₁ h₁).1
    rw [hload, finalState_ok] at h₂
    have h₃ : Proc.InDir options.dirPath World.Unfailing p₃ := h₂.congr rfl rfl rfl h₂.holds
    have h₄ := (loadIndexFromHintFile_inDir hJ p₃ h₃).1
    rw [hhintRun, finalState_ok] at h₄
    have h₅ := (loadIndexFromDataFiles_inDir hJ p₄ h₄).1
    rwa [hindex, finalState_ok] at h₅
  have hreload : (reload currentSeq : DBM ι Unit).run p =
      .ok () { p₅ with db := { p₅.db with seqNo := currentSeq, reclaimSize := 0 } } := by
    rw [reload, bind_ok (modifyDB_run _ p), bind_ok hload, bind_ok hrebuild]
    rfl
  exact ⟨_, hreload, hp₅.congr rfl rfl rfl rfl (fun _ _ => rfl) rfl, hget, hquiet.holds,
    .of_run hoptions holder h hhint hreload⟩

/-! ## Merging -/

/-- What a merge leaves besides the copies: the rest of the database, and a directory of its
    own that nothing is below. -/
structure Leaves (options : Options) (records : List LogRecord) (db : DB ι) (w : World)
    (q : Proc ι) : Prop where
  olderFiles_eq : q.db.olderFiles = ∅
  fileIds_eq : q.db.fileIds = [0]
  isMerging_eq : q.db.isMerging = db.isMerging
  seqNo_eq : q.db.seqNo = db.seqNo
  stored : options.mmapAtStartup = false → (∀ r ∈ records, r.Readable) → Stored q records 0
  others : ∀ fid ≠ 0, q.world.fs.file? (getDataFileName options.dirPath fid) = none
  hint : q.world.fs.file? ⟨options.dirPath, .hintIndex⟩ = some (encodeAll (hintRecords records))
  lookup : ∀ dir ≠ options.dirPath, FS.below (getMergePath options.dirPath) dir = false →
    q.world.fs.lookup dir = w.fs.lookup dir
  removed : ∀ dir ≠ getMergePath options.dirPath, FS.below (getMergePath options.dirPath) dir = true →
    q.world.fs.lookup dir = none

omit [Indexer ι] in
/-- Changes in the directory of the merge leave what a merge leaves. -/
theorem Leaves.of_world {options : Options} {records : List LogRecord} {db : DB ι} {w w' : World}
    {q : Proc ι} (h : Leaves options records db w q) (hoptions : q.db.options = options)
    (hlookup : ∀ dir ≠ getMergePath options.dirPath, w'.fs.lookup dir = q.world.fs.lookup dir) :
    Leaves options records db w ⟨q.db, w'⟩ := by
  have hfile (name : FileName) : w'.fs.file? ⟨options.dirPath, name⟩ =
      q.world.fs.file? ⟨options.dirPath, name⟩ :=
    FS.file?_congr (hlookup _ (getMergePath_ne _).symm)
  refine ⟨h.olderFiles_eq, h.fileIds_eq, h.isMerging_eq, h.seqNo_eq, fun hmmap hreadable => ?_,
    fun fid hne => (hfile _).trans (h.others fid hne), (hfile _).trans h.hint,
    fun dir hdir hbelow => ?_, fun dir hdir hbelow => (hlookup dir hdir).trans
      (h.removed dir hdir hbelow)⟩
  · obtain ⟨hactive, hcontent⟩ := h.stored hmmap hreadable
    refine ⟨hactive, ?_⟩
    have hpath : q.db.firstPath = ⟨options.dirPath, .data 0⟩ := by
      rw [DB.firstPath, hoptions]
      rfl
    rw [hpath] at hcontent ⊢
    exact (hfile _).trans hcontent
  · rw [hlookup dir (FS.ne_of_not_below (FS.below_self _) hbelow), h.lookup dir hdir hbelow]

/-- A merge replaces the data by the copies, and loads them. -/
theorem copyAndReplace_run {options : Options} {p : Proc ι} {w : World} {mergeDb : DB ι}
    {content : Bytes} (file : DataFile) (db : DB ι) (hp : Mergeable options p)
    (hopened : MergeOpened options p.world mergeDb w) (hoptions : db.options = options)
    (hcontent : p.world.fs.file? (getDataFileName options.dirPath 0) = some content)
    (hlength : (encodeAll (copies (validRecords db.index) 0 (readsOf content))).length ≤
      options.dataFileSize) (hfile : file.fileId = 0)
    (hpath : file.path = getDataFileName options.dirPath 0) :
    let records := copies (validRecords db.index) 0 (readsOf content)
    let files := [(0, loadingContent options (encodeAll records))]
    ∃ q, (copyAndReplace (getMergePath options.dirPath) [file] mergeDb : DBM ι Unit).run ⟨db, w⟩ =
        .ok () q ∧ Loaded options files q ∧ Indexer.get q.db.index = positionsIn files ∧
      (∀ c, q.world.outcomes c = []) ∧ Leaves options records db p.world q := by
  intro records files
  obtain ⟨w₁, hcopies, hmade⟩ := writeCopies_run db hopened hcontent hlength hfile hpath
  obtain ⟨w₂, hreplace, hreplaced, hlookup₂⟩ := replaceFiles_run hoptions hp hmade
  obtain ⟨q, hreload, hq, hget, hnil, hreloaded⟩ := reload_run
    (p := ⟨{ db with olderFiles := ∅, activeFile := none }, w₂⟩) hoptions rfl rfl hreplaced
    (hintReads_hintRecords fun _ => length_key_of_mem_copies) db.seqNo
  set mergePath := getMergePath options.dirPath with hmergePath
  set w₃ := q.world.change (q.world.fs.removeDirectory mergePath) with hw₃
  have hremove : (removeDirectory mergePath).run q.world = .ok () w₃ := rfl
  have hlookup₃ (dir : Path) (hdir : FS.below mergePath dir = false) :
      w₃.fs.lookup dir = q.world.fs.lookup dir := FS.lookup_removeDirectory_of_not_below hdir
  have hfile₃ (name : FileName) : w₃.fs.file? ⟨options.dirPath, name⟩ =
      q.world.fs.file? ⟨options.dirPath, name⟩ :=
    FS.file?_congr (hlookup₃ _ (not_below_getMergePath _))
  refine ⟨⟨q.db, w₃⟩, ?_, hq.congr rfl rfl rfl rfl (fun x _ => hfile₃ _) rfl, hget, hnil,
    hreloaded.olderFiles_eq, hreloaded.fileIds_eq, hreloaded.isMerging_eq, hreloaded.seqNo_eq,
    fun hmmap hreadable => ?_, fun fid hne => ?_, ?_, fun dir hdir hbelow => ?_,
    fun dir hdir hbelow => FS.lookup_removeDirectory_of_below hbelow⟩
  · rw [copyAndReplace, bind_ok hcopies, bind_ok (proc_run _), bind_ok hreplace, bind_ok hreload]
    exact lift_ok hremove
  · obtain ⟨hactive, hstored⟩ := hreloaded.stored hmmap hreadable
    refine ⟨hactive, ?_⟩
    have hfirstPath : q.db.firstPath = ⟨options.dirPath, .data 0⟩ := by
      rw [DB.firstPath, hq.options_eq]
      rfl
    rw [hfirstPath] at hstored ⊢
    exact (hfile₃ _).trans hstored
  · exact (hfile₃ _).trans ((hreloaded.sameOthers.others fid hne).trans (hreplaced.others fid hne))
  · exact (hfile₃ _).trans (hreloaded.sameOthers.hint.trans hreplaced.hint)
  · rw [hlookup₃ dir hbelow, hreloaded.sameOthers.lookup dir hdir, hlookup₂ dir hdir,
      hmade.lookup dir hbelow]

omit [Indexer ι] in
/-- A database is destroyed by closing it. -/
theorem destroy_run {db : DB ι} {w : World} (hnil : ∀ c, w.outcomes c = []) :
    (destroy db).run w = .ok () (closedWorld ⟨db, w⟩) := by
  show destroy db w = _
  unfold destroy
  rw [close_eq (p := ⟨db, w⟩) (hnil _) (hnil _) (hnil _)]

omit [Indexer ι] in
/-- The other database is destroyed behind the computation. -/
theorem withDestructor_run {other : DB ι} {m : DBM ι Unit} {p q : Proc ι}
    (hrun : m.run p = .ok () q) (hnil : ∀ c, q.world.outcomes c = []) :
    (withDestructor other m).run p = .ok () ⟨q.db, closedWorld ⟨other, q.world⟩⟩ := by
  show withDestructor other m p = _
  unfold withDestructor
  rw [hrun]
  dsimp only
  rw [destroy_run hnil]

/-- The database after a merge of its records that has gone through. -/
structure Merged (options : Options) (records : List LogRecord) (q : Proc ι) : Prop where
  loaded : Loaded options [(0, loadingContent options (encodeAll records))] q
  index : Indexer.get q.db.index = positionsIn [(0, loadingContent options (encodeAll records))]
  outcomes : ∀ c, q.world.outcomes c = []

theorem mergeFiles_run {options : Options} {p : Proc ι} {content : Bytes} (h : Mergeable options p)
    (hfs : p.world.fs.Hierarchical (getMergePath options.dirPath))
    (hcontent : p.world.fs.file? (getDataFileName options.dirPath 0) = some content)
    (hlength : (encodeAll (copies (validRecords p.db.index) 0 (readsOf content))).length ≤
      options.dataFileSize) :
    let records := copies (validRecords p.db.index) 0 (readsOf content)
    ∃ q, (mergeFiles : DBM ι Unit).run p = .ok () q ∧ Merged options records q ∧
      Leaves options records p.db p.world q := by
  intro records
  obtain ⟨file, mergeDb, w, -, hprepare, hopened⟩ := prepareMerge_run h hfs
  obtain ⟨q, hrun, hq, hget, hnil, hleaves⟩ := copyAndReplace_run p.db.firstFile
    (p.db.setAside file) h hopened h.options_eq hcontent hlength rfl
    (by rw [firstFile, firstPath, h.options_eq]; rfl)
  have hdir : mergeDb.options.dirPath = getMergePath options.dirPath :=
    congrArg Options.dirPath hopened.options_eq
  have hlookup (dir : Path) (hne : dir ≠ getMergePath options.dirPath) :
      (closedWorld ⟨mergeDb, q.world⟩).fs.lookup dir = q.world.fs.lookup dir :=
    closedWorld_lookup_of_ne ⟨mergeDb, q.world⟩ (by rwa [hdir])
  have houtcomes : (closedWorld ⟨mergeDb, q.world⟩).outcomes = q.world.outcomes := by
    rw [closedWorld, World.wrote_outcomes, World.opened_outcomes, World.opened_outcomes]
  have hdestroyed : (withDestructor mergeDb _).run _ = _ := withDestructor_run hrun hnil
  have hafter := hleaves.of_world hq.options_eq hlookup
  refine ⟨⟨q.db, closedWorld ⟨mergeDb, q.world⟩⟩, ?_, ⟨?_, hget, fun c => ?_⟩,
    hafter.olderFiles_eq, hafter.fileIds_eq, hafter.isMerging_eq, hafter.seqNo_eq, hafter.stored,
    hafter.others, hafter.hint, hafter.lookup, hafter.removed⟩
  · rw [mergeFiles, bind_ok hprepare]
    exact hdestroyed
  · exact hq.congr rfl rfl rfl rfl (fun x _ => FS.file?_congr (hlookup _ (getMergePath_ne _).symm))
      houtcomes
  · rw [houtcomes]
    exact hnil c

/-- A merge does nothing if there are no data, and merges the files otherwise. -/
theorem merge_eq_ok {p q : Proc ι} {shouldMerge : Bool} {availableSize : ℕ}
    (hrun : (merge shouldMerge availableSize : DBM ι Unit).run p = .ok () q) :
    (q = p ∧ ∀ file, p.db.activeFile = some file → file.writeOff = 0) ∨
      p.db.isMerging = false ∧ ∃ q', (mergeFiles : DBM ι Unit).run
        { p with db := { p.db with isMerging := true } } = .ok () q' ∧
        q = { q' with db := { q'.db with isMerging := false } } := by
  rw [merge, bind_ok (proc_run p)] at hrun
  dsimp only at hrun
  split at hrun
  · rename_i hempty
    cases hrun
    refine .inl ⟨rfl, fun file hfile => ?_⟩
    simpa [hfile] using hempty.1
  · split at hrun
    · cases hrun
    · rename_i hmerging
      rw [bind_ok (modifyDB_run _ p)] at hrun
      split at hrun
      · cases hrun
      · split at hrun
        · cases hrun
        · obtain ⟨_, q', hmerge, hrun⟩ := Guarantee.bind_eq_ok hrun
          cases hfiles : (mergeFiles : DBM ι Unit).run
              { p with db := { p.db with isMerging := true } } with
          | ok _ r =>
            rw [tryCatch_ok hfiles] at hmerge
            cases hmerge
            cases hrun
            exact .inr ⟨by simpa using hmerging, _, rfl, rfl⟩
          | error e r =>
            rw [tryCatch_error hfiles] at hmerge
            cases hmerge

end DB

end Bitcask
