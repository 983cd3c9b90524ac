import Bitcask.Appending
import Bitcask.FailedCommits

/-!
# Writing in front of records

A database that writes to its first data file from the front overwrites what is there. What
is behind all that it writes stays (`Proc.Guarded`): whatever becomes of its calls, requests
keep a key as long as they spare it (`Session.KeyGuarded.step`), that is, do not write it and
append records that do not reach the one the key is read from (`reach`).
-/

namespace Bitcask

open DataFile DBM Sys Guarantee

/-! ## Opening files -/

/-- Files have only been opened: those that were there are as before, and no write has
    been made. -/
structure World.OnlyOpened (w w' : World) : Prop where
  file? : ∀ path content, w.fs.file? path = some content → w'.fs.file? path = some content
  writes : ∀ path, w'.outcomes (.write path) = w.outcomes (.write path)

namespace World.OnlyOpened

instance : Std.Refl OnlyOpened := ⟨fun _ => ⟨fun _ _ h => h, fun _ => rfl⟩⟩

instance : IsTrans World OnlyOpened where
  trans _ _ _ h h' := ⟨fun path content hfile => h'.file? path content (h.file? path content hfile),
    fun path => (h'.writes path).trans (h.writes path)⟩

theorem createIOManager (path : FilePath) :
    Guarantees OnlyOpened (createIOManager path .standardFio) := by
  have hdirectory : Guarantees OnlyOpened (ensureDirectory path.dir) := by
    intro w
    rw [ensureDirectory_run]
    refine ⟨fun p content hfile => ?_, fun p => congrFun (withDirectory_outcomes _ _) _⟩
    exact (withDirectory_file? _ _ p).trans hfile
  have htouch : Guarantees OnlyOpened (touch path) := by
    intro w
    rw [touch_run]
    refine ⟨fun p content hfile => ?_, fun p => congrFun (withFile_outcomes _ _) _⟩
    by_cases hp : p = path
    · subst hp
      have hsame : w.withFile p = w := if_pos (FS.fileExists_iff.2 ⟨content, hfile⟩)
      show (w.withFile p).fs.file? p = some content
      rw [hsame, hfile]
    · exact (withFile_file?_of_ne _ _ hp).trans hfile
  have hcall : Guarantees OnlyOpened (call (.open path)) := fun w =>
    ⟨fun p content hfile => (congrArg (FS.file? · p) (next_fs w _)).trans hfile,
      fun p => next_outcomes_of_ne w (by simp)⟩
  refine .bind hdirectory fun _ => .bind hcall fun outcome => ?_
  split
  · exact .throw _
  · exact htouch

theorem openDataFile (dirPath : Path) (fileId : ℕ) :
    Guarantees OnlyOpened (openDataFile dirPath fileId .standardFio) :=
  .bind (createIOManager _) fun _ => .pure _

end World.OnlyOpened

namespace DB

variable {ι : Type} {p : Proc ι}

/-- If there is no active file, the first one is opened as the active one, if it can be. -/
theorem setActiveDataFile_cases (hactive : p.db.activeFile = none) :
    ∃ w, p.world.OnlyOpened w ∧ ((setActiveDataFile : DBM ι Unit).run p =
        .ok () ⟨{ p.db with activeFile := some p.db.firstFile }, w⟩ ∨
      ∃ e, (setActiveDataFile : DBM ι Unit).run p = .error e ⟨p.db, w⟩) := by
  have hopened := World.OnlyOpened.openDataFile p.db.options.dirPath initialFileId p.world
  rw [setActiveDataFile, bind_ok (proc_run p)]
  simp only [hactive]
  cases hrun : (openDataFile p.db.options.dirPath initialFileId .standardFio).run p.world with
  | ok file w =>
    rw [hrun] at hopened
    obtain ⟨_, _, -, hfile⟩ := Guarantee.bind_eq_ok hrun
    cases hfile
    exact ⟨w, hopened, .inl (bind_ok (lift_ok hrun))⟩
  | error e w =>
    rw [hrun] at hopened
    exact ⟨w, hopened, .inr ⟨e, bind_error (lift_error hrun)⟩⟩

/-- The active file is there, or is opened, if it can be. -/
theorem activeDataFile_cases (p : Proc ι) :
    ∃ w, p.world.OnlyOpened w ∧ ((activeDataFile : DBM ι DataFile).run p =
        .ok p.db.writer ⟨{ p.db with activeFile := some p.db.writer }, w⟩ ∨
      ∃ e, (activeDataFile : DBM ι DataFile).run p = .error e ⟨p.db, w⟩) := by
  cases hactive : p.db.activeFile with
  | some file =>
    have hsame : (⟨{ p.db with activeFile := some p.db.writer }, p.world⟩ : Proc ι) = p := by
      calc (⟨{ p.db with activeFile := some p.db.writer }, p.world⟩ : Proc ι)
        _ = ⟨p.started.db, p.world⟩ := rfl
        _ = p := by rw [Proc.started_of_some hactive]
    refine ⟨p.world, Std.Refl.refl _, .inl ?_⟩
    rw [hsame, activeDataFile_run hactive, writer, hactive, Option.getD_some]
  | none =>
    obtain ⟨w, hw, hset⟩ := setActiveDataFile_cases hactive
    refine ⟨w, hw, ?_⟩
    rw [activeDataFile, bind_ok (proc_run p), hactive, writer, hactive]
    rcases hset with hrun | ⟨e, hrun⟩
    · exact .inl (bind_ok hrun)
    · exact .inr ⟨e, bind_error hrun⟩

end DB

/-! ## Reading behind what is written -/

/-- What is read at an offset is told by what is behind it. -/
theorem readLogRecord_congr_drop {content content' : Bytes} {offset : ℕ}
    (h : content'.drop offset = content.drop offset) :
    readLogRecord content' offset = readLogRecord content offset := by
  have hlen := congrArg List.length h
  rw [List.length_drop, List.length_drop] at hlen
  rcases Nat.lt_or_ge content.length (offset + 5) with hlt | hge
  · rw [readLogRecord_eof hlt, readLogRecord_eof (by omega)]
  have hlength : content'.length = content.length := by omega
  have hread (n k : ℕ) :
      readNBytes content' n (offset + k) = readNBytes content n (offset + k) := by
    have hdrop : content'.drop (offset + k) = content.drop (offset + k) := by
      rw [← List.drop_drop, h, List.drop_drop]
    rw [readNBytes, readNBytes, hlength, hdrop]
  have hheader : readLogRecordHeader content' offset = readLogRecordHeader content offset := by
    have hread₀ (n : ℕ) : readNBytes content' n offset = readNBytes content n offset := hread n 0
    rw [readLogRecordHeader, readLogRecordHeader, hlength]
    simp only [hread₀]
  rw [readLogRecord, readLogRecord, hheader]
  simp only [hread]

/-- What is behind the bytes written stays. -/
theorem drop_overwrite_of_le {content data : Bytes} {offset limit : ℕ}
    (h : offset + data.length ≤ limit) (hlimit : limit ≤ content.length) :
    (overwrite content offset data).drop limit = content.drop limit := by
  have hfront : (content.take limit).length = limit := List.length_take_of_le hlimit
  have hle : offset + data.length ≤ (content.take limit).length := by omega
  calc (overwrite content offset data).drop limit
    _ = (overwrite (content.take limit ++ content.drop limit) offset data).drop limit := by
      rw [List.take_append_drop]
    _ = (overwrite (content.take limit) offset data ++ content.drop limit).drop limit := by
      rw [overwrite_append_right hle]
    _ = content.drop limit := List.drop_left' (by rw [length_overwrite_of_le hle, hfront])

/-- How far the writes of some records reach in the first data file, if the first of them is
    at an offset. Each goes on where the one before has ended, or starts again at the front
    of the file if the record does not fit. -/
def reach (dataFileSize : ℕ) : ℕ → List Outcome → List LogRecord → ℕ
  | _, _, [] => 0
  | offset, outcomes, record :: records =>
    let start := if dataFileSize < offset + record.encode.length then 0 else offset
    match (outcomes.headD .ok).stored record.encode with
    | none => 0
    | some part =>
      max (start + part.length) (reach dataFileSize (start + part.length) outcomes.tail records)

variable {ι : Type}

/-- A database that writes to its first data file, while a data file has some bytes behind
    an offset. -/
structure Proc.Guarded (options : Options) (fid limit : ℕ) (rest : Bytes) (p : Proc ι) : Prop where
  options_eq : p.db.options = options
  active : ∀ file, p.db.activeFile = some file → file = p.db.activeAt file.writeOff
  older : ∃ file, p.db.olderFiles.lookup fid = some file ∧
    file.path = getDataFileName options.dirPath fid
  content : ∃ c, p.world.fs.file? (getDataFileName options.dirPath fid) = some c ∧
    limit ≤ c.length ∧ c.drop limit = rest

namespace Proc.Guarded

variable {options : Options} {fid limit : ℕ} {rest : Bytes} {p : Proc ι}

theorem writer_eq (h : p.Guarded options fid limit rest) :
    p.db.writer = p.db.activeAt p.db.writer.writeOff := by
  unfold DB.writer
  cases hactive : p.db.activeFile with
  | some file => exact h.active file hactive
  | none => rfl

theorem outcomes_eq (h : p.Guarded options fid limit rest) :
    p.outcomes = p.world.outcomes (.write (getDataFileName options.dirPath 0)) := by
  rw [outcomes, h.writer_eq, ← h.options_eq]
  rfl

/-- Handles may change that are not needed, and files be opened. -/
theorem congr (h : p.Guarded options fid limit rest) {q : Proc ι}
    (hoptions : q.db.options = p.db.options)
    (hactive : ∀ file, q.db.activeFile = some file → file = p.db.activeAt file.writeOff)
    (holder : q.db.olderFiles.lookup fid = p.db.olderFiles.lookup fid)
    (hworld : p.world.OnlyOpened q.world) : q.Guarded options fid limit rest where
  options_eq := hoptions.trans h.options_eq
  active file hfile := (hactive file hfile).trans (DB.activeAt_congr hoptions _).symm
  older := holder ▸ h.older
  content := by
    obtain ⟨c, hc, hrest⟩ := h.content
    exact ⟨c, hworld.file? _ _ hc, hrest⟩

/-- The file written to becomes an older one. -/
theorem setAside (h : p.Guarded options fid limit rest) (fileIds : List ℕ) :
    Guarded options fid limit rest { p with db := { p.db with
      activeFile := none
      olderFiles := p.db.olderFiles.insert p.db.writer.fileId p.db.writer
      fileIds := fileIds } } where
  options_eq := h.options_eq
  active := by simp
  older := by
    have hwriter := h.writer_eq
    rw [hwriter]
    by_cases hfid : fid = initialFileId
    · subst hfid
      refine ⟨_, AList.lookup_insert _, ?_⟩
      rw [← h.options_eq]
      rfl
    · obtain ⟨file, hfile, hpath⟩ := h.older
      exact ⟨file, (AList.lookup_insert_ne hfid).trans hfile, hpath⟩
  content := h.content

/-- A write that ends in front of the offset. -/
theorem wrote (h : p.Guarded options fid limit rest) {db : DB ι} {w : World} {part : Bytes}
    {start : ℕ} (hoptions : db.options = p.db.options)
    (holder : db.olderFiles = p.db.olderFiles)
    (hactive : db.activeFile = some (p.db.activeAt (start + part.length)))
    (hworld : w = (p.world.next (.write p.db.firstPath)).2.wrote (p.db.activeAt start) part)
    (hspare : fid = 0 → start + part.length ≤ limit) :
    Guarded options fid limit rest ⟨db, w⟩ where
  options_eq := hoptions.trans h.options_eq
  active file hfile := by
    obtain rfl := Option.some.inj (hactive.symm.trans hfile)
    exact (DB.activeAt_congr hoptions _).symm
  older := holder ▸ h.older
  content := by
    obtain ⟨c, hc, hle, hrest⟩ := h.content
    rw [← World.next_fs p.world (.write p.db.firstPath)] at hc
    subst hworld
    by_cases hfid : fid = 0
    · subst hfid
      have hpath : (p.db.activeAt start).path = getDataFileName options.dirPath 0 := by
        rw [← h.options_eq]
        rfl
      rw [← hpath] at hc
      refine ⟨_, hpath ▸ World.wrote_file?_self _ _ _ hc, ?_, ?_⟩
      · show limit ≤ (overwrite c start part).length
        rw [length_overwrite_of_le ((hspare rfl).trans hle)]
        exact hle
      · exact (drop_overwrite_of_le (hspare rfl) hle).trans hrest
    · refine ⟨c, (World.wrote_file?_of_ne _ _ _ ?_).trans hc, hle, hrest⟩
      simp [getDataFileName, DB.activeAt, DB.firstFile, DB.firstPath, initialFileId, hfid]

/-- Writing a record to the active file, if what is stored of it and the records behind it
    do not reach the offset. -/
theorem write (h : p.Guarded options fid limit rest) {start : ℕ}
    (hactive : p.db.activeFile = some (p.db.activeAt start)) {data : Bytes}
    {records : List LogRecord}
    (hspare : ∀ part, (p.outcomes.headD .ok).stored data = some part → fid = 0 →
      start + part.length ≤ limit ∧
        reach options.dataFileSize (start + part.length) p.outcomes.tail records ≤ limit) :
    let m : DBM ι LogRecordPos := do
      let file ← DB.activeDataFile
      let written ← file.write data
      modifyDB fun db => { db with activeFile := some written }
      return ⟨file.fileId, file.writeOff, data.length % 2 ^ 32⟩
    (∃ pos q, m.run p = .ok pos q ∧ q.Guarded options fid limit rest ∧ (fid = 0 →
      reach options.dataFileSize q.db.writer.writeOff q.outcomes records ≤ limit)) ∨
    ∃ e q, m.run p = .error e q ∧ q.Guarded options fid limit rest := by
  intro m
  set file := p.db.activeAt start with hfile
  have houtcomes : p.outcomes = p.world.outcomes (.write p.db.firstPath) := by
    rw [h.outcomes_eq, DB.firstPath, h.options_eq]
    rfl
  have hfirst : (p.world.next (.write file.path)).1 = p.outcomes.headD .ok := by
    rw [houtcomes, World.next_fst]
    rfl
  have hwrite := file.write_run data p.world
  have hrun : m.run p = ((liftM (file.write data) : DBM ι DataFile) >>= fun written => do
      modifyDB fun db => { db with activeFile := some written }
      return ⟨file.fileId, file.writeOff, data.length % 2 ^ 32⟩).run p :=
    bind_ok (DB.activeDataFile_run hactive)
  rw [hfirst] at hwrite
  cases hstored : (p.outcomes.headD .ok).stored data with
  | some part =>
    rw [hstored] at hwrite
    refine .inl ⟨_, _, hrun.trans (bind_ok (lift_ok hwrite)),
      h.wrote rfl rfl rfl rfl fun hfid => (hspare part hstored hfid).1, fun hfid => ?_⟩
    have hrest := (hspare part hstored hfid).2
    rwa [houtcomes, ← World.next_outcomes_self p.world (.write p.db.firstPath)] at hrest
  | none =>
    rw [hstored] at hwrite
    refine .inr ⟨_, _, hrun.trans (bind_error (lift_error hwrite)), h.options_eq, h.active,
      h.older, ?_⟩
    obtain ⟨c, hc, hrest⟩ := h.content
    exact ⟨c, (congrArg (FS.file? · _) (World.next_fs p.world _)).trans hc, hrest⟩

/-- Appending records that do not reach the offset, up to the first one. -/
theorem append (h : p.Guarded options fid limit rest) {record : LogRecord}
    {records : List LogRecord} (hreach : fid = 0 →
      reach options.dataFileSize p.db.writer.writeOff p.outcomes (record :: records) ≤ limit) :
    (∃ pos q, (DB.appendLogRecordInternal record : DBM ι _).run p = .ok pos q ∧
      q.Guarded options fid limit rest ∧ (fid = 0 →
        reach options.dataFileSize q.db.writer.writeOff q.outcomes records ≤ limit)) ∨
    ∃ e q, (DB.appendLogRecordInternal record : DBM ι _).run p = .error e q ∧
      q.Guarded options fid limit rest := by
  set start := if options.dataFileSize < p.db.writer.writeOff + record.encode.length then 0
    else p.db.writer.writeOff with hstart
  have hspare (part : Bytes) (hpart : (p.outcomes.headD .ok).stored record.encode = some part)
      (hfid : fid = 0) : start + part.length ≤ limit ∧
        reach options.dataFileSize (start + part.length) p.outcomes.tail records ≤ limit := by
    have hle := hreach hfid
    rw [reach, hpart] at hle
    exact max_le_iff.1 hle
  -- The file to write to becomes the active one, as far as it can be opened.
  obtain ⟨w, hw, hactive | ⟨e, hactive⟩⟩ := DB.activeDataFile_cases p
  · set p₁ : Proc ι := ⟨{ p.db with activeFile := some p.db.writer }, w⟩ with hp₁
    have h₁ : p₁.Guarded options fid limit rest :=
      h.congr rfl (fun file hfile => Option.some.inj hfile ▸ h.writer_eq) rfl hw
    have houtcomes₁ : p₁.outcomes = p.outcomes := by
      rw [h₁.outcomes_eq, h.outcomes_eq]
      exact hw.writes _
    by_cases hfit : options.dataFileSize < p.db.writer.writeOff + record.encode.length
    · -- The file is rotated, to the front of the first data file.
      rw [if_pos hfit] at hstart
      set p₂ : Proc ι := { p₁ with db := { p₁.db with
        activeFile := none
        olderFiles := p₁.db.olderFiles.insert p.db.writer.fileId p.db.writer
        fileIds := DB.addFileId p₁.db.fileIds p.db.writer.fileId } } with hp₂
      have h₂ : p₂.Guarded options fid limit rest := h₁.setAside _
      have hrotate : (DB.appendLogRecordInternal record : DBM ι _).run p =
          (DB.setActiveDataFile >>= fun _ => do
            let file ← DB.activeDataFile
            let written ← file.write record.encode
            modifyDB fun db => { db with activeFile := some written }
            return ⟨file.fileId, file.writeOff, record.encode.length % 2 ^ 32⟩ :
              DBM ι LogRecordPos).run p₂ := by
        rw [DB.appendLogRecordInternal, bind_ok hactive]
        show (proc >>= fun _ => _).run p₁ = _
        rw [bind_ok (proc_run p₁), if_pos (by rw [h₁.options_eq]; exact hfit)]
        rfl
      obtain ⟨w', hw', hset | ⟨e, hset⟩⟩ := DB.setActiveDataFile_cases (p := p₂) rfl
      · set p₃ : Proc ι := ⟨{ p₂.db with activeFile := some p₂.db.firstFile }, w'⟩ with hp₃
        have h₃ : p₃.Guarded options fid limit rest :=
          h₂.congr rfl (fun file hfile => Option.some.inj hfile ▸ rfl) rfl hw'
        have houtcomes₃ : p₃.outcomes = p.outcomes := by
          rw [h₃.outcomes_eq, ← houtcomes₁, h₁.outcomes_eq]
          exact hw'.writes _
        rw [hrotate, bind_ok hset]
        exact h₃.write (by rw [hstart]; rfl) (houtcomes₃ ▸ hspare)
      · exact .inr ⟨e, ⟨p₂.db, w'⟩, hrotate.trans (bind_error hset),
          h₂.congr rfl h₂.active rfl hw'⟩
    · rw [if_neg hfit] at hstart
      have hwrite : (DB.appendLogRecordInternal record : DBM ι _).run p = (do
          let file ← DB.activeDataFile
          let written ← file.write record.encode
          modifyDB fun db => { db with activeFile := some written }
          return ⟨file.fileId, file.writeOff, record.encode.length % 2 ^ 32⟩ :
            DBM ι LogRecordPos).run p₁ := by
        rw [DB.appendLogRecordInternal, bind_ok hactive]
        show (proc >>= fun _ => _).run p₁ = _
        rw [bind_ok (proc_run p₁), if_neg (by rw [h₁.options_eq]; exact hfit)]
      rw [hwrite]
      refine h₁.write ?_ (houtcomes₁ ▸ hspare)
      rw [hstart]
      exact congrArg some h.writer_eq
  · refine .inr ⟨e, ⟨p.db, w⟩, ?_, h.congr rfl h.active rfl hw⟩
    rw [DB.appendLogRecordInternal, bind_error hactive]

theorem appending (h : p.Guarded options fid limit rest) {records : List LogRecord}
    (hreach : fid = 0 →
      reach options.dataFileSize p.db.writer.writeOff p.outcomes records ≤ limit) :
    (p.appending records).Guarded options fid limit rest := by
  induction records generalizing p with
  | nil => exact h
  | cons record records ih =>
    rcases h.append hreach with ⟨pos, q, hrun, hq, hrest⟩ | ⟨e, q, hrun, hq⟩
    · rw [appending_ok hrun]
      exact ih hq hrest
    · rwa [appending_error hrun]

variable [Indexer ι]

omit [Indexer ι] in
theorem fileOf_eq (h : p.Guarded options fid limit rest) :
    ∃ file, p.db.fileOf fid = some file ∧ file.path = getDataFileName options.dirPath fid := by
  by_cases hfirst : ∃ file, p.db.activeFile = some file ∧ file.fileId = fid
  · obtain ⟨file, hactive, rfl⟩ := hfirst
    refine ⟨file, DB.fileOf_of_eq hactive, ?_⟩
    rw [h.active file hactive, ← h.options_eq]
    rfl
  · rw [DB.fileOf_of_ne fun file hactive hid => hfirst ⟨file, hactive, hid⟩]
    exact h.older

/-- A key is read at the offset that the index has for it. -/
theorem get_eq {key : Bytes} {pos : LogRecordPos} (h : p.Guarded options pos.fid pos.offset rest)
    (hkey : key ≠ []) (hindex : Indexer.get p.db.index key = some pos) {content : Bytes}
    (hcontent : content.drop pos.offset = rest) :
    p.db.get p.world.fs key = readValue content pos.offset := by
  obtain ⟨file, hfile, hpath⟩ := h.fileOf_eq
  obtain ⟨c, hc, -, hrest⟩ := h.content
  have hread : readLogRecord (file.content p.world.fs) pos.offset =
      readLogRecord content pos.offset := by
    rw [content_eq_of_file? (hpath ▸ hc)]
    exact readLogRecord_congr_drop (hrest.trans hcontent.symm)
  rw [DB.get, if_neg hkey, hindex]
  simp only [DB.getValueByPosition, hfile, hread]
  rfl

end Proc.Guarded

namespace Session

open Proc

variable [Indexer ι]

/-- A request spares a key: it does not write it, and its records do not reach the one that
    the key is read from. -/
def Spares (key : Bytes) (s : Session ι) (op : Op) : Prop :=
  key ∉ s.writtenKeys op ∧ ∀ pos, Indexer.get s.proc.db.index key = some pos → pos.fid = 0 →
    reach s.proc.db.options.dataFileSize s.proc.db.writer.writeOff s.proc.outcomes
      (s.appends op) ≤ pos.offset

/-- A key is guarded: the index points to what is guarded. -/
def KeyGuarded (options : Options) (key : Bytes) (pos : LogRecordPos) (rest : Bytes)
    (s : Session ι) : Prop :=
  Indexer.get s.proc.db.index key = some pos ∧ s.proc.Guarded options pos.fid pos.offset rest

theorem KeyGuarded.step {options : Options} {key : Bytes} {pos : LogRecordPos} {rest : Bytes}
    {s : Session ι} (h : s.KeyGuarded options key pos rest) {op : Op} (hop : s.Spares key op) :
    (s.step op).1.KeyGuarded options key pos rest := by
  obtain ⟨hindex, hguarded⟩ := h
  have hstep := s.step_reindexed op
  have happended : (s.proc.appending (s.appends op)).Guarded options pos.fid pos.offset rest := by
    refine hguarded.appending fun hfid => ?_
    rw [← hguarded.options_eq]
    exact hop.2 pos hindex hfid
  refine ⟨?_, happended.congr hstep.options (fun file hfile => ?_) ?_ ?_⟩
  · rw [hstep.get_eq key hop.1, appending_index, hindex]
  · exact happended.active file (hstep.activeFile ▸ hfile)
  · rw [hstep.olderFiles]
  · rw [hstep.world]
    exact Std.Refl.refl _

end Session

end Bitcask
