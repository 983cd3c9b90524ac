import Bitcask.Replay

/-!
# Recovery

What loading the data files builds. If the files hold encoded records, laid out
back to back, then `loadIndexFromDataFiles` returns with the index that maps
every key to the position of the last write of it that takes effect, with the
active file's write offset at its end, and with the largest sequence number of
the records (`loadIndexFromDataFiles_replays`).
-/

namespace Bitcask

open Framing FuelLoop Transaction DataFile Guarantee

/-- A record as the store writes them: not too large, of one of the three types,
    and marking the end of a transaction only if it belongs to one. -/
structure LogRecord.Logged (record : LogRecord) : Prop where
  key_le : record.key.length ≤ maxRecordSize
  value_le : record.value.length ≤ maxRecordSize
  type_eq : record.type = .normal ∨ record.type = .deleted ∨ record.type = .txnFinished
  seqNo_ne : record.type = .txnFinished → (parseLogRecordKey record.key).2 ≠ nonTransactionSeqNo

theorem LogRecord.Logged.readable {record : LogRecord} (h : record.Logged) : record.Readable :=
  LogRecord.readable_of_le h.key_le h.value_le h.type_eq

namespace DB

variable {ι : Type}

/-! ## The files read -/

/-- A database about to be loaded, with the ids and the records of its data files. -/
structure DataFiles (p : Proc ι) (files : List (ℕ × List LogRecord)) : Prop where
  fileIds_eq : p.db.fileIds = files.map Prod.fst
  ascending : p.db.fileIds.Pairwise (· < ·)
  content : ∀ x ∈ files, ∃ file, p.db.fileOf x.1 = some file ∧
    file.path = getDataFileName p.db.options.dirPath x.1 ∧
    p.world.fs.file? file.path = some (encodeAll x.2)
  active : ∀ file, p.db.activeFile = some file → file.fileId ∈ p.db.fileIds

/-- The entries of the records of files, each with the size of its encoding. -/
def logOf (files : List (ℕ × List LogRecord)) : List (Entry ℕ Bytes LogRecordPos) :=
  files.flatMap fun x => (offsets x.2).map fun y => entryOf y.2 ⟨x.1, y.1, y.2.encodedSize⟩

/-- The handle holds the records of a file. -/
def Holds (fs : FS) (x : ℕ × List LogRecord) (y : ℕ × DataFile) : Prop :=
  y.1 = x.1 ∧ y.2.content fs = encodeAll x.2

/-- The handles of files that hold records. -/
theorem forall₂_holds {p : Proc ι} {files : List (ℕ × List LogRecord)} {fs : FS}
    (hfs : ∀ fid, fs.file? (getDataFileName p.db.options.dirPath fid) =
      p.world.fs.file? (getDataFileName p.db.options.dirPath fid))
    (hcontent : ∀ x ∈ files, ∃ file, p.db.fileOf x.1 = some file ∧
      file.path = getDataFileName p.db.options.dirPath x.1 ∧
      p.world.fs.file? file.path = some (encodeAll x.2)) :
    List.Forall₂ (Holds fs) files
      ((files.map Prod.fst).filterMap fun fid => (p.db.fileOf fid).map (fid, ·)) := by
  induction files with
  | nil => exact .nil
  | cons x files ih =>
    obtain ⟨file, hfile, hpath, hx⟩ := hcontent x List.mem_cons_self
    rw [List.map_cons, List.filterMap_cons, hfile]
    refine .cons ⟨rfl, content_eq_of_file? ?_⟩
      (ih fun y hy => hcontent y (List.mem_cons_of_mem _ hy))
    rw [hpath, hfs, ← hpath, hx]

/-- The files read are those of the list. -/
theorem DataFiles.forall₂_filesToProcess {p : Proc ι} {files : List (ℕ × List LogRecord)}
    (h : DataFiles p files) {fs : FS}
    (hfs : ∀ fid, fs.file? (getDataFileName p.db.options.dirPath fid) =
      p.world.fs.file? (getDataFileName p.db.options.dirPath fid)) :
    List.Forall₂ (Holds fs) files p.db.filesToProcess := by
  have hextra : p.db.unlistedFile = [] := by
    unfold unlistedFile
    split
    · rw [if_pos (h.active _ ‹_›)]
    · rfl
  rw [filesToProcess, hextra, List.append_nil, h.fileIds_eq]
  exact forall₂_holds hfs h.content

/-! ## Reading the files -/

variable [Indexer ι] {fs : FS} {files : List (ℕ × List LogRecord)} {handles : List (ℕ × DataFile)}

/-- Reading files of records replays their entries. -/
theorem scanFiles_snd (h : List.Forall₂ (Holds fs) files handles)
    (hrecords : ∀ x ∈ files, ∀ r ∈ x.2, r.Readable) (db : DB ι) (s : Loading ι) :
    (scanFiles fs handles (db, s)).2.state =
        (files.flatMap fun x => fileEntries x.1 x.2).foldl State.step s.state ∧
      (scanFiles fs handles (db, s)).2.seqNo = (files.flatMap Prod.snd).foldl
        (fun m r => max m (parseLogRecordKey r.key).2) s.seqNo := by
  induction h generalizing db s with
  | nil => exact ⟨rfl, rfl⟩
  | @cons x y files handles hxy _ ih =>
    obtain ⟨hfid, hcontent⟩ := hxy
    have hx := hrecords x List.mem_cons_self
    rw [scanFiles, hcontent, hfid]
    simp only [scanFile_encodeAll x.1 s hx]
    obtain ⟨ih1, ih2⟩ := ih (fun z hz => hrecords z (List.mem_cons_of_mem _ hz))
      (db.setWriteOff x.1 (encodeAll x.2).length) (s.processAll x.1 (offsets x.2))
    refine ⟨ih1.trans ?_, ih2.trans ?_⟩
    · rw [List.flatMap_cons, List.foldl_append, state_processAll]
      rfl
    · rw [List.flatMap_cons, List.foldl_append, seqNo_processAll, map_snd_layout]

/-- Reading files of records leaves the write offset of the active file at its end
    if it is one of them, and the database otherwise as it is. -/
theorem scanFiles_fst (h : List.Forall₂ (Holds fs) files handles)
    (hrecords : ∀ x ∈ files, ∀ r ∈ x.2, r.Readable) {db : DB ι} {file : DataFile}
    (hactive : db.activeFile = some file) (s : Loading ι) :
    ∃ off, (scanFiles fs handles (db, s)).1 =
        { db with activeFile := some { file with writeOff := off } } ∧
      ((∀ x ∈ files, x.1 ≠ file.fileId) → off = file.writeOff) ∧
      ((files.map Prod.fst).Nodup → ∀ x ∈ files, x.1 = file.fileId →
        off = (encodeAll x.2).length) := by
  induction h generalizing db s file with
  | nil => exact ⟨file.writeOff, by rw [← hactive]; rfl, fun _ => rfl, by simp⟩
  | @cons x y files handles hxy _ ih =>
    obtain ⟨hfid, hcontent⟩ := hxy
    have hx := hrecords x List.mem_cons_self
    rw [scanFiles, hcontent, hfid]
    simp only [scanFile_encodeAll x.1 s hx]
    have ih := fun db file hactive => @ih (fun z hz => hrecords z (List.mem_cons_of_mem _ hz))
      db file hactive (s.processAll x.1 (offsets x.2))
    -- Only the active file has its offset set, and no later file has its id.
    by_cases hid : file.fileId = x.1
    · obtain ⟨off, h1, h2, h3⟩ := ih (db.setWriteOff x.1 (encodeAll x.2).length)
        { file with writeOff := (encodeAll x.2).length } (by simp [setWriteOff, hactive, hid])
      refine ⟨off, ?_, fun hne => absurd hid.symm (hne x List.mem_cons_self), ?_⟩
      · rw [h1]
        simp [setWriteOff, hactive, hid]
      · intro hnd z hz hzid
        rw [List.map_cons, List.nodup_cons] at hnd
        rcases List.mem_cons.1 hz with rfl | hz
        · exact h2 fun w hw hwid =>
            hnd.1 (List.mem_map.2 ⟨w, hw, hwid.trans hid⟩)
        · exact h3 hnd.2 z hz hzid
    · have hset : db.setWriteOff x.1 (encodeAll x.2).length = db := by
        simp [setWriteOff, hactive, hid]
      obtain ⟨off, h1, h2, h3⟩ := ih db file hactive
      rw [hset]
      refine ⟨off, h1, fun hne => h2 fun z hz => hne z (List.mem_cons_of_mem _ hz), ?_⟩
      intro hnd z hz hzid
      rw [List.map_cons, List.nodup_cons] at hnd
      rcases List.mem_cons.1 hz with rfl | hz
      · exact absurd hzid.symm hid
      · exact h3 hnd.2 z hz hzid

/-- Without an active file, reading files does not change the database. -/
theorem scanFiles_fst_of_none (fs : FS) (handles : List (ℕ × DataFile)) {db : DB ι}
    (hactive : db.activeFile = none) (s : Loading ι) : (scanFiles fs handles (db, s)).1 = db := by
  induction handles generalizing s with
  | nil => rfl
  | cons y handles ih =>
    have hset (fid offset : ℕ) : db.setWriteOff fid offset = db := by
      simp [setWriteOff, hactive]
    rw [scanFiles]
    simp only [hset, ih]

/-- Loading the index reads the data files, which removing the marker leaves alone. -/
theorem loadIndexFromDataFiles_run (p : Proc ι)
    (h : ¬(p.db.fileIds = [] ∧ p.db.activeFile.isNone)) :
    let w := World.withoutFile { p.world with seeds := p.world.seeds + 1 }
      ⟨p.db.options.dirPath, .mergeFinished⟩
    (loadIndexFromDataFiles : DBM ι Unit).run p =
      .ok () ⟨p.db.scanned w.fs (Indexer.create p.world.seeds), w⟩ := by
  intro w
  rw [loadIndexFromDataFiles, bind_ok (DBM.proc_run p), if_neg h, bind_ok (createIndexer_run p),
    bind_ok (DBM.lift_ok (Sys.removeIfExists_run _ _)), bind_ok (DBM.proc_run _)]
  rfl

/-! ## What loading builds -/

omit [Indexer ι] in
/-- The sizes of readable records are exact. -/
theorem logOf_eq (hrecords : ∀ x ∈ files, ∀ r ∈ x.2, r.Readable) :
    logOf files = files.flatMap fun x => fileEntries x.1 x.2 := by
  refine List.flatMap_congr fun x hx => List.map_congr_left fun y hy => ?_
  have hy := hrecords x hx y.2 (mem_of_mem_layout hy)
  rw [posOf, Nat.mod_eq_of_lt hy.encodedSize_lt, LogRecord.encodedSize_eq]

/-- Loading data files that hold encoded records returns. Every key is mapped to
    the position of the last write of it that takes effect. -/
theorem loadIndexFromDataFiles_replays {p : Proc ι} (h : DataFiles p files)
    (hempty : ∀ k, Indexer.get p.db.index k = none)
    (hrecords : ∀ x ∈ files, ∀ r ∈ x.2, r.Logged) :
    (∀ x ∈ files, ∀ s : Loading ι, ∃ r,
      loop (scanPass x.1 (encodeAll x.2)) ((encodeAll x.2).length + 1) (0, s) = some r) ∧
    ∃ q, (loadIndexFromDataFiles : DBM ι Unit).run p = .ok () q ∧
      (∀ k pos, Indexer.get q.db.index k = some pos ↔
        ∃ i j, TakesEffect (logOf files) i j k (some pos) ∧
          ∀ i' j' v, TakesEffect (logOf files) i' j' k v →
            (i', j') = (i, j) ∨ Before (i', j') (i, j)) ∧
      (∀ file, q.db.activeFile = some file →
        file.writeOff = (file.content q.world.fs).length) ∧
      (files ≠ [] → q.db.seqNo = maxSeqNo (files.flatMap Prod.snd)) := by
  have hread : ∀ x ∈ files, ∀ r ∈ x.2, r.Readable := fun x hx r hr =>
    (hrecords x hx r hr).readable
  refine ⟨fun x hx s => ⟨_, loop_scanPass_encodeAll x.1 s (hread x hx)⟩, ?_⟩
  suffices hq : ∃ q, (loadIndexFromDataFiles : DBM ι Unit).run p = .ok () q ∧
      Indexer.get q.db.index = (replay (logOf files)).value ∧
      (∀ file, q.db.activeFile = some file →
        file.writeOff = (file.content q.world.fs).length) ∧
      (files ≠ [] → q.db.seqNo = maxSeqNo (files.flatMap Prod.snd)) by
    obtain ⟨q, h1, h2, h3⟩ := hq
    exact ⟨q, h1, fun k pos => by rw [h2, replay_value_iff], h3⟩
  by_cases hids : p.db.fileIds = [] ∧ p.db.activeFile.isNone
  · -- Without data files there is nothing to load.
    have hnil : files = [] := List.map_eq_nil_iff.1 (h.fileIds_eq ▸ hids.1)
    refine ⟨p, ?_, ?_, fun file hfile => ?_, fun hne => absurd hnil hne⟩
    · rw [loadIndexFromDataFiles, bind_ok (DBM.proc_run p), if_pos hids]
      rfl
    · subst hnil
      exact funext hempty
    · simp [hfile] at hids
  · refine ⟨_, loadIndexFromDataFiles_run p hids, ?_⟩
    set w := World.withoutFile { p.world with seeds := p.world.seeds + 1 }
      ⟨p.db.options.dirPath, .mergeFinished⟩
    have hfs (fid : ℕ) : w.fs.file? (getDataFileName p.db.options.dirPath fid) =
        p.world.fs.file? (getDataFileName p.db.options.dirPath fid) :=
      World.withoutFile_file?_of_ne _ _ (by simp [getDataFileName])
    have hscan := h.forall₂_filesToProcess hfs
    obtain ⟨hstate, hseq⟩ := scanFiles_snd hscan hread p.db
      { index := Indexer.create p.world.seeds, reclaimSize := p.db.reclaimSize }
    refine ⟨?_, fun file hfile => ?_, fun _ => hseq⟩
    · rw [logOf_eq hread]
      refine (congrArg State.value hstate).trans ?_
      have hinit : Loading.state (ι := ι)
          { index := Indexer.create p.world.seeds, reclaimSize := p.db.reclaimSize } = .init :=
        congrArg₂ State.mk (funext fun k => Indexer.get_create _ k) rfl
      rw [hinit, replay]
    · cases hactive : p.db.activeFile with
      | none =>
        have hsame := scanFiles_fst_of_none w.fs p.db.filesToProcess hactive
          { index := Indexer.create p.world.seeds, reclaimSize := p.db.reclaimSize }
        simp [scanned, hsame, hactive] at hfile
      | some active =>
        obtain ⟨off, hdb, -, hoff⟩ := scanFiles_fst hscan hread hactive
          { index := Indexer.create p.world.seeds, reclaimSize := p.db.reclaimSize }
        obtain rfl : { active with writeOff := off } = file := by
          simpa [scanned, hdb] using hfile
        have hid := h.active active hactive
        rw [h.fileIds_eq] at hid
        obtain ⟨x, hx, hxid⟩ := List.mem_map.1 hid
        obtain ⟨handle, hhandle, hpath, hcontent⟩ := h.content x hx
        obtain rfl : active = handle := by simpa [fileOf, hactive, hxid] using hhandle
        have hnodup : (files.map Prod.fst).Nodup := by
          rw [← h.fileIds_eq]
          exact h.ascending.imp Nat.ne_of_lt
        rw [hoff hnodup x hx hxid]
        refine congrArg List.length (content_eq_of_file? ?_).symm
        rw [hpath, hfs, ← hpath, hcontent]

/-- A database in a directory with some data files, about to be loaded. -/
def aboutToLoad (dirPath : Path) (files : List (ℕ × Bytes)) : Proc BTreeIndex where
  db :=
    { options := { dirPath := dirPath, dataFileSize := 1024, mmapAtStartup := false }
      fileIds := files.map Prod.fst
      activeFile := files.getLast?.map fun x =>
        ⟨getDataFileName dirPath x.1, x.1, 0, .standardFio⟩
      olderFiles := files.dropLast.foldr
        (fun x m => m.insert x.1 ⟨getDataFileName dirPath x.1, x.1, 0, .standardFio⟩) ∅
      index := Indexer.create 0 }
  world :=
    { fs := (∅ : FS).insert dirPath
        (files.foldr (fun x dir => dir.insert (.data x.1) x.2) (∅ : Dir)) }

/-- A batch whose records are in one file and whose end is in another one. -/
def batchAcrossFiles : List (ℕ × List LogRecord) :=
  [(0, [⟨logRecordKeyWithSeq [107] 1, [118], .normal⟩]),
    (3, [⟨logRecordKeyWithSeq [] 1, [], .txnFinished⟩])]

/-- The batch takes effect: its end is found in the second file. -/
theorem loadIndexFromDataFiles_replays_batchAcrossFiles :
    ∃ q, (loadIndexFromDataFiles : DBM BTreeIndex Unit).run (aboutToLoad ['d']
        (batchAcrossFiles.map fun x => (x.1, encodeAll x.2))) = .ok () q ∧
      Indexer.get q.db.index [107] = some ⟨0, 0, 17⟩ ∧ q.db.seqNo = 1 := by
  have h : DataFiles (aboutToLoad ['d'] (batchAcrossFiles.map fun x => (x.1, encodeAll x.2)))
      batchAcrossFiles := by
    refine ⟨rfl, by decide, ?_, fun file hfile => by cases hfile; decide⟩
    simp only [batchAcrossFiles, List.forall_mem_cons]
    exact ⟨⟨_, rfl, rfl, rfl⟩, ⟨_, rfl, rfl, rfl⟩, nofun⟩
  have hrecords : ∀ x ∈ batchAcrossFiles, ∀ r ∈ x.2, r.Logged := by
    simp only [batchAcrossFiles, List.forall_mem_cons]
    exact ⟨⟨⟨by decide, by decide, by decide, by decide⟩, nofun⟩,
      ⟨⟨by decide, by decide, by decide, by decide⟩, nofun⟩, nofun⟩
  obtain ⟨-, q, hrun, hindex, -, hseq⟩ :=
    loadIndexFromDataFiles_replays h (fun k => Indexer.get_create 0 k) hrecords
  have hvalue : (replay (logOf batchAcrossFiles)).value [107] = some ⟨0, 0, 17⟩ := by
    decide
  exact ⟨q, hrun, (hindex _ _).2 (replay_value_iff.1 hvalue), hseq (by decide)⟩

end DB

end Bitcask
