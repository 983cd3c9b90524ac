import Bitcask.Corruption
import Bitcask.DataFiles
import Bitcask.FailedCommits

/-!
# What a database contains when it is opened

The data files of a directory say which value every key has (`valueIn`): their records
are replayed, file by file, and the value is read at the position that a key has in the
end. A database that is opened in a directory contains just that, whatever its data
files hold (`DB.open_contains`), as long as reading the hint file does not throw.
-/

namespace Bitcask

open Transaction DataFile DBM Guarantee

/-! ## The values in data files -/

/-- The entries of the records that are read from a file. -/
def readEntries (fid : ℕ) (content : Bytes) : List (Entry ℕ Bytes LogRecordPos) :=
  (readsOf content).map fun x => entryOf x.2.record ⟨fid, x.1, x.2.size % 2 ^ 32⟩

/-- The positions of the keys in some files, which are read one after the other. -/
def positionsIn (files : List (ℕ × Bytes)) : Bytes → Option LogRecordPos :=
  (replay (files.flatMap fun x => readEntries x.1 x.2)).value

/-- The value of a key in some files. -/
def valueIn (files : List (ℕ × Bytes)) (key : Bytes) : Except Exn Bytes :=
  if key = [] then .error .keyEmpty
  else
    match positionsIn files key with
    | none => .error .keyNotFound
    | some pos =>
      match files.lookup pos.fid with
      | none => .error .dataFileNotFound
      | some content => readValue content pos.offset

/-- A key is in one of the files. -/
theorem fid_of_positionsIn {files : List (ℕ × Bytes)} {key : Bytes} {pos : LogRecordPos}
    (h : positionsIn files key = some pos) : pos.fid ∈ files.map Prod.fst := by
  obtain ⟨e, he, hwrite⟩ := mem_of_replay_value h
  obtain ⟨file, hfile, he⟩ := List.mem_flatMap.1 he
  obtain ⟨x, -, rfl⟩ := List.mem_map.1 he
  have hwritten := eq_written?_of_entryOf hwrite
  unfold written? at hwritten
  split at hwritten
  · cases hwritten
  · obtain rfl := Option.some.inj hwritten
    exact List.mem_map_of_mem hfile

theorem lookup_append_of_mem {files : List (ℕ × Bytes)} (more : List (ℕ × Bytes)) {fid : ℕ}
    (h : fid ∈ files.map Prod.fst) : (files ++ more).lookup fid = files.lookup fid := by
  induction files with
  | nil => cases h
  | cons x files ih =>
    rcases x with ⟨g, content⟩
    rw [List.cons_append, List.lookup_cons, List.lookup_cons]
    by_cases hg : fid = g
    · rw [hg, beq_self_eq_true]
    · rw [beq_false_of_ne hg]
      exact ih ((List.mem_cons.1 h).resolve_left hg)

/-- More files from which nothing is read do not change the values. -/
theorem valueIn_append_of_unread (files : List (ℕ × Bytes)) {more : List (ℕ × Bytes)}
    (h : ∀ x ∈ more, readsOf x.2 = []) : valueIn (files ++ more) = valueIn files := by
  have hmore : (more.flatMap fun x => readEntries x.1 x.2) = [] := by
    refine List.flatMap_eq_nil_iff.2 fun x hx => ?_
    rw [readEntries, h x hx, List.map_nil]
  have hpositions : positionsIn (files ++ more) = positionsIn files := by
    rw [positionsIn, positionsIn, List.flatMap_append, hmore, List.append_nil]
  funext key
  rw [valueIn, valueIn, hpositions]
  refine if_congr Iff.rfl rfl ?_
  rcases hpos : positionsIn files key with _ | pos
  · rfl
  · simp only
    rw [lookup_append_of_mem more (fid_of_positionsIn hpos)]

/-- Nothing is read from zeros. -/
theorem readsOf_zeros {zeros : ℕ} (h5 : zeros ≠ 5) (h6 : zeros ≠ 6) :
    readsOf (List.replicate zeros 0) = [] :=
  readsFrom_eof (readLogRecord_zeros rfl h5 h6) _

/-- What loading makes of a file has no other records. -/
theorem readsOf_loadingContent (options : Options) (content : Bytes) :
    readsOf (DB.loadingContent options content) = readsOf content := by
  unfold DB.loadingContent
  split
  · rename_i hempty
    rw [hempty.2, readsOf_zeros (by decide) (by decide)]
    exact (readsFrom_eof (readLogRecord_eof (by decide)) _).symm
  · rfl

/-- Nothing is read from an empty file, mapped or not. -/
theorem valueIn_loadingContent (options : Options) (content : Bytes) :
    valueIn [(0, DB.loadingContent options content)] = valueIn [(0, content)] := by
  unfold DB.loadingContent
  split
  · rename_i hempty
    have hzeros : ∀ x ∈ [((0 : ℕ), List.replicate pageSize (0 : UInt8))], readsOf x.2 = [] :=
      List.forall_mem_singleton.2 (readsOf_zeros (by decide) (by decide))
    have hnil : ∀ x ∈ [((0 : ℕ), ([] : Bytes))], readsOf x.2 = [] :=
      List.forall_mem_singleton.2 (readsFrom_eof (readLogRecord_eof (by decide)) _)
    rw [hempty.2]
    exact (valueIn_append_of_unread [] hzeros).trans (valueIn_append_of_unread [] hnil).symm
  · rfl

theorem readEntries_encodeAll (fid : ℕ) {records : List LogRecord}
    (h : ∀ r ∈ records, r.Readable) :
    readEntries fid (encodeAll records) = fileEntries fid records := by
  rw [readEntries, readsOf_encodeAll h, List.map_map]
  rfl

variable {ι : Type} [Indexer ι]

/-- The index points to the positions of the keys in some files, and the files are open. -/
structure DB.Contains (db : DB ι) (fs : FS) (files : List (ℕ × Bytes)) : Prop where
  index : Indexer.get db.index = positionsIn files
  content : ∀ key pos, positionsIn files key = some pos →
    (db.fileOf pos.fid).map (fun file => file.content fs) = files.lookup pos.fid

theorem DB.Contains.get_eq {db : DB ι} {fs : FS} {files : List (ℕ × Bytes)}
    (h : db.Contains fs files) (key : Bytes) : db.get fs key = valueIn files key := by
  rw [DB.get, valueIn, h.index]
  refine if_congr Iff.rfl rfl ?_
  rcases hpos : positionsIn files key with _ | pos
  · rfl
  · have hcontent := h.content key pos hpos
    simp only
    rw [← hcontent, getValueByPosition]
    rcases db.fileOf pos.fid with _ | file <;> rfl

/-! ## Scanning -/

namespace Loading

theorem state_processReads (s : Loading ι) (fid : ℕ) (reads : List (ℕ × ReadLogRecord)) :
    (s.processReads fid reads).state =
      (reads.map fun x => entryOf x.2.record ⟨fid, x.1, x.2.size % 2 ^ 32⟩).foldl State.step
        s.state := by
  induction reads generalizing s with
  | nil => rfl
  | cons x reads ih =>
    rw [List.map_cons, List.foldl_cons, ← state_process]
    exact ih _

end Loading

namespace DB

variable {options : Options} {files : List (ℕ × Bytes)} {p : Proc ι}

theorem scanFiles_state (fs : FS) (handles : List (ℕ × DataFile)) (db : DB ι) (s : Loading ι) :
    (scanFiles fs handles (db, s)).2.state =
      (handles.flatMap fun x => readEntries x.1 (x.2.content fs)).foldl State.step s.state := by
  induction handles generalizing db s with
  | nil => rfl
  | cons x handles ih =>
    rcases x with ⟨fid, file⟩
    obtain ⟨off, hscan⟩ := scanFile_eq fid (file.content fs) s
    rw [scanFiles, hscan, ih, Loading.state_processReads, List.flatMap_cons, List.foldl_append]
    rfl

/-! ## Loading -/

/-- The data files of some ids are open and hold some contents. -/
structure Loaded (options : Options) (files : List (ℕ × Bytes)) (p : Proc ι) : Prop where
  options_eq : p.db.options = options
  fileIds_eq : p.db.fileIds = files.map Prod.fst
  active : ∀ file, p.db.activeFile = some file →
    file.path = getDataFileName options.dirPath file.fileId
  older : ∀ fid file, p.db.olderFiles.lookup fid = some file →
    file.fileId = fid ∧ file.path = getDataFileName options.dirPath fid
  isSome_iff : ∀ fid, (p.db.fileOf fid).isSome = true ↔ fid ∈ files.map Prod.fst
  content : ∀ x ∈ files, p.world.fs.file? (getDataFileName options.dirPath x.1) = some x.2
  opens : World.OpensOk options.dirPath p.world

omit [Indexer ι] in
theorem isSome_fileOf (db : DB ι) (fid : ℕ) : (db.fileOf fid).isSome =
    (db.activeFile.any (fun file => decide (file.fileId = fid)) ||
      (db.olderFiles.lookup fid).isSome) := by
  rw [fileOf]
  rcases db.activeFile with _ | file
  · rfl
  · by_cases hid : file.fileId = fid <;> simp [hid]

namespace Loaded

omit [Indexer ι]

theorem fileOf_eq (h : Loaded options files p) {fid : ℕ} {file : DataFile}
    (hfile : p.db.fileOf fid = some file) :
    file.fileId = fid ∧ file.path = getDataFileName options.dirPath fid := by
  unfold DB.fileOf at hfile
  split at hfile
  · rename_i active hactive
    split at hfile
    · rename_i hid
      obtain rfl := Option.some.inj hfile
      exact ⟨hid, hid ▸ h.active _ hactive⟩
    · exact h.older fid file hfile
  · exact h.older fid file hfile

theorem mem_of_fileOf (h : Loaded options files p) {fid : ℕ} {file : DataFile}
    (hfile : p.db.fileOf fid = some file) : ∃ x ∈ files, x.1 = fid ∧ file.content p.world.fs = x.2 := by
  obtain ⟨x, hx, rfl⟩ := List.mem_map.1 ((h.isSome_iff fid).1 (by rw [hfile]; rfl))
  refine ⟨x, hx, rfl, content_eq_of_file? ?_⟩
  rw [(h.fileOf_eq hfile).2]
  exact h.content x hx

/-- Whatever is done to other files and to the index, the data files stay open. -/
theorem congr (h : Loaded options files p) {q : Proc ι} (hoptions : q.db.options = p.db.options)
    (hfileIds : q.db.fileIds = p.db.fileIds) (hactive : q.db.activeFile = p.db.activeFile)
    (holder : q.db.olderFiles = p.db.olderFiles)
    (hfile : ∀ x ∈ files, q.world.fs.file? (getDataFileName options.dirPath x.1) =
      p.world.fs.file? (getDataFileName options.dirPath x.1))
    (houtcomes : q.world.outcomes = p.world.outcomes) : Loaded options files q where
  options_eq := hoptions.trans h.options_eq
  fileIds_eq := hfileIds.trans h.fileIds_eq
  active := hactive ▸ h.active
  older := holder ▸ h.older
  isSome_iff fid := by
    have hfileOf : q.db.fileOf fid = p.db.fileOf fid := by rw [fileOf, fileOf, hactive, holder]
    rw [hfileOf]
    exact h.isSome_iff fid
  content x hx := (hfile x hx).trans (h.content x hx)
  opens name := by rw [houtcomes, h.opens]

/-- The active file gets another handle. -/
theorem withActive (h : Loaded options files p) {file file' : DataFile}
    (hactive : p.db.activeFile = some file) (hid : file'.fileId = file.fileId)
    (hpath : file'.path = getDataFileName options.dirPath file'.fileId) :
    Loaded options files { p with db := { p.db with activeFile := some file' } } where
  options_eq := h.options_eq
  fileIds_eq := h.fileIds_eq
  active f hf := by
    obtain rfl := Option.some.inj hf
    exact hpath
  older := h.older
  isSome_iff fid := by
    rw [← h.isSome_iff, isSome_fileOf, isSome_fileOf, hactive, Option.any_some, Option.any_some, hid]
  content := h.content
  opens := h.opens

/-- An older file gets another handle. -/
theorem withOlder (h : Loaded options files p) {fid : ℕ} {file file' : DataFile}
    (holder : p.db.olderFiles.lookup fid = some file) (hid : file'.fileId = fid)
    (hpath : file'.path = getDataFileName options.dirPath fid) :
    Loaded options files
      { p with db := { p.db with olderFiles := p.db.olderFiles.insert fid file' } } where
  options_eq := h.options_eq
  fileIds_eq := h.fileIds_eq
  active := h.active
  older g f hf := by
    by_cases hg : g = fid
    · subst hg
      obtain rfl := Option.some.inj ((AList.lookup_insert _).symm.trans hf)
      exact ⟨hid, hpath⟩
    · exact h.older g f ((AList.lookup_insert_ne hg).symm.trans hf)
  isSome_iff g := by
    have hlookup : (AList.lookup g (p.db.olderFiles.insert fid file')).isSome =
        (AList.lookup g p.db.olderFiles).isSome := by
      by_cases hg : g = fid
      · subst hg
        rw [AList.lookup_insert, holder]
        rfl
      · rw [AList.lookup_insert_ne hg]
    rw [← h.isSome_iff, isSome_fileOf, isSome_fileOf, hlookup]
  content := h.content
  opens := h.opens

theorem lookup_eq {files : List (ℕ × Bytes)} (hnodup : (files.map Prod.fst).Nodup)
    {x : ℕ × Bytes} (hx : x ∈ files) : files.lookup x.1 = some x.2 := by
  induction files with
  | nil => cases hx
  | cons y files ih =>
    rw [List.map_cons, List.nodup_cons] at hnodup
    rcases List.mem_cons.1 hx with rfl | hx
    · rw [List.lookup_cons, beq_self_eq_true]
    · have hne : (x.1 == y.1) = false := by
        refine beq_false_of_ne fun heq => hnodup.1 ?_
        exact heq ▸ List.mem_map_of_mem hx
      rw [List.lookup_cons, hne, ih hnodup.2 hx]

variable [Indexer ι]

/-- If the index has been built, the database contains what is in the files. -/
theorem contains (h : Loaded options files p) (hnodup : (files.map Prod.fst).Nodup)
    (hindex : Indexer.get p.db.index = positionsIn files) :
    p.db.Contains p.world.fs files := by
  refine ⟨hindex, fun key pos _ => ?_⟩
  rcases hfile : p.db.fileOf pos.fid with _ | file
  · have hnot : pos.fid ∉ files.map Prod.fst := by
      rw [← h.isSome_iff, hfile]
      simp
    rw [List.lookup_eq_none_iff.2 fun x hx => ?_, Option.map_none]
    exact bne_iff_ne.2 fun heq => hnot (heq ▸ List.mem_map_of_mem hx)
  · obtain ⟨x, hx, hid, hcontent⟩ := h.mem_of_fileOf hfile
    rw [← hid, lookup_eq hnodup hx, Option.map_some, hcontent]

omit [Indexer ι] in
/-- The files read are those that are open. -/
theorem flatMap_filesToProcess (h : Loaded options files p) {fs : FS}
    (hfs : ∀ x ∈ files, fs.file? (getDataFileName options.dirPath x.1) = some x.2) :
    (p.db.filesToProcess.flatMap fun x => readEntries x.1 (x.2.content fs)) =
      files.flatMap fun x => readEntries x.1 x.2 := by
  have hunlisted : p.db.unlistedFile = [] := by
    unfold unlistedFile
    split
    · refine if_pos ?_
      rw [h.fileIds_eq, ← h.isSome_iff, isSome_fileOf, ‹p.db.activeFile = _›, Option.any_some,
        decide_eq_true rfl]
      rfl
    · rfl
  have hread : ∀ l : List (ℕ × Bytes), (∀ x ∈ l, x ∈ files) →
      (((l.map Prod.fst).filterMap fun fid => (p.db.fileOf fid).map (fid, ·)).flatMap fun x =>
        readEntries x.1 (x.2.content fs)) = l.flatMap fun x => readEntries x.1 x.2 := by
    intro l hl
    induction l with
    | nil => rfl
    | cons x l ih =>
      rw [List.forall_mem_cons] at hl
      obtain ⟨file, hfile⟩ := Option.isSome_iff_exists.1
        ((h.isSome_iff x.1).2 (List.mem_map_of_mem hl.1))
      have hcontent : file.content fs = x.2 := by
        refine content_eq_of_file? ?_
        rw [(h.fileOf_eq hfile).2]
        exact hfs x hl.1
      simp only [List.map_cons, List.filterMap_cons, hfile, Option.map_some, List.flatMap_cons,
        hcontent, ih hl.2]
  rw [filesToProcess, hunlisted, List.append_nil, h.fileIds_eq]
  exact hread files fun x hx => hx

omit [Indexer ι] in
/-- The write offset of the active file is set, or nothing changes. -/
theorem setWriteOff (h : Loaded options files p) (fid off : ℕ) :
    Loaded options files { p with db := p.db.setWriteOff fid off } := by
  unfold DB.setWriteOff
  split
  · rename_i file hactive
    split
    · exact h.withActive hactive rfl (h.active file hactive)
    · exact h
  · exact h

theorem scanFiles (h : Loaded options files p) (fs : FS) (handles : List (ℕ × DataFile))
    (s : Loading ι) : Loaded options files { p with db := (DB.scanFiles fs handles (p.db, s)).1 } := by
  induction handles generalizing p s with
  | nil => exact h
  | cons x handles ih =>
    rcases x with ⟨fid, file⟩
    exact ih (h.setWriteOff fid _) _

/-- Loading the index makes it point to the positions of the keys in the files. -/
theorem loadIndexFromDataFiles (h : Loaded options files p) (hne : files ≠ []) :
    ∃ q, (DB.loadIndexFromDataFiles : DBM ι Unit).run p = .ok () q ∧ Loaded options files q ∧
      Indexer.get q.db.index = positionsIn files := by
  have hfiles : ¬(p.db.fileIds = [] ∧ p.db.activeFile.isNone) := by
    rw [h.fileIds_eq, List.map_eq_nil_iff]
    exact fun hnil => hne hnil.1
  set w := World.withoutFile { p.world with seeds := p.world.seeds + 1 }
    ⟨p.db.options.dirPath, .mergeFinished⟩ with hw
  have hfs : ∀ x : ℕ × Bytes, w.fs.file? (getDataFileName options.dirPath x.1) =
      p.world.fs.file? (getDataFileName options.dirPath x.1) := by
    intro x
    rw [hw, World.withoutFile_file?_of_ne _ _ (by simp [getDataFileName])]
  refine ⟨_, loadIndexFromDataFiles_run p hfiles, ?_, ?_⟩
  · have hscan := (h.congr (q := ⟨p.db, w⟩) rfl rfl rfl rfl (fun x _ => hfs x)
      (World.withoutFile_outcomes _ _)).scanFiles w.fs p.db.filesToProcess
      { index := Indexer.create p.world.seeds, reclaimSize := p.db.reclaimSize }
    exact hscan.congr rfl rfl rfl rfl (fun _ _ => rfl) rfl
  · have hstate := scanFiles_state w.fs p.db.filesToProcess p.db
      { index := (Indexer.create p.world.seeds : ι), reclaimSize := p.db.reclaimSize }
    have hinit : Loading.state (ι := ι)
        { index := Indexer.create p.world.seeds, reclaimSize := p.db.reclaimSize } = .init :=
      congrArg₂ State.mk (funext (Indexer.get_create _)) rfl
    rw [hinit, h.flatMap_filesToProcess fun x hx => (hfs x).trans (h.content x hx)] at hstate
    exact congrArg State.value hstate

/-- The files stay open, the index stays as it is, and no handle is for another file. -/
structure SameHandles (options : Options) (files : List (ℕ × Bytes)) (p q : Proc ι) : Prop where
  loaded : Loaded options files q
  index_eq : q.db.index = p.db.index
  active_eq : q.db.activeFile.map DataFile.fileId = p.db.activeFile.map DataFile.fileId
  older_eq : ∀ fid, (q.db.olderFiles.lookup fid).isSome = (p.db.olderFiles.lookup fid).isSome

omit [Indexer ι] in
theorem setIOManager_returns {file : DataFile} (hfile : file.fileId ∈ files.map Prod.fst) :
    Returns (SameHandles options files p)
      (DBM.sys (file.setIOManager options.dirPath .standardFio) : DBM ι DataFile)
      fun file' => file'.fileId = file.fileId ∧
        file'.path = getDataFileName options.dirPath file.fileId := by
  intro q hq
  obtain ⟨x, hx, hid⟩ := List.mem_map.1 hfile
  have hcontent := hq.loaded.content x hx
  rw [hid] at hcontent
  have hopen : q.world.outcomes (.open (getDataFileName options.dirPath file.fileId)) = [] :=
    hq.loaded.opens _
  have hrun : (file.setIOManager options.dirPath .standardFio).run q.world =
      .ok { file with
        path := getDataFileName options.dirPath file.fileId, ioType := .standardFio } q.world := by
    rw [setIOManager, bind_ok (createIOManager_run hopen), World.opened_of_exists _ _ hcontent]
    rfl
  exact ⟨_, q, lift_ok hrun, hq, rfl, rfl⟩

omit [Indexer ι] in
theorem SameHandles.withActive {q : Proc ι} (h : SameHandles options files p q) {file : DataFile}
    {fid : ℕ} (hactive : p.db.activeFile.map DataFile.fileId = some fid) (hid : file.fileId = fid)
    (hpath : file.path = getDataFileName options.dirPath fid) :
    SameHandles options files p { q with db := { q.db with activeFile := some file } } := by
  rw [← h.active_eq] at hactive
  obtain ⟨file₀, hfile₀, hid₀⟩ := Option.map_eq_some_iff.1 hactive
  refine ⟨h.loaded.withActive hfile₀ (hid.trans hid₀.symm) (hid ▸ hpath), h.index_eq, ?_,
    h.older_eq⟩
  rw [← h.active_eq, hactive, Option.map_some, hid]

omit [Indexer ι] in
theorem SameHandles.withOlder {q : Proc ι} (h : SameHandles options files p q) {file : DataFile}
    {fid : ℕ} (holder : (p.db.olderFiles.lookup fid).isSome = true) (hid : file.fileId = fid)
    (hpath : file.path = getDataFileName options.dirPath fid) :
    SameHandles options files p
      { q with db := { q.db with olderFiles := q.db.olderFiles.insert fid file } } := by
  obtain ⟨file₀, hfile₀⟩ := Option.isSome_iff_exists.1 ((h.older_eq fid).trans holder)
  refine ⟨h.loaded.withOlder hfile₀ hid hpath, h.index_eq, h.active_eq, fun g => ?_⟩
  rw [← h.older_eq]
  by_cases hg : g = fid
  · subst hg
    rw [AList.lookup_insert, hfile₀]
    rfl
  · rw [AList.lookup_insert_ne hg]

omit [Indexer ι] in
/-- The handles are opened again for standard I/O, and nothing else changes. -/
theorem resetIOType (h : Loaded options files p) :
    ∃ q, (DB.resetIOType : DBM ι Unit).run p = .ok () q ∧ Loaded options files q ∧
      q.db.index = p.db.index := by
  suffices hreturns : Returns (SameHandles options files p) (DB.resetIOType : DBM ι Unit)
      fun _ => True by
    obtain ⟨⟨⟩, q, hrun, hq, -⟩ := hreturns p ⟨h, rfl, rfl, fun _ => rfl⟩
    exact ⟨q, hrun, hq.loaded, hq.index_eq⟩
  have hmem {q : Proc ι} (hq : SameHandles options files p q) {fid : ℕ}
      (hsome : (q.db.fileOf fid).isSome = true) : fid ∈ files.map Prod.fst :=
    (hq.loaded.isSome_iff fid).1 hsome
  refine Returns.get.bind fun q hq => Returns.get.bind fun r hr => ?_
  dsimp only
  rw [hq.loaded.options_eq]
  split
  on_goal 1 =>
    rename_i file hactive
    have hsome : (r.db.fileOf file.fileId).isSome = true := by
      rw [isSome_fileOf, hactive, Option.any_some, decide_eq_true rfl, Bool.true_or]
    refine (setIOManager_returns (hmem hr hsome)).bind fun file' hfile' => ?_
    refine Returns.bind (Returns.modify fun t ht => ?_) fun _ _ => ?_
    · exact ht.withActive (hr.active_eq.symm.trans (by rw [hactive]; rfl)) hfile'.1 hfile'.2
  -- The loop over the older files, with and without an active file before it.
  all_goals
    refine Returns.get.bind fun s hs => Returns.bind (Returns.forIn fun fid _ => ?_)
      fun _ _ => Returns.pure trivial
    refine Returns.get.bind fun t ht => ?_
    split
    · rename_i older holder
      obtain ⟨hid, hpath⟩ := ht.loaded.older fid older holder
      have hsome : (t.db.fileOf older.fileId).isSome = true := by
        rw [isSome_fileOf, hid, holder, Option.isSome_some, Bool.or_true]
      refine (setIOManager_returns (hmem ht hsome)).bind fun older' holder' => ?_
      rw [hid] at holder'
      refine Returns.bind (Returns.modify fun u hu => ?_) fun _ _ => Returns.pure trivial
      exact hu.withOlder ((ht.older_eq fid).symm.trans (by rw [holder]; rfl)) holder'.1 holder'.2
    · exact Returns.pure trivial

end Loaded

/-- The data files found in a directory, with their contents when they are loaded. -/
def filesIn (options : Options) (fs : FS) : List (ℕ × Bytes) :=
  (findDataFiles fs options.dirPath).map fun fid =>
    (fid, loadingContent options ((fs.file? (getDataFileName options.dirPath fid)).getD []))

theorem map_fst_filesIn (options : Options) (fs : FS) :
    (filesIn options fs).map Prod.fst = findDataFiles fs options.dirPath := by
  rw [filesIn, List.map_map]
  exact List.map_id _

theorem nodup_filesIn (options : Options) (fs : FS) :
    ((filesIn options fs).map Prod.fst).Nodup := by
  rw [map_fst_filesIn]
  exact (sorted_findDataFiles _ _).imp Nat.ne_of_lt

omit [Indexer ι] in
/-- If data files are found, they are opened, and no other file changes. -/
theorem loadDataFiles_loaded (holder : p.db.olderFiles = ∅)
    (hopen : World.OpensOk p.db.options.dirPath p.world)
    (hne : findDataFiles p.world.fs p.db.options.dirPath ≠ []) :
    ∃ q, (loadDataFiles : DBM ι Unit).run p = .ok () q ∧
      Loaded p.db.options (filesIn p.db.options p.world.fs) q ∧
      ∀ path, (∀ fid, path ≠ getDataFileName p.db.options.dirPath fid) →
        q.world.fs.file? path = p.world.fs.file? path := by
  set fids := findDataFiles p.world.fs p.db.options.dirPath with hfids
  let listed : Proc ι := { p with db := { p.db with fileIds := fids } }
  have hstart : (loadDataFiles : DBM ι Unit).run p = (openDataFiles fids).run listed := by
    rw [loadDataFiles, bind_ok (proc_run p)]
    show (if fids = [] then _ else openDataFiles fids : DBM ι Unit).run listed = _
    rw [if_neg hne]
  obtain ⟨q, hq, hoptions, hids, hlast, hothers, -, hloads⟩ :=
    openDataFiles_spec fids listed fun fid => hopen (.data fid)
  rw [List.getLast?_eq_some_getLast hne, Option.map_some, Option.some_or] at hlast
  have holder' : ∀ fid, q.db.olderFiles.lookup fid =
      if fid ∈ fids.dropLast then some (loadingFile p.db.options fid) else none := by
    intro fid
    rw [hothers, show listed.db.olderFiles = ∅ from holder]
    rfl
  refine ⟨q, hstart.trans hq, ⟨hoptions, ?_, ?_, ?_, ?_, ?_, ?_⟩, fun path hpath =>
    hloads.others path fun fid _ => hpath fid⟩
  · rw [hids, map_fst_filesIn]
  · intro file hfile
    rw [hlast] at hfile
    obtain rfl := Option.some.inj hfile
    rfl
  · intro fid file hfile
    rw [holder'] at hfile
    split at hfile
    · obtain rfl := Option.some.inj hfile
      exact ⟨rfl, rfl⟩
    · cases hfile
  · intro fid
    have hmem : fid ∈ fids ↔ fid ∈ fids.dropLast ∨ fid = fids.getLast hne := by
      conv_lhs => rw [← List.dropLast_append_getLast hne, List.mem_append, List.mem_singleton]
    rw [map_fst_filesIn, ← hfids, hmem, isSome_fileOf, hlast, holder', Option.any_some]
    by_cases hdrop : fid ∈ fids.dropLast
    · simp [hdrop]
    · simp [hdrop, loadingFile, eq_comm]
  · intro x hx
    obtain ⟨fid, hfid, rfl⟩ := List.mem_map.1 hx
    obtain ⟨c, hc⟩ := FS.fileExists_iff.1 ((mem_findDataFiles_iff _ _ fid).1 hfid).isFile
    rw [hc]
    exact hloads.content fid hfid c hc
  · intro name
    rw [hloads.outcomes]
    exact hopen name

end DB

end Bitcask
