import Bitcask.Recovery

/-!
# Padding

A memory-mapped data file is filled up with zeros. Behind the records they are
taken for the end of the file, unless just five or six of them are left: these are
too few for a header and too many for none, and are skipped byte by byte until four
remain (`scanFile_padding`). The active file is then written from behind the bytes
skipped.
-/

namespace Bitcask

open Framing FuelLoop Transaction DataFile DBM Guarantee

/-! ## Reading zeros -/

/-- The zeros that are skipped, of those behind the records of a file. -/
def skippedZeros (zeros : ℕ) : ℕ := if zeros = 5 ∨ zeros = 6 then zeros - 4 else 0

/-- Five or six zeros are not a header, nor the end of the file. -/
theorem readLogRecord_fewZeros {content : Bytes} {offset zeros : ℕ}
    (h : content.drop offset = List.replicate zeros 0) (hzeros : zeros = 5 ∨ zeros = 6) :
    ∃ e, readLogRecord content offset = .error e ∧ e ≠ .readDataFileEOF := by
  have hlen := congrArg List.length h
  rw [List.length_drop, List.length_replicate] at hlen
  have hmin : min maxLogRecordHeaderSize (content.length - offset) = zeros := by
    unfold maxLogRecordHeaderSize
    omega
  have hbuf : readNBytes content zeros offset = .ok (List.replicate zeros 0) := by
    rw [readNBytes_eq (.inr (by omega)), h, List.take_replicate, Nat.min_self]
  have hdecode : ∃ e, decodeLogRecordHeader (List.replicate zeros 0) = .error e ∧
      e ≠ .readDataFileEOF := by
    rcases hzeros with rfl | rfl
    · exact ⟨_, rfl, by simp⟩
    · exact ⟨_, rfl, by simp⟩
  obtain ⟨e, hdecode, he⟩ := hdecode
  refine ⟨e, ?_, he⟩
  rw [readLogRecord, readLogRecordHeader, if_neg (by omega)]
  simp only [hmin, if_neg (by omega : ¬zeros < 5), hbuf, hdecode, bind, Except.bind]

section Scan

variable {ι : Type} [Indexer ι] {content : Bytes} {offset zeros n fid : ℕ} (s : Loading ι)

/-- A pass over the first of five or six zeros goes on behind it. -/
theorem scanPass_fewZeros (h : content.drop offset = List.replicate zeros 0)
    (hzeros : zeros = 5 ∨ zeros = 6) :
    scanPass fid content (offset, s) = .again (offset + 1, s) := by
  have hlen := congrArg List.length h
  rw [List.length_drop, List.length_replicate] at hlen
  obtain ⟨e, hread, he⟩ := readLogRecord_fewZeros h hzeros
  rw [scanPass, hread]
  cases e with
  | readDataFileEOF => exact absurd rfl he
  | _ => exact if_neg (by omega)

/-- The loop reading a file ends among the zeros. -/
theorem loop_scanPass_padding (h : content.drop offset = List.replicate zeros 0)
    (hn : zeros < n) :
    loop (scanPass fid content) n (offset, s) = some (offset + skippedZeros zeros, s) := by
  obtain ⟨n, rfl⟩ := Nat.exists_eq_succ_of_ne_zero (Nat.ne_of_gt (Nat.zero_lt_of_lt hn))
  have hdrop : content.drop (offset + 1) = List.replicate (zeros - 1) 0 := by
    rw [← List.drop_drop, h, List.drop_replicate]
  by_cases h5 : zeros = 5
  · subst h5
    obtain ⟨n, rfl⟩ : ∃ m, n = m + 1 := ⟨n - 1, by omega⟩
    rw [loop_again (scanPass_fewZeros s h (.inl rfl))]
    refine loop_done ?_ n
    rw [scanPass, readLogRecord_zeros hdrop (by decide) (by decide)]
    rfl
  by_cases h6 : zeros = 6
  · subst h6
    obtain ⟨n, rfl⟩ : ∃ m, n = m + 2 := ⟨n - 2, by omega⟩
    rw [loop_again (scanPass_fewZeros s h (.inr rfl)),
      loop_again (scanPass_fewZeros s hdrop (.inl rfl))]
    refine loop_done ?_ n
    have hdrop' : content.drop (offset + 1 + 1) = List.replicate 4 0 := by
      rw [← List.drop_drop, hdrop, List.drop_replicate]
    rw [scanPass, readLogRecord_zeros hdrop' (by decide) (by decide)]
    rfl
  · have hskipped : skippedZeros zeros = 0 := if_neg (by simp [h5, h6])
    rw [hskipped]
    refine loop_done ?_ n
    rw [scanPass, readLogRecord_zeros h h5 h6]
    rfl

/-- Reading a file of records with zeros behind takes the records into account. -/
theorem scanFile_padding {records : List LogRecord} (hrecords : ∀ r ∈ records, r.Readable)
    (zeros : ℕ) :
    scanFile fid (encodeAll records ++ List.replicate zeros 0) s =
      ((encodeAll records).length + skippedZeros zeros, s.processAll fid (offsets records)) := by
  obtain ⟨n, hn, hloop⟩ := loop_scanPass fid s hrecords (List.replicate zeros 0)
  rw [List.length_replicate] at hn
  rw [scanFile, hloop, loop_scanPass_padding _ List.drop_left hn]
  rfl

end Scan

namespace DB

variable {ι : Type} [Indexer ι]

/-! ## Loading -/

omit [Indexer ι] in
/-- A database about to be loaded from data files that hold records, the last one,
    which is active, with zeros behind them. -/
structure Padded (p : Proc ι) (older : List (ℕ × List LogRecord)) (fid : ℕ)
    (records : List LogRecord) (zeros : ℕ) : Prop where
  fileIds_eq : p.db.fileIds = older.map Prod.fst ++ [fid]
  ascending : p.db.fileIds.Pairwise (· < ·)
  older : ∀ x ∈ older, ∃ file, p.db.fileOf x.1 = some file ∧
    file.path = getDataFileName p.db.options.dirPath x.1 ∧
    p.world.fs.file? file.path = some (encodeAll x.2)
  active : ∃ file, p.db.activeFile = some file ∧ file.fileId = fid ∧
    file.path = getDataFileName p.db.options.dirPath fid
  content : p.world.fs.file? (getDataFileName p.db.options.dirPath fid) =
    some (encodeAll records ++ List.replicate zeros 0)

/-- The log of files of records. -/
def entriesOf (files : List (ℕ × List LogRecord)) : List (Entry ℕ Bytes LogRecordPos) :=
  files.flatMap fun x => fileEntries x.1 x.2

theorem scanFiles_append (fs : FS) (handles handles' : List (ℕ × DataFile))
    (x : DB ι × Loading ι) :
    scanFiles fs (handles ++ handles') x = scanFiles fs handles' (scanFiles fs handles x) := by
  induction handles generalizing x with
  | nil => rfl
  | cons y handles ih => exact ih _

namespace Padded

variable {p q : Proc ι} {older : List (ℕ × List LogRecord)} {fid : ℕ}
  {records : List LogRecord} {zeros : ℕ} {file : DataFile}

omit [Indexer ι] in
/-- The active file may have been written, and everything but the data files changed. -/
theorem congr (h : Padded p older fid records zeros) {records' : List LogRecord} {zeros' : ℕ}
    (hactive : p.db.activeFile = some file) {writeOff : ℕ}
    (hactive' : q.db.activeFile = some { file with writeOff := writeOff })
    (hids : q.db.fileIds = p.db.fileIds) (holder : q.db.olderFiles = p.db.olderFiles)
    (hoptions : q.db.options = p.db.options)
    (hothers : ∀ fid' ≠ fid, q.world.fs.file? (getDataFileName p.db.options.dirPath fid') =
      p.world.fs.file? (getDataFileName p.db.options.dirPath fid'))
    (hcontent : q.world.fs.file? (getDataFileName p.db.options.dirPath fid) =
      some (encodeAll records' ++ List.replicate zeros' 0)) :
    Padded q older fid records' zeros' := by
  obtain ⟨file', hfile, hid, hpath⟩ := h.active
  obtain rfl : file = file' := Option.some.inj (hactive.symm.trans hfile)
  refine ⟨hids.trans h.fileIds_eq, hids ▸ h.ascending, fun x hx => ?_, ?_, hoptions ▸ hcontent⟩
  · have hne : x.1 ≠ fid := by
      have hsorted := h.ascending
      rw [h.fileIds_eq, List.pairwise_append] at hsorted
      exact Nat.ne_of_lt (hsorted.2.2 _ (List.mem_map_of_mem hx) _ (List.mem_singleton_self _))
    obtain ⟨handle, hhandle, hhandlePath, hx⟩ := h.older x hx
    refine ⟨handle, ?_, hoptions ▸ hhandlePath, ?_⟩
    · rw [fileOf, hactive', holder]
      rw [fileOf, hactive] at hhandle
      simpa [hid, hne.symm] using hhandle
    · rw [hhandlePath, hothers _ hne, ← hhandlePath, hx]
  · exact ⟨_, hactive', hid, hoptions ▸ hpath⟩

/-- Loading applies the records, and skips zeros behind them only if five or six are left. -/
theorem load (h : Padded p older fid records zeros)
    (holder : ∀ x ∈ older, ∀ r ∈ x.2, r.Readable) (hrecords : ∀ r ∈ records, r.Readable) :
    ∃ file q, (loadIndexFromDataFiles : DBM ι Unit).run p = .ok () q ∧
      Indexer.get q.db.index = (replay (entriesOf (older ++ [(fid, records)]))).value ∧
      q.db.activeFile = some file ∧ file.writeOff = (encodeAll records).length + skippedZeros zeros ∧
      Padded q older fid records zeros ∧ q.world.outcomes = p.world.outcomes ∧
      q.db.options = p.db.options := by
  obtain ⟨file, hactive, hid, hpath⟩ := h.active
  have hids : ¬(p.db.fileIds = [] ∧ p.db.activeFile.isNone) := by simp [hactive]
  set w := World.withoutFile { p.world with seeds := p.world.seeds + 1 }
    ⟨p.db.options.dirPath, .mergeFinished⟩ with hw
  have hrun : (loadIndexFromDataFiles : DBM ι Unit).run p =
      .ok () ⟨p.db.scanned w.fs (Indexer.create p.world.seeds), w⟩ :=
    loadIndexFromDataFiles_run p hids
  have hfs (fid : ℕ) : w.fs.file? (getDataFileName p.db.options.dirPath fid) =
      p.world.fs.file? (getDataFileName p.db.options.dirPath fid) :=
    World.withoutFile_file?_of_ne _ _ (by simp [getDataFileName])
  have hlisted : p.db.unlistedFile = [] := by
    simp [unlistedFile, hactive, h.fileIds_eq, hid]
  set handles := (older.map Prod.fst).filterMap fun fid => (p.db.fileOf fid).map (fid, ·)
    with hhandles
  have hfiles : p.db.filesToProcess = handles ++ [(fid, file)] := by
    rw [filesToProcess, hlisted, List.append_nil, h.fileIds_eq, List.filterMap_append]
    simp [fileOf, hactive, hid, hhandles]
  have hscan : List.Forall₂ (Holds w.fs) older handles := forall₂_holds hfs h.older
  have hcontent : file.content w.fs = encodeAll records ++ List.replicate zeros 0 := by
    refine content_eq_of_file? ?_
    rw [hpath, hfs, h.content]
  -- The older files are read first; none of them has the id of the active one.
  let s : Loading ι := { index := Indexer.create p.world.seeds, reclaimSize := p.db.reclaimSize }
  obtain ⟨hstate, -⟩ := scanFiles_snd hscan holder p.db s
  obtain ⟨off, hdb, -, -⟩ := scanFiles_fst hscan holder hactive s
  generalize hx : scanFiles w.fs handles (p.db, s) = x at hstate hdb
  have hscanned : p.db.scanned w.fs (Indexer.create p.world.seeds) =
      { p.db with
        activeFile := some { file with writeOff := (encodeAll records).length + skippedZeros zeros }
        index := (x.2.processAll fid (offsets records)).index
        reclaimSize := (x.2.processAll fid (offsets records)).reclaimSize
        seqNo := (x.2.processAll fid (offsets records)).seqNo } := by
    rw [scanned, hfiles, scanFiles_append, hx]
    simp only [scanFiles, hcontent, scanFile_padding _ hrecords]
    rw [hdb]
    simp [setWriteOff, hid]
  rw [hscanned] at hrun
  refine ⟨_, _, hrun, ?_, rfl, rfl, h.congr hactive rfl rfl rfl rfl (fun fid' _ => hfs fid') ?_,
    World.withoutFile_outcomes _ _, rfl⟩
  · have hinit : s.state = .init :=
      congrArg₂ State.mk (funext fun k => Indexer.get_create _ k) rfl
    have hall := state_processAll fid x.2 (offsets records)
    rw [hstate, hinit] at hall
    refine (congrArg State.value hall).trans ?_
    rw [entriesOf, List.flatMap_append, replay, List.foldl_append]
    simp [fileEntries]
  · exact (hfs fid).trans h.content

omit [Indexer ι] in
/-- A record appended behind the others overwrites zeros. -/
theorem exists_written (hoff : file.writeOff = (encodeAll records).length) (record : LogRecord)
    (zeros : ℕ) : ∃ zeros', file.written record.encode
      (encodeAll records ++ List.replicate zeros 0) =
        encodeAll (records ++ [record]) ++ List.replicate zeros' 0 := by
  have hover (zeros : ℕ) : overwrite (encodeAll records ++ List.replicate zeros 0) file.writeOff
      record.encode = encodeAll (records ++ [record]) ++
        List.replicate (zeros - record.encode.length) 0 := by
    rw [hoff, overwrite_append rfl, List.drop_replicate, encodeAll_append, encodeAll_cons,
      encodeAll_nil, List.append_nil]
  unfold DataFile.written
  split
  · exact ⟨_, hover zeros⟩
  · split
    · rw [List.append_assoc, List.replicate_append_replicate]
      exact ⟨_, hover _⟩
    · exact ⟨_, hover zeros⟩

omit [Indexer ι] in
/-- Appending a record keeps the files in shape. -/
theorem append (h : Padded p older fid records zeros) (hactive : p.db.activeFile = some file)
    (hoff : file.writeOff = (encodeAll records).length) {record : LogRecord}
    (hfit : file.writeOff + record.encode.length ≤ p.db.options.dataFileSize)
    (hwrite : p.world.outcomes (.write file.path) = []) :
    ∃ pos q zeros', (appendLogRecordInternal record : DBM ι _).run p = .ok pos q ∧
      Padded q older fid (records ++ [record]) zeros' := by
  obtain ⟨file', hfile, hid, hpath⟩ := h.active
  obtain rfl : file = file' := Option.some.inj (hactive.symm.trans hfile)
  obtain ⟨zeros', hwritten⟩ := exists_written hoff record zeros
  refine ⟨_, _, zeros', appendLogRecordInternal_ok hactive hfit (World.next_of_nil hwrite), ?_⟩
  refine h.congr hactive rfl rfl rfl rfl (fun fid' hne => World.wrote_file?_of_ne _ _ _ ?_) ?_
  · simpa [hpath, getDataFileName] using hne
  · rw [← hpath, World.wrote_file?_self _ _ _ (hpath ▸ h.content), hwritten]

/-- Loading applies exactly the records of the log, leaves the write offset at their end
    and lets a record appended there be found by the next load, if and only if the
    zeros behind them are neither five nor six. -/
theorem loadIndexFromDataFiles_iff (h : Padded p older fid records zeros)
    (holder : ∀ x ∈ older, ∀ r ∈ x.2, r.Readable) (hrecords : ∀ r ∈ records, r.Readable) :
    (∃ q file, (loadIndexFromDataFiles : DBM ι Unit).run p = .ok () q ∧
      Indexer.get q.db.index = (replay (entriesOf (older ++ [(fid, records)]))).value ∧
      q.db.activeFile = some file ∧ file.writeOff = (encodeAll records).length ∧
      ∀ record : LogRecord, record.Readable →
        file.writeOff + record.encode.length ≤ q.db.options.dataFileSize →
        q.world.outcomes (.write file.path) = [] →
        ∃ pos q' q'', (appendLogRecordInternal record : DBM ι _).run q = .ok pos q' ∧
          (loadIndexFromDataFiles : DBM ι Unit).run q' = .ok () q'' ∧
          Indexer.get q''.db.index =
            (replay (entriesOf (older ++ [(fid, records ++ [record])]))).value) ↔
      zeros ≠ 5 ∧ zeros ≠ 6 := by
  obtain ⟨file, q, hrun, hindex, hactive, hoff, hq, -, -⟩ := h.load holder hrecords
  constructor
  · rintro ⟨q', file', hrun', -, hactive', hoff', -⟩
    rw [hrun] at hrun'
    cases hrun'
    obtain rfl := Option.some.inj (hactive.symm.trans hactive')
    -- Zeros that are skipped move the write offset.
    have hskipped : skippedZeros zeros = 0 := by omega
    rw [skippedZeros] at hskipped
    constructor
    · rintro rfl
      exact absurd hskipped (by decide)
    · rintro rfl
      exact absurd hskipped (by decide)
  · rintro ⟨h5, h6⟩
    have hskipped : skippedZeros zeros = 0 := if_neg (by simp [h5, h6])
    rw [hskipped, Nat.add_zero] at hoff
    refine ⟨q, file, hrun, hindex, hactive, hoff, fun record hr hfit hwrite => ?_⟩
    obtain ⟨pos, q', zeros', happend, hq'⟩ := hq.append hactive hoff hfit hwrite
    obtain ⟨-, q'', hload, hindex', -⟩ := hq'.load holder
      (List.forall_mem_append.2 ⟨hrecords, List.forall_mem_singleton.2 hr⟩)
    exact ⟨pos, q', q'', happend, hload, hindex'⟩

end Padded

/-- The record of putting the value `2` at the key `b`. -/
def putAnother : LogRecord := ⟨[98], [50], .normal⟩

theorem padded_aboutToLoad (zeros : ℕ) :
    Padded (aboutToLoad ['d'] [(0, encodeAll [putAnother] ++ List.replicate zeros 0)]) [] 0
      [putAnother] zeros :=
  ⟨rfl, List.pairwise_singleton _ _, List.forall_mem_nil _, ⟨_, rfl, rfl, rfl⟩, rfl⟩

theorem readable_putAnother : ∀ r ∈ [putAnother], r.Readable :=
  List.forall_mem_singleton.2 (LogRecord.readable_of_le (by decide) (by decide) (.inl rfl))

/-- A page of zeros, less a record, is not in the way. -/
theorem loadIndexFromDataFiles_iff_page :
    ∃ q file, (loadIndexFromDataFiles : DBM BTreeIndex Unit).run (aboutToLoad ['d']
        [(0, encodeAll [putAnother] ++ List.replicate 4087 0)]) = .ok () q ∧
      q.db.activeFile = some file ∧ file.writeOff = (encodeAll [putAnother]).length := by
  obtain ⟨q, file, hrun, -, hactive, hoff, -⟩ := (Padded.loadIndexFromDataFiles_iff
    (padded_aboutToLoad 4087) (List.forall_mem_nil _) readable_putAnother).2
      ⟨by decide, by decide⟩
  exact ⟨q, file, hrun, hactive, hoff⟩

/-- Behind five zeros, writing goes on one byte too late. -/
theorem not_forall_loadIndexFromDataFiles_padding :
    ¬∀ (p : Proc BTreeIndex) (older : List (ℕ × List LogRecord)) (fid : ℕ)
        (records : List LogRecord) (zeros : ℕ), Padded p older fid records zeros →
      (∀ x ∈ older, ∀ r ∈ x.2, r.Readable) → (∀ r ∈ records, r.Readable) →
      ∃ q file, (loadIndexFromDataFiles : DBM BTreeIndex Unit).run p = .ok () q ∧
        q.db.activeFile = some file ∧ file.writeOff = (encodeAll records).length := by
  intro h
  obtain ⟨q, file, hrun, hactive, hoff⟩ := h _ [] 0 [putAnother] 5 (padded_aboutToLoad 5)
    (List.forall_mem_nil _) readable_putAnother
  have hfinal : (finalState ((loadIndexFromDataFiles : DBM BTreeIndex Unit).run (aboutToLoad ['d']
      [(0, encodeAll [putAnother] ++ List.replicate 5 0)]))).db.activeFile.map DataFile.writeOff =
        some 10 := by decide +kernel
  rw [hrun, finalState_ok, hactive] at hfinal
  have hten : (encodeAll [putAnother]).length = 9 := by decide +kernel
  exact absurd (hoff.symm.trans (Option.some.inj hfinal)) (by omega)

end DB

end Bitcask
