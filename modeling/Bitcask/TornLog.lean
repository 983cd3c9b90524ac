import Bitcask.Recovery

/-!
# Logs cut at any byte

What loading makes of a data file cut after `m` bytes. The records that lie
wholly inside are replayed. What is left of the next one is decided by where it
is cut:

* inside its header: it has no effect, and reading ends four bytes before the
  end of the file, or where the record starts if less than that is left;
* right behind its header: it has no effect, and reading ends where it starts;
* inside its key or value: it is read with the bytes that are there and takes
  effect, and reading ends where the whole record would have ended.
-/

namespace Bitcask

open Framing FuelLoop Transaction DataFile Guarantee

/-! ## Cut records -/

/-- A record as it is read when only some bytes of its key and value are there. -/
def LogRecord.cut (record : LogRecord) (available : ℕ) : LogRecord :=
  { record with
    key := record.key.take available
    value := record.value.take (available - record.key.length) }

theorem decodeVarintLoop_error {result shift pos : ℕ} {buffer : Bytes} {e : Exn}
    (h : decodeVarintLoop result shift pos buffer = .error e) : e ≠ .readDataFileEOF := by
  induction buffer generalizing result shift pos with
  | nil => cases h; exact Exn.noConfusion
  | cons byte buffer ih =>
    rw [decodeVarintLoop] at h
    split at h
    · cases h
    · split at h
      · cases h; exact Exn.noConfusion
      · exact ih h

theorem decodeVarint_error {buffer : Bytes} {e : Exn} (h : decodeVarint buffer = .error e) :
    e ≠ .readDataFileEOF := by
  unfold decodeVarint at h
  split at h
  · cases h; exact Exn.noConfusion
  · exact decodeVarintLoop_error h

/-- A header that does not decode is not taken for the end of the file. -/
theorem decodeLogRecordHeader_error {data : Bytes} {e : Exn}
    (h : decodeLogRecordHeader data = .error e) : e ≠ .readDataFileEOF := by
  unfold decodeLogRecordHeader at h
  split at h
  · cases h; exact Exn.noConfusion
  · cases h1 : decodeVarint (data.drop 5) with
    | error e1 =>
      rw [h1] at h
      cases h
      exact decodeVarint_error h1
    | ok x =>
      cases h2 : decodeVarint (data.drop (5 + x.2)) with
      | error e2 =>
        simp only [h1, h2, bind, Except.bind] at h
        cases h
        exact decodeVarint_error h2
      | ok y => simp [h1, h2, bind, Except.bind, pure, Except.pure] at h

section Read

variable {content : Bytes} {offset n j : ℕ} {record : LogRecord}

/-- Wherever reading starts in a cut header, it fails. -/
theorem readLogRecord_cut_header (h : content.drop offset = (record.header.take n).drop j)
    (hn : n < record.headerSize) (h5 : offset + 5 ≤ content.length) :
    ∃ e, readLogRecord content offset = .error e ∧ e ≠ .readDataFileEOF := by
  have hmin : ¬min maxLogRecordHeaderSize (content.length - offset) < 5 := by
    unfold maxLogRecordHeaderSize
    omega
  have hbuf : readNBytes content (min maxLogRecordHeaderSize (content.length - offset)) offset =
      .ok ((content.drop offset).take (min maxLogRecordHeaderSize (content.length - offset))) :=
    readNBytes_eq (.inr (by omega))
  cases hdec : decodeLogRecordHeader
      ((content.drop offset).take (min maxLogRecordHeaderSize (content.length - offset))) with
  | error e =>
    refine ⟨e, ?_, decodeLogRecordHeader_error hdec⟩
    unfold readLogRecord readLogRecordHeader
    rw [if_neg (by omega)]
    simp only [if_neg hmin, hbuf, hdec, bind, Except.bind]
  | ok x =>
    -- Two varints would have ended in what is left of the header.
    have htwo := countP_of_decodeLogRecordHeader hdec
    have hone := countP_take_header hn
    rw [h] at htwo
    have hsub : ((((record.header.take n).drop j).take
        (min maxLogRecordHeaderSize (content.length - offset))).drop 5).Sublist
        ((record.header.take n).drop 5) := by
      refine ((List.take_sublist _ _).drop 5).trans ?_
      rw [List.drop_drop, Nat.add_comm, ← List.drop_drop]
      exact List.drop_sublist _ _
    have := hsub.countP_le (p := endsVarint)
    omega

/-- A record cut in its key or value is read with what is there of them. -/
theorem readLogRecord_cut (hr : record.Readable)
    (h : content.drop offset = record.header ++ (record.key ++ record.value).take n)
    (hn : n < record.key.length + record.value.length) :
    readLogRecord content offset =
      if n = 0 then .error .readDataFileEOF
      else .ok ⟨record.cut n, record.encode.length⟩ := by
  have h7 := record.seven_le_headerSize
  have hkv : ((record.key ++ record.value).take n).length = n := by
    rw [List.length_take, List.length_append]
    omega
  have hne : record.header ++ (record.key ++ record.value).take n ≠ [] := fun hnil => by
    have := congrArg List.length hnil
    rw [List.length_append, LogRecord.length_header, List.length_nil] at this
    omega
  have hlen := length_eq_of_drop h hne
  rw [List.length_append, LogRecord.length_header, hkv] at hlen
  by_cases hn0 : n = 0
  · have hread : readNBytes content (record.key.length + record.value.length)
        (offset + record.headerSize) = .error .readDataFileEOF := by
      rw [readNBytes, if_neg (by omega), if_pos (by omega)]
    rw [readLogRecord, readLogRecordHeader_header hr h, if_pos hn0]
    simp only [bind, Except.bind, hread]
  · have hdrop : content.drop (offset + record.headerSize) =
        (record.key ++ record.value).take n := by
      rw [← List.drop_drop, h, List.drop_left' record.length_header]
    have hread : readNBytes content (record.key.length + record.value.length)
        (offset + record.headerSize) = .ok ((record.key ++ record.value).take n) := by
      rw [readNBytes_eq (.inr (by omega)), hdrop, List.take_of_length_le (by rw [hkv]; omega)]
    have hsplit : splitKeyValue
        ⟨record.getCrc, record.type, record.key.length, record.value.length⟩
        ((record.key ++ record.value).take n) = record.cut n := by
      simp only [splitKeyValue, LogRecord.cut, hkv, LogRecord.mk.injEq, and_true]
      constructor
      · rw [List.take_take, List.take_append_of_le_length (by omega)]
        exact List.take_eq_take_iff.2 (by omega)
      · rcases Nat.le_total n record.key.length with hle | hle
        · rw [Nat.min_eq_right hle, Nat.sub_eq_zero_of_le hle, List.take_zero,
            List.drop_of_length_le (by rw [hkv]), List.take_nil]
        · rw [Nat.min_eq_left hle, List.drop_take, List.drop_left, List.take_take,
            Nat.min_eq_right (by omega)]
    -- The checksum is only compared if all of the key and the value is there.
    have hcrc : checkCRC ⟨record.getCrc, record.type, record.key.length, record.value.length⟩
        (record.cut n) = true := by
      rw [checkCRC, if_neg]
      simp only [LogRecord.cut, List.length_take]
      omega
    rw [readLogRecord, readLogRecordHeader_header hr h, if_neg hn0]
    simp only [bind, Except.bind, hread, hsplit, if_pos hcrc, LogRecord.length_encode,
      Nat.add_assoc]

end Read

/-! ## Reading a file that ends in a cut record -/

section Scan

variable {ι : Type} [Indexer ι] {records : List LogRecord} {record : LogRecord} (fid : ℕ)
  (s : Loading ι)

/-- In a cut header, reading goes on byte by byte until less than five are left. -/
theorem loop_scanPass_cut_header {content : Bytes} {offset n : ℕ}
    (h : content.drop offset = record.header.take n) (hn : n < record.headerSize)
    (hlen : content.length = offset + n) {fuel j : ℕ} (hj : j + 4 ≤ n) (hfuel : n < fuel + j + 4) :
    loop (scanPass fid content) fuel (offset + j, s) = some (offset + (n - 4), s) := by
  induction fuel generalizing j with
  | zero => omega
  | succ fuel ih =>
    rcases Nat.eq_or_lt_of_le hj with h4 | h4
    · refine (loop_done ?_ fuel).trans (by rw [← h4, Nat.add_sub_cancel])
      rw [scanPass, readLogRecord_eof (by omega)]
    · have hdrop : content.drop (offset + j) = (record.header.take n).drop j := by
        rw [← List.drop_drop, h]
      obtain ⟨e, he, hne⟩ := readLogRecord_cut_header hdrop hn (by omega)
      have hpass : scanPass fid content (offset + j, s) = .again (offset + (j + 1), s) := by
        rw [scanPass, he]
        cases e <;> first | exact absurd rfl hne | exact if_neg (by omega)
      rw [loop_again hpass, ih (by omega) (by omega)]

/-- What reading a file of records with some bytes of another one builds, and where
    it ends. -/
theorem scanFile_cut (hrecords : ∀ r ∈ records, r.Readable) (hr : record.Readable) {n : ℕ}
    (hn : n < record.encode.length) :
    scanFile fid (encodeAll records ++ record.encode.take n) s =
      if n < 5 ∨ n = record.headerSize then
        ((encodeAll records).length, s.processAll fid (offsets records))
      else if n < record.headerSize then
        ((encodeAll records).length + (n - 4), s.processAll fid (offsets records))
      else
        ((encodeAll records).length + record.encode.length,
          (s.processAll fid (offsets records)).process (record.cut (n - record.headerSize))
            (posOf fid ((encodeAll records).length, record))) := by
  obtain ⟨fuel, hfuel, hloop⟩ := loop_scanPass fid s hrecords (record.encode.take n)
  have htail : (record.encode.take n).length = n := by
    rw [List.length_take]
    omega
  rw [htail] at hfuel
  rw [scanFile, hloop]
  set content := encodeAll records ++ record.encode.take n with hcontent
  have hlen : content.length = (encodeAll records).length + n := by
    rw [hcontent, List.length_append, htail]
  have hdrop : content.drop (encodeAll records).length = record.encode.take n := List.drop_left
  obtain ⟨fuel, rfl⟩ : ∃ k, fuel = k + 1 := ⟨fuel - 1, by omega⟩
  have h7 := record.seven_le_headerSize
  have hsize := record.length_encode
  -- What is left of the record ends in its header, with its header, or behind it.
  rcases Nat.lt_or_ge n record.headerSize with hhead | hhead
  · have hdrop' : content.drop (encodeAll records).length = record.header.take n := by
      rw [hdrop, LogRecord.encode_eq,
        List.take_append_of_le_length (by rw [record.length_header]; omega)]
    rcases Nat.lt_or_ge n 5 with h5 | h5
    · rw [if_pos (.inl h5), loop_done (by rw [scanPass, readLogRecord_eof (by omega)])]
      rfl
    · -- Reading fails at every byte, until less than five are left.
      have := loop_scanPass_cut_header fid (s.processAll fid (offsets records)) hdrop' hhead hlen
        (by omega : 0 + 4 ≤ n) (by omega : n < fuel + 1 + 0 + 4)
      rw [if_neg (by omega), if_pos hhead]
      exact congrArg (Option.getD · (0, s)) this
  · have hdrop' : content.drop (encodeAll records).length =
        record.header ++ (record.key ++ record.value).take (n - record.headerSize) := by
      rw [hdrop, LogRecord.encode_eq, List.take_append, record.length_header,
        List.take_of_length_le (by rw [record.length_header]; omega)]
    have hread := readLogRecord_cut hr hdrop' (by omega)
    rcases Nat.eq_or_lt_of_le hhead with heq | hlt
    · rw [if_pos (.inr heq.symm), loop_done (by rw [scanPass, hread, if_pos (by omega)])]
      rfl
    · -- The record is read as if it were whole, and reading goes on behind the end.
      rw [if_neg (by omega), if_neg (by omega)]
      rw [if_neg (by omega)] at hread
      obtain ⟨fuel, rfl⟩ : ∃ k, fuel = k + 1 := ⟨fuel - 1, by omega⟩
      have heof : readLogRecord content ((encodeAll records).length + record.encode.length) =
          .error .readDataFileEOF := readLogRecord_eof (by omega)
      rw [loop_again (by rw [scanPass, hread]), loop_done (by simp only [scanPass, heof]; rfl)]
      rfl

end Scan

/-! ## Files cut at any byte -/

/-- The records lying wholly inside the first `m` bytes of their encodings. -/
def wholeRecords : List LogRecord → ℕ → List LogRecord
  | [], _ => []
  | record :: records, m =>
    if record.encode.length ≤ m then record :: wholeRecords records (m - record.encode.length)
    else []

/-- The record that `m` bytes cut, and the number of its bytes among them. -/
def tornRecord : List LogRecord → ℕ → Option (LogRecord × ℕ)
  | [], _ => none
  | record :: records, m =>
    if record.encode.length ≤ m then tornRecord records (m - record.encode.length)
    else some (record, m)

theorem mem_of_mem_wholeRecords {records : List LogRecord} {m : ℕ} {r : LogRecord}
    (h : r ∈ wholeRecords records m) : r ∈ records := by
  induction records generalizing m with
  | nil => exact h
  | cons a records ih =>
    unfold wholeRecords at h
    split at h
    · rcases List.mem_cons.1 h with rfl | h
      · exact List.mem_cons_self
      · exact List.mem_cons_of_mem _ (ih h)
    · cases h

/-- The first bytes of some records are whole records and a part of the next one. -/
theorem take_encodeAll (records : List LogRecord) (m : ℕ) :
    match tornRecord records m with
    | none => (encodeAll records).take m = encodeAll (wholeRecords records m)
    | some (record, n) => record ∈ records ∧ n < record.encode.length ∧
        (encodeAll records).take m =
          encodeAll (wholeRecords records m) ++ record.encode.take n ∧
        (m = (encodeAll (wholeRecords records m)).length + n) := by
  induction records generalizing m with
  | nil => simp [tornRecord, wholeRecords]
  | cons a records ih =>
    rw [tornRecord, wholeRecords]
    by_cases hle : a.encode.length ≤ m
    · have ih := ih (m - a.encode.length)
      simp only [if_pos hle]
      rw [encodeAll_cons, List.take_append, List.take_of_length_le hle]
      split at ih
      · rw [ih, encodeAll_cons]
      · obtain ⟨h1, h2, h3, h4⟩ := ih
        refine ⟨List.mem_cons_of_mem _ h1, h2, ?_, ?_⟩
        · rw [h3, encodeAll_cons, List.append_assoc]
        · rw [encodeAll_cons, List.length_append]
          omega
    · simp only [if_neg hle]
      refine ⟨List.mem_cons_self, by omega, ?_, by simp⟩
      rw [encodeAll_cons, List.take_append_of_le_length (by omega)]
      rfl

namespace DB

variable {ι : Type} [Indexer ι]

/-- A database about to be loaded from one data file. -/
structure OneFile (p : Proc ι) (fid : ℕ) (content : Bytes) : Prop where
  fileIds_eq : p.db.fileIds = [fid]
  active : ∃ file, p.db.activeFile = some file ∧ file.fileId = fid ∧
    file.path = getDataFileName p.db.options.dirPath fid
  content : p.world.fs.file? (getDataFileName p.db.options.dirPath fid) = some content

/-- Loading one data file reads it. -/
theorem loadIndexFromDataFiles_oneFile {p : Proc ι} {fid : ℕ} {content : Bytes}
    (h : OneFile p fid content) :
    ∃ q, (loadIndexFromDataFiles : DBM ι Unit).run p = .ok () q ∧
      let x := scanFile fid content
        { index := Indexer.create p.world.seeds, reclaimSize := p.db.reclaimSize }
      q.db.index = x.2.index ∧ q.db.seqNo = x.2.seqNo ∧
        (∃ file, q.db.activeFile = some file ∧ file.writeOff = x.1) := by
  obtain ⟨file, hactive, hid, hpath⟩ := h.active
  have hids : ¬(p.db.fileIds = [] ∧ p.db.activeFile.isNone) := by simp [hactive]
  refine ⟨_, loadIndexFromDataFiles_run p hids, ?_⟩
  set w := World.withoutFile { p.world with seeds := p.world.seeds + 1 }
    ⟨p.db.options.dirPath, .mergeFinished⟩
  have hcontent : file.content w.fs = content := by
    refine content_eq_of_file? ?_
    rw [hpath, World.withoutFile_file?_of_ne _ _ (by simp [getDataFileName])]
    exact h.content
  have hfiles : p.db.filesToProcess = [(fid, file)] := by
    simp [filesToProcess, unlistedFile, h.fileIds_eq, hactive, hid, fileOf]
  simp only [scanned, hfiles, scanFiles, hcontent, setWriteOff, hactive, if_pos hid]
  exact ⟨trivial, trivial, _, rfl, rfl⟩

/-- What is left of a file of records cut after `m` bytes: the whole records are
    replayed; the record that is cut has an effect only if a byte of its key or
    value is there, namely that of the record made of the bytes that are. -/
theorem loadIndexFromDataFiles_take {p : Proc ι} {fid : ℕ} {records : List LogRecord} {m : ℕ}
    (h : OneFile p fid ((encodeAll records).take m)) (hrecords : ∀ r ∈ records, r.Readable) :
    ∃ q file, (loadIndexFromDataFiles : DBM ι Unit).run p = .ok () q ∧
      q.db.activeFile = some file ∧
      let whole := wholeRecords records m
      let offset := (encodeAll whole).length
      match tornRecord records m with
      | none =>
        Indexer.get q.db.index = (replay (fileEntries fid whole)).value ∧ file.writeOff = offset
      | some (record, n) =>
        if n < 5 ∨ n = record.headerSize then
          Indexer.get q.db.index = (replay (fileEntries fid whole)).value ∧ file.writeOff = offset
        else if n < record.headerSize then
          Indexer.get q.db.index = (replay (fileEntries fid whole)).value ∧ file.writeOff = m - 4
        else
          Indexer.get q.db.index = (replay (fileEntries fid whole ++
            [entryOf (record.cut (n - record.headerSize)) (posOf fid (offset, record))])).value ∧
          file.writeOff = offset + record.encode.length := by
  obtain ⟨q, hrun, hindex, -, file, hfile, hoff⟩ := loadIndexFromDataFiles_oneFile h
  refine ⟨q, file, hrun, hfile, ?_⟩
  have hwhole : ∀ r ∈ wholeRecords records m, r.Readable :=
    fun r hr => hrecords r (mem_of_mem_wholeRecords hr)
  have hinit : Loading.state (ι := ι)
      { index := Indexer.create p.world.seeds, reclaimSize := p.db.reclaimSize } = .init :=
    congrArg₂ State.mk (funext fun k => Indexer.get_create _ k) rfl
  have hstate (s : Loading ι) (hs : q.db.index = s.index) :
      Indexer.get q.db.index = s.state.value := by rw [hs]; rfl
  have htake := take_encodeAll records m
  split at htake
  · simp only [htake, scanFile_encodeAll fid _ hwhole] at hindex hoff
    refine ⟨?_, hoff⟩
    rw [hstate _ hindex, state_processAll, hinit]
    rfl
  · obtain ⟨hmem, hn, htake, hm⟩ := htake
    rw [htake, scanFile_cut fid _ hwhole (hrecords _ hmem) hn] at hindex hoff
    split
    · rw [if_pos ‹_›] at hindex hoff
      refine ⟨?_, hoff⟩
      rw [hstate _ hindex, state_processAll, hinit]
      rfl
    · rw [if_neg ‹_›] at hindex hoff
      split
      · rw [if_pos ‹_›] at hindex hoff
        refine ⟨?_, hoff.trans (by simp only; omega)⟩
        rw [hstate _ hindex, state_processAll, hinit]
        rfl
      · rw [if_neg ‹_›] at hindex hoff
        refine ⟨?_, hoff⟩
        rw [hstate _ hindex, Loading.state_process, state_processAll, hinit, replay_concat]
        rfl

/-- The record of putting the value `12` at the key `a`. -/
def putRecord : LogRecord := ⟨[97], [49, 50], .normal⟩

theorem oneFile_aboutToLoad (content : Bytes) :
    OneFile (aboutToLoad ['d'] [(0, content)]) 0 content :=
  ⟨rfl, ⟨_, rfl, rfl, rfl⟩, rfl⟩

theorem readable_putRecord : ∀ r ∈ [putRecord], r.Readable := by
  simp only [List.forall_mem_singleton]
  exact LogRecord.readable_of_le (by decide) (by decide) (by decide)

/-- Without its last byte, the record puts its key nevertheless. -/
theorem loadIndexFromDataFiles_take_putRecord :
    ∃ q file, (loadIndexFromDataFiles : DBM BTreeIndex Unit).run
        (aboutToLoad ['d'] [(0, (encodeAll [putRecord]).take 9)]) = .ok () q ∧
      q.db.activeFile = some file ∧ Indexer.get q.db.index [97] = some ⟨0, 0, 10⟩ ∧
      file.writeOff = 10 := by
  obtain ⟨q, file, hrun, hfile, hcut⟩ := loadIndexFromDataFiles_take
    (oneFile_aboutToLoad ((encodeAll [putRecord]).take 9)) readable_putRecord
  have htorn : tornRecord [putRecord] 9 = some (putRecord, 9) := by decide +kernel
  simp only [htorn] at hcut
  rw [if_neg (by decide +kernel), if_neg (by decide +kernel)] at hcut
  refine ⟨q, file, hrun, hfile, ?_, hcut.2.trans (by decide +kernel)⟩
  rw [hcut.1]
  decide +kernel

/-- So it is not true that a record which is not whole has no effect. -/
theorem not_forall_loadIndexFromDataFiles_wholeRecords :
    ¬∀ (p : Proc BTreeIndex) (fid : ℕ) (records : List LogRecord) (m : ℕ),
      OneFile p fid ((encodeAll records).take m) → (∀ r ∈ records, r.Readable) →
      ∃ q file, (loadIndexFromDataFiles : DBM BTreeIndex Unit).run p = .ok () q ∧
        q.db.activeFile = some file ∧
        Indexer.get q.db.index = (replay (fileEntries fid (wholeRecords records m))).value ∧
        file.writeOff = (encodeAll (wholeRecords records m)).length := by
  intro h
  obtain ⟨q, file, hrun, -, hindex, -⟩ := h _ 0 [putRecord] 9 (oneFile_aboutToLoad _)
    readable_putRecord
  have hnone : Indexer.get q.db.index [97] = none := by
    rw [hindex]
    decide +kernel
  have hsome : Indexer.get (finalState ((loadIndexFromDataFiles : DBM BTreeIndex Unit).run
      (aboutToLoad ['d'] [(0, (encodeAll [putRecord]).take 9)]))).db.index [97] =
      some ⟨0, 0, 10⟩ := by decide +kernel
  rw [hrun, finalState_ok, hnone] at hsome
  cases hsome

end DB

end Bitcask
