import Bitcask.HintFile
import Bitcask.Merge
import Bitcask.StoredKeys

/-!
# What a merge copies

A merge reads the data files as loading does, and copies the records that the index
points to, each under the key that its stored key stands for (`DB.copies`). The copies
take no more room than what has been read (`DB.length_copies_le`). If they fit into one file,
they are behind one another in the first file of the database they are written to, and their
positions are in its hint file (`DB.Copying.mergeScan_run`).
-/

namespace Bitcask

open Framing FuelLoop Transaction DataFile DBM Sys Guarantee

/-! ## Records that are copied -/

namespace DB

theorem copyOf_eq (record : LogRecord) :
    copyOf record = { record with key := (parseLogRecordKey record.key).1 } := by
  rw [copyOf, logRecordKeyWithSeq, if_pos rfl]

theorem length_encode_copyOf_le {content : Bytes} {offset : ℕ} {read : ReadLogRecord}
    (h : readLogRecord content offset = .ok read) :
    (copyOf read.record).encode.length ≤ read.size ∧
      offset + (copyOf read.record).encode.length ≤ content.length := by
  rw [copyOf_eq]
  exact length_encode_le_of_read h (length_parseLogRecordKey_le _)

/-- The records that are copied out of those read from a data file. -/
def copies (valid : List (Bytes × LogRecordPos)) (fid : ℕ) (reads : List (ℕ × ReadLogRecord)) :
    List LogRecord :=
  (reads.filter fun x => isValid valid fid x.1 x.2.record).map fun x => copyOf x.2.record

theorem copies_cons (valid : List (Bytes × LogRecordPos)) (fid : ℕ) (x : ℕ × ReadLogRecord)
    (reads : List (ℕ × ReadLogRecord)) : copies valid fid (x :: reads) =
      if isValid valid fid x.1 x.2.record then copyOf x.2.record :: copies valid fid reads
      else copies valid fid reads := by
  rw [copies, List.filter_cons]
  split <;> rfl

theorem mem_copies_iff {valid : List (Bytes × LogRecordPos)} {fid : ℕ}
    {reads : List (ℕ × ReadLogRecord)} {record : LogRecord} : record ∈ copies valid fid reads ↔
      ∃ x ∈ reads, isValid valid fid x.1 x.2.record = true ∧ copyOf x.2.record = record := by
  simp [copies, and_assoc]

/-- The copies take no more space than what has been read. -/
theorem length_copies_le (valid : List (Bytes × LogRecordPos)) (fid : ℕ) (content : Bytes) :
    (encodeAll (copies valid fid (readsOf content))).length ≤ content.length := by
  suffices hfrom : ∀ fuel offset, (encodeAll (copies valid fid
      (readsFrom content fuel offset))).length ≤ content.length - offset from hfrom _ 0
  intro fuel
  induction fuel with
  | zero => exact fun offset => Nat.zero_le _
  | succ fuel ih =>
    intro offset
    cases hread : readLogRecord content offset with
    | ok read =>
      obtain ⟨hsize, hle⟩ := length_encode_copyOf_le hread
      have hrest := ih (offset + read.size)
      rw [readsFrom_ok hread, copies_cons]
      dsimp only
      split
      · rw [encodeAll_cons, List.length_append]
        omega
      · omega
    | error e =>
      by_cases heof : e = .readDataFileEOF
      · rw [readsFrom_eof (heof ▸ hread)]
        exact Nat.zero_le _
      · rw [readsFrom_error hread heof]
        split
        · exact Nat.zero_le _
        · exact (ih (offset + 1)).trans (by omega)

section Valid

variable {ι : Type} [Indexer ι]

theorem lookup_validRecords (index : ι) (key : Bytes) :
    (validRecords index).lookup key = Indexer.get index key := by
  have hlookup : ∀ keys : List Bytes, List.lookup key (keys.filterMap fun key =>
      (Indexer.get index key).map (key, ·)) =
        if key ∈ keys then Indexer.get index key else none := by
    intro keys
    induction keys with
    | nil => rfl
    | cons k keys ih =>
      by_cases hk : key = k
      · subst hk
        cases hget : Indexer.get index key with
        | none =>
          rw [List.filterMap_cons_none (by rw [hget]; rfl), ih, hget, ite_self, ite_self]
        | some pos =>
          rw [List.filterMap_cons_some (by rw [hget]; rfl), List.lookup_cons, beq_self_eq_true,
            if_pos List.mem_cons_self]
      · have hmem : (key ∈ k :: keys) ↔ key ∈ keys := by simp [hk]
        rw [if_congr hmem rfl rfl, ← ih]
        cases hget : Indexer.get index k with
        | none => rw [List.filterMap_cons_none (by rw [hget]; rfl)]
        | some pos =>
          rw [List.filterMap_cons_some (by rw [hget]; rfl), List.lookup_cons, beq_false_of_ne hk]
  rw [validRecords, hlookup]
  split
  · rfl
  · rename_i hmem
    rw [Indexer.mem_listKeys, Option.not_isSome_iff_eq_none] at hmem
    exact hmem.symm

/-- A record is valid where the index points to it, under the key it is stored for. -/
theorem isValid_iff {index : ι} {fid offset : ℕ} {record : LogRecord} :
    isValid (validRecords index) fid offset record = true ↔
      record.type ≠ .deleted ∧ ∃ pos,
        Indexer.get index (parseLogRecordKey record.key).1 = some pos ∧ pos.fid = fid ∧
          pos.offset = offset := by
  rw [isValid, lookup_validRecords]
  cases Indexer.get index (parseLogRecordKey record.key).1 with
  | none => simp
  | some pos => simp [and_assoc, and_comm]

end Valid

/-! ## Copies can be read -/

/-- A key that is copied has been read. -/
theorem length_key_of_mem_copies {valid : List (Bytes × LogRecordPos)} {fid : ℕ} {content : Bytes}
    {record : LogRecord} (h : record ∈ copies valid fid (readsOf content)) :
    record.key.length ≤ maxRecordSize := by
  obtain ⟨x, hx, -, rfl⟩ := mem_copies_iff.1 h
  obtain ⟨header, headerSize, hread⟩ :=
    readLogRecord_eq_ok_iff.1 (readLogRecord_of_mem_readsFrom hx)
  have hlength := congrArg List.length hread.key_eq
  rw [List.length_take] at hlength
  have hkeySize := hread.keySize_le
  have hparse := length_parseLogRecordKey_le x.2.record.key
  rw [copyOf_eq]
  show (parseLogRecordKey x.2.record.key).1.length ≤ maxRecordSize
  omega

/-- What is read takes no more than a key and a value may. -/
theorem readable_copyOf {content : Bytes} {offset : ℕ} {read : ReadLogRecord}
    (h : readLogRecord content offset = .ok read)
    (hkey : (parseLogRecordKey read.record.key).1 ≠ []) : (copyOf read.record).Readable := by
  obtain ⟨header, headerSize, hread⟩ := readLogRecord_eq_ok_iff.1 h
  have hkeyLength := congrArg List.length hread.key_eq
  have hvalueLength := congrArg List.length hread.value_eq
  rw [List.length_take] at hkeyLength hvalueLength
  have hparse := length_parseLogRecordKey_le read.record.key
  have hkeySize := hread.keySize_le
  have hvalueSize := hread.valueSize_le
  rw [copyOf_eq]
  refine ⟨?_, ?_, fun hnil => hkey hnil.2.1⟩
  · show (parseLogRecordKey read.record.key).1.length ≤ maxRecordSize
    omega
  · show read.record.value.length ≤ maxRecordSize
    omega

/-- The hint record of a record that has been copied: where it is. -/
def hintRecord (x : ℕ × LogRecord) : LogRecord :=
  { key := x.2.key, value := (posOf initialFileId x).encode, type := .normal }

/-- The records of the hint file for some copies. -/
def hintRecords (records : List LogRecord) : List LogRecord := (offsets records).map hintRecord

theorem hintRecords_append (records : List LogRecord) (record : LogRecord) :
    hintRecords (records ++ [record]) =
      hintRecords records ++ [hintRecord ((encodeAll records).length, record)] := by
  rw [hintRecords, offsets, layout_append, List.map_append, Nat.zero_add, ← length_encodeAll]
  rfl

theorem readable_hintRecord {x : ℕ × LogRecord} (h : x.2.key.length ≤ maxRecordSize) :
    (hintRecord x).Readable := by
  have hfid := length_encodeVarint_le initialFileId
  have hoffset := length_encodeVarint_le x.1
  have hsize := length_encodeVarint_le (x.2.encode.length % 2 ^ 32)
  have hmax : 30 ≤ maxRecordSize := by decide
  refine LogRecord.readable_of_le h ?_ (.inl rfl)
  show (encodeVarint initialFileId ++ encodeVarint x.1 ++
    encodeVarint (x.2.encode.length % 2 ^ 32)).length ≤ maxRecordSize
  rw [List.length_append, List.length_append]
  omega

theorem decode_hintRecord (x : ℕ × LogRecord) :
    ∃ pos, LogRecordPos.decode (hintRecord x).value = .ok pos := by
  have hlast := decodeVarint_encodeVarint (x.2.encode.length % 2 ^ 32) []
  rw [List.append_nil] at hlast
  refine ⟨⟨initialFileId % 2 ^ 64 % 2 ^ 32, x.1 % 2 ^ 64,
    x.2.encode.length % 2 ^ 32 % 2 ^ 64 % 2 ^ 32⟩, ?_⟩
  simp only [hintRecord, posOf, LogRecordPos.decode, LogRecordPos.encode, List.append_assoc,
    decodeVarint_encodeVarint, List.drop_left, hlast, bind, Except.bind, pure, Except.pure]

/-- A file of records that hold positions can be read as a hint file. -/
theorem hintReads_encodeAll {hints : List LogRecord} (hreadable : ∀ r ∈ hints, r.Readable)
    (hdecode : ∀ r ∈ hints, ∃ pos, LogRecordPos.decode r.value = .ok pos) :
    HintReads (encodeAll hints) := by
  suffices hmet : ∀ {content : Bytes} {hints : List LogRecord} {offset o : ℕ},
      (∀ r ∈ hints, r.Readable) → (∀ r ∈ hints, ∃ pos, LogRecordPos.decode r.value = .ok pos) →
      content.drop offset = encodeAll hints → HintMet content offset o → HintEntry content o from
    fun o ho => hmet hreadable hdecode List.drop_zero ho
  intro content hints
  induction hints with
  | nil =>
    intro offset o _ _ hdrop hmet
    have heof : readLogRecord content offset = .error .readDataFileEOF := by
      have hlen := congrArg List.length hdrop
      rw [List.length_drop, encodeAll_nil, List.length_nil] at hlen
      exact readLogRecord_eof (by omega)
    cases hmet with
    | here => exact .inl heof
    | read hread => cases heof.symm.trans hread
  | cons r hints ih =>
    intro offset o hreadable hdecode hdrop hmet
    rw [List.forall_mem_cons] at hreadable hdecode
    obtain ⟨pos, hpos⟩ := hdecode.1
    have hread := readLogRecord_encode hreadable.1 hdrop
    cases hmet with
    | here => exact .inr ⟨_, pos, hread, hpos⟩
    | read hread' _ hmet =>
      obtain rfl := Except.ok.inj (hread.symm.trans hread')
      refine ih hreadable.2 hdecode.2 ?_ hmet
      rw [← List.drop_drop, hdrop, encodeAll_cons, List.drop_left]

/-- The hint file for some copies can be read. -/
theorem hintReads_hintRecords {records : List LogRecord}
    (h : ∀ r ∈ records, r.key.length ≤ maxRecordSize) :
    HintReads (encodeAll (hintRecords records)) := by
  refine hintReads_encodeAll (fun r hr => ?_) fun r hr => ?_
  · obtain ⟨x, hx, rfl⟩ := List.mem_map.1 hr
    exact readable_hintRecord (h _ (mem_of_mem_layout hx))
  · obtain ⟨x, hx, rfl⟩ := List.mem_map.1 hr
    exact decode_hintRecord x

/-! ## Copying -/

variable {ι : Type}

/-- A merge that has copied some records into the first file of its database, and their
    positions into the hint file. Nothing else has changed since it began. -/
structure Copying (mergeOptions : Options) (w : World) (s : MergeScan ι)
    (records : List LogRecord) : Prop where
  options_eq : s.mergeDb.options = mergeOptions
  stored : Stored ⟨s.mergeDb, s.world⟩ records 0
  hintFile_eq : s.hintFile = ⟨⟨mergeOptions.dirPath, .hintIndex⟩, 0,
    (encodeAll (hintRecords records)).length, .standardFio⟩
  hint : s.world.fs.file? ⟨mergeOptions.dirPath, .hintIndex⟩ =
    some (encodeAll (hintRecords records))
  others : ∀ fid ≠ 0, s.world.fs.file? (getDataFileName mergeOptions.dirPath fid) =
    w.fs.file? (getDataFileName mergeOptions.dirPath fid)
  lookup : ∀ dir ≠ mergeOptions.dirPath, s.world.fs.lookup dir = w.fs.lookup dir
  outcomes : ∀ c, s.world.outcomes c = []

variable {mergeOptions : Options} {w : World} {s : MergeScan ι} {records : List LogRecord}

theorem Copying.of_offset (h : Copying mergeOptions w s records) (offset : ℕ) :
    Copying mergeOptions w { s with offset := offset } records :=
  ⟨h.options_eq, h.stored, h.hintFile_eq, h.hint, h.others, h.lookup, h.outcomes⟩

/-- A record that there is room for is copied. -/
theorem Copying.copyRecord (h : Copying mergeOptions w s records) (record : LogRecord) (size : ℕ)
    (hroom : (encodeAll records).length + (copyOf record).encode.length ≤
      mergeOptions.dataFileSize) :
    ∃ s', DB.copyRecord record size s = .again s' ∧ s'.offset = s.offset + size ∧
      Copying mergeOptions w s' (records ++ [copyOf record]) := by
  have hio : NoShortWrites (⟨s.mergeDb, s.world⟩ : Proc ι) :=
    ⟨h.outcomes _, fun o ho => by rw [Proc.writeOutcomes, h.outcomes] at ho; cases ho⟩
  have hfit : Fits false s.mergeDb.options.dataFileSize (encodeAll records).length
      (copyOf record) := .inl (by rwa [h.options_eq])
  rcases h.stored.append hio hfit with ⟨q, hrun, hq, -, hrest, -, -⟩ | ⟨hne, -⟩
  swap
  · exact absurd (canWrite_of_nil (p := ⟨s.mergeDb, s.world⟩) (h.outcomes _) 1) hne
  have hdir : s.mergeDb.options.dirPath = mergeOptions.dirPath := congrArg _ h.options_eq
  have houtcomes (c : Call) : q.world.outcomes c = [] := by
    by_cases hc : c = .write s.mergeDb.firstPath
    · rw [hc]
      have hnil := hrest.writes_nil (p := ⟨s.mergeDb, s.world⟩) (h.outcomes _)
      rwa [Proc.writeOutcomes, hrest.firstPath] at hnil
    · exact (hrest.outcomes c hc).trans (h.outcomes c)
  set hint := hintRecord ((encodeAll records).length, copyOf record) with hhint
  have hkey : (parseLogRecordKey record.key).1 = hint.key := by rw [hhint, hintRecord, copyOf_eq]
  have hfirst : s.mergeDb.firstPath = getDataFileName mergeOptions.dirPath 0 := by
    rw [DB.firstPath, hdir]
    rfl
  have hcontent : q.world.fs.file? s.hintFile.path = some (encodeAll (hintRecords records)) := by
    rw [h.hintFile_eq, hrest.file? _ (by simp [hfirst, getDataFileName])]
    exact h.hint
  have hwrite : (s.hintFile.writeHintRecord (parseLogRecordKey record.key).1
      (posOf 0 ((encodeAll records).length, copyOf record))).run q.world =
        .ok { s.hintFile with writeOff := s.hintFile.writeOff + hint.encode.length }
          (q.world.wrote s.hintFile hint.encode) := by
    rw [writeHintRecord, hkey]
    exact DataFile.write_ok _ (World.next_of_nil (houtcomes _))
  have hstep : DB.copyRecord record size s = .again ⟨s.offset + size, q.db,
      { s.hintFile with writeOff := s.hintFile.writeOff + hint.encode.length },
      q.world.wrote s.hintFile hint.encode⟩ := by
    rw [DB.copyRecord, hrun]
    simp only [hwrite]
  refine ⟨_, hstep, rfl, ?_⟩
  have hpath : s.hintFile.path = ⟨mergeOptions.dirPath, .hintIndex⟩ := by rw [h.hintFile_eq]
  have hlength : (encodeAll (hintRecords (records ++ [copyOf record]))).length =
      (encodeAll (hintRecords records)).length + hint.encode.length := by
    rw [hintRecords_append, encodeAll_append, List.length_append, encodeAll_cons, encodeAll_nil,
      List.append_nil]
  refine ⟨hrest.options.trans h.options_eq, ⟨hq.active, ?_⟩, ?_, ?_, fun fid hne => ?_,
    fun dir hne => ?_, houtcomes⟩
  · have hfirstPath : q.db.firstPath = getDataFileName mergeOptions.dirPath 0 :=
      hrest.firstPath.trans hfirst
    show (q.world.wrote s.hintFile hint.encode).fs.file? q.db.firstPath = _
    rw [World.wrote_file?_of_ne _ _ _ (by rw [hpath, hfirstPath]; simp [getDataFileName])]
    simpa using hq.content
  · rw [hlength, h.hintFile_eq]
  · show (q.world.wrote s.hintFile hint.encode).fs.file? _ = _
    rw [← hpath, World.wrote_file?_self _ _ _ hcontent, DataFile.written, h.hintFile_eq,
      hintRecords_append]
    simp only
    have hover := overwrite_append (rfl : (encodeAll (hintRecords records)).length = _) []
      hint.encode
    simpa using hover
  · show (q.world.wrote s.hintFile hint.encode).fs.file? _ = _
    rw [World.wrote_file?_of_ne _ _ _ (by simp [hpath, getDataFileName]),
      hrest.file? _ (by simpa [hfirst, getDataFileName] using hne)]
    exact h.others fid hne
  · show (q.world.wrote s.hintFile hint.encode).fs.lookup dir = _
    rw [World.wrote_lookup_of_ne _ _ _ (by rwa [hpath]), hrest.lookup dir (by rwa [hdir])]
    exact h.lookup dir hne

/-- The loop copies the valid records out of those that are read, if there is room for
    the copies. -/
theorem Copying.loop_mergePass (h : Copying mergeOptions w s records) {file : DataFile}
    (valid : List (Bytes × LogRecordPos)) {content : Bytes} (fuel : ℕ)
    (hdir : file.path.dir ≠ mergeOptions.dirPath) (hcontent : file.content w.fs = content)
    (hroom : (encodeAll (records ++ copies valid file.fileId
      (readsFrom content fuel s.offset))).length ≤ mergeOptions.dataFileSize)
    (hfuel : content.length - s.offset < fuel) :
    ∃ s', loop (mergePass valid file) fuel s = some s' ∧ Copying mergeOptions w s'
      (records ++ copies valid file.fileId (readsFrom content fuel s.offset)) := by
  induction fuel generalizing s records with
  | zero => exact absurd hfuel (Nat.not_lt_zero _)
  | succ fuel ih =>
    have hsame : file.content s.world.fs = content := by
      rw [← hcontent, DataFile.content, DataFile.content, FS.file?_congr (h.lookup _ hdir)]
    cases hread : readLogRecord content s.offset with
    | ok read =>
      obtain ⟨hlt, h7, -⟩ := readLogRecord_bounds hread
      rw [readsFrom_ok hread, copies_cons] at hroom ⊢
      dsimp only at hroom ⊢
      split
      · rename_i hvalid
        rw [if_pos hvalid, ← List.singleton_append, ← List.append_assoc] at hroom
        have hlength : (encodeAll records).length + (copyOf read.record).encode.length ≤
            mergeOptions.dataFileSize := by
          simp only [encodeAll_append, encodeAll_cons, encodeAll_nil, List.length_append] at hroom
          omega
        obtain ⟨s₁, hcopy, hoffset, h₁⟩ := h.copyRecord read.record read.size hlength
        have hpass : mergePass valid file s = .again s₁ := by
          rw [mergePass, hsame, hread]
          simp only [hvalid, if_true, hcopy]
        obtain ⟨s', hloop, hs'⟩ := ih h₁ (by rwa [hoffset]) (by rw [hoffset]; omega)
        rw [hoffset, List.append_assoc, List.singleton_append] at hs'
        exact ⟨s', (loop_again hpass fuel).trans hloop, hs'⟩
      · rename_i hvalid
        have hpass : mergePass valid file s = .again { s with offset := s.offset + read.size } := by
          rw [mergePass, hsame, hread]
          simp only [hvalid]
          rfl
        rw [if_neg hvalid] at hroom
        obtain ⟨s', hloop, hs'⟩ := ih (h.of_offset (s.offset + read.size)) hroom
          (by dsimp only; omega)
        exact ⟨s', (loop_again hpass fuel).trans hloop, hs'⟩
    | error e =>
      by_cases heof : e = .readDataFileEOF
      · subst heof
        refine ⟨s, loop_done (by rw [mergePass, hsame, hread]; rfl) fuel, ?_⟩
        rw [readsFrom_eof hread]
        simpa [copies] using h
      · have hlt := lt_of_readLogRecord_error hread heof
        have hpass : mergePass valid file s = .again { s with offset := s.offset + 1 } := by
          rw [mergePass, hsame, hread]
          cases e <;> first | rfl | exact absurd rfl heof
        rw [readsFrom_skip hread heof (by omega)] at hroom ⊢
        obtain ⟨s', hloop, hs'⟩ := ih (h.of_offset (s.offset + 1)) hroom (by dsimp only; omega)
        exact ⟨s', (loop_again hpass fuel).trans hloop, hs'⟩

/-- Out of a file the valid records are copied, if they fit into another one. -/
theorem Copying.mergeScan_run (h : Copying mergeOptions w s []) {file : DataFile}
    {content : Bytes} (valid : List (Bytes × LogRecordPos))
    (hdir : file.path.dir ≠ mergeOptions.dirPath) (hcontent : file.content w.fs = content)
    (hroom : (encodeAll (copies valid file.fileId (readsOf content))).length ≤
      mergeOptions.dataFileSize) :
    Copying mergeOptions w (mergeScan valid [file] s)
      (copies valid file.fileId (readsOf content)) := by
  have hsame : file.content s.world.fs = content := by
    rw [← hcontent, DataFile.content, DataFile.content, FS.file?_congr (h.lookup _ hdir)]
  obtain ⟨s', hloop, hs'⟩ := (h.of_offset 0).loop_mergePass valid (content.length + 1)
    hdir hcontent (by simpa [readsOf] using hroom) (by dsimp only; omega)
  rw [mergeScan, mergeScan]
  simp only [hsame, hloop, Option.getD_some]
  simpa [readsOf] using hs'

end DB

end Bitcask
