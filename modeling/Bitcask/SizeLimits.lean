import Bitcask.FailedCommits

/-!
# Which sizes are read back

Records of any size are written, while `readLogRecord` refuses to read keys and values
of more than 64 MiB, and declared lengths of four gigabytes and more wrap around
(`readValue_encode_iff`). So what is put into a new database is not always found there
(`DB.get_put_iff`, `DB.get_commit_iff`). A batch may lose its value to the end of its
transaction, too: if that does not fit behind the record, it is written over it.
-/

namespace Bitcask

open Framing Transaction DataFile DBM Guarantee

/-! ## Reading records of any size -/

namespace LogRecord

/-- A record whose value is read back, whatever the size of its key and value. -/
structure Accepted (record : LogRecord) : Prop where
  /-- The header is looked for in the first bytes only. -/
  header_le : record.headerSize ≤ maxLogRecordHeaderSize
  key_le : record.decodedHeader.keySize ≤ maxRecordSize
  value_le : record.value.length ≤ maxRecordSize
  not_end : ¬(record.getCrc = 0 ∧ record.decodedHeader.keySize = 0 ∧ record.value = [])
  /-- The value is found behind as many bytes of the key as are declared. -/
  value_eq : ((record.key ++ record.value).drop record.decodedHeader.keySize).take
    record.value.length = record.value
  crc : checkCRC record.decodedHeader
    { record with key := record.key.take record.decodedHeader.keySize } = true

variable {record : LogRecord}

theorem decodedHeader_keySize_le (record : LogRecord) :
    record.decodedHeader.keySize ≤ record.key.length :=
  (Nat.mod_le _ _).trans (Nat.mod_le _ _)

theorem decodedHeader_valueSize_le (record : LogRecord) :
    record.decodedHeader.valueSize ≤ record.value.length :=
  (Nat.mod_le _ _).trans (Nat.mod_le _ _)

theorem decodedHeader_valueSize_of_le (h : record.value.length ≤ maxRecordSize) :
    record.decodedHeader.valueSize = record.value.length := by
  have hmax : maxRecordSize = 67108864 := rfl
  have h64 : record.value.length % 2 ^ 64 = record.value.length := Nat.mod_eq_of_lt (by omega)
  show record.value.length % 2 ^ 64 % 2 ^ 32 = _
  rw [h64, Nat.mod_eq_of_lt (by omega)]

/-- Unless the length of the key wraps around, the sizes decide. -/
theorem accepted_iff (hkey : record.key.length < 2 ^ 32)
    (htype : record.type = .normal ∨ record.type = .deleted ∨ record.type = .txnFinished) :
    record.Accepted ↔
      record.key.length ≤ maxRecordSize ∧ record.value.length ≤ maxRecordSize := by
  have hkeySize : record.decodedHeader.keySize = record.key.length := by
    rw [decodedHeader, Nat.mod_eq_of_lt (hkey.trans (by decide)), Nat.mod_eq_of_lt hkey]
  constructor
  · intro h
    exact ⟨hkeySize ▸ h.key_le, h.value_le⟩
  · rintro ⟨hkeyMax, hvalueMax⟩
    have hr := readable_of_le hkeyMax hvalueMax htype
    refine ⟨hr.headerSize_le.trans (by decide), hkeySize ▸ hkeyMax, hvalueMax, ?_, ?_, ?_⟩
    · rw [hkeySize, List.length_eq_zero_iff]
      exact hr.nonzero
    · rw [hkeySize, List.drop_left, List.take_length]
    · rw [hkeySize, List.take_length]
      exact checkCRC_eq_true_iff.2 fun _ => .inl rfl

end LogRecord

section Encoded

variable {content rest : Bytes} {offset : ℕ} {record : LogRecord}

/-- When the header of a record is accepted. -/
theorem readLogRecordHeader_encode_iff (h : content.drop offset = record.encode ++ rest)
    {x : LogRecordHeader × ℕ} :
    readLogRecordHeader content offset = .ok x ↔ x = (record.decodedHeader, record.headerSize) ∧
      record.headerSize ≤ maxLogRecordHeaderSize ∧
      ¬(record.getCrc = 0 ∧ record.decodedHeader.keySize = 0 ∧
        record.decodedHeader.valueSize = 0) ∧
      record.decodedHeader.keySize ≤ maxRecordSize ∧
      record.decodedHeader.valueSize ≤ maxRecordSize := by
  obtain ⟨header, headerSize⟩ := x
  have hseven := record.seven_le_headerSize
  have hlen := length_eq_of_drop h (by
    rw [LogRecord.encode_eq, ← List.length_pos_iff, List.length_append, List.length_append,
      LogRecord.length_header]
    omega)
  rw [List.length_append, LogRecord.length_encode] at hlen
  rw [LogRecord.encode_eq, List.append_assoc] at h
  rw [readLogRecordHeader_eq_ok_iff, h]
  constructor
  · rintro ⟨-, hdecode, hend, hkey, hvalue, -⟩
    obtain ⟨rfl, rfl⟩ := Prod.mk.inj (decodeLogRecordHeader_take hdecode)
    refine ⟨rfl, ?_, hend, hkey, hvalue⟩
    have hle := (decodeLogRecordHeader_bounds hdecode).1
    rw [List.length_take] at hle
    exact hle.trans (Nat.min_le_left _ _)
  · rintro ⟨hx, hle, hend, hkey, hvalue⟩
    obtain ⟨rfl, rfl⟩ := Prod.mk.inj hx
    refine ⟨by omega, ?_, hend, hkey, hvalue, by omega⟩
    rw [List.take_append, LogRecord.length_header,
      List.take_of_length_le (by rw [LogRecord.length_header]; exact hle)]
    exact decodeLogRecordHeader_header record _

/-- When the value of a record is read back, whatever is around it. -/
theorem readValue_encode_iff (hkey : record.key ≠ []) (htype : record.type ≠ .deleted)
    (h : content.drop offset = record.encode ++ rest) :
    readValue content offset = .ok record.value ↔ record.Accepted := by
  have hkeyPos := List.length_pos_iff.2 hkey
  have hkeySize := record.decodedHeader_keySize_le
  have hvalueSize := record.decodedHeader_valueSize_le
  set header := record.decodedHeader with hheader
  -- The bytes behind the header that are read.
  have hlen := congrArg List.length h
  rw [List.length_drop, List.length_append, LogRecord.length_encode] at hlen
  have hdrop : content.drop (offset + record.headerSize) = record.key ++ record.value ++ rest := by
    rw [← List.drop_drop, h, LogRecord.encode_eq, List.append_assoc, List.drop_left' record.length_header]
  have hbuf : readNBytes content (header.keySize + header.valueSize) (offset + record.headerSize) =
      .ok ((record.key ++ record.value ++ rest).take (header.keySize + header.valueSize)) := by
    rw [readNBytes_eq (.inr (by omega)), hdrop]
  have hsplit : splitKeyValue header
      ((record.key ++ record.value ++ rest).take (header.keySize + header.valueSize)) =
      { key := record.key.take header.keySize
        value := ((record.key ++ record.value).drop header.keySize).take header.valueSize
        type := record.type } := by
    rw [splitKeyValue_take, List.append_assoc, List.take_append_of_le_length hkeySize,
      ← List.append_assoc, List.drop_append_of_le_length (by rw [List.length_append]; omega),
      List.take_append_of_le_length (by rw [List.length_drop, List.length_append]; omega)]
    rfl
  rw [readValue, readLogRecord]
  constructor
  · intro hread
    obtain ⟨read, hread, hvalue⟩ := bind_eq_ok.1 hread
    obtain ⟨x, hx, hread⟩ := bind_eq_ok.1 hread
    obtain ⟨rfl, hle, hend, hkeyMax, hvalueMax⟩ := (readLogRecordHeader_encode_iff h).1 hx
    obtain ⟨kvBuf, hkv, hread⟩ := bind_eq_ok.1 hread
    obtain rfl := Except.ok.inj (hbuf.symm.trans hkv)
    simp only [← hheader, hsplit] at hread
    split at hread
    · rename_i hcrc
      obtain rfl := Except.ok.inj hread
      rw [if_neg htype] at hvalue
      have hvalue : ((record.key ++ record.value).drop header.keySize).take header.valueSize =
          record.value := Except.ok.inj hvalue
      -- No less than the whole value has been read.
      have hall := congrArg List.length hvalue
      rw [List.length_take] at hall
      have hsize : header.valueSize = record.value.length := by omega
      rw [hvalue] at hcrc
      rw [hsize] at hvalue hend hvalueMax
      exact ⟨hle, hkeyMax, hvalueMax, by rwa [List.length_eq_zero_iff] at hend, hvalue, hcrc⟩
    · cases hread
  · rintro ⟨hle, hkeyMax, hvalueMax, hend, hvalue, hcrc⟩
    have hsize : header.valueSize = record.value.length :=
      LogRecord.decodedHeader_valueSize_of_le hvalueMax
    have hx : readLogRecordHeader content offset = .ok (header, record.headerSize) := by
      refine (readLogRecordHeader_encode_iff h).2 ⟨rfl, hle, ?_, hkeyMax, hsize ▸ hvalueMax⟩
      rwa [← hheader, hsize, List.length_eq_zero_iff]
    rw [hsize, hvalue] at hsplit
    rw [hsize] at hbuf
    rw [← hheader] at hcrc
    rw [hx]
    simp only [bind, Except.bind, hsize, hbuf, hsplit]
    rw [if_pos hcrc]
    exact if_neg htype

/-- When the value of a record is read back that is alone in its file. -/
theorem LogRecord.readValue_encode_self_iff (hkey : record.key ≠ []) (htype : record.type ≠ .deleted) :
    readValue record.encode 0 = .ok record.value ↔ record.Accepted :=
  readValue_encode_iff hkey htype (List.append_nil _).symm

end Encoded

/-! ## New databases -/

variable {ι : Type}

/-- The active file is the first one, and holds some bytes. -/
def FirstHolds (p : Proc ι) (content : Bytes) : Prop :=
  ∃ file, p.db.activeFile = some file ∧ file.fileId = 0 ∧ file.content p.world.fs = content

theorem Stored.firstHolds {p : Proc ι} {records : List LogRecord} {zeros : ℕ}
    (h : Stored p records zeros) :
    FirstHolds p (encodeAll records ++ List.replicate zeros 0) :=
  ⟨_, h.active, rfl, content_eq_of_file? h.content⟩

/-- The end of a transaction is written behind the records or, if it does not fit there,
    over them. -/
theorem Stored.append_txnFin {p : Proc ι} {record : LogRecord} (h : Stored p [record] 0)
    (hw : NoShortWrites p) (fin : LogRecord) :
    (p.CanWrite 1 ∧ ∃ pos q, (DB.appendLogRecordInternal fin : DBM ι _).run p = .ok pos q ∧
      q.db.index = p.db.index ∧ FirstHolds q
        (if record.encode.length + fin.encode.length ≤ p.db.options.dataFileSize then
          record.encode ++ fin.encode
        else fin.encode ++ record.encode.drop fin.encode.length)) ∨
    (¬p.CanWrite 1 ∧ ∃ e q, (DB.appendLogRecordInternal fin : DBM ι _).run p = .error e q) := by
  have hall : encodeAll [record] = record.encode := by simp
  by_cases hfit : record.encode.length + fin.encode.length ≤ p.db.options.dataFileSize
  · have hfits : Fits false p.db.options.dataFileSize (encodeAll [record]).length fin :=
      .inl (by rw [hall]; exact hfit)
    rcases h.append hw hfits with
      ⟨q, hrun, hq, hindex, -, hcan, -⟩ | ⟨hne, e, q, hrun, -⟩
    · refine .inl ⟨hcan, _, q, hrun, hindex.index, ?_⟩
      rw [if_pos hfit]
      simpa using hq.firstHolds
    · exact .inr ⟨hne, e, q, hrun⟩
  · -- The first file is opened again, and written from its start.
    have hopen : p.world.opened p.db.firstPath = p.world := World.opened_of_exists _ _ h.content
    have hrot : p.db.options.dataFileSize <
        (p.db.activeAt (encodeAll [record]).length).writeOff + fin.encode.length := by
      rw [hall]
      exact Nat.not_le.1 hfit
    rcases Stored.outcome_cases hw with ⟨hok, hcan⟩ | ⟨hfail, hne⟩
    · refine .inl ⟨hcan, _, _, DB.appendLogRecordInternal_rotate h.active hrot hw.1
        (by rw [hopen]; exact Prod.ext hok rfl), rfl, _, rfl, rfl, ?_⟩
      have hcontent := h.content
      rw [hall, List.replicate_zero, List.append_nil] at hcontent
      have hfile : (p.world.next (.write p.db.firstPath)).2.fs.file? p.db.firstFile.path =
          some record.encode := by
        rw [World.next_fs]
        exact hcontent
      have hover := overwrite_append (rfl : ([] : Bytes).length = 0) record.encode fin.encode
      rw [List.nil_append, List.nil_append] at hover
      rw [if_neg hfit, ← hover]
      exact content_eq_of_file? (World.wrote_file?_self _ p.db.firstFile fin.encode hfile)
    · exact .inr ⟨hne, _, _, DB.appendLogRecordInternal_rotate_fail h.active hrot hw.1
        (by rw [hopen]; exact Prod.ext hfail rfl)⟩

variable [Indexer ι]

/-- What is read at the start of the first file. -/
theorem FirstHolds.get_eq {p : Proc ι} {content key : Bytes} {size : ℕ} (h : FirstHolds p content)
    (hkey : key ≠ []) (hpos : Indexer.get p.db.index key = some ⟨0, 0, size⟩) :
    DB.get p.db p.world.fs key = readValue content 0 := by
  obtain ⟨file, hactive, hid, hcontent⟩ := h
  have hfile : p.db.fileOf 0 = some file := hid ▸ DB.fileOf_of_eq hactive
  rw [DB.get, if_neg hkey, hpos]
  show p.db.getValueByPosition p.world.fs ⟨0, 0, size⟩ = _
  rw [DB.getValueByPosition, hfile, readValue, ← hcontent]

section New

variable {options : Options} {w w' : World} {db : DB ι}

/-- What is put into a new database is read where its record has been written. -/
theorem Made.put_run (hmade : Made options w db w') (hw : NoShortWrites ⟨db, w'⟩)
    {key : Bytes} (hkey : key ≠ []) (value : Bytes) :
    (Proc.CanWrite ⟨db, w'⟩ 1 ∧ ∃ q, (DB.put key value).run ⟨db, w'⟩ = .ok () q ∧
      DB.get q.db q.world.fs key = readValue (LogRecord.encode ⟨key, value, .normal⟩) 0) ∨
    (¬Proc.CanWrite ⟨db, w'⟩ 1 ∧ ∃ e q, (DB.put key value).run ⟨db, w'⟩ = .error e q) := by
  have hrun : (DB.put key value).run ⟨db, w'⟩ =
      (DB.appendLogRecordInternal ⟨key, value, .normal⟩ >>= fun pos =>
        DB.indexPut key pos).run ⟨db, w'⟩ := by
    rw [DB.put, if_neg hkey]
    rfl
  have hfits : Fits true db.options.dataFileSize (encodeAll []).length ⟨key, value, .normal⟩ :=
    .inr ⟨rfl, rfl⟩
  rcases hmade.stored.append hw hfits with ⟨q, happend, hq, -, -, hcan, -⟩ | ⟨hne, e, q, happend, -⟩
  · obtain ⟨index, reclaimSize, hput, hindex⟩ := DB.indexPut_run q key
      (posOf 0 ((encodeAll []).length, ⟨key, value, .normal⟩))
    refine .inl ⟨hcan, { q with db := q.db.withIndex index reclaimSize }, ?_, ?_⟩
    · rw [hrun, bind_ok happend, hput]
    · have hholds : FirstHolds q (LogRecord.encode ⟨key, value, .normal⟩) := by
        simpa using hq.firstHolds
      have hholds' : FirstHolds { q with db := q.db.withIndex index reclaimSize }
        (LogRecord.encode ⟨key, value, .normal⟩) := hholds
      exact hholds'.get_eq hkey ((congrFun hindex key).trans (Function.update_self _ _ _))
  · exact .inr ⟨hne, e, q, by rw [hrun, bind_error happend]⟩

/-- What a batch that puts one key puts into a new database is read where its record has
    been written, or what has been written there afterwards. -/
theorem Made.commit_run (hmade : Made options w db w') (hw : NoShortWrites ⟨db, w'⟩)
    {key value : Bytes} (hkey : key ≠ []) {batch : WriteBatch}
    (hpending : batch.pendingWrites = [⟨key, value, .normal⟩]) :
    let record := WriteBatch.withSeq batch.seqNo ⟨key, value, .normal⟩
    let fin := WriteBatch.txnFinRecord batch.seqNo
    (Proc.CanWrite ⟨db, w'⟩ 2 ∧ ∃ batch' q, batch.commit.run ⟨db, w'⟩ = .ok batch' q ∧
      DB.get q.db q.world.fs key = readValue
        (if record.encode.length + fin.encode.length ≤ options.dataFileSize then
          record.encode ++ fin.encode
        else fin.encode ++ record.encode.drop fin.encode.length) 0) ∨
    (¬Proc.CanWrite ⟨db, w'⟩ 2 ∧ ∃ e q, batch.commit.run ⟨db, w'⟩ = .error e q) := by
  intro record fin
  have hne : ¬batch.pendingWrites = [] := by
    rw [hpending]
    exact List.cons_ne_nil _ _
  have hfits : Fits true db.options.dataFileSize (encodeAll []).length record := .inr ⟨rfl, rfl⟩
  rcases hmade.stored.append hw hfits with
    ⟨q, happend, hq, hindex, hsame, hcan, hout⟩ | ⟨hcannot, e, q, happend, -⟩
  · have happends : (WriteBatch.appendAll batch.seqNo batch.pendingWrites).run ⟨db, w'⟩ =
        .ok [posOf 0 ((encodeAll []).length, record)] q := by
      rw [hpending, WriteBatch.appendAll, bind_ok happend]
      rfl
    have hstored : Stored q [record] 0 := by simpa using hq
    rcases hstored.append_txnFin (hsame.noShortWrites hw) fin with
      ⟨hcanFin, pos, q', hfin, hindexFin, hholds⟩ | ⟨hcannot, e, q', hfin⟩
    · set written : LogRecord × LogRecordPos :=
        (⟨key, value, .normal⟩, posOf 0 ((encodeAll []).length, record)) with hwritten
      have hitems : ∀ x ∈ [written], x.1.IsWrite :=
        List.forall_mem_singleton.2 ⟨hkey, .inl rfl⟩
      obtain ⟨index, reclaimSize, hrun, hget⟩ := WriteBatch.updateIndexes_run hitems q'
      refine .inl ⟨(canWrite_add hout).2 ⟨hcan, hcanFin⟩,
        { options := batch.options, seqNo := batch.seqNo },
        { q' with db := { q'.db.withIndex index reclaimSize with
          seqNo := (batch.seqNo + 1) % seqNoBound } }, ?_, ?_⟩
      · rw [WriteBatch.commit, if_neg hne]
        show (WriteBatch.appendAll batch.seqNo batch.pendingWrites >>= fun _ => _).run _ = _
        rw [bind_ok happends]
        show (DB.appendLogRecordInternal fin >>= fun _ => _).run q = _
        rw [bind_ok hfin, hpending, List.zip_cons_cons, List.zip_nil_left]
        show (WriteBatch.updateIndexes _ >>= fun _ => _).run q' = _
        rw [bind_ok hrun]
        rfl
      · rw [hsame.options, hmade.options_eq] at hholds
        have hholds' : FirstHolds { q' with db := { q'.db.withIndex index reclaimSize with
          seqNo := (batch.seqNo + 1) % seqNoBound } } _ := hholds
        exact hholds'.get_eq hkey ((congrFun hget key).trans (Function.update_self _ _ _))
    · refine .inr ⟨fun hall => hcannot ((canWrite_add hout).1 hall).2, e, q', ?_⟩
      rw [WriteBatch.commit, if_neg hne]
      show (WriteBatch.appendAll batch.seqNo batch.pendingWrites >>= fun _ => _).run _ = _
      rw [bind_ok happends]
      show (DB.appendLogRecordInternal fin >>= fun _ => _).run q = _
      rw [bind_error hfin]
  · have happends : (WriteBatch.appendAll batch.seqNo batch.pendingWrites).run ⟨db, w'⟩ =
        .error e q := by
      rw [hpending, WriteBatch.appendAll, bind_error happend]
    refine .inr ⟨fun hall => hcannot fun o ho => hall o ?_, e, q, ?_⟩
    · exact (List.take_sublist_take_left (by decide)).subset ho
    · rw [WriteBatch.commit, if_neg hne]
      show (WriteBatch.appendAll batch.seqNo batch.pendingWrites >>= fun _ => _).run _ = _
      rw [bind_error happends]

end New

/-- The batch that a new database gets, once it puts a key. -/
theorem Made.pendingWrites_of_put {options : Options} {w w' : World} {db : DB ι}
    (hmade : Made options w db w') {batchOptions : WriteBatchOptions} {key value : Bytes}
    {batch : WriteBatch} (hbatch : (WriteBatch.new db batchOptions).put key value = .ok batch) :
    batch.pendingWrites = [⟨key, value, .normal⟩] ∧ batch.seqNo = 1 := by
  rw [WriteBatch.put, WriteBatch.add] at hbatch
  split at hbatch
  · cases hbatch
  · split at hbatch
    · cases hbatch
    · obtain rfl := Except.ok.inj hbatch
      refine ⟨rfl, ?_⟩
      show (db.seqNo + 1) % seqNoBound = 1
      rw [hmade.seqNo]
      rfl

/-- The value of a key is read back after it has been put into a new database, or after
    a batch that puts it has been committed there, if and only if its record is one
    that is read back, which is a matter of sizes as long as the stored key has less
    than four gigabytes. The value of a batch is also lost, unless it is empty, if the
    end of the transaction does not fit behind it. -/
theorem DB.get_put_iff {options : Options} {w : World} (hfresh : Fresh options w)
    (hw : ∀ o ∈ w.outcomes (.write (getDataFileName options.dirPath 0)), o = .ok ∨ o = .fail) :
    ∃ (db : DB ι) (w' : World), (DB.open options : Sys (DB ι)).run w = .ok db w' ∧
      (∀ key value, key ≠ [] →
        ((∀ q, (DB.put key value).run ⟨db, w'⟩ = .ok () q →
            DB.get q.db q.world.fs key = .ok value) ↔
          (Proc.CanWrite ⟨db, w'⟩ 1 → LogRecord.Accepted ⟨key, value, .normal⟩))) ∧
      (∀ key value batchOptions batch, key ≠ [] →
        (WriteBatch.new db batchOptions).put key value = .ok batch →
        ((∀ batch' q, batch.commit.run ⟨db, w'⟩ = .ok batch' q →
            DB.get q.db q.world.fs key = .ok value) ↔
          (Proc.CanWrite ⟨db, w'⟩ 2 →
            if (LogRecord.encode ⟨logRecordKeyWithSeq key 1, value, .normal⟩).length + 15 ≤
              options.dataFileSize then
              LogRecord.Accepted ⟨logRecordKeyWithSeq key 1, value, .normal⟩
            else value = []))) ∧
      ∀ key value, key.length < 2 ^ 32 → (LogRecord.Accepted ⟨key, value, .normal⟩ ↔
        key.length ≤ maxRecordSize ∧ value.length ≤ maxRecordSize) := by
  obtain ⟨db, w', hopen, hmade⟩ := hfresh.open (ι := ι)
  have hio := hmade.noShortWrites hfresh hw
  refine ⟨db, w', hopen, fun key value hkey => ?_, fun key value batchOptions batch hkey hbatch => ?_,
    fun key value hlen => LogRecord.accepted_iff hlen (.inl rfl)⟩
  · have hread : readValue (LogRecord.encode ⟨key, value, .normal⟩) 0 = .ok value ↔
        LogRecord.Accepted ⟨key, value, .normal⟩ :=
      LogRecord.readValue_encode_self_iff hkey LogRecordType.normal_ne_deleted
    rcases hmade.put_run hio hkey value with ⟨hcan, q, hrun, hget⟩ | ⟨hcannot, e, q, hrun⟩
    · rw [hrun, ← hread, ← hget]
      constructor
      · exact fun h _ => h q rfl
      · intro h q' hq'
        cases hq'
        exact h hcan
    · rw [hrun]
      exact iff_of_true (fun q' hq' => by cases hq') fun hcan => absurd hcan hcannot
  · obtain ⟨hpending, hseqNo⟩ := hmade.pendingWrites_of_put hbatch
    set record : LogRecord := ⟨logRecordKeyWithSeq key 1, value, .normal⟩ with hrecord
    have hfin : (WriteBatch.txnFinRecord 1).encode.length = 15 := by decide
    have hstored : record.key ≠ [] := by
      rw [hrecord, logRecordKeyWithSeq, if_neg (by decide)]
      exact List.append_ne_nil_of_left_ne_nil hkey _
    have hread : readValue (if record.encode.length + 15 ≤ options.dataFileSize then
          record.encode ++ (WriteBatch.txnFinRecord 1).encode
        else (WriteBatch.txnFinRecord 1).encode ++ record.encode.drop 15) 0 = .ok value ↔
        if record.encode.length + 15 ≤ options.dataFileSize then record.Accepted
        else value = [] := by
      split
      · have hdrop : (record.encode ++ (WriteBatch.txnFinRecord 1).encode).drop 0 =
            record.encode ++ (WriteBatch.txnFinRecord 1).encode := rfl
        exact readValue_encode_iff hstored LogRecordType.normal_ne_deleted hdrop
      · -- The end of the transaction is read, which has no value.
        have hreadable : (WriteBatch.txnFinRecord 1).Readable :=
          LogRecord.readable_of_le (by decide) (by decide) (.inr (.inr rfl))
        have hdrop : ((WriteBatch.txnFinRecord 1).encode ++ record.encode.drop 15).drop 0 =
            (WriteBatch.txnFinRecord 1).encode ++ record.encode.drop 15 := rfl
        rw [readValue, readLogRecord_encode hreadable hdrop]
        exact ⟨fun h => (Except.ok.inj h).symm, fun h => congrArg Except.ok h.symm⟩
    have hrun := hmade.commit_run hio hkey hpending
    rw [hseqNo] at hrun
    rcases hrun with ⟨hcan, batch', q, hrun, hget⟩ | ⟨hcannot, e, q, hrun⟩
    · rw [hfin] at hget
      rw [hrun, ← hread]
      constructor
      · intro h _
        exact hget.symm.trans (h batch' q rfl)
      · intro h batch'' q' hq'
        cases hq'
        exact hget.trans (h hcan)
    · rw [hrun]
      exact iff_of_true (fun _ q' hq' => by cases hq') fun hcan => absurd hcan hcannot

/-- Small keys and values are read back. -/
theorem DB.get_put_iff_small : ∃ (db : DB BTreeIndex) (w' : World),
    (DB.open ⟨['d'], 100, false⟩ : Sys (DB BTreeIndex)).run { fs := ∅ } = .ok db w' ∧
      ∀ q, (DB.put [107] [118]).run ⟨db, w'⟩ = .ok () q →
        DB.get q.db q.world.fs [107] = .ok [118] := by
  have hfresh : Fresh ⟨['d'], 100, false⟩ { fs := ∅ } := ⟨rfl, fun _ _ => rfl, fun _ => rfl⟩
  obtain ⟨db, w', hopen, hput, -, hsizes⟩ :=
    DB.get_put_iff (ι := BTreeIndex) hfresh (List.forall_mem_nil _)
  refine ⟨db, w', hopen, (hput [107] [118] (by decide)).2 fun _ => ?_⟩
  exact (hsizes [107] [118] (by decide)).2 ⟨by decide, by decide⟩

/-- A value of one byte more than 64 MiB is put and cannot be read. -/
theorem DB.not_forall_get_put :
    ¬∀ (options : Options) (w : World), Fresh options w → (∀ c, w.outcomes c = []) →
      ∀ (db : DB BTreeIndex) (w' : World),
        (DB.open options : Sys (DB BTreeIndex)).run w = .ok db w' →
        ∀ key value, key ≠ [] → ∀ q, (DB.put key value).run ⟨db, w'⟩ = .ok () q →
          DB.get q.db q.world.fs key = .ok value := by
  intro h
  have hfresh : Fresh ⟨['d'], 100, false⟩ { fs := ∅ } := ⟨rfl, fun _ _ => rfl, fun _ => rfl⟩
  obtain ⟨db, w', hopen, hmade⟩ := hfresh.open (ι := BTreeIndex)
  have hio := hmade.noShortWrites hfresh (List.forall_mem_nil _)
  set value : Bytes := List.replicate (maxRecordSize + 1) 0 with hvalue
  have hlen : value.length = maxRecordSize + 1 := List.length_replicate
  have hkey : ([107] : Bytes) ≠ [] := List.cons_ne_nil _ _
  rcases hmade.put_run hio hkey value with ⟨-, q, hrun, hget⟩ | ⟨hcannot, -⟩
  · have hread := h _ _ hfresh (fun _ => rfl) db w' hopen [107] value hkey q hrun
    rw [hget] at hread
    have haccepted : LogRecord.Accepted ⟨[107], value, .normal⟩ :=
      (LogRecord.readValue_encode_self_iff hkey LogRecordType.normal_ne_deleted).1 hread
    have hle : value.length ≤ maxRecordSize := haccepted.value_le
    omega
  · refine hcannot (canWrite_of_nil ?_ 1)
    rw [Proc.writeOutcomes, hmade.outcomes]

end Bitcask
