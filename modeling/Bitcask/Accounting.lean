import Mathlib.Algebra.BigOperators.Group.List.Basic
import Bitcask.Corruption
import Bitcask.ReadYourWrites

/-!
# Reclaimable space

Every position in the index has the size of its record, and `reclaimSize` counts the
bytes that a merge can leave out: records that have been replaced or removed, and the
records that remove them. What is in the index and what can be reclaimed make up all
data that has been written (`DB.accounted`):

* whatever is requested, as long as no call fails (`Session.run_accounted`);
* after the data files have been loaded, for the records applied to the index
  (`DB.loadIndexFromDataFiles_accounted`).

Both are due to what putting a key and removing one do to the sum of the sizes in an
index (`Indexer.totalSize_update`).
-/

namespace Bitcask

open DB DBM DataFile Guarantee

variable {ι : Type} [Indexer ι]

/-! ## The sizes in an index -/

namespace Indexer

variable (i i' : ι) (k : Bytes)

/-- The size of the record of a key. -/
def sizeAt : ℕ := (get i k).elim 0 LogRecordPos.size

def totalSize : ℕ := ((listKeys i).map (sizeAt i)).sum

theorem elim_size : ((get i k).elim 0 fun pos => (pos.size : ℤ)) = sizeAt i k := by
  rw [sizeAt]
  cases get i k <;> rfl

theorem totalSize_eq :
    totalSize i = sizeAt i k + (((listKeys i).erase k).map (sizeAt i)).sum := by
  by_cases hk : k ∈ listKeys i
  · exact ((List.perm_cons_erase hk).map (sizeAt i)).sum_eq
  · have hnone : get i k = none := by
      rwa [mem_listKeys, Bool.not_eq_true, Option.isSome_eq_false_iff, Option.isNone_iff_eq_none] at hk
    rw [List.erase_of_not_mem hk, sizeAt, hnone, Option.elim_none, Nat.zero_add]
    rfl

variable {i i' k}

/-- If indexes differ only at a key, their sizes differ only by those of its records. -/
theorem totalSize_update (h : ∀ k' ≠ k, get i' k' = get i k') :
    totalSize i' + sizeAt i k = totalSize i + sizeAt i' k := by
  have hperm : (listKeys i').erase k |>.Perm ((listKeys i).erase k) := by
    refine (List.perm_ext_iff_of_nodup ((nodup_listKeys i').erase k)
      ((nodup_listKeys i).erase k)).2 fun k' => ?_
    rw [(nodup_listKeys i').mem_erase_iff, (nodup_listKeys i).mem_erase_iff, mem_listKeys,
      mem_listKeys]
    exact and_congr_right fun hne => by rw [h k' hne]
  have hsizes : ((listKeys i').erase k).map (sizeAt i') = ((listKeys i').erase k).map (sizeAt i) := by
    refine List.map_congr_left fun k' hk' => ?_
    rw [sizeAt, h k' ((nodup_listKeys i').mem_erase_iff.1 hk').1]
    rfl
  rw [totalSize_eq i' k, totalSize_eq i k, hsizes, (hperm.map _).sum_eq]
  omega

theorem totalSize_put (i : ι) (k : Bytes) (pos : LogRecordPos) :
    totalSize (put i k pos).2 + sizeAt i k = totalSize i + pos.size := by
  have hsize : sizeAt (put i k pos).2 k = pos.size := by
    rw [sizeAt, get_put, if_pos rfl, Option.elim_some]
  rw [← hsize]
  exact totalSize_update fun k' hk' => by rw [get_put, if_neg hk']

theorem totalSize_remove (i : ι) (k : Bytes) :
    totalSize (remove i k).2 + sizeAt i k = totalSize i := by
  have hsize : sizeAt (remove i k).2 k = 0 := by
    rw [sizeAt, get_remove, if_pos rfl, Option.elim_none]
  rw [totalSize_update fun k' hk' => by rw [get_remove, if_neg hk'], hsize, Nat.add_zero]

theorem totalSize_of_empty (h : ∀ k, get i k = none) : totalSize i = 0 := by
  have hkeys : listKeys i = [] := by
    refine List.eq_nil_iff_forall_not_mem.2 fun k hk => ?_
    rw [mem_listKeys, h] at hk
    cases hk
  rw [totalSize, hkeys, List.map_nil, List.sum_nil]

end Indexer

/-- The bytes in the index and those that can be reclaimed. -/
def DB.accounted (db : DB ι) : ℤ := db.reclaimSize + Indexer.totalSize db.index

/-- The bytes of records that put or delete a key. -/
def dataSize (records : List LogRecord) : ℕ :=
  ((records.filter fun r => r.type = .normal ∨ r.type = .deleted).map fun r => r.encode.length).sum

/-! ## Requests -/

/-- The active file is open, and no call will fail. -/
structure Proc.Unfailing (p : Proc ι) : Prop where
  active : p.db.activeFile.isSome = true
  outcomes : ∀ c, p.world.outcomes c = []

/-- A computation returns a value of which `Q` holds, and `n` bytes more are accounted for. -/
def Adds {α : Type} (m : DBM ι α) (Q : α → Prop) (n : ℕ) : Prop :=
  ∀ p : Proc ι, p.Unfailing → ∃ a q, m.run p = .ok a q ∧ q.Unfailing ∧ Q a ∧
    q.db.accounted = p.db.accounted + n

namespace Adds

variable {α β : Type} {m : DBM ι α} {Q : α → Prop} {n : ℕ}

theorem pure {a : α} (h : Q a) : Adds (pure a : DBM ι α) Q 0 :=
  fun p hp => ⟨a, p, rfl, hp, h, (Int.add_zero _).symm⟩

theorem bind (h : Adds m Q n) {f : α → DBM ι β} {R : β → Prop} {n' : ℕ}
    (hf : ∀ a, Q a → Adds (f a) R n') : Adds (m >>= f) R (n + n') := by
  intro p hp
  obtain ⟨a, q, hrun, hq, ha, hadd⟩ := h p hp
  obtain ⟨b, r, hrun', hr, hb, hadd'⟩ := hf a ha q hq
  refine ⟨b, r, by rw [bind_ok hrun, hrun'], hr, hb, ?_⟩
  rw [hadd', hadd, Nat.cast_add, add_assoc]

end Adds

theorem appendLogRecordInternal_adds (record : LogRecord) :
    Adds (appendLogRecordInternal record : DBM ι _)
      (fun pos => pos.size = record.encode.length % 2 ^ 32) 0 := by
  intro p hp
  obtain ⟨file, hactive⟩ := Option.isSome_iff_exists.1 hp.active
  have hsame := SameIndex.appendLogRecordInternal record p
  suffices hrun : ∃ pos q, (appendLogRecordInternal record : DBM ι _).run p = .ok pos q ∧
      q.Unfailing ∧ pos.size = record.encode.length % 2 ^ 32 by
    obtain ⟨pos, q, hrun, hq, hpos⟩ := hrun
    rw [hrun, finalState_ok] at hsame
    refine ⟨pos, q, hrun, hq, hpos, ?_⟩
    rw [DB.accounted, hsame.index, hsame.reclaimSize, DB.accounted]
    exact (Int.add_zero _).symm
  by_cases hfit : file.writeOff + record.encode.length ≤ p.db.options.dataFileSize
  · exact ⟨_, _, appendLogRecordInternal_ok hactive hfit (World.next_of_nil (hp.outcomes _)),
      ⟨rfl, hp.outcomes⟩, rfl⟩
  · -- The first file is written from its start, which the index is not told of.
    have hopened : ∀ c, (p.world.opened p.db.firstPath).outcomes c = [] := by
      intro c
      rw [World.opened_outcomes]
      exact hp.outcomes c
    exact ⟨_, _, appendLogRecordInternal_rotate hactive (Nat.not_le.1 hfit) (hp.outcomes _)
      (World.next_of_nil (hopened _)), ⟨rfl, hopened⟩, rfl⟩

theorem indexPut_adds (key : Bytes) (pos : LogRecordPos) :
    Adds (indexPut key pos : DBM ι Unit) (fun _ => True) pos.size := by
  intro p hp
  refine ⟨(), _, rfl, ⟨hp.active, hp.outcomes⟩, trivial, ?_⟩
  have htotal := Indexer.totalSize_put p.db.index key pos
  show p.db.reclaimSize + (Indexer.put p.db.index key pos).1.elim 0 (fun old => (old.size : ℤ)) +
    Indexer.totalSize (Indexer.put p.db.index key pos).2 = p.db.accounted + (pos.size : ℤ)
  rw [Indexer.put_fst, Indexer.elim_size, DB.accounted]
  omega

theorem indexRemove_adds (key : Bytes) (p : Proc ι) (hp : p.Unfailing) :
    ∃ q, (indexRemove key : DBM ι Bool).run p = .ok (Indexer.get p.db.index key).isSome q ∧
      q.Unfailing ∧ q.db.accounted = p.db.accounted := by
  have htotal := Indexer.totalSize_remove p.db.index key
  refine ⟨_, indexRemove_eq p key, ⟨hp.active, hp.outcomes⟩, ?_⟩
  show p.db.reclaimSize + (Indexer.get p.db.index key).elim 0 (fun old => (old.size : ℤ)) +
    Indexer.totalSize (Indexer.remove p.db.index key).2 = p.db.accounted
  rw [Indexer.elim_size, DB.accounted]
  omega

theorem addReclaimSize_adds (n : ℕ) :
    Adds (modifyDB fun db : DB ι => { db with reclaimSize := db.reclaimSize + n })
      (fun _ => True) n := by
  intro p hp
  refine ⟨(), _, rfl, ⟨hp.active, hp.outcomes⟩, trivial, ?_⟩
  show p.db.reclaimSize + n + Indexer.totalSize p.db.index = p.db.accounted + (n : ℤ)
  rw [DB.accounted]
  omega

theorem dataSize_cons {record : LogRecord} (h : record.type = .normal ∨ record.type = .deleted)
    (records : List LogRecord) :
    dataSize (record :: records) = record.encode.length + dataSize records := by
  rw [dataSize, List.filter_cons_of_pos (by simpa using h), List.map_cons, List.sum_cons]
  rfl

theorem dataSize_append (as bs : List LogRecord) :
    dataSize (as ++ bs) = dataSize as + dataSize bs := by
  simp [dataSize, List.filter_append]

theorem put_adds {key value : Bytes} (hkey : key ≠ [])
    (hsize : (⟨key, value, .normal⟩ : LogRecord).encode.length < 2 ^ 32) :
    Adds (DB.put key value : DBM ι Unit) (fun _ => True) (dataSize [⟨key, value, .normal⟩]) := by
  have hkeyWithSeq : logRecordKeyWithSeq key nonTransactionSeqNo = key := if_pos rfl
  rw [DB.put, if_neg hkey, hkeyWithSeq, dataSize_cons (.inl rfl), Nat.add_comm]
  refine (appendLogRecordInternal_adds _).bind fun pos hpos => ?_
  have hput := indexPut_adds (ι := ι) key pos
  rwa [hpos, Nat.mod_eq_of_lt hsize] at hput

theorem remove_adds {key : Bytes} (hkey : key ≠ []) (p : Proc ι) (hp : p.Unfailing)
    (hsize : Indexer.get p.db.index key ≠ none →
      ({ key := key, type := .deleted } : LogRecord).encode.length < 2 ^ 32) :
    ∃ q, (DB.remove key : DBM ι Unit).run p = .ok () q ∧ q.Unfailing ∧
      q.db.accounted = p.db.accounted + dataSize
        (if Indexer.get p.db.index key = none then [] else [{ key := key, type := .deleted }]) := by
  have hkeyWithSeq : logRecordKeyWithSeq key nonTransactionSeqNo = key := if_pos rfl
  rw [DB.remove, if_neg hkey]
  show ∃ q, (proc >>= fun _ => _).run p = _ ∧ _
  rw [bind_ok (proc_run p), hkeyWithSeq]
  rcases hget : Indexer.get p.db.index key with _ | old
  · exact ⟨p, rfl, hp, (Int.add_zero _).symm⟩
  · replace hsize := hsize (by simp [hget])
    obtain ⟨pos, q, hrun, hq, hpos, hadd⟩ :=
      appendLogRecordInternal_adds (ι := ι) { key := key, type := .deleted } p hp
    have hindex := SameIndex.appendLogRecordInternal { key := key, type := .deleted } p
    rw [hrun, finalState_ok] at hindex
    obtain ⟨⟨⟩, r, hrun', hr, -, hadd'⟩ := addReclaimSize_adds pos.size q hq
    cases (modifyDB_run _ q).symm.trans hrun'
    obtain ⟨t, hrun'', ht, hadd''⟩ := indexRemove_adds key _ hr
    rw [show Indexer.get q.db.index key = some old from hindex.index ▸ hget] at hrun''
    refine ⟨t, ?_, ht, ?_⟩
    · show (appendLogRecordInternal _ >>= fun _ => _).run p = _
      rw [bind_ok hrun, bind_ok hrun', bind_ok hrun'']
      rfl
    · rw [hadd'', hadd', hadd, hpos, Nat.mod_eq_of_lt hsize, if_neg (by simp),
        dataSize_cons (.inr rfl)]
      simp [dataSize]

theorem appendAll_adds (seqNo : ℕ) (records : List LogRecord) :
    Adds (WriteBatch.appendAll seqNo records : DBM ι _) (fun positions =>
      positions.map LogRecordPos.size =
        records.map fun r => (WriteBatch.withSeq seqNo r).encode.length % 2 ^ 32) 0 := by
  induction records with
  | nil => exact .pure rfl
  | cons record records ih =>
    rw [WriteBatch.appendAll]
    show Adds _ _ (0 + (0 + 0))
    refine (appendLogRecordInternal_adds _).bind fun pos hpos => ?_
    refine ih.bind fun positions h => .pure ?_
    rw [List.map_cons, List.map_cons, hpos, h]

theorem updateIndex_adds {record : LogRecord} (h : record.IsWrite) (pos : LogRecordPos) :
    Adds (WriteBatch.updateIndex record pos : DBM ι Unit) (fun _ => True) pos.size := by
  rw [WriteBatch.updateIndex]
  rcases h.type_eq with htype | htype
  · rw [htype, if_pos rfl]
    exact indexPut_adds _ pos
  · rw [htype, if_neg (by decide), if_pos rfl]
    intro p hp
    obtain ⟨q, hrun, hq, hadd⟩ := indexRemove_adds record.key p hp
    obtain ⟨⟨⟩, r, hrun', hr, -, hadd'⟩ := addReclaimSize_adds pos.size q hq
    exact ⟨(), r, by rw [bind_ok hrun, hrun'], hr, trivial, by rw [hadd', hadd]⟩

theorem updateIndexes_adds {items : List (LogRecord × LogRecordPos)}
    (h : ∀ x ∈ items, x.1.IsWrite) :
    Adds (WriteBatch.updateIndexes items : DBM ι Unit) (fun _ => True)
      (items.map fun x => x.2.size).sum := by
  induction items with
  | nil => exact .pure trivial
  | cons x items ih =>
    rw [List.forall_mem_cons] at h
    exact (updateIndex_adds h.1 x.2).bind fun _ _ => ih h.2

omit [Indexer ι] in
theorem dataSize_records (batch : WriteBatch) : dataSize batch.records =
    (batch.pendingWrites.map fun r => (WriteBatch.withSeq batch.seqNo r).encode.length).sum := by
  have hwrites : ∀ records : List LogRecord, (∀ r ∈ records, r.IsWrite) →
      dataSize (records.map (WriteBatch.withSeq batch.seqNo)) =
        (records.map fun r => (WriteBatch.withSeq batch.seqNo r).encode.length).sum := by
    intro records h
    induction records with
    | nil => rfl
    | cons record records ih =>
      rw [List.forall_mem_cons] at h
      have htype : (WriteBatch.withSeq batch.seqNo record).type = .normal ∨
          (WriteBatch.withSeq batch.seqNo record).type = .deleted := h.1.type_eq
      rw [List.map_cons, dataSize_cons htype, ih h.2, List.map_cons, List.sum_cons]
  have hfin : dataSize [WriteBatch.txnFinRecord batch.seqNo] = 0 := rfl
  rw [WriteBatch.records, dataSize_append, hwrites _ batch.isWrite, hfin, Nat.add_zero]

theorem commit_adds {batch : WriteBatch} (hpending : batch.pendingWrites ≠ [])
    (hsize : ∀ r ∈ batch.records, r.encode.length < 2 ^ 32) :
    Adds (batch.commit : DBM ι WriteBatch) (fun _ => True) (dataSize batch.records) := by
  have hmod : (batch.pendingWrites.map fun r =>
      (WriteBatch.withSeq batch.seqNo r).encode.length % 2 ^ 32) =
      batch.pendingWrites.map fun r => (WriteBatch.withSeq batch.seqNo r).encode.length := by
    refine List.map_congr_left fun r hr => Nat.mod_eq_of_lt (hsize _ ?_)
    exact List.mem_append_left _ (List.mem_map_of_mem hr)
  rw [WriteBatch.commit, if_neg hpending, ← Nat.zero_add (dataSize _), ← Nat.zero_add (dataSize _)]
  refine (appendAll_adds _ _).bind fun positions hpos => ?_
  refine (appendLogRecordInternal_adds _).bind fun _ _ => ?_
  rw [hmod] at hpos
  -- The index is updated with the sizes of the records that have been appended.
  have hlen : positions.length = batch.pendingWrites.length := by
    simpa using congrArg List.length hpos
  have hsum : dataSize batch.records =
      ((batch.pendingWrites.zip positions).map fun x => x.2.size).sum + 0 := by
    have hzip := congrArg (List.map LogRecordPos.size) (List.map_snd_zip hlen.le)
    rw [dataSize_records, ← hpos, ← hzip, List.map_map, Nat.add_zero]
    rfl
  rw [hsum]
  refine (updateIndexes_adds fun x hx => ?_).bind fun _ _ => ?_
  · exact batch.isWrite _ (List.of_mem_zip hx).1
  · exact fun p hp => ⟨_, _, rfl, ⟨hp.active, hp.outcomes⟩, trivial, (Int.add_zero _).symm⟩

namespace Session

variable {s : Session ι}

/-- The records a run appends if no write fails. -/
def appended (s : Session ι) : List Op → List LogRecord
  | [] => []
  | op :: ops => s.appends op ++ appended (s.step op).1 ops

/-- All records a request appends have encodings shorter than `2 ^ 32` bytes. -/
def Sized (s : Session ι) (op : Op) : Prop := ∀ r ∈ s.appends op, r.encode.length < 2 ^ 32

instance (s : Session ι) (op : Op) : Decidable (s.Sized op) :=
  inferInstanceAs (Decidable (∀ r ∈ s.appends op, _))

theorem step_accounted (hs : s.proc.Unfailing) {op : Op} (hsize : s.Sized op) :
    (s.step op).1.proc.Unfailing ∧
      (s.step op).1.proc.db.accounted = s.proc.db.accounted + dataSize (s.appends op) := by
  have hsame : ∀ {s' : Session ι}, s'.proc = s.proc → s'.proc.Unfailing ∧
      s'.proc.db.accounted = s.proc.db.accounted + dataSize [] := by
    intro s' h
    rw [h]
    exact ⟨hs, (Int.add_zero _).symm⟩
  cases op with
  | put key value =>
    rw [step, appends]
    by_cases hkey : key = []
    · rw [request_error (DB.put_nil hkey value s.proc), if_pos hkey]
      exact hsame rfl
    · rw [Sized, appends, if_neg hkey, List.forall_mem_singleton] at hsize
      obtain ⟨⟨⟩, q, hrun, hq, -, hadd⟩ := put_adds hkey hsize s.proc hs
      rw [request_ok hrun, if_neg hkey]
      exact ⟨hq, hadd⟩
  | remove key =>
    rw [step, appends]
    by_cases hkey : key = []
    · rw [request_error (DB.remove_nil hkey s.proc), if_pos (.inl hkey)]
      exact hsame rfl
    · rw [Sized, appends] at hsize
      simp only [hkey, false_or] at hsize ⊢
      obtain ⟨q, hrun, hq, hadd⟩ := remove_adds hkey s.proc hs fun hne => by
        rw [if_neg hne, List.forall_mem_singleton] at hsize
        exact hsize
      rw [request_ok hrun]
      exact ⟨hq, hadd⟩
  | newWriteBatch options => exact hsame rfl
  | batchPut i key value => exact hsame (editBatch_proc s i _)
  | batchRemove i key => exact hsame (editBatch_proc s i _)
  | commit i =>
    rw [step, appends, commitBatch]
    rw [Sized, appends] at hsize
    rcases hbatch : s.batches[i]? with _ | batch
    · exact hsame rfl
    · simp only [hbatch] at hsize ⊢
      by_cases hpending : batch.pendingWrites = []
      · rw [WriteBatch.commit_nil hpending, if_pos hpending]
        exact hsame rfl
      · rw [if_neg hpending] at hsize
        obtain ⟨batch', q, hrun, hq, -, hadd⟩ := commit_adds hpending hsize s.proc hs
        rw [hrun, if_neg hpending]
        exact ⟨hq, hadd⟩

/-- In a run without failing calls, what is in the index and what can be reclaimed grow by
    the records appended that put or delete a key. -/
theorem run_accounted (hs : s.proc.Unfailing) {ops : List Op}
    (hsize : Machine.AllSteps step Sized s ops) :
    (run s ops).1.proc.db.accounted = s.proc.db.accounted + dataSize (s.appended ops) := by
  induction ops generalizing s with
  | nil => exact (Int.add_zero _).symm
  | cons op ops ih =>
    obtain ⟨hs', hstep⟩ := step_accounted hs hsize.1
    have hrest := ih hs' hsize.2
    rw [hstep, add_assoc, ← Nat.cast_add, ← dataSize_append] at hrest
    exact hrest

end Session

/-! ## Loading -/

/-- The records that are held back for each transaction, and those that are to be applied to the
    index, once another record has been read. -/
def applies (held : ℕ → List ReadLogRecord) (read : ReadLogRecord) :
    (ℕ → List ReadLogRecord) × List ReadLogRecord :=
  let seqNo := (parseLogRecordKey read.record.key).2
  if seqNo = nonTransactionSeqNo then (held, [read])
  else if read.record.type = .txnFinished then (Function.update held seqNo [], held seqNo)
  else (Function.update held seqNo (held seqNo ++ [read]), [])

/-- Of the records read one after the other, those that are applied to the index. -/
def applied (reads : List ReadLogRecord) : List ReadLogRecord :=
  (Machine.run applies (fun _ => []) reads).2

def readSize (reads : List ReadLogRecord) : ℕ := (reads.map ReadLogRecord.size).sum

omit [Indexer ι] in
theorem readSize_append (as bs : List ReadLogRecord) :
    readSize (as ++ bs) = readSize as + readSize bs := by
  simp [readSize]

omit [Indexer ι] in
/-- The size of a record that is read fits into 32 bits. -/
theorem size_lt_of_readLogRecord {content : Bytes} {offset : ℕ} {read : ReadLogRecord}
    (h : readLogRecord content offset = .ok read) : read.size < 2 ^ 32 := by
  obtain ⟨⟨header, headerSize⟩, hheader, h⟩ := Bitcask.bind_eq_ok.1 h
  obtain ⟨kvBuf, -, h⟩ := Bitcask.bind_eq_ok.1 h
  obtain ⟨-, hdecode, -, hkey, hvalue, -⟩ := readLogRecordHeader_eq_ok_iff.1 hheader
  have hmax : maxRecordSize = 67108864 := rfl
  have hheaderSize : headerSize ≤ maxLogRecordHeaderSize :=
    (decodeLogRecordHeader_bounds hdecode).1.trans (by simp)
  have hmaxHeader : maxLogRecordHeaderSize = 15 := rfl
  simp only at h
  split at h
  · obtain rfl := Except.ok.inj h
    show headerSize + header.keySize + header.valueSize < 2 ^ 32
    omega
  · cases h

omit [Indexer ι] in
theorem size_lt_of_mem_readsFrom {content : Bytes} {fuel offset : ℕ} {x : ℕ × ReadLogRecord}
    (h : x ∈ readsFrom content fuel offset) : x.2.size < 2 ^ 32 :=
  size_lt_of_readLogRecord (readLogRecord_of_mem_readsFrom h)

namespace Loading

/-- A loading state in which some records are held back and others have been applied, to an
    index that was empty at first. -/
structure Accounts (s : Loading ι) (held : ℕ → List ReadLogRecord)
    (applied : List ReadLogRecord) : Prop where
  held : ∀ n, (s.transactionRecords n).map (fun txn => txn.pos.size) =
    (held n).map ReadLogRecord.size
  accounted : s.reclaimSize + Indexer.totalSize s.index = readSize applied

theorem updateIndex_accounted (s : Loading ι) (key : Bytes) (type : LogRecordType)
    (pos : LogRecordPos) :
    (s.updateIndex key type pos).reclaimSize + Indexer.totalSize (s.updateIndex key type pos).index =
      s.reclaimSize + Indexer.totalSize s.index + pos.size := by
  unfold updateIndex
  split
  · have htotal := Indexer.totalSize_remove s.index key
    have hfst := Indexer.remove_fst s.index key
    rcases hr : Indexer.remove s.index key with ⟨⟨oldPos, ok⟩, index⟩
    rw [hr] at htotal hfst
    obtain ⟨rfl, rfl⟩ := Prod.mk.inj hfst
    simp only [Indexer.elim_size] at htotal ⊢
    omega
  · have htotal := Indexer.totalSize_put s.index key pos
    have hfst := Indexer.put_fst s.index key pos
    rcases hr : Indexer.put s.index key pos with ⟨oldPos, index⟩
    rw [hr] at htotal hfst
    obtain rfl : oldPos = _ := hfst
    simp only [Indexer.elim_size] at htotal ⊢
    omega

/-- Applying the records of a transaction one after the other. -/
theorem foldl_accounted (s : Loading ι) (txns : List TransactionRecord) :
    let s' := txns.foldl (fun s txn => s.updateIndex txn.record.key txn.record.type txn.pos) s
    s'.reclaimSize + Indexer.totalSize s'.index = s.reclaimSize + Indexer.totalSize s.index +
      (txns.map fun txn => txn.pos.size).sum := by
  induction txns generalizing s with
  | nil => exact (Int.add_zero _).symm
  | cons txn txns ih =>
    have hadd := ih (s.updateIndex txn.record.key txn.record.type txn.pos)
    rw [updateIndex_accounted] at hadd
    rw [List.foldl_cons, List.map_cons, List.sum_cons, Nat.cast_add, ← add_assoc]
    exact hadd

/-- What is accounted for when another record has been read. -/
theorem Accounts.process {s : Loading ι} {held : ℕ → List ReadLogRecord}
    {applied : List ReadLogRecord} (h : s.Accounts held applied) {read : ReadLogRecord}
    (hsize : read.size < 2 ^ 32) (fid offset : ℕ) :
    (s.process read.record ⟨fid, offset, read.size % 2 ^ 32⟩).Accounts (applies held read).1
      (applied ++ (applies held read).2) := by
  rw [Nat.mod_eq_of_lt hsize]
  unfold Loading.process applies
  rcases parseLogRecordKey read.record.key with ⟨realKey, seqNo⟩
  simp only
  split
  · refine ⟨fun n => ?_, ?_⟩
    · rw [transactionRecords_updateIndex]
      exact h.held n
    · rw [updateIndex_accounted, h.accounted, readSize_append, Nat.cast_add]
      simp [readSize]
  · split
    · -- The records held back for the transaction have the sizes of those that were read.
      refine ⟨fun n => ?_, ?_⟩
      · simp only [finish, foldl_updateIndex, Function.update_apply]
        split
        · rfl
        · exact h.held n
      · have hadd := s.foldl_accounted (s.transactionRecords seqNo)
        rw [h.held, h.accounted] at hadd
        rw [readSize_append, Nat.cast_add]
        exact hadd
    · refine ⟨fun n => ?_, ?_⟩
      · simp only [hold, Function.update_apply]
        split
        · rw [List.map_append, List.map_append, h.held]
          rfl
        · exact h.held n
      · rw [List.append_nil]
        exact h.accounted

theorem Accounts.processReads {s : Loading ι} {held : ℕ → List ReadLogRecord}
    {applied : List ReadLogRecord} (h : s.Accounts held applied) (fid : ℕ)
    {reads : List (ℕ × ReadLogRecord)} (hsize : ∀ x ∈ reads, x.2.size < 2 ^ 32) :
    (s.processReads fid reads).Accounts (Machine.run applies held (reads.map Prod.snd)).1
      (applied ++ (Machine.run applies held (reads.map Prod.snd)).2) := by
  induction reads generalizing s held applied with
  | nil =>
    rw [List.map_nil, Machine.run, List.append_nil]
    exact h
  | cons read reads ih =>
    rw [List.forall_mem_cons] at hsize
    have hreads := ih (h.process hsize.1 fid read.1) hsize.2
    rw [List.map_cons, Machine.run_cons, ← List.append_assoc]
    exact hreads

end Loading

namespace DB

/-- The records that are read from data files, one file after the other. -/
def readsOfFiles (fs : FS) (files : List (ℕ × DataFile)) : List ReadLogRecord :=
  files.flatMap fun x => (readsOf (x.2.content fs)).map Prod.snd

theorem scanFiles_accounts (fs : FS) (files : List (ℕ × DataFile)) (db : DB ι) {s : Loading ι}
    {held : ℕ → List ReadLogRecord} {applied : List ReadLogRecord} (h : s.Accounts held applied) :
    (scanFiles fs files (db, s)).2.Accounts (Machine.run applies held (readsOfFiles fs files)).1
      (applied ++ (Machine.run applies held (readsOfFiles fs files)).2) := by
  induction files generalizing db s held applied with
  | nil =>
    rw [readsOfFiles, List.flatMap_nil, Machine.run, List.append_nil]
    exact h
  | cons x files ih =>
    rcases x with ⟨fid, file⟩
    obtain ⟨off, hscan⟩ := scanFile_eq fid (file.content fs) s
    have hsize : ∀ x ∈ readsOf (file.content fs), x.2.size < 2 ^ 32 :=
      fun x hx => size_lt_of_mem_readsFrom hx
    have hreads := ih (db.setWriteOff fid off) (h.processReads fid hsize)
    rw [scanFiles, hscan, readsOfFiles, List.flatMap_cons, Machine.run_append, ← List.append_assoc]
    exact hreads

/-- Loading data files into an empty index accounts for the records that are applied to it. -/
theorem loadIndexFromDataFiles_accounted {p : Proc ι}
    (hempty : ∀ k, Indexer.get p.db.index k = none) (hreclaim : p.db.reclaimSize = 0) :
    ∃ q, (loadIndexFromDataFiles : DBM ι Unit).run p = .ok () q ∧ q.db.accounted =
      readSize (applied (readsOfFiles q.world.fs p.db.filesToProcess)) := by
  by_cases hnone : p.db.fileIds = [] ∧ p.db.activeFile.isNone
  · have hfiles : p.db.filesToProcess = [] := by
      rw [filesToProcess, unlistedFile, hnone.1, Option.isNone_iff_eq_none.1 hnone.2]
      rfl
    have hrun : (loadIndexFromDataFiles : DBM ι Unit).run p = .ok () p := by
      rw [loadIndexFromDataFiles, bind_ok (proc_run p), if_pos hnone]
      rfl
    refine ⟨p, hrun, ?_⟩
    rw [hfiles, DB.accounted, hreclaim, Indexer.totalSize_of_empty hempty]
    rfl
  · have hrun := loadIndexFromDataFiles_run p hnone
    refine ⟨_, hrun, ?_⟩
    -- A new index is built, which is empty.
    have hstart : Loading.Accounts (ι := ι)
        { index := Indexer.create p.world.seeds, reclaimSize := p.db.reclaimSize }
        (fun _ => []) [] := by
      refine ⟨fun _ => rfl, ?_⟩
      rw [hreclaim, Indexer.totalSize_of_empty (Indexer.get_create _)]
      rfl
    exact (scanFiles_accounts _ p.db.filesToProcess p.db hstart).accounted

end DB

namespace Session

/-- On a new database, and after loading data files, the sizes in the index and `reclaimSize`
    make up all records that put or delete a key. -/
theorem accounted_exact :
    (∀ (options : Options) (w w' : World) (db : DB ι) (ops : List Op), Fresh options w →
      (∀ c, w.outcomes c = []) → (DB.open options : Sys (DB ι)).run w = .ok db w' →
      Machine.AllSteps step Sized ⟨⟨db, w'⟩, []⟩ ops →
      (run ⟨⟨db, w'⟩, []⟩ ops).1.proc.db.accounted =
        dataSize (appended ⟨⟨db, w'⟩, []⟩ ops)) ∧
    ∀ p : Proc ι, (∀ k, Indexer.get p.db.index k = none) → p.db.reclaimSize = 0 →
      ∃ q, (DB.loadIndexFromDataFiles : DBM ι Unit).run p = .ok () q ∧ q.db.accounted =
        readSize (applied (DB.readsOfFiles q.world.fs p.db.filesToProcess)) := by
  refine ⟨fun options w w' db ops hfresh hio hopen hsize => ?_, fun p hempty hreclaim =>
    DB.loadIndexFromDataFiles_accounted hempty hreclaim⟩
  obtain ⟨db', w'', hopen', hopened, hreclaim⟩ := hfresh.open_run (ι := ι)
  cases hopen.symm.trans hopen'
  obtain ⟨_, _, hopen'', hmade⟩ := hfresh.open (ι := ι)
  cases hopen.symm.trans hopen''
  have hstart : Proc.Unfailing ⟨db, w'⟩ := by
    refine ⟨?_, fun c => by rw [hmade.outcomes, hio]⟩
    rw [hmade.stored.active]
    rfl
  have hzero : db.accounted = 0 := by
    rw [DB.accounted, hreclaim, Indexer.totalSize_of_empty hmade.index]
    rfl
  rw [run_accounted hstart hsize, hzero, zero_add]

/-- Putting a key, putting it again and removing it. -/
def putPutRemove : List Op := [.put [97] [49], .put [97] [50], .remove [97]]

theorem accounted_putPutRemove :
    (∃ (db : DB BTreeIndex) (w' : World),
      (DB.open ⟨['d'], 100, false⟩ : Sys (DB BTreeIndex)).run { fs := ∅ } = .ok db w' ∧
      (run ⟨⟨db, w'⟩, []⟩ putPutRemove).1.proc.db.accounted =
        dataSize (appended ⟨⟨db, w'⟩, []⟩ putPutRemove)) ∧
    ∃ q, (DB.loadIndexFromDataFiles : DBM BTreeIndex Unit).run
        (DB.aboutToLoad ['d'] [(0, encodeAll [putRecord])]) = .ok () q ∧ q.db.accounted =
      readSize (applied (DB.readsOfFiles q.world.fs
        (DB.aboutToLoad ['d'] [(0, encodeAll [putRecord])]).db.filesToProcess)) := by
  obtain ⟨hrun, hload⟩ := accounted_exact (ι := BTreeIndex)
  have hfresh : Fresh ⟨['d'], 100, false⟩ { fs := ∅ } := fresh_empty (by decide) false
  obtain ⟨db, w', hopen, -⟩ := hfresh.open (ι := BTreeIndex)
  have hsteps : (match (DB.open ⟨['d'], 100, false⟩ : Sys (DB BTreeIndex)).run { fs := ∅ } with
      | .ok db w' => decide (Machine.AllSteps step Sized ⟨⟨db, w'⟩, []⟩ putPutRemove)
      | .error _ _ => false) = true := by decide +kernel
  rw [hopen] at hsteps
  exact ⟨⟨db, w', hopen, hrun _ _ _ _ _ hfresh (fun _ => rfl) hopen (of_decide_eq_true hsteps)⟩,
    hload _ (fun _ => rfl) rfl⟩

end Session

end Bitcask
