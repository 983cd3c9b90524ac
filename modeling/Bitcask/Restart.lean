import Bitcask.ReadYourWrites

/-!
# Closing and opening again gives the same values

The index is what replaying the data file gives as long as every stored key
parses to the key and the sequence number it stands for, and as long as a batch
that is committed writes every key that a failed commit has left behind under
its sequence number.

* `Session.get_reopen`: then closing and opening a database gives the same
  values, if all writes succeed;
* `Session.get_reopen_of_failing`: and also if writes may fail.

A key of eight bytes or more that is put plainly is lost if its last eight bytes
are not all zero (`Session.not_forall_get_reopen`); a batch that was not committed
becomes visible with the next one of the same sequence number
(`Session.not_forall_get_reopen_of_failing`).
-/

namespace Bitcask

open Framing Transaction DataFile

variable {ι : Type} [Indexer ι]

/-! ## Stored keys -/

/-- Readable records are told by their encodings. -/
theorem encodeAll_injective {as bs : List LogRecord} (has : ∀ r ∈ as, r.Readable)
    (hbs : ∀ r ∈ bs, r.Readable) {s t : Bytes} (h : encodeAll as ++ s = encodeAll bs ++ t)
    (hlen : (encodeAll as).length = (encodeAll bs).length) : as = bs := by
  induction as generalizing bs with
  | nil =>
    have := length_le_length_encodeAll bs
    rw [← hlen] at this
    exact (List.length_eq_zero_iff.1 (Nat.le_zero.1 this)).symm
  | cons a as ih =>
    cases bs with
    | nil =>
      have := length_le_length_encodeAll (a :: as)
      rw [hlen] at this
      simp at this
    | cons b bs =>
      rw [List.forall_mem_cons] at has hbs
      rw [encodeAll_cons, encodeAll_cons, List.append_assoc, List.append_assoc] at h
      have hread {r : LogRecord} (hr : r.Readable) (rest : Bytes) :
          readLogRecord (r.encode ++ rest) 0 = .ok ⟨r, r.encode.length⟩ :=
        readLogRecord_encode hr List.drop_zero
      have ha := hread has.1 (encodeAll as ++ s)
      rw [h, hread hbs.1] at ha
      obtain rfl : b = a := congrArg ReadLogRecord.record (Except.ok.inj ha)
      rw [ih has.2 hbs.2 (List.append_cancel_left h) (by simpa using hlen)]

theorem entryOf_plain {record : LogRecord} (pos : LogRecordPos)
    (h : parseLogRecordKey record.key = (record.key, nonTransactionSeqNo)) :
    entryOf record pos = .plain record.key (written? record.type pos) := by
  rw [entryOf, h]
  exact if_pos rfl

theorem entryOf_withSeq {record : LogRecord} (hr : record.IsWrite) {seqNo : ℕ} (h0 : seqNo ≠ nonTransactionSeqNo)
    (hlt : seqNo < seqNoBound) (pos : LogRecordPos) :
    entryOf (WriteBatch.withSeq seqNo record) pos =
      .part seqNo record.key (written? record.type pos) := by
  have htype : record.type ≠ .txnFinished := by
    rcases hr.type_eq with h | h <;> rw [h] <;> decide
  rw [entryOf, WriteBatch.withSeq]
  simp only [parseLogRecordKey_withSeq h0 hlt]
  rw [if_neg h0, if_neg htype]

theorem entryOf_txnFinRecord {seqNo : ℕ} (h0 : seqNo ≠ nonTransactionSeqNo) (hlt : seqNo < seqNoBound)
    (pos : LogRecordPos) : entryOf (WriteBatch.txnFinRecord seqNo) pos = .finish seqNo := by
  rw [entryOf, WriteBatch.txnFinRecord]
  simp only [parseLogRecordKey_withSeq h0 hlt]
  rw [if_neg h0, if_pos trivial]

/-! ## Replaying what is appended -/

theorem fileEntries_append (fid : ℕ) (records appended : List LogRecord) :
    fileEntries fid (records ++ appended) = fileEntries fid records ++
      (layout recordSize (encodeAll records).length appended).map
        fun x => entryOf x.2 (posOf fid x) := by
  rw [fileEntries, offsets, layout_append, List.map_append, Nat.zero_add, length_encodeAll]
  rfl

/-- The records of a batch are parts of a transaction. -/
theorem map_entryOf_withSeq {items : List LogRecord} (hitems : ∀ r ∈ items, r.IsWrite) {seqNo : ℕ}
    (h0 : seqNo ≠ nonTransactionSeqNo) (hlt : seqNo < seqNoBound) (offset : ℕ) :
    ((layout recordSize offset (items.map (WriteBatch.withSeq seqNo))).map
        fun x => entryOf x.2 (posOf 0 x)) =
      (indexWrites seqNo offset items).map fun w => .part seqNo w.1 w.2 := by
  unfold indexWrites writeLayout
  induction items generalizing offset with
  | nil => rfl
  | cons r items ih =>
    rw [List.forall_mem_cons] at hitems
    simp only [List.map_cons, layout_cons, entryOf_withSeq hitems.1 h0 hlt, ih hitems.2]
    rfl

theorem map_fst_indexWrites (seqNo offset : ℕ) (items : List LogRecord) :
    (indexWrites seqNo offset items).map Prod.fst = items.map LogRecord.key := by
  unfold indexWrites writeLayout
  induction items generalizing offset with
  | nil => rfl
  | cons r items ih => simp only [layout_cons, List.map_cons, ih]

/-! ## Sequence numbers -/

theorem WriteBatch.seqNo_commit {batch batch' : WriteBatch} {p q : Proc ι}
    (h : batch.commit.run p = .ok batch' q) : batch'.seqNo = batch.seqNo := by
  rw [commit] at h
  split at h
  · cases h
    rfl
  · obtain ⟨_, _, -, h⟩ := Guarantee.bind_eq_ok h
    obtain ⟨_, _, -, h⟩ := Guarantee.bind_eq_ok h
    obtain ⟨_, _, -, h⟩ := Guarantee.bind_eq_ok h
    obtain ⟨_, _, -, h⟩ := Guarantee.bind_eq_ok h
    cases h
    rfl

theorem WriteBatch.seqNo_add {batch batch' : WriteBatch} {record : LogRecord}
    {htype : record.type = .normal ∨ record.type = .deleted}
    (h : batch.add record htype = .ok batch') : batch'.seqNo = batch.seqNo := by
  unfold add at h
  split at h
  · cases h
  · split at h
    · cases h
    · cases h
      rfl

namespace Session

/-- A batch keeps the sequence number it has got from the database. -/
theorem seqNo_step {s : Session ι} {op : Op} {b : WriteBatch}
    (hb : b ∈ (s.step op).1.batches) :
    ((∃ options, op = .newWriteBatch options) ∧ b.seqNo = (s.proc.db.seqNo + 1) % seqNoBound) ∨
      ∃ b' ∈ s.batches, b.seqNo = b'.seqNo := by
  have hset {i : ℕ} {batch batch' : WriteBatch} (hbatch : s.batches[i]? = some batch)
      (hseqNo : batch'.seqNo = batch.seqNo) (hb : b ∈ s.batches.set i batch') :
      ∃ b' ∈ s.batches, b.seqNo = b'.seqNo := by
    rcases List.mem_or_eq_of_mem_set hb with hb | rfl
    · exact ⟨b, hb, rfl⟩
    · exact ⟨batch, List.mem_of_getElem? hbatch, hseqNo⟩
  have hrequest (m : DBM ι Unit) (writes : List Write) :
      (s.request m writes).1.batches = s.batches := by
    unfold request
    split <;> rfl
  have hedit {i : ℕ} {edit : WriteBatch → Except Exn WriteBatch}
      (hseqNo : ∀ batch batch', edit batch = .ok batch' → batch'.seqNo = batch.seqNo)
      (hb : b ∈ (s.editBatch i edit).batches) : ∃ b' ∈ s.batches, b.seqNo = b'.seqNo := by
    unfold editBatch at hb
    split at hb
    · exact ⟨b, hb, rfl⟩
    · split at hb
      · exact hset ‹_› (hseqNo _ _ ‹_›) hb
      · exact ⟨b, hb, rfl⟩
  -- Only `newWriteBatch` makes a batch; all other requests leave its number.
  cases op with
  | put key value => exact .inr ⟨b, by rwa [step, hrequest] at hb, rfl⟩
  | remove key => exact .inr ⟨b, by rwa [step, hrequest] at hb, rfl⟩
  | newWriteBatch options =>
    rcases List.mem_append.1 hb with hb | hb
    · exact .inr ⟨b, hb, rfl⟩
    · rw [List.mem_singleton.1 hb]
      exact .inl ⟨⟨options, rfl⟩, rfl⟩
  | batchPut i key value => exact .inr (hedit (fun _ _ => WriteBatch.seqNo_add) hb)
  | batchRemove i key => exact .inr (hedit (fun _ _ => WriteBatch.seqNo_add) hb)
  | commit i =>
    rw [step, commitBatch] at hb
    split at hb
    · exact .inr ⟨b, hb, rfl⟩
    · split at hb
      · exact .inr (hset ‹_› (WriteBatch.seqNo_commit ‹_›) hb)
      · exact .inr ⟨b, hb, rfl⟩

/-- The batches have odd sequence numbers, that of the database is even. -/
def OddBatches (s : Session ι) : Prop :=
  s.proc.db.seqNo % 2 = 0 ∧ ∀ b ∈ s.batches, b.seqNo % 2 = 1 ∧ b.seqNo < seqNoBound

theorem oddBatches_step {s : Session ι} {op : Op} {offset : ℕ} {appended : List LogRecord}
    {acks : List Write} (h : s.OddBatches)
    (heffect : Effect s.proc (s.step op).1.proc offset (s.committed op) appended acks) :
    (s.step op).1.OddBatches := by
  obtain ⟨hdb, hbatches⟩ := h
  have hbound : seqNoBound = 2 ^ 64 := rfl
  refine ⟨?_, fun b hb => ?_⟩
  · generalize hc : s.committed op = committed at heffect
    cases heffect with
    | nothing hsame _ => rwa [hsame.seqNo]
    | plain _ _ hseqNo => rwa [hseqNo]
    | batch batch _ _ hseqNo _ =>
      have := hbatches batch (mem_of_committed hc)
      rw [hbound] at hseqNo this
      omega
    | torn _ _ hsame _ => rwa [hsame.seqNo]
  · rcases seqNo_step hb with ⟨-, hseqNo⟩ | ⟨b', hb', hseqNo⟩
    · rw [hbound] at hseqNo ⊢
      omega
    · rw [hseqNo]
      exact hbatches b' hb'

/-! ## The index is what replaying gives -/

/-- What a request appends is replayed as it has changed the index, if keys put
    plainly parse to themselves and a batch writes every key held back under its
    sequence number. -/
theorem replay_step {s : Session ι} {op : Op} {records appended : List LogRecord}
    {acks : List Write}
    (hindex : Indexer.get s.proc.db.index = (replay (fileEntries 0 records)).value)
    (hseqNo : ∀ b, s.committed op = some b →
      b.seqNo ≠ nonTransactionSeqNo ∧ b.seqNo < seqNoBound)
    (hplain : s.committed op = none → ∀ r ∈ appended,
      parseLogRecordKey r.key = (r.key, nonTransactionSeqNo))
    (hcover : ∀ b, s.committed op = some b → b.pendingWrites ≠ [] →
      s.proc.CanWrite b.records.length →
      ∀ w ∈ (replay (fileEntries 0 records)).pending b.seqNo, ∃ r ∈ b.pendingWrites, r.key = w.1)
    (heffect : Effect s.proc (s.step op).1.proc (encodeAll records).length (s.committed op)
      appended acks) :
    Indexer.get (s.step op).1.proc.db.index =
        (replay (fileEntries 0 (records ++ appended))).value ∧
      (s.proc.writeOutcomes = [] → ∀ t, (replay (fileEntries 0 records)).pending t = [] →
        (replay (fileEntries 0 (records ++ appended))).pending t = []) := by
  -- What the request has appended is replayed after the rest; the index has changed alike.
  rw [fileEntries_append, replay_append]
  generalize hc : s.committed op = committed at heffect hplain hcover
  cases heffect with
  | nothing hsame _ =>
    rw [hsame.index]
    exact ⟨hindex, fun _ _ hnil => hnil⟩
  | @plain record hr hput _ =>
    rw [hput, hindex]
    have hentry := entryOf_plain (posOf 0 ((encodeAll records).length, record))
      (hplain rfl record List.mem_cons_self)
    simp only [layout_cons, layout_nil, List.map_cons, List.map_nil, List.foldl_cons,
      List.foldl_nil, hentry]
    exact ⟨rfl, fun _ _ hnil => hnil⟩
  | batch batch hpending hput _ hcan =>
    obtain ⟨h0, hlt⟩ := hseqNo batch hc
    have hmarker := entryOf_txnFinRecord h0 hlt
    have hentries : (layout recordSize (encodeAll records).length batch.records).map
        (fun x => entryOf x.2 (posOf 0 x)) =
        (indexWrites batch.seqNo (encodeAll records).length batch.pendingWrites).map
          (fun w => .part batch.seqNo w.1 w.2) ++ [.finish batch.seqNo] := by
      rw [WriteBatch.records, layout_append, List.map_append,
        map_entryOf_withSeq batch.isWrite h0 hlt]
      simp [hmarker]
    -- The end of the transaction also applies what was held back before. The batch
    -- writes all of its keys again, so nothing of it is left to be seen.
    rw [hentries, foldl_transaction]
    · rw [hput, hindex]
      refine ⟨rfl, fun _ t hnil => ?_⟩
      simp only [Function.update_apply]
      split
      · rfl
      · exact hnil
    · intro w hw
      obtain ⟨r, hr, hkey⟩ := hcover batch rfl hpending hcan w hw
      have hmem : r.key ∈
          (indexWrites batch.seqNo (encodeAll records).length batch.pendingWrites).map Prod.fst := by
        rw [map_fst_indexWrites]
        exact List.mem_map_of_mem hr
      obtain ⟨v, hv, hvkey⟩ := List.mem_map.1 hmem
      exact ⟨v, hv, hvkey.trans hkey⟩
  | torn batch n hsame hcan =>
    obtain ⟨h0, hlt⟩ := hseqNo batch hc
    rw [map_entryOf_withSeq (fun r hr => batch.isWrite r (List.mem_of_mem_take hr)) h0 hlt,
      foldl_part, hsame.index]
    exact ⟨hindex, fun hnil => absurd (canWrite_of_nil hnil _) hcan⟩

/-- The index is what replaying the records gives. -/
structure Replays (s : Session ι) (records : List LogRecord) : Prop where
  readable : ∀ r ∈ records, r.Readable
  index : Indexer.get s.proc.db.index = (replay (fileEntries 0 records)).value
  oddBatches : s.OddBatches

/-- Requests let the index be what replaying gives. -/
theorem replays_step {s : Session ι} {op : Op} {records appended : List LogRecord}
    {acks : List Write} (h : s.Replays records) (hread : ∀ r ∈ appended, r.Readable)
    (hplain : s.committed op = none → ∀ r ∈ appended,
      parseLogRecordKey r.key = (r.key, nonTransactionSeqNo))
    (hcover : ∀ b, s.committed op = some b → b.pendingWrites ≠ [] →
      s.proc.CanWrite b.records.length →
      ∀ w ∈ (replay (fileEntries 0 records)).pending b.seqNo, ∃ r ∈ b.pendingWrites, r.key = w.1)
    (heffect : Effect s.proc (s.step op).1.proc (encodeAll records).length (s.committed op)
      appended acks) :
    (s.step op).1.Replays (records ++ appended) ∧
      (s.proc.writeOutcomes = [] → (∀ t, (replay (fileEntries 0 records)).pending t = []) →
        ∀ t, (replay (fileEntries 0 (records ++ appended))).pending t = []) := by
  have hseqNo (b : WriteBatch) (hb : s.committed op = some b) :
      b.seqNo ≠ nonTransactionSeqNo ∧ b.seqNo < seqNoBound := by
    have := h.oddBatches.2 b (mem_of_committed hb)
    refine ⟨?_, this.2⟩
    rw [nonTransactionSeqNo]
    omega
  obtain ⟨hindex, hpending⟩ := replay_step h.index hseqNo hplain hcover heffect
  exact ⟨⟨List.forall_mem_append.2 ⟨h.readable, hread⟩, hindex,
    oddBatches_step h.oddBatches heffect⟩, fun hnil hall t => hpending hnil t (hall t)⟩

end Session

/-! ## Values read through positions -/

/-- A value that replaying gives is the position of a record that puts it. -/
theorem exists_of_replay_value {fid : ℕ} {records : List LogRecord} {key : Bytes}
    {pos : LogRecordPos} (h : (replay (fileEntries fid records)).value key = some pos) :
    ∃ x ∈ offsets records, pos = posOf fid x ∧ x.2.type ≠ .deleted := by
  obtain ⟨e, he, hwrite⟩ := mem_of_replay_value h
  obtain ⟨x, hx, rfl⟩ := List.mem_map.1 he
  have hwritten := eq_written?_of_entryOf hwrite
  unfold written? at hwritten
  split at hwritten
  · cases hwritten
  · exact ⟨x, hx, Option.some.inj hwritten, ‹_›⟩

/-- Databases that hold the same records and map keys to the same positions, which
    replaying gives, read the same values. -/
theorem Stored.get_eq {p q : Proc ι} {records : List LogRecord} {zeros zeros' : ℕ}
    (hp : Stored p records zeros) (hq : Stored q records zeros')
    (hrecords : ∀ r ∈ records, r.Readable)
    (hpindex : Indexer.get p.db.index = (replay (fileEntries 0 records)).value)
    (hqindex : Indexer.get q.db.index = (replay (fileEntries 0 records)).value) (key : Bytes) :
    DB.get q.db q.world.fs key = DB.get p.db p.world.fs key := by
  unfold DB.get
  rw [hpindex, hqindex]
  split
  · rfl
  · split
    · rfl
    · obtain ⟨x, hx, rfl, -⟩ := exists_of_replay_value ‹_›
      have hr := hrecords _ (mem_of_mem_layout hx)
      rw [hp.getValueByPosition_eq hx hr, hq.getValueByPosition_eq hx hr]

omit [Indexer ι] in
/-- A file holds the records of one list. -/
theorem Stored.eq {p : Proc ι} {records records' : List LogRecord} {zeros zeros' : ℕ}
    (h : Stored p records zeros) (hrecords : ∀ r ∈ records, r.Readable)
    (h' : Stored p records' zeros') (hrecords' : ∀ r ∈ records', r.Readable) :
    records = records' := by
  refine encodeAll_injective hrecords hrecords' (Option.some.inj (h.content.symm.trans h'.content)) ?_
  have hactive := h.active.symm.trans h'.active
  exact congrArg DataFile.writeOff (Option.some.inj hactive)

/-! ## Reopening -/

/-- Closing a database and opening it again gives the same values. -/
def Proc.SameWhenReopened (p : Proc ι) : Prop :=
  ∃ q, (DB.close : DBM ι Unit).run p = .ok () q ∧
    ∃ (db : DB ι) (w : World), (DB.open p.db.options : Sys (DB ι)).run q.world = .ok db w ∧
      ∀ key, DB.get db w.fs key = DB.get p.db p.world.fs key

/-- The zeros behind the records of a file that is loaded. -/
theorem loadingContent_zeros (options : Options) (records : List LogRecord) {zeros : ℕ}
    (h5 : zeros ≠ 5) (h6 : zeros ≠ 6) :
    ∃ zeros' ≠ 5, zeros' ≠ 6 ∧
      DB.loadingContent options (encodeAll records ++ List.replicate zeros 0) =
        encodeAll records ++ List.replicate zeros' 0 := by
  unfold DB.loadingContent
  split
  · obtain ⟨hrecords, -⟩ := List.append_eq_nil_iff.1 (‹_ ∧ _›).2
    exact ⟨pageSize, by decide, by decide, by rw [hrecords, List.nil_append]⟩
  · exact ⟨zeros, h5, h6, rfl⟩

theorem Session.Replays.sameWhenReopened {s : Session ι} {records : List LogRecord} {zeros : ℕ}
    (h : s.Replays records) (hstored : Stored s.proc records zeros) (hfirst : OnlyFirst s.proc)
    (h5 : zeros ≠ 5) (h6 : zeros ≠ 6) : s.proc.SameWhenReopened := by
  obtain ⟨q, hclose, db, w, hopen, hopened, -⟩ := hstored.reopen hfirst
  obtain ⟨zeros', h5', h6', hcontent⟩ :=
    loadingContent_zeros s.proc.db.options records h5 h6
  rw [hcontent] at hopened
  obtain ⟨hstored', hindex, -⟩ := hopened.replayed h.readable h5' h6'
  exact ⟨q, hclose, db, w, hopen, hstored.get_eq hstored' h.readable h.index hindex⟩

/-- Whether a key is read otherwise after the database has been closed and opened again. -/
def Proc.readsOtherwise (p : Proc ι) (key : Bytes) : Bool :=
  match (DB.close : DBM ι Unit).run p with
  | .ok _ q =>
    match (DB.open p.db.options : Sys (DB ι)).run q.world with
    | .ok db w => DB.get db w.fs key ≠ DB.get p.db p.world.fs key
    | .error _ _ => true
  | .error _ _ => true

theorem Proc.not_sameWhenReopened {p : Proc ι} {key : Bytes} (h : p.readsOtherwise key = true) :
    ¬p.SameWhenReopened := by
  rintro ⟨q, hclose, db, w, hopen, hget⟩
  unfold readsOtherwise at h
  rw [hclose] at h
  simp only [hopen, hget key, ne_eq, not_true_eq_false, decide_false, Bool.false_eq_true] at h

namespace Session

/-! ## Runs -/

/-- No key is put or removed plainly that stands, when it is read back, for a part of
    a transaction: its last eight bytes, if it has so many, are zero. -/
def PlainKeys (s : Session ι) (op : Op) : Prop :=
  s.committed op = none → ∀ r ∈ s.appends op,
    parseLogRecordKey r.key = (r.key, nonTransactionSeqNo)

instance (s : Session ι) (op : Op) : Decidable (s.PlainKeys op) :=
  inferInstanceAs (Decidable (_ → _))

/-- A batch that is about to be committed writes every key of which the log holds back
    a write under the sequence number of the batch, left by a commit that failed. -/
def Covers (s : Session ι) (op : Op) : Prop :=
  ∀ b, s.committed op = some b → b.pendingWrites ≠ [] → s.proc.CanWrite b.records.length →
    ∃ records zeros, Stored s.proc records zeros ∧ (∀ r ∈ records, r.Readable) ∧
      ∀ i key v, Held (fileEntries 0 records) b.seqNo i key v → ∃ r ∈ b.pendingWrites, r.key = key

theorem replays_of_made {options : Options} {w w' : World} {db : DB ι}
    (h : Made options w db w') : (⟨⟨db, w'⟩, []⟩ : Session ι).Replays [] :=
  ⟨nofun, funext h.index, by rw [h.seqNo]; decide, nofun⟩

/-- In a run on a new database in which all writes succeed, no record is rotated, no
    stored key or value exceeds 64 MiB and no key put or removed plainly stands for
    another one, closing and opening the database gives the same values. -/
theorem get_reopen {options : Options} {w : World} (hfresh : Fresh options w)
    (hio : ∀ c, w.outcomes c = []) :
    ∃ (db : DB ι) (w' : World), (DB.open options : Sys (DB ι)).run w = .ok db w' ∧
      ∀ ops, Machine.AllSteps step
          (fun s op => s.FitsFile false op ∧ s.SmallEnough op ∧ s.PlainKeys op)
          ⟨⟨db, w'⟩, []⟩ ops →
        (run ⟨⟨db, w'⟩, []⟩ ops).1.proc.SameWhenReopened := by
  obtain ⟨db, w', hopen, hmade⟩ := hfresh.open (ι := ι)
  refine ⟨db, w', hopen, fun ops hops => ?_⟩
  have hnone (c : Call) : w'.outcomes c = [] := by rw [hmade.outcomes, hio]
  let J (s : Session ι) (records : List LogRecord) (_ : List Write) : Prop :=
    s.Replays records ∧ ∀ t, (replay (fileEntries 0 records)).pending t = []
  have hstart : Keeps false ⟨db, w'⟩ 0 J ⟨⟨db, w'⟩, []⟩ [] :=
    ⟨[], 0, Nat.le_refl _, ⟨hmade.stored, .refl _, hnone _, by simp [Proc.writeOutcomes, hnone]⟩,
      replays_of_made hmade, fun _ => rfl⟩
  obtain ⟨records, zeros, hzeros, hs, hreplays, -⟩ := run_keeps (fun _ _ hC => hC.1)
    (fun s op records _ appended acks hs hJ hC hpre heffect => by
      obtain ⟨hreplays, hnil⟩ := hJ
      obtain ⟨hnext, hpending⟩ := replays_step hreplays (heffect.readable hC.2.1 hpre)
        (fun hc r hr => hC.2.2 hc r (hpre.subset hr))
        (fun b _ _ _ w hw => by rw [hnil] at hw; cases hw) heffect
      exact ⟨hnext, hpending (hs.rest.writes_nil (hnone _)) hnil⟩) hstart hops
  exact hreplays.sameWhenReopened hs.stored ((hmade.onlyFirst (hio _)).of_sameRest hs.rest)
    (by omega) (by omega)

/-- A key put and another one removed by a batch are so after the database has been
    opened again. -/
theorem get_reopen_replaceAndRemove :
    ∃ (db : DB BTreeIndex) (w' : World),
      (DB.open ⟨['d'], 100, false⟩ : Sys (DB BTreeIndex)).run { fs := ∅ } = .ok db w' ∧
      (run ⟨⟨db, w'⟩, []⟩ replaceAndRemove).1.proc.SameWhenReopened := by
  obtain ⟨db, w', hopen, h⟩ :=
    get_reopen (ι := BTreeIndex) (fresh_empty (by decide : 100 ≠ 0) false) (fun _ => rfl)
  have hsteps : (match (DB.open ⟨['d'], 100, false⟩ : Sys (DB BTreeIndex)).run { fs := ∅ } with
      | .ok db w' => decide (Machine.AllSteps step
          (fun s op => s.FitsFile false op ∧ s.SmallEnough op ∧ s.PlainKeys op)
          ⟨⟨db, w'⟩, []⟩ replaceAndRemove)
      | .error _ _ => false) = true := by decide +kernel
  rw [hopen] at hsteps
  exact ⟨db, w', hopen, h _ (of_decide_eq_true hsteps)⟩

/-- A key of eight bytes, the last of which is not zero. -/
def longKey : Bytes := [112, 97, 115, 115, 119, 111, 114, 100]

/-- A key of eight bytes that is put is lost. -/
theorem not_forall_get_reopen :
    ¬∀ (options : Options) (w : World), Fresh options w → (∀ c, w.outcomes c = []) →
      ∀ (db : DB BTreeIndex) (w' : World),
        (DB.open options : Sys (DB BTreeIndex)).run w = .ok db w' →
        ∀ ops : List Op, (∀ op ∈ ops, WithinLimits op) →
          Machine.AllSteps step (fun s op => s.FitsFile false op) ⟨⟨db, w'⟩, []⟩ ops →
          (run ⟨⟨db, w'⟩, []⟩ ops).1.proc.SameWhenReopened := by
  intro h
  have hfresh : Fresh ⟨['d'], 100, false⟩ { fs := ∅ } := fresh_empty (by decide) false
  obtain ⟨db, w', hopen, -⟩ := hfresh.open (ι := BTreeIndex)
  have hvalues : (match (DB.open ⟨['d'], 100, false⟩ : Sys (DB BTreeIndex)).run { fs := ∅ } with
      | .ok db w' =>
        let s := (run ⟨⟨db, w'⟩, []⟩ [.put longKey [49]]).1
        decide (Machine.AllSteps step (fun s op => s.FitsFile false op) ⟨⟨db, w'⟩, []⟩
          [.put longKey [49]]) && s.proc.readsOtherwise longKey
      | .error _ _ => false) = true := by decide +kernel
  rw [hopen] at hvalues
  obtain ⟨hfits, hother⟩ := Bool.and_eq_true_iff.1 hvalues
  refine absurd (h _ _ hfresh (fun _ => rfl) db w' hopen [.put longKey [49]] ?_
    (of_decide_eq_true hfits)) (Proc.not_sameWhenReopened hother)
  exact List.forall_mem_singleton.2 ⟨by decide, by decide, by decide⟩

/-- A request that concerns batches only. -/
def OfBatch : Op → Prop
  | .put _ _ | .remove _ => False
  | _ => True

instance : DecidablePred OfBatch
  | .put _ _ | .remove _ => .isFalse id
  | .newWriteBatch _ | .batchPut _ _ _ | .batchRemove _ _ | .commit _ => .isTrue trivial

/-- In a run of batches on a new database in which writes may fail, no record is
    rotated, no stored key or value exceeds 64 MiB and every batch that is committed
    writes the keys that failed commits have left under its sequence number, closing
    and opening the database gives the same values. -/
theorem get_reopen_of_failing {options : Options} {w : World} (hfresh : Fresh options w)
    (hio : ∀ c ≠ .write (getDataFileName options.dirPath 0), w.outcomes c = [])
    (hwrite : ∀ o ∈ w.outcomes (.write (getDataFileName options.dirPath 0)), o = .ok ∨ o = .fail) :
    ∃ (db : DB ι) (w' : World), (DB.open options : Sys (DB ι)).run w = .ok db w' ∧
      ∀ ops, Machine.AllSteps step
          (fun s op => OfBatch op ∧ s.FitsFile false op ∧ s.SmallEnough op ∧ s.Covers op)
          ⟨⟨db, w'⟩, []⟩ ops →
        (run ⟨⟨db, w'⟩, []⟩ ops).1.proc.SameWhenReopened := by
  obtain ⟨db, w', hopen, hmade⟩ := hfresh.open (ι := ι)
  refine ⟨db, w', hopen, fun ops hops => ?_⟩
  have hpath : db.firstPath = getDataFileName options.dirPath 0 := by
    rw [DB.firstPath, hmade.options_eq]
    rfl
  have hstart : Keeps false ⟨db, w'⟩ 0 (fun s records _ => s.Replays records)
      ⟨⟨db, w'⟩, []⟩ [] := by
    refine ⟨[], 0, Nat.le_refl _, ⟨hmade.stored, .refl _, ?_⟩, replays_of_made hmade⟩
    unfold NoShortWrites Proc.writeOutcomes
    rw [hpath, hmade.outcomes, hio _ (by simp)]
    exact ⟨rfl, hwrite⟩
  obtain ⟨records, zeros, hzeros, hs, hreplays⟩ := run_keeps (fun _ _ hC => hC.2.1)
    (fun s op records zeros appended acks hs hreplays hC hpre heffect => by
      obtain ⟨hbatch, -, hsmall, hcovers⟩ := hC
      refine (replays_step hreplays (heffect.readable hsmall hpre) (fun hc r hr => ?_)
        (fun b hb hpending hcan w hw => ?_) heffect).1
      · have hr := hpre.subset hr
        cases op with
        | put | remove => exact hbatch.elim
        | newWriteBatch | batchPut | batchRemove => cases hr
        | commit i =>
          rw [committed] at hc
          rw [appends, hc] at hr
          cases hr
      · obtain ⟨records', zeros', hstored, hrecords, hcover⟩ := hcovers b hb hpending hcan
        obtain rfl := hs.stored.eq hreplays.readable hstored hrecords
        obtain ⟨i, hi⟩ := mem_pending_iff.1 hw
        exact hcover i _ _ hi) hstart hops
  exact hreplays.sameWhenReopened hs.stored ((hmade.onlyFirst (hio _ (by simp [getDataFileName]))).of_sameRest hs.rest)
    (by omega) (by omega)

/-- A world in which the second write to the first data file fails. -/
def secondWriteFails : World where
  fs := ∅
  outcomes c := if c = .write (getDataFileName ['d'] 0) then [.ok, .fail] else []

/-- A batch that is committed twice. -/
def retryBatch : List Op := [.newWriteBatch ⟨10⟩, .batchPut 0 [97] [49], .commit 0, .commit 0]

/-- The batch that could not be committed at first is read back. -/
theorem get_reopen_of_failing_retryBatch :
    ∃ (db : DB BTreeIndex) (w' : World),
      (DB.open ⟨['d'], 100, false⟩ : Sys (DB BTreeIndex)).run secondWriteFails = .ok db w' ∧
      (run ⟨⟨db, w'⟩, []⟩ retryBatch).1.proc.SameWhenReopened := by
  have hempty := fresh_empty (by decide : 100 ≠ 0) false
  have hfresh : Fresh ⟨['d'], 100, false⟩ secondWriteFails := ⟨hempty.valid, hempty.new, fun _ => rfl⟩
  obtain ⟨db, w', hopen, h⟩ := get_reopen_of_failing (ι := BTreeIndex) hfresh
    (fun c hc => if_neg hc) (by simp [secondWriteFails])
  -- The record of the batch that the commit that failed has left.
  let left : List LogRecord := [⟨logRecordKeyWithSeq [97] 1, [49], .normal⟩]
  have hsteps : (match (DB.open ⟨['d'], 100, false⟩ : Sys (DB BTreeIndex)).run secondWriteFails with
      | .ok db w' => decide (Machine.AllSteps step (fun s op =>
          OfBatch op ∧ s.FitsFile false op ∧ s.SmallEnough op ∧ ∀ b ∈ s.committed op,
            s.proc.CanWrite b.records.length → Stored s.proc left 0 ∧
              ∀ w ∈ (replay (fileEntries 0 left)).pending b.seqNo,
                ∃ r ∈ b.pendingWrites, r.key = w.1) ⟨⟨db, w'⟩, []⟩ retryBatch)
      | .error _ _ => false) = true := by decide +kernel
  rw [hopen] at hsteps
  refine ⟨db, w', hopen, h _ ((of_decide_eq_true hsteps).mono fun s op hs => ?_)⟩
  obtain ⟨hbatch, hfits, hsmall, hleft⟩ := hs
  refine ⟨hbatch, hfits, hsmall, fun b hb _ hcan => ?_⟩
  obtain ⟨hstored, hcover⟩ := hleft b hb hcan
  refine ⟨left, 0, hstored, ?_, fun i key v hheld => hcover (key, v) (mem_pending_iff.2 ⟨i, hheld⟩)⟩
  exact List.forall_mem_singleton.2 (LogRecord.readable_of_le (by decide) (by decide) (.inl rfl))

/-- Two batches of the same sequence number. -/
def twoBatches : List Op :=
  [.newWriteBatch ⟨10⟩, .newWriteBatch ⟨10⟩, .batchPut 0 [97] [49], .batchPut 1 [98] [50],
    .commit 0, .commit 1]

/-- The batch that could not be committed is visible after reopening: its record is
    taken for one of the other batch. -/
theorem not_forall_get_reopen_of_failing :
    ¬∀ (options : Options) (w : World), Fresh options w →
      (∀ c ≠ .write (getDataFileName options.dirPath 0), w.outcomes c = []) →
      (∀ o ∈ w.outcomes (.write (getDataFileName options.dirPath 0)), o = .ok ∨ o = .fail) →
      ∀ (db : DB BTreeIndex) (w' : World),
        (DB.open options : Sys (DB BTreeIndex)).run w = .ok db w' →
        ∀ ops : List Op, Machine.AllSteps step
            (fun s op => OfBatch op ∧ s.FitsFile false op ∧ s.SmallEnough op) ⟨⟨db, w'⟩, []⟩ ops →
          (run ⟨⟨db, w'⟩, []⟩ ops).1.proc.SameWhenReopened := by
  intro h
  have hempty := fresh_empty (by decide : 100 ≠ 0) false
  have hfresh : Fresh ⟨['d'], 100, false⟩ secondWriteFails := ⟨hempty.valid, hempty.new, fun _ => rfl⟩
  obtain ⟨db, w', hopen, -⟩ := hfresh.open (ι := BTreeIndex)
  have hvalues : (match (DB.open ⟨['d'], 100, false⟩ : Sys (DB BTreeIndex)).run secondWriteFails with
      | .ok db w' =>
        decide (Machine.AllSteps step (fun s op => OfBatch op ∧ s.FitsFile false op ∧
          s.SmallEnough op) ⟨⟨db, w'⟩, []⟩ twoBatches) &&
          (run ⟨⟨db, w'⟩, []⟩ twoBatches).1.proc.readsOtherwise [97]
      | .error _ _ => false) = true := by decide +kernel
  rw [hopen] at hvalues
  obtain ⟨hsteps, hother⟩ := Bool.and_eq_true_iff.1 hvalues
  exact absurd (h _ _ hfresh (fun c hc => if_neg hc) (by simp [secondWriteFails]) db w' hopen
    twoBatches (of_decide_eq_true hsteps)) (Proc.not_sameWhenReopened hother)

end Session

end Bitcask
