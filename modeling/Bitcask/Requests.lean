import Bitcask.Session
import Bitcask.Writes

/-!
# What requests do

What a request does to a database that keeps its records in the first file is
said once, by `Session.step_performed`: the records it appends, what it does to
the index and which writes it acknowledges, for every way it may end.
-/

namespace Bitcask

open Framing Transaction DataFile DBM Guarantee

variable {ι : Type} [Indexer ι]

/-- What a request, committing a batch or not, may have done to a database: which
    records it has appended behind an offset and which writes it has acknowledged. -/
inductive Effect (p q : Proc ι) (offset : ℕ) :
    Option WriteBatch → List LogRecord → List Write → Prop
  /-- Nothing is appended, and only removals of absent keys are acknowledged. -/
  | nothing {committed : Option WriteBatch} {acks : List Write} (index : SameIndex p q)
      (absent : ∀ w ∈ acks, w.2 = none ∧ Indexer.get p.db.index w.1 = none) :
      Effect p q offset committed [] acks
  /-- A write is stored plainly. -/
  | plain {record : LogRecord} (isWrite : record.IsWrite)
      (index : Indexer.get q.db.index =
        overlay (indexWrites nonTransactionSeqNo offset [record]) (Indexer.get p.db.index))
      (seqNo : q.db.seqNo = p.db.seqNo) :
      Effect p q offset none [record] [record.toWrite]
  /-- A batch is stored, with the end of its transaction. -/
  | batch (batch : WriteBatch) (pending : batch.pendingWrites ≠ [])
      (index : Indexer.get q.db.index =
        overlay (indexWrites batch.seqNo offset batch.pendingWrites) (Indexer.get p.db.index))
      (seqNo : q.db.seqNo = (batch.seqNo + 1) % seqNoBound)
      (canWrite : p.CanWrite batch.records.length) :
      Effect p q offset (some batch) batch.records
        (batch.pendingWrites.map LogRecord.toWrite)
  /-- Some records of a batch are stored before a write fails. -/
  | torn (batch : WriteBatch) (n : ℕ) (index : SameIndex p q)
      (canNotWrite : ¬p.CanWrite batch.records.length) :
      Effect p q offset (some batch)
        ((batch.pendingWrites.take n).map (WriteBatch.withSeq batch.seqNo)) []

/-- How a request has ended that was to commit a batch, or none, to append some
    records and to acknowledge some writes. -/
structure Performed (rotated : Bool) (p : Proc ι) (records : List LogRecord) (zeros : ℕ)
    (committed : Option WriteBatch) (appends : List LogRecord) (requested : List Write)
    (q : Proc ι) (acks : List Write) : Prop where
  exists_appended : ∃ appended, appended <+: appends ∧
    Stored q (records ++ appended) (zeros - (encodeAll appended).length) ∧
    Effect p q (encodeAll records).length committed appended acks
  rest : SameRest rotated p q
  acknowledged : p.writeOutcomes = [] → acks = requested

/-- A key that is absent is not removed. -/
theorem remove_run_of_absent {p : Proc ι} {key : Bytes} (hkey : key ≠ [])
    (habsent : Indexer.get p.db.index key = none) : (DB.remove key).run p = .ok () p := by
  rw [DB.remove, if_neg hkey]
  show (proc >>= fun _ => _).run p = _
  rw [bind_ok (proc_run p), habsent]
  rfl

/-- To remove a key that is there, a record is appended. -/
theorem remove_run_of_present {p : Proc ι} {key : Bytes} (hkey : key ≠ [])
    (hpresent : Indexer.get p.db.index key ≠ none) : (DB.remove key : DBM ι Unit).run p =
      (DB.appendLogRecordInternal { key := key, type := .deleted } >>= fun pos => do
        modifyDB fun db => { db with reclaimSize := db.reclaimSize + pos.size }
        unless ← DB.indexRemove key do throw .indexUpdateFailed : DBM ι Unit).run p := by
  obtain ⟨old, hget⟩ := Option.ne_none_iff_exists'.1 hpresent
  rw [DB.remove, if_neg hkey]
  show (proc >>= fun _ => _).run p = _
  rw [bind_ok (proc_run p), hget]
  rfl

namespace Session

/-- The records a request appends if no write fails. -/
def appends (s : Session ι) : Op → List LogRecord
  | .put key value =>
    if key = [] then [] else [{ key := key, value := value, type := .normal }]
  | .remove key =>
    if key = [] ∨ Indexer.get s.proc.db.index key = none then []
    else [{ key := key, type := .deleted }]
  | .commit i =>
    match s.batches[i]? with
    | none => []
    | some batch => if batch.pendingWrites = [] then [] else batch.records
  | _ => []

/-- The writes a request makes if no write fails. An empty key is refused. -/
def requested (s : Session ι) : Op → List Write
  | .put key value => if key = [] then [] else [(key, some value)]
  | .remove key => if key = [] then [] else [(key, none)]
  | .commit i => (s.batches[i]?.elim [] WriteBatch.pendingWrites).map LogRecord.toWrite
  | _ => []

/-- The batch a request commits. -/
def committed (s : Session ι) : Op → Option WriteBatch
  | .commit i => s.batches[i]?
  | _ => none

variable {s : Session ι} {records : List LogRecord} {zeros : ℕ} {rotated : Bool}

omit [Indexer ι] in
theorem mem_of_committed {op : Op} {batch : WriteBatch} (h : s.committed op = some batch) :
    batch ∈ s.batches := by
  cases op with
  | commit i => exact List.mem_of_getElem? h
  | _ => cases h

omit [Indexer ι] in
theorem request_ok {m : DBM ι Unit} {q : Proc ι} (h : m.run s.proc = .ok () q)
    (writes : List Write) : s.request m writes = ({ s with proc := q }, writes) := by
  rw [request, h]

omit [Indexer ι] in
theorem request_error {m : DBM ι Unit} {e : Exn} {q : Proc ι} (h : m.run s.proc = .error e q)
    (writes : List Write) : s.request m writes = ({ s with proc := q }, []) := by
  rw [request, h]

/-- Requests that do not get to writing anything. -/
theorem performed_nothing (h : Stored s.proc records zeros) {committed : Option WriteBatch}
    {requested acks : List Write} (hack : acks = requested)
    (habsent : ∀ w ∈ acks, w.2 = none ∧ Indexer.get s.proc.db.index w.1 = none) :
    Performed rotated s.proc records zeros committed [] requested s.proc acks :=
  ⟨⟨[], List.prefix_rfl, by simpa using h, .nothing (.refl _) habsent⟩, .refl _, fun _ => hack⟩

/-- Plain writes: a record is appended, then the index is updated for it. -/
theorem performed_plain (hw : NoShortWrites s.proc) {record : LogRecord} (hr : record.IsWrite)
    {m : DBM ι Unit} {f : LogRecordPos → DBM ι Unit}
    (hm : m.run s.proc = (DB.appendLogRecordInternal record >>= f).run s.proc)
    (hf : ∀ pos q, SameIndex s.proc q → ∃ index reclaimSize, (f pos).run q =
        .ok () { q with db := q.db.withIndex index reclaimSize } ∧
      Indexer.get index =
        Function.update (Indexer.get q.db.index) record.key (written? record.type pos))
    (h : Stored s.proc records zeros)
    (hfit : Fits rotated s.proc.db.options.dataFileSize (encodeAll records).length record) :
    let x := s.request m [record.toWrite]
    Performed rotated s.proc records zeros none [record] [record.toWrite] x.1.proc x.2 := by
  rcases h.append hw hfit with ⟨q, hrun, hq, hindex, hsame, -, -⟩ |
    ⟨hne, e, q, hrun, hq, hindex, hsame⟩
  · obtain ⟨index, reclaimSize, hfrun, hfindex⟩ :=
      hf (posOf 0 ((encodeAll records).length, record)) q hindex
    rw [bind_ok hrun, hfrun] at hm
    simp only [request_ok hm]
    refine ⟨⟨[record], List.prefix_rfl, ?_, .plain hr ?_ hindex.seqNo⟩,
      hsame.withIndex index reclaimSize, fun _ => rfl⟩
    · have hq' : Stored { q with db := q.db.withIndex index reclaimSize } (records ++ [record])
          (zeros - record.encode.length) := hq.congr rfl rfl rfl
      simpa using hq'
    · rw [← hindex.index]
      exact hfindex
  · rw [bind_error hrun] at hm
    simp only [request_error hm]
    exact ⟨⟨[], List.nil_prefix, by simpa using hq, .nothing hindex (by simp)⟩, hsame,
      fun hnil => absurd (canWrite_of_nil hnil 1) hne⟩

theorem performed_put (h : Stored s.proc records zeros) (hw : NoShortWrites s.proc)
    {key value : Bytes}
    (hfit : FitAll rotated s.proc.db.options.dataFileSize (encodeAll records).length
      (s.appends (.put key value))) :
    Performed rotated s.proc records zeros (s.committed (.put key value)) (s.appends (.put key value))
      (s.requested (.put key value)) (s.step (.put key value)).1.proc
      (s.step (.put key value)).2 := by
  by_cases hkey : key = []
  · have herr := DB.put_nil hkey value s.proc
    rw [step, request_error herr, appends, requested, if_pos hkey, if_pos hkey]
    exact performed_nothing h rfl (by simp)
  · rw [appends, if_neg hkey] at hfit
    rw [appends, requested, if_neg hkey, if_neg hkey]
    refine performed_plain hw ⟨hkey, .inl rfl⟩ ?_ (fun pos q _ => DB.indexPut_run q key pos) h
      hfit.1
    rw [DB.put, if_neg hkey]
    rfl

theorem performed_remove (h : Stored s.proc records zeros) (hw : NoShortWrites s.proc)
    {key : Bytes}
    (hfit : FitAll rotated s.proc.db.options.dataFileSize (encodeAll records).length
      (s.appends (.remove key))) :
    Performed rotated s.proc records zeros (s.committed (.remove key)) (s.appends (.remove key)) (s.requested (.remove key))
      (s.step (.remove key)).1.proc (s.step (.remove key)).2 := by
  by_cases hkey : key = []
  · have herr := DB.remove_nil hkey s.proc
    rw [step, request_error herr, appends, requested, if_pos (.inl hkey), if_pos hkey]
    exact performed_nothing h rfl (by simp)
  · cases hget : Indexer.get s.proc.db.index key with
    | none =>
      rw [step, request_ok (remove_run_of_absent hkey hget), appends, requested,
        if_pos (.inr hget), if_neg hkey]
      exact performed_nothing h rfl (by simpa using hget)
    | some old =>
      have hstart := remove_run_of_present hkey (p := s.proc) (by simp [hget])
      have hpresent : ¬(key = [] ∨ Indexer.get s.proc.db.index key = none) := by simp [hkey, hget]
      rw [appends, if_neg hpresent] at hfit
      rw [appends, requested, if_neg hpresent, if_neg hkey]
      refine performed_plain hw ⟨hkey, .inr rfl⟩ hstart (fun pos q hq => ?_) h hfit.1
      obtain ⟨index, reclaimSize, hrun, hindex⟩ :=
        DB.indexRemove_run { q with db := { q.db with reclaimSize := q.db.reclaimSize + pos.size } }
          key
      have hok : (Indexer.get q.db.index key).isSome = true := by rw [hq.index, hget]; rfl
      refine ⟨index, reclaimSize, ?_, hindex⟩
      rw [bind_ok (modifyDB_run _ q), bind_ok hrun]
      show (if (Indexer.get q.db.index key).isSome then pure () else _ : DBM ι Unit).run _ = _
      rw [hok]
      rfl

omit [Indexer ι] in
theorem zip_writeLayout (seqNo offset : ℕ) (items : List LogRecord) :
    (items.zip ((writeLayout seqNo offset items).map (writePos seqNo))).map
        (fun x => (x.1.key, written? x.1.type x.2)) = indexWrites seqNo offset items := by
  unfold indexWrites writeLayout
  induction items generalizing offset with
  | nil => rfl
  | cons record items ih =>
    simp only [layout_cons, List.map_cons, List.zip_cons_cons, ih]

theorem performed_commit (h : Stored s.proc records zeros) (hw : NoShortWrites s.proc) {i : ℕ}
    (hfit : FitAll rotated s.proc.db.options.dataFileSize (encodeAll records).length
      (s.appends (.commit i))) :
    Performed rotated s.proc records zeros (s.committed (.commit i)) (s.appends (.commit i)) (s.requested (.commit i))
      (s.step (.commit i)).1.proc (s.step (.commit i)).2 := by
  rw [step, commitBatch, committed, appends, requested]
  cases hbatch : s.batches[i]? with
  | none => exact performed_nothing h rfl (by simp)
  | some batch =>
    simp only [appends, hbatch] at hfit
    simp only [Option.elim_some]
    by_cases hpending : batch.pendingWrites = []
    · have hrun := WriteBatch.commit_nil hpending s.proc
      rw [hrun, if_pos hpending, hpending]
      exact performed_nothing h rfl (by simp)
    rw [if_neg hpending] at hfit ⊢
    rcases h.appendBatch hw hfit with ⟨q, hrun, hq, hindex, hsame, hcan⟩ |
      ⟨hne, n, e, q, hrun, hq, hindex, hsame⟩
    · -- The index changes only now that the end of the transaction is written.
      have hitems : ∀ x ∈ batch.pendingWrites.zip
          ((writeLayout batch.seqNo (encodeAll records).length batch.pendingWrites).map
            (writePos batch.seqNo)), x.1.IsWrite :=
        fun x hx => batch.isWrite _ (List.of_mem_zip hx).1
      obtain ⟨index, reclaimSize, hupd, hget⟩ := WriteBatch.updateIndexes_run hitems q
      rw [zip_writeLayout, hindex.index] at hget
      have hcommit := hrun fun positions => do
        WriteBatch.updateIndexes (batch.pendingWrites.zip positions)
        modifyDB fun db => { db with seqNo := (batch.seqNo + 1) % seqNoBound }
        return ({ options := batch.options, seqNo := batch.seqNo } : WriteBatch)
      rw [bind_ok hupd] at hcommit
      rw [WriteBatch.commit, if_neg hpending, hcommit]
      exact ⟨⟨batch.records, List.prefix_rfl, hq.congr rfl rfl rfl,
        .batch batch hpending hget rfl hcan⟩,
        hsame.trans (.of_db rfl rfl rfl rfl rfl), fun _ => rfl⟩
    · rw [WriteBatch.commit, if_neg hpending, hrun]
      exact ⟨⟨_, take_records_prefix _ _, hq, .torn batch n hindex hne⟩, hsame,
        fun hnil => absurd (canWrite_of_nil hnil _) hne⟩

/-- What a request does: it appends the records it is to append, up to the first
    write that fails, and changes the index only if none does. -/
theorem step_performed (h : Stored s.proc records zeros) (hw : NoShortWrites s.proc) {op : Op}
    (hfit : FitAll rotated s.proc.db.options.dataFileSize (encodeAll records).length
      (s.appends op)) :
    Performed rotated s.proc records zeros (s.committed op) (s.appends op) (s.requested op)
      (s.step op).1.proc (s.step op).2 := by
  cases op with
  | put key value => exact performed_put h hw hfit
  | remove key => exact performed_remove h hw hfit
  | newWriteBatch options =>
    rw [step]
    exact performed_nothing h rfl (by simp)
  | batchPut i key value =>
    rw [step, editBatch_proc]
    exact performed_nothing h rfl (by simp)
  | batchRemove i key =>
    rw [step, editBatch_proc]
    exact performed_nothing h rfl (by simp)
  | commit i => exact performed_commit h hw hfit

end Session

end Bitcask
