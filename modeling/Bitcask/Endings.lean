import Bitcask.ActiveFile
import Bitcask.Requests

/-!
# How requests end

What a request does to any database, as long as no file is rotated, said once for
all ways its writes may end (`Session.step_ends`): unless one of them fails, the
request is acknowledged and the index has each key at the place where its record has
been written, however much of it has been stored. If one fails, nothing is
acknowledged and the index is as before.
-/

namespace Bitcask

open Transaction DataFile DBM Guarantee Proc

variable {ι : Type}

/-! ## The index after some writes -/

/-- What some writes do to the index, whose records are written through a handle under
    a sequence number, given the parts of them that are stored. -/
def indexWritesAt : DataFile → ℕ → List LogRecord → List Bytes → List (Bytes × Option LogRecordPos)
  | file, seqNo, record :: records, part :: parts =>
    (record.key, written? record.type (DB.posAt file (WriteBatch.withSeq seqNo record))) ::
      indexWritesAt { file with writeOff := file.writeOff + part.length } seqNo records parts
  | _, _, _, _ => []

theorem zip_writePositions (file : DataFile) (seqNo : ℕ) (items : List LogRecord)
    (parts : List Bytes) :
    (items.zip (writePositions file (items.map (WriteBatch.withSeq seqNo)) parts)).map
        (fun x => (x.1.key, written? x.1.type x.2)) = indexWritesAt file seqNo items parts := by
  induction items generalizing file parts with
  | nil => rfl
  | cons record items ih =>
    cases parts with
    | nil => rfl
    | cons part parts =>
      rw [indexWritesAt, ← ih]
      rfl

/-- Only the keys of the writes change. -/
theorem key_of_mem_indexWritesAt {file : DataFile} {seqNo : ℕ} {items : List LogRecord}
    {parts : List Bytes} {w : Bytes × Option LogRecordPos}
    (hw : w ∈ indexWritesAt file seqNo items parts) : ∃ item ∈ items, item.key = w.1 := by
  rw [← zip_writePositions] at hw
  obtain ⟨x, hx, rfl⟩ := List.mem_map.1 hw
  exact ⟨x.1, (List.of_mem_zip hx).1, rfl⟩

/-- The index has a key at the place where the last record of it has been written. -/
theorem overlay_indexWritesAt {file : DataFile} {seqNo : ℕ} {as bs : List LogRecord}
    {item : LogRecord} {parts : List Bytes} (hlen : as.length < parts.length)
    (hlast : ∀ later ∈ bs, later.key ≠ item.key) (m : Bytes → Option LogRecordPos) :
    overlay (indexWritesAt file seqNo (as ++ item :: bs) parts) m item.key =
      written? item.type (DB.posAt { file with
        writeOff := file.writeOff + (parts.take as.length).flatten.length }
          (WriteBatch.withSeq seqNo item)) := by
  obtain ⟨part, rest, rfl⟩ := List.exists_cons_of_ne_nil
    (List.ne_nil_of_length_pos (Nat.zero_lt_of_lt hlen))
  induction as generalizing file part rest m with
  | nil =>
    rw [List.nil_append, indexWritesAt, overlay_cons, overlay_of_not_mem, Function.update_self]
    · rfl
    · intro w hw
      obtain ⟨later, hlater, hkey⟩ := key_of_mem_indexWritesAt hw
      exact hkey ▸ hlast later hlater
  | cons a as ih =>
    obtain ⟨next, rest, rfl⟩ := List.exists_cons_of_ne_nil
      (List.ne_nil_of_length_pos (Nat.zero_lt_of_lt (Nat.lt_of_succ_lt_succ hlen)))
    rw [List.cons_append, indexWritesAt, overlay_cons, ih _ _ _ (Nat.lt_of_succ_lt_succ hlen),
      List.length_cons, List.take_succ_cons, List.flatten_cons, List.length_append, Nat.add_assoc]

/-- Of every key written there is a last write. -/
theorem exists_last_write {items : List LogRecord} {k : Bytes} (hk : ∃ item ∈ items, item.key = k) :
    ∃ as item bs, items = as ++ item :: bs ∧ item.key = k ∧ ∀ later ∈ bs, later.key ≠ k := by
  induction items with
  | nil => simp at hk
  | cons item items ih =>
    by_cases hlater : ∃ later ∈ items, later.key = k
    · obtain ⟨as, last, bs, rfl, hlast⟩ := ih hlater
      exact ⟨item :: as, last, bs, rfl, hlast⟩
    · push Not at hlater
      obtain ⟨w, hw, hkey⟩ := hk
      rcases List.mem_cons.1 hw with rfl | hw
      · exact ⟨[], w, items, rfl, hkey, hlater⟩
      · exact absurd hkey (hlater w hw)

/-! ## Requests -/

variable [Indexer ι]

/-- Some writes have been made under a sequence number: their records are stored, as far
    as the writes of the file have stored them, and the index is updated for them. -/
structure Written (p : Proc ι) (seqNo : ℕ) (items : List LogRecord) (parts : List Bytes)
    (q : Proc ι) : Prop where
  appended : Appended p.db.writer parts p.started q
  length_le : items.length ≤ parts.length
  index : Indexer.get q.db.index =
    overlay (indexWritesAt p.db.writer seqNo items parts) (Indexer.get p.db.index)

/-- Writing a record and updating the index for it. -/
theorem plain_run {p : Proc ι} {record : LogRecord} {m : DBM ι Unit} {f : LogRecordPos → DBM ι Unit}
    (hm : m.run p = (DB.appendLogRecordInternal record >>= f).run p)
    (hf : ∀ pos q, SameIndex p q → ∃ index reclaimSize, (f pos).run q =
        .ok () { q with db := q.db.withIndex index reclaimSize } ∧
      Indexer.get index =
        Function.update (Indexer.get q.db.index) record.key (written? record.type pos))
    (hstart : p.CanStart)
    (hfit : NoRotation p.db.options.dataFileSize p.db.writer.writeOff p.outcomes [record]) :
    let x := storeAll p.outcomes [record]
    (x.2 = true ∧ ∃ q, m.run p = .ok () q ∧ Written p nonTransactionSeqNo [record] x.1 q ∧
      q.world.outcomes (.write p.db.writer.path) = p.outcomes.tail) ∨
    (x.2 = false ∧ ∃ e q, m.run p = .error e q ∧ Appended p.db.writer x.1 p.started q ∧
      SameIndex p q) := by
  have houtcomes : (p.started.world.next (.write p.db.writer.path)).1 = p.outcomes.headD .ok := by
    rw [World.next_fst, started_outcomes, outcomes]
  rcases append_run (show p.started.db.activeFile = some p.db.writer from rfl) hfit.1 with
    ⟨part, hpart, q, hrun, hq, hindex, hout⟩ | ⟨hpart, e, q, hrun, hq, hindex⟩
  all_goals
    rw [← append_run_started hstart] at hrun
    rw [houtcomes] at hpart
  · obtain ⟨index, reclaimSize, hfrun, hfindex⟩ := hf _ q (sameIndex_of_started hindex)
    rw [storeAll_of_some hpart]
    refine .inl ⟨rfl, { q with db := q.db.withIndex index reclaimSize },
      hm.trans (by rw [bind_ok hrun, hfrun]), ⟨hq.of_sameFiles rfl rfl rfl rfl, le_rfl, ?_⟩, ?_⟩
    · rw [hindex.index] at hfindex
      exact hfindex
    · show q.world.outcomes _ = _
      rw [hout, World.next_outcomes_self, started_outcomes, outcomes]
  · rw [storeAll_of_none hpart]
    exact .inr ⟨rfl, e, q, hm.trans (bind_error hrun), hq, sameIndex_of_started hindex⟩

theorem put_run {p : Proc ι} {key value : Bytes} (hkey : key ≠ []) (hstart : p.CanStart)
    (hfit : NoRotation p.db.options.dataFileSize p.db.writer.writeOff p.outcomes
      [⟨key, value, .normal⟩]) :
    let x := storeAll p.outcomes [⟨key, value, .normal⟩]
    (x.2 = true ∧ ∃ q, (DB.put key value).run p = .ok () q ∧
      Written p nonTransactionSeqNo [⟨key, value, .normal⟩] x.1 q ∧
      q.world.outcomes (.write p.db.writer.path) = p.outcomes.tail) ∨
    (x.2 = false ∧ ∃ e q, (DB.put key value).run p = .error e q ∧
      Appended p.db.writer x.1 p.started q ∧ SameIndex p q) := by
  refine plain_run ?_ (fun pos q _ => DB.indexPut_run q key pos) hstart hfit
  rw [DB.put, if_neg hkey]
  rfl

theorem remove_run {p : Proc ι} {key : Bytes} (hkey : key ≠ [])
    (hpresent : Indexer.get p.db.index key ≠ none) (hstart : p.CanStart)
    (hfit : NoRotation p.db.options.dataFileSize p.db.writer.writeOff p.outcomes
      [⟨key, [], .deleted⟩]) :
    let x := storeAll p.outcomes [⟨key, [], .deleted⟩]
    (x.2 = true ∧ ∃ q, (DB.remove key).run p = .ok () q ∧
      Written p nonTransactionSeqNo [⟨key, [], .deleted⟩] x.1 q ∧
      q.world.outcomes (.write p.db.writer.path) = p.outcomes.tail) ∨
    (x.2 = false ∧ ∃ e q, (DB.remove key).run p = .error e q ∧
      Appended p.db.writer x.1 p.started q ∧ SameIndex p q) := by
  obtain ⟨old, hget⟩ := Option.ne_none_iff_exists'.1 hpresent
  refine plain_run (remove_run_of_present hkey hpresent) (fun pos q hq => ?_) hstart hfit
  obtain ⟨index, reclaimSize, hrun, hindex⟩ :=
    DB.indexRemove_run { q with db := { q.db with reclaimSize := q.db.reclaimSize + pos.size } } key
  have hok : (Indexer.get q.db.index key).isSome = true := by rw [hq.index, hget]; rfl
  refine ⟨index, reclaimSize, ?_, hindex⟩
  rw [bind_ok (modifyDB_run _ q), bind_ok hrun]
  show (if (Indexer.get q.db.index key).isSome then pure () else _ : DBM ι Unit).run _ = _
  rw [hok]
  rfl

theorem commit_run {p : Proc ι} {batch : WriteBatch} (hpending : batch.pendingWrites ≠ [])
    (hstart : p.CanStart)
    (hfit : NoRotation p.db.options.dataFileSize p.db.writer.writeOff p.outcomes batch.records) :
    let x := storeAll p.outcomes batch.records
    (x.2 = true ∧ ∃ q, batch.commit.run p =
        .ok { options := batch.options, seqNo := batch.seqNo } q ∧
      Written p batch.seqNo batch.pendingWrites x.1 q) ∨
    (x.2 = false ∧ ∃ e q, batch.commit.run p = .error e q ∧
      Appended p.db.writer x.1 p.started q ∧ SameIndex p q) := by
  rcases appendBatch_run hstart hpending hfit with ⟨hok, q, hrun, hq, hindex⟩ |
    ⟨hfail, e, q, hrun, hq, hindex⟩
  · have hlen := length_storeAll hok
    rw [length_records] at hlen
    have hitems : ∀ x ∈ batch.pendingWrites.zip (writePositions p.db.writer
        (batch.pendingWrites.map (WriteBatch.withSeq batch.seqNo))
        (storeAll p.outcomes batch.records).1), x.1.IsWrite :=
      fun x hx => batch.isWrite _ (List.of_mem_zip hx).1
    obtain ⟨index, reclaimSize, hupd, hget⟩ := WriteBatch.updateIndexes_run hitems q
    rw [zip_writePositions, hindex.index] at hget
    refine .inl ⟨hok, { q with db := { q.db.withIndex index reclaimSize with
        seqNo := (batch.seqNo + 1) % seqNoBound } }, ?_, hq.of_sameFiles rfl rfl rfl rfl,
      by omega, hget⟩
    rw [WriteBatch.commit, if_neg hpending]
    refine (hrun _).trans ?_
    rw [bind_ok hupd]
    rfl
  · refine .inr ⟨hfail, e, q, ?_, hq, hindex⟩
    rw [WriteBatch.commit, if_neg hpending]
    exact hrun _

namespace Session

/-- The writes whose records a request appends, and the sequence number they are made
    under. -/
def items (s : Session ι) : Op → ℕ × List LogRecord
  | .put key value => (nonTransactionSeqNo, s.appends (.put key value))
  | .remove key => (nonTransactionSeqNo, s.appends (.remove key))
  | .commit i => s.batches[i]?.elim (nonTransactionSeqNo, []) fun batch =>
    (batch.seqNo, batch.pendingWrites)
  | _ => (nonTransactionSeqNo, [])

theorem items_isWrite (s : Session ι) (op : Op) : ∀ item ∈ (s.items op).2, item.IsWrite := by
  intro item hitem
  cases op with
  | put key value =>
    rw [items, appends] at hitem
    split at hitem
    · cases hitem
    · obtain rfl := List.mem_singleton.1 hitem
      exact ⟨‹_›, .inl rfl⟩
  | remove key =>
    rw [items, appends] at hitem
    split at hitem
    · cases hitem
    · obtain rfl := List.mem_singleton.1 hitem
      rename_i hwrites
      exact ⟨(not_or.1 hwrites).1, .inr rfl⟩
  | commit i =>
    rw [items] at hitem
    cases hbatch : s.batches[i]? with
    | none =>
      rw [hbatch] at hitem
      cases hitem
    | some batch =>
      rw [hbatch] at hitem
      exact batch.isWrite item hitem
  | newWriteBatch options => cases hitem
  | batchPut i key value => cases hitem
  | batchRemove i key => cases hitem

/-- How a request may end: it does nothing, or removes a key that is absent; or all its
    writes succeed, as far as they do; or one of them fails. -/
inductive Ends (s : Session ι) (op : Op) : Prop
  | nothing (appends : s.appends op = []) (proc : (s.step op).1.proc = s.proc)
      (items : (s.items op).2 = [])
      (absent : ∀ w ∈ (s.step op).2,
        w.1 ≠ [] ∧ w.2 = none ∧ Indexer.get s.proc.db.index w.1 = none)
  | acknowledged (succeeds : (storeAll s.proc.outcomes (s.appends op)).2 = true)
      (items_ne : (s.items op).2 ≠ [])
      (acks : (s.step op).2 = (s.items op).2.map LogRecord.toWrite)
      (written : Written s.proc (s.items op).1 (s.items op).2
        (storeAll s.proc.outcomes (s.appends op)).1 (s.step op).1.proc)
  | refused (fails : (storeAll s.proc.outcomes (s.appends op)).2 = false)
      (acks : (s.step op).2 = [])
      (appended : Appended s.proc.db.writer (storeAll s.proc.outcomes (s.appends op)).1
        s.proc.started (s.step op).1.proc)
      (index : SameIndex s.proc (s.step op).1.proc)

/-- How requests of one write end. -/
theorem ends_of_run {s : Session ι} {op : Op} {m : DBM ι Unit} {record : LogRecord}
    (hstep : s.step op = s.request m [record.toWrite]) (happends : s.appends op = [record])
    (hitems : s.items op = (nonTransactionSeqNo, s.appends op))
    (hrun : let x := storeAll s.proc.outcomes [record]
      (x.2 = true ∧ ∃ q, m.run s.proc = .ok () q ∧
        Written s.proc nonTransactionSeqNo [record] x.1 q ∧
        q.world.outcomes (.write s.proc.db.writer.path) = s.proc.outcomes.tail) ∨
      (x.2 = false ∧ ∃ e q, m.run s.proc = .error e q ∧
        Appended s.proc.db.writer x.1 s.proc.started q ∧ SameIndex s.proc q)) : s.Ends op := by
  rw [← happends] at hrun
  rcases hrun with ⟨hok, q, hrun, hq, -⟩ | ⟨hfail, e, q, hrun, hq, hindex⟩
  · refine .acknowledged hok (by rw [hitems, happends]; exact List.cons_ne_nil _ _) ?_ ?_ <;>
      rw [hstep, request_ok hrun, hitems]
    · rw [happends]
      rfl
    · exact hq
  · refine .refused hfail ?_ ?_ ?_ <;> rw [hstep, request_error hrun]
    · exact hq
    · exact hindex

/-- How requests end. -/
theorem step_ends {s : Session ι} {op : Op} (hstart : s.proc.CanStart)
    (hfit : NoRotation s.proc.db.options.dataFileSize s.proc.db.writer.writeOff s.proc.outcomes
      (s.appends op)) : s.Ends op := by
  cases op with
  | put key value =>
    by_cases hkey : key = []
    · have herr := DB.put_nil hkey value s.proc
      refine .nothing (if_pos hkey) ?_ (if_pos hkey) ?_ <;> rw [step, request_error herr]
      exact List.forall_mem_nil _
    · have happends : s.appends (.put key value) = [⟨key, value, .normal⟩] := if_neg hkey
      rw [happends] at hfit
      exact ends_of_run rfl happends rfl (put_run hkey hstart hfit)
  | remove key =>
    by_cases hkey : key = []
    · have herr := DB.remove_nil hkey s.proc
      refine .nothing (if_pos (.inl hkey)) ?_ (if_pos (.inl hkey)) ?_ <;>
        rw [step, request_error herr]
      exact List.forall_mem_nil _
    · by_cases habsent : Indexer.get s.proc.db.index key = none
      · have hrun := remove_run_of_absent hkey habsent
        refine .nothing (if_pos (.inr habsent)) ?_ (if_pos (.inr habsent)) ?_ <;>
          rw [step, request_ok hrun]
        exact List.forall_mem_singleton.2 ⟨hkey, rfl, habsent⟩
      · have happends : s.appends (.remove key) = [⟨key, [], .deleted⟩] :=
          if_neg (not_or.2 ⟨hkey, habsent⟩)
        rw [happends] at hfit
        exact ends_of_run rfl happends rfl (remove_run hkey habsent hstart hfit)
  | commit i =>
    cases hbatch : s.batches[i]? with
    | none =>
      have hstep : s.step (.commit i) = (s, []) := by rw [step, commitBatch, hbatch]
      refine .nothing (by rw [appends, hbatch]) ?_ (by rw [items, hbatch]; rfl) ?_ <;> rw [hstep]
      exact List.forall_mem_nil _
    | some batch =>
      have hitems : s.items (.commit i) = (batch.seqNo, batch.pendingWrites) := by
        rw [items, hbatch]
        rfl
      by_cases hpending : batch.pendingWrites = []
      · have hrun := WriteBatch.commit_nil hpending s.proc
        have hstep : s.step (.commit i) =
            ({ proc := s.proc, batches := s.batches.set i batch }, []) := by
          rw [step, commitBatch, hbatch]
          simp only [hrun, hpending, List.map_nil]
        refine .nothing (by rw [appends, hbatch]; exact if_pos hpending) ?_
          (by rw [hitems]; exact hpending) ?_ <;> rw [hstep]
        exact List.forall_mem_nil _
      · have happends : s.appends (.commit i) = batch.records := by
          rw [appends, hbatch]
          exact if_neg hpending
        rw [happends] at hfit
        rcases commit_run hpending hstart hfit with ⟨hok, q, hrun, hq⟩ |
          ⟨hfail, e, q, hrun, hq, hindex⟩
        · refine .acknowledged (by rw [happends]; exact hok) (by rw [hitems]; exact hpending)
              ?_ ?_ <;>
            rw [step, commitBatch, hbatch, hitems] <;> simp only [hrun]
          rw [happends]
          exact hq
        · refine .refused (by rw [happends]; exact hfail) ?_ ?_ ?_ <;>
            rw [step, commitBatch, hbatch] <;> simp only [hrun]
          · rw [happends]
            exact hq
          · exact hindex
  | newWriteBatch options => exact .nothing rfl rfl rfl (List.forall_mem_nil _)
  | batchPut i key value => exact .nothing rfl (editBatch_proc s i _) rfl (List.forall_mem_nil _)
  | batchRemove i key => exact .nothing rfl (editBatch_proc s i _) rfl (List.forall_mem_nil _)

end Session

end Bitcask
