import Bitcask.Endings

/-!
# Requests as appends

A request appends its records one after the other, up to the first one that cannot be
written (`Proc.appending`), whatever happens to the files meanwhile. All else that it
does is to change the index at the keys it writes (`Session.step_reindexed`). So what
every append keeps, whether it returns or throws, every request keeps
(`Session.step_of_append`).
-/

namespace Bitcask

open DB DBM Guarantee

variable {ι : Type}

namespace Proc

/-- The database after records have been appended one after the other, up to the first
    one that cannot be. -/
def appending (p : Proc ι) : List LogRecord → Proc ι
  | [] => p
  | record :: records =>
    match (appendLogRecordInternal record).run p with
    | .ok _ q => q.appending records
    | .error _ q => q

section Appending

variable {p q : Proc ι} {record : LogRecord}

theorem appending_ok {pos : LogRecordPos} (h : (appendLogRecordInternal record).run p = .ok pos q)
    (records : List LogRecord) : p.appending (record :: records) = q.appending records := by
  rw [appending, h]

theorem appending_error {e : Exn} (h : (appendLogRecordInternal record).run p = .error e q)
    (records : List LogRecord) : p.appending (record :: records) = q := by
  rw [appending, h]

/-- What every append keeps stays. -/
theorem appending_inv {I : Proc ι → Prop}
    (happend : ∀ record, Keeps I (appendLogRecordInternal record) fun _ => True) (hp : I p)
    (records : List LogRecord) : I (p.appending records) := by
  induction records generalizing p with
  | nil => exact hp
  | cons record records ih =>
    have hnext := (happend record p hp).1
    cases hrun : (appendLogRecordInternal record).run p with
    | ok pos q =>
      rw [hrun] at hnext
      rw [appending_ok hrun]
      exact ih hnext
    | error e q =>
      rw [hrun] at hnext
      rwa [appending_error hrun]

/-- Appending leaves the index alone. -/
theorem appending_index (p : Proc ι) (records : List LogRecord) :
    (p.appending records).db.index = p.db.index := by
  refine appending_inv (I := fun q => q.db.index = p.db.index) (fun record => ?_) rfl records
  exact .of_guarantees (SameIndex.appendLogRecordInternal record)
    (fun _ _ h hsame => hsame.index.trans h) fun _ _ _ _ => trivial

/-- Appending the records of a batch is appending them one after the other. -/
theorem appending_appendAll (p : Proc ι) (seqNo : ℕ) (records : List LogRecord) :
    (∃ positions q, (WriteBatch.appendAll seqNo records).run p = .ok positions q ∧
      ∀ rest, p.appending (records.map (WriteBatch.withSeq seqNo) ++ rest) = q.appending rest) ∨
    ∃ e q, (WriteBatch.appendAll seqNo records).run p = .error e q ∧
      ∀ rest, p.appending (records.map (WriteBatch.withSeq seqNo) ++ rest) = q := by
  induction records generalizing p with
  | nil => exact .inl ⟨[], p, rfl, fun _ => rfl⟩
  | cons record records ih =>
    rw [WriteBatch.appendAll]
    cases hrun : (appendLogRecordInternal (WriteBatch.withSeq seqNo record)).run p with
    | error e q => exact .inr ⟨e, q, bind_error hrun, fun rest => appending_error hrun _⟩
    | ok pos q =>
      rw [bind_ok hrun]
      rcases ih q with ⟨positions, r, hrest, happend⟩ | ⟨e, r, hrest, happend⟩
      · refine .inl ⟨pos :: positions, r, bind_ok hrest, fun rest => ?_⟩
        rw [← happend rest]
        exact appending_ok hrun _
      · refine .inr ⟨e, r, bind_error hrest, fun rest => ?_⟩
        rw [← happend rest]
        exact appending_ok hrun _

end Appending

/-- The files of a database and its handles are as before. -/
structure SameFiles (p q : Proc ι) : Prop where
  options : q.db.options = p.db.options
  fileIds : q.db.fileIds = p.db.fileIds
  activeFile : q.db.activeFile = p.db.activeFile
  olderFiles : q.db.olderFiles = p.db.olderFiles
  world : q.world = p.world

variable [Indexer ι]

/-- Only the index has changed, and only at some keys. -/
structure Reindexed (keys : Set Bytes) (p q : Proc ι) : Prop extends SameFiles p q where
  get_eq : ∀ k ∉ keys, Indexer.get q.db.index k = Indexer.get p.db.index k

namespace Reindexed

variable {keys : Set Bytes}

instance : Std.Refl (Reindexed (ι := ι) keys) :=
  ⟨fun _ => ⟨⟨rfl, rfl, rfl, rfl, rfl⟩, fun _ _ => rfl⟩⟩

instance : IsTrans (Proc ι) (Reindexed keys) where
  trans _ _ _ h h' :=
    ⟨⟨h'.options.trans h.options, h'.fileIds.trans h.fileIds, h'.activeFile.trans h.activeFile,
      h'.olderFiles.trans h.olderFiles, h'.world.trans h.world⟩,
      fun k hk => (h'.get_eq k hk).trans (h.get_eq k hk)⟩

theorem modifyDB {f : DB ι → DB ι} (h : ∀ p : Proc ι, p.Reindexed keys { p with db := f p.db }) :
    Guarantees (Reindexed keys) (DBM.modifyDB f) := .modifyGet h

theorem indexPut {key : Bytes} (hkey : key ∈ keys) (pos : LogRecordPos) :
    Guarantees (Reindexed keys) (DB.indexPut key pos : DBM ι Unit) := by
  intro p
  obtain ⟨index, reclaimSize, hrun, hget⟩ := indexPut_run p key pos
  rw [hrun]
  refine ⟨⟨rfl, rfl, rfl, rfl, rfl⟩, fun k hk => (congrFun hget k).trans ?_⟩
  exact Function.update_of_ne (ne_of_mem_of_not_mem hkey hk).symm _ _

theorem indexRemove {key : Bytes} (hkey : key ∈ keys) :
    Guarantees (Reindexed keys) (DB.indexRemove key : DBM ι Bool) := by
  intro p
  obtain ⟨index, reclaimSize, hrun, hget⟩ := indexRemove_run p key
  rw [hrun]
  refine ⟨⟨rfl, rfl, rfl, rfl, rfl⟩, fun k hk => (congrFun hget k).trans ?_⟩
  exact Function.update_of_ne (ne_of_mem_of_not_mem hkey hk).symm _ _

theorem updateIndexes {items : List (LogRecord × LogRecordPos)}
    (hkeys : ∀ item ∈ items, item.1.key ∈ keys) :
    Guarantees (Reindexed keys) (WriteBatch.updateIndexes items : DBM ι Unit) := by
  induction items with
  | nil => exact .pure _
  | cons item items ih =>
    rcases item with ⟨record, pos⟩
    rw [List.forall_mem_cons] at hkeys
    have hupdate :
        Guarantees (Reindexed keys) (WriteBatch.updateIndex record pos : DBM ι Unit) := by
      unfold WriteBatch.updateIndex
      split
      · exact indexPut hkeys.1 pos
      · split
        · exact .bind (indexRemove hkeys.1) fun _ =>
            modifyDB fun p => ⟨⟨rfl, rfl, rfl, rfl, rfl⟩, fun _ _ => rfl⟩
        · exact .pure _
    exact .bind hupdate fun _ => ih hkeys.2

/-- A record is appended, and the index changed for it. -/
theorem append {m : DBM ι Unit} {f : LogRecordPos → DBM ι Unit} {p : Proc ι} {record : LogRecord}
    (hm : m.run p = (appendLogRecordInternal record >>= f).run p)
    (hf : ∀ pos, Guarantees (Reindexed keys) (f pos)) :
    (p.appending [record]).Reindexed keys (finalState (m.run p)) := by
  rw [hm]
  cases hrun : (appendLogRecordInternal record).run p with
  | ok pos q =>
    rw [bind_ok hrun, appending_ok hrun]
    exact hf pos q
  | error e q =>
    rw [bind_error hrun, appending_error hrun]
    exact Std.Refl.refl q

end Reindexed

end Proc

namespace Session

open Proc

variable [Indexer ι] {s : Session ι}

/-- The keys a request writes. -/
def writtenKeys (s : Session ι) (op : Op) : Set Bytes :=
  {k | ∃ item ∈ (s.items op).2, item.key = k}

omit [Indexer ι] in
theorem request_proc (s : Session ι) (m : DBM ι Unit) (writes : List Write) :
    (s.request m writes).1.proc = finalState (m.run s.proc) := by
  cases hrun : m.run s.proc with
  | ok _ q => rw [request_ok hrun]; rfl
  | error e q => rw [request_error hrun]; rfl

theorem commitBatch_proc {i : ℕ} {batch : WriteBatch} (h : s.batches[i]? = some batch) :
    (s.commitBatch i).1.proc = finalState (batch.commit.run s.proc) := by
  rw [commitBatch, h]
  dsimp only
  cases hrun : batch.commit.run s.proc <;> rfl

theorem commit_reindexed (s : Session ι) (i : ℕ) :
    (s.proc.appending (s.appends (.commit i))).Reindexed (s.writtenKeys (.commit i))
      (s.step (.commit i)).1.proc := by
  rw [step, appends]
  cases hbatch : s.batches[i]? with
  | none =>
    rw [commitBatch, hbatch]
    exact Std.Refl.refl s.proc
  | some batch =>
    rw [commitBatch_proc hbatch]
    dsimp only
    by_cases hpending : batch.pendingWrites = []
    · rw [if_pos hpending, WriteBatch.commit_nil hpending]
      exact Std.Refl.refl s.proc
    · rw [if_neg hpending, WriteBatch.commit, if_neg hpending]
      rcases appending_appendAll s.proc batch.seqNo batch.pendingWrites with
        ⟨positions, q, hrun, happend⟩ | ⟨e, q, hrun, happend⟩
      · rw [bind_ok hrun, WriteBatch.records, happend]
        cases hfin : (appendLogRecordInternal (WriteBatch.txnFinRecord batch.seqNo)).run q with
        | error e r =>
          rw [bind_error hfin, appending_error hfin]
          exact Std.Refl.refl r
        | ok pos r =>
          rw [bind_ok hfin, appending_ok hfin]
          have hitems : ∀ item ∈ batch.pendingWrites.zip positions,
              item.1.key ∈ s.writtenKeys (.commit i) := fun item hitem =>
            ⟨item.1, by rw [items, hbatch]; exact (List.of_mem_zip hitem).1, rfl⟩
          exact Guarantees.bind (Reindexed.updateIndexes hitems) (fun _ => .bind
            (Reindexed.modifyDB fun p => ⟨⟨rfl, rfl, rfl, rfl, rfl⟩, fun _ _ => rfl⟩)
            fun _ => .pure _) r
      · rw [bind_error hrun, WriteBatch.records, happend]
        exact Std.Refl.refl q

/-- A request appends its records, and changes the index at the keys that it writes. -/
theorem step_reindexed (s : Session ι) (op : Op) :
    (s.proc.appending (s.appends op)).Reindexed (s.writtenKeys op) (s.step op).1.proc := by
  cases op with
  | put key value =>
    rw [step, request_proc]
    by_cases hkey : key = []
    · rw [appends, if_pos hkey, DB.put_nil hkey]
      exact Std.Refl.refl s.proc
    · have happends : s.appends (.put key value) = [⟨key, value, .normal⟩] := if_neg hkey
      have hwritten : key ∈ s.writtenKeys (.put key value) :=
        ⟨⟨key, value, .normal⟩, by rw [items, happends]; exact List.mem_singleton_self _, rfl⟩
      rw [happends]
      refine Reindexed.append ?_ fun pos => Reindexed.indexPut hwritten pos
      rw [DB.put, if_neg hkey]
      rfl
  | remove key =>
    rw [step, request_proc]
    by_cases hkey : key = []
    · rw [appends, if_pos (.inl hkey), DB.remove_nil hkey]
      exact Std.Refl.refl s.proc
    by_cases habsent : Indexer.get s.proc.db.index key = none
    · rw [appends, if_pos (.inr habsent), remove_run_of_absent hkey habsent]
      exact Std.Refl.refl s.proc
    · have happends : s.appends (.remove key) = [⟨key, [], .deleted⟩] :=
        if_neg (not_or.2 ⟨hkey, habsent⟩)
      have hwritten : key ∈ s.writtenKeys (.remove key) :=
        ⟨⟨key, [], .deleted⟩, by rw [items, happends]; exact List.mem_singleton_self _, rfl⟩
      rw [happends]
      refine Reindexed.append (remove_run_of_present hkey habsent) fun pos => ?_
      refine .bind (Reindexed.modifyDB fun p => ⟨⟨rfl, rfl, rfl, rfl, rfl⟩, fun _ _ => rfl⟩)
        fun _ => .bind (Reindexed.indexRemove hwritten) fun ok => ?_
      split
      · exact .pure _
      · exact .throw _
  | commit i => exact s.commit_reindexed i
  | newWriteBatch options => exact Std.Refl.refl s.proc
  | batchPut i key value =>
    rw [step, editBatch_proc]
    exact Std.Refl.refl s.proc
  | batchRemove i key =>
    rw [step, editBatch_proc]
    exact Std.Refl.refl s.proc

/-- What every append keeps, and concerns the files only, every request keeps. -/
theorem step_of_append {I : Proc ι → Prop} (hfiles : ∀ p q, p.SameFiles q → I p → I q)
    (happend : ∀ record, Keeps I (appendLogRecordInternal record) fun _ => True)
    (h : I s.proc) (op : Op) : I (s.step op).1.proc :=
  hfiles _ _ (s.step_reindexed op).toSameFiles (appending_inv happend h _)

end Session

end Bitcask
