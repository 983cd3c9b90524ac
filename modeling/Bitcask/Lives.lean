import Bitcask.CutOff
import Bitcask.Library.BatchStore
import Bitcask.MergeTrace

/-!
# The life of a database

In its life a database is not only asked for something. Its process may die during a
request and another one open the database; it may be closed and opened again; its files
may be merged, and its process may die then, too. All this is one machine (`Life.step`),
whose states are the sessions.

What the machine is for is said by a store of values with batches (`Life.Spec`). A
request of the store is made at once or, if the process dies meanwhile, at once or not
at all. A restart loses the batches that have not been committed, and a merge changes
nothing.

As long as the records stay in the first file, no key that is stored plainly stands for
another one, and no process dies in a merge while the first file or the hint file is away or
has been copied in part, every life of a database is one of the store (`Life.refines`). The
state is related to that of the store by `Life.Alive`: the data file holds records that
stand for the values (`StandsFor`), and the index is what replaying them gives.
-/

namespace Bitcask

open Framing Transaction DataFile DBM Guarantee BatchStore

/-! ## Records that stand for values -/

/-- Replaying the records gives every key the position of the record that holds its value. -/
structure StandsFor (records : List LogRecord) (values : Bytes → Option Bytes) : Prop where
  readable : ∀ r ∈ records, r.Readable
  hasValue : ∀ k, Option.Rel (HasValue records) ((replay (fileEntries 0 records)).value k)
    (values k)
  putAt : ∀ k pos, (replay (fileEntries 0 records)).value k = some pos →
    k ≠ [] ∧ PutAt records k pos

theorem standsFor_nil : StandsFor [] fun _ => none :=
  ⟨nofun, fun _ => .none, nofun⟩

/-- The first records of a batch stand for nothing new. -/
theorem StandsFor.torn {records : List LogRecord} {values : Bytes → Option Bytes}
    (h : StandsFor records values) {batch : WriteBatch} (h0 : batch.seqNo ≠ nonTransactionSeqNo)
    (hlt : batch.seqNo < seqNoBound) {n : ℕ}
    (hreadable : ∀ r ∈ (batch.pendingWrites.take n).map (WriteBatch.withSeq batch.seqNo),
      r.Readable) :
    StandsFor (records ++ (batch.pendingWrites.take n).map (WriteBatch.withSeq batch.seqNo))
      values := by
  have hvalue : (replay (fileEntries 0 (records ++
      (batch.pendingWrites.take n).map (WriteBatch.withSeq batch.seqNo)))).value =
      (replay (fileEntries 0 records)).value := by
    rw [fileEntries_append, replay_append,
      map_entryOf_withSeq (fun r hr => batch.isWrite r (List.mem_of_mem_take hr)) h0 hlt, foldl_part]
  refine ⟨List.forall_mem_append.2 ⟨h.readable, hreadable⟩, fun k => ?_, fun k pos hpos => ?_⟩
  · rw [hvalue]
    have hk := h.hasValue k
    generalize (replay (fileEntries 0 records)).value k = pos, values k = value at hk
    cases hk with
    | none => exact .none
    | some hk => exact .some hk.append
  · rw [hvalue] at hpos
    obtain ⟨hk, hput⟩ := h.putAt k pos hpos
    exact ⟨hk, hput.append _⟩

/-- The sequence number of a record is no greater than the largest one. -/
theorem le_maxSeqNo {records : List LogRecord} {r : LogRecord} (hr : r ∈ records) :
    (parseLogRecordKey r.key).2 ≤ maxSeqNo records := by
  have hfold (records : List LogRecord) (m : ℕ) :
      m ≤ records.foldl (fun m r => max m (parseLogRecordKey r.key).2) m ∧
        ∀ r ∈ records, (parseLogRecordKey r.key).2 ≤
          records.foldl (fun m r => max m (parseLogRecordKey r.key).2) m := by
    induction records generalizing m with
    | nil => exact ⟨Nat.le_refl m, nofun⟩
    | cons r records ih =>
      obtain ⟨hm, hall⟩ := ih (max m (parseLogRecordKey r.key).2)
      exact ⟨(Nat.le_max_left _ _).trans hm,
        List.forall_mem_cons.2 ⟨(Nat.le_max_right _ _).trans hm, hall⟩⟩
  exact (hfold records nonTransactionSeqNo).2 r hr

/-- A part of a transaction is a record of its sequence number. -/
theorem seqNo_of_entryOf {record : LogRecord} {pos : LogRecordPos} {t : ℕ} {key : Bytes}
    {v : Option LogRecordPos} (h : entryOf record pos = .part t key v) :
    (parseLogRecordKey record.key).2 = t := by
  unfold entryOf at h
  dsimp only at h
  split at h
  · cases h
  · split at h
    · cases h
    · exact (Entry.part.inj h).1

/-- No transaction has a number that is greater than all of those of the records. -/
theorem pending_eq_nil {fid : ℕ} {records : List LogRecord} {t : ℕ} (h : maxSeqNo records < t) :
    (replay (fileEntries fid records)).pending t = [] := by
  refine List.eq_nil_iff_forall_not_mem.2 fun w hw => ?_
  obtain ⟨i, hheld, -⟩ := mem_pending_iff.1 hw
  obtain ⟨x, hx, hentry⟩ := List.mem_map.1 (List.mem_of_getElem? hheld)
  have hle := le_maxSeqNo (mem_of_mem_layout hx)
  rw [seqNo_of_entryOf hentry] at hle
  omega

/-! ## Sessions that are alive -/

variable {ι : Type}

/-- A batch as it is meant. -/
def WriteBatch.meaning (batch : WriteBatch) : Batch Bytes Bytes :=
  { maxWrites := batch.options.maxBatchNum, writes := batch.pendingWrites.map LogRecord.toWrite }

/-- Only a batch that is committed changes the sequence number of the database. -/
theorem Effect.seqNo_eq [Indexer ι] {p q : Proc ι} {offset : ℕ} {committed : Option WriteBatch}
    {appended : List LogRecord} {acks : List Write}
    (h : Effect p q offset committed appended acks) :
    q.db.seqNo = p.db.seqNo ∨
      ∃ batch, committed = some batch ∧ q.db.seqNo = (batch.seqNo + 1) % seqNoBound := by
  cases h with
  | nothing hsame _ => exact .inl hsame.seqNo
  | plain _ _ hseqNo => exact .inl hseqNo
  | batch batch _ _ hseqNo _ => exact .inr ⟨batch, rfl, hseqNo⟩
  | torn _ _ hsame _ => exact .inl hsame.seqNo

namespace Life

/-- A session whose database holds records that stand for the values of a store. No
    transaction of a number above a `base` is open. The batches have such numbers. -/
structure Alive [Indexer ι] (options : Options) (records : List LogRecord) (base : ℕ)
    (s : Session ι) (store : Store Bytes Bytes) : Prop where
  valid : DB.checkOptions options = .ok ()
  options_eq : s.proc.db.options = options
  olderFiles_eq : s.proc.db.olderFiles = ∅
  isMerging_eq : s.proc.db.isMerging = false
  stored : Stored s.proc records 0
  tidy : s.proc.world.fs.Tidy options
  outcomes : ∀ c, s.proc.world.outcomes c = []
  length_le : (encodeAll records).length ≤ options.dataFileSize
  standsFor : StandsFor records store.values
  index : Indexer.get s.proc.db.index = (replay (fileEntries 0 records)).value
  batches : s.batches.map WriteBatch.meaning = store.batches
  base_le : base ≤ s.proc.db.seqNo
  batch_seqNo : ∀ b ∈ s.batches, base < b.seqNo ∧ b.seqNo + 1 < seqNoBound
  pending : ∀ t, base < t → (replay (fileEntries 0 records)).pending t = []

variable [Indexer ι] {options : Options} {records : List LogRecord} {base : ℕ} {s : Session ι}
  {store : Store Bytes Bytes}

/-- The values of the store are read. -/
theorem Alive.get_eq (h : Alive options records base s store) {key : Bytes} (hkey : key ≠ []) :
    DB.get s.proc.db s.proc.world.fs key = (store.values key).elim (.error .keyNotFound) .ok := by
  have hindex (k : Bytes) : Option.Rel (HasValue records) (Indexer.get s.proc.db.index k)
      (store.values k) := by
    rw [h.index]
    exact h.standsFor.hasValue k
  rw [Session.get_of_hasValue h.stored h.standsFor.readable hindex hkey]
  cases store.values key <;> rfl

/-- The index points to the values of the store. -/
theorem Alive.exists_pos (h : Alive options records base s store) {key value : Bytes}
    (hvalue : store.values key = some value) : ∃ pos, Indexer.get s.proc.db.index key = some pos := by
  have hrel := h.standsFor.hasValue key
  rw [hvalue, ← h.index] at hrel
  generalize Indexer.get s.proc.db.index key = pos at hrel
  cases hrel with
  | some => exact ⟨_, rfl⟩

/-- Where the index points to, there is the value of the key. -/
theorem Alive.getValueByPosition_eq (h : Alive options records base s store) {key : Bytes}
    {pos : LogRecordPos} (hget : Indexer.get s.proc.db.index key = some pos) :
    ∃ value, store.values key = some value ∧
      s.proc.db.getValueByPosition s.proc.world.fs pos = .ok value := by
  have hrel := h.standsFor.hasValue key
  rw [← h.index, hget] at hrel
  generalize store.values key = value at hrel
  cases hrel with
  | some hrel =>
    obtain ⟨x, hx, rfl, htype, rfl⟩ := hrel
    refine ⟨_, rfl, ?_⟩
    rw [h.stored.getValueByPosition_eq hx (h.standsFor.readable _ (mem_of_mem_layout hx)),
      if_neg (by rw [htype]; decide)]

/-- A file of records that stand for some values is loaded. -/
theorem alive_of_opened {w w' : World} {db : DB ι} {fileIds : List ℕ}
    {values : Bytes → Option Bytes} (hvalid : DB.checkOptions options = .ok ())
    (htidy : w.fs.Tidy options) (hnil : ∀ c, w.outcomes c = [])
    (hlength : (encodeAll records).length ≤ options.dataFileSize)
    (hstands : StandsFor records values)
    (h : DB.Opened options fileIds (encodeAll records) w db w') :
    Alive options records (maxSeqNo records) ⟨⟨db, w'⟩, []⟩ { values := values } := by
  have hzeros : DB.Opened options fileIds (encodeAll records ++ List.replicate 0 0) w db w' := by
    simpa using h
  obtain ⟨hstored, hindex, hseqNo⟩ := hzeros.replayed hstands.readable (by decide) (by decide)
  exact ⟨hvalid, h.options_eq, h.olderFiles_eq, h.isMerging_eq, hstored,
    htidy.congr h.sameOthers.others h.sameOthers.hint h.sameOthers.lookup,
    fun c => by rw [h.sameOthers.outcomes, hnil], hlength, hstands, hindex, rfl, hseqNo.ge, nofun,
    fun t => pending_eq_nil⟩

/-- A database is opened where a file holds records that stand for some values. -/
theorem alive_open {w : World} {values : Bytes → Option Bytes}
    (hvalid : DB.checkOptions options = .ok ()) (htidy : w.fs.Tidy options)
    (hnil : ∀ c, w.outcomes c = [])
    (hfirst : w.fs.file? (getDataFileName options.dirPath 0) = some (encodeAll records))
    (hlength : (encodeAll records).length ≤ options.dataFileSize)
    (hmapped : options.mmapAtStartup = true → records ≠ [])
    (hstands : StandsFor records values) :
    ∃ (db : DB ι) (w' : World), (DB.open options : Sys (DB ι)).run w = .ok db w' ∧
      Alive options records (maxSeqNo records) ⟨⟨db, w'⟩, []⟩ { values := values } := by
  obtain ⟨db, w', hrun, hopened⟩ := DB.open_run_first (ι := ι) hvalid (.of_lookup htidy.merge)
    hfirst htidy.others (fun name => hnil _) (DB.hintOk_of_fits htidy.hint)
  have hcontent : DB.loadingContent options (encodeAll records) = encodeAll records := by
    refine if_neg fun ⟨hmmap, hempty⟩ => hmapped hmmap (List.eq_nil_of_length_eq_zero ?_)
    have hle := length_le_length_encodeAll records
    rw [hempty] at hle
    exact Nat.le_zero.1 hle
  rw [hcontent] at hopened
  exact ⟨db, w', hrun, alive_of_opened hvalid htidy hnil hlength hstands hopened⟩

/-! ## Requests -/

/-- Keys that are not empty may be written. -/
def admits (key : Bytes) : Bool := key ≠ []

/-- What a request is of the store. -/
def meaning : Op → Request Bytes Bytes
  | .put key value => .write (key, some value)
  | .remove key => .write (key, none)
  | .newWriteBatch options => .newBatch options.maxBatchNum
  | .batchPut i key value => .addToBatch i (key, some value)
  | .batchRemove i key => .addToBatch i (key, none)
  | .commit i => .commit i

omit [Indexer ι] in
theorem requested_eq (h : s.batches.map WriteBatch.meaning = store.batches) (op : Op) :
    s.requested op = store.requested admits (meaning op) := by
  cases op with
  | put key value => by_cases hkey : key = [] <;>
      simp [Session.requested, Store.requested, meaning, admits, hkey]
  | remove key => by_cases hkey : key = [] <;>
      simp [Session.requested, Store.requested, meaning, admits, hkey]
  | commit i =>
    rw [Session.requested, meaning, Store.requested, ← h, List.getElem?_map]
    cases s.batches[i]? <;> rfl
  | _ => rfl

omit [Indexer ι] in
theorem request_batches (s : Session ι) (m : DBM ι Unit) (writes : List Write) :
    (s.request m writes).1.batches = s.batches := by
  unfold Session.request
  split <;> rfl

/-- A write is added to a batch as it is meant. -/
theorem meaning_add {batch : WriteBatch} {record : LogRecord}
    {htype : record.type = .normal ∨ record.type = .deleted} :
    ((batch.add record htype).toOption.getD batch).meaning =
      batch.meaning.add (admits record.key) record.toWrite := by
  unfold WriteBatch.add Batch.add
  by_cases hkey : record.key = []
  · simp [hkey, admits, Except.toOption]
  · by_cases hroom : batch.options.maxBatchNum ≤ batch.pendingWrites.length
    · simp [hkey, hroom, admits, WriteBatch.meaning, Except.toOption]
    · simp [hkey, hroom, admits, WriteBatch.meaning, Except.toOption, Nat.not_le.1 hroom]

omit [Indexer ι] in
theorem editBatch_batches (s : Session ι) (i : ℕ) (edit : WriteBatch → Except Exn WriteBatch) :
    (s.editBatch i edit).batches =
      s.batches.modify i fun batch => (edit batch).toOption.getD batch := by
  unfold Session.editBatch
  split
  · rename_i hnone
    rw [List.modify_eq_self (List.getElem?_eq_none_iff.1 hnone)]
  · rename_i batch hbatch
    obtain ⟨hi, rfl⟩ := List.getElem?_eq_some_iff.1 hbatch
    refine List.ext_getElem? fun j => ?_
    rw [List.getElem?_modify]
    split
    · rename_i hedit
      by_cases hj : i = j
      · subst hj
        simp [hi, hedit, Except.toOption]
      · simp [hj]
    · rename_i hedit
      by_cases hj : i = j
      · subst hj
        simp [hi, hedit, Except.toOption]
      · simp [hj]

theorem map_modify {α β : Type*} {f : α → β} {g : α → α} {g' : β → β}
    (h : ∀ a, f (g a) = g' (f a)) (l : List α) (i : ℕ) :
    (l.modify i g).map f = (l.map f).modify i g' := by
  refine List.ext_getElem? fun j => ?_
  simp only [List.getElem?_map, List.getElem?_modify, Functor.map, Option.map_map]
  congr 1
  funext a
  by_cases hj : i = j <;> simp [hj, h]

/-- A batch that has been committed is empty. -/
theorem meaning_commit {batch batch' : WriteBatch} {p q : Proc ι}
    (h : batch.commit.run p = .ok batch' q) :
    batch'.meaning = { batch.meaning with writes := [] } := by
  rw [WriteBatch.commit] at h
  split at h
  · rename_i hnil
    cases h
    simp [WriteBatch.meaning, hnil]
  · obtain ⟨_, _, -, h⟩ := Guarantee.bind_eq_ok h
    obtain ⟨_, _, -, h⟩ := Guarantee.bind_eq_ok h
    obtain ⟨_, _, -, h⟩ := Guarantee.bind_eq_ok h
    obtain ⟨_, _, -, h⟩ := Guarantee.bind_eq_ok h
    cases h
    rfl

/-- If what is requested is acknowledged, the batches are those of the store. -/
theorem batches_step (h : s.batches.map WriteBatch.meaning = store.batches) {op : Op}
    (hack : (s.step op).2 = s.requested op) :
    (s.step op).1.batches.map WriteBatch.meaning =
      (store.request admits (meaning op)).batches := by
  have hedit (i : ℕ) (key : Bytes) (value : Option Bytes) (record : LogRecord)
      (htype : record.type = .normal ∨ record.type = .deleted) (hkey : record.key = key)
      (hwrite : record.toWrite = (key, value)) :
      (s.editBatch i fun batch => batch.add record htype).batches.map WriteBatch.meaning =
        store.batches.modify i fun batch => batch.add (admits key) (key, value) := by
    rw [editBatch_batches, ← h]
    exact map_modify (fun batch => by rw [meaning_add, hkey, hwrite]) s.batches i
  cases op with
  | put key value => rw [Session.step, request_batches, h]; rfl
  | remove key => rw [Session.step, request_batches, h]; rfl
  | newWriteBatch options =>
    show (s.batches ++ [WriteBatch.new s.proc.db options]).map WriteBatch.meaning = _
    rw [List.map_append, h]
    rfl
  | batchPut i key value => exact hedit i key (some value) _ (.inl rfl) rfl rfl
  | batchRemove i key => exact hedit i key none _ (.inr rfl) rfl rfl
  | commit i =>
    show _ = store.batches.modify i fun batch => { batch with writes := [] }
    rw [← h]
    rw [Session.step, Session.commitBatch] at hack ⊢
    rw [Session.requested] at hack
    split
    · rename_i hnone
      rw [List.modify_eq_self (by simpa using hnone)]
    · rename_i batch hbatch
      obtain ⟨hi, rfl⟩ := List.getElem?_eq_some_iff.1 hbatch
      split
      · rename_i batch' q hcommit
        refine List.ext_getElem? fun j => ?_
        by_cases hj : i = j
        · subst hj
          simp [hi, meaning_commit hcommit]
        · simp [hj]
      · rename_i e q hcommit
        -- A commit that throws acknowledges nothing, so there was nothing to be written.
        rw [hbatch] at hack
        simp only [hcommit, Option.elim_some] at hack
        have hpending := List.map_eq_nil_iff.1 hack.symm
        rw [WriteBatch.commit_nil hpending] at hcommit
        cases hcommit

/-- Whether a request creates a batch. -/
def makesBatch : Op → Bool
  | .newWriteBatch _ => true
  | _ => false

/-- A request that may be made: its records fit into the file and are not too large, no key
    that is stored plainly stands for another one, and sequence numbers do not run out. -/
structure Admits (s : Session ι) (op : Op) : Prop where
  fits : s.FitsFile false op
  small : s.SmallEnough op
  plain : s.PlainKeys op
  seqNo : makesBatch op = true → s.proc.db.seqNo + 2 < seqNoBound

instance (s : Session ι) (op : Op) : Decidable (Admits s op) :=
  decidable_of_iff (_ ∧ _ ∧ _ ∧ (_ → _)) ⟨fun h => ⟨h.1, h.2.1, h.2.2.1, h.2.2.2⟩,
    fun h => ⟨h.fits, h.small, h.plain, h.seqNo⟩⟩

/-- A request is made of the store, too. -/
theorem Alive.afterRequest (h : Alive options records base s store) {op : Op} (hop : Admits s op) :
    Alive options (records ++ s.appends op) base (s.step op).1
        (store.request admits (meaning op)) ∧
      (s.step op).2 = store.requested admits (meaning op) := by
  have hwrites : s.proc.writeOutcomes = [] := h.outcomes _
  have hshort : NoShortWrites s.proc := ⟨h.outcomes _, fun o ho => by rw [hwrites] at ho; cases ho⟩
  have hlength : s.writeOff = (encodeAll records).length := by
    rw [Session.writeOff, h.stored.active]
    rfl
  have hfit := hop.fits
  rw [Session.FitsFile, hlength] at hfit
  obtain ⟨⟨appended, hpre, hstored, heffect⟩, hrest, hack⟩ := Session.step_performed h.stored
    hshort hfit
  have hacks := (hack hwrites).trans (requested_eq h.batches op)
  have hreadable := heffect.readable hop.small hpre
  rw [Nat.zero_sub] at hstored
  -- All records have been appended, since the file holds all of them.
  obtain rfl : appended = s.appends op := by
    obtain ⟨rest, hsplit⟩ := hpre
    have hcontent := hstored.content
    rw [hrest.firstPath, Session.step_appended h.stored hwrites hfit, ← hsplit] at hcontent
    have hnil : (encodeAll rest).length = 0 := by
      have hcount := congrArg List.length (Option.some.inj hcontent)
      simp only [encodeAll_append, List.length_append, List.replicate_zero, List.length_nil]
        at hcount
      omega
    have hle := length_le_length_encodeAll rest
    rw [hnil] at hle
    rw [← hsplit, List.eq_nil_of_length_eq_zero (Nat.le_zero.1 hle), List.append_nil]
  have hseqNo {b : WriteBatch} (hb : b ∈ s.batches) :
      b.seqNo ≠ nonTransactionSeqNo ∧ b.seqNo < seqNoBound := by
    obtain ⟨hbase, hbound⟩ := h.batch_seqNo b hb
    exact ⟨Nat.ne_of_gt (Nat.zero_lt_of_lt hbase), Nat.lt_of_succ_lt hbound⟩
  obtain ⟨hindex, hpending⟩ := Session.replay_step h.index
    (fun b hb => hseqNo (Session.mem_of_committed hb)) hop.plain (fun b hb _ _ w hw => by
      rw [h.pending _ (h.batch_seqNo b (Session.mem_of_committed hb)).1] at hw
      cases hw) heffect
  have hvalue (k : Bytes) : Option.Rel (HasValue records) (Indexer.get s.proc.db.index k)
      (store.values k) := by
    rw [h.index]
    exact h.standsFor.hasValue k
  have hbaseLe : base ≤ (s.step op).1.proc.db.seqNo := by
    rcases heffect.seqNo_eq with hsame | ⟨batch, hc, hseqNo⟩
    · exact hsame ▸ h.base_le
    · obtain ⟨hbase, hbound⟩ := h.batch_seqNo batch (Session.mem_of_committed hc)
      rw [hseqNo, Nat.mod_eq_of_lt hbound]
      omega
  have hoptions := hrest.options.trans h.options_eq
  obtain ⟨holder, -⟩ := hrest.listed rfl
  refine ⟨⟨h.valid, hoptions, holder.trans h.olderFiles_eq, hrest.isMerging.trans h.isMerging_eq,
    hstored, ?_, fun c => ?_, ?_, ⟨List.forall_mem_append.2 ⟨h.standsFor.readable, hreadable⟩,
      fun k => ?_, fun k pos hpos => ?_⟩, hindex, batches_step h.batches (hack hwrites), hbaseLe,
    fun b hb => ?_, fun t ht => hpending hwrites t (h.pending t ht)⟩, hacks⟩
  · refine h.tidy.congr (fun fid hne => hrest.file? _ ?_) (hrest.file? _ ?_) fun dir hdir =>
      hrest.lookup dir (h.options_eq ▸ hdir)
    · simpa [DB.firstPath, getDataFileName, initialFileId] using fun _ => hne
    · simp [DB.firstPath, getDataFileName]
  · by_cases hc : c = .write s.proc.db.firstPath
    · rw [hc, ← hrest.firstPath]
      exact hrest.writes_nil hwrites
    · exact (hrest.outcomes c hc).trans (h.outcomes c)
  · rw [encodeAll_append, List.length_append]
    rw [h.options_eq] at hfit
    exact hfit.length_le h.length_le List.prefix_rfl
  · rw [← hindex, Store.values_request, ← hacks]
    exact Session.hasValue_overlay hvalue heffect k
  · rw [← hindex] at hpos
    refine Session.putAt_step (fun b hb => (hseqNo hb).2) (fun k pos hpos => ?_) heffect k pos hpos
    rw [h.index] at hpos
    exact h.standsFor.putAt k pos hpos
  · rcases Session.seqNo_step hb with ⟨hnew, hseqNo⟩ | ⟨b', hb', hseqNo⟩
    · have hroom := hop.seqNo (by obtain ⟨options, rfl⟩ := hnew; rfl)
      have hbase := h.base_le
      rw [hseqNo, Nat.mod_eq_of_lt (by omega)]
      omega
    · rw [hseqNo]
      exact h.batch_seqNo b' hb'

/-! ## The machine -/

/-- What happens in the life of a database. -/
inductive Event
  /-- A request is made. -/
  | request (op : Op)
  /-- The process dies during a request that has made so many changes to the file system,
      and another one opens the database. -/
  | crash (op : Op) (changes : ℕ)
  /-- The database is closed, and opened again. -/
  | reopen
  /-- The data files are merged, if enough of them may be reclaimed and enough space is left. -/
  | merge (shouldMerge : Bool) (availableSize : ℕ)
  /-- The process dies during a merge that has made so many changes to the file system, and
      another one opens the database. -/
  | mergeCrash (shouldMerge : Bool) (availableSize changes : ℕ)
deriving DecidableEq, Repr

/-- What comes of an event: writes that are acknowledged, or an exception. -/
inductive Answer
  | acknowledged (writes : List Write)
  | thrown (e : Exn)
deriving DecidableEq, Repr

/-- What a computation has thrown. -/
def thrown {σ α : Type} (r : EStateM.Result Exn σ α) : List Answer := (exn? r).toList.map .thrown

/-- A new process opens the database in a world. -/
def restarted (s : Session ι) (w : World) : Session ι × List Answer :=
  let r := (DB.open s.proc.db.options : Sys (DB ι)).run w
  ((value? r).elim { s with proc := { s.proc with world := finalState r } } fun db =>
    ⟨⟨db, finalState r⟩, []⟩, thrown r)

/-- The world after a merge. -/
def mergedWorld (s : Session ι) (shouldMerge : Bool) (availableSize : ℕ) : World :=
  (finalState ((DB.merge shouldMerge availableSize : DBM ι Unit).run s.proc)).world

/-- The file system that a merge leaves behind that is cut off after so many of its changes. -/
def mergeCutOff (s : Session ι) (shouldMerge : Bool) (availableSize changes : ℕ) : FS :=
  s.proc.world.cutOff (mergedWorld s shouldMerge availableSize) changes

/-- What happens next. -/
def step (s : Session ι) : Event → Session ι × List Answer
  | .request op => ((s.step op).1, [.acknowledged (s.step op).2])
  | .crash op changes => restarted s { s.proc.world with fs := s.cutOff op changes }
  | .reopen =>
    let r := (DB.close : DBM ι Unit).run s.proc
    let x := restarted { s with proc := finalState r } (finalState r).world
    (x.1, thrown r ++ x.2)
  | .merge shouldMerge availableSize =>
    let r := (DB.merge shouldMerge availableSize : DBM ι Unit).run s.proc
    ({ s with proc := finalState r }, thrown r)
  | .mergeCrash shouldMerge availableSize changes =>
    restarted s { s.proc.world with fs := mergeCutOff s shouldMerge availableSize changes }

/-- The data file is not memory mapped when it is opened, and every key stands for itself. -/
def Mergeable (s : Session ι) : Prop :=
  s.proc.db.options.mmapAtStartup = false ∧ ∀ key ∈ Indexer.listKeys s.proc.db.index,
    parseLogRecordKey key = (key, nonTransactionSeqNo)

instance (s : Session ι) : Decidable (Mergeable s) :=
  inferInstanceAs (Decidable (_ ∧ ∀ key ∈ Indexer.listKeys s.proc.db.index, _))

/-- A merge that is cut off leaves a file as it was before, or as it is after the merge. -/
def Whole (s : Session ι) (shouldMerge : Bool) (availableSize changes : ℕ) (path : FilePath) :
    Prop :=
  let fs := mergeCutOff s shouldMerge availableSize changes
  fs.file? path = s.proc.world.fs.file? path ∨
    fs.file? path = (mergedWorld s shouldMerge availableSize).fs.file? path

/-- A merge that is cut off leaves the first data file and the hint file as they were before, or
    as they are after the merge. The hint file may be empty, too. -/
def Settled (s : Session ι) (shouldMerge : Bool) (availableSize changes : ℕ) : Prop :=
  let hintPath : FilePath := ⟨s.proc.db.options.dirPath, .hintIndex⟩
  Whole s shouldMerge availableSize changes s.proc.db.firstPath ∧
    (Whole s shouldMerge availableSize changes hintPath ∨
      (mergeCutOff s shouldMerge availableSize changes).file? hintPath = some [])

instance (s : Session ι) (shouldMerge : Bool) (availableSize changes : ℕ) :
    DecidablePred (Whole s shouldMerge availableSize changes) := fun _ =>
  inferInstanceAs (Decidable (_ ∨ _))

instance (s : Session ι) (shouldMerge : Bool) (availableSize changes : ℕ) :
    Decidable (Settled s shouldMerge availableSize changes) :=
  inferInstanceAs (Decidable (_ ∧ (_ ∨ _)))

/-- What may happen: requests that may be made; if the data file is memory mapped when it is
    opened, a restart when it is not empty; and otherwise a merge when every key stands for
    itself, in which the process may die while the files are settled. -/
def Permits (s : Session ι) : Event → Prop
  | .request op => Admits s op
  | .crash op _ => Admits s op ∧ (s.proc.db.options.mmapAtStartup = true → s.writeOff ≠ 0)
  | .reopen => s.proc.db.options.mmapAtStartup = true → s.writeOff ≠ 0
  | .merge _ _ => Mergeable s
  | .mergeCrash shouldMerge availableSize changes =>
    Mergeable s ∧ Settled s shouldMerge availableSize changes

instance (s : Session ι) : DecidablePred (Permits s)
  | .request op => inferInstanceAs (Decidable (Admits s op))
  | .crash op _ => inferInstanceAs (Decidable (Admits s op ∧ (_ → _)))
  | .reopen => inferInstanceAs (Decidable (_ → _))
  | .merge _ _ => inferInstanceAs (Decidable (Mergeable s))
  | .mergeCrash shouldMerge availableSize changes =>
    inferInstanceAs (Decidable (Mergeable s ∧ Settled s shouldMerge availableSize changes))

/-- What comes of an event in a store. -/
inductive Spec : Store Bytes Bytes → Event → List Answer → Store Bytes Bytes → Prop
  | request (store : Store Bytes Bytes) (op : Op) :
    Spec store (.request op) [.acknowledged (store.requested admits (meaning op))]
      (store.request admits (meaning op))
  /-- The request has not been made when the process dies. -/
  | undone (store : Store Bytes Bytes) (op : Op) (changes : ℕ) :
    Spec store (.crash op changes) [] store.restart
  /-- The request has been made when the process dies. -/
  | done (store : Store Bytes Bytes) (op : Op) (changes : ℕ) :
    Spec store (.crash op changes) [] (store.request admits (meaning op)).restart
  | reopen (store : Store Bytes Bytes) : Spec store .reopen [] store.restart
  | merge (store : Store Bytes Bytes) (shouldMerge : Bool) (availableSize : ℕ) :
    Spec store (.merge shouldMerge availableSize) [] store
  | refused (store : Store Bytes Bytes) (shouldMerge : Bool) (availableSize : ℕ) {e : Exn}
    (reason : e = .mergeRatioUnreached ∨ e = .noEnoughSpaceForMerge) :
    Spec store (.merge shouldMerge availableSize) [.thrown e] store
  | mergeCrash (store : Store Bytes Bytes) (shouldMerge : Bool) (availableSize changes : ℕ) :
    Spec store (.mergeCrash shouldMerge availableSize changes) [] store.restart

/-! ## Restarts -/

/-- A database is opened again where the file holds records that stand for some values. -/
theorem alive_restarted {t : Session ι} {w : World} {values : Bytes → Option Bytes}
    (hoptions : t.proc.db.options = options) (hvalid : DB.checkOptions options = .ok ())
    (htidy : w.fs.Tidy options) (hnil : ∀ c, w.outcomes c = [])
    (hfirst : w.fs.file? (getDataFileName options.dirPath 0) = some (encodeAll records))
    (hlength : (encodeAll records).length ≤ options.dataFileSize)
    (hmapped : options.mmapAtStartup = true → records ≠ [])
    (hstands : StandsFor records values) :
    (restarted t w).2 = [] ∧
      ∃ base, Alive options records base (restarted t w).1 { values := values } := by
  obtain ⟨db, w', hrun, halive⟩ := alive_open (ι := ι) hvalid htidy hnil hfirst hlength hmapped
    hstands
  have hrestarted : restarted t w = (⟨⟨db, w'⟩, []⟩, []) := by
    rw [restarted, hoptions, hrun]
    rfl
  rw [hrestarted]
  exact ⟨rfl, _, halive⟩

theorem Alive.firstPath_eq (h : Alive options records base s store) :
    s.proc.db.firstPath = getDataFileName options.dirPath 0 := by
  rw [DB.firstPath, h.options_eq]
  rfl

theorem Alive.first (h : Alive options records base s store) :
    s.proc.world.fs.file? (getDataFileName options.dirPath 0) = some (encodeAll records) := by
  rw [← h.firstPath_eq]
  simpa using h.stored.content

theorem Alive.ne_nil_of_writeOff (h : Alive options records base s store)
    (hne : s.writeOff ≠ 0) : records ≠ [] := by
  rintro rfl
  rw [Session.writeOff, h.stored.active] at hne
  exact hne rfl

/-- A database that is closed and opened again has its values. -/
theorem Alive.afterReopen (h : Alive options records base s store)
    (hmapped : options.mmapAtStartup = true → s.writeOff ≠ 0) :
    (step s .reopen).2 = [] ∧
      ∃ base, Alive options records base (step s .reopen).1 store.restart := by
  obtain ⟨w, hclose, hsame⟩ := DB.close_run (h.firstPath_eq ▸ h.first) (h.outcomes _)
    (h.outcomes _) (h.outcomes _)
  have hstep : step s .reopen = restarted { s with proc := ⟨s.proc.db.closed, w⟩ } w := by
    rw [step, hclose]
    rfl
  have hoptions : s.proc.db.closed.options = options := by
    rw [← h.options_eq]
    unfold DB.closed
    split <;> rfl
  rw [h.options_eq] at hsame
  rw [hstep]
  exact alive_restarted hoptions h.valid (h.tidy.congr hsame.others hsame.hint hsame.lookup)
    (fun c => by rw [hsame.outcomes, h.outcomes]) (hsame.first.trans h.first) h.length_le
    (fun hmmap => h.ne_nil_of_writeOff (hmapped hmmap)) h.standsFor

/-- Some of the records of a request are all of them, none, or the first of a batch. -/
theorem take_appends (s : Session ι) (op : Op) (n : ℕ) :
    (s.appends op).take n = s.appends op ∨ (s.appends op).take n = [] ∨
      ∃ batch, s.committed op = some batch ∧ (s.appends op).take n =
        (batch.pendingWrites.take n).map (WriteBatch.withSeq batch.seqNo) := by
  have hone (records : List LogRecord) (h : records.length ≤ 1) :
      records.take n = records ∨ records.take n = [] := by
    cases n with
    | zero => exact .inr rfl
    | succ n => exact .inl (List.take_of_length_le (by omega))
  cases op with
  | put key value =>
    exact (hone _ (by rw [Session.appends]; split <;> simp)).imp_right .inl
  | remove key =>
    exact (hone _ (by rw [Session.appends]; split <;> simp)).imp_right .inl
  | commit i =>
    rw [Session.appends, Session.committed]
    cases hbatch : s.batches[i]? with
    | none => exact .inl (List.take_nil)
    | some batch =>
      dsimp only
      split
      · exact .inl List.take_nil
      · rw [WriteBatch.records]
        by_cases hn : n ≤ batch.pendingWrites.length
        · refine .inr (.inr ⟨batch, rfl, ?_⟩)
          rw [List.take_append_of_le_length (by simpa using hn), List.map_take]
        · exact .inl (List.take_of_length_le (by simp; omega))
  | newWriteBatch options => exact .inl List.take_nil
  | batchPut i key value => exact .inl List.take_nil
  | batchRemove i key => exact .inl List.take_nil

/-- A request that is cut off has been made, or not. -/
theorem Alive.afterCrash (h : Alive options records base s store) {op : Op} (hop : Admits s op)
    (changes : ℕ) (hmapped : options.mmapAtStartup = true → s.writeOff ≠ 0) :
    (step s (.crash op changes)).2 = [] ∧
      ∃ records base, Alive options records base (step s (.crash op changes)).1 store.restart ∨
        Alive options records base (step s (.crash op changes)).1
          (store.request admits (meaning op)).restart := by
  have hlength : s.writeOff = (encodeAll records).length := by
    rw [Session.writeOff, h.stored.active]
    rfl
  have hfit := hop.fits
  rw [Session.FitsFile, hlength] at hfit
  obtain ⟨hfirst, hfile, hlookup⟩ := Session.cutOff_spec h.stored (h.outcomes _) hfit changes
  have htidy : (s.cutOff op changes).Tidy options := by
    refine h.tidy.congr (fun fid hne => hfile _ ?_) (hfile _ ?_) fun dir hdir =>
      hlookup dir (h.options_eq ▸ hdir)
    · simpa [h.firstPath_eq, getDataFileName] using hne
    · simp [h.firstPath_eq, getDataFileName]
  rw [h.firstPath_eq] at hfirst
  have hle : (encodeAll (records ++ (s.appends op).take changes)).length ≤ options.dataFileSize := by
    rw [encodeAll_append, List.length_append]
    rw [h.options_eq] at hfit
    exact hfit.length_le h.length_le (List.take_prefix _ _)
  have hne (hmmap : options.mmapAtStartup = true) :
      records ++ (s.appends op).take changes ≠ [] :=
    List.append_ne_nil_of_left_ne_nil (h.ne_nil_of_writeOff (hmapped hmmap)) _
  have hreopened {values : Bytes → Option Bytes}
      (hstands : StandsFor (records ++ (s.appends op).take changes) values) :=
    alive_restarted (t := s) (w := { s.proc.world with fs := s.cutOff op changes }) h.options_eq
      h.valid htidy h.outcomes hfirst hle hne hstands
  rcases take_appends s op changes with hall | hnone | ⟨batch, hbatch, htorn⟩
  · obtain ⟨hnil, base', halive⟩ := hreopened (hall ▸ (h.afterRequest hop).1.standsFor)
    exact ⟨hnil, _, base', .inr halive⟩
  · rw [hnone, List.append_nil] at hreopened
    obtain ⟨hnil, base', halive⟩ := hreopened h.standsFor
    exact ⟨hnil, _, base', .inl halive⟩
  · obtain ⟨hbase, hbound⟩ := h.batch_seqNo batch (Session.mem_of_committed hbatch)
    have hreadable (r : LogRecord) (hr : r ∈ (s.appends op).take changes) : r.Readable :=
      (h.afterRequest hop).1.standsFor.readable r
        (List.mem_append_right _ (List.mem_of_mem_take hr))
    rw [htorn] at hreopened hreadable
    obtain ⟨hnil, base', halive⟩ := hreopened (h.standsFor.torn
      (Nat.ne_of_gt (Nat.zero_lt_of_lt hbase)) (Nat.lt_of_succ_lt hbound) hreadable)
    exact ⟨hnil, _, base', .inl halive⟩

/-! ## Merges -/

/-- Records that put different keys, each of which stands for itself, stand for their values. -/
theorem standsFor_of_putOnce {values : Bytes → Option Bytes} (hput : PutOnce records)
    (hplain : ∀ r ∈ records, parseLogRecordKey r.key = (r.key, nonTransactionSeqNo))
    (hvalue : ∀ r ∈ records, values r.key = some r.value)
    (hkeys : ∀ k v, values k = some v → ∃ r ∈ records, r.key = k) :
    StandsFor records values := by
  have hiff (key : Bytes) (pos : LogRecordPos) :
      (replay (fileEntries 0 records)).value key = some pos ↔
        ∃ x ∈ offsets records, x.2.key = key ∧ pos = posOf 0 x := by
    have hentries : positionsIn [(0, encodeAll records)] =
        (replay (fileEntries 0 records)).value := by
      rw [positionsIn, List.flatMap_singleton, readEntries_encodeAll 0 hput.readable]
    rw [← hentries, hput.positionsIn_iff]
    refine and_iff_right_of_imp ?_
    rintro ⟨x, hx, rfl, -⟩
    exact hplain _ (mem_of_mem_layout hx)
  refine ⟨hput.readable, fun k => ?_, fun k pos hpos => ?_⟩
  · rcases hv : values k with _ | v
    · suffices hnone : (replay (fileEntries 0 records)).value k = none by rw [hnone]; exact .none
      refine Option.eq_none_iff_forall_ne_some.2 fun pos hpos => ?_
      obtain ⟨x, hx, rfl, -⟩ := (hiff k pos).1 hpos
      rw [hvalue _ (mem_of_mem_layout hx)] at hv
      cases hv
    · obtain ⟨r, hr, rfl⟩ := hkeys k v hv
      obtain rfl := Option.some.inj ((hvalue r hr).symm.trans hv)
      rw [← map_snd_offsets records] at hr
      obtain ⟨x, hx, rfl⟩ := List.mem_map.1 hr
      rw [(hiff _ _).2 ⟨x, hx, rfl, rfl⟩]
      exact .some ⟨x, hx, rfl, hput.type_eq _ (mem_of_mem_layout hx), rfl⟩
  · obtain ⟨x, hx, rfl, rfl⟩ := (hiff k pos).1 hpos
    have hr := mem_of_mem_layout hx
    refine ⟨hput.key_ne _ hr, x, hx, rfl, hput.type_eq _ hr, nonTransactionSeqNo, by decide, ?_⟩
    rw [logRecordKeyWithSeq, if_pos rfl]

/-- No transaction is open if every stored key stands for itself. -/
theorem pending_of_plain (hplain : ∀ r ∈ records,
    parseLogRecordKey r.key = (r.key, nonTransactionSeqNo)) (t : ℕ) :
    (replay (fileEntries 0 records)).pending t = [] := by
  refine List.eq_nil_iff_forall_not_mem.2 fun w hw => ?_
  obtain ⟨i, hheld, -⟩ := mem_pending_iff.1 hw
  obtain ⟨x, hx, hentry⟩ := List.mem_map.1 (List.mem_of_getElem? hheld)
  rw [entryOf_plain _ (hplain _ (mem_of_mem_layout hx))] at hentry
  cases hentry

theorem Alive.unrotated (h : Alive options records base s store) :
    Unrotated options s.proc records where
  mergeable := ⟨h.options_eq, h.valid, ⟨_, h.stored.active, rfl⟩, h.olderFiles_eq,
    by rw [h.first]; rfl, h.tidy.others, h.outcomes⟩
  stored := h.stored
  isMerging_eq := h.isMerging_eq
  length_le := h.length_le
  putAt k pos hpos := h.standsFor.putAt k pos (h.index ▸ hpos)

/-- The copies that a merge makes stand for the values if every key stands for itself. -/
theorem Alive.standsFor_merged (h : Alive options records base s store)
    (hplain : ∀ key ∈ Indexer.listKeys s.proc.db.index,
      parseLogRecordKey key = (key, nonTransactionSeqNo)) :
    (∀ r ∈ DB.merged s.proc.db.index records,
      parseLogRecordKey r.key = (r.key, nonTransactionSeqNo)) ∧
      StandsFor (DB.merged s.proc.db.index records) store.values := by
  have hput := h.unrotated.putOnce
  have hcopy {r : LogRecord} (hr : r ∈ DB.merged s.proc.db.index records) :
      r.key ≠ [] ∧ store.values r.key = some r.value := by
    have hkey := hput.key_ne r hr
    have hget := (h.get_eq hkey).symm.trans (h.unrotated.get_of_mem_copies hr)
    rcases hv : store.values r.key with _ | v
    · rw [hv] at hget
      cases hget
    · rw [hv] at hget
      cases hget
      exact ⟨hkey, rfl⟩
  have hstands {key : Bytes} (hkey : ∃ pos, Indexer.get s.proc.db.index key = some pos) :
      parseLogRecordKey key = (key, nonTransactionSeqNo) :=
    hplain key ((Indexer.mem_listKeys _ key).2 (Option.isSome_iff_exists.2 hkey))
  have hkeys (r : LogRecord) (hr : r ∈ DB.merged s.proc.db.index records) :
      parseLogRecordKey r.key = (r.key, nonTransactionSeqNo) := hstands (h.exists_pos (hcopy hr).2)
  refine ⟨hkeys, standsFor_of_putOnce hput hkeys (fun r hr => (hcopy hr).2)
    fun key value hvalue => ?_⟩
  -- A key that stands for itself keeps its value, so it has been copied.
  obtain ⟨pos, hpos⟩ := h.exists_pos hvalue
  have hkey : key ≠ [] := (h.unrotated.putAt key pos hpos).1
  have hget : s.proc.db.get s.proc.world.fs key = .ok value := by
    rw [h.get_eq hkey, hvalue]
    rfl
  have hkept := (h.unrotated.get_merged_eq_ok_iff hget).2 ⟨hstands ⟨pos, hpos⟩,
    h.unrotated.scans h.standsFor.readable (hstands ⟨pos, hpos⟩) hpos⟩
  by_contra hnot
  rw [hput.valueIn_of_not_mem hkey fun _ r hr hrkey => hnot ⟨r, hr, hrkey⟩] at hkept
  cases hkept

/-- A merge that has not been refused has replaced the records by those of the live keys. -/
theorem Alive.afterMerge (h : Alive options records base s store) (shouldMerge : Bool)
    (availableSize : ℕ) (hmergeable : Mergeable s) :
    let x := step s (.merge shouldMerge availableSize)
    (∃ records, Alive options records base x.1 store) ∧
      (x.2 = [] ∨ ∃ e, x.2 = [.thrown e] ∧
        (e = .mergeRatioUnreached ∨ e = .noEnoughSpaceForMerge)) := by
  intro x
  obtain ⟨hmmap, hplain⟩ := hmergeable
  rw [h.options_eq] at hmmap
  rcases h.unrotated.merge_cases h.tidy.hierarchical shouldMerge availableSize with
    hrun | ⟨e, hrun, he⟩ | ⟨q, hrun, hmerged, hleaves⟩
  · have hx : x = (s, []) := by
      show step s (.merge shouldMerge availableSize) = _
      rw [step, hrun]
      rfl
    rw [hx]
    exact ⟨⟨records, h⟩, .inl rfl⟩
  · have hx : x = (s, [.thrown e]) := by
      show step s (.merge shouldMerge availableSize) = _
      rw [step, hrun]
      rfl
    rw [hx]
    exact ⟨⟨records, h⟩, .inr ⟨e, rfl, he⟩⟩
  · have hx : x = ({ s with proc := { q with db := { q.db with isMerging := false } } }, []) := by
      show step s (.merge shouldMerge availableSize) = _
      rw [step, hrun]
      rfl
    obtain ⟨hkeys, hstands⟩ := h.standsFor_merged hplain
    set copies := DB.merged s.proc.db.index records with hcopies
    have hcontent : DB.loadingContent options (encodeAll copies) = encodeAll copies :=
      if_neg (by simp [hmmap])
    have hindex : Indexer.get q.db.index = (replay (fileEntries 0 copies)).value := by
      rw [hmerged.index, hcontent, positionsIn, List.flatMap_singleton,
        readEntries_encodeAll 0 hstands.readable]
    have hhint : HintReads (encodeAll (DB.hintRecords copies)) :=
      DB.hintReads_hintRecords fun r hr => (hstands.readable r hr).key_le
    rw [hx]
    refine ⟨⟨copies, h.valid, hmerged.loaded.options_eq, hleaves.olderFiles_eq, rfl,
      (hleaves.stored hmmap hstands.readable).congr rfl rfl rfl, ⟨hleaves.others, ?_, ?_, ?_⟩,
      hmerged.outcomes, (DB.length_copies_le _ _ _).trans h.length_le, hstands, hindex, h.batches,
      ?_, h.batch_seqNo, fun t _ => pending_of_plain hkeys t⟩, .inl rfl⟩
    · intro content hfile
      obtain rfl := Option.some.inj (hleaves.hint.symm.trans hfile)
      exact hhint
    · exact (hleaves.lookup _ (DB.merge_ne _) (DB.merge_not_below _)).trans h.tidy.merge
    · intro hnone sub hsub
      by_cases hself : sub = DB.getMergePath options.dirPath
      · exact hself ▸ hnone
      · exact hleaves.removed sub hself hsub
    · exact h.base_le.trans hleaves.seqNo_eq.ge

/-- A merge that is cut off has left the records, or chunks of those of the live keys, or no
    data file. -/
theorem Alive.midway (h : Alive options records base s store) (hmergeable : Mergeable s)
    (shouldMerge : Bool) (availableSize changes : ℕ) :
    (mergeCutOff s shouldMerge availableSize changes).Midway options records
      (DB.merged s.proc.db.index records) :=
  (h.unrotated.merge_passes h.tidy (h.options_eq ▸ hmergeable.1) shouldMerge availableSize).cutOff
    (.of_tidy h.tidy h.first) changes

/-- The hint file of settled files can be read. -/
theorem Alive.hintFits (h : Alive options records base s store) (hmergeable : Mergeable s)
    {shouldMerge : Bool} {availableSize changes : ℕ}
    (hsettled : Settled s shouldMerge availableSize changes) :
    DB.HintFits (mergeCutOff s shouldMerge availableSize changes) options.dirPath := by
  obtain ⟨⟨records', hafter⟩, -⟩ := h.afterMerge shouldMerge availableSize hmergeable
  rw [Settled, h.options_eq] at hsettled
  intro content hcontent
  rcases hsettled.2 with (hbefore | hafterwards) | hempty
  · exact h.tidy.hint content (hbefore.symm.trans hcontent)
  · exact hafter.tidy.hint content (hafterwards.symm.trans hcontent)
  · obtain rfl := Option.some.inj (hempty.symm.trans hcontent)
    exact DB.hintReads_nil

/-- The values are there if a process dies in a merge while there is the whole data file, old or
    new, and the hint file can be read. -/
theorem Alive.afterMergeCrash (h : Alive options records base s store) (hmergeable : Mergeable s)
    {shouldMerge : Bool} {availableSize changes : ℕ}
    (hfirst : Whole s shouldMerge availableSize changes s.proc.db.firstPath)
    (hfits : DB.HintFits (mergeCutOff s shouldMerge availableSize changes) options.dirPath) :
    let x := step s (.mergeCrash shouldMerge availableSize changes)
    x.2 = [] ∧ ∃ records base, Alive options records base x.1 store.restart := by
  intro x
  obtain ⟨⟨records', hafter⟩, -⟩ := h.afterMerge shouldMerge availableSize hmergeable
  rw [Whole, h.firstPath_eq] at hfirst
  have htidy := (h.midway hmergeable shouldMerge availableSize changes).tidy hfits
  have hplain : options.mmapAtStartup = false := h.options_eq ▸ hmergeable.1
  have hreopened {records' : List LogRecord}
      (hfirst : (mergeCutOff s shouldMerge availableSize changes).file?
        (getDataFileName options.dirPath 0) = some (encodeAll records'))
      (hlength : (encodeAll records').length ≤ options.dataFileSize)
      (hstands : StandsFor records' store.values) :=
    alive_restarted (t := s)
      (w := { s.proc.world with fs := mergeCutOff s shouldMerge availableSize changes })
      h.options_eq h.valid htidy h.outcomes hfirst hlength
      (fun hmmap => absurd hmmap (by simp [hplain])) hstands
  rcases hfirst with hbefore | hafterwards
  · obtain ⟨hnil, base', halive⟩ := hreopened (hbefore.trans h.first) h.length_le h.standsFor
    exact ⟨hnil, _, base', halive⟩
  · obtain ⟨hnil, base', halive⟩ := hreopened (hafterwards.trans hafter.first) hafter.length_le
      hafter.standsFor
    exact ⟨hnil, _, base', halive⟩

/-! ## Lives -/

/-- Every event is one of the store. -/
theorem Alive.simulates (h : Alive options records base s store) {event : Event}
    (hevent : Permits s event) :
    ∃ store', Spec store event (step s event).2 store' ∧
      ∃ records base, Alive options records base (step s event).1 store' := by
  cases event with
  | request op =>
    obtain ⟨halive, hacks⟩ := h.afterRequest hevent
    refine ⟨_, ?_, _, _, halive⟩
    rw [step, hacks]
    exact .request store op
  | crash op changes =>
    obtain ⟨hnil, records, base, halive | halive⟩ := h.afterCrash hevent.1 changes
      (h.options_eq ▸ hevent.2)
    · exact ⟨_, hnil ▸ .undone store op changes, _, _, halive⟩
    · exact ⟨_, hnil ▸ .done store op changes, _, _, halive⟩
  | reopen =>
    obtain ⟨hnil, base, halive⟩ := h.afterReopen (h.options_eq ▸ hevent)
    exact ⟨_, hnil ▸ .reopen store, _, _, halive⟩
  | merge shouldMerge availableSize =>
    obtain ⟨⟨records, halive⟩, hanswer⟩ := h.afterMerge shouldMerge availableSize hevent
    refine ⟨store, ?_, _, _, halive⟩
    rcases hanswer with hnil | ⟨e, hthrown, hreason⟩
    · exact hnil ▸ .merge store shouldMerge availableSize
    · exact hthrown ▸ .refused store shouldMerge availableSize hreason
  | mergeCrash shouldMerge availableSize changes =>
    obtain ⟨hnil, records, base, halive⟩ := h.afterMergeCrash hevent.1 hevent.2.1
      (h.hintFits hevent.1 hevent.2)
    exact ⟨_, hnil ▸ .mergeCrash store shouldMerge availableSize changes, _, _, halive⟩

/-- A new database is alive. -/
theorem alive_open_fresh {w : World} (hfresh : Fresh options w) (hnil : ∀ c, w.outcomes c = [])
    (hfs : w.fs.Hierarchical (DB.getMergePath options.dirPath)) :
    ∃ (db : DB ι) (w' : World), (DB.open options : Sys (DB ι)).run w = .ok db w' ∧
      Alive options [] (maxSeqNo []) ⟨⟨db, w'⟩, []⟩ { values := fun _ => none } := by
  obtain ⟨db, w', hrun, hopened, -⟩ := hfresh.open_run (ι := ι)
  refine ⟨db, w', hrun, alive_of_opened hfresh.valid ⟨fun _ _ => hfresh.file?_eq_none _, ?_,
    hfresh.lookup_merge, hfs⟩ hnil (Nat.zero_le _) standsFor_nil hopened⟩
  intro content hcontent
  rw [hfresh.file?_eq_none] at hcontent
  cases hcontent

/-- What has become of a new database is alive after every life that is permitted. -/
theorem alive_run {w : World} (hfresh : Fresh options w) (hio : ∀ c, w.outcomes c = [])
    (hfs : w.fs.Hierarchical (DB.getMergePath options.dirPath)) :
    ∃ (db : DB ι) (w' : World), (DB.open options : Sys (DB ι)).run w = .ok db w' ∧
      ∀ events, Machine.AllSteps step Permits ⟨⟨db, w'⟩, []⟩ events →
        let x := Machine.run step ⟨⟨db, w'⟩, []⟩ events
        ∃ store, Machine.SpecRun Spec { values := fun _ => none } events x.2 store ∧
          ∃ records base, Alive options records base x.1 store := by
  obtain ⟨db, w', hrun, halive⟩ := alive_open_fresh (ι := ι) hfresh hio hfs
  exact ⟨db, w', hrun, fun events hevents => Machine.run_refines
    (R := fun s store => ∃ records base, Alive options records base s store)
    (fun s store event ⟨records, base, h⟩ hevent => h.simulates hevent) ⟨[], _, halive⟩ hevents⟩

/-- Whatever happens in the life of a new database, crashes, restarts and merges in any order
    between the requests, as long as it is permitted: what comes of it is what comes of it in the
    store, and the values read are those of the store. -/
theorem refines {w : World} (hfresh : Fresh options w) (hio : ∀ c, w.outcomes c = [])
    (hfs : w.fs.Hierarchical (DB.getMergePath options.dirPath)) :
    ∃ (db : DB ι) (w' : World), (DB.open options : Sys (DB ι)).run w = .ok db w' ∧
      ∀ events, Machine.AllSteps step Permits ⟨⟨db, w'⟩, []⟩ events →
        let x := Machine.run step ⟨⟨db, w'⟩, []⟩ events
        ∃ store, Machine.SpecRun Spec { values := fun _ => none } events x.2 store ∧
          x.1.batches.map WriteBatch.meaning = store.batches ∧
          ∀ key ≠ [], DB.get x.1.proc.db x.1.proc.world.fs key =
            (store.values key).elim (.error .keyNotFound) .ok := by
  obtain ⟨db, w', hrun, hlives⟩ := alive_run (ι := ι) hfresh hio hfs
  refine ⟨db, w', hrun, fun events hevents => ?_⟩
  obtain ⟨store, hspec, records, base, hend⟩ := hlives events hevents
  exact ⟨store, hspec, hend.batches, fun key hkey => hend.get_eq hkey⟩

/-- A batch of two writes is cut off behind the first one, and a merge before it replaces the
    data file. Then the files are merged, and the database is closed and opened again. -/
def cutOffOnce : List Event :=
  [.request (.put [97] [49]), .request (.newWriteBatch ⟨10⟩), .request (.batchPut 0 [97] [50]),
    .request (.batchPut 0 [98] [51]), .crash (.commit 0) 1,
    .mergeCrash true DB.minAvailableSize 3, .merge true DB.minAvailableSize, .reopen]

/-- Neither of the writes has been made. -/
theorem refines_cutOffOnce : ∃ (db : DB BTreeIndex) (w' : World),
    (DB.open ⟨['d'], 100, false⟩ : Sys (DB BTreeIndex)).run { fs := ∅ } = .ok db w' ∧
      let x := Machine.run step ⟨⟨db, w'⟩, []⟩ cutOffOnce
      ∃ store, Machine.SpecRun Spec { values := fun _ => none } cutOffOnce x.2 store ∧
        (∀ key ≠ [], DB.get x.1.proc.db x.1.proc.world.fs key =
          (store.values key).elim (.error .keyNotFound) .ok) ∧
        DB.get x.1.proc.db x.1.proc.world.fs [97] = .ok [49] ∧
        DB.get x.1.proc.db x.1.proc.world.fs [98] = .error .keyNotFound := by
  obtain ⟨db, w', hopen, h⟩ := refines (ι := BTreeIndex)
    (Session.fresh_empty (by decide : 100 ≠ 0) false) (fun _ => rfl) (fun _ _ _ => rfl)
  have hpermits : (value? ((DB.open ⟨['d'], 100, false⟩ :
      Sys (DB BTreeIndex)).run { fs := ∅ })).any (fun db' =>
        let w'' := finalState ((DB.open ⟨['d'], 100, false⟩ : Sys (DB BTreeIndex)).run { fs := ∅ })
        decide (Machine.AllSteps step Permits ⟨⟨db', w''⟩, []⟩ cutOffOnce)) = true := by
    decide +kernel
  have hfirst : (value? ((DB.open ⟨['d'], 100, false⟩ :
      Sys (DB BTreeIndex)).run { fs := ∅ })).any (fun db' =>
        let w'' := finalState ((DB.open ⟨['d'], 100, false⟩ : Sys (DB BTreeIndex)).run { fs := ∅ })
        let x := Machine.run step ⟨⟨db', w''⟩, []⟩ cutOffOnce
        decide (DB.get x.1.proc.db x.1.proc.world.fs [97] = .ok [49])) = true := by
    decide +kernel
  have hsecond : (value? ((DB.open ⟨['d'], 100, false⟩ :
      Sys (DB BTreeIndex)).run { fs := ∅ })).any (fun db' =>
        let w'' := finalState ((DB.open ⟨['d'], 100, false⟩ : Sys (DB BTreeIndex)).run { fs := ∅ })
        let x := Machine.run step ⟨⟨db', w''⟩, []⟩ cutOffOnce
        decide (DB.get x.1.proc.db x.1.proc.world.fs [98] = .error .keyNotFound)) = true := by
    decide +kernel
  simp only [hopen, value?, Option.any_some, finalState_ok, decide_eq_true_eq]
    at hpermits hfirst hsecond
  obtain ⟨store, hspec, -, hvalues⟩ := h cutOffOnce hpermits
  exact ⟨db, w', hopen, store, hspec, hvalues, hfirst, hsecond⟩

end Life

end Bitcask
