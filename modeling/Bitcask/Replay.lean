import Bitcask.Library.Framing
import Bitcask.Library.Transaction
import Bitcask.Load

/-!
# Scanning a log replays it

A log record with its position is an entry of a log of transactions
(`entryOf`): what it does is decided by its stored key and its type. Loading
takes records into account as `Transaction.State.step` does
(`Loading.state_process`), so reading a file that starts with encoded records
replays their entries (`loop_scanPass`), whatever comes behind them.
-/

namespace Bitcask

open Framing FuelLoop Transaction

/-- The write of a record at a position: deleting the key or putting the position. -/
def written? (type : LogRecordType) (pos : LogRecordPos) : Option LogRecordPos :=
  if type = .deleted then none else some pos

/-- What a record at a position does to the index. -/
def entryOf (record : LogRecord) (pos : LogRecordPos) : Entry ℕ Bytes LogRecordPos :=
  let (key, seqNo) := parseLogRecordKey record.key
  if seqNo = nonTransactionSeqNo then .plain key (written? record.type pos)
  else if record.type = .txnFinished then .finish seqNo
  else .part seqNo key (written? record.type pos)

/-- A write of an entry is the write of its record. -/
theorem eq_written?_of_entryOf {record : LogRecord} {pos : LogRecordPos} {key : Bytes}
    {v : Option LogRecordPos}
    (h : entryOf record pos = .plain key v ∨ ∃ t, entryOf record pos = .part t key v) :
    v = written? record.type pos := by
  simp only [entryOf] at h
  split_ifs at h
  · rcases h with h | ⟨t, h⟩ <;> cases h
    rfl
  · rcases h with h | ⟨t, h⟩ <;> cases h
  · rcases h with h | ⟨t, h⟩ <;> cases h
    rfl

/-! ## Loading refines replaying -/

namespace Loading

variable {ι : Type} [Indexer ι]

/-- The state of the replay a loading has reached. -/
def state (s : Loading ι) : State ℕ Bytes LogRecordPos where
  value := Indexer.get s.index
  pending seqNo := (s.transactionRecords seqNo).map fun txn =>
    (txn.record.key, written? txn.record.type txn.pos)

variable (s : Loading ι)

@[simp]
theorem transactionRecords_updateIndex (key : Bytes) (type : LogRecordType) (pos : LogRecordPos) :
    (s.updateIndex key type pos).transactionRecords = s.transactionRecords := by
  unfold updateIndex
  split <;> rfl

@[simp]
theorem seqNo_updateIndex (key : Bytes) (type : LogRecordType) (pos : LogRecordPos) :
    (s.updateIndex key type pos).seqNo = s.seqNo := by
  unfold updateIndex
  split <;> rfl

theorem get_updateIndex (key : Bytes) (type : LogRecordType) (pos : LogRecordPos) :
    Indexer.get (s.updateIndex key type pos).index =
      Function.update (Indexer.get s.index) key (written? type pos) := by
  funext k
  rw [Function.update_apply]
  unfold updateIndex written?
  split
  · exact Indexer.get_remove _ _ _
  · exact Indexer.get_put _ _ _ _

theorem foldl_updateIndex (txns : List TransactionRecord) :
    let s' := txns.foldl (fun s txn => s.updateIndex txn.record.key txn.record.type txn.pos) s
    Indexer.get s'.index = overlay
        (txns.map fun txn => (txn.record.key, written? txn.record.type txn.pos))
        (Indexer.get s.index) ∧
      s'.transactionRecords = s.transactionRecords ∧ s'.seqNo = s.seqNo := by
  induction txns generalizing s with
  | nil => exact ⟨rfl, rfl, rfl⟩
  | cons txn txns ih =>
    obtain ⟨h1, h2, h3⟩ := ih (s.updateIndex txn.record.key txn.record.type txn.pos)
    refine ⟨?_, h2.trans (s.transactionRecords_updateIndex _ _ _),
      h3.trans (s.seqNo_updateIndex _ _ _)⟩
    rw [List.foldl_cons, h1, get_updateIndex]
    rfl

/-- Taking a record into account is replaying its entry. -/
theorem state_process (record : LogRecord) (pos : LogRecordPos) :
    (s.process record pos).state = s.state.step (entryOf record pos) := by
  rcases hk : parseLogRecordKey record.key with ⟨key, seqNo⟩
  simp only [process, entryOf, hk]
  by_cases h0 : seqNo = nonTransactionSeqNo
  · simp only [if_pos h0, state, State.step, get_updateIndex, transactionRecords_updateIndex]
  · by_cases hf : record.type = .txnFinished
    · obtain ⟨h1, h2, _⟩ := s.foldl_updateIndex (s.transactionRecords seqNo)
      simp only [if_neg h0, if_pos hf, state, State.step, finish]
      congr 1
      funext t
      simp only [h2, Function.update_apply]
      split <;> rfl
    · simp only [if_neg h0, if_neg hf, state, State.step, hold]
      congr 1
      funext t
      simp only [Function.update_apply]
      split <;> simp

theorem seqNo_process (record : LogRecord) (pos : LogRecordPos) :
    (s.process record pos).seqNo = max s.seqNo (parseLogRecordKey record.key).2 := by
  rcases hk : parseLogRecordKey record.key with ⟨key, seqNo⟩
  simp only [process, hk]
  congr 1
  split
  · simp
  · split
    · exact (s.foldl_updateIndex _).2.2
    · rfl

/-- The records of a file, taken into account one after the other. -/
def processAll (fid : ℕ) (items : List (ℕ × LogRecord)) : Loading ι :=
  items.foldl (fun s x => s.process x.2 ⟨fid, x.1, x.2.encode.length % 2 ^ 32⟩) s

end Loading

/-! ## Files of records -/

/-- The size of a record in a file. -/
def recordSize (record : LogRecord) : ℕ := record.encode.length

/-- Records encoded back to back. -/
def encodeAll (records : List LogRecord) : Bytes := records.flatMap LogRecord.encode

/-- The records with the offsets they have in a file. -/
abbrev offsets (records : List LogRecord) : List (ℕ × LogRecord) := layout recordSize 0 records

/-- The position of a record of a file. -/
def posOf (fid : ℕ) (x : ℕ × LogRecord) : LogRecordPos := ⟨fid, x.1, x.2.encode.length % 2 ^ 32⟩

/-- The entries of the records of a file. -/
def fileEntries (fid : ℕ) (records : List LogRecord) : List (Entry ℕ Bytes LogRecordPos) :=
  (offsets records).map fun x => entryOf x.2 (posOf fid x)

/-- The largest sequence number of some records. -/
def maxSeqNo (records : List LogRecord) : ℕ :=
  records.foldl (fun m record => max m (parseLogRecordKey record.key).2) nonTransactionSeqNo

@[simp]
theorem encodeAll_nil : encodeAll [] = [] := rfl

@[simp]
theorem encodeAll_append (as bs : List LogRecord) :
    encodeAll (as ++ bs) = encodeAll as ++ encodeAll bs := List.flatMap_append

@[simp]
theorem encodeAll_cons (a : LogRecord) (bs : List LogRecord) :
    encodeAll (a :: bs) = a.encode ++ encodeAll bs := rfl

theorem length_encodeAll (records : List LogRecord) :
    (encodeAll records).length = extent recordSize records := by
  induction records with
  | nil => rfl
  | cons r rs ih => rw [encodeAll_cons, List.length_append, ih, extent_cons, recordSize]

/-- What is found at the offset of a record. -/
theorem drop_encodeAll {records : List LogRecord} {x : ℕ × LogRecord} (hx : x ∈ offsets records)
    (tail : Bytes) : ∃ rest, (encodeAll records ++ tail).drop x.1 = x.2.encode ++ rest := by
  obtain ⟨pre, post, rfl, hoff⟩ := mem_layout_iff.1 hx
  rw [Nat.zero_add, ← length_encodeAll] at hoff
  exact ⟨encodeAll post ++ tail, by simp [hoff]⟩

theorem length_le_length_encodeAll (records : List LogRecord) :
    records.length ≤ (encodeAll records).length := by
  induction records with
  | nil => exact Nat.zero_le _
  | cons r rs ih =>
    have := r.length_encode_pos
    rw [encodeAll_cons, List.length_append, List.length_cons]
    omega

/-! ## Reading files of records -/

section Scan

variable {ι : Type} [Indexer ι] {records : List LogRecord} (fid : ℕ) (s : Loading ι)

/-- The loop reading a file comes to the end of the records the file starts with,
    with more passes left than there are bytes behind them. -/
theorem loop_scanPass (hrecords : ∀ r ∈ records, r.Readable) (tail : Bytes) :
    ∃ n, tail.length < n ∧
      loop (scanPass fid (encodeAll records ++ tail)) ((encodeAll records ++ tail).length + 1)
        (0, s) =
      loop (scanPass fid (encodeAll records ++ tail)) n
        ((encodeAll records).length, s.processAll fid (offsets records)) := by
  set content := encodeAll records ++ tail with hcontent
  let step (s : ℕ × Loading ι) (x : ℕ × LogRecord) : ℕ × Loading ι :=
    (s.1 + recordSize x.2, s.2.process x.2 (posOf fid x))
  have hbody (s : ℕ × Loading ι) (a : LogRecord)
      (ha : a.Readable ∧ ∃ rest, content.drop s.1 = a.encode ++ rest) :
      scanPass fid content s = .again (step s (s.1, a)) := by
    obtain ⟨hr, rest, hrest⟩ := ha
    rw [scanPass, readLogRecord_encode hr hrest]
    rfl
  have hread : ∀ x ∈ layout recordSize ((0, s) : ℕ × Loading ι).1 records,
      x.2.Readable ∧ ∃ rest, content.drop x.1 = x.2.encode ++ rest :=
    fun x hx => ⟨hrecords _ (mem_of_mem_layout hx), drop_encodeAll hx tail⟩
  have hfold : ∀ (items : List (ℕ × LogRecord)) (s : ℕ × Loading ι),
      (items.foldl step s).2 = s.2.processAll fid items := by
    intro items
    induction items with
    | nil => exact fun s => rfl
    | cons x items ih => exact fun s => ih _
  have hlen : content.length = (encodeAll records).length + tail.length := List.length_append
  have hle := length_le_length_encodeAll records
  refine ⟨content.length + 1 - records.length, by omega, ?_⟩
  have hstep (s : ℕ × Loading ι) (a : LogRecord) : (step s (s.1, a)).1 = s.1 + recordSize a := rfl
  have hpos := pos_foldl_layout step Prod.fst hstep records (0, s)
  have hloop := loop_layout step Prod.fst
    (fun off a => a.Readable ∧ ∃ rest, content.drop off = a.encode ++ rest) hstep hbody hread
    (content.length + 1 - records.length)
  rw [show records.length + (content.length + 1 - records.length) = content.length + 1 by omega]
    at hloop
  rw [hloop]
  congr 1
  refine Prod.ext ?_ (hfold _ _)
  rw [hpos, Nat.zero_add, ← length_encodeAll]

/-- A file of records is read to their end, where zeros may begin. -/
theorem loop_scanPass_zeros (hrecords : ∀ r ∈ records, r.Readable) {zeros : ℕ} (h5 : zeros ≠ 5)
    (h6 : zeros ≠ 6) :
    let content := encodeAll records ++ List.replicate zeros 0
    loop (scanPass fid content) (content.length + 1) (0, s) =
      some ((encodeAll records).length, s.processAll fid (offsets records)) := by
  obtain ⟨n, hn, h⟩ := loop_scanPass fid s hrecords (List.replicate zeros 0)
  simp only [h]
  obtain ⟨m, rfl⟩ := Nat.exists_eq_succ_of_ne_zero (Nat.ne_of_gt (Nat.zero_lt_of_lt hn))
  refine loop_done ?_ m
  rw [scanPass, readLogRecord_zeros List.drop_left h5 h6]

theorem loop_scanPass_encodeAll (hrecords : ∀ r ∈ records, r.Readable) :
    loop (scanPass fid (encodeAll records)) ((encodeAll records).length + 1) (0, s) =
      some ((encodeAll records).length, s.processAll fid (offsets records)) := by
  have h := loop_scanPass_zeros fid s hrecords (by decide : 0 ≠ 5) (by decide)
  simpa using h

theorem scanFile_zeros (hrecords : ∀ r ∈ records, r.Readable) {zeros : ℕ} (h5 : zeros ≠ 5)
    (h6 : zeros ≠ 6) :
    scanFile fid (encodeAll records ++ List.replicate zeros 0) s =
      ((encodeAll records).length, s.processAll fid (offsets records)) := by
  rw [scanFile, loop_scanPass_zeros fid s hrecords h5 h6]
  rfl

theorem scanFile_encodeAll (hrecords : ∀ r ∈ records, r.Readable) :
    scanFile fid (encodeAll records) s =
      ((encodeAll records).length, s.processAll fid (offsets records)) := by
  rw [scanFile, loop_scanPass_encodeAll fid s hrecords]
  rfl

/-- Taking the records of a file into account replays their entries. -/
theorem state_processAll (items : List (ℕ × LogRecord)) :
    (s.processAll fid items).state =
      (items.map fun x => entryOf x.2 (posOf fid x)).foldl State.step s.state := by
  induction items generalizing s with
  | nil => rfl
  | cons x items ih =>
    rw [List.map_cons, List.foldl_cons, ← Loading.state_process]
    exact ih _

theorem seqNo_processAll (items : List (ℕ × LogRecord)) :
    (s.processAll fid items).seqNo =
      (items.map Prod.snd).foldl (fun m r => max m (parseLogRecordKey r.key).2) s.seqNo := by
  induction items generalizing s with
  | nil => rfl
  | cons x items ih =>
    rw [List.map_cons, List.foldl_cons, ← Loading.seqNo_process]
    exact ih _

end Scan

end Bitcask
