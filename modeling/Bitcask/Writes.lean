import Bitcask.Replay

/-!
# What writes do

A database whose active file is the first one, which holds some records
(`Stored`): as long as the records appended fit, appending them puts them behind
the others and does not change anything else (`Stored.append`,
`Stored.appendAll`), and updating the index for the records of a batch makes
their writes in order (`WriteBatch.updateIndexes_run`).
-/

namespace Bitcask

open Framing Transaction DataFile DBM Guarantee

variable {ι : Type}

/-- The active file is the first one. It holds some records, and zeros behind them
    that have been there since it was mapped. -/
structure Stored (p : Proc ι) (records : List LogRecord) (zeros : ℕ) : Prop where
  active : p.db.activeFile = some (p.db.activeAt (encodeAll records).length)
  content : p.world.fs.file? p.db.firstPath = some (encodeAll records ++ List.replicate zeros 0)

instance (p : Proc ι) (records : List LogRecord) (zeros : ℕ) :
    Decidable (Stored p records zeros) :=
  decidable_of_iff (_ ∧ _) ⟨fun h => ⟨h.1, h.2⟩, fun h => ⟨h.1, h.2⟩⟩

/-- The outcomes that writing to the first file will have. -/
def Proc.writeOutcomes (p : Proc ι) : List Outcome := p.world.outcomes (.write p.db.firstPath)

/-- The next writes to the first file will succeed. -/
def Proc.CanWrite (p : Proc ι) (n : ℕ) : Prop := ∀ o ∈ p.writeOutcomes.take n, o = .ok

instance (p : Proc ι) (n : ℕ) : Decidable (p.CanWrite n) :=
  inferInstanceAs (Decidable (∀ o ∈ _, _))

/-- What appending records to the first file leaves alone. Only if records may be
    `rotated`, the files listed may change. -/
structure SameRest (rotated : Bool) (p q : Proc ι) : Prop where
  options : q.db.options = p.db.options
  isMerging : q.db.isMerging = p.db.isMerging
  listed : rotated = false → q.db.olderFiles = p.db.olderFiles ∧ q.db.fileIds = p.db.fileIds
  file? : ∀ path ≠ p.db.firstPath, q.world.fs.file? path = p.world.fs.file? path
  lookup : ∀ dir ≠ p.db.options.dirPath, q.world.fs.lookup dir = p.world.fs.lookup dir
  outcomes : ∀ c ≠ .write p.db.firstPath, q.world.outcomes c = p.world.outcomes c
  writes : q.writeOutcomes <:+ p.writeOutcomes

/-- What only changes to the index change. -/
structure SameIndex (p q : Proc ι) : Prop where
  index : q.db.index = p.db.index
  seqNo : q.db.seqNo = p.db.seqNo
  reclaimSize : q.db.reclaimSize = p.db.reclaimSize

/-- Every write ends as it should or fails, storing nothing. -/
def NoShortWrites (p : Proc ι) : Prop :=
  p.world.outcomes (.open p.db.firstPath) = [] ∧
    ∀ o ∈ p.writeOutcomes, o = .ok ∨ o = .fail

/-- A record fits behind an offset, or is rotated into the file it would have
    been written to anyway. -/
def Fits (rotated : Bool) (dataFileSize offset : ℕ) (record : LogRecord) : Prop :=
  offset + record.encode.length ≤ dataFileSize ∨ (rotated = true ∧ offset = 0)

/-- Records fit behind an offset, one after the other. -/
def FitAll (rotated : Bool) (dataFileSize : ℕ) : ℕ → List LogRecord → Prop
  | _, [] => True
  | offset, record :: records =>
    Fits rotated dataFileSize offset record ∧
      FitAll rotated dataFileSize (offset + record.encode.length) records

instance (rotated : Bool) (dataFileSize offset : ℕ) (record : LogRecord) :
    Decidable (Fits rotated dataFileSize offset record) :=
  inferInstanceAs (Decidable (_ ∨ _))

instance FitAll.decidable (rotated : Bool) (dataFileSize : ℕ) :
    ∀ (offset : ℕ) (records : List LogRecord), Decidable (FitAll rotated dataFileSize offset records)
  | _, [] => .isTrue trivial
  | offset, record :: records =>
    have := FitAll.decidable rotated dataFileSize (offset + record.encode.length) records
    inferInstanceAs (Decidable (Fits rotated dataFileSize offset record ∧ _))

namespace SameRest

variable {rotated : Bool} {p q r : Proc ι}

theorem firstPath (h : SameRest rotated p q) : q.db.firstPath = p.db.firstPath :=
  DB.firstPath_congr h.options

theorem refl (p : Proc ι) : SameRest rotated p p :=
  ⟨rfl, rfl, fun _ => ⟨rfl, rfl⟩, fun _ _ => rfl, fun _ _ => rfl, fun _ _ => rfl,
    List.suffix_refl _⟩

theorem trans (h : SameRest rotated p q) (h' : SameRest rotated q r) : SameRest rotated p r where
  options := h'.options.trans h.options
  isMerging := h'.isMerging.trans h.isMerging
  listed hr := ⟨(h'.listed hr).1.trans (h.listed hr).1, (h'.listed hr).2.trans (h.listed hr).2⟩
  file? path hne := (h'.file? path (h.firstPath ▸ hne)).trans (h.file? path hne)
  lookup dir hne := (h'.lookup dir (by rwa [h.options])).trans (h.lookup dir hne)
  outcomes c hne := (h'.outcomes c (by rwa [h.firstPath])).trans (h.outcomes c hne)
  writes := h'.writes.trans h.writes

theorem noShortWrites (h : SameRest rotated p q) (hp : NoShortWrites p) : NoShortWrites q := by
  refine ⟨?_, fun o ho => hp.2 o (h.writes.subset ho)⟩
  rw [h.firstPath, h.outcomes _ (by simp)]
  exact hp.1

theorem writes_nil (h : SameRest rotated p q) (hp : p.writeOutcomes = []) :
    q.writeOutcomes = [] := by
  have := h.writes
  rwa [hp, List.suffix_nil] at this

/-- Changes that do not concern the files. -/
theorem of_db (hoptions : q.db.options = p.db.options) (hmerging : q.db.isMerging = p.db.isMerging)
    (holder : q.db.olderFiles = p.db.olderFiles) (hids : q.db.fileIds = p.db.fileIds)
    (hworld : q.world = p.world) : SameRest rotated p q :=
  ⟨hoptions, hmerging, fun _ => ⟨holder, hids⟩, fun _ _ => by rw [hworld],
    fun _ _ => by rw [hworld], fun _ _ => by rw [hworld],
    by rw [Proc.writeOutcomes, Proc.writeOutcomes, DB.firstPath_congr hoptions, hworld]⟩

end SameRest

namespace SameIndex

theorem refl (p : Proc ι) : SameIndex p p := ⟨rfl, rfl, rfl⟩

theorem trans {p q r : Proc ι} (h : SameIndex p q) (h' : SameIndex q r) : SameIndex p r :=
  ⟨h'.index.trans h.index, h'.seqNo.trans h.seqNo, h'.reclaimSize.trans h.reclaimSize⟩

instance : Std.Refl (SameIndex (ι := ι)) := ⟨refl⟩

instance : IsTrans (Proc ι) SameIndex := ⟨fun _ _ _ h h' => h.trans h'⟩

/-! ### Appending leaves the index alone -/

theorem sys {α : Type} (m : Sys α) : Guarantees SameIndex (DBM.sys m : DBM ι α) := by
  intro p
  rw [show DBM.sys m = (liftM m : DBM ι α) from rfl]
  cases hrun : m.run p.world with
  | ok a w =>
    rw [lift_ok hrun]
    exact ⟨rfl, rfl, rfl⟩
  | error e w =>
    rw [lift_error hrun]
    exact ⟨rfl, rfl, rfl⟩

theorem modifyDB {f : DB ι → DB ι} (hindex : ∀ db, (f db).index = db.index := by exact fun _ => rfl)
    (hseqNo : ∀ db, (f db).seqNo = db.seqNo := by exact fun _ => rfl)
    (hreclaimSize : ∀ db, (f db).reclaimSize = db.reclaimSize := by exact fun _ => rfl) :
    Guarantees SameIndex (DBM.modifyDB f) :=
  .modifyGet fun p => ⟨hindex p.db, hseqNo p.db, hreclaimSize p.db⟩

theorem setActiveDataFile : Guarantees SameIndex (DB.setActiveDataFile : DBM ι Unit) :=
  .bind .get fun _ => .bind (sys _) fun _ => modifyDB

theorem activeDataFile : Guarantees SameIndex (DB.activeDataFile : DBM ι DataFile) := by
  refine .bind .get fun p => ?_
  split
  · refine .bind setActiveDataFile fun _ => .bind .get fun q => ?_
    split
    · exact .pure _
    · exact .throw _
  · refine .bind .get fun q => ?_
    split
    · exact .pure _
    · exact .throw _

theorem appendLogRecordInternal (record : LogRecord) :
    Guarantees SameIndex (DB.appendLogRecordInternal record : DBM ι LogRecordPos) := by
  refine .bind activeDataFile fun file => .bind .get fun p => ?_
  have hwrite : Guarantees SameIndex (do
      let file ← DB.activeDataFile
      let written ← file.write record.encode
      DBM.modifyDB fun db => { db with activeFile := some written }
      return ⟨file.fileId, file.writeOff, record.encode.length % 2 ^ 32⟩ : DBM ι LogRecordPos) :=
    .bind activeDataFile fun _ => .bind (sys _) fun _ => .bind modifyDB fun _ => .pure _
  dsimp only
  split
  · exact .bind (.bind modifyDB fun _ => setActiveDataFile) fun _ => hwrite
  · exact hwrite

end SameIndex

/-! ## Appending records -/

namespace Stored

variable {p q : Proc ι} {records : List LogRecord} {zeros : ℕ} {record : LogRecord}
  {rotated : Bool}

/-- The files and the active file stay. -/
theorem congr (h : Stored p records zeros) (hactive : q.db.activeFile = p.db.activeFile)
    (hoptions : q.db.options = p.db.options) (hfs : q.world.fs = p.world.fs) :
    Stored q records zeros := by
  refine ⟨?_, ?_⟩
  · rw [hactive, h.active, DB.activeAt_congr hoptions]
  · rw [DB.firstPath_congr hoptions, hfs]
    exact h.content

/-- The next write succeeds, or it fails and stores nothing. -/
theorem outcome_cases (hw : NoShortWrites p) :
    ((p.world.next (.write p.db.firstPath)).1 = .ok ∧ p.CanWrite 1) ∨
      ((p.world.next (.write p.db.firstPath)).1 = .fail ∧ ¬p.CanWrite 1) := by
  have hw := hw.2
  unfold Proc.CanWrite
  unfold Proc.writeOutcomes at hw ⊢
  rw [World.next_fst]
  cases ho : p.world.outcomes (.write p.db.firstPath) with
  | nil => exact .inl ⟨rfl, by simp⟩
  | cons o os =>
    rcases hw o (ho ▸ List.mem_cons_self) with rfl | rfl
    · exact .inl ⟨rfl, by simp⟩
    · exact .inr ⟨rfl, by simp⟩

/-- The world after a call that writes to the first file leaves the rest alone. -/
theorem sameRest_next {db : DB ι} (w : World) (hdb : SameRest rotated p ⟨db, p.world⟩)
    (hfile : ∀ path ≠ p.db.firstPath, w.fs.file? path = p.world.fs.file? path)
    (hlookup : ∀ dir ≠ p.db.options.dirPath, w.fs.lookup dir = p.world.fs.lookup dir)
    (hw : w.outcomes = (p.world.next (.write p.db.firstPath)).2.outcomes) :
    SameRest rotated p ⟨db, w⟩ where
  options := hdb.options
  isMerging := hdb.isMerging
  listed := hdb.listed
  file? := hfile
  lookup := hlookup
  outcomes c hc := by
    show w.outcomes c = _
    rw [hw, World.next_outcomes_of_ne _ hc]
  writes := by
    show w.outcomes (.write db.firstPath) <:+ _
    rw [hw, DB.firstPath_congr hdb.options, World.next_outcomes_self]
    exact List.tail_suffix _

/-- A record written behind the others. -/
theorem wrote (h : Stored p records zeros) {db : DB ι} (hoptions : db.options = p.db.options)
    {w : World} (hfs : w.fs = p.world.fs) :
    Stored ⟨db.written (p.db.activeAt (encodeAll records).length) record,
        w.wrote (p.db.activeAt (encodeAll records).length) record.encode⟩
      (records ++ [record]) (zeros - record.encode.length) := by
  have hdb : (db.written (p.db.activeAt (encodeAll records).length) record).options =
      p.db.options := hoptions
  refine ⟨?_, ?_⟩
  · rw [DB.activeAt_congr hdb, encodeAll_append, List.length_append, encodeAll_cons,
      encodeAll_nil, List.append_nil]
    rfl
  · rw [DB.firstPath_congr hdb]
    have hfile : w.fs.file? (p.db.activeAt (encodeAll records).length).path =
        some (encodeAll records ++ List.replicate zeros 0) := hfs ▸ h.content
    refine (World.wrote_file?_self w _ record.encode hfile).trans ?_
    have hover := overwrite_append (rfl : (encodeAll records).length = _)
      (List.replicate zeros 0) record.encode
    rw [List.drop_replicate] at hover
    rw [encodeAll_append, encodeAll_cons, encodeAll_nil, List.append_nil]
    exact congrArg some hover

/-- Writing a record leaves the rest alone. -/
theorem sameRest_wrote {db : DB ι} {file : DataFile} (hdb : SameRest rotated p ⟨db, p.world⟩)
    (hpath : file.path = p.db.firstPath) (data : Bytes) :
    SameRest rotated p
      ⟨db.written file record, (p.world.next (.write p.db.firstPath)).2.wrote file data⟩ := by
  refine sameRest_next _ ⟨hdb.options, hdb.isMerging, hdb.listed, hdb.file?, hdb.lookup,
    hdb.outcomes, hdb.writes⟩ (fun path hne => ?_) (fun dir hne => ?_) rfl
  · rw [World.wrote_file?_of_ne _ _ _ (by rwa [hpath]), World.next_fs]
  · rw [World.wrote_lookup_of_ne _ _ _ (by rw [hpath]; exact hne), World.next_fs]

/-- A record that fits is written behind the others, or its write fails and
    nothing is stored. -/
theorem append (h : Stored p records zeros) (hw : NoShortWrites p)
    (hfit : Fits rotated p.db.options.dataFileSize (encodeAll records).length record) :
    (∃ q, (DB.appendLogRecordInternal record : DBM ι _).run p =
        .ok (posOf 0 ((encodeAll records).length, record)) q ∧
      Stored q (records ++ [record]) (zeros - record.encode.length) ∧ SameIndex p q ∧
      SameRest rotated p q ∧ p.CanWrite 1 ∧ q.writeOutcomes = p.writeOutcomes.drop 1) ∨
    (¬p.CanWrite 1 ∧ ∃ e q, (DB.appendLogRecordInternal record : DBM ι _).run p = .error e q ∧
      Stored q records zeros ∧ SameIndex p q ∧ SameRest rotated p q) := by
  set file := p.db.activeAt (encodeAll records).length with hfile
  have hopen : p.world.opened p.db.firstPath = p.world := World.opened_of_exists _ _ h.content
  have htail : (p.world.next (.write p.db.firstPath)).2.outcomes (.write p.db.firstPath) =
      p.writeOutcomes.drop 1 := by rw [World.next_outcomes_self, List.drop_one, Proc.writeOutcomes]
  by_cases hle : (encodeAll records).length + record.encode.length ≤ p.db.options.dataFileSize
  · rcases outcome_cases hw with ⟨hok, hcan⟩ | ⟨hfail, hne⟩
    · exact .inl ⟨_, DB.appendLogRecordInternal_ok h.active hle (Prod.ext hok rfl),
        h.wrote rfl (World.next_fs _ _), ⟨rfl, rfl, rfl⟩, sameRest_wrote (.refl p) rfl _, hcan,
        htail⟩
    · refine .inr ⟨hne, _, _, DB.appendLogRecordInternal_fail h.active hle (Prod.ext hfail rfl),
        h.congr rfl rfl (World.next_fs _ _), ⟨rfl, rfl, rfl⟩,
        sameRest_next _ (.refl p) (fun _ _ => ?_) (fun _ _ => ?_) rfl⟩ <;> rw [World.next_fs]
  · obtain ⟨rfl, hzero⟩ := hfit.resolve_left hle
    -- The active file is empty, so its successor is the same file at the same offset.
    have hfirst : file = p.db.firstFile := by rw [hfile, hzero]; rfl
    have hreset : SameRest true p ⟨p.db.reset file, p.world⟩ :=
      ⟨rfl, rfl, fun h => (Bool.noConfusion h), fun _ _ => rfl, fun _ _ => rfl, fun _ _ => rfl,
        List.suffix_refl _⟩
    rcases outcome_cases hw with ⟨hok, hcan⟩ | ⟨hfail, hne⟩
    · have hnext : (p.world.opened p.db.firstPath).next (.write p.db.firstPath) =
          (.ok, (p.world.next (.write p.db.firstPath)).2) := by rw [hopen]; exact Prod.ext hok rfl
      refine .inl ⟨_, (DB.appendLogRecordInternal_rotate h.active (Nat.not_le.1 hle) hw.1
        hnext).trans (congrArg (EStateM.Result.ok · _) ?_), ?_, ⟨rfl, rfl, rfl⟩,
        sameRest_wrote hreset rfl _, hcan, htail⟩
      · rw [← hfirst]
        rfl
      · have hdb : (p.db.reset file).options = p.db.options := rfl
        rw [← hfirst]
        exact h.wrote hdb (World.next_fs _ _)
    · have hnext : (p.world.opened p.db.firstPath).next (.write p.db.firstPath) =
          (.fail, (p.world.next (.write p.db.firstPath)).2) := by
        rw [hopen]; exact Prod.ext hfail rfl
      refine .inr ⟨hne, _, _, DB.appendLogRecordInternal_rotate_fail h.active (Nat.not_le.1 hle)
        hw.1 hnext, h.congr ?_ rfl (World.next_fs _ _), ⟨rfl, rfl, rfl⟩,
        sameRest_next _ hreset (fun _ _ => ?_) (fun _ _ => ?_) rfl⟩
      · rw [h.active, ← hfile, hfirst]
        rfl
      · rw [World.next_fs]
      · rw [World.next_fs]

end Stored

/-! ## Writing batches -/

/-- The records of some writes, made under a sequence number, with their offsets. -/
def writeLayout (seqNo offset : ℕ) (items : List LogRecord) : List (ℕ × LogRecord) :=
  layout (fun record => recordSize (WriteBatch.withSeq seqNo record)) offset items

/-- The position of the record of a write. -/
def writePos (seqNo : ℕ) (x : ℕ × LogRecord) : LogRecordPos :=
  posOf 0 (x.1, WriteBatch.withSeq seqNo x.2)

/-- What writes to the first file do to the index. -/
def indexWrites (seqNo offset : ℕ) (items : List LogRecord) : List (Bytes × Option LogRecordPos) :=
  (writeLayout seqNo offset items).map fun x => (x.2.key, written? x.2.type (writePos seqNo x))

/-- The records a batch is stored as. -/
def WriteBatch.records (batch : WriteBatch) : List LogRecord :=
  batch.pendingWrites.map (withSeq batch.seqNo) ++ [txnFinRecord batch.seqNo]

theorem fitAll_append {rotated : Bool} {dataFileSize offset : ℕ} {as bs : List LogRecord} :
    FitAll rotated dataFileSize offset (as ++ bs) ↔
      FitAll rotated dataFileSize offset as ∧
        FitAll rotated dataFileSize (offset + (encodeAll as).length) bs := by
  induction as generalizing offset with
  | nil => simp [FitAll]
  | cons a as ih =>
    rw [List.cons_append, FitAll, FitAll, ih, and_assoc, encodeAll_cons, List.length_append,
      Nat.add_assoc]

theorem canWrite_of_nil {p : Proc ι} (h : p.writeOutcomes = []) (n : ℕ) : p.CanWrite n := by
  simp [Proc.CanWrite, h]

/-- Writes succeed if the first ones do and then the others. -/
theorem canWrite_add {p q : Proc ι} {m n : ℕ} (hq : q.writeOutcomes = p.writeOutcomes.drop m) :
    p.CanWrite (n + m) ↔ p.CanWrite m ∧ q.CanWrite n := by
  unfold Proc.CanWrite
  rw [hq, Nat.add_comm, List.take_add, List.forall_mem_append]

namespace Stored

variable {p : Proc ι} {records : List LogRecord} {zeros : ℕ} {rotated : Bool}

/-- Records that fit are written behind the others, up to the first write that fails. -/
theorem appendAll (h : Stored p records zeros) (hw : NoShortWrites p) {seqNo : ℕ}
    {items : List LogRecord}
    (hfit : FitAll rotated p.db.options.dataFileSize (encodeAll records).length
      (items.map (WriteBatch.withSeq seqNo))) :
    (∃ q, (WriteBatch.appendAll seqNo items : DBM ι _).run p =
        .ok ((writeLayout seqNo (encodeAll records).length items).map (writePos seqNo)) q ∧
      Stored q (records ++ items.map (WriteBatch.withSeq seqNo))
        (zeros - (encodeAll (items.map (WriteBatch.withSeq seqNo))).length) ∧
      SameIndex p q ∧ SameRest rotated p q ∧ p.CanWrite items.length ∧
      q.writeOutcomes = p.writeOutcomes.drop items.length) ∨
    (¬p.CanWrite items.length ∧ ∃ n ≤ items.length, ∃ e q, 
        (WriteBatch.appendAll seqNo items : DBM ι _).run p = .error e q ∧
      Stored q (records ++ (items.take n).map (WriteBatch.withSeq seqNo))
        (zeros - (encodeAll ((items.take n).map (WriteBatch.withSeq seqNo))).length) ∧
      SameIndex p q ∧ SameRest rotated p q) := by
  induction items generalizing p records zeros with
  | nil => exact .inl ⟨p, rfl, by simpa using h, .refl p, .refl p, by simp [Proc.CanWrite], rfl⟩
  | cons record items ih =>
    obtain ⟨hfirst, hrest⟩ := hfit
    rcases h.append hw hfirst with ⟨q, hrun, hq, hindex, hsame, hcan, hout⟩ |
      ⟨hne, e, q, hrun, hq⟩
    · have hlen : (encodeAll (records ++ [WriteBatch.withSeq seqNo record])).length =
          (encodeAll records).length + (WriteBatch.withSeq seqNo record).encode.length := by simp
      have hfit' : FitAll rotated q.db.options.dataFileSize
          (encodeAll (records ++ [WriteBatch.withSeq seqNo record])).length
          (items.map (WriteBatch.withSeq seqNo)) := by
        rw [hsame.options, hlen]
        exact hrest
      rcases ih hq (hsame.noShortWrites hw) hfit' with
        ⟨q', hrun', hq', hindex', hsame', hcan', hout'⟩ |
        ⟨hne, n, hn, e, q', hrun', hq', hindex', hsame'⟩
      · refine .inl ⟨q', ?_, ?_, hindex.trans hindex', hsame.trans hsame',
          (canWrite_add hout).2 ⟨hcan, hcan'⟩, by rw [hout', hout, List.drop_drop, Nat.add_comm]; rfl⟩
        · rw [WriteBatch.appendAll, bind_ok hrun, bind_ok hrun', hlen]
          rfl
        · simpa [Nat.sub_sub] using hq'
      · refine .inr ⟨fun hall => hne ((canWrite_add hout).1 hall).2, n + 1, Nat.succ_le_succ hn, e,
          q', ?_, ?_, hindex.trans hindex', hsame.trans hsame'⟩
        · rw [WriteBatch.appendAll, bind_ok hrun, bind_error hrun']
        · simpa [Nat.sub_sub] using hq'
    · refine .inr ⟨fun hall => hne fun o ho => hall o ?_, 0, Nat.zero_le _, e, q, ?_,
        by simpa using hq.1, hq.2.1, hq.2.2⟩
      · exact (List.take_sublist_take_left (Nat.succ_le_succ (Nat.zero_le _))).subset ho
      rw [WriteBatch.appendAll, bind_error hrun]

/-- The records of a batch that fit are written behind the others, the end of its
    transaction last, up to the first write that fails. -/
theorem appendBatch (h : Stored p records zeros) (hw : NoShortWrites p) {batch : WriteBatch}
    (hfit : FitAll rotated p.db.options.dataFileSize (encodeAll records).length batch.records) :
    (∃ q, (∀ {α : Type} (f : List LogRecordPos → DBM ι α),
        (WriteBatch.appendAll batch.seqNo batch.pendingWrites >>= fun positions => do
          let _ ← DB.appendLogRecordInternal (WriteBatch.txnFinRecord batch.seqNo)
          f positions).run p =
        (f ((writeLayout batch.seqNo (encodeAll records).length batch.pendingWrites).map
          (writePos batch.seqNo))).run q) ∧
      Stored q (records ++ batch.records) (zeros - (encodeAll batch.records).length) ∧
      SameIndex p q ∧ SameRest rotated p q ∧ p.CanWrite batch.records.length) ∨
    (¬p.CanWrite batch.records.length ∧ ∃ n e q, (∀ {α : Type} (f : List LogRecordPos → DBM ι α),
        (WriteBatch.appendAll batch.seqNo batch.pendingWrites >>= fun positions => do
          let _ ← DB.appendLogRecordInternal (WriteBatch.txnFinRecord batch.seqNo)
          f positions).run p = .error e q) ∧
      Stored q (records ++ (batch.pendingWrites.take n).map (WriteBatch.withSeq batch.seqNo))
        (zeros - (encodeAll ((batch.pendingWrites.take n).map
          (WriteBatch.withSeq batch.seqNo))).length) ∧
      SameIndex p q ∧ SameRest rotated p q) := by
  have hlen : batch.records.length = 1 + batch.pendingWrites.length := by
    rw [WriteBatch.records, List.length_append, List.length_map, Nat.add_comm]
    rfl
  obtain ⟨hfit, hfitFin, -⟩ := fitAll_append.1 hfit
  rcases h.appendAll hw hfit with ⟨q, hrun, hq, hindex, hsame, hcan, hout⟩ |
    ⟨hne, n, hn, e, q, hrun, hq, hindex, hsame⟩
  · have hfitFin' : Fits rotated q.db.options.dataFileSize
        (encodeAll (records ++ batch.pendingWrites.map (WriteBatch.withSeq batch.seqNo))).length
        (WriteBatch.txnFinRecord batch.seqNo) := by
      rw [hsame.options, encodeAll_append, List.length_append]
      exact hfitFin
    rcases hq.append (hsame.noShortWrites hw) hfitFin' with
      ⟨q', hrun', hq', hindex', hsame', hcan', -⟩ | ⟨hne, e, q', hrun', hq', hindex', hsame'⟩
    · refine .inl ⟨q', fun f => ?_, ?_, hindex.trans hindex', hsame.trans hsame', ?_⟩
      · rw [bind_ok hrun, bind_ok hrun']
      · simpa [WriteBatch.records, Nat.sub_sub] using hq'
      · rw [hlen]
        exact (canWrite_add hout).2 ⟨hcan, hcan'⟩
    · -- All writes are stored, but the end of the transaction is not.
      refine .inr ⟨fun hall => ?_, batch.pendingWrites.length, e, q', fun f => ?_, ?_,
        hindex.trans hindex', hsame.trans hsame'⟩
      · rw [hlen, canWrite_add hout] at hall
        exact hne hall.2
      · rw [bind_ok hrun, bind_error hrun']
      · rw [List.take_length]
        exact hq'
  · refine .inr ⟨fun hall => hne fun o ho => hall o ?_, n, e, q, fun f => ?_, hq, hindex, hsame⟩
    · exact (List.take_sublist_take_left (by omega)).subset ho
    · rw [bind_error hrun]

end Stored

theorem take_records_prefix (batch : WriteBatch) (n : ℕ) :
    (batch.pendingWrites.take n).map (WriteBatch.withSeq batch.seqNo) <+: batch.records :=
  (List.take_prefix n _).map _ |>.trans (List.prefix_append _ _)

/-! ## Updating the index -/

/-- The database with another index, and other bytes to reclaim. -/
def DB.withIndex (db : DB ι) (index : ι) (reclaimSize : ℤ) : DB ι :=
  { db with index := index, reclaimSize := reclaimSize }

/-- Another index leaves the rest. -/
theorem SameRest.withIndex {p q : Proc ι} {rotated : Bool} (h : SameRest rotated p q) (index : ι)
    (reclaimSize : ℤ) : SameRest rotated p { q with db := q.db.withIndex index reclaimSize } :=
  h.trans (.of_db rfl rfl rfl rfl rfl)

variable [Indexer ι]

namespace DB

theorem indexPut_run (p : Proc ι) (key : Bytes) (pos : LogRecordPos) :
    ∃ index reclaimSize, (indexPut key pos).run p =
        .ok () { p with db := p.db.withIndex index reclaimSize } ∧
      Indexer.get index = Function.update (Indexer.get p.db.index) key (some pos) := by
  refine ⟨(Indexer.put p.db.index key pos).2, _, rfl, funext fun k => ?_⟩
  rw [Function.update_apply, Indexer.get_put]

theorem indexRemove_eq (p : Proc ι) (key : Bytes) :
    (indexRemove key).run p = .ok (Indexer.get p.db.index key).isSome
      { p with db := p.db.withIndex (Indexer.remove p.db.index key).2 (p.db.reclaimSize +
        ((Indexer.get p.db.index key).elim 0 fun old => (old.size : ℤ))) } := by
  rw [indexRemove, bind_ok (proc_run p)]
  have hfst := Indexer.remove_fst p.db.index key
  rcases hr : Indexer.remove p.db.index key with ⟨⟨oldPos, ok⟩, index⟩
  rw [hr] at hfst
  obtain ⟨rfl, rfl⟩ := Prod.mk.inj hfst
  rfl

theorem indexRemove_run (p : Proc ι) (key : Bytes) :
    ∃ index reclaimSize, (indexRemove key).run p =
        .ok (Indexer.get p.db.index key).isSome
          { p with db := p.db.withIndex index reclaimSize } ∧
      Indexer.get index = Function.update (Indexer.get p.db.index) key none := by
  refine ⟨_, _, indexRemove_eq p key, funext fun k => ?_⟩
  rw [Function.update_apply, Indexer.get_remove]

end DB

namespace WriteBatch

open DB

theorem updateIndex_run {record : LogRecord} (hr : record.IsWrite) (p : Proc ι)
    (pos : LogRecordPos) :
    ∃ index reclaimSize, (updateIndex record pos).run p =
        .ok () { p with db := p.db.withIndex index reclaimSize } ∧
      Indexer.get index =
        Function.update (Indexer.get p.db.index) record.key (written? record.type pos) := by
  rcases hr.type_eq with htype | htype
  · obtain ⟨index, reclaimSize, hrun, hindex⟩ := indexPut_run p record.key pos
    refine ⟨index, reclaimSize, ?_, hindex.trans ?_⟩
    · rw [updateIndex, if_pos htype, hrun]
    · rw [htype]
      rfl
  · obtain ⟨index, reclaimSize, hrun, hindex⟩ := indexRemove_run p record.key
    refine ⟨index, reclaimSize + pos.size, ?_, hindex.trans ?_⟩
    · rw [updateIndex, if_neg (by rw [htype]; decide), if_pos htype]
      show (indexRemove record.key >>= fun _ => _).run p = _
      rw [bind_ok hrun]
      rfl
    · rw [htype]
      rfl

/-- The index is updated for the records of a batch in order. -/
theorem updateIndexes_run {items : List (LogRecord × LogRecordPos)}
    (hitems : ∀ x ∈ items, x.1.IsWrite) (p : Proc ι) :
    ∃ index reclaimSize, (updateIndexes items).run p =
        .ok () { p with db := p.db.withIndex index reclaimSize } ∧
      Indexer.get index =
        overlay (items.map fun x => (x.1.key, written? x.1.type x.2)) (Indexer.get p.db.index) := by
  induction items generalizing p with
  | nil => exact ⟨p.db.index, p.db.reclaimSize, rfl, rfl⟩
  | cons x items ih =>
    rw [List.forall_mem_cons] at hitems
    obtain ⟨index, reclaimSize, hrun, hindex⟩ := updateIndex_run hitems.1 p x.2
    obtain ⟨index', reclaimSize', hrun', hindex'⟩ :=
      ih hitems.2 { p with db := p.db.withIndex index reclaimSize }
    refine ⟨index', reclaimSize', ?_, hindex'.trans ?_⟩
    · rw [updateIndexes, bind_ok hrun, hrun']
      rfl
    · rw [List.map_cons, overlay_cons, ← hindex]
      rfl

end WriteBatch

end Bitcask
