import Bitcask.Runs

/-!
# Reading what has been written

As long as no file that holds records is rotated, and no stored key or value is
too large to be read, `get` returns the value of the last write of a key
(`Session.get_run`). A rotation makes the file that has been written so far the
active one again, from its start: the records in it are overwritten
(`Session.not_forall_get_run`).
-/

namespace Bitcask

open Framing Transaction DataFile

variable {ι : Type} [Indexer ι]

/-! ## Reading records -/

omit [Indexer ι] in
/-- Where the index points to a record, its value is read. -/
theorem Stored.getValueByPosition_eq {p : Proc ι} {records : List LogRecord} {zeros : ℕ}
    (h : Stored p records zeros) {x : ℕ × LogRecord} (hx : x ∈ offsets records)
    (hr : x.2.Readable) :
    p.db.getValueByPosition p.world.fs (posOf 0 x) =
      if x.2.type = .deleted then .error .keyNotFound else .ok x.2.value := by
  have hfile : p.db.fileOf (posOf 0 x).fid = some (p.db.activeAt (encodeAll records).length) := by
    rw [DB.fileOf, h.active]
    rfl
  have hcontent : (p.db.activeAt (encodeAll records).length).content p.world.fs =
      encodeAll records ++ List.replicate zeros 0 := content_eq_of_file? h.content
  obtain ⟨rest, hrest⟩ := drop_encodeAll hx (List.replicate zeros 0)
  rw [DB.getValueByPosition, hfile]
  simp only [hcontent, posOf, readLogRecord_encode hr hrest, bind, Except.bind]

/-- A position of a record that holds a value. -/
def HasValue (records : List LogRecord) (pos : LogRecordPos) (value : Bytes) : Prop :=
  ∃ x ∈ offsets records, pos = posOf 0 x ∧ x.2.type = .normal ∧ x.2.value = value

theorem HasValue.append {records appended : List LogRecord} {pos : LogRecordPos} {value : Bytes}
    (h : HasValue records pos value) : HasValue (records ++ appended) pos value := by
  obtain ⟨x, hx, hpos⟩ := h
  refine ⟨x, ?_, hpos⟩
  rw [offsets, layout_append]
  exact List.mem_append_left _ hx

/-! ## Runs -/

omit [Indexer ι] in
/-- The writes to the index and the writes acknowledged agree. -/
theorem forall₂_indexWrites {records : List LogRecord} (seqNo : ℕ) {items : List LogRecord}
    (rest : List LogRecord) (hitems : ∀ r ∈ items, r.IsWrite) :
    List.Forall₂ (fun w v => w.1 = v.1 ∧
        Option.Rel (HasValue (records ++ (items.map (WriteBatch.withSeq seqNo) ++ rest))) w.2 v.2)
      (indexWrites seqNo (encodeAll records).length items) (items.map LogRecord.toWrite) := by
  unfold indexWrites writeLayout
  induction items generalizing records with
  | nil => exact .nil
  | cons r items ih =>
    rw [List.forall_mem_cons] at hitems
    have hrest := @ih (records ++ [WriteBatch.withSeq seqNo r]) hitems.2
    rw [encodeAll_append, List.length_append, encodeAll_cons, encodeAll_nil, List.append_nil,
      List.append_assoc] at hrest
    refine .cons ⟨rfl, ?_⟩ hrest
    rcases hitems.1.type_eq with htype | htype
    · have hmem : ((encodeAll records).length, WriteBatch.withSeq seqNo r) ∈
          offsets (records ++ ((r :: items).map (WriteBatch.withSeq seqNo) ++ rest)) :=
        mem_layout_iff.2 ⟨records, _, rfl, by rw [Nat.zero_add, length_encodeAll]⟩
      have hvalue : Option.Rel (HasValue _) (some (writePos seqNo ((encodeAll records).length, r)))
          (some r.value) := .some ⟨_, hmem, rfl, htype, rfl⟩
      simpa [LogRecord.toWrite, written?, htype, LogRecordType.normal, LogRecordType.deleted]
        using hvalue
    · simp [LogRecord.toWrite, written?, htype]

/-- The records a request appends are of the store's types. -/
theorem Effect.type_eq {p q : Proc ι} {offset : ℕ} {committed : Option WriteBatch}
    {appended : List LogRecord} {acks : List Write}
    (h : Effect p q offset committed appended acks) :
    ∀ r ∈ appended, r.type = .normal ∨ r.type = .deleted ∨ r.type = .txnFinished := by
  cases h with
  | nothing => exact nofun
  | plain hr => exact List.forall_mem_singleton.2 (hr.type_eq.imp_right .inl)
  | batch batch =>
    refine List.forall_mem_append.2 ⟨List.forall_mem_map.2 fun r hr => ?_,
      List.forall_mem_singleton.2 (.inr (.inr rfl))⟩
    exact (batch.isWrite r hr).type_eq.imp_right .inl
  | torn batch n =>
    refine List.forall_mem_map.2 fun r hr => ?_
    exact (batch.isWrite r (List.mem_of_mem_take hr)).type_eq.imp_right .inl

/-- Small records can be read. -/
theorem Effect.readable {s : Session ι} {op : Op} {q : Proc ι} {offset : ℕ}
    {committed : Option WriteBatch} {appended : List LogRecord} {acks : List Write}
    (h : Effect s.proc q offset committed appended acks) (hsmall : s.SmallEnough op)
    (hpre : appended <+: s.appends op) : ∀ r ∈ appended, r.Readable := fun r hr =>
  have hle := hsmall r (hpre.subset hr)
  LogRecord.readable_of_le hle.1 hle.2 (h.type_eq r hr)

namespace Session

/-- Every key is at the position of a record that holds its value. -/
def Reads (s : Session ι) (records : List LogRecord) (acks : List Write) : Prop :=
  (∀ r ∈ records, r.Readable) ∧
    ∀ k, Option.Rel (HasValue records) (Indexer.get s.proc.db.index k)
      (overlay acks (fun _ => none) k)

/-- Requests keep the index at records that hold the values, which the writes acknowledged
    change. -/
theorem hasValue_overlay {s t : Session ι} {records appended : List LogRecord}
    {values : Bytes → Option Bytes} {more : List Write} {committed : Option WriteBatch}
    (hindex : ∀ k, Option.Rel (HasValue records) (Indexer.get s.proc.db.index k) (values k))
    (heffect : Effect s.proc t.proc (encodeAll records).length committed appended more) (k : Bytes) :
    Option.Rel (HasValue (records ++ appended)) (Indexer.get t.proc.db.index k)
      (overlay more values k) := by
  have hold (k : Bytes) : Option.Rel (HasValue (records ++ appended))
      (Indexer.get s.proc.db.index k) (values k) := by
    have hk := hindex k
    generalize Indexer.get s.proc.db.index k = pos, values k = value at hk
    cases hk with
    | none => exact .none
    | some h => exact .some h.append
  cases heffect with
  | nothing hsame habsent =>
    rw [hsame.index, overlay_of_eq]
    · exact hold k
    · rintro ⟨k', v⟩ hw
      obtain ⟨rfl, hnone⟩ := habsent _ hw
      have := hold k'
      rw [hnone] at this
      cases hv : values k' with
      | none => rfl
      | some v => rw [hv] at this; cases this
  | @plain record hr hput _ =>
    rw [hput]
    exact overlay_rel (forall₂_indexWrites nonTransactionSeqNo []
      (List.forall_mem_singleton.2 hr)) hold k
  | batch batch _ hput =>
    rw [hput]
    exact overlay_rel (forall₂_indexWrites batch.seqNo _ batch.isWrite) hold k
  | torn batch n hsame =>
    rw [hsame.index, overlay_nil]
    exact hold k

theorem hasValue_step {s t : Session ι} {records appended : List LogRecord} {acks more : List Write}
    {committed : Option WriteBatch} (hindex : ∀ k, Option.Rel (HasValue records)
      (Indexer.get s.proc.db.index k) (overlay acks (fun _ => none) k))
    (heffect : Effect s.proc t.proc (encodeAll records).length committed appended more) (k : Bytes) :
    Option.Rel (HasValue (records ++ appended)) (Indexer.get t.proc.db.index k)
      (overlay (acks ++ more) (fun _ => none) k) := by
  rw [overlay_append]
  exact hasValue_overlay hindex heffect k

theorem reads_step {s t : Session ι} {records appended : List LogRecord} {acks more : List Write}
    {committed : Option WriteBatch} (h : Reads s records acks)
    (hread : ∀ r ∈ appended, r.Readable)
    (heffect : Effect s.proc t.proc (encodeAll records).length committed appended more) :
    Reads t (records ++ appended) (acks ++ more) :=
  ⟨List.forall_mem_append.2 ⟨h.1, hread⟩, hasValue_step h.2 heffect⟩

/-- What is read where every key is at the position of a record that holds its value. -/
theorem get_of_hasValue {p : Proc ι} {records : List LogRecord} {zeros : ℕ}
    {values : Bytes → Option Bytes} (hstored : Stored p records zeros)
    (hrecords : ∀ r ∈ records, r.Readable)
    (hindex : ∀ k, Option.Rel (HasValue records) (Indexer.get p.db.index k) (values k))
    {k : Bytes} (hk : k ≠ []) :
    DB.get p.db p.world.fs k =
      match values k with
      | some v => .ok v
      | none => .error .keyNotFound := by
  have hrel := hindex k
  rw [DB.get, if_neg hk]
  cases hpos : Indexer.get p.db.index k with
  | none =>
    rw [hpos] at hrel
    cases hv : values k with
    | none => rfl
    | some v => rw [hv] at hrel; cases hrel
  | some pos =>
    rw [hpos] at hrel
    cases hv : values k with
    | none => rw [hv] at hrel; cases hrel
    | some v =>
      rw [hv] at hrel
      obtain ⟨x, hx, rfl, htype, rfl⟩ := Option.rel_some_some.1 hrel
      simp only
      rw [hstored.getValueByPosition_eq hx (hrecords _ (mem_of_mem_layout hx)),
        if_neg (by rw [htype]; decide)]

/-- What is read where the writes acknowledged are read back. -/
theorem get_of_reads {s : Session ι} {records : List LogRecord} {zeros : ℕ} {acks : List Write}
    (hstored : Stored s.proc records zeros) (h : Reads s records acks) {k : Bytes} (hk : k ≠ []) :
    DB.get s.proc.db s.proc.world.fs k =
      match overlay acks (fun _ => none) k with
      | some v => .ok v
      | none => .error .keyNotFound := get_of_hasValue hstored h.1 h.2 hk

/-- No record that is kept is lost to a rotation, and none is too large to be read. -/
def InPlace (s : Session ι) (op : Op) : Prop := s.FitsFile true op ∧ s.SmallEnough op

instance (s : Session ι) (op : Op) : Decidable (s.InPlace op) := inferInstanceAs (Decidable (_ ∧ _))

/-- In a run on a new database in which every record a request appends either fits
    behind the write offset of the active file or is its first one, and no stored key
    or value exceeds 64 MiB, every request is acknowledged, and afterwards every key
    has the value of the last write of it. -/
theorem get_run {options : Options} {w : World} (hfresh : Fresh options w)
    (hio : ∀ c, w.outcomes c = []) :
    ∃ (db : DB ι) (w' : World), (DB.open options : Sys (DB ι)).run w = .ok db w' ∧
      ∀ ops, Machine.AllSteps step InPlace ⟨⟨db, w'⟩, []⟩ ops →
        Machine.AllSteps step (fun s op => (s.step op).2 = s.requested op) ⟨⟨db, w'⟩, []⟩ ops ∧
        let x := run ⟨⟨db, w'⟩, []⟩ ops
        ∀ k ≠ [], DB.get x.1.proc.db x.1.proc.world.fs k =
          match overlay x.2 (fun _ => none) k with
          | some v => .ok v
          | none => .error .keyNotFound := by
  obtain ⟨db, w', hopen, hmade⟩ := hfresh.open (ι := ι)
  refine ⟨db, w', hopen, fun ops hops => ?_⟩
  have hnone (c : Call) : w'.outcomes c = [] := by rw [hmade.outcomes, hio]
  have hstart : Keeps true ⟨db, w'⟩ 0 Reads ⟨⟨db, w'⟩, []⟩ [] := by
    refine ⟨[], 0, Nat.le_refl _, ⟨hmade.stored, .refl _, hnone _, ?_⟩, nofun, fun k => ?_⟩
    · simp [Proc.writeOutcomes, hnone]
    · rw [hmade.index]
      exact .none
  have hstep : ∀ (s : Session ι) op records (zeros : ℕ) appended acks,
      Ongoing true ⟨db, w'⟩ s records zeros → Reads s records acks → InPlace s op →
      appended <+: s.appends op →
      Effect s.proc (s.step op).1.proc (encodeAll records).length (s.committed op) appended
        (s.step op).2 → Reads (s.step op).1 (records ++ appended) (acks ++ (s.step op).2) :=
    fun s op records _ appended acks _ hreads hC hpre heffect =>
      reads_step hreads (heffect.readable hC.2 hpre) heffect
  refine ⟨acknowledged_of_keeps (fun _ _ hC => hC.1) hstep (hnone _) hstart hops, ?_⟩
  obtain ⟨records, zeros, -, hs, hreads⟩ := run_keeps (fun _ _ hC => hC.1) hstep hstart hops
  exact fun k hk => get_of_reads hs.stored hreads hk

/-- A batch replaces one of two keys and removes the other one. -/
def replaceAndRemove : List Op :=
  [.put [97] [49], .put [98] [50], .newWriteBatch ⟨10⟩, .batchPut 0 [97] [51],
    .batchRemove 0 [98], .commit 0]

omit [Indexer ι] in
theorem fresh_empty {dataFileSize : ℕ} (h : dataFileSize ≠ 0) (mmapAtStartup : Bool) :
    Fresh ⟨['d'], dataFileSize, mmapAtStartup⟩ { fs := ∅ } :=
  ⟨by simp [DB.checkOptions, h], fun _ _ => rfl, fun _ => rfl⟩

/-- They are read back: the records fit into a file of 100 bytes. -/
theorem get_run_replaceAndRemove :
    ∃ (db : DB BTreeIndex) (w' : World),
      (DB.open ⟨['d'], 100, false⟩ : Sys (DB BTreeIndex)).run { fs := ∅ } = .ok db w' ∧
      let s := (run ⟨⟨db, w'⟩, []⟩ replaceAndRemove).1
      DB.get s.proc.db s.proc.world.fs [97] = .ok [51] ∧
      DB.get s.proc.db s.proc.world.fs [98] = .error .keyNotFound := by
  obtain ⟨db, w', hopen, h⟩ :=
    get_run (ι := BTreeIndex) (fresh_empty (by decide : 100 ≠ 0) false) (fun _ => rfl)
  have hsteps : (match (DB.open ⟨['d'], 100, false⟩ : Sys (DB BTreeIndex)).run { fs := ∅ } with
      | .ok db w' =>
        decide (Machine.AllSteps step InPlace ⟨⟨db, w'⟩, []⟩ replaceAndRemove ∧
          (run ⟨⟨db, w'⟩, []⟩ replaceAndRemove).2 =
            [([97], some [49]), ([98], some [50]), ([97], some [51]), ([98], none)])
      | .error _ _ => false) = true := by decide +kernel
  rw [hopen] at hsteps
  obtain ⟨hsteps, hwrites⟩ := of_decide_eq_true hsteps
  have hget := (h _ hsteps).2
  refine ⟨db, w', hopen, (hget [97] (by decide)).trans ?_, (hget [98] (by decide)).trans ?_⟩
  · rw [hwrites]
    decide
  · rw [hwrites]
    decide


/-- A request with a key that is not empty, whose key and value do not exceed 64 MiB. -/
def WithinLimits : Op → Prop
  | .put key value | .batchPut _ key value =>
    key ≠ [] ∧ key.length ≤ maxRecordSize ∧ value.length ≤ maxRecordSize
  | .remove key | .batchRemove _ key => key ≠ [] ∧ key.length ≤ maxRecordSize
  | _ => True

/-- Putting two keys whose records of nine bytes do not fit into one file of ten. -/
def putTwo : List Op := [.put [97] [49], .put [98] [50]]

/-- The second record overwrites the first one: a key is read back with the value
    of the other one. -/
theorem not_forall_get_run :
    ¬∀ (options : Options) (w : World), Fresh options w → (∀ c, w.outcomes c = []) →
      ∀ (db : DB BTreeIndex) (w' : World),
        (DB.open options : Sys (DB BTreeIndex)).run w = .ok db w' →
        ∀ ops : List Op, (∀ op ∈ ops, WithinLimits op) →
          let x := run ⟨⟨db, w'⟩, []⟩ ops
          ∀ k ≠ [], DB.get x.1.proc.db x.1.proc.world.fs k =
            match overlay x.2 (fun _ => none) k with
            | some v => .ok v
            | none => .error .keyNotFound := by
  intro h
  have hfresh : Fresh ⟨['d'], 10, false⟩ { fs := ∅ } := fresh_empty (by decide) false
  obtain ⟨db, w', hopen, -⟩ := hfresh.open (ι := BTreeIndex)
  have hvalues : (match (DB.open ⟨['d'], 10, false⟩ : Sys (DB BTreeIndex)).run { fs := ∅ } with
      | .ok db w' =>
        let x := run ⟨⟨db, w'⟩, []⟩ putTwo
        decide (DB.get x.1.proc.db x.1.proc.world.fs [97] = .ok [50] ∧
          x.2 = [([97], some [49]), ([98], some [50])])
      | .error _ _ => false) = true := by decide +kernel
  rw [hopen] at hvalues
  obtain ⟨hget, hwrites⟩ := of_decide_eq_true hvalues
  have hlimits : ∀ op ∈ putTwo, WithinLimits op := by simp [putTwo, WithinLimits, maxRecordSize]
  have hread := h _ _ hfresh (fun _ => rfl) db w' hopen putTwo hlimits [97] (by decide)
  rw [hget, hwrites] at hread
  exact absurd hread (by decide)

end Session

end Bitcask
