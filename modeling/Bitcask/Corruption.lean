import Bitcask.ReadIntegrity
import Bitcask.TornLog

/-!
# Damaged files

What loading reads from a file is decided by the file alone (`readsFrom`): it goes on
behind a record that is read, by the size the record declares, and one byte behind
what is rejected, and it stops where the file seems to end. If the bytes of one record
are damaged, the others are read if and only if this comes to the end of the damage:
no end of the file is met in it, nor a record that reaches behind it (`Met`).
-/

namespace Bitcask

open Framing FuelLoop DataFile Guarantee

/-! ## What is read from a file -/

/-- The records read from an offset on, with their offsets. -/
def readsFrom (content : Bytes) : ℕ → ℕ → List (ℕ × ReadLogRecord)
  | 0, _ => []
  | fuel + 1, offset =>
    match readLogRecord content offset with
    | .ok read => (offset, read) :: readsFrom content fuel (offset + read.size)
    | .error .readDataFileEOF => []
    | .error _ =>
      if content.length ≤ offset + 1 then [] else readsFrom content fuel (offset + 1)

/-- The records read from a file. -/
def readsOf (content : Bytes) : List (ℕ × ReadLogRecord) := readsFrom content (content.length + 1) 0

namespace Loading

variable {ι : Type} [Indexer ι]

/-- Takes records that have been read from a file into account. -/
def processReads (s : Loading ι) (fid : ℕ) (reads : List (ℕ × ReadLogRecord)) : Loading ι :=
  reads.foldl (fun s x => s.process x.2.record ⟨fid, x.1, x.2.size % 2 ^ 32⟩) s

end Loading

section Reads

variable {content : Bytes} {offset offset' fuel : ℕ} {read : ReadLogRecord}

theorem readsFrom_ok (h : readLogRecord content offset = .ok read) (fuel : ℕ) :
    readsFrom content (fuel + 1) offset =
      (offset, read) :: readsFrom content fuel (offset + read.size) := by
  rw [readsFrom, h]

theorem readsFrom_eof (h : readLogRecord content offset = .error .readDataFileEOF) (fuel : ℕ) :
    readsFrom content (fuel + 1) offset = [] := by
  rw [readsFrom, h]

/-- What is rejected is skipped byte by byte. -/
theorem readsFrom_error {e : Exn} (h : readLogRecord content offset = .error e)
    (hne : e ≠ .readDataFileEOF) (fuel : ℕ) : readsFrom content (fuel + 1) offset =
      if content.length ≤ offset + 1 then [] else readsFrom content fuel (offset + 1) := by
  rw [readsFrom, h]
  cases e <;> first | rfl | exact absurd rfl hne

/-- A record is read, or reading ends, or it goes on one byte behind. -/
theorem readsFrom_cases (content : Bytes) (fuel offset : ℕ) :
    (∃ read, readLogRecord content offset = .ok read ∧ readsFrom content (fuel + 1) offset =
      (offset, read) :: readsFrom content fuel (offset + read.size)) ∨
    readsFrom content (fuel + 1) offset = [] ∨
    readsFrom content (fuel + 1) offset = readsFrom content fuel (offset + 1) := by
  cases h : readLogRecord content offset with
  | ok read => exact .inl ⟨read, rfl, readsFrom_ok h fuel⟩
  | error e =>
    by_cases hend : e = .readDataFileEOF
    · exact .inr (.inl (readsFrom_eof (hend ▸ h) fuel))
    · rw [readsFrom_error h hend]
      split
      · exact .inr (.inl rfl)
      · exact .inr (.inr rfl)

/-- The records read lie behind the offset. -/
theorem le_of_mem_readsFrom {x : ℕ × ReadLogRecord} (h : x ∈ readsFrom content fuel offset) :
    offset ≤ x.1 := by
  induction fuel generalizing offset with
  | zero => cases h
  | succ fuel ih =>
    rcases readsFrom_cases content fuel offset with ⟨read, -, heq⟩ | heq | heq
    all_goals rw [heq] at h
    · rcases List.mem_cons.1 h with rfl | h
      · exact le_rfl
      · exact (Nat.le_add_right _ _).trans (ih h)
    · cases h
    · exact (Nat.le_succ _).trans (ih h)

/-- Records are read at different offsets. -/
theorem pairwise_readsFrom (content : Bytes) (fuel offset : ℕ) :
    (readsFrom content fuel offset).Pairwise fun x y => x.1 < y.1 := by
  induction fuel generalizing offset with
  | zero => exact .nil
  | succ fuel ih =>
    rcases readsFrom_cases content fuel offset with ⟨read, hread, heq⟩ | heq | heq
    all_goals rw [heq]
    · obtain ⟨-, h7, -⟩ := readLogRecord_bounds hread
      refine List.pairwise_cons.2 ⟨fun x hx => ?_, ih _⟩
      have hle := le_of_mem_readsFrom hx
      dsimp only
      omega
    · exact .nil
    · exact ih _

/-- What is read from a file is what is there. -/
theorem readLogRecord_of_mem_readsFrom {content : Bytes} {fuel offset : ℕ} {x : ℕ × ReadLogRecord}
    (h : x ∈ readsFrom content fuel offset) : readLogRecord content x.1 = .ok x.2 := by
  induction fuel generalizing offset with
  | zero => cases h
  | succ fuel ih =>
    rcases readsFrom_cases content fuel offset with ⟨read, hread, heq⟩ | heq | heq
    all_goals rw [heq] at h
    · rcases List.mem_cons.1 h with rfl | h
      · exact hread
      · exact ih h
    · cases h
    · exact ih h

/-- What is rejected at the end of a file is not read on from there either. -/
theorem readsFrom_skip {content : Bytes} {offset fuel : ℕ} {e : Exn}
    (h : readLogRecord content offset = .error e) (hne : e ≠ .readDataFileEOF)
    (hfuel : content.length - (offset + 1) < fuel) :
    readsFrom content (fuel + 1) offset = readsFrom content fuel (offset + 1) := by
  rw [readsFrom_error h hne]
  split
  · obtain ⟨n, rfl⟩ : ∃ n, fuel = n + 1 := ⟨fuel - 1, by omega⟩
    rw [readsFrom_eof (readLogRecord_eof (by omega))]
  · rfl

/-- The loop ends behind all records that are read, and takes them into account. -/
theorem loop_scanPass_eq {ι : Type} [Indexer ι] (fid : ℕ) (s : Loading ι)
    (hfuel : content.length - offset < fuel) :
    ∃ off, loop (scanPass fid content) fuel (offset, s) =
        some (off, s.processReads fid (readsFrom content fuel offset)) ∧ offset ≤ off ∧
      ∀ x ∈ readsFrom content fuel offset, x.1 + x.2.size ≤ off := by
  induction fuel generalizing offset s with
  | zero => exact absurd hfuel (Nat.not_lt_zero _)
  | succ fuel ih =>
    cases hread : readLogRecord content offset with
    | ok read =>
      obtain ⟨hlt, h7, -⟩ := readLogRecord_bounds hread
      obtain ⟨off, hloop, hle, hreads⟩ := @ih (offset + read.size)
        (s.process read.record ⟨fid, offset, read.size % 2 ^ 32⟩) (by omega)
      rw [readsFrom_ok hread, loop_again (by rw [scanPass, hread]), hloop]
      exact ⟨off, rfl, by omega, List.forall_mem_cons.2 ⟨hle, hreads⟩⟩
    | error e =>
      by_cases heof : e = .readDataFileEOF
      · subst heof
        rw [readsFrom_eof hread, loop_done (by rw [scanPass, hread])]
        exact ⟨offset, rfl, le_rfl, List.forall_mem_nil _⟩
      · have hpass : scanPass fid content (offset, s) =
            if content.length ≤ offset + 1 then .done (offset + 1, s)
            else .again (offset + 1, s) := by
          rw [scanPass, hread]
          cases e <;> first | rfl | exact absurd rfl heof
        rw [readsFrom_error hread heof]
        by_cases hlast : content.length ≤ offset + 1
        · rw [if_pos hlast] at hpass ⊢
          exact ⟨offset + 1, loop_done hpass fuel, Nat.le_succ _, List.forall_mem_nil _⟩
        · rw [if_neg hlast] at hpass ⊢
          obtain ⟨off, hloop, hle, hreads⟩ := @ih (offset + 1) s (by omega)
          exact ⟨off, (loop_again hpass fuel).trans hloop, by omega, hreads⟩

/-- Reading a file takes the records into account that are read from it. -/
theorem scanFile_eq {ι : Type} [Indexer ι] (fid : ℕ) (content : Bytes) (s : Loading ι) :
    ∃ off, scanFile fid content s = (off, s.processReads fid (readsOf content)) := by
  obtain ⟨off, hloop, -⟩ := loop_scanPass_eq fid s
    (by omega : content.length - 0 < content.length + 1)
  refine ⟨off, ?_⟩
  rw [scanFile, hloop]
  rfl

/-- Records encoded at an offset are read, one after the other. -/
theorem readsFrom_encodeAll {records : List LogRecord} {rest : Bytes}
    (hrecords : ∀ r ∈ records, r.Readable)
    (h : content.drop offset = encodeAll records ++ rest) (fuel : ℕ) :
    readsFrom content (records.length + fuel) offset =
      (layout recordSize offset records).map (fun x => (x.1, ⟨x.2, x.2.encode.length⟩)) ++
        readsFrom content fuel (offset + (encodeAll records).length) := by
  induction records generalizing offset with
  | nil => simp
  | cons r records ih =>
    rw [List.forall_mem_cons] at hrecords
    rw [encodeAll_cons, List.append_assoc] at h
    have hread := readLogRecord_encode hrecords.1 h
    have hdrop : content.drop (offset + r.encode.length) = encodeAll records ++ rest := by
      rw [← List.drop_drop, h, List.drop_left]
    rw [List.length_cons, Nat.add_right_comm, readsFrom_ok hread, ih hrecords.2 hdrop, layout_cons,
      List.map_cons, List.cons_append, encodeAll_cons, List.length_append, Nat.add_assoc]
    rfl

/-- The records of a file are read from it. -/
theorem readsOf_encodeAll {records : List LogRecord} (h : ∀ r ∈ records, r.Readable) :
    readsOf (encodeAll records) =
      (offsets records).map fun x => (x.1, ⟨x.2, x.2.encode.length⟩) := by
  have hcount := length_le_length_encodeAll records
  have hfuel : (encodeAll records).length + 1 =
      records.length + ((encodeAll records).length - records.length + 1) := by omega
  have hdrop : (encodeAll records).drop 0 = encodeAll records ++ [] := by simp
  rw [readsOf, hfuel, readsFrom_encodeAll h hdrop, Nat.zero_add,
    readsFrom_eof (readLogRecord_eof (by omega)), List.append_nil]

/-! ## Where reading comes -/

/-- Reading on from an offset comes to another one. -/
inductive Met (content : Bytes) : ℕ → ℕ → Prop
  | here (offset : ℕ) : Met content offset offset
  | read {offset offset' : ℕ} {read : ReadLogRecord} :
      readLogRecord content offset = .ok read → Met content (offset + read.size) offset' →
      Met content offset offset'
  | skip {offset offset' : ℕ} {e : Exn} :
      readLogRecord content offset = .error e → e ≠ .readDataFileEOF →
      Met content (offset + 1) offset' → Met content offset offset'

/-- Before a bound, no end of the file is met, nor a record that reaches behind it. -/
def Undisturbed (content : Bytes) (offset bound : ℕ) : Prop :=
  ∀ o, Met content offset o → o < bound → readLogRecord content o ≠ .error .readDataFileEOF ∧
    ∀ read, readLogRecord content o = .ok read → o + read.size ≤ bound

/-- If nothing disturbs it, reading comes to the bound. -/
theorem Undisturbed.readsFrom_eq {bound : ℕ} (h : Undisturbed content offset bound)
    (hle : offset ≤ bound) (hbound : bound < content.length)
    (hfuel : content.length - offset < fuel) :
    ∃ reads n, content.length - bound < n ∧
      readsFrom content fuel offset = reads ++ readsFrom content n bound := by
  induction fuel generalizing offset with
  | zero => exact absurd hfuel (Nat.not_lt_zero _)
  | succ fuel ih =>
    rcases Nat.eq_or_lt_of_le hle with rfl | hlt
    · exact ⟨[], fuel + 1, hfuel, rfl⟩
    · obtain ⟨hne, hreads⟩ := h offset (.here offset) hlt
      cases hread : readLogRecord content offset with
      | ok read =>
        obtain ⟨-, h7, -⟩ := readLogRecord_bounds hread
        obtain ⟨reads, n, hn, heq⟩ := ih (fun o ho => h o (.read hread ho)) (hreads read hread)
          (by omega)
        exact ⟨(offset, read) :: reads, n, hn, by rw [readsFrom_ok hread, heq]; rfl⟩
      | error e =>
        have heof : e ≠ .readDataFileEOF := fun heq => hne (heq ▸ hread)
        obtain ⟨reads, n, hn, heq⟩ := ih (fun o ho => h o (.skip hread heof ho)) hlt (by omega)
        refine ⟨reads, n, hn, ?_⟩
        rw [readsFrom_error hread heof, if_neg (by omega), heq]

theorem Met.le (h : Met content offset offset') : offset ≤ offset' := by
  induction h with
  | here => exact le_rfl
  | read _ _ ih => exact (Nat.le_add_right _ _).trans ih
  | skip _ _ _ ih => exact (Nat.le_succ _).trans ih

/-- If a record is read, nothing has disturbed reading before it. -/
theorem undisturbed_of_mem_readsFrom {x : ℕ × ReadLogRecord}
    (h : x ∈ readsFrom content fuel offset) : Undisturbed content offset x.1 := by
  induction fuel generalizing offset with
  | zero => cases h
  | succ fuel ih =>
    intro o ho hlt
    cases hread : readLogRecord content offset with
    | ok read =>
      rw [readsFrom_ok hread] at h
      rcases List.mem_cons.1 h with rfl | h
      · exact absurd hlt (Nat.not_lt.2 ho.le)
      · cases ho with
        | here =>
          rw [hread]
          refine ⟨nofun, fun read' heq => ?_⟩
          obtain rfl := Except.ok.inj heq
          exact le_of_mem_readsFrom h
        | read hread' ho =>
          obtain rfl := Except.ok.inj (hread.symm.trans hread')
          exact ih h o ho hlt
        | skip hread' => cases hread.symm.trans hread'
    | error e =>
      by_cases heof : e = .readDataFileEOF
      · rw [heof] at hread
        rw [readsFrom_eof hread] at h
        cases h
      · rw [readsFrom_error hread heof] at h
        split at h
        · cases h
        · cases ho with
          | here =>
            rw [hread]
            exact ⟨fun heq => heof (Except.error.inj heq), nofun⟩
          | read hread' => cases hread.symm.trans hread'
          | skip hread' _ ho => exact ih h o ho hlt

end Reads

/-! ## One damaged record -/

/-- A record written outside of transactions, under a key that is stored as it is. -/
structure LogRecord.Plain (record : LogRecord) : Prop where
  key_le : record.key.length ≤ maxRecordSize
  value_le : record.value.length ≤ maxRecordSize
  type_eq : record.type = .normal ∨ record.type = .deleted
  parse_eq : parseLogRecordKey record.key = (record.key, nonTransactionSeqNo)

theorem LogRecord.Plain.readable {record : LogRecord} (h : record.Plain) : record.Readable :=
  LogRecord.readable_of_le h.key_le h.value_le (h.type_eq.imp_right .inl)

/-- Taking a plain record into account applies it to the index. -/
theorem LogRecord.Plain.process_eq {ι : Type} [Indexer ι] {record : LogRecord} (h : record.Plain)
    (s : Loading ι) (pos : LogRecordPos) :
    s.process record pos = s.updateIndex record.key record.type pos := by
  unfold Loading.process
  simp only [h.parse_eq, if_true]
  exact congrArg (fun seqNo => { s.updateIndex record.key record.type pos with seqNo := seqNo })
    (Nat.max_zero _)

section Damaged

variable {before after : List LogRecord} {record : LogRecord} {damage : Bytes}

/-- The records of a file other than one of them, with their offsets. -/
def otherRecords (before : List LogRecord) (record : LogRecord) (after : List LogRecord) :
    List (ℕ × LogRecord) :=
  offsets before ++ layout recordSize ((encodeAll before).length + record.encode.length) after

/-- All other records are read if and only if there are none behind the damage, or
    nothing disturbs reading in it. -/
theorem forall_mem_readsOf_iff (hbefore : ∀ r ∈ before, r.Readable)
    (hafter : ∀ r ∈ after, r.Readable) (hdamage : damage.length = record.encode.length) :
    (∀ x ∈ otherRecords before record after, (x.1, ⟨x.2, x.2.encode.length⟩) ∈
        readsOf (encodeAll before ++ damage ++ encodeAll after)) ↔
      (after ≠ [] → Undisturbed (encodeAll before ++ damage ++ encodeAll after)
        (encodeAll before).length ((encodeAll before).length + record.encode.length)) := by
  rw [otherRecords, ← hdamage]
  set content := encodeAll before ++ damage ++ encodeAll after with hcontent
  have hlen : content.length =
      (encodeAll before).length + damage.length + (encodeAll after).length := by
    simp [hcontent, Nat.add_assoc]
  have hcount := length_le_length_encodeAll before
  obtain ⟨fuel, hfuel⟩ : ∃ fuel, content.length + 1 = before.length + fuel :=
    ⟨content.length + 1 - before.length, by omega⟩
  have hreads : readsOf content = (offsets before).map (fun x => (x.1, ⟨x.2, x.2.encode.length⟩)) ++
      readsFrom content fuel (encodeAll before).length := by
    have hdrop : content.drop 0 = encodeAll before ++ (damage ++ encodeAll after) := by
      simp [hcontent]
    rw [readsOf, hfuel, readsFrom_encodeAll hbefore hdrop, Nat.zero_add]
  rw [hreads]
  constructor
  · intro h hne
    obtain ⟨first, rest, rfl⟩ := List.exists_cons_of_ne_nil hne
    have hmem := h ((encodeAll before).length + damage.length, first)
      (List.mem_append_right _ List.mem_cons_self)
    rcases List.mem_append.1 hmem with hmem | hmem
    · -- the records before the damage end where it starts
      obtain ⟨x, hx, heq⟩ := List.mem_map.1 hmem
      have hbounds := (bounds_of_mem_layout hx).2
      have hpos : 0 < recordSize x.2 := x.2.length_encode_pos
      have hoffset := congrArg Prod.fst heq
      rw [Nat.zero_add, ← length_encodeAll] at hbounds
      simp only at hoffset
      omega
    · exact undisturbed_of_mem_readsFrom hmem
  · intro h x hx
    rcases List.mem_append.1 hx with hx | hx
    · exact List.mem_append_left _ (List.mem_map.2 ⟨x, hx, rfl⟩)
    · have hne : after ≠ [] := by
        rintro rfl
        cases hx
      have hpos : 0 < (encodeAll after).length :=
        (List.length_pos_iff.2 hne).trans_le (length_le_length_encodeAll after)
      obtain ⟨reads, n, hn, heq⟩ := (h hne).readsFrom_eq (Nat.le_add_right _ _) (by omega)
        (by omega : content.length - (encodeAll before).length < fuel)
      have hdrop : content.drop ((encodeAll before).length + damage.length) =
          encodeAll after ++ [] := by
        rw [hcontent, ← List.length_append, List.drop_left, List.append_nil]
      have hafter' := length_le_length_encodeAll after
      obtain ⟨m, rfl⟩ : ∃ m, n = after.length + m := ⟨n - after.length, by omega⟩
      rw [heq, readsFrom_encodeAll hafter hdrop]
      refine List.mem_append_right _ (List.mem_append_right _ (List.mem_append_left _ ?_))
      exact List.mem_map.2 ⟨x, hx, rfl⟩

end Damaged

namespace DB

variable {ι : Type} [Indexer ι]

/-- The other records of a file are applied, and the active file will be written
    behind them. -/
def Isolates (reads : List (ℕ × ReadLogRecord)) (writeOff : ℕ) (others : List (ℕ × LogRecord)) :
    Prop :=
  ∀ x ∈ others, (x.1, ⟨x.2, x.2.encode.length⟩) ∈ reads ∧ x.1 + x.2.encode.length ≤ writeOff

/-- Loading applies exactly the records that are read, in order, and the damage of one
    record leaves the others applied if and only if none is behind it, or reading on
    from its start meets no end of the file in it, nor a record that reaches behind it. -/
theorem loadIndexFromDataFiles_isolates_iff {p : Proc ι} {fid : ℕ} {before after : List LogRecord}
    {record : LogRecord} {damage : Bytes}
    (h : OneFile p fid (encodeAll before ++ damage ++ encodeAll after))
    (hplain : ∀ r ∈ before ++ record :: after, r.Plain)
    (hdamage : damage.length = record.encode.length) :
    ∃ q file, (loadIndexFromDataFiles : DBM ι Unit).run p = .ok () q ∧
      q.db.activeFile = some file ∧
      let content := encodeAll before ++ damage ++ encodeAll after
      let start := (encodeAll before).length
      q.db.index = (Loading.processReads
        { index := Indexer.create p.world.seeds, reclaimSize := p.db.reclaimSize } fid
        (readsOf content)).index ∧
      (∀ x ∈ otherRecords before record after, ∀ (s : Loading ι) (pos : LogRecordPos),
        s.process x.2 pos = s.updateIndex x.2.key x.2.type pos) ∧
      (Isolates (readsOf content) file.writeOff (otherRecords before record after) ↔
        (after ≠ [] → Undisturbed content start (start + record.encode.length))) := by
  obtain ⟨q, hrun, hindex, -, file, hfile, hoff⟩ := loadIndexFromDataFiles_oneFile h
  have hbefore : ∀ r ∈ before, r.Plain := fun r hr => hplain r (List.mem_append_left _ hr)
  have hafter : ∀ r ∈ after, r.Plain := fun r hr =>
    hplain r (List.mem_append_right _ (List.mem_cons_of_mem _ hr))
  set content := encodeAll before ++ damage ++ encodeAll after
  obtain ⟨off, hloop, -, hends⟩ := loop_scanPass_eq fid
    ({ index := Indexer.create p.world.seeds, reclaimSize := p.db.reclaimSize } : Loading ι)
    (by omega : content.length - 0 < content.length + 1)
  rw [scanFile, hloop] at hindex hoff
  refine ⟨q, file, hrun, hfile, hindex, fun x hx s pos => ?_, ?_⟩
  · refine LogRecord.Plain.process_eq ?_ s pos
    rcases List.mem_append.1 hx with hx | hx
    · exact hbefore _ (mem_of_mem_layout hx)
    · exact hafter _ (mem_of_mem_layout hx)
  · rw [← forall_mem_readsOf_iff (fun r hr => (hbefore r hr).readable)
      (fun r hr => (hafter r hr).readable) hdamage]
    constructor
    · exact fun hisolates x hx => (hisolates x hx).1
    · intro hall x hx
      refine ⟨hall x hx, ?_⟩
      rw [hoff]
      exact hends _ (hall x hx)

/-- The record of putting the value `3` at the key `b`. -/
def otherPutRecord : LogRecord := ⟨[98], [51], .normal⟩

theorem plain_putRecords : ∀ r ∈ [] ++ putRecord :: [otherPutRecord], r.Plain := by
  intro r hr
  simp only [List.nil_append, List.mem_cons, List.not_mem_nil, or_false] at hr
  rcases hr with rfl | rfl
  · exact ⟨by decide, by decide, by decide, rfl⟩
  · exact ⟨by decide, by decide, by decide, rfl⟩

/-- The record of `putRecord` with another value, under the old checksum. -/
def damagedPutRecord : Bytes := putRecord.encode.take 8 ++ [57, 57]

/-- A record whose value is damaged is read nevertheless, and the one behind it, too. -/
theorem loadIndexFromDataFiles_isolates_value :
    ∃ q file, (loadIndexFromDataFiles : DBM BTreeIndex Unit).run
        (aboutToLoad ['d'] [(0, damagedPutRecord ++ encodeAll [otherPutRecord])]) = .ok () q ∧
      q.db.activeFile = some file ∧
      Isolates (readsOf (damagedPutRecord ++ encodeAll [otherPutRecord])) file.writeOff
        (otherRecords [] putRecord [otherPutRecord]) := by
  obtain ⟨q, file, hrun, hfile, -, -, hiff⟩ := @loadIndexFromDataFiles_isolates_iff BTreeIndex _ _ 0
    [] [otherPutRecord] putRecord damagedPutRecord (oneFile_aboutToLoad _) plain_putRecords
    (by decide +kernel)
  have hread : readLogRecord (damagedPutRecord ++ encodeAll [otherPutRecord]) 0 =
      .ok ⟨⟨[97], [57, 57], .normal⟩, 10⟩ := by
    decide +kernel
  have hsize : putRecord.encode.length = 10 := by
    decide +kernel
  refine ⟨q, file, hrun, hfile, hiff.2 fun _ o ho hlt => ?_⟩
  rw [hsize] at hlt ⊢
  cases ho with
  | here =>
    refine ⟨fun heof => ?_, fun read heq => ?_⟩
    · cases hread.symm.trans heof
    · obtain rfl := Except.ok.inj (hread.symm.trans heq)
      exact le_rfl
  | read hread' ho =>
    obtain rfl := Except.ok.inj (hread.symm.trans hread')
    exact absurd hlt (Nat.not_lt.2 ho.le)
  | skip hread' => cases hread.symm.trans hread'

/-- If zeros take the place of the first record, nothing is read. -/
theorem not_forall_loadIndexFromDataFiles_isolates :
    ¬∀ (p : Proc BTreeIndex) (fid : ℕ) (before after : List LogRecord) (record : LogRecord)
      (damage : Bytes), OneFile p fid (encodeAll before ++ damage ++ encodeAll after) →
      (∀ r ∈ before ++ record :: after, r.Plain) → damage.length = record.encode.length →
      ∃ q file, (loadIndexFromDataFiles : DBM BTreeIndex Unit).run p = .ok () q ∧
        q.db.activeFile = some file ∧
        Isolates (readsOf (encodeAll before ++ damage ++ encodeAll after)) file.writeOff
          (otherRecords before record after) := by
  intro h
  obtain ⟨q, file, -, -, hisolates⟩ := h _ 0 [] [otherPutRecord] putRecord (List.replicate 10 0)
    (oneFile_aboutToLoad _) plain_putRecords (by decide +kernel)
  have hnone : readsOf (encodeAll [] ++ List.replicate 10 0 ++ encodeAll [otherPutRecord]) = [] := by
    decide +kernel
  rw [hnone] at hisolates
  have hmem := (hisolates (10, otherPutRecord) (by decide +kernel)).1
  cases hmem

end DB

end Bitcask
