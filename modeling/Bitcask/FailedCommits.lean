import Bitcask.ActiveFile
import Bitcask.ReadYourWrites

/-!
# Commits that fail

A commit that throws because a write has failed may have written some records already.
The index, the sequence number, the bytes to reclaim and the batch are as before, and
so is what is read if all records indexed in the active file end in front of its write
offset and of its end (`Session.commit_fail`). In a run on a new database they do. They
do not where a record cut by a crash has been loaded: the gap behind it is then filled
with zeros (`not_forall_commit_fail`).
-/

namespace Bitcask

open Framing Transaction DataFile DBM Guarantee

variable {ι : Type}

/-! ## Settled databases -/

/-- A record lies in front of every bound behind it. -/
theorem liesBefore_encode {content rest : Bytes} {offset bound : ℕ} {record : LogRecord}
    (h : content.drop offset = record.encode ++ rest)
    (htype : record.type = .normal ∨ record.type = .deleted ∨ record.type = .txnFinished)
    (hbound : offset + record.encode.length ≤ bound) : LiesBefore content bound offset := by
  rw [LogRecord.length_encode] at hbound
  rw [LogRecord.encode_eq, List.append_assoc] at h
  unfold LiesBefore
  split
  · -- Whatever the header declares, the record is at least that long.
    rename_i header headerSize hheader
    have hdecode := (readLogRecordHeader_eq_ok_iff.1 hheader).2.1
    rw [h] at hdecode
    obtain ⟨rfl, rfl⟩ := Prod.mk.inj (decodeLogRecordHeader_take hdecode)
    have hkey : record.decodedHeader.keySize ≤ record.key.length :=
      (Nat.mod_le _ _).trans (Nat.mod_le _ _)
    have hvalue : record.decodedHeader.valueSize ≤ record.value.length :=
      (Nat.mod_le _ _).trans (Nat.mod_le _ _)
    omega
  · -- Only large records are rejected.
    rename_i e hheader
    by_contra hsmall
    have hmax : maxLogRecordHeaderSize = 15 := rfl
    have hsize : maxRecordSize = 67108864 := rfl
    rw [readLogRecordHeader_header
      (LogRecord.readable_of_le (by omega) (by omega) htype) h] at hheader
    cases hheader

variable [Indexer ι]

/-- A database whose keys are at the positions of its records is settled. -/
theorem Stored.settled {p : Proc ι} {records : List LogRecord} {zeros : ℕ}
    (h : Stored p records zeros)
    (hindex : ∀ k pos, Indexer.get p.db.index k = some pos → ∃ v, HasValue records pos v) :
    p.Settled := by
  intro k pos file hpos hfile hpath
  obtain ⟨v, x, hx, rfl, htype, -⟩ := hindex k pos hpos
  have hwriter : p.db.writer = p.db.activeAt (encodeAll records).length := by
    rw [DB.writer, h.active]
    rfl
  have hcontent : file.content p.world.fs = encodeAll records ++ List.replicate zeros 0 :=
    content_eq_of_file? (by rw [hpath, hwriter]; exact h.content)
  obtain ⟨rest, hrest⟩ := drop_encodeAll hx (List.replicate zeros 0)
  have hend := (bounds_of_mem_layout hx).2
  rw [Nat.zero_add, ← length_encodeAll] at hend
  rw [Proc.started_of_some h.active, hwriter, hcontent]
  refine liesBefore_encode hrest (.inl htype) (le_min hend ?_)
  rw [List.length_append]
  exact hend.trans (Nat.le_add_right _ _)

/-! ## Cut values -/

/-- The record at an offset has a value, which is cut by the end of the file. It ends
    in front of a bound, as its header declares it. -/
def ValueCut (content : Bytes) (bound offset : ℕ) : Prop :=
  ∃ header headerSize, readLogRecordHeader content offset = .ok (header, headerSize) ∧
    header.type ≠ .deleted ∧ 0 < header.valueSize ∧
    content.length < offset + headerSize + header.keySize + header.valueSize ∧
    offset + headerSize + header.keySize + header.valueSize ≤ bound

/-- The value read at an offset. -/
def readValue (content : Bytes) (offset : ℕ) : Except Exn Bytes := do
  let read ← readLogRecord content offset
  if read.record.type = .deleted then .error .keyNotFound else .ok read.record.value

/-- The bytes of a value that are there are read, unless there are none or the record
    is refused. -/
theorem readValue_eq {content : Bytes} {offset : ℕ} {header : LogRecordHeader} {headerSize : ℕ}
    (hheader : readLogRecordHeader content offset = .ok (header, headerSize))
    (htype : header.type ≠ .deleted) (hpos : 0 < header.valueSize) :
    (content.length ≤ offset + headerSize ∧ readValue content offset = .error .readDataFileEOF) ∨
      (offset + headerSize + header.keySize + header.valueSize ≤ content.length ∧
        readValue content offset = .error .invalidCRC) ∨
      ∃ value, readValue content offset = .ok value ∧ value.length =
        min header.valueSize (content.length - (offset + headerSize + header.keySize)) := by
  rw [readValue, readLogRecord, hheader]
  simp only [bind, Except.bind]
  rcases Nat.lt_or_ge (offset + headerSize) content.length with hlt | hge
  · rw [readNBytes_eq (.inr hlt)]
    simp only [splitKeyValue_take, List.drop_drop]
    set record : LogRecord := {
      key := (content.drop (offset + headerSize)).take header.keySize
      value := (content.drop (offset + headerSize + header.keySize)).take header.valueSize
      type := header.type } with hrecord
    by_cases hcrc : checkCRC header record = true
    · rw [if_pos hcrc]
      simp only [show record.type = header.type from rfl, if_neg htype]
      refine .inr (.inr ⟨_, rfl, ?_⟩)
      rw [hrecord, List.length_take, List.length_drop]
    · -- Only a record that is there as a whole is refused.
      rw [if_neg hcrc]
      rw [checkCRC_eq_true_iff, Classical.not_imp, hrecord, List.length_take, List.length_drop,
        List.length_take, List.length_drop] at hcrc
      exact .inr (.inl ⟨by omega, rfl⟩)
  · rw [readNBytes, if_neg (by omega), if_pos hge]
    exact .inl ⟨hge, rfl⟩

/-- A value that is cut is read otherwise once there are bytes behind it. -/
theorem ValueCut.readValue_ne {content content' : Bytes} {bound offset : ℕ}
    (h : ValueCut content bound offset) (hbound : bound ≤ content'.length)
    (htake : content'.take content.length = content) :
    readValue content' offset ≠ readValue content offset := by
  obtain ⟨header, headerSize, hheader, htype, hpos, hcut, hle⟩ := h
  have hsize := (readLogRecordHeader_eq_ok_iff.1 hheader).2.2.2.2.2
  have hheader' := readLogRecordHeader_of_take hheader hsize (by omega)
    (htake.trans List.take_length.symm)
  intro heq
  rcases readValue_eq hheader' htype hpos with ⟨hend, -⟩ | ⟨-, hread'⟩ | ⟨value', hread', hlen'⟩
  · omega
  · rw [hread'] at heq
    rcases readValue_eq hheader htype hpos with ⟨-, hread⟩ | ⟨hend, -⟩ | ⟨value, hread, -⟩
    · cases heq.trans hread
    · omega
    · cases heq.trans hread
  · rw [hread'] at heq
    rcases readValue_eq hheader htype hpos with ⟨-, hread⟩ | ⟨hend, -⟩ | ⟨value, hread, hlen⟩
    · cases heq.trans hread
    · omega
    · obtain rfl := Except.ok.inj (heq.trans hread)
      omega

/-- A value that is cut is read otherwise once something has been written behind it. -/
theorem Proc.Appended.get_ne {p q : Proc ι} {file : DataFile} {parts : List Bytes}
    (h : Appended file parts p q) (hindex : q.db.index = p.db.index)
    (hactive : p.db.activeFile = some file)
    (hne : parts.flatten ≠ []) {k : Bytes} {pos : LogRecordPos} (hk : k ≠ [])
    (hpos : Indexer.get p.db.index k = some pos) (hfid : pos.fid = file.fileId)
    (hcut : ValueCut (file.content p.world.fs) file.writeOff pos.offset) :
    DB.get q.db q.world.fs k ≠ DB.get p.db p.world.fs k := by
  have hfile : p.db.fileOf pos.fid = some file := hfid ▸ DB.fileOf_of_eq hactive
  obtain ⟨file', hfile', hpath⟩ : ∃ file', q.db.fileOf pos.fid = some file' ∧
      file'.path = file.path :=
    ⟨{ file with writeOff := file.writeOff + parts.flatten.length },
      hfid ▸ DB.fileOf_of_eq h.activeFile, rfl⟩
  have hparts : parts ≠ [] := by
    rintro rfl
    exact hne rfl
  cases hc : p.world.fs.file? file.path with
  | none =>
    -- There is nothing to be cut in a file that is gone.
    obtain ⟨header, headerSize, hheader, -⟩ := hcut
    have := (readLogRecordHeader_eq_ok_iff.1 hheader).1
    rw [DataFile.content, hc] at this
    simp at this
  | some c =>
    have hc' := h.content hparts c hc
    have hwritten := file.writtenBehind parts.flatten c
    rw [content_eq_of_file? hc] at hcut
    have hend := hwritten.end_le hne
    have hle : c.length ≤ file.writeOff := by
      obtain ⟨header, headerSize, -, -, -, hcut, hle⟩ := hcut
      omega
    have htake := hwritten.take_eq
    rw [Nat.min_eq_right hle, List.take_length] at htake
    rw [DB.get, DB.get, if_neg hk, if_neg hk, hindex, hpos]
    show q.db.getValueByPosition q.world.fs pos ≠ p.db.getValueByPosition p.world.fs pos
    rw [DB.getValueByPosition, DB.getValueByPosition, hfile, hfile']
    show readValue (file'.content q.world.fs) pos.offset ≠
      readValue (file.content p.world.fs) pos.offset
    rw [content_eq_of_file? hc, content_eq_of_file? (by rw [hpath, hc'])]
    exact hcut.readValue_ne (by omega) htake

/-! ## Failing -/

/-- The commit of a batch makes `n` writes, without a rotation, and then a write fails. -/
structure FailsAt (p : Proc ι) (batch : WriteBatch) (n : ℕ) : Prop where
  start : p.CanStart
  pending : batch.pendingWrites ≠ []
  noRotation : NoRotation p.db.options.dataFileSize p.db.writer.writeOff p.outcomes batch.records
  fails : (storeAll p.outcomes batch.records).2 = false
  length_eq : (storeAll p.outcomes batch.records).1.length = n

/-- A commit that fails has stored just what was written before. -/
theorem WriteBatch.commit_run_of_failsAt {p : Proc ι} {batch : WriteBatch} {n : ℕ}
    (h : FailsAt p batch n) : ∃ e q, batch.commit.run p = .error e q ∧
      Proc.Appended p.db.writer (storeAll p.outcomes batch.records).1 p.started q ∧
      SameIndex p q := by
  rcases appendBatch_run h.start h.pending h.noRotation with ⟨hok, -⟩ | ⟨-, e, q, hrun, hq, hindex⟩
  · rw [h.fails] at hok
    cases hok
  · refine ⟨e, q, ?_, hq, hindex⟩
    rw [commit, if_neg h.pending]
    exact hrun _

namespace Session

/-- After a commit that throws because a write has failed, wherever that is, the index,
    the sequence number, the bytes to reclaim and all batches are as before. Every key
    is read as before if all records indexed in the active file lie in front of its
    write offset and of its end, or if nothing has been written. This is so in every
    run on a new database without a rotation. -/
theorem commit_fail :
    (∀ (s : Session ι) (i n : ℕ) (batch : WriteBatch), s.batches[i]? = some batch →
      FailsAt s.proc batch n →
      ∃ e q, batch.commit.run s.proc = .error e q ∧
        s.step (.commit i) = ({ s with proc := q }, []) ∧ SameIndex s.proc q ∧
        (s.proc.Settled ∨ (n = 0 ∧ s.proc.db.activeFile ≠ none) →
          ∀ k, DB.get q.db q.world.fs k = DB.get s.proc.db s.proc.world.fs k) ∧
        ∀ k pos file, k ≠ [] → Indexer.get s.proc.db.index k = some pos →
          s.proc.db.activeFile = some file → pos.fid = file.fileId →
          (storeAll s.proc.outcomes batch.records).1.flatten ≠ [] →
          ValueCut (file.content s.proc.world.fs) file.writeOff pos.offset →
          DB.get q.db q.world.fs k ≠ DB.get s.proc.db s.proc.world.fs k) ∧
    ∀ (options : Options) (w : World), Fresh options w →
      (∀ o ∈ w.outcomes (.write (getDataFileName options.dirPath 0)), o = .ok ∨ o = .fail) →
      ∃ (db : DB ι) (w' : World), (DB.open options : Sys (DB ι)).run w = .ok db w' ∧
        ∀ ops, Machine.AllSteps step (FitsFile true) ⟨⟨db, w'⟩, []⟩ ops →
          (run ⟨⟨db, w'⟩, []⟩ ops).1.proc.Settled := by
  constructor
  · intro s i n batch hbatch hfails
    obtain ⟨e, q, hrun, hq, hindex⟩ := WriteBatch.commit_run_of_failsAt hfails
    refine ⟨e, q, hrun, ?_, hindex, ?_, ?_⟩
    · simp only [step, commitBatch, hbatch, hrun]
    · rintro (hsettled | ⟨rfl, hactive⟩) k
      · exact hsettled.get_eq hq (by rw [hindex.index])
      · -- Nothing has been written, so the database and its files are the same.
        obtain ⟨file, hfile⟩ := Option.ne_none_iff_exists'.1 hactive
        rw [Proc.started_of_some hfile, List.eq_nil_of_length_eq_zero hfails.length_eq] at hq
        exact hq.get_eq_of_nil hfile hindex k
    · intro k pos file hk hpos hactive hfid hn hcut
      have hwriter : s.proc.db.writer = file := by rw [DB.writer, hactive]; rfl
      rw [Proc.started_of_some hactive, hwriter] at hq
      exact hq.get_ne hindex.index hactive hn hk hpos hfid hcut
  · intro options w hfresh hw
    obtain ⟨db, w', hopen, hmade⟩ := hfresh.open (ι := ι)
    refine ⟨db, w', hopen, fun ops hops => ?_⟩
    have hio := hmade.noShortWrites hfresh hw
    have hstart : Keeps true ⟨db, w'⟩ 0 (fun s records acks => ∀ k,
        Option.Rel (HasValue records) (Indexer.get s.proc.db.index k)
          (overlay acks (fun _ => none) k)) ⟨⟨db, w'⟩, []⟩ [] := by
      refine ⟨[], 0, Nat.le_refl _, ⟨hmade.stored, .refl _, hio⟩, fun k => ?_⟩
      rw [hmade.index]
      exact .none
    obtain ⟨records, zeros, -, hs, hvalues⟩ := run_keeps (fun _ _ hC => hC)
      (fun s op records _ appended acks _ hvalues _ _ heffect => hasValue_step hvalues heffect)
      hstart hops
    refine hs.stored.settled fun k pos hpos => ?_
    have hrel := hvalues k
    rw [hpos] at hrel
    cases hv : overlay _ (fun _ => none) k with
    | none => rw [hv] at hrel; cases hrel
    | some v =>
      rw [hv] at hrel
      exact ⟨v, Option.rel_some_some.1 hrel⟩

/-- A batch that puts one key. -/
def putBatch (seqNo : ℕ) : WriteBatch where
  options := ⟨10⟩
  pendingWrites := [⟨[120], [121], .normal⟩]
  isWrite := List.forall_mem_singleton.2 ⟨by decide, .inl rfl⟩
  seqNo := seqNo

omit [Indexer ι] in
/-- Where its second write fails, the batch is not committed. -/
theorem failsAt_putBatch {p : Proc ι} {offset : ℕ} (hoffset : offset ≤ 10)
    (hactive : p.db.activeFile = some ⟨⟨['d'], .data 0⟩, 0, offset, .standardFio⟩)
    (hsize : p.db.options.dataFileSize = 100)
    (houtcomes : p.world.outcomes (.write ⟨['d'], .data 0⟩) = [.ok, .fail]) :
    FailsAt p (putBatch 1) 1 := by
  have hwriter : p.db.writer = ⟨⟨['d'], .data 0⟩, 0, offset, .standardFio⟩ := by
    rw [DB.writer, hactive]
    rfl
  have hout : p.outcomes = [.ok, .fail] := by rw [Proc.outcomes, hwriter, houtcomes]
  refine ⟨fun hnone => ?_, by decide, ?_, ?_, ?_⟩
  · rw [hactive] at hnone
    cases hnone
  · have hfits : ∀ offset ≤ 10, NoRotation 100 offset [.ok, .fail] (putBatch 1).records := by
      decide +kernel
    rw [hout, hsize, hwriter]
    exact hfits offset hoffset
  · rw [hout]
    decide +kernel
  · rw [hout]
    decide +kernel

/-- A place where there is nothing yet, and where the second write to the first data
    file will fail. -/
def failingWorld : World where
  fs := ∅
  outcomes := Function.update (fun _ => []) (.write ⟨['d'], .data 0⟩) [.ok, .fail]

/-- On a new database, nothing is seen of a batch whose commit fails. -/
theorem commit_fail_putBatch :
    ∃ (db : DB BTreeIndex) (w : World), ∃ e q,
      (DB.open ⟨['d'], 100, false⟩ : Sys (DB BTreeIndex)).run failingWorld = .ok db w ∧
      (putBatch 1).commit.run ⟨db, w⟩ = .error e q ∧ SameIndex ⟨db, w⟩ q ∧
      ∀ k, DB.get q.db q.world.fs k = DB.get db w.fs k := by
  have hfresh : Fresh ⟨['d'], 100, false⟩ failingWorld :=
    ⟨rfl, fun _ _ => rfl, fun _ => rfl⟩
  obtain ⟨hunchanged, hruns⟩ := commit_fail (ι := BTreeIndex)
  obtain ⟨db, w, hopen, hsettled⟩ := hruns _ _ hfresh (by decide)
  obtain ⟨db', w', hopen', hmade⟩ := hfresh.open (ι := BTreeIndex)
  obtain ⟨rfl, rfl⟩ := EStateM.Result.ok.inj (hopen.symm.trans hopen')
  have hactive := hmade.stored.active
  have hfails : FailsAt ⟨db, w⟩ (putBatch 1) 1 := by
    refine failsAt_putBatch (Nat.zero_le _) ?_ (by rw [hmade.options_eq]) ?_
    · rw [show db.activeFile = _ from hactive, DB.activeAt, DB.firstFile, DB.firstPath,
        hmade.options_eq]
      rfl
    · rw [hmade.outcomes]
      rfl
  obtain ⟨e, q, hrun, -, hindex, hget, -⟩ :=
    hunchanged ⟨⟨db, w⟩, [putBatch 1]⟩ 0 1 (putBatch 1) rfl hfails
  exact ⟨db, w, e, q, hopen, hrun, hindex, hget (.inl (hsettled [] trivial))⟩

/-- A directory whose data file holds a record that has been cut in its value, and
    where the second write to that file fails. -/
def cutWorld : World where
  fs := (∅ : FS).insert ['d'] ((∅ : Dir).insert (.data 0)
    (LogRecord.encode ⟨[107], [97, 98], .normal⟩).dropLast)
  outcomes := Function.update (fun _ => []) (.write ⟨['d'], .data 0⟩) [.ok, .fail]

/-- What is seen of a commit: the active file before it, the outcomes that writing to
    this file will have, whether the commit returns, and what is read of a key before
    and after it. -/
structure Seen where
  activeFile : Option DataFile
  dataFileSize : ℕ
  outcomes : List Outcome
  returns : Bool
  before : Except Exn Bytes
  after : Except Exn Bytes
deriving DecidableEq

/-- Opens a database and commits a batch. -/
def openAndCommit (options : Options) (batch : WriteBatch) (key : Bytes) : Sys Seen := do
  let db : DB BTreeIndex ← DB.open options
  let w ← get
  let r := batch.commit.run ⟨db, w⟩
  return {
    activeFile := db.activeFile
    dataFileSize := db.options.dataFileSize
    outcomes := w.outcomes (.write db.writer.path)
    returns := (value? r).isSome
    before := DB.get db w.fs key
    after := DB.get (finalState r).db (finalState r).world.fs key }

/-- What has been read of the cut record is read otherwise after a commit that has
    failed: its value is filled up with a zero. -/
theorem not_forall_commit_fail :
    ¬∀ (options : Options) (w w' : World) (db : DB BTreeIndex),
      (DB.open options : Sys (DB BTreeIndex)).run w = .ok db w' →
      ∀ (batch : WriteBatch) (n : ℕ), FailsAt ⟨db, w'⟩ batch n →
        ∀ e q, batch.commit.run ⟨db, w'⟩ = .error e q →
          ∀ k, DB.get q.db q.world.fs k = DB.get db w'.fs k := by
  intro h
  have hseen : value? ((openAndCommit ⟨['d'], 100, false⟩ (putBatch 1) [107]).run cutWorld) =
      some ⟨some ⟨⟨['d'], .data 0⟩, 0, 10, .standardFio⟩, 100, [.ok, .fail], false, .ok [97],
        .ok [97, 0]⟩ := by decide +kernel
  obtain ⟨w, hrun⟩ := value?_eq_some.1 hseen
  obtain ⟨db, w', hopen, hrun⟩ := Guarantee.bind_eq_ok hrun
  obtain ⟨_, _, hget, hrun⟩ := Guarantee.bind_eq_ok hrun
  cases hget
  obtain ⟨hactive, hsize, houtcomes, hreturns, hbefore, hafter⟩ :=
    Seen.mk.inj (EStateM.Result.ok.inj hrun).1
  have hwriter : db.writer.path = ⟨['d'], .data 0⟩ := by
    rw [DB.writer, hactive]
    rfl
  have hfails : FailsAt ⟨db, w'⟩ (putBatch 1) 1 :=
    failsAt_putBatch (Nat.le_refl _) hactive hsize (hwriter ▸ houtcomes)
  cases hcommit : (putBatch 1).commit.run ⟨db, w'⟩ with
  | ok a q =>
    rw [hcommit] at hreturns
    cases hreturns
  | error e q =>
    have := h _ _ _ _ hopen _ _ hfails _ _ hcommit [107]
    rw [hcommit] at hafter
    rw [hbefore, show DB.get q.db q.world.fs [107] = _ from hafter] at this
    exact absurd this (by decide)

end Session

end Bitcask
