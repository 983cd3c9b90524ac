import Bitcask.Endings
import Bitcask.FailedCommits
import Bitcask.TornLog

/-!
# Writes that store less than they should

A write that returns fewer bytes than it was given is taken for a success: the write
offset moves by what has been stored, and the index gets the position of the whole
record. What is read of a key afterwards is what lies at the place where its record
has been written (`Session.honest_iff`): its value if all of the record has been
stored. If no write before the end of the request throws, nothing else tells.
-/

namespace Bitcask

open Transaction DataFile DBM Guarantee Proc

variable {ι : Type}

/-! ## Reading what has been stored -/

/-- What a write stores are the first bytes of the data. -/
theorem Outcome.eq_take_of_stored {outcome : Outcome} {data part : Bytes}
    (h : outcome.stored data = some part) : part = data.take part.length := by
  cases outcome with
  | ok =>
    obtain rfl := Option.some.inj h
    exact List.take_length.symm
  | fail => cases h
  | short count =>
    obtain rfl := Option.some.inj h
    rw [List.length_take, ← List.take_eq_take_min]

/-- Behind the end of a file, there is just what is written. -/
theorem drop_overwrite_of_length_le {content data : Bytes} {offset : ℕ}
    (h : content.length ≤ offset) : (overwrite content offset data).drop offset = data := by
  obtain ⟨rest, hrest⟩ := (writtenBehind_overwrite offset data content).drop_eq
  unfold overwrite at hrest ⊢
  split
  · rw [List.drop_of_length_le h, ‹data = []›]
  · rename_i hne
    rw [if_neg hne, List.drop_of_length_le (by omega : content.length ≤ offset + data.length),
      List.append_nil] at hrest
    rw [List.drop_of_length_le (by omega : content.length ≤ offset + data.length), List.append_nil]
    rw [List.drop_left']
    rw [List.length_append, List.length_take, List.length_replicate]
    omega

/-- The value of a record cut by the end of the file is read just if it is empty and
    some of the key is there. -/
theorem readValue_cut_iff {content : Bytes} {offset n : ℕ} {record : LogRecord}
    (hr : record.Readable) (hkey : record.key ≠ []) (htype : record.type ≠ .deleted)
    (h : content.drop offset = record.encode.take n) (hn : n < record.encode.length) :
    readValue content offset = .ok record.value ↔
      record.value = [] ∧ record.headerSize < n := by
  have hseven := record.seven_le_headerSize
  have hkeyPos := List.length_pos_iff.2 hkey
  have hlen := congrArg List.length h
  rw [List.length_drop, List.length_take, Nat.min_eq_left hn.le] at hlen
  rcases Nat.lt_or_ge n record.headerSize with hheader | hheader
  · -- The header is not there as a whole.
    refine iff_of_false (fun hread => ?_) fun hcut => by omega
    have herror : ∃ e, readLogRecord content offset = .error e := by
      rcases Nat.lt_or_ge n 5 with hfive | hfive
      · exact ⟨_, readLogRecord_eof (by omega)⟩
      · rw [LogRecord.encode_eq,
          List.take_append_of_le_length (by rw [LogRecord.length_header]; exact hheader.le)] at h
        obtain ⟨e, he, -⟩ := readLogRecord_cut_header (j := 0) h hheader (by omega)
        exact ⟨e, he⟩
    obtain ⟨e, he⟩ := herror
    rw [readValue, he] at hread
    cases hread
  · rw [LogRecord.length_encode] at hn
    have hsplit : content.drop offset =
        record.header ++ (record.key ++ record.value).take (n - record.headerSize) := by
      rw [h, LogRecord.encode_eq, List.take_append, LogRecord.length_header,
        List.take_of_length_le (by rw [LogRecord.length_header]; exact hheader)]
    have hread := readLogRecord_cut hr hsplit (by omega)
    rcases Nat.eq_or_lt_of_le hheader with heq | hlt
    · rw [if_pos (by omega)] at hread
      rw [readValue, hread]
      refine iff_of_false (fun hok => by cases hok) fun hcut => by omega
    · rw [if_neg (by omega)] at hread
      have hvalue : readValue content offset =
          .ok (record.value.take (n - record.headerSize - record.key.length)) := by
        rw [readValue, hread]
        exact if_neg htype
      rw [hvalue]
      constructor
      · intro hok
        have hall := congrArg List.length (Except.ok.inj hok)
        rw [List.length_take] at hall
        exact ⟨List.length_eq_zero_iff.1 (by omega), hlt⟩
      · rintro ⟨hnil, -⟩
        rw [hnil, List.take_nil]

namespace Proc

variable {p q : Proc ι}

/-- The file written to is there once it has been opened. -/
def HasFile (p : Proc ι) : Prop :=
  ∀ file, p.db.activeFile = some file → p.world.fs.fileExists file.path = true

theorem HasFile.exists (h : p.HasFile) :
    ∃ c, p.started.world.fs.file? p.db.writer.path = some c := by
  cases hactive : p.db.activeFile with
  | some file =>
    have hwriter : p.db.writer = file := by rw [DB.writer, hactive]; rfl
    rw [started_of_some hactive, hwriter]
    exact FS.fileExists_iff.1 (h file hactive)
  | none =>
    have hwriter : p.db.writer.path = p.db.firstPath := by rw [DB.writer, hactive]; rfl
    have hopened := World.opened_file?_self p.world p.db.firstPath
    rw [hwriter, started, hactive]
    exact ⟨_, hopened⟩

/-- What the file written to holds once some records have been written. -/
def contentAfter (p : Proc ι) (records : List LogRecord) : Bytes :=
  p.db.writer.written (storeAll p.outcomes records).1.flatten
    (p.db.writer.content p.started.world.fs)

/-- Where a record is written, given by its number. -/
def offsetOf (p : Proc ι) (records : List LogRecord) (i : ℕ) : ℕ :=
  p.db.writer.writeOff + ((storeAll p.outcomes records).1.take i).flatten.length

/-- What is found where a record has been written: the part of it that is stored, then
    those of the records behind it. -/
theorem drop_contentAfter (p : Proc ι) (records : List LogRecord) (i : ℕ) :
    ∃ rest, (p.contentAfter records).drop (p.offsetOf records i) =
      ((storeAll p.outcomes records).1.drop i).flatten ++ rest := by
  set parts := (storeAll p.outcomes records).1 with hparts
  obtain ⟨rest, hrest⟩ := (p.db.writer.writtenBehind parts.flatten
    (p.db.writer.content p.started.world.fs)).drop_eq
  refine ⟨rest, ?_⟩
  have hsplit : parts.flatten = (parts.take i).flatten ++ (parts.drop i).flatten := by
    rw [← List.flatten_append, List.take_append_drop]
  rw [contentAfter, offsetOf, ← hparts, ← List.drop_drop, hrest]
  rw [hsplit, List.append_assoc, List.drop_left]

end Proc

/-- What is read at a position in the file written to. -/
theorem Proc.Appended.getValueByPosition_eq {p q : Proc ι} {parts : List Bytes} {c : Bytes}
    (h : Appended p.db.writer parts p.started q) (hne : parts ≠ [])
    (hc : p.started.world.fs.file? p.db.writer.path = some c) {pos : LogRecordPos}
    (hfid : pos.fid = p.db.writer.fileId) :
    q.db.getValueByPosition q.world.fs pos =
      readValue (p.db.writer.written parts.flatten c) pos.offset := by
  obtain ⟨file, hfile, hpath⟩ : ∃ file, q.db.fileOf pos.fid = some file ∧
      file.path = p.db.writer.path :=
    ⟨{ p.db.writer with writeOff := p.db.writer.writeOff + parts.flatten.length },
      hfid ▸ DB.fileOf_of_eq h.activeFile, rfl⟩
  have hcontent : file.content q.world.fs = p.db.writer.written parts.flatten c :=
    content_eq_of_file? (by rw [hpath]; exact h.content hne c hc)
  rw [DB.getValueByPosition, hfile, readValue, ← hcontent]

variable [Indexer ι]

/-- What is read of a key that has been written. -/
theorem Written.get_eq {p q : Proc ι} {seqNo : ℕ} {records as bs : List LogRecord}
    {item : LogRecord} (h : Written p seqNo (as ++ item :: bs) (storeAll p.outcomes records).1 q)
    (hfile : p.HasFile) (hitem : item.IsWrite) (hlast : ∀ later ∈ bs, later.key ≠ item.key) :
    q.db.get q.world.fs item.key =
      if item.type = .normal then
        readValue (p.contentAfter records) (p.offsetOf records as.length)
      else .error .keyNotFound := by
  have hlen := h.length_le
  rw [List.length_append, List.length_cons] at hlen
  have hindex := congrFun h.index item.key
  rw [overlay_indexWritesAt (by omega) hlast] at hindex
  rw [DB.get, if_neg hitem.key_ne, hindex]
  rcases hitem.type_eq with htype | htype
  · obtain ⟨c, hc⟩ := hfile.exists
    rw [if_pos htype, htype, contentAfter, content_eq_of_file? hc]
    exact h.appended.getValueByPosition_eq (List.ne_nil_of_length_pos (by omega)) hc rfl
  · rw [htype]
    rfl

/-- A new database has its file, and writes to the start of it. -/
theorem Made.writer_eq {options : Options} {w w' : World} {db : DB ι} (h : Made options w db w') :
    db.activeFile = some db.firstFile ∧ db.writer = db.firstFile ∧ Proc.CanStart ⟨db, w'⟩ ∧
      Proc.HasFile ⟨db, w'⟩ := by
  have hactive : db.activeFile = some db.firstFile := h.stored.active
  refine ⟨hactive, by rw [DB.writer, hactive]; rfl, fun hnone => ?_, fun file hfile => ?_⟩
  · rw [show db.activeFile = none from hnone] at hactive
    cases hactive
  · obtain rfl := Option.some.inj (hactive.symm.trans hfile)
    exact FS.fileExists_iff.2 ⟨_, h.stored.content⟩

namespace Session

/-- A request is honest: what it has acknowledged is read, and if it has not
    acknowledged anything, everything is read as before. -/
def Honest (s : Session ι) (op : Op) : Prop :=
  let x := s.step op
  (∀ k, (∃ w ∈ x.2, w.1 = k) → DB.get x.1.proc.db x.1.proc.world.fs k =
    match overlay x.2 (fun _ => none) k with
    | some v => .ok v
    | none => .error .keyNotFound) ∧
  (x.2 = [] → ∀ k,
    DB.get x.1.proc.db x.1.proc.world.fs k = DB.get s.proc.db s.proc.world.fs k)

/-- Of every key that a request puts last, the value is read where the record has been
    written. -/
def ReadsBack (s : Session ι) (op : Op) : Prop :=
  ∀ as item bs, (s.items op).2 = as ++ item :: bs → item.type = .normal →
    (∀ later ∈ bs, later.key ≠ item.key) →
    readValue (s.proc.contentAfter (s.appends op)) (s.proc.offsetOf (s.appends op) as.length) =
      .ok item.value

variable {s : Session ι} {op : Op}

/-- Only removals are acknowledged of requests that do nothing. -/
theorem honest_of_nothing (hproc : (s.step op).1.proc = s.proc)
    (habsent : ∀ w ∈ (s.step op).2,
      w.1 ≠ [] ∧ w.2 = none ∧ Indexer.get s.proc.db.index w.1 = none) : s.Honest op := by
  refine ⟨fun k ⟨w, hw, hk⟩ => ?_, fun _ k => by rw [hproc]⟩
  obtain ⟨hne, -, hindex⟩ := habsent w hw
  have hnone : overlay (s.step op).2 (fun _ => none) = fun _ => none :=
    overlay_of_eq fun v hv => (habsent v hv).2.1.symm
  rw [hproc, hnone, ← hk, DB.get, if_neg hne, hindex]

/-- If nothing fails, a request is honest if and only if it reads back what it puts. -/
theorem honest_iff_readsBack (hstart : s.proc.CanStart) (hfile : s.proc.HasFile)
    (hfit : NoRotation s.proc.db.options.dataFileSize s.proc.db.writer.writeOff s.proc.outcomes
      (s.appends op))
    (hok : (storeAll s.proc.outcomes (s.appends op)).2 = true) :
    s.Honest op ↔ s.ReadsBack op := by
  rcases step_ends hstart hfit with ⟨-, hproc, hitems, habsent⟩ |
    ⟨-, hne, hacks, hwritten⟩ | ⟨hfail, -⟩
  · refine iff_of_true (honest_of_nothing hproc habsent) fun as item bs hsplit => ?_
    rw [hitems] at hsplit
    simp at hsplit
  · -- What is acknowledged of a key is the last write of it.
    have hack {as bs : List LogRecord} {item : LogRecord} (hsplit : (s.items op).2 = as ++ item :: bs)
        (hlast : ∀ later ∈ bs, later.key ≠ item.key) :
        overlay (s.step op).2 (fun _ => none) item.key = item.toWrite.2 := by
      rw [hacks, hsplit, List.map_append, List.map_cons, overlay_append, overlay_cons,
        overlay_of_not_mem, show item.key = item.toWrite.1 from rfl, Function.update_self]
      intro w hw
      obtain ⟨later, hlater, rfl⟩ := List.mem_map.1 hw
      exact hlast later hlater
    have hget {as bs : List LogRecord} {item : LogRecord} (hsplit : (s.items op).2 = as ++ item :: bs)
        (hlast : ∀ later ∈ bs, later.key ≠ item.key) :
        DB.get (s.step op).1.proc.db (s.step op).1.proc.world.fs item.key =
          if item.type = .normal then
            readValue (s.proc.contentAfter (s.appends op))
              (s.proc.offsetOf (s.appends op) as.length)
          else .error .keyNotFound := by
      have hitem : item ∈ (s.items op).2 := by rw [hsplit]; simp
      exact (hsplit ▸ hwritten).get_eq hfile (s.items_isWrite op item hitem) hlast
    constructor
    · rintro ⟨hreads, -⟩ as item bs hsplit htype hlast
      have hread := hreads item.key ⟨item.toWrite, by rw [hacks, hsplit]; simp, rfl⟩
      rw [hget hsplit hlast, if_pos htype, hack hsplit hlast, LogRecord.toWrite, htype,
        if_neg (by decide)] at hread
      exact hread
    · intro hreads
      refine ⟨?_, fun hnil => ?_⟩
      · rintro k ⟨w, hw, hk⟩
        rw [hacks] at hw
        obtain ⟨item, hitem, rfl⟩ := List.mem_map.1 hw
        obtain ⟨as, last, bs, hsplit, rfl, hlast⟩ := exists_last_write ⟨item, hitem, hk⟩
        have hmem : last ∈ (s.items op).2 := by rw [hsplit]; simp
        rw [hget hsplit hlast, hack hsplit hlast, LogRecord.toWrite]
        rcases (s.items_isWrite op last hmem).type_eq with htype | htype
        · rw [if_pos htype, hreads as last bs hsplit htype hlast, htype]
          rfl
        · rw [htype]
          rfl
      · rw [hacks] at hnil
        exact absurd (List.map_eq_nil_iff.1 hnil) hne
  · rw [hfail] at hok
    cases hok

/-- Nothing has changed that is read after a request whose write has failed, as long as
    what is indexed in the file written to lies in front of its write offset and end. -/
theorem honest_of_fails (hstart : s.proc.CanStart)
    (hfit : NoRotation s.proc.db.options.dataFileSize s.proc.db.writer.writeOff s.proc.outcomes
      (s.appends op))
    (hfails : (storeAll s.proc.outcomes (s.appends op)).2 = false)
    (hsettled : s.proc.Settled ∨ ((storeAll s.proc.outcomes (s.appends op)).1 = [] ∧
      s.proc.db.activeFile ≠ none)) : s.Honest op := by
  rcases step_ends hstart hfit with ⟨-, hproc, -, habsent⟩ | ⟨hok, -⟩ |
    ⟨-, hacks, happended, hindex⟩
  · exact honest_of_nothing hproc habsent
  · rw [hfails] at hok
    cases hok
  · refine ⟨fun k ⟨w, hw, _⟩ => ?_, fun _ k => ?_⟩
    · rw [hacks] at hw
      cases hw
    · rcases hsettled with hsettled | ⟨hnil, hactive⟩
      · exact hsettled.get_eq happended (by rw [hindex.index])
      · obtain ⟨file, hfile⟩ := Option.ne_none_iff_exists'.1 hactive
        rw [hnil, Proc.started_of_some hfile] at happended
        exact happended.get_eq_of_nil hfile hindex k

/-- All of the record is stored of every key that a request puts last, and it is not too
    large to be read. -/
def StoredWhole (s : Session ι) (op : Op) : Prop :=
  ∀ as item bs, (s.items op).2 = as ++ item :: bs → item.type = .normal →
    (∀ later ∈ bs, later.key ≠ item.key) →
    let record := WriteBatch.withSeq (s.items op).1 item
    (storeAll s.proc.outcomes (s.appends op)).1[as.length]? = some record.encode ∧
      record.key.length ≤ maxRecordSize ∧ record.value.length ≤ maxRecordSize

/-- Records that are stored as a whole are read back, whatever has been stored of the
    others. -/
theorem readsBack_of_storedWhole (h : s.StoredWhole op) : s.ReadsBack op := by
  intro as item bs hsplit htype hlast
  obtain ⟨hpart, hkey, hvalue⟩ := h as item bs hsplit htype hlast
  obtain ⟨rest, hrest⟩ := s.proc.drop_contentAfter (s.appends op) as.length
  obtain ⟨hlen, hpart⟩ := List.getElem?_eq_some_iff.1 hpart
  rw [List.drop_eq_getElem_cons hlen, hpart, List.flatten_cons, List.append_assoc] at hrest
  have hread := readLogRecord_encode (LogRecord.readable_of_le hkey hvalue (.inl htype)) hrest
  rw [readValue, hread]
  show (if item.type = .deleted then _ else _) = _
  rw [htype]
  rfl

/-- What is read of a put at the end of a file is its value just if all of the record is
    stored, or the value is empty and the key is stored in part. -/
theorem readsBack_put_iff {key value part : Bytes} (hkey : key ≠ [])
    (hkeySize : key.length ≤ maxRecordSize) (hvalueSize : value.length ≤ maxRecordSize)
    (hio : s.proc.db.writer.ioType = .standardFio)
    (hend : (s.proc.db.writer.content s.proc.started.world.fs).length ≤ s.proc.db.writer.writeOff)
    (hpart : (s.proc.outcomes.headD .ok).stored (LogRecord.encode ⟨key, value, .normal⟩) =
      some part) :
    s.ReadsBack (.put key value) ↔ part.length = (LogRecord.encode ⟨key, value, .normal⟩).length ∨
      (value = [] ∧ LogRecord.headerSize ⟨key, value, .normal⟩ < part.length) := by
  set record : LogRecord := ⟨key, value, .normal⟩ with hrecord
  have happends : s.appends (.put key value) = [record] := if_neg hkey
  have hparts : (storeAll s.proc.outcomes [record]).1 = [part] := by
    rw [storeAll_of_some hpart]
    rfl
  have hreads : s.ReadsBack (.put key value) ↔
      readValue (s.proc.contentAfter [record]) s.proc.db.writer.writeOff = .ok value := by
    rw [ReadsBack, items, happends]
    constructor
    · intro h
      exact h [] record [] rfl rfl (List.forall_mem_nil _)
    · intro h as item bs hsplit _ _
      rcases List.append_eq_singleton_iff.1 hsplit.symm with ⟨rfl, hone⟩ | ⟨-, hone⟩
      · obtain ⟨rfl, rfl⟩ := List.cons.inj hone
        exact h
      · cases hone
  have hdrop : (s.proc.contentAfter [record]).drop s.proc.db.writer.writeOff = part := by
    rw [contentAfter, hparts, List.flatten_singleton, DataFile.written, hio]
    exact drop_overwrite_of_length_le hend
  have htake := Outcome.eq_take_of_stored hpart
  have hr : record.Readable := LogRecord.readable_of_le hkeySize hvalueSize (.inl rfl)
  rw [hreads]
  rcases Nat.lt_or_ge part.length record.encode.length with hlt | hge
  · rw [show value = record.value from rfl,
      readValue_cut_iff hr hkey LogRecordType.normal_ne_deleted (hdrop.trans htake) hlt]
    exact ⟨.inr, fun h => h.resolve_left hlt.ne⟩
  · rw [List.take_of_length_le hge] at htake
    rw [htake, ← List.append_nil record.encode] at hdrop
    refine iff_of_true ?_ (.inl (by rw [htake]))
    rw [readValue, readLogRecord_encode hr hdrop]
    rfl

/-- Without a rotation, a request whose writes all store something is honest if and only
    if it reads back what it puts, which it does if the records of it are stored as a
    whole; at the end of a file, a put does in hardly any other case. A request one of
    whose writes fails is honest if what is indexed in the file written to lies in front
    of its write offset and end, or if nothing has been written. -/
theorem honest_iff {s : Session ι} {op : Op} (hstart : s.proc.CanStart) (hfile : s.proc.HasFile)
    (hfit : NoRotation s.proc.db.options.dataFileSize s.proc.db.writer.writeOff s.proc.outcomes
      (s.appends op)) :
    ((storeAll s.proc.outcomes (s.appends op)).2 = true → (s.Honest op ↔ s.ReadsBack op)) ∧
    ((storeAll s.proc.outcomes (s.appends op)).2 = false →
      s.proc.Settled ∨ ((storeAll s.proc.outcomes (s.appends op)).1 = [] ∧
        s.proc.db.activeFile ≠ none) → s.Honest op) ∧
    (s.StoredWhole op → s.ReadsBack op) ∧
    ∀ key value part, op = .put key value → key ≠ [] → key.length ≤ maxRecordSize →
      value.length ≤ maxRecordSize → s.proc.db.writer.ioType = .standardFio →
      (s.proc.db.writer.content s.proc.started.world.fs).length ≤ s.proc.db.writer.writeOff →
      (s.proc.outcomes.headD .ok).stored (LogRecord.encode ⟨key, value, .normal⟩) = some part →
      (s.ReadsBack op ↔ part.length = (LogRecord.encode ⟨key, value, .normal⟩).length ∨
        (value = [] ∧ LogRecord.headerSize ⟨key, value, .normal⟩ < part.length)) := by
  refine ⟨honest_iff_readsBack hstart hfile hfit, honest_of_fails hstart hfit,
    readsBack_of_storedWhole, ?_⟩
  rintro key value part rfl hkey hkeySize hvalueSize hio hend hpart
  exact readsBack_put_iff hkey hkeySize hvalueSize hio hend hpart

/-- A place where there is nothing yet, and where the first write to the first data file
    will store eight bytes. -/
def shortWorld : World where
  fs := ∅
  outcomes := Function.update (fun _ => []) (.write ⟨['d'], .data 0⟩) [.short 8]

/-- A put of nine bytes is not honest if eight of them are stored. -/
theorem honest_iff_put : ∃ (db : DB BTreeIndex) (w : World),
    (DB.open ⟨['d'], 100, false⟩ : Sys (DB BTreeIndex)).run shortWorld = .ok db w ∧
      ¬Honest ⟨⟨db, w⟩, []⟩ (.put [107] [118]) := by
  have hfresh : Fresh ⟨['d'], 100, false⟩ shortWorld := ⟨rfl, fun _ _ => rfl, fun _ => rfl⟩
  obtain ⟨db, w, hopen, hmade⟩ := hfresh.open (ι := BTreeIndex)
  have hactive : db.activeFile = some ⟨⟨['d'], .data 0⟩, 0, 0, .standardFio⟩ := by
    rw [show db.activeFile = _ from hmade.stored.active, DB.activeAt, DB.firstFile, DB.firstPath,
      hmade.options_eq]
    rfl
  have hwriter : db.writer = ⟨⟨['d'], .data 0⟩, 0, 0, .standardFio⟩ := by
    rw [DB.writer, hactive]
    rfl
  have hcontent : w.fs.file? ⟨['d'], .data 0⟩ = some [] := by
    have := hmade.stored.content
    rw [DB.firstPath, hmade.options_eq] at this
    exact this
  have hout : Proc.outcomes ⟨db, w⟩ = [.short 8] := by
    rw [Proc.outcomes, hwriter, hmade.outcomes]
    rfl
  have happends : appends (ι := BTreeIndex) ⟨⟨db, w⟩, []⟩ (.put [107] [118]) =
      [⟨[107], [118], .normal⟩] := rfl
  have hstart : Proc.CanStart ⟨db, w⟩ := fun hnone => by
    rw [show db.activeFile = none from hnone] at hactive
    cases hactive
  have hfile : Proc.HasFile ⟨db, w⟩ := fun file hfile => by
    obtain rfl := Option.some.inj (hactive.symm.trans hfile)
    exact FS.fileExists_iff.2 ⟨_, hcontent⟩
  have hfit : NoRotation db.options.dataFileSize db.writer.writeOff (Proc.outcomes ⟨db, w⟩)
      [⟨[107], [118], .normal⟩] := by
    rw [hout, hwriter, hmade.options_eq]
    decide +kernel
  set s : Session BTreeIndex := ⟨⟨db, w⟩, []⟩ with hs
  have hfit : NoRotation s.proc.db.options.dataFileSize s.proc.db.writer.writeOff s.proc.outcomes
      (s.appends (.put [107] [118])) := by
    rw [happends]
    exact hfit
  obtain ⟨hhonest, -, -, hput⟩ := honest_iff hstart hfile hfit
  have hstored : (Outcome.short 8).stored (LogRecord.encode ⟨[107], [118], .normal⟩) =
      some ((LogRecord.encode ⟨[107], [118], .normal⟩).take 8) := rfl
  have hlen : (LogRecord.encode ⟨[107], [118], .normal⟩).length = 9 := by decide +kernel
  have hreads := hput [107] [118] _ rfl (by decide) (by decide) (by decide) (by rw [hwriter])
    (by
      rw [hwriter, Proc.started_of_some hactive, content_eq_of_file? hcontent]
      exact Nat.le_refl _)
    (by rw [hout]; exact hstored)
  refine ⟨db, w, hopen, fun h => ?_⟩
  rw [hhonest (by rw [happends, hout]; decide +kernel), hreads, List.length_take, hlen] at h
  simp at h

/-- A put returns though its write has stored one byte less, and what it has put cannot
    be read. -/
theorem not_forall_honest :
    ¬∀ (options : Options) (w w' : World) (db : DB BTreeIndex),
      (DB.open options : Sys (DB BTreeIndex)).run w = .ok db w' →
      ∀ (s : Session BTreeIndex) (op : Op), s.proc = ⟨db, w'⟩ → s.proc.HasFile →
        ((∃ key value, op = .put key value) ∨ ∃ i, op = .commit i) →
        NoRotation db.options.dataFileSize db.writer.writeOff s.proc.outcomes (s.appends op) →
        s.Honest op := by
  intro h
  have hseen : (match (DB.open ⟨['d'], 100, false⟩ : Sys (DB BTreeIndex)).run shortWorld with
      | .ok db w' =>
        let s : Session BTreeIndex := ⟨⟨db, w'⟩, []⟩
        let x := s.step (.put [107] [118])
        decide (db.activeFile = some ⟨⟨['d'], .data 0⟩, 0, 0, .standardFio⟩ ∧
          w'.fs.fileExists ⟨['d'], .data 0⟩ = true ∧
          NoRotation db.options.dataFileSize db.writer.writeOff s.proc.outcomes
            (s.appends (.put [107] [118])) ∧
          x.2 = [([107], some [118])] ∧
          DB.get x.1.proc.db x.1.proc.world.fs [107] = .ok [])
      | .error _ _ => false) = true := by decide +kernel
  have hfresh : Fresh ⟨['d'], 100, false⟩ shortWorld := ⟨rfl, fun _ _ => rfl, fun _ => rfl⟩
  obtain ⟨db, w', hopen, -⟩ := hfresh.open (ι := BTreeIndex)
  rw [hopen] at hseen
  obtain ⟨hactive, hexists, hfit, hacks, hget⟩ := of_decide_eq_true hseen
  have hfile : Proc.HasFile ⟨db, w'⟩ := fun file hfile => by
    obtain rfl := Option.some.inj (hactive.symm.trans hfile)
    exact hexists
  have hread := (h _ _ _ _ hopen ⟨⟨db, w'⟩, []⟩ _ rfl hfile (.inl ⟨_, _, rfl⟩) hfit).1 [107]
    ⟨([107], some [118]), by rw [hacks]; exact List.mem_singleton_self _, rfl⟩
  rw [hget, hacks] at hread
  exact absurd hread (by decide)

end Session

end Bitcask
