import Bitcask.Unrotated

/-!
# What a merge leaves

The copies of a merge put different keys (`Unrotated.putOnce`). A key that has a value before
a merge has the same value afterwards if it is read back as it is stored plainly, and its
record is come across when the data file is read; otherwise it has none
(`Unrotated.get_merged_eq_ok_iff`). No key gets a value that it has not had
(`DB.merge_resurrectsNothing`), and all values are kept just under that condition
(`DB.merge_losesNothing_iff`).
-/

namespace Bitcask

open Framing FuelLoop Transaction DataFile DBM Sys Guarantee

/-! ## Reading copies -/

section PutOnce

variable {records : List LogRecord}

theorem map_snd_offsets (records : List LogRecord) : (offsets records).map Prod.snd = records :=
  map_snd_layout 0 records

/-- Records that put different keys. -/
structure PutOnce (records : List LogRecord) : Prop where
  readable : ∀ r ∈ records, r.Readable
  type_eq : ∀ r ∈ records, r.type = .normal
  nodup : (records.map LogRecord.key).Nodup
  key_ne : ∀ r ∈ records, r.key ≠ []

/-- What a record that puts its key does: it puts it if its stored key stands for itself. -/
theorem entryOf_eq_plain_iff {record : LogRecord} {pos : LogRecordPos} {key : Bytes}
    {v : Option LogRecordPos} (htype : record.type = .normal) : entryOf record pos = .plain key v ↔
      record.key = key ∧ parseLogRecordKey key = (key, nonTransactionSeqNo) ∧ v = some pos := by
  have hput : written? record.type pos = some pos := by rw [written?, htype]; rfl
  rw [entryOf, hput]
  by_cases hseqNo : (parseLogRecordKey record.key).2 = nonTransactionSeqNo
  · have hkey := fst_parseLogRecordKey hseqNo
    simp only [hseqNo, if_true, hkey, Entry.plain.injEq]
    constructor
    · rintro ⟨rfl, rfl⟩
      exact ⟨rfl, Prod.ext hkey hseqNo, rfl⟩
    · rintro ⟨rfl, -, rfl⟩
      exact ⟨rfl, rfl⟩
  · have hnormal : record.type ≠ .txnFinished := by rw [htype]; decide
    simp only [hseqNo, hnormal, if_false]
    refine iff_of_false (fun h => by cases h) ?_
    rintro ⟨rfl, hparse, -⟩
    exact hseqNo (congrArg Prod.snd hparse)

namespace PutOnce

theorem positionsIn_iff (h : PutOnce records) {key : Bytes} {pos : LogRecordPos} :
    positionsIn [(0, encodeAll records)] key = some pos ↔
      parseLogRecordKey key = (key, nonTransactionSeqNo) ∧
        ∃ x ∈ offsets records, x.2.key = key ∧ pos = posOf 0 x := by
  have htype {x : ℕ × LogRecord} (hx : x ∈ offsets records) : x.2.type = .normal :=
    h.type_eq _ (mem_of_mem_layout hx)
  have hentries : positionsIn [(0, encodeAll records)] =
      (replay (fileEntries 0 records)).value := by
    rw [positionsIn, List.flatMap_singleton, readEntries_encodeAll 0 h.readable]
  rw [hentries, replay_value_iff_of_plain]
  · constructor
    · intro hmem
      obtain ⟨x, hx, heq⟩ := List.mem_map.1 hmem
      obtain ⟨hkey, hparse, hpos⟩ := (entryOf_eq_plain_iff (htype hx)).1 heq
      exact ⟨hparse, x, hx, hkey, Option.some.inj hpos⟩
    · rintro ⟨hparse, x, hx, hkey, rfl⟩
      exact List.mem_map.2 ⟨x, hx, (entryOf_eq_plain_iff (htype hx)).2 ⟨hkey, hparse, rfl⟩⟩
  · intro t hmem
    obtain ⟨x, hx, heq⟩ := List.mem_map.1 hmem
    have hnormal : x.2.type ≠ .txnFinished := by rw [htype hx]; decide
    simp only [entryOf, hnormal, if_false] at heq
    split at heq <;> cases heq
  · intro i j v v' hi hj
    -- Two entries for one key are those of one record.
    have hrecord {i : ℕ} {v : Option LogRecordPos}
        (hi : (fileEntries 0 records)[i]? = some (.plain key v)) :
        (records.map LogRecord.key)[i]? = some key := by
      rw [fileEntries, List.getElem?_map, Option.map_eq_some_iff] at hi
      obtain ⟨x, hx, heq⟩ := hi
      obtain ⟨hkey, -⟩ := (entryOf_eq_plain_iff (htype (List.mem_of_getElem? hx))).1 heq
      rw [← map_snd_offsets records, List.map_map, List.getElem?_map, hx,
        Option.map_some, Function.comp_apply, hkey]
    have hi := hrecord hi
    exact (List.getElem?_inj (List.getElem?_eq_some_iff.1 hi).1 h.nodup).1
      (hi.trans (hrecord hj).symm)

/-- A key that stands for itself has the value of its record. -/
theorem valueIn_of_mem (h : PutOnce records) {record : LogRecord} (hmem : record ∈ records)
    (hparse : parseLogRecordKey record.key = (record.key, nonTransactionSeqNo)) :
    valueIn [(0, encodeAll records)] record.key = .ok record.value := by
  rw [← map_snd_offsets records] at hmem
  obtain ⟨x, hx, rfl⟩ := List.mem_map.1 hmem
  have hpos := h.positionsIn_iff.2 ⟨hparse, x, hx, rfl, rfl⟩
  have hr := mem_of_mem_layout hx
  obtain ⟨rest, hdrop⟩ := drop_encodeAll hx []
  rw [List.append_nil] at hdrop
  have hread : readValue (encodeAll records) x.1 = .ok x.2.value := by
    simp only [readValue, readLogRecord_encode (h.readable _ hr) hdrop, bind, Except.bind,
      h.type_eq _ hr, if_neg LogRecordType.normal_ne_deleted]
  have hlookup : List.lookup (posOf 0 x).fid [(0, encodeAll records)] =
      some (encodeAll records) := rfl
  rw [valueIn, if_neg (h.key_ne _ hr), hpos]
  simp only [hlookup]
  exact hread

/-- No other key has a value. -/
theorem valueIn_of_not_mem (h : PutOnce records) {key : Bytes} (hkey : key ≠ [])
    (hnot : parseLogRecordKey key = (key, nonTransactionSeqNo) → ∀ r ∈ records, r.key ≠ key) :
    valueIn [(0, encodeAll records)] key = .error .keyNotFound := by
  have hnone : positionsIn [(0, encodeAll records)] key = none := by
    refine Option.eq_none_iff_forall_ne_some.2 fun pos hpos => ?_
    obtain ⟨hparse, x, hx, hxkey, -⟩ := h.positionsIn_iff.1 hpos
    exact hnot hparse x.2 (mem_of_mem_layout hx) hxkey
  rw [valueIn, if_neg hkey, hnone]

end PutOnce

end PutOnce

/-! ## Merging the live records -/

/-- The records a merge copies from the first data file. -/
def DB.merged {ι : Type} [Indexer ι] (index : ι) (records : List LogRecord) : List LogRecord :=
  copies (validRecords index) 0 (readsOf (encodeAll records))

namespace Unrotated

variable {ι : Type} [Indexer ι] {options : Options} {p : Proc ι} {records : List LogRecord}

theorem first (h : Unrotated options p records) :
    p.world.fs.file? p.db.firstPath = some (encodeAll records) := by
  simpa using h.stored.content

/-- The value of a key is read at its position. -/
theorem get_eq (h : Unrotated options p records) {key : Bytes} {pos : LogRecordPos}
    (hpos : Indexer.get p.db.index key = some pos) :
    p.db.get p.world.fs key = readValue (encodeAll records) pos.offset := by
  obtain ⟨hkey, x, hx, rfl, -⟩ := h.putAt key pos hpos
  have hfile : p.db.fileOf (posOf 0 x).fid = some (p.db.activeAt (encodeAll records).length) := by
    rw [DB.fileOf, h.stored.active]
    rfl
  have hcontent : (p.db.activeAt (encodeAll records).length).content p.world.fs =
      encodeAll records := content_eq_of_file? h.first
  rw [DB.get, if_neg hkey, hpos]
  simp only
  rw [DB.getValueByPosition, hfile]
  simp only [hcontent]
  rfl

/-- What a merge copies puts different keys, which the index has. -/
theorem putOnce (h : Unrotated options p records) :
    PutOnce (DB.merged p.db.index records) := by
  have hcopy {r : LogRecord} (hr : r ∈ DB.merged p.db.index records) :
      r.Readable ∧ r.type = .normal ∧ r.key ≠ [] := by
    obtain ⟨x, hx, hvalid, rfl⟩ := DB.mem_copies_iff.1 hr
    obtain ⟨-, pos, hpos, -, hoffset⟩ := DB.isValid_iff.1 hvalid
    obtain ⟨hkey, y, hy, rfl, htype, -⟩ := h.putAt _ pos hpos
    have hread := readLogRecord_of_mem_readsFrom hx
    obtain ⟨rest, hdrop⟩ := drop_encodeAll hy []
    rw [List.append_nil, show y.1 = x.1 from hoffset] at hdrop
    refine ⟨DB.readable_copyOf hread hkey, ?_, ?_⟩
    · rw [DB.copyOf_eq, ← htype]
      exact type_of_readLogRecord hread hdrop
    · rw [DB.copyOf_eq]
      exact hkey
  refine ⟨fun r hr => (hcopy hr).1, fun r hr => (hcopy hr).2.1, ?_, fun r hr => (hcopy hr).2.2⟩
  rw [DB.merged, DB.copies, List.map_map, List.Nodup, List.pairwise_map]
  refine ((pairwise_readsFrom _ _ _).filter _).imp_of_mem fun {x y} hx hy hlt heq => ?_
  -- The index has one position for a key.
  obtain ⟨-, pos, hpos, -, hoffset⟩ := DB.isValid_iff.1 (List.mem_filter.1 hx).2
  obtain ⟨-, pos', hpos', -, hoffset'⟩ := DB.isValid_iff.1 (List.mem_filter.1 hy).2
  rw [Function.comp_apply, Function.comp_apply, DB.copyOf_eq, DB.copyOf_eq] at heq
  dsimp only at heq
  rw [heq, hpos'] at hpos
  obtain rfl := Option.some.inj hpos
  omega

/-- A copy has the value of its key. -/
theorem get_of_mem_copies (h : Unrotated options p records) {r : LogRecord}
    (hr : r ∈ DB.merged p.db.index records) :
    p.db.get p.world.fs r.key = .ok r.value := by
  obtain ⟨x, hx, hvalid, rfl⟩ := DB.mem_copies_iff.1 hr
  obtain ⟨htype, pos, hpos, -, hoffset⟩ := DB.isValid_iff.1 hvalid
  rw [DB.copyOf_eq, h.get_eq hpos, hoffset, readValue, readLogRecord_of_mem_readsFrom hx]
  simp only [bind, Except.bind, if_neg htype]

end Unrotated

namespace DB

variable {ι : Type} [Indexer ι] {options : Options} {p q : Proc ι} {records : List LogRecord}

theorem Merged.get_eq (h : Merged options records q) (key : Bytes) :
    q.db.get q.world.fs key = valueIn [(0, encodeAll records)] key := by
  have hcontains := h.loaded.contains (List.nodup_singleton _) h.index
  rw [hcontains.get_eq, valueIn_loadingContent]

end DB

namespace Unrotated

variable {ι : Type} [Indexer ι] {options : Options} {p q : Proc ι} {records : List LogRecord}

/-- An empty database has no keys. -/
theorem get_of_nil (h : Unrotated options p []) (key : Bytes) :
    p.db.get p.world.fs key = valueIn [(0, encodeAll [])] key := by
  have hnone : Indexer.get p.db.index key = none := by
    refine Option.eq_none_iff_forall_ne_some.2 fun pos hpos => ?_
    obtain ⟨-, x, hx, -⟩ := h.putAt key pos hpos
    cases hx
  by_cases hkey : key = []
  · rw [DB.get, valueIn, if_pos hkey, if_pos hkey]
  · have hempty : PutOnce [] :=
      ⟨List.forall_mem_nil _, List.forall_mem_nil _, .nil, List.forall_mem_nil _⟩
    rw [hempty.valueIn_of_not_mem hkey fun _ => List.forall_mem_nil _, DB.get, if_neg hkey, hnone]

/-- A merge does nothing if there are no data, is refused, or replaces the records. -/
theorem merge_cases (h : Unrotated options p records)
    (hfs : p.world.fs.Hierarchical (DB.getMergePath options.dirPath)) (shouldMerge : Bool)
    (availableSize : ℕ) :
    (DB.merge shouldMerge availableSize : DBM ι Unit).run p = .ok () p ∨
      (∃ e, (DB.merge shouldMerge availableSize : DBM ι Unit).run p = .error e p ∧
        (e = .mergeRatioUnreached ∨ e = .noEnoughSpaceForMerge)) ∨
      ∃ q, (DB.merge shouldMerge availableSize : DBM ι Unit).run p =
          .ok () { q with db := { q.db with isMerging := false } } ∧
        DB.Merged options (DB.merged p.db.index records) q ∧
        DB.Leaves options (DB.merged p.db.index records) { p.db with isMerging := true } p.world q := by
  set merging : Proc ι := { p with db := { p.db with isMerging := true } } with hmerging
  have hback : { merging with db := { merging.db with isMerging := false } } = p := by
    rw [hmerging, ← h.isMerging_eq]
  rw [DB.merge, bind_ok (proc_run p)]
  dsimp only
  split
  · exact .inl rfl
  · rw [if_neg (by simp [h.isMerging_eq]), bind_ok (modifyDB_run _ p)]
    split
    · exact .inr (.inl ⟨_, congrArg (EStateM.Result.error _) hback, .inl rfl⟩)
    · split
      · exact .inr (.inl ⟨_, congrArg (EStateM.Result.error _) hback, .inr rfl⟩)
      · have hmergeable : DB.Mergeable options merging := h.mergeable.of_db rfl rfl rfl
        have hpath : p.db.firstPath = getDataFileName options.dirPath 0 := by
          rw [DB.firstPath, h.mergeable.options_eq]
          rfl
        obtain ⟨q, hrun, hmerged, hleaves⟩ := DB.mergeFiles_run hmergeable hfs
          (hpath ▸ h.first) ((DB.length_copies_le _ _ _).trans h.length_le)
        exact .inr (.inr ⟨q, bind_ok (tryCatch_ok hrun), hmerged, hleaves⟩)

/-- After a merge the database contains the records copied, and its data file holds them. -/
theorem merge_run (h : Unrotated options p records)
    (hfs : p.world.fs.Hierarchical (DB.getMergePath options.dirPath)) {shouldMerge : Bool}
    {availableSize : ℕ}
    (hmerge : (DB.merge shouldMerge availableSize : DBM ι Unit).run p = .ok () q) :
    (∀ key, q.db.get q.world.fs key =
      valueIn [(0, encodeAll (DB.merged p.db.index records))] key) ∧
      ∃ content, q.world.fs.file? (getDataFileName options.dirPath 0) = some content ∧
        readsOf content = readsOf (encodeAll (DB.merged p.db.index records)) := by
  have hpath : p.db.firstPath = getDataFileName options.dirPath 0 := by
    rw [DB.firstPath, h.mergeable.options_eq]
    rfl
  rcases DB.merge_eq_ok hmerge with ⟨rfl, hempty⟩ | ⟨-, q, hfiles, rfl⟩
  · -- There is nothing to be merged.
    have hlength := length_le_length_encodeAll records
    rw [show (encodeAll records).length = 0 from hempty _ h.stored.active] at hlength
    obtain rfl := List.eq_nil_of_length_eq_zero (Nat.le_zero.1 hlength)
    refine ⟨h.get_of_nil, [], ?_, rfl⟩
    rw [← hpath, h.first]
    rfl
  · set merging : Proc ι := { p with db := { p.db with isMerging := true } } with hmerging
    have hmergeable : DB.Mergeable options merging := h.mergeable.of_db rfl rfl rfl
    obtain ⟨q', hrun, hmerged, -⟩ := DB.mergeFiles_run hmergeable hfs
      (hpath ▸ h.first) ((DB.length_copies_le _ _ _).trans h.length_le)
    obtain ⟨-, rfl⟩ := EStateM.Result.ok.inj (hfiles.symm.trans hrun)
    refine ⟨fun key => ?_, _, hmerged.loaded.content _ List.mem_cons_self,
      readsOf_loadingContent _ _⟩
    exact hmerged.get_eq key

end Unrotated

/-! ## What is kept -/

/-- Reading the first data file from its start, one comes across a record at the position of
    a key, and it is stored for that key. -/
def Proc.Scans {ι : Type} [Indexer ι] (p : Proc ι) (key : Bytes) : Prop :=
  ∃ content pos, p.world.fs.file? p.db.firstPath = some content ∧
    Indexer.get p.db.index key = some pos ∧
    ∃ x ∈ readsOf content, x.1 = pos.offset ∧ (parseLogRecordKey x.2.record.key).1 = key

namespace Unrotated

variable {ι : Type} [Indexer ι] {options : Options} {p q : Proc ι} {records : List LogRecord}

/-- After a merge a key has the value that it had, or none. -/
theorem get_merged (h : Unrotated options p records) (key : Bytes) :
    valueIn [(0, encodeAll (DB.merged p.db.index records))] key = p.db.get p.world.fs key ∨
      valueIn [(0, encodeAll (DB.merged p.db.index records))] key = .error .keyNotFound := by
  by_cases hkey : key = []
  · exact .inl (by rw [DB.get, valueIn, if_pos hkey, if_pos hkey])
  · by_cases hmem : parseLogRecordKey key = (key, nonTransactionSeqNo) ∧
      ∃ r ∈ DB.merged p.db.index records, r.key = key
    · obtain ⟨hparse, r, hr, rfl⟩ := hmem
      exact .inl ((h.putOnce.valueIn_of_mem hr hparse).trans (h.get_of_mem_copies hr).symm)
    · exact .inr (h.putOnce.valueIn_of_not_mem hkey fun hparse r hr hrkey =>
        hmem ⟨hparse, r, hr, hrkey⟩)

/-- A key that has a value keeps it in a merge if its key is read back as it is stored
    plainly, and its record is come across. -/
theorem get_merged_eq_ok_iff (h : Unrotated options p records) {key value : Bytes}
    (hget : p.db.get p.world.fs key = .ok value) :
    valueIn [(0, encodeAll (DB.merged p.db.index records))] key = .ok value ↔
      parseLogRecordKey key = (key, nonTransactionSeqNo) ∧ p.Scans key := by
  have hkey : key ≠ [] := by
    rintro rfl
    cases hget
  constructor
  · intro hvalue
    by_contra hnot
    have hnone := h.putOnce.valueIn_of_not_mem hkey fun hparse r hr hrkey => hnot ⟨hparse, ?_⟩
    · rw [hnone] at hvalue
      cases hvalue
    · obtain ⟨x, hx, hvalid, rfl⟩ := DB.mem_copies_iff.1 hr
      obtain ⟨-, pos, hpos, -, hoffset⟩ := DB.isValid_iff.1 hvalid
      rw [DB.copyOf_eq] at hrkey
      dsimp only at hrkey
      rw [hrkey] at hpos
      exact ⟨_, pos, h.first, hpos, x, hx, hoffset.symm, hrkey⟩
  · rintro ⟨hparse, content, pos, hcontent, hpos, x, hx, hoffset, hxkey⟩
    obtain rfl := Option.some.inj (h.first.symm.trans hcontent)
    have htype : x.2.record.type ≠ .deleted := by
      intro htype
      rw [h.get_eq hpos, ← hoffset, readValue, readLogRecord_of_mem_readsFrom hx] at hget
      simp only [bind, Except.bind, if_pos htype] at hget
      cases hget
    obtain ⟨-, y, hy, rfl, -⟩ := h.putAt key pos hpos
    have hmem : DB.copyOf x.2.record ∈ DB.merged p.db.index records := by
      refine DB.mem_copies_iff.2 ⟨x, hx, DB.isValid_iff.2 ⟨htype, _, hxkey ▸ hpos, rfl, ?_⟩, rfl⟩
      exact hoffset.symm
    have hcopy : (DB.copyOf x.2.record).key = key := by rw [DB.copyOf_eq, ← hxkey]
    have hvalue := h.putOnce.valueIn_of_mem hmem (hcopy ▸ hparse)
    have hsame := h.get_of_mem_copies hmem
    rw [hcopy] at hvalue hsame
    rw [hvalue, ← hsame, hget]

/-- The records of keys that can be read back are come across if all records can be read. -/
theorem scans (h : Unrotated options p records) (hreadable : ∀ r ∈ records, r.Readable)
    {key : Bytes} (hparse : parseLogRecordKey key = (key, nonTransactionSeqNo)) {pos : LogRecordPos}
    (hpos : Indexer.get p.db.index key = some pos) : p.Scans key := by
  obtain ⟨-, x, hx, rfl, -, seqNo, hseqNo, hstored⟩ := h.putAt key pos hpos
  refine ⟨_, _, h.first, hpos, (x.1, ⟨x.2, x.2.encode.length⟩), ?_, rfl, ?_⟩
  · rw [readsOf_encodeAll hreadable]
    exact List.mem_map.2 ⟨x, hx, rfl⟩
  · dsimp only
    rw [hstored]
    by_cases h0 : seqNo = nonTransactionSeqNo
    · rw [h0, logRecordKeyWithSeq, if_pos rfl, hparse]
    · rw [parseLogRecordKey_withSeq h0 hseqNo]

end Unrotated

namespace DB

variable {ι : Type} [Indexer ι]

/-- The states before and after a merge of a new database of which some requests have been
    made, if the merge returns and no file has been rotated. -/
def mergedAfter (ops : List Op) : Option (Proc BTreeIndex × Proc BTreeIndex) :=
  match (DB.open ⟨['d'], 100, false⟩ : Sys (DB BTreeIndex)).run { fs := ∅ } with
  | .ok db w =>
    if Machine.AllSteps Session.step (Session.FitsFile false) ⟨⟨db, w⟩, []⟩ ops then
      let p := (Session.run ⟨⟨db, w⟩, []⟩ ops).1.proc
      match (merge true minAvailableSize : DBM BTreeIndex Unit).run p with
      | .ok _ q => some (p, q)
      | .error _ _ => none
    else none
  | .error _ _ => none

theorem mergedAfter_spec {ops : List Op} {p q : Proc BTreeIndex}
    (h : mergedAfter ops = some (p, q)) :
    ∃ db w', (DB.open ⟨['d'], 100, false⟩ : Sys (DB BTreeIndex)).run { fs := ∅ } = .ok db w' ∧
      Machine.AllSteps Session.step (Session.FitsFile false) ⟨⟨db, w'⟩, []⟩ ops ∧
      p = (Session.run ⟨⟨db, w'⟩, []⟩ ops).1.proc ∧
      (merge true minAvailableSize : DBM BTreeIndex Unit).run p = .ok () q := by
  unfold mergedAfter at h
  split at h
  · rename_i db w' hopen
    split at h
    · rename_i hops
      dsimp only at h
      split at h
      · rename_i hmerge
        obtain ⟨rfl, rfl⟩ := Prod.mk.inj (Option.some.inj h)
        exact ⟨db, w', hopen, hops, rfl, hmerge⟩
      · cases h
    · cases h
  · cases h

theorem isSome_mergedAfter_replaceAndRemove :
    (mergedAfter Session.replaceAndRemove).isSome = true := by
  decide +kernel

/-- Whatever requests have been made of a new database, as long as no file has been rotated:
    a merge that returns lets every key have the value it had, or none, and leaves at most one
    record of a key in the data file, which holds its value. -/
theorem merge_resurrectsNothing {options : Options} {w w' : World} {db : DB ι}
    (hfresh : Fresh options w) (hfs : w.fs.Hierarchical (getMergePath options.dirPath))
    (hio : ∀ c, w.outcomes c = []) (hopen : (DB.open options : Sys (DB ι)).run w = .ok db w')
    {ops : List Op}
    (hops : Machine.AllSteps Session.step (Session.FitsFile false) ⟨⟨db, w'⟩, []⟩ ops)
    {shouldMerge : Bool} {availableSize : ℕ} {q : Proc ι}
    (hmerge : (merge shouldMerge availableSize : DBM ι Unit).run
      (Session.run ⟨⟨db, w'⟩, []⟩ ops).1.proc = .ok () q) :
    let p := (Session.run ⟨⟨db, w'⟩, []⟩ ops).1.proc
    (∀ key, q.db.get q.world.fs key = p.db.get p.world.fs key ∨
      q.db.get q.world.fs key = .error .keyNotFound) ∧
      ∃ content, q.world.fs.file? (getDataFileName options.dirPath 0) = some content ∧
        ((readsOf content).map fun x => x.2.record.key).Nodup ∧
        ∀ x ∈ readsOf content, p.db.get p.world.fs x.2.record.key = .ok x.2.record.value := by
  intro p
  obtain ⟨⟨records, h, -⟩, hlookup⟩ := hfresh.run_unrotated hio hopen False
    (hops.mono fun _ _ hfits => ⟨hfits, False.elim⟩)
  have hfs' : p.world.fs.Hierarchical (getMergePath options.dirPath) :=
    hfs.congr fun sub hsub => hlookup sub fun heq => by
      rw [heq, not_below_getMergePath] at hsub
      cases hsub
  obtain ⟨hget, content, hcontent, hreads⟩ := h.merge_run hfs' hmerge
  refine ⟨fun key => hget key ▸ h.get_merged key, content, hcontent, ?_⟩
  rw [hreads, readsOf_encodeAll h.putOnce.readable, List.map_map]
  constructor
  · have hkeys := h.putOnce.nodup
    rw [← map_snd_offsets (merged p.db.index records), List.map_map] at hkeys
    exact hkeys
  · intro x hx
    obtain ⟨y, hy, rfl⟩ := List.mem_map.1 hx
    exact h.get_of_mem_copies (mem_of_mem_layout hy)

/-- A key put and another one removed by a batch are so after a merge. -/
theorem merge_resurrectsNothing_replaceAndRemove : ∃ p q,
    mergedAfter Session.replaceAndRemove = some (p, q) ∧
      ∀ key, q.db.get q.world.fs key = p.db.get p.world.fs key ∨
        q.db.get q.world.fs key = .error .keyNotFound := by
  obtain ⟨⟨p, q⟩, hpq⟩ := Option.isSome_iff_exists.1 isSome_mergedAfter_replaceAndRemove
  obtain ⟨db, w', hopen, hops, rfl, hmerge⟩ := mergedAfter_spec hpq
  exact ⟨_, q, hpq, (merge_resurrectsNothing (Session.fresh_empty (by decide) false)
    (fun _ _ _ => rfl) (fun _ => rfl) hopen hops hmerge).1⟩

/-- Whatever requests have been made of a new database, as long as no file has been rotated:
    a merge that returns keeps all values if and only if every key that has one is read back as
    it is stored plainly, and its record is come across when the file is read. It is if no
    stored key or value exceeds 64 MiB. -/
theorem merge_losesNothing_iff {options : Options} {w w' : World} {db : DB ι}
    (hfresh : Fresh options w) (hfs : w.fs.Hierarchical (getMergePath options.dirPath))
    (hio : ∀ c, w.outcomes c = []) (hopen : (DB.open options : Sys (DB ι)).run w = .ok db w')
    {ops : List Op}
    (hops : Machine.AllSteps Session.step (Session.FitsFile false) ⟨⟨db, w'⟩, []⟩ ops)
    {shouldMerge : Bool} {availableSize : ℕ} {q : Proc ι}
    (hmerge : (merge shouldMerge availableSize : DBM ι Unit).run
      (Session.run ⟨⟨db, w'⟩, []⟩ ops).1.proc = .ok () q) :
    let p := (Session.run ⟨⟨db, w'⟩, []⟩ ops).1.proc
    let Plain (key : Bytes) := key.length < 8 ∨ ∀ b ∈ key.drop (key.length - 8), b = 0
    let LosesNothing := ∀ key value, p.db.get p.world.fs key = .ok value →
      q.db.get q.world.fs key = .ok value
    (LosesNothing ↔ ∀ key value, p.db.get p.world.fs key = .ok value → Plain key ∧ p.Scans key) ∧
      (Machine.AllSteps Session.step Session.SmallEnough ⟨⟨db, w'⟩, []⟩ ops →
        (LosesNothing ↔ ∀ key value, p.db.get p.world.fs key = .ok value → Plain key)) := by
  intro p Plain LosesNothing
  obtain ⟨⟨records, h, -⟩, hlookup⟩ := hfresh.run_unrotated hio hopen False
    (hops.mono fun _ _ hfits => ⟨hfits, False.elim⟩)
  have hfs' : p.world.fs.Hierarchical (getMergePath options.dirPath) :=
    hfs.congr fun sub hsub => hlookup sub fun heq => by
      rw [heq, not_below_getMergePath] at hsub
      cases hsub
  obtain ⟨hget, -⟩ := h.merge_run hfs' hmerge
  have hiff : LosesNothing ↔
      ∀ key value, p.db.get p.world.fs key = .ok value → Plain key ∧ p.Scans key := by
    refine forall_congr' fun key => forall_congr' fun value => imp_congr_right fun hvalue => ?_
    rw [hget, h.get_merged_eq_ok_iff hvalue, parseLogRecordKey_plain_iff]
  refine ⟨hiff, fun hsmall => hiff.trans ?_⟩
  obtain ⟨⟨records', h', hreadable⟩, -⟩ := hfresh.run_unrotated hio hopen True
    ((hops.and hsmall).mono fun _ _ hC => ⟨hC.1, fun _ => hC.2⟩)
  refine forall_congr' fun key => forall_congr' fun value => imp_congr_right fun hvalue => ?_
  refine ⟨And.left, fun hplain => ⟨hplain, ?_⟩⟩
  rw [DB.get] at hvalue
  split at hvalue
  · cases hvalue
  · split at hvalue
    · cases hvalue
    · rename_i pos hpos
      exact h'.scans (hreadable trivial) ((parseLogRecordKey_plain_iff key).2 hplain) hpos


/-- Short keys keep their values in a merge. -/
theorem merge_losesNothing_replaceAndRemove : ∃ p q,
    mergedAfter Session.replaceAndRemove = some (p, q) ∧
      ((∀ key value, p.db.get p.world.fs key = .ok value → q.db.get q.world.fs key = .ok value) ↔
        ∀ key value, p.db.get p.world.fs key = .ok value →
          (key.length < 8 ∨ ∀ b ∈ key.drop (key.length - 8), b = 0) ∧ p.Scans key) := by
  obtain ⟨⟨p, q⟩, hpq⟩ := Option.isSome_iff_exists.1 isSome_mergedAfter_replaceAndRemove
  obtain ⟨db, w', hopen, hops, rfl, hmerge⟩ := mergedAfter_spec hpq
  exact ⟨_, q, hpq, (merge_losesNothing_iff (Session.fresh_empty (by decide) false)
    (fun _ _ _ => rfl) (fun _ => rfl) hopen hops hmerge).1⟩

/-- A key of eight bytes that is put is lost in a merge. -/
theorem not_forall_merge_losesNothing :
    ¬∀ (options : Options) (w : World), Fresh options w →
      w.fs.Hierarchical (getMergePath options.dirPath) → (∀ c, w.outcomes c = []) →
      ∀ (db : DB BTreeIndex) (w' : World),
        (DB.open options : Sys (DB BTreeIndex)).run w = .ok db w' →
        ∀ ops : List Op, (∀ op ∈ ops, Session.WithinLimits op) →
          Machine.AllSteps Session.step (Session.FitsFile false) ⟨⟨db, w'⟩, []⟩ ops →
          ∀ (shouldMerge : Bool) (availableSize : ℕ) (q : Proc BTreeIndex),
            (merge shouldMerge availableSize : DBM BTreeIndex Unit).run
              (Session.run ⟨⟨db, w'⟩, []⟩ ops).1.proc = .ok () q →
            let p := (Session.run ⟨⟨db, w'⟩, []⟩ ops).1.proc
            ∀ key value, p.db.get p.world.fs key = .ok value →
              q.db.get q.world.fs key = .ok value := by
  intro h
  have hlost : (mergedAfter [.put Session.longKey [49]]).any (fun x =>
      decide (x.1.db.get x.1.world.fs Session.longKey = .ok [49]) &&
        decide (x.2.db.get x.2.world.fs Session.longKey = .error .keyNotFound)) = true := by
    decide +kernel
  rcases hpq : mergedAfter [.put Session.longKey [49]] with _ | ⟨p, q⟩
  · rw [hpq] at hlost
    cases hlost
  · rw [hpq] at hlost
    obtain ⟨hbefore, hafter⟩ := Bool.and_eq_true_iff.1 hlost
    obtain ⟨db, w', hopen, hops, rfl, hmerge⟩ := mergedAfter_spec hpq
    have hlimits : ∀ op ∈ [Op.put Session.longKey [49]], Session.WithinLimits op :=
      List.forall_mem_singleton.2 ⟨by decide, by decide, by decide⟩
    have hkept := h _ _ (Session.fresh_empty (by decide) false) (fun _ _ _ => rfl) (fun _ => rfl)
      db w' hopen _ hlimits hops true minAvailableSize q hmerge Session.longKey [49]
      (of_decide_eq_true hbefore)
    rw [of_decide_eq_true hafter] at hkept
    cases hkept

end DB

end Bitcask
