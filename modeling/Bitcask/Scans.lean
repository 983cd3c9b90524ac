import Bitcask.Containment
import Bitcask.Corruption

/-!
# Scans end

Loading and merging read files record by record, whatever the files hold. Both scans
end (`DB.scans_end`): a record that is read takes at least seven bytes, what is
rejected is left behind by one, and an offset behind the file is its end, so there is
at most one pass more than there are bytes. What a merge writes meanwhile is in
another directory than the file it reads.
-/

namespace Bitcask

open FuelLoop DataFile DBM Guarantee

/-! ## Scans -/

/-- A scan of a file ends: the loop makes at most one pass more than there are bytes,
    every pass that goes round again does so at a larger offset, which is behind the
    record if one has been read, and every exception is caught. -/
structure ScanEnds {σ ρ : Type*} (content : Bytes) (offset : σ → ℕ) (body : σ → Pass σ ρ)
    (s : σ) : Prop where
  ends : ∃ r, loop body (content.length + 1) s = some r
  advances : ∀ t t', Reaches body s t → body t = .again t' →
    offset t < offset t' ∧ offset t' < 2 ^ 64
  read : ∀ t read, Reaches body s t → readLogRecord content (offset t) = .ok read →
    7 ≤ read.size ∧ ∃ t', body t = .again t' ∧ offset t' = offset t + read.size
  eof : ∀ t, Reaches body s t → readLogRecord content (offset t) = .error .readDataFileEOF →
    ∃ r, body t = .done r
  caught : ∀ t e, Reaches body s t → readLogRecord content (offset t) = .error e →
    e ≠ .readDataFileEOF → (∃ t', body t = .again t' ∧ offset t' = offset t + 1) ∨
      (content.length ≤ offset t + 1 ∧ ∃ r, body t = .done r)

/-- A scan ends if every pass goes on behind the record read, or one byte further, and
    stops where the file does. -/
theorem scanEnds_of_pass {σ ρ : Type*} {content : Bytes} {offset : σ → ℕ} {body : σ → Pass σ ρ}
    {s : σ} (hlen : content.length < 2 ^ 63) (I : σ → Prop) (hs : I s)
    (hread : ∀ t read, I t → readLogRecord content (offset t) = .ok read →
      ∃ t', body t = .again t' ∧ offset t' = offset t + read.size ∧ I t')
    (heof : ∀ t, I t → readLogRecord content (offset t) = .error .readDataFileEOF →
      ∃ r, body t = .done r)
    (hskip : ∀ t e, I t → readLogRecord content (offset t) = .error e → e ≠ .readDataFileEOF →
      (∃ t', body t = .again t' ∧ offset t' = offset t + 1 ∧ I t') ∨
        (content.length ≤ offset t + 1 ∧ ∃ r, body t = .done r)) :
    ScanEnds content offset body s := by
  -- A pass that goes round again has started in the file.
  have hagain (t t' : σ) (ht : I t) (hpass : body t = .again t') : I t' ∧
      offset t < content.length ∧ offset t < offset t' ∧
        offset t' ≤ content.length + 2 * maxRecordSize := by
    cases hr : readLogRecord content (offset t) with
    | ok read =>
      obtain ⟨hlt, h7, hle⟩ := readLogRecord_bounds hr
      obtain ⟨u, hu, hoff, hI⟩ := hread t read ht hr
      obtain rfl := Pass.again.inj (hpass.symm.trans hu)
      exact ⟨hI, hlt, by omega, by omega⟩
    | error e =>
      by_cases hne : e = .readDataFileEOF
      · obtain ⟨r, hdone⟩ := heof t ht (hne ▸ hr)
        cases hpass.symm.trans hdone
      · have hlt := lt_of_readLogRecord_error hr hne
        rcases hskip t e ht hr hne with ⟨u, hu, hoff, hI⟩ | ⟨-, r, hdone⟩
        · obtain rfl := Pass.again.inj (hpass.symm.trans hu)
          exact ⟨hI, hlt, by omega, by omega⟩
        · cases hpass.symm.trans hdone
  have hinv {t : σ} (h : Reaches body s t) : I t :=
    h.inv (fun t t' ht hpass => (hagain t t' ht hpass).1) hs
  have hmax : 2 * maxRecordSize < 2 ^ 63 := by decide
  refine ⟨?_, fun t t' ht hpass => ?_, fun t read ht hr => ?_, fun t ht hr => heof t (hinv ht) hr,
    fun t e ht hr hne => ?_⟩
  · refine loop_total (μ := fun t => content.length - offset t)
      (fun t t' ht hpass => (hagain t t' ht hpass).1) (fun t t' ht hpass => ?_) hs (by omega)
    obtain ⟨-, hlt, hoff, -⟩ := hagain t t' ht hpass
    show content.length - offset t' < content.length - offset t
    omega
  · obtain ⟨-, -, hoff, hle⟩ := hagain t t' (hinv ht) hpass
    exact ⟨hoff, by omega⟩
  · obtain ⟨t', hpass, hoff, -⟩ := hread t read (hinv ht) hr
    exact ⟨(readLogRecord_bounds hr).2.1, t', hpass, hoff⟩
  · rcases hskip t e (hinv ht) hr hne with ⟨t', hpass, hoff, -⟩ | hdone
    · exact .inl ⟨t', hpass, hoff⟩
    · exact .inr hdone

/-- Loading reads a file to its end. -/
theorem scanEnds_scanPass {ι : Type} [Indexer ι] {content : Bytes} (hlen : content.length < 2 ^ 63)
    (fid : ℕ) (s : Loading ι) : ScanEnds content Prod.fst (scanPass fid content) (0, s) := by
  refine scanEnds_of_pass hlen (fun _ => True) trivial ?_ ?_ ?_
  · rintro ⟨offset, t⟩ read - hr
    exact ⟨_, by rw [scanPass, show readLogRecord content offset = _ from hr], rfl, trivial⟩
  · rintro ⟨offset, t⟩ - hr
    exact ⟨_, by rw [scanPass, show readLogRecord content offset = _ from hr]⟩
  · rintro ⟨offset, t⟩ e - hr hne
    have hpass : scanPass fid content (offset, t) =
        if content.length ≤ offset + 1 then .done (offset + 1, t) else .again (offset + 1, t) := by
      rw [scanPass, show readLogRecord content offset = _ from hr]
      cases e <;> first | rfl | exact absurd rfl hne
    by_cases hle : content.length ≤ offset + 1
    · exact .inr ⟨hle, _, hpass.trans (if_pos hle)⟩
    · exact .inl ⟨_, hpass.trans (if_neg hle), rfl, trivial⟩

namespace DB

variable {ι : Type}

/-! ## Copying -/

/-- The copies and the hint file are written in the directory of the merge. -/
structure MergeScan.Copying (mergePath : Path) (s : MergeScan ι) : Prop where
  within : Proc.Within mergePath ⟨s.mergeDb, s.world⟩
  hint : s.hintFile.path.dir = mergePath

variable {mergePath : Path} {s : MergeScan ι}

theorem MergeScan.Copying.setOffset (h : s.Copying mergePath) (offset : ℕ) :
    Copying mergePath { s with offset := offset } := ⟨h.within, h.hint⟩

/-- Copying a record succeeds where calls do, and leaves the other directories alone. -/
theorem copyRecord_copying (h : s.Copying mergePath) (record : LogRecord) (size : ℕ) :
    ∃ s', copyRecord record size s = .again s' ∧ s'.offset = s.offset + size ∧
      s'.Copying mergePath ∧ s.world.SameOutside mergePath s'.world := by
  obtain ⟨pos, p, hrun, hp, hsame⟩ := appendLogRecordInternal_run_within h.within (copyOf record)
  set data := LogRecord.encode
    { key := (parseLogRecordKey record.key).1, value := pos.encode, type := .normal } with hdata
  have hwrite : (s.hintFile.writeHintRecord (parseLogRecordKey record.key).1 pos).run p.world =
      .ok { s.hintFile with writeOff := s.hintFile.writeOff + data.length }
        (p.world.wrote s.hintFile data) :=
    DataFile.write_ok _ (World.next_of_nil (hp.quiet (.write s.hintFile.path) h.hint))
  refine ⟨⟨s.offset + size, p.db, { s.hintFile with writeOff := s.hintFile.writeOff + data.length },
    p.world.wrote s.hintFile data⟩, ?_, rfl, ⟨hp.congr rfl hp.active hp.quiet,
    h.hint⟩, fun path hne => ?_⟩
  · simp only [copyRecord, hrun, hwrite]
  · have hpath : path ≠ s.hintFile.path := fun heq => hne (by rw [heq, h.hint])
    exact (World.wrote_file?_of_ne _ _ _ hpath).trans (hsame path hne)

variable {valid : List (Bytes × LogRecordPos)} {file : DataFile} {content : Bytes}

/-- What holds while a file is being copied: its contents stay as they are. -/
def MergeScan.CopyingFrom (mergePath : Path) (file : DataFile) (content : Bytes)
    (s : MergeScan ι) : Prop :=
  s.Copying mergePath ∧ file.content s.world.fs = content

/-- What every pass does while a file is being copied. -/
theorem mergePass_copying (hfile : file.path.dir ≠ mergePath)
    (h : s.CopyingFrom mergePath file content) :
    (∀ read, readLogRecord content s.offset = .ok read →
      ∃ s', mergePass valid file s = .again s' ∧ s'.offset = s.offset + read.size ∧
        s'.CopyingFrom mergePath file content) ∧
    (readLogRecord content s.offset = .error .readDataFileEOF → mergePass valid file s = .done s) ∧
    ∀ e, readLogRecord content s.offset = .error e → e ≠ .readDataFileEOF →
      mergePass valid file s = .again { s with offset := s.offset + 1 } := by
  obtain ⟨hs, hcontent⟩ := h
  refine ⟨fun read hr => ?_, fun hr => ?_, fun e hr hne => ?_⟩ <;> rw [mergePass, hcontent, hr]
  · dsimp only
    split
    · obtain ⟨s', hpass, hoff, hs', hsame⟩ := copyRecord_copying hs read.record read.size
      refine ⟨s', hpass, hoff, hs', ?_⟩
      rw [← hcontent, DataFile.content, DataFile.content, hsame _ hfile]
    · exact ⟨_, rfl, rfl, hs.setOffset _, hcontent⟩
  · rfl
  · cases e <;> first | rfl | exact absurd rfl hne

/-- Merging reads a file to its end. -/
theorem scanEnds_mergePass (hlen : content.length < 2 ^ 63) (hfile : file.path.dir ≠ mergePath)
    (h : s.CopyingFrom mergePath file content) :
    ScanEnds content MergeScan.offset (mergePass valid file) s :=
  scanEnds_of_pass hlen (MergeScan.CopyingFrom mergePath file content) h
    (fun _ read ht hr => (mergePass_copying hfile ht).1 read hr)
    (fun t ht hr => ⟨t, (mergePass_copying hfile ht).2.1 hr⟩)
    fun _ e ht hr hne => .inl ⟨_, (mergePass_copying hfile ht).2.2 e hr hne, rfl,
      ht.1.setOffset _, ht.2⟩

/-- While a file is being copied, its contents stay, and so they do until the end. -/
theorem mergePass_keeps (hfile : file.path.dir ≠ mergePath)
    (h : s.CopyingFrom mergePath file content) :
    (∀ s', mergePass valid file s = .again s' → s'.CopyingFrom mergePath file content) ∧
      ∀ r, mergePass valid file s = .done r → r.Copying mergePath := by
  obtain ⟨hread, heof, hskip⟩ := @mergePass_copying _ _ s valid _ _ hfile h
  rcases hr : readLogRecord content s.offset with e | read
  · by_cases hne : e = .readDataFileEOF
    · rw [heof (hne ▸ hr)]
      refine ⟨fun s' hpass => ?_, fun r hpass => ?_⟩ <;> cases hpass
      exact h.1
    · rw [hskip e hr hne]
      refine ⟨fun s' hpass => ?_, fun r hpass => ?_⟩ <;> cases hpass
      exact ⟨h.1.setOffset _, h.2⟩
  · obtain ⟨t, hagain, -, ht⟩ := hread read hr
    rw [hagain]
    refine ⟨fun s' hpass => ?_, fun r hpass => ?_⟩ <;> cases hpass
    exact ht

/-- Copying the records of files goes on in the directory of the merge. -/
theorem mergeScan_copying {files : List DataFile} (hfiles : ∀ file ∈ files, file.path.dir ≠ mergePath)
    (h : s.Copying mergePath) : (mergeScan valid files s).Copying mergePath := by
  induction files generalizing s with
  | nil => exact h
  | cons file files ih =>
    rw [List.forall_mem_cons] at hfiles
    refine ih hfiles.2 ?_
    have hfrom : MergeScan.CopyingFrom mergePath file (file.content s.world.fs)
        { s with offset := 0 } := ⟨h.setOffset 0, rfl⟩
    cases hloop : loop (mergePass valid file) ((file.content s.world.fs).length + 1)
        { s with offset := 0 } with
    | none => exact hfrom.1
    | some r =>
      exact loop_inv (fun t t' ht hpass => (mergePass_keeps hfiles.1 ht).1 t' hpass)
        (fun t r ht hpass => (mergePass_keeps hfiles.1 ht).2 r hpass) hfrom hloop

/-- A merge that has been prepared copies in its directory. -/
theorem copying_of_prepareMerge [Indexer ι] {p q : Proc ι} {files : List DataFile}
    {mergeDb : DB ι} {hintFile : DataFile} {w : World}
    (hquiet : p.world.Quiet (getMergePath p.db.options.dirPath))
    (hrun : (prepareMerge : DBM ι _).run p = .ok (mergePath, files, mergeDb) q)
    (hhint : (openHintFile mergePath).run q.world = .ok hintFile w) :
    (∀ file ∈ files, file.path.dir ≠ mergePath) ∧
      MergeScan.Copying mergePath ⟨0, mergeDb, hintFile, w⟩ := by
  obtain ⟨hq, hvalue⟩ := prepareMerge_beside p.db.options p ⟨rfl, hquiet⟩
  obtain ⟨rfl, hfiles, hdir, hactive⟩ := hvalue _ _ hrun
  rw [hrun] at hq
  have hw := ((World.indifferent_quiet (getMergePath p.db.options.dirPath) _).openAuxFile_keeps
    .hintIndex q.world hq.2).1
  rw [show openAuxFile _ _ = openHintFile _ from rfl, hhint] at hw
  refine ⟨fun file hfile => ?_, ⟨hdir, hactive, hw⟩, ?_⟩
  · rw [hfiles file hfile]
    exact (getMergePath_ne _).symm
  · exact congrArg FilePath.dir (openAuxFile_path hhint)

/-- The scans of loading and of merging end, whatever the files hold: a file of any
    contents when it is loaded, and every file that a merge copies, after those before
    it. -/
theorem scans_end [Indexer ι] :
    (∀ (fid : ℕ) (content : Bytes) (s : Loading ι), content.length < 2 ^ 63 →
      ScanEnds content Prod.fst (scanPass fid content) (0, s)) ∧
    ∀ (p q : Proc ι) (mergePath : Path) (files before after : List DataFile) (file : DataFile)
      (mergeDb : DB ι) (hintFile : DataFile) (w : World),
      p.world.Quiet (getMergePath p.db.options.dirPath) →
      (prepareMerge : DBM ι _).run p = .ok (mergePath, files, mergeDb) q →
      (openHintFile mergePath).run q.world = .ok hintFile w →
      files = before ++ file :: after →
      let valid := validRecords q.db.index
      let s := mergeScan valid before ⟨0, mergeDb, hintFile, w⟩
      let content := file.content s.world.fs
      content.length < 2 ^ 63 →
        ScanEnds content MergeScan.offset (mergePass valid file) { s with offset := 0 } := by
  refine ⟨fun fid content s hlen => scanEnds_scanPass hlen fid s, ?_⟩
  rintro p q mergePath files before after file mergeDb hintFile w hquiet hrun hhint rfl valid s
    content hlen
  obtain ⟨hfiles, hcopying⟩ := copying_of_prepareMerge hquiet hrun hhint
  rw [List.forall_mem_append, List.forall_mem_cons] at hfiles
  exact scanEnds_mergePass hlen hfiles.2.1
    ⟨(mergeScan_copying hfiles.1 hcopying).setOffset 0, rfl⟩

/-- A file of a record whose checksum is refused, cut in its value. -/
def damagedFile : Bytes := [0xEF, 0xBE, 0xAD, 0xDE, 1, 1, 9, 107, 118]

/-- A merge comes to the end of a damaged file. -/
theorem scans_end_damagedFile :
    ∃ (q : Proc BTreeIndex) (file : DataFile) (s : MergeScan BTreeIndex),
      ScanEnds damagedFile MergeScan.offset (mergePass (validRecords q.db.index) file) s := by
  set p : Proc BTreeIndex := aboutToLoad ['d'] [(0, damagedFile)]
  set file : DataFile := ⟨getDataFileName ['d'] 0, 0, 0, .standardFio⟩
  set prepared : DBM BTreeIndex (List DataFile × Bytes) := do
    let x ← prepareMerge
    let _ ← openHintFile x.1
    return (x.2.1, file.content (← proc).world.fs)
  have hvalue : value? (prepared.run p) = some ([file], damagedFile) := by decide +kernel
  obtain ⟨r, hrun⟩ := value?_eq_some.1 hvalue
  obtain ⟨⟨mergePath, files, mergeDb⟩, q, hprepare, hrun⟩ := Guarantee.bind_eq_ok hrun
  obtain ⟨hintFile, _, hhint, hrun⟩ := Guarantee.bind_eq_ok hrun
  obtain ⟨w, hopen, rfl⟩ := lift_eq_ok hhint
  obtain ⟨hfiles, hcontent⟩ := Prod.mk.inj (EStateM.Result.ok.inj hrun).1
  have h := (scans_end (ι := BTreeIndex)).2 p q mergePath files [] [] file mergeDb hintFile w
    (fun _ _ => rfl) hprepare hopen hfiles
  change (file.content w.fs).length < 2 ^ 63 → ScanEnds (file.content w.fs) _ _ _ at h
  rw [hcontent] at h
  exact ⟨q, file, _, h (by decide)⟩

end DB

end Bitcask
