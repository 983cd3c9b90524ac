import Bitcask.Contents

/-!
# The hint file

The positions loaded from the hint file are thrown away when the index is built from
the data files, so what a database contains does not depend on them. Whether it can be
opened does: reading the hint file stops at what is taken for its end, while any other
exception ends the opening. With data files, a database is opened with its hint file as
without it if and only if all records of the hint file hold positions, up to its end
(`DB.openedAs_withoutHint_iff`).
-/

namespace Bitcask

open FuelLoop Transaction DataFile DBM Sys Guarantee

/-! ## Reading the hint file -/

/-- Reading a hint file on from an offset comes to another one, past records that hold
    positions. -/
inductive HintMet (content : Bytes) : ℕ → ℕ → Prop
  | here (offset : ℕ) : HintMet content offset offset
  | read {offset offset' : ℕ} {read : ReadLogRecord} {pos : LogRecordPos} :
      readLogRecord content offset = .ok read → LogRecordPos.decode read.record.value = .ok pos →
      HintMet content (offset + read.size) offset' → HintMet content offset offset'

/-- At an offset, a hint file ends, or there is a record that holds a position. -/
def HintEntry (content : Bytes) (offset : ℕ) : Prop :=
  readLogRecord content offset = .error .readDataFileEOF ∨
    ∃ read pos, readLogRecord content offset = .ok read ∧
      LogRecordPos.decode read.record.value = .ok pos

/-- All records of a hint file hold positions, up to its end. -/
def HintReads (content : Bytes) : Prop := ∀ offset, HintMet content 0 offset → HintEntry content offset

variable {ι : Type} [Indexer ι]

/-- The loop ends, without an exception if and only if all records hold positions. -/
theorem loop_hintPass (content : Bytes) {fuel offset : ℕ} (hfuel : content.length - offset < fuel)
    (index : ι) : ∃ e index', loop (DB.hintPass content) fuel (offset, index) = some (e, index') ∧
      (e = none ↔ ∀ o, HintMet content offset o → HintEntry content o) := by
  induction fuel generalizing offset index with
  | zero => exact absurd hfuel (Nat.not_lt_zero _)
  | succ fuel ih =>
    have hstop : ¬HintEntry content offset →
        ¬∀ o, HintMet content offset o → HintEntry content o := fun hnot h =>
      hnot (h offset (.here offset))
    cases hread : readLogRecord content offset with
    | ok read =>
      cases hdecode : LogRecordPos.decode read.record.value with
      | ok pos =>
        obtain ⟨hlt, h7, -⟩ := readLogRecord_bounds hread
        obtain ⟨e, index', hloop, hiff⟩ := @ih (offset + read.size) (by omega)
          (Indexer.put index read.record.key pos).2
        have hpass : DB.hintPass content (offset, index) =
            .again (offset + read.size, (Indexer.put index read.record.key pos).2) := by
          rw [DB.hintPass, hread]
          simp only [hdecode]
        refine ⟨e, index', (loop_again hpass fuel).trans hloop, hiff.trans ?_⟩
        constructor
        · intro h o ho
          cases ho with
          | here => exact .inr ⟨read, pos, hread, hdecode⟩
          | read hread' _ ho =>
            obtain rfl := Except.ok.inj (hread.symm.trans hread')
            exact h o ho
        · exact fun h o ho => h o (.read hread hdecode ho)
      | error e =>
        have hpass : DB.hintPass content (offset, index) = .done (some e, index) := by
          rw [DB.hintPass, hread]
          simp only [hdecode]
        refine ⟨some e, index, loop_done hpass fuel, iff_of_false (by simp) (hstop ?_)⟩
        rintro (heof | ⟨read', pos, hread', hdecode'⟩)
        · cases hread.symm.trans heof
        · obtain rfl := Except.ok.inj (hread.symm.trans hread')
          cases hdecode.symm.trans hdecode'
    | error e =>
      by_cases heof : e = .readDataFileEOF
      · subst heof
        have hpass : DB.hintPass content (offset, index) = .done (none, index) := by
          rw [DB.hintPass, hread]
        refine ⟨none, index, loop_done hpass fuel, iff_of_true rfl fun o ho => ?_⟩
        cases ho with
        | here => exact .inl hread
        | read hread' => cases hread.symm.trans hread'
      · have hpass : DB.hintPass content (offset, index) = .done (some e, index) := by
          rw [DB.hintPass, hread]
          cases e <;> first | rfl | exact absurd rfl heof
        refine ⟨some e, index, loop_done hpass fuel, iff_of_false (by simp) (hstop ?_)⟩
        rintro (heof' | ⟨read', pos, hread', -⟩)
        · exact heof (Except.error.inj (hread.symm.trans heof'))
        · cases hread.symm.trans hread'

namespace DB

variable {options : Options} {files : List (ℕ × Bytes)} {p : Proc ι}

/-- The hint file of a directory, if there is one, can be read. -/
def HintFits (fs : FS) (dirPath : Path) : Prop :=
  ∀ content, fs.file? ⟨dirPath, .hintIndex⟩ = some content → HintReads content

theorem hintOk_of_fits {fs : FS} {dirPath : Path} (h : HintFits fs dirPath) :
    HintOk ι fs dirPath := by
  intro content hcontent index
  obtain ⟨e, index', hloop, hiff⟩ := loop_hintPass content
    (by omega : content.length - 0 < content.length + 1) index
  rw [hloop, hiff.2 (h content hcontent)]
  exact ⟨index', rfl⟩

/-- Opening the hint file makes the first data file, if it is missing, and no other. -/
theorem openHintFile_run {dirPath : Path} {w : World} {hint : Bytes}
    (hopen : World.OpensOk dirPath w) (hhint : w.fs.file? ⟨dirPath, .hintIndex⟩ = some hint) :
    (openHintFile dirPath).run w = .ok ⟨⟨dirPath, .hintIndex⟩, 0, 0, .standardFio⟩
      (w.opened (getDataFileName dirPath 0)) := by
  have hfile : (w.opened (getDataFileName dirPath 0)).fs.file? ⟨dirPath, .hintIndex⟩ = some hint := by
    rw [World.opened_file?_of_ne _ _ (by simp [getDataFileName]), hhint]
  rw [openHintFile, openAuxFile_run (hopen _) (hopen _), World.opened_of_exists _ _ hfile]

theorem Loaded.loadIndexFromHintFile (h : Loaded options files p) :
    (HintFits p.world.fs options.dirPath →
      ∃ q, (DB.loadIndexFromHintFile : DBM ι Unit).run p = .ok () q ∧ Loaded options files q) ∧
    (¬HintFits p.world.fs options.dirPath →
      ∃ e q, (DB.loadIndexFromHintFile : DBM ι Unit).run p = .error e q) := by
  have hexists : (fileExists ⟨p.db.options.dirPath, .hintIndex⟩).run p.world =
      .ok (p.world.fs.fileExists ⟨p.db.options.dirPath, .hintIndex⟩) p.world := rfl
  have hstart (m : Bool → DBM ι Unit) :
      ((liftM (fileExists ⟨p.db.options.dirPath, .hintIndex⟩) : DBM ι Bool) >>= m).run p =
        (m (p.world.fs.fileExists ⟨p.db.options.dirPath, .hintIndex⟩)).run p := by
    rw [bind_ok (lift_ok hexists)]
  rw [DB.loadIndexFromHintFile, bind_ok (proc_run p), hstart, h.options_eq]
  cases hcase : p.world.fs.fileExists ⟨options.dirPath, .hintIndex⟩ with
  | false =>
    have hfits : HintFits p.world.fs options.dirPath := by
      intro hint hhint
      rw [FS.fileExists, hhint] at hcase
      cases hcase
    exact ⟨fun _ => ⟨p, rfl, h⟩, fun hnot => absurd hfits hnot⟩
  | true =>
    obtain ⟨hint, hhint⟩ := FS.fileExists_iff.1 hcase
    obtain ⟨e, index, hloop, hiff⟩ := loop_hintPass hint
      (by omega : hint.length - 0 < hint.length + 1) p.db.index
    have hfits : HintFits p.world.fs options.dirPath ↔ e = none := by
      rw [hiff]
      refine ⟨fun hfits => hfits hint hhint, fun hreads content hcontent => ?_⟩
      rwa [← Option.some.inj (hhint.symm.trans hcontent)]
    have hcontent : DataFile.content ⟨⟨options.dirPath, .hintIndex⟩, 0, 0, .standardFio⟩
        (p.world.opened (getDataFileName options.dirPath 0)).fs = hint := by
      refine content_eq_of_file? ?_
      rw [World.opened_file?_of_ne _ _ (by simp [getDataFileName]), hhint]
    rw [if_pos rfl, bind_ok (lift_ok (openHintFile_run h.opens hhint)), bind_ok (proc_run _),
      bind_ok (proc_run _)]
    simp only [hcontent, hloop, Option.getD_some]
    rw [bind_ok (modifyDB_run _ _), hfits]
    cases e with
    | none =>
      refine ⟨fun _ => ⟨_, rfl, ?_⟩, fun hne => absurd rfl hne⟩
      refine h.congr rfl rfl rfl rfl (fun x hx => ?_) (World.opened_outcomes _ _)
      -- The first data file has been there before, if it is one of those that are open.
      by_cases hfirst : getDataFileName options.dirPath x.1 = getDataFileName options.dirPath 0
      · rw [hfirst, World.opened_of_exists _ _ (hfirst ▸ h.content x hx)]
      · exact World.opened_file?_of_ne _ _ hfirst
    | some e => exact ⟨fun hnone => absurd hnone (by simp), fun _ => ⟨e, _, rfl⟩⟩

/-! ## Opening -/

/-- Loading data files that are found: with a hint file that can be read the database contains
    what is in the data files, with another one an exception is thrown. -/
theorem load_loaded (holder : p.db.olderFiles = ∅)
    (hopen : World.OpensOk p.db.options.dirPath p.world)
    (hne : findDataFiles p.world.fs p.db.options.dirPath ≠ []) :
    (HintFits p.world.fs p.db.options.dirPath → ∃ q, (load : DBM ι Unit).run p = .ok () q ∧
      q.db.Contains q.world.fs (filesIn p.db.options p.world.fs)) ∧
    (¬HintFits p.world.fs p.db.options.dirPath →
      ∃ e q, (load : DBM ι Unit).run p = .error e q) := by
  obtain ⟨q, hload, hq, hothers⟩ := loadDataFiles_loaded holder hopen hne
  have hfiles : filesIn p.db.options p.world.fs ≠ [] := by
    rw [Ne, ← List.map_eq_nil_iff (f := Prod.fst), map_fst_filesIn]
    exact hne
  have hfits : HintFits q.world.fs p.db.options.dirPath ↔
      HintFits p.world.fs p.db.options.dirPath := by
    rw [HintFits, HintFits, hothers _ (by simp [getDataFileName])]
  have hsome : q.db.fileIds ≠ [] ∨ q.db.activeFile.isSome := by
    rw [hq.fileIds_eq, Ne, List.map_eq_nil_iff]
    exact .inl hfiles
  rw [load, bind_ok hload, bind_ok (proc_run _), bind_ok (proc_run _), if_pos hsome, ← hfits]
  refine ⟨fun h => ?_, fun h => ?_⟩
  · obtain ⟨r, hhint, hr⟩ := hq.loadIndexFromHintFile.1 h
    obtain ⟨s, hindex, hs, hget⟩ := hr.loadIndexFromDataFiles hfiles
    rw [bind_ok hhint, bind_ok hindex, bind_ok (proc_run _)]
    split
    · obtain ⟨t, hreset, ht, hindexEq⟩ := hs.resetIOType
      exact ⟨t, hreset, ht.contains (nodup_filesIn _ _) (by rw [hindexEq, hget])⟩
    · exact ⟨s, rfl, hs.contains (nodup_filesIn _ _) hget⟩
  · obtain ⟨e, r, hhint⟩ := hq.loadIndexFromHintFile.2 h
    exact ⟨e, r, bind_error hhint⟩

theorem hintReads_nil : HintReads [] := by
  intro offset hoffset
  cases hoffset with
  | here => exact .inl (readLogRecord_eof (by decide))
  | read hread =>
    obtain ⟨hlt, -⟩ := readLogRecord_bounds hread
    exact absurd hlt (Nat.not_lt_zero _)

/-- In a directory whose files have no contents, the hint file can be read. -/
theorem hintFits_of_dirSize {fs : FS} {dirPath : Path} (h : fs.dirSize dirPath = 0) :
    HintFits fs dirPath := by
  intro content hcontent
  obtain ⟨dir, hdir, hname⟩ := Option.bind_eq_some_iff.1 hcontent
  have hsum := List.sum_eq_zero_iff_forall_eq_nat.1 h _ (List.mem_map_of_mem
    (List.mem_filter.2 ⟨AList.mem_lookup_iff.1 hdir, by simp [FS.below]⟩))
  have hlen := List.sum_eq_zero_iff_forall_eq_nat.1 hsum _
    (List.mem_map_of_mem (AList.mem_lookup_iff.1 hname))
  obtain rfl : content = [] := List.eq_nil_of_length_eq_zero hlen
  exact hintReads_nil

/-- Loading where no data file is found: the database contains nothing. -/
theorem load_nothing (hactive : p.db.activeFile = none) (holder : p.db.olderFiles = ∅)
    (hindex : ∀ k, Indexer.get p.db.index k = none)
    (hopen : World.OpensOk p.db.options.dirPath p.world)
    (hnil : findDataFiles p.world.fs p.db.options.dirPath = [])
    (hhint : p.db.isInitial = true → HintFits p.world.fs p.db.options.dirPath) :
    ∃ q, (load : DBM ι Unit).run p = .ok () q ∧ q.db.Contains q.world.fs [] := by
  have hcontains : ∀ q : Proc ι, (∀ k, Indexer.get q.db.index k = none) →
      q.db.Contains q.world.fs [] := fun q hq => ⟨funext hq, fun key pos hpos => by cases hpos⟩
  cases hinitial : p.db.isInitial with
  | false =>
    have hload : (loadDataFiles : DBM ι Unit).run p =
        .ok () { p with db := { p.db with fileIds := [] } } := by
      rw [loadDataFiles, bind_ok (proc_run p), hnil, hinitial]
      rfl
    refine ⟨{ p with db := { p.db with fileIds := [] } }, ?_, hcontains _ hindex⟩
    rw [load, bind_ok hload, bind_ok (proc_run _), bind_ok (proc_run _), if_neg (by simp [hactive])]
    rfl
  | true =>
    have hfirst : p.world.fs.file? p.db.firstPath = none := by
      rw [← Option.not_isSome_iff_eq_none]
      intro hsome
      have hmem := (mem_findDataFiles_iff p.world.fs p.db.options.dirPath 0).2
        ⟨by decide, hsome, fun start hstart => by simp [maxConsecutiveMissing] at hstart⟩
      rw [hnil] at hmem
      cases hmem
    have hload := loadDataFiles_run_new hnil hactive hinitial (hopen _)
    have hcontent : (p.world.opened p.db.firstPath).fs.file? p.db.firstPath = some [] := by
      rw [World.opened_file?_self, hfirst]
      rfl
    have hfits : HintFits (p.world.opened p.db.firstPath).fs p.db.options.dirPath := by
      intro content hcontent
      rw [World.opened_file?_of_ne _ _ (by simp [firstPath, getDataFileName])] at hcontent
      exact hhint hinitial content hcontent
    obtain ⟨w, -, hrun⟩ := load_run hload rfl (.inl rfl) (fun _ => rfl) holder hcontent
      (fun name => by rw [World.opened_outcomes]; exact hopen name) (hintOk_of_fits hfits)
    exact ⟨_, hrun, hcontains _ fun k => Indexer.get_create _ k⟩

/-- Opening a directory: with a hint file that can be read, or without data files, the database
    contains what is in the data files. Otherwise an exception is thrown. -/
theorem open_contains {w : World} (hvalid : checkOptions options = .ok ())
    (hmerge : NoMerge w.fs options.dirPath)
    (hopen : World.OpensOk options.dirPath w) :
    ((findDataFiles w.fs options.dirPath ≠ [] → HintFits w.fs options.dirPath) →
      ∃ (db : DB ι) (w' : World), («open» options : Sys (DB ι)).run w = .ok db w' ∧
        db.Contains w'.fs (filesIn options w.fs)) ∧
    (¬(findDataFiles w.fs options.dirPath ≠ [] → HintFits w.fs options.dirPath) →
      ∃ e w', («open» options : Sys (DB ι)).run w = .error e w') := by
  obtain ⟨w₁, initial, hsame, hinitial, index, hindex, hok, herror⟩ :=
    open_run (ι := ι) hvalid hmerge
  have hdata (fid : ℕ) : w₁.fs.file? (getDataFileName options.dirPath fid) =
      w.fs.file? (getDataFileName options.dirPath fid) := by
    rcases Nat.eq_zero_or_pos fid with rfl | hpos
    · exact hsame.first
    · exact hsame.others fid (Nat.ne_of_gt hpos)
  have hids : findDataFiles w₁.fs options.dirPath = findDataFiles w.fs options.dirPath := by
    rw [findDataFiles, findDataFiles]
    simp only [FS.fileExists, hdata]
  have hfiles : filesIn options w₁.fs = filesIn options w.fs := by
    rw [filesIn, filesIn, hids]
    simp only [hdata]
  have hfits : HintFits w₁.fs options.dirPath ↔ HintFits w.fs options.dirPath := by
    rw [HintFits, HintFits, hsame.hint]
  rw [← hids, ← hfits, ← hfiles]
  set p₁ : Proc ι := ⟨{ options := options, index := index, isInitial := initial }, w₁⟩
  by_cases hnil : findDataFiles w₁.fs options.dirPath = []
  · have hload : ∃ q, (load : DBM ι Unit).run p₁ = .ok () q ∧ q.db.Contains q.world.fs [] := by
      refine load_nothing rfl rfl hindex (hsame.opensOk hopen) hnil fun h => ?_
      rw [hfits]
      rcases hinitial.1 h with hnew | hsize
      · intro content hcontent
        rw [FS.directoryExists_of_file? hcontent] at hnew
        cases hnew
      · have hempty := hintFits_of_dirSize hsize
        rwa [HintFits, (sameData_initDirectory _ _).hint] at hempty
    obtain ⟨q, hload, hq⟩ := hload
    refine ⟨fun _ => ⟨q.db, q.world, hok q hload, ?_⟩, fun hnot => absurd hnil fun hnil => ?_⟩
    · rwa [filesIn, hnil]
    · exact hnot fun hne => absurd hnil hne
  · obtain ⟨hread, hnot⟩ := load_loaded (p := p₁) rfl (hsame.opensOk hopen) hnil
    refine ⟨fun h => ?_, fun h => ?_⟩
    · obtain ⟨q, hload, hq⟩ := hread (h hnil)
      exact ⟨q.db, q.world, hok q hload, hq⟩
    · obtain ⟨e, q, hload⟩ := hnot fun hfits => h fun _ => hfits
      exact herror e q hload

/-! ## With and without the hint file -/

variable (ι) in
/-- The values of the keys in a database that is opened, if it is. -/
def openedAs (options : Options) (w : World) : Option (Bytes → Except Exn Bytes) :=
  match («open» options : Sys (DB ι)).run w with
  | .ok db w' => some (db.get w'.fs)
  | .error _ _ => none

theorem openedAs_eq {w : World} (hvalid : checkOptions options = .ok ())
    (hmerge : NoMerge w.fs options.dirPath)
    (hopen : World.OpensOk options.dirPath w)
    [Decidable (findDataFiles w.fs options.dirPath ≠ [] → HintFits w.fs options.dirPath)] :
    openedAs ι options w =
      if findDataFiles w.fs options.dirPath ≠ [] → HintFits w.fs options.dirPath then
        some (valueIn (filesIn options w.fs)) else none := by
  obtain ⟨hok, herror⟩ := open_contains (ι := ι) hvalid hmerge hopen
  unfold openedAs
  split
  · rename_i db w' hrun
    by_cases h : findDataFiles w.fs options.dirPath ≠ [] → HintFits w.fs options.dirPath
    · obtain ⟨db', w'', hrun', hcontains⟩ := hok h
      cases hrun.symm.trans hrun'
      rw [if_pos h]
      exact congrArg some (funext hcontains.get_eq)
    · obtain ⟨e, w'', hrun'⟩ := herror h
      cases hrun.symm.trans hrun'
  · rename_i e w' hrun
    by_cases h : findDataFiles w.fs options.dirPath ≠ [] → HintFits w.fs options.dirPath
    · obtain ⟨db, w'', hrun', -⟩ := hok h
      cases hrun.symm.trans hrun'
    · rw [if_neg h]

/-- A database is opened with its hint file as without it if and only if no data files are
    found, or there is no hint file, or all records of it hold positions, up to its end. -/
theorem openedAs_withoutHint_iff {w : World} (hvalid : checkOptions options = .ok ())
    (hmerge : NoMerge w.fs options.dirPath)
    (hopen : World.OpensOk options.dirPath w) :
    openedAs ι options w = openedAs ι options (w.withoutFile ⟨options.dirPath, .hintIndex⟩) ↔
      (findDataFiles w.fs options.dirPath ≠ [] →
        ∀ hint, w.fs.file? ⟨options.dirPath, .hintIndex⟩ = some hint → HintReads hint) := by
  classical
  set w₀ := w.withoutFile ⟨options.dirPath, .hintIndex⟩ with hw₀
  have hdata (fid : ℕ) : w₀.fs.file? (getDataFileName options.dirPath fid) =
      w.fs.file? (getDataFileName options.dirPath fid) :=
    World.withoutFile_file?_of_ne _ _ (by simp [getDataFileName])
  have hids : findDataFiles w₀.fs options.dirPath = findDataFiles w.fs options.dirPath := by
    rw [findDataFiles, findDataFiles]
    simp only [FS.fileExists, hdata]
  have hfiles : filesIn options w₀.fs = filesIn options w.fs := by
    rw [filesIn, filesIn, hids]
    simp only [hdata]
  have hwithout : openedAs ι options w₀ = some (valueIn (filesIn options w.fs)) := by
    have hmerge₀ : NoMerge w₀.fs options.dirPath :=
      hmerge.congr (World.withoutFile_lookup_of_ne w ⟨options.dirPath, .hintIndex⟩
        (merge_ne options.dirPath))
    have hopen₀ : World.OpensOk options.dirPath w₀ := fun name => by
      rw [hw₀, World.withoutFile_outcomes, hopen]
    have hfits₀ : findDataFiles w₀.fs options.dirPath ≠ [] → HintFits w₀.fs options.dirPath := by
      intro _ hint hhint
      rw [hw₀, World.withoutFile_file?_self] at hhint
      cases hhint
    rw [openedAs_eq hvalid hmerge₀ hopen₀, if_pos hfits₀, hfiles]
  rw [hwithout, openedAs_eq hvalid hmerge hopen]
  split
  · exact iff_of_true rfl ‹_›
  · exact iff_of_false (by simp) ‹_›

/-- A directory in which the value `1` has been put at the key `a`, with a hint file. -/
def withHint (hint : Bytes) : World where
  fs := (∅ : FS).insert ['d']
    (((∅ : Dir).insert (.data 0) (encodeAll [⟨[97], [49], .normal⟩])).insert .hintIndex hint)

/-- The hint file for it. -/
def hintForPut : Bytes :=
  LogRecord.encode { key := [97], value := LogRecordPos.encode ⟨0, 0, 9⟩, type := .normal }

theorem openedAs_withHint :
    openedAs BTreeIndex ⟨['d'], 100, false⟩ (withHint hintForPut) =
        openedAs BTreeIndex ⟨['d'], 100, false⟩
          ((withHint hintForPut).withoutFile ⟨['d'], .hintIndex⟩) ↔
      (findDataFiles (withHint hintForPut).fs ['d'] ≠ [] →
        ∀ hint, (withHint hintForPut).fs.file? ⟨['d'], .hintIndex⟩ = some hint →
          HintReads hint) :=
  @openedAs_withoutHint_iff BTreeIndex _ ⟨['d'], 100, false⟩ _ rfl rfl fun _ => rfl

/-- Without the last byte of its hint file, the database is not opened. -/
theorem not_forall_openedAs_withoutHint :
    ¬∀ (options : Options) (w : World), checkOptions options = .ok () →
      NoMerge w.fs options.dirPath → World.OpensOk options.dirPath w →
      openedAs BTreeIndex options w =
        openedAs BTreeIndex options (w.withoutFile ⟨options.dirPath, .hintIndex⟩) := by
  intro h
  have hsame := congrArg Option.isSome
    (h ⟨['d'], 100, false⟩ (withHint hintForPut.dropLast) rfl rfl fun _ => rfl)
  exact absurd hsame (by decide +kernel)

end DB

end Bitcask
