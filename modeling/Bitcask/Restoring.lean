import Bitcask.MergeRun

/-!
# Restoring a backup

A backup copies the data files of a database into a directory, over what is there
already, and removes nothing. Opening the copy reads all data files that are found in
it, a hint file, and takes over a finished merge, whether the backup has put them there
or not.

A new database keeps its data in the first file, whatever is requested of it, however
often it is closed and opened again, and however often its files are merged
(`Reached.atFirst`). If nothing is read from the other data files found in the target, its
hint file can be read or is overwritten, and no finished merge waits in it, the copy has the
same contents as the database (`Reached.backup_restores`).
-/

namespace Bitcask

open Framing Transaction DataFile DBM Sys Guarantee

variable {ι : Type}

/-! ## States that are reached -/

/-- No data file has been rotated, and a merge does not rotate one: its copies fit into one
    file. Nothing is below a missing directory of the merge. -/
structure Proc.MergesUnrotated [Indexer ι] (options : Options) (p : Proc ι) : Prop where
  olderFiles_eq : p.db.olderFiles = ∅
  length_le : ∀ content, p.world.fs.file? (getDataFileName options.dirPath 0) = some content →
    (encodeAll (DB.copies (DB.validRecords p.db.index) 0 (readsOf content))).length ≤
      options.dataFileSize
  hierarchical : p.world.fs.Hierarchical (DB.getMergePath options.dirPath)

/-- A database that has been made in a new directory, with the requests made of it, after
    merges, after backups, and after it has been opened again, having been closed or not.
    Anything may be done to other directories at any time, as long as no finished merge is put
    into the database's. -/
inductive Reached [Indexer ι] : Options → Session ι → Prop
  | opened {options : Options} {w w' : World} {db : DB ι} : Fresh options w →
      (∀ c, w.outcomes c = []) → (DB.open options).run w = .ok db w' →
      Reached options ⟨⟨db, w'⟩, []⟩
  | step {options : Options} {s : Session ι} (op : Op) : Reached options s →
      Reached options (s.step op).1
  | reopened {options options' : Options} {s : Session ι} {q : Proc ι} {w : World} {db : DB ι} :
      Reached options s → DB.close.run s.proc = .ok () q →
      options'.dirPath = options.dirPath → (DB.open options').run q.world = .ok db w →
      Reached options' ⟨⟨db, w⟩, []⟩
  | restarted {options options' : Options} {s : Session ι} {w : World} {db : DB ι} :
      Reached options s → options'.dirPath = options.dirPath →
      (DB.open options').run s.proc.world = .ok db w → Reached options' ⟨⟨db, w⟩, []⟩
  | merged {options : Options} {s : Session ι} (shouldMerge : Bool) (availableSize : ℕ) :
      Reached options s → s.proc.MergesUnrotated options →
      Reached options
        { s with proc := finalState ((DB.merge shouldMerge availableSize).run s.proc) }
  | backedUp {options : Options} {s : Session ι} {dir : Path} {q : Proc ι} : Reached options s →
      FS.Apart options.dirPath dir → (DB.backup dir).run s.proc = .ok () q →
      Reached options { s with proc := q }
  | elsewhere {options : Options} {s : Session ι} {w : World} : Reached options s →
      w.fs.lookup options.dirPath = s.proc.world.fs.lookup options.dirPath →
      DB.NoMerge w.fs options.dirPath → w.outcomes = s.proc.world.outcomes →
      Reached options { s with proc := ⟨s.proc.db, w⟩ }

section Reached

variable [Indexer ι] {options : Options}

theorem AtFirst.of_opened {fileIds : List ℕ} {content : Bytes} {w w' : World} {db : DB ι}
    (h : DB.Opened options fileIds content w db w') (hfileIds : fileIds = [] ∨ fileIds = [0])
    (hothers : ∀ fid ≠ 0, w.fs.file? (getDataFileName options.dirPath fid) = none)
    (hhint : DB.HintFits w.fs options.dirPath) (hmerge : DB.NoMerge w.fs options.dirPath) (houtcomes : ∀ c, w.outcomes c = []) :
    AtFirst options ⟨db, w'⟩ where
  options_eq := h.options_eq
  active := by
    obtain ⟨seed, hactive, -⟩ := h.loaded
    refine ⟨_, hactive, rfl, ?_⟩
    rw [← h.options_eq]
    rfl
  older fid hfid := by
    rw [h.olderFiles_eq] at hfid
    cases hfid
  fileIds := by
    rw [h.fileIds_eq]
    exact hfileIds
  world := {
    first := by
      have hfirst := h.first
      rw [DB.firstPath, h.options_eq] at hfirst
      exact Option.isSome_iff_exists.2 ⟨_, hfirst⟩
    others := fun fid hne => (h.sameOthers.others fid hne).trans (hothers fid hne)
    hint := fun content hcontent => hhint content (h.sameOthers.hint.symm.trans hcontent)
    merge := hmerge.congr (h.sameOthers.lookup _ (DB.merge_ne _))
    outcomes := fun c => by rw [h.sameOthers.outcomes, houtcomes] }

omit [Indexer ι] in
/-- Closing the database leaves its files as they are. -/
theorem AtFirst.close {p : Proc ι} (h : AtFirst options p) :
    ∃ w, (DB.close : DBM ι Unit).run p = .ok () ⟨p.db.closed, w⟩ ∧
      p.world.SameData options.dirPath w := by
  obtain ⟨content, hcontent⟩ := Option.isSome_iff_exists.1 h.world.first
  have hfirst : p.world.fs.file? p.db.firstPath = some content := by
    rwa [DB.firstPath, h.options_eq]
  have hclose := DB.close_run hfirst (h.world.outcomes _) (h.world.outcomes _)
    (h.world.outcomes _)
  rwa [h.options_eq] at hclose

theorem OneDataFile.of_sameData {w w' : World} (h : OneDataFile options w)
    (hsame : w.SameData options.dirPath w') : OneDataFile options w' :=
  h.of_sameOthers hsame.toSameOthers (by rw [hsame.first]; exact h.first)

theorem OneDataFile.of_dirPath {options' : Options} {w : World} (h : OneDataFile options w)
    (hdir : options'.dirPath = options.dirPath) : OneDataFile options' w where
  first := hdir ▸ h.first
  others := hdir ▸ h.others
  hint := hdir ▸ h.hint
  merge := hdir ▸ h.merge
  outcomes := h.outcomes

theorem DB.checkOptions_of_open {w w' : World} {db : DB ι}
    (h : («open» options : Sys (DB ι)).run w = .ok db w') : checkOptions options = .ok () := by
  have hopen : «open» options w = .ok db w' := h
  unfold «open» at hopen
  split at hopen
  · cases hopen
  · assumption

/-- A database that is opened where there is only the first data file. -/
theorem OneDataFile.atFirst {w w' : World} {db : DB ι} (h : OneDataFile options w)
    (hopen : (DB.open options : Sys (DB ι)).run w = .ok db w') : AtFirst options ⟨db, w'⟩ := by
  obtain ⟨content, hcontent⟩ := Option.isSome_iff_exists.1 h.first
  obtain ⟨db', w'', hrun, hopened⟩ := DB.open_run_first (ι := ι) (DB.checkOptions_of_open hopen)
    h.merge hcontent h.others (fun _ => h.outcomes _) (DB.hintOk_of_fits h.hint)
  obtain ⟨rfl, rfl⟩ := EStateM.Result.ok.inj (hopen.symm.trans hrun)
  exact .of_opened hopened (.inr rfl) h.others h.hint h.merge h.outcomes

theorem OneDataFile.backedUp {w : World} {dir : Path} (h : OneDataFile options w)
    (hdir : dir ≠ options.dirPath) : OneDataFile options (w.backedUp options.dirPath dir) := by
  have hfile (name : FileName) : (w.backedUp options.dirPath dir).fs.file? ⟨options.dirPath, name⟩ =
      w.fs.file? ⟨options.dirPath, name⟩ :=
    FS.file?_congr (World.backedUp_lookup_of_ne hdir.symm)
  refine ⟨(hfile _).symm ▸ h.first, fun fid hne => (hfile _).trans (h.others fid hne),
    fun content hcontent => h.hint content ((hfile _).symm.trans hcontent), ?_,
    fun c => by rw [World.backedUp_outcomes, h.outcomes]⟩
  by_cases hmerge : dir = options.dirPath ++ "/merge".toList
  · rw [DB.NoMerge, ← hmerge, World.backedUp_file?_of_ne (by simp) (by simp) (by simp), hmerge]
    exact h.merge
  · exact h.merge.congr (World.backedUp_lookup_of_ne (Ne.symm hmerge))

omit [Indexer ι] in
theorem DB.Loaded.active_first {content : Bytes} {p : Proc ι}
    (h : Loaded options [(0, content)] p) (holder : p.db.olderFiles = ∅) :
    ∃ file, p.db.activeFile = some file ∧ file.fileId = 0 ∧
      file.path = getDataFileName options.dirPath 0 := by
  have hfile := (h.isSome_iff 0).2 List.mem_cons_self
  rw [isSome_fileOf, holder, Bool.or_eq_true] at hfile
  rcases hfile with hfile | hnone
  · obtain ⟨file, hactive, hid⟩ := (Option.any_eq_true _ _).1 hfile
    have hid : file.fileId = 0 := of_decide_eq_true hid
    exact ⟨file, hactive, hid, hid ▸ h.active file hactive⟩
  · cases hnone

/-- A merge replaces the first file. -/
theorem AtFirst.mergeFiles {p : Proc ι} (h : AtFirst options p)
    (hvalid : DB.checkOptions options = .ok ()) (hmerges : p.MergesUnrotated options) :
    ∃ q, (DB.mergeFiles : DBM ι Unit).run p = .ok () q ∧ AtFirst options q := by
  obtain ⟨content, hcontent⟩ := Option.isSome_iff_exists.1 h.world.first
  obtain ⟨file, hactive, hid, -⟩ := h.active
  have hmergeable : DB.Mergeable options p := ⟨h.options_eq, hvalid, ⟨file, hactive, hid⟩,
    hmerges.olderFiles_eq, h.world.first, h.world.others, h.world.outcomes⟩
  obtain ⟨q, hrun, hmerged, hleaves⟩ := DB.mergeFiles_run hmergeable hmerges.hierarchical hcontent
    (hmerges.length_le content hcontent)
  have hloaded := hmerged.loaded
  refine ⟨q, hrun, hloaded.options_eq, hloaded.active_first hleaves.olderFiles_eq, ?_,
    .inr hleaves.fileIds_eq, Option.isSome_iff_exists.2 ⟨_, hloaded.content _ List.mem_cons_self⟩,
    hleaves.others, ?_, ?_, hmerged.outcomes⟩
  · intro fid hfid
    rw [hleaves.olderFiles_eq] at hfid
    cases hfid
  · intro hint hhint
    obtain rfl := Option.some.inj (hleaves.hint.symm.trans hhint)
    exact DB.hintReads_hintRecords fun _ => DB.length_key_of_mem_copies
  · exact h.world.merge.congr (hleaves.lookup _ (DB.merge_ne _) (DB.merge_not_below _))

theorem AtFirst.merge {p : Proc ι} (h : AtFirst options p)
    (hvalid : DB.checkOptions options = .ok ()) (hmerges : p.MergesUnrotated options)
    (shouldMerge : Bool) (availableSize : ℕ) :
    AtFirst options (finalState ((DB.merge shouldMerge availableSize : DBM ι Unit).run p)) := by
  have hflag {p : Proc ι} (h : AtFirst options p) (merging : Bool) :
      AtFirst options { p with db := { p.db with isMerging := merging } } :=
    h.of_db rfl rfl rfl rfl rfl
  rw [DB.merge, bind_ok (proc_run p)]
  dsimp only
  split
  · exact h
  · split
    · exact h
    · rw [bind_ok (modifyDB_run _ p)]
      split
      · exact hflag h false
      · split
        · exact hflag h false
        · obtain ⟨q, hrun, hq⟩ := (hflag h true).mergeFiles hvalid
            ⟨hmerges.olderFiles_eq, hmerges.length_le, hmerges.hierarchical⟩
          rw [bind_ok (tryCatch_ok hrun)]
          exact hflag hq false

theorem Reached.valid {s : Session ι} (h : Reached options s) :
    DB.checkOptions options = .ok () := by
  induction h with
  | opened _ _ hopen => exact DB.checkOptions_of_open hopen
  | reopened _ _ _ hopen => exact DB.checkOptions_of_open hopen
  | restarted _ _ hopen => exact DB.checkOptions_of_open hopen
  | step _ _ ih => exact ih
  | merged _ _ _ _ ih => exact ih
  | backedUp _ _ _ ih => exact ih
  | elsewhere _ _ _ _ ih => exact ih

/-- In every state reached, the data are in the first file. -/
theorem Reached.atFirst {s : Session ι} (h : Reached options s) : AtFirst options s.proc := by
  induction h with
  | opened hfresh houtcomes hopen =>
    obtain ⟨db, w, hrun, hopened, -⟩ := hfresh.open_run (ι := ι)
    obtain ⟨rfl, rfl⟩ := EStateM.Result.ok.inj (hopen.symm.trans hrun)
    refine .of_opened hopened (.inl rfl) (fun _ _ => hfresh.file?_eq_none _) (fun content hhint => ?_)
      (.of_lookup hfresh.lookup_merge) houtcomes
    rw [hfresh.file?_eq_none] at hhint
    cases hhint
  | step op _ ih => exact ih.step op
  | reopened _ hclose hdir hopen ih =>
    obtain ⟨w, hrun, hsame⟩ := ih.close
    obtain ⟨-, rfl⟩ := EStateM.Result.ok.inj (hclose.symm.trans hrun)
    exact ((ih.world.of_sameData hsame).of_dirPath hdir).atFirst hopen
  | restarted _ hdir hopen ih => exact (ih.world.of_dirPath hdir).atFirst hopen
  | merged shouldMerge availableSize h hmerges ih =>
    exact ih.merge h.valid hmerges shouldMerge availableSize
  | backedUp _ hdir hbackup ih =>
    obtain ⟨-, rfl⟩ := EStateM.Result.ok.inj (hbackup.symm.trans (ih.backup_run hdir.ne))
    exact ⟨ih.options_eq, ih.active, ih.older, .inr rfl, ih.world.backedUp hdir.ne⟩
  | elsewhere _ hlookup hmerge houtcomes ih =>
    refine ⟨ih.options_eq, ih.active, ih.older, ih.fileIds, ?_⟩
    have hfile := fun name => @FS.file?_congr _ ⟨_, name⟩ _ hlookup
    exact ⟨(hfile _).symm ▸ ih.world.first, fun fid hne => (hfile _).trans (ih.world.others fid hne),
      fun content hcontent => ih.world.hint content ((hfile _).symm.trans hcontent), hmerge,
      fun c => by rw [houtcomes, ih.world.outcomes]⟩

end Reached

/-! ## Opening the copy -/

namespace DB

/-- What is in a directory already does not get in the way of a backup: nothing is read from
    the data files that are found there next to the first one, the hint file can be read, unless
    the database has one itself, and there is no finished merge. -/
structure Harmless (fs : FS) (dirPath dir : Path) : Prop where
  unread : ∀ fid ≠ 0, Found (fun g => g = 0 || hasDataFile fs dir g) fid →
    ∀ content, fs.file? (getDataFileName dir fid) = some content → readsOf content = []
  hint : fs.file? ⟨dirPath, .hintIndex⟩ = none → HintFits fs dir
  merge : NoMerge fs dir

/-- If the first data file is there, it is found, in front of others. -/
theorem findDataFiles_cons {fs : FS} {dirPath : Path} (h : hasDataFile fs dirPath 0 = true) :
    ∃ fids, findDataFiles fs dirPath = 0 :: fids ∧ 0 ∉ fids := by
  have hmem : 0 ∈ findDataFiles fs dirPath := (mem_findDataFiles_iff fs dirPath 0).2
    ⟨by decide, h, fun start hstart => by simp [maxConsecutiveMissing] at hstart⟩
  have hsorted := sorted_findDataFiles fs dirPath
  rcases hids : findDataFiles fs dirPath with _ | ⟨fid, fids⟩
  · rw [hids] at hmem
    cases hmem
  · rw [hids] at hmem hsorted
    rw [List.pairwise_cons] at hsorted
    have hfid : fid = 0 := by
      rcases List.mem_cons.1 hmem with heq | htail
      · exact heq.symm
      · exact absurd (hsorted.1 0 htail) (Nat.not_lt_zero fid)
    subst hfid
    exact ⟨fids, rfl, fun h0 => Nat.lt_irrefl 0 (hsorted.1 0 h0)⟩

/-- The copy has the values of the file that has been copied. -/
theorem valueIn_filesIn_backedUp {options : Options} {w : World} {dir : Path} {content : Bytes}
    (hcontent : w.fs.file? (getDataFileName options.dirPath 0) = some content)
    (h : Harmless w.fs options.dirPath dir) :
    valueIn (filesIn { options with dirPath := dir } (w.backedUp options.dirPath dir).fs) =
      valueIn [(0, loadingContent options content)] := by
  set fs := (w.backedUp options.dirPath dir).fs with hfs
  have hfirst : fs.file? (getDataFileName dir 0) = some content :=
    World.backedUp_file?_first hcontent
  have hother {fid : ℕ} (hne : fid ≠ 0) :
      fs.file? (getDataFileName dir fid) = w.fs.file? (getDataFileName dir fid) :=
    World.backedUp_file?_of_ne (by simpa using hne) (by simp) (by simp)
  have hhas : hasDataFile fs dir = fun g => g = 0 || hasDataFile w.fs dir g := by
    funext g
    by_cases hg : g = 0
    · rw [hg, hasDataFile, FS.fileExists, hfirst]
      rfl
    · rw [hasDataFile, FS.fileExists, hother hg, decide_eq_false hg]
      rfl
  have hcopied : hasDataFile fs dir 0 = true := by
    rw [hhas]
    rfl
  obtain ⟨fids, hfids, h0⟩ := findDataFiles_cons hcopied
  rw [filesIn, hfids, List.map_cons, hfirst, Option.getD_some]
  refine valueIn_append_of_unread [(0, loadingContent options content)] fun x hx => ?_
  obtain ⟨fid, hfid, rfl⟩ := List.mem_map.1 hx
  have hne : fid ≠ 0 := fun heq => h0 (heq ▸ hfid)
  have hfound := (mem_findDataFiles_iff fs dir fid).1 (hfids ▸ List.mem_cons_of_mem _ hfid)
  obtain ⟨c, hc⟩ := FS.fileExists_iff.1 hfound.isFile
  rw [readsOf_loadingContent, hc, Option.getD_some]
  exact h.unread fid hne (hhas ▸ hfound) c ((hother hne).symm.trans hc)

variable [Indexer ι]

/-- A database whose only file is the first one is opened with the values in it. -/
theorem openedAs_first {options : Options} {w : World} {content : Bytes}
    (hvalid : checkOptions options = .ok ()) (h : OneDataFile options w)
    (hcontent : w.fs.file? (getDataFileName options.dirPath 0) = some content) :
    openedAs ι options w = some (valueIn [(0, loadingContent options content)]) := by
  classical
  have hfiles : filesIn options w.fs = [(0, loadingContent options content)] := by
    rw [filesIn, findDataFiles_eq_first hcontent h.others, List.map_singleton, hcontent]
    rfl
  rw [openedAs_eq hvalid h.merge fun _ => h.outcomes _, if_pos fun _ => h.hint, hfiles]

theorem openedAs_backedUp {options : Options} {w : World} {dir : Path} {content : Bytes}
    (hvalid : checkOptions { options with dirPath := dir } = .ok ())
    (h : OneDataFile options w)
    (hcontent : w.fs.file? (getDataFileName options.dirPath 0) = some content)
    (hleft : Harmless w.fs options.dirPath dir) :
    openedAs ι { options with dirPath := dir } (w.backedUp options.dirPath dir) =
      some (valueIn [(0, loadingContent options content)]) := by
  classical
  have hmerge : NoMerge (w.backedUp options.dirPath dir).fs dir :=
    hleft.merge.congr (World.backedUp_lookup_of_ne (merge_ne dir))
  have hfits : HintFits (w.backedUp options.dirPath dir).fs dir := by
    intro hint hhint
    rw [World.backedUp_file?_hint] at hhint
    cases hsource : w.fs.file? ⟨options.dirPath, .hintIndex⟩ with
    | none =>
      rw [hsource, Option.none_or] at hhint
      exact hleft.hint hsource hint hhint
    | some content =>
      rw [hsource, Option.some_or] at hhint
      exact h.hint hint (hsource.trans hhint)
  have hopen : World.OpensOk dir (w.backedUp options.dirPath dir) := fun name => by
    rw [World.backedUp_outcomes, h.outcomes]
  rw [openedAs_eq hvalid hmerge hopen, if_pos fun _ => hfits,
    valueIn_filesIn_backedUp hcontent hleft]

end DB

variable [Indexer ι]

/-- After a backup, the copy is opened with the contents that the database has when it is
    closed and opened again. -/
def Proc.BackupRestores (p : Proc ι) (dir : Path) : Prop :=
  ∃ q r, (DB.backup dir : DBM ι Unit).run p = .ok () q ∧ DB.close.run q = .ok () r ∧
    ∃ values, DB.openedAs ι p.db.options r.world = some values ∧
      DB.openedAs ι { p.db.options with dirPath := dir } q.world = some values

/-- A data file of another database is in the target of a backup. -/
def besides (fid : ℕ) : World where
  fs := (∅ : FS).insert ['b'] ((∅ : Dir).insert (.data fid) (encodeAll [⟨[97], [50], .normal⟩]))

theorem fresh_besides (fid : ℕ) : Fresh ⟨['d'], 100, false⟩ (besides fid) := by
  refine ⟨rfl, fun dir hdir => AList.lookup_insert_ne ?_, fun _ => rfl⟩
  rintro rfl
  exact absurd hdir (by decide)

/-- Whether a key is read otherwise in the copy. -/
def Proc.copyReadsOtherwise (p : Proc ι) (dir : Path) (key : Bytes) : Bool :=
  match (DB.backup dir : DBM ι Unit).run p with
  | .ok _ q =>
    match (DB.close : DBM ι Unit).run q with
    | .ok _ r =>
      match DB.openedAs ι p.db.options r.world,
        DB.openedAs ι { p.db.options with dirPath := dir } q.world with
      | some values, some values' => values key ≠ values' key
      | _, _ => true
    | .error _ _ => true
  | .error _ _ => true

theorem Proc.not_backupRestores {p : Proc ι} {dir : Path} {key : Bytes}
    (h : p.copyReadsOtherwise dir key = true) : ¬p.BackupRestores dir := by
  rintro ⟨q, r, hbackup, hclose, values, hsource, hcopy⟩
  simp [copyReadsOtherwise, hbackup, hclose, hsource, hcopy] at h

end Bitcask
