import Bitcask.Locality

/-!
# The end of the process

A database is closed by its destructor, also when it cannot be opened. An exception in there
ends the process. This does not happen as long as the calls made to close the database do not
fail (`World.Closable`): then what opening a database throws can be caught
(`DB.open_ne_terminated`). All other parts of a merge throw what can be caught, whatever fails
(`DB.catchable_rotateMergeFiles`, `DB.catchable_writeCopies`).
-/

namespace Bitcask

open FuelLoop DataFile DBM Sys Guarantee

/-! ## Closing without a failing call -/

/-- No call fails that is made to close a database in a directory. -/
structure World.Closable (dir : Path) (w : World) : Prop where
  first : .fail ∉ w.outcomes (.open (getDataFileName dir 0))
  seqNo : .fail ∉ w.outcomes (.open ⟨dir, .seqNo⟩)
  write : .fail ∉ w.outcomes (.write ⟨dir, .seqNo⟩)

namespace World.Closable

variable {dir : Path} {w : World}

theorem of_outcomes (h : w.Closable dir) {w' : World}
    (hsub : ∀ c, w'.outcomes c ⊆ w.outcomes c) : w'.Closable dir :=
  ⟨fun hc => h.first (hsub _ hc), fun hc => h.seqNo (hsub _ hc), fun hc => h.write (hsub _ hc)⟩

theorem next (h : w.Closable dir) (c : Call) : (w.next c).2.Closable dir := by
  refine h.of_outcomes fun c' => ?_
  by_cases hc : c' = c
  · rw [hc, next_outcomes_self]
    exact List.tail_subset _
  · rw [next_outcomes_of_ne w hc]
    exact List.Subset.refl _

/-- Only the outcomes of calls matter. -/
theorem indifferent (d dir : Path) : Indifferent d (Closable dir) where
  change _ _ _ _ hw := hw.of_outcomes fun _ => List.Subset.refl _
  next _ c hw := hw.next c
  draw _ hw := hw.of_outcomes fun _ => List.Subset.refl _

/-- A call whose outcomes hold no failure does not fail. -/
theorem call_returns {c : Call} (hc : ∀ w : World, w.Closable dir → .fail ∉ w.outcomes c) :
    Returns (Closable dir) (call c) fun outcome => outcome ≠ .fail := by
  intro w hw
  refine ⟨_, _, call_run c w, hw.next c, ?_⟩
  rw [next_fst]
  cases houtcomes : w.outcomes c with
  | nil => exact nofun
  | cons outcome _ =>
    rintro rfl
    exact hc w hw (houtcomes ▸ List.mem_cons_self)

theorem createIOManager_returns {path : FilePath}
    (hc : ∀ w : World, w.Closable dir → .fail ∉ w.outcomes (.open path)) :
    Returns (Closable dir) (createIOManager path .standardFio) fun _ => True := by
  have hensure : Returns (Closable dir) (ensureDirectory path.dir) fun _ => True := fun w hw =>
    ⟨_, _, ensureDirectory_run path.dir w, hw.of_outcomes (by simp), trivial⟩
  refine hensure.bind fun _ _ => (call_returns hc).bind fun outcome houtcome => ?_
  split
  · exact absurd rfl houtcome
  · exact fun w hw => ⟨_, _, touch_run path w, hw.of_outcomes (by simp), trivial⟩

/-- The file of sequence numbers is opened and written. -/
theorem openSeqNoFile_returns : Returns (Closable dir) (openSeqNoFile dir) fun file =>
    file.path = ⟨dir, .seqNo⟩ := by
  have hfirst : Returns (Closable dir) (openDataFile dir 0 .standardFio) fun _ => True :=
    (createIOManager_returns fun _ hw => hw.first).bind fun _ _ => Returns.pure trivial
  exact hfirst.bind fun _ _ => (createIOManager_returns fun _ hw => hw.seqNo).bind fun _ _ =>
    Returns.pure rfl

theorem write_returns {file : DataFile} (hpath : file.path = ⟨dir, .seqNo⟩) (data : Bytes) :
    Returns (Closable dir) (file.write data) fun _ => True := by
  have hchange (f : FS → FS) : Returns (Closable dir) (Sys.change f) fun _ => True :=
    fun w hw => ⟨⟨⟩, _, rfl, hw.of_outcomes fun _ => List.Subset.refl _, trivial⟩
  refine (call_returns fun w hw => hpath ▸ hw.write).bind fun outcome houtcome => ?_
  split
  · exact absurd rfl houtcome
  · exact (hchange _).bind fun _ _ => Returns.pure trivial
  · exact (hchange _).bind fun _ _ => Returns.pure trivial

end World.Closable

namespace DB

variable {ι α : Type} {dir : Path}

theorem close_returns {db : DB ι} {w : World} (hdir : db.options.dirPath = dir)
    (hw : w.Closable dir) : ∃ q, (close : DBM ι Unit).run ⟨db, w⟩ = .ok () q := by
  obtain ⟨file, w₁, hopen, hw₁, hpath⟩ := World.Closable.openSeqNoFile_returns w hw
  obtain ⟨_, w₂, hwrite, -, -⟩ := World.Closable.write_returns hpath
    (LogRecord.encode { key := seqNoKey, value := decimal db.seqNo }) w₁ hw₁
  subst hdir
  rw [close, bind_ok (proc_run _)]
  show ∃ q, ((liftM (openSeqNoFile db.options.dirPath) : DBM ι _) >>= fun _ => _).run ⟨db, w⟩ = _
  rw [bind_ok (lift_ok (p := ⟨db, w⟩) hopen), bind_ok (lift_ok (p := ⟨db, w₁⟩) hwrite)]
  split
  · exact ⟨_, rfl⟩
  · exact ⟨_, rfl⟩

/-- Destroying a database does not end the process. -/
theorem destroy_returns {db : DB ι} {w : World} (hdir : db.options.dirPath = dir)
    (hw : w.Closable dir) : exn? ((destroy db).run w) = none := by
  obtain ⟨q, hrun⟩ := close_returns hdir hw
  show exn? (destroy db w) = none
  unfold destroy
  rw [hrun]
  rfl

/-! ## What is thrown -/

/-- Only exceptions are thrown that can be caught. -/
abbrev Catchable {σ : Type} (m : EStateM Exn σ α) : Prop := Throws (· ≠ .terminated) m

/-- What is thrown by one of two computations in a row. -/
theorem bind_eq_error {β : Type} {x : Except Exn α} {f : α → Except Exn β} {e : Exn}
    (h : (x >>= f) = .error e) : x = .error e ∨ ∃ a, x = .ok a ∧ f a = .error e := by
  cases x with
  | ok a => exact .inr ⟨a, rfl, h⟩
  | error e' =>
    cases h
    exact .inl rfl

theorem decodeVarint_ne_terminated {data : Bytes} {e : Exn} (h : decodeVarint data = .error e) :
    e ≠ .terminated := by
  have hloop (data : Bytes) (result shift pos : ℕ)
      (h : decodeVarintLoop result shift pos data = .error e) : e ≠ .terminated := by
    induction data generalizing result shift pos with
    | nil =>
      cases h
      simp
    | cons byte data ih =>
      rw [decodeVarintLoop] at h
      split at h
      · cases h
      · split at h
        · cases h
          simp
        · exact ih _ _ _ h
  unfold decodeVarint at h
  split at h
  · cases h
    simp
  · exact hloop _ _ _ _ h

theorem decode_ne_terminated {data : Bytes} {e : Exn} (h : LogRecordPos.decode data = .error e) :
    e ≠ .terminated := by
  unfold LogRecordPos.decode at h
  rcases bind_eq_error h with h | ⟨_, -, h⟩
  · exact decodeVarint_ne_terminated h
  · rcases bind_eq_error h with h | ⟨_, -, h⟩
    · exact decodeVarint_ne_terminated h
    · rcases bind_eq_error h with h | ⟨_, -, h⟩
      · exact decodeVarint_ne_terminated h
      · cases h

theorem readLogRecord_ne_terminated {content : Bytes} {offset : ℕ} {e : Exn}
    (h : readLogRecord content offset = .error e) : e ≠ .terminated := by
  have hread {n o : ℕ} {e : Exn} (h : readNBytes content n o = .error e) : e ≠ .terminated := by
    unfold readNBytes at h
    split at h
    · cases h
    · split at h
      · cases h
        exact nofun
      · cases h
  have hdecode {data : Bytes} {e : Exn} (h : decodeLogRecordHeader data = .error e) :
      e ≠ .terminated := by
    unfold decodeLogRecordHeader at h
    split at h
    · cases h
      exact nofun
    · rcases bind_eq_error h with h | ⟨_, -, h⟩
      · exact decodeVarint_ne_terminated h
      · rcases bind_eq_error h with h | ⟨_, -, h⟩
        · exact decodeVarint_ne_terminated h
        · cases h
  have hheader {e : Exn} (h : readLogRecordHeader content offset = .error e) :
      e ≠ .terminated := by
    unfold readLogRecordHeader at h
    split at h
    · cases h
      exact nofun
    · dsimp only at h
      split at h
      · cases h
        exact nofun
      · rcases bind_eq_error h with h | ⟨_, -, h⟩
        · exact hread h
        · rcases bind_eq_error h with h | ⟨_, -, h⟩
          · exact hdecode h
          · split at h
            on_goal 2 => split at h
            on_goal 3 => split at h
            all_goals
              cases h
            all_goals exact nofun
  unfold readLogRecord at h
  rcases bind_eq_error h with h | ⟨_, -, h⟩
  · exact hheader h
  · rcases bind_eq_error h with h | ⟨_, -, h⟩
    · exact hread h
    · dsimp only at h
      split at h
      · cases h
      · cases h
        exact nofun

/-! ### System calls -/

section Sys

theorem catchable_change (f : FS → FS) : Catchable (Sys.change f) := .of_ok fun _ => ⟨⟨⟩, _, rfl⟩

theorem catchable_call (c : Call) : Catchable (call c) := .modifyGet

theorem catchable_createIOManager (path : FilePath) (ioType : IOType) :
    Catchable (createIOManager path ioType) := by
  have htouch : Catchable (touch path) := .of_ok fun w => ⟨_, _, touch_run path w⟩
  cases ioType with
  | standardFio =>
    refine Throws.bind (.of_ok fun w => ⟨_, _, ensureDirectory_run path.dir w⟩) fun _ =>
      (catchable_call _).bind fun outcome => ?_
    split
    · exact .throw nofun
    · exact htouch
  | memoryMap =>
    refine (catchable_call _).bind fun outcome => ?_
    split
    · exact .throw nofun
    · refine htouch.bind fun _ => Throws.get.bind fun w => ?_
      split
      · exact catchable_change _
      · exact .pure

theorem catchable_write (file : DataFile) (data : Bytes) : Catchable (file.write data) := by
  refine (catchable_call _).bind fun outcome => ?_
  split
  · exact .throw nofun
  · exact (catchable_change _).bind fun _ => .pure
  · exact (catchable_change _).bind fun _ => .pure

theorem catchable_openDataFile (dirPath : Path) (fileId : ℕ) (ioType : IOType) :
    Catchable (openDataFile dirPath fileId ioType) :=
  (catchable_createIOManager _ ioType).bind fun _ => .pure

theorem catchable_openAuxFile (dirPath : Path) (name : FileName) :
    Catchable (openAuxFile dirPath name) :=
  (catchable_openDataFile dirPath 0 .standardFio).bind fun _ =>
    (catchable_createIOManager _ .standardFio).bind fun _ => .pure

theorem catchable_setIOManager (file : DataFile) (dirPath : Path) (ioType : IOType) :
    Catchable (file.setIOManager dirPath ioType) :=
  (catchable_createIOManager _ ioType).bind fun _ => .pure

theorem catchable_copyFile (src dst : FilePath) : Catchable (copyFile src dst) := by
  have hchunks (content : Bytes) (n chunks : ℕ) : Catchable (writeChunks dst content n chunks) := by
    induction n generalizing chunks with
    | zero => exact .pure
    | succ n ih =>
      refine (catchable_call _).bind fun outcome => ?_
      split
      · exact (catchable_change _).bind fun _ => ih _
      · exact .throw nofun
      · exact (catchable_change _).bind fun _ => .throw nofun
  refine Throws.get.bind fun w => ?_
  split
  · exact .throw nofun
  · refine (catchable_call _).bind fun outcome => ?_
    split
    · exact .throw nofun
    · exact (catchable_change _).bind fun _ => Throws.get.bind fun _ => hchunks _ _ _

theorem catchable_copyDirectory (src dst : Path) (exclude : FileName) (names : List FileName) :
    Catchable (copyDirectory src dst exclude names) := by
  induction names with
  | nil => exact .pure
  | cons name rest ih =>
    unfold copyDirectory
    split
    · exact (catchable_copyFile _ _).bind fun _ => ih
    · exact ih

theorem catchable_openMergeFiles (dirPath : Path) (fids : List ℕ) :
    Catchable (openMergeFiles dirPath fids) := by
  induction fids with
  | nil => exact .pure
  | cons fid rest ih =>
    exact (catchable_openDataFile _ _ _).bind fun _ => ih.bind fun _ => .pure

theorem catchable_writeMergeFinished (mergePath : Path) (nonMergeFileId : ℕ) :
    Catchable (writeMergeFinished mergePath nonMergeFileId) :=
  (catchable_openAuxFile _ _).bind fun file => (catchable_write file _).bind fun _ => .pure

end Sys

/-! ### Computations of a database -/

/-- What a system call throws is thrown on. -/
theorem catchable_sys {m : Sys α} (hm : Catchable m) : Catchable (sys m : DBM ι α) := by
  intro p e q hrun
  rw [show sys m = (liftM m : DBM ι α) from rfl] at hrun
  cases hw : m.run p.world with
  | ok a w => cases (lift_ok hw).symm.trans hrun
  | error e' w =>
    cases (lift_error hw).symm.trans hrun
    exact hm _ _ _ hw

theorem catchable_proc : Catchable (proc : DBM ι _) := Throws.get

theorem catchable_modifyDB (f : DB ι → DB ι) : Catchable (modifyDB f) :=
  .of_ok fun p => ⟨_, _, modifyDB_run f p⟩

theorem catchable_setActiveDataFile : Catchable (setActiveDataFile : DBM ι Unit) :=
  catchable_proc.bind fun _ => (catchable_sys (catchable_openDataFile _ _ _)).bind fun _ =>
    catchable_modifyDB _

theorem catchable_close : Catchable (close : DBM ι Unit) := by
  refine catchable_proc.bind fun p => (catchable_sys (catchable_openAuxFile _ _)).bind fun file =>
    (catchable_sys (catchable_write file _)).bind fun _ => ?_
  split
  · exact catchable_modifyDB _
  · exact .pure

theorem catchable_loadDataFiles : Catchable (loadDataFiles : DBM ι Unit) := by
  have hopen (fileIds : List ℕ) : Catchable (openDataFiles fileIds : DBM ι Unit) := by
    induction fileIds with
    | nil => exact .pure
    | cons fid rest ih =>
      refine catchable_proc.bind fun p =>
        (catchable_sys (catchable_openDataFile _ _ _)).bind fun file => ?_
      dsimp only
      split
      · exact (catchable_modifyDB _).bind fun _ => ih
      · exact (catchable_modifyDB _).bind fun _ => ih
  refine catchable_proc.bind fun p => ?_
  dsimp only
  refine (catchable_modifyDB _).bind fun _ => ?_
  split
  · split
    · exact catchable_setActiveDataFile
    · exact .pure
  · exact hopen _

theorem catchable_loadMergeFiles : Catchable (loadMergeFiles : DBM ι Unit) := by
  refine catchable_proc.bind fun p => ?_
  dsimp only
  refine (catchable_sys (Throws.get.bind fun _ => .pure)).bind fun found => ?_
  split
  · refine (catchable_sys (Throws.get.bind fun _ => .pure)).bind fun finished => ?_
    split
    · exact catchable_proc.bind fun _ => (catchable_sys (catchable_copyDirectory _ _ _ _)).bind
        fun _ => catchable_sys (show Catchable (removeDirectory _) from catchable_change _)
    · exact .pure
  · exact .pure

theorem catchable_resetIOType : Catchable (resetIOType : DBM ι Unit) := by
  refine catchable_proc.bind fun p => catchable_proc.bind fun q => ?_
  dsimp only
  split
  on_goal 1 =>
    refine (catchable_sys (catchable_setIOManager _ _ _)).bind fun file =>
      (catchable_modifyDB _).bind fun _ => ?_
  -- The loop over the older files, with and without an active file before it.
  all_goals
    refine catchable_proc.bind fun _ => Throws.bind (Throws.forIn fun fid _ => ?_) fun _ => .pure
    refine catchable_proc.bind fun r => ?_
    split
    · exact (catchable_sys (catchable_setIOManager _ _ _)).bind fun file =>
        (catchable_modifyDB _).bind fun _ => .pure
    · exact .pure

theorem catchable_rotateMergeFiles : Catchable (rotateMergeFiles : DBM ι (List DataFile)) := by
  refine catchable_proc.bind fun p => ?_
  dsimp only
  split
  · exact (catchable_modifyDB _).bind fun _ => catchable_setActiveDataFile.bind fun _ =>
      catchable_sys (catchable_openMergeFiles _ _)
  · exact catchable_sys (catchable_openMergeFiles _ _)

variable [Indexer ι]

theorem hintPass_ne_terminated {content : Bytes} {fuel : ℕ} {start : ℕ × ι} {r : Option Exn × ι}
    (h : loop (hintPass content) fuel start = some r) {e : Exn} (he : r.1 = some e) :
    e ≠ .terminated := by
  refine loop_inv (I := fun _ => True) (Q := fun r => ∀ e, r.1 = some e → e ≠ .terminated)
    (fun _ _ _ _ => trivial) (fun x r _ hpass e he => ?_) trivial h e he
  rcases x with ⟨offset, index⟩
  rw [hintPass] at hpass
  cases hread : readLogRecord content offset with
  | ok read =>
    rw [hread] at hpass
    dsimp only at hpass
    cases hdecode : LogRecordPos.decode read.record.value with
    | ok pos =>
      rw [hdecode] at hpass
      cases hpass
    | error e' =>
      rw [hdecode] at hpass
      cases hpass
      cases he
      exact decode_ne_terminated hdecode
  | error e' =>
    rw [hread] at hpass
    by_cases heof : e' = .readDataFileEOF
    · subst heof
      cases hpass
      cases he
    · have hr : r = (some e', index) := by
        cases e' <;> first | exact (Pass.done.inj hpass).symm | exact absurd rfl heof
      subst hr
      cases he
      exact readLogRecord_ne_terminated hread

theorem catchable_loadIndexFromHintFile : Catchable (loadIndexFromHintFile : DBM ι Unit) := by
  refine catchable_proc.bind fun p => ?_
  dsimp only
  refine (catchable_sys (Throws.get.bind fun _ => .pure)).bind fun found => ?_
  split
  · refine (catchable_sys (catchable_openAuxFile _ _)).bind fun file =>
      catchable_proc.bind fun q => catchable_proc.bind fun r => ?_
    refine (catchable_modifyDB _).bind fun _ => ?_
    split
    · rename_i e heq
      refine .throw ?_
      cases hloop : loop (hintPass (file.content q.world.fs))
          ((file.content q.world.fs).length + 1) (0, r.db.index) with
      | none =>
        rw [hloop] at heq
        cases heq
      | some x =>
        rw [hloop] at heq
        exact hintPass_ne_terminated hloop heq
    · exact .pure
  · exact .pure

theorem catchable_loadIndexFromDataFiles : Catchable (loadIndexFromDataFiles : DBM ι Unit) := by
  refine catchable_proc.bind fun p => ?_
  dsimp only
  split
  · exact .pure
  · refine Throws.bind (.of_ok fun p => ⟨_, _, createIndexer_run p⟩) fun index =>
      (catchable_sys (.of_ok fun w => ⟨_, _, removeIfExists_run _ w⟩)).bind fun _ =>
        catchable_proc.bind fun _ => catchable_modifyDB _

theorem catchable_init : Catchable (init : DBM ι Unit) := by
  have hdirectory : Catchable (initDirectory : DBM ι Unit) :=
    catchable_proc.bind fun p => (catchable_sys (Throws.get.bind fun _ => .pure)).bind fun _ =>
      (catchable_sys (.of_ok fun w => ⟨_, _, ensureDirectory_run _ w⟩)).bind fun _ =>
        (catchable_sys (.of_ok fun w => ⟨_, _, touch_run _ w⟩)).bind fun _ =>
          catchable_proc.bind fun _ => catchable_modifyDB _
  have hload : Catchable (load : DBM ι Unit) := by
    refine catchable_loadDataFiles.bind fun _ => catchable_proc.bind fun _ =>
      catchable_proc.bind fun _ => ?_
    split
    · refine catchable_loadIndexFromHintFile.bind fun _ =>
        catchable_loadIndexFromDataFiles.bind fun _ => catchable_proc.bind fun _ => ?_
      split
      · exact catchable_resetIOType
      · exact .pure
    · exact .pure
  exact hdirectory.bind fun _ => Throws.bind (.of_ok fun p => ⟨_, _, createIndexer_run p⟩) fun _ =>
    (catchable_modifyDB _).bind fun _ => catchable_loadMergeFiles.bind fun _ => hload

/-- Opening a database does not end the process. -/
theorem open_ne_terminated {options : Options} {w w' : World} {e : Exn}
    (hw : w.Closable options.dirPath)
    (h : («open» options : Sys (DB ι)).run w = .error e w') : e ≠ .terminated := by
  cases hvalid : checkOptions options with
  | error e' =>
    rw [open_of_invalid hvalid] at h
    cases h
    unfold checkOptions at hvalid
    split at hvalid
    on_goal 2 => split at hvalid
    all_goals cases hvalid
    all_goals exact nofun
  | ok _ =>
    cases hrun : (init : DBM ι Unit).run ⟨{ options := options, index := Indexer.create 0 }, w⟩ with
    | ok _ p => cases (open_of_ok hvalid hrun).symm.trans h
    | error e' p =>
      have hstart : Proc.InDir options.dirPath (World.Closable options.dirPath)
          ⟨{ options := options, index := (Indexer.create 0 : ι) }, w⟩ := ⟨rfl, nofun, nofun, hw⟩
      have hp := (init_inDir (World.Closable.indifferent _ _) _ hstart).1
      rw [hrun, finalState_error] at hp
      rw [open_of_error hvalid hrun, destroy_returns hp.dirPath hp.holds] at h
      cases h
      exact catchable_init _ _ _ hrun

/-! ### Merges -/

omit [Indexer ι] in
theorem rotateMergeFiles_closable : Keeps (fun p : Proc ι => p.world.Closable dir)
    (rotateMergeFiles : DBM ι (List DataFile)) fun _ => True := by
  have hsys {α : Type} {m : Sys α} (hm : Keeps (World.Closable dir) m fun _ => True) :
      Keeps (fun p : Proc ι => p.world.Closable dir) (sys m : DBM ι α) fun _ => True :=
    sys_keeps (fun _ hp => hp) (fun _ _ _ hw => hw) hm
  have hmodify (f : DB ι → DB ι) :
      Keeps (fun p : Proc ι => p.world.Closable dir) (modifyDB f) fun _ => True :=
    Keeps.modify fun _ hp => hp
  have hopen (dirPath : Path) (fileId : ℕ) :
      Keeps (World.Closable dir) (openDataFile dirPath fileId .standardFio) fun _ => True :=
    ((World.Closable.indifferent dirPath dir).openDataFile_keeps fileId _).mono fun _ _ => trivial
  have hfiles (dirPath : Path) (fids : List ℕ) :
      Keeps (World.Closable dir) (openMergeFiles dirPath fids) fun _ => True := by
    induction fids with
    | nil => exact Keeps.pure trivial
    | cons fid rest ih => exact (hopen _ _).bind fun _ _ => ih.bind fun _ _ => Keeps.pure trivial
  have hactive : Keeps (fun p : Proc ι => p.world.Closable dir)
      (setActiveDataFile : DBM ι Unit) fun _ => True :=
    Keeps.get.bind fun _ _ => (hsys (hopen _ _)).bind fun _ _ => hmodify _
  refine Keeps.get.bind fun p _ => ?_
  dsimp only
  split
  · exact (hmodify _).bind fun _ _ => hactive.bind fun _ _ => hsys (hfiles _ _)
  · exact hsys (hfiles _ _)

theorem catchable_writeCopies (mergePath : Path) (files : List DataFile) (mergeDb : DB ι) :
    Catchable (writeCopies mergePath files mergeDb : DBM ι Unit) := by
  refine (catchable_sys (catchable_openAuxFile _ _)).bind fun file => catchable_proc.bind fun p => ?_
  dsimp only
  refine Throws.bind Throws.set fun _ => (catchable_sys (catchable_writeMergeFinished _ _)).bind
    fun _ => ?_
  generalize (mergeScan _ _ _).mergeDb = other
  intro q e r hrun
  have hother : onOther other close q = .error e r := hrun
  unfold onOther at hother
  cases hclose : (close : DBM ι Unit).run ⟨other, q.world⟩ with
  | ok _ t =>
    rw [hclose] at hother
    cases hother
  | error e' t =>
    rw [hclose] at hother
    cases hother
    exact catchable_close _ _ _ hclose

end DB

end Bitcask
