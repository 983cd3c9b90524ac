import Bitcask.Merge

/-!
# What is done in a directory

A property of the world is indifferent to a directory if it stays when the files in the
directory or below it change, when calls are made and when random values are drawn
(`World.Indifferent`). A database makes its changes in its own directory: opening it
(`DB.open_inDir`), appending records to it and closing it keep every property that is
indifferent to that directory, whether they return or throw.
-/

namespace Bitcask

open DataFile DBM Sys Guarantee

/-- A property that stays, whatever happens in a directory and below it, as long as nothing
    is below the directory when it is missing. -/
structure World.Indifferent (dir : Path) (J : World → Prop) : Prop where
  change : ∀ w fs, (∀ d, FS.below dir d = false → fs.lookup d = w.fs.lookup d) →
    (w.fs.Hierarchical dir → fs.Hierarchical dir) → J w → J (w.change fs)
  next : ∀ w c, J w → J (w.next c).2
  draw : ∀ w, J w → J { w with seeds := w.seeds + 1 }

theorem World.Indifferent.and {dir : Path} {J J' : World → Prop} (h : Indifferent dir J)
    (h' : Indifferent dir J') : Indifferent dir fun w => J w ∧ J' w where
  change w fs hfs hdirs hw := ⟨h.change w fs hfs hdirs hw.1, h'.change w fs hfs hdirs hw.2⟩
  next w c hw := ⟨h.next w c hw.1, h'.next w c hw.2⟩
  draw w hw := ⟨h.draw w hw.1, h'.draw w hw.2⟩

/-- No call will fail. -/
def World.Unfailing (w : World) : Prop := ∀ c, w.outcomes c = []

theorem World.indifferent_unfailing (dir : Path) : Indifferent dir Unfailing where
  change _ _ _ _ hw := hw
  next w c hw := by rwa [World.next_of_nil (hw c)]
  draw _ hw := hw

/-- Outside of a directory nothing has changed, at no moment. -/
def World.Untouched (dir : Path) (w : World) : World → Prop :=
  w.Passes fun fs => (∀ d, FS.below dir d = false → fs.lookup d = w.fs.lookup d) ∧
    (w.fs.Hierarchical dir → fs.Hierarchical dir)

theorem World.untouched_self (dir : Path) (w : World) : w.Untouched dir w :=
  passes_self ⟨fun _ _ => rfl, id⟩

theorem World.indifferent_untouched (dir : Path) (w : World) :
    Indifferent dir (w.Untouched dir) where
  change _ _ hfs hdirs h := Passes.change h
    ⟨fun d hd => (hfs d hd).trans (h.last.1 d hd), fun hw => hdirs (h.last.2 hw)⟩
  next w' c h := Passes.congr h (next_fs w' c) (next_trace w' c)
  draw _ h := Passes.congr h rfl rfl

/-! ## System calls -/

namespace World.Indifferent

variable {dir : Path} {J : World → Prop} (hJ : Indifferent dir J)
include hJ

theorem change_keeps {f : FS → FS}
    (hf : ∀ fs d, FS.below dir d = false → (f fs).lookup d = fs.lookup d)
    (hdirs : ∀ fs, fs.Hierarchical dir → (f fs).Hierarchical dir) :
    Keeps J (Sys.change f) fun _ => True :=
  Keeps.modify fun w hw => hJ.change w _ (hf w.fs) (hdirs w.fs) hw

theorem call_keeps (c : Call) : Keeps J (call c) fun _ => True :=
  fun w hw => ⟨hJ.next w c hw, fun _ _ _ => trivial⟩

omit hJ in
/-- Looking at the world changes nothing. -/
theorem read_keeps {α : Type} (f : World → α) :
    Keeps J (return f (← get) : Sys α) fun _ => True :=
  fun _ hw => ⟨hw, fun _ _ _ => trivial⟩

section File

variable {path : FilePath} (hpath : FS.below dir path.dir = true)
include hpath

theorem store_keeps (f : FS → Bytes) :
    Keeps J (Sys.change fun fs => fs.store path (f fs)) fun _ => True :=
  hJ.change_keeps (fun _ _ hd => FS.lookup_store_of_ne (FS.ne_of_not_below hpath hd))
    fun _ h => h.of_directoryExists fun _ => FS.directoryExists_store

theorem touch_keeps : Keeps J (touch path) fun _ => True := by
  intro w hw
  rw [touch_run]
  refine ⟨?_, fun _ _ _ => trivial⟩
  show J (w.withFile path)
  unfold withFile
  split
  · exact hw
  · exact hJ.change w _ (fun _ hd => FS.lookup_store_of_ne (FS.ne_of_not_below hpath hd))
      (fun h => h.of_directoryExists fun _ => FS.directoryExists_store) hw

theorem removeIfExists_keeps : Keeps J (removeIfExists path) fun _ => True := by
  intro w hw
  rw [removeIfExists_run]
  refine ⟨?_, fun _ _ _ => trivial⟩
  show J (w.withoutFile path)
  unfold withoutFile
  split
  · exact hJ.change w _ (fun _ hd => FS.lookup_remove_of_ne (FS.ne_of_not_below hpath hd))
      (fun h => h.of_directoryExists fun _ => FS.directoryExists_remove) hw
  · exact hw

theorem writeChunks_keeps (content : Bytes) (n offset : ℕ) :
    Keeps J (writeChunks path content n offset) fun _ => True := by
  induction n generalizing offset with
  | zero => exact Keeps.pure trivial
  | succ n ih =>
    refine (hJ.call_keeps _).bind fun outcome _ => ?_
    split
    · exact (hJ.store_keeps hpath _).bind fun _ _ => ih _
    · exact Keeps.throw _
    · exact (hJ.store_keeps hpath _).bind fun _ _ => Keeps.throw _

theorem copyFile_keeps (src : FilePath) : Keeps J (copyFile src path) fun _ => True := by
  refine Keeps.get.bind fun w _ => ?_
  split
  · exact Keeps.throw _
  · refine (hJ.call_keeps _).bind fun outcome _ => ?_
    split
    · exact Keeps.throw _
    · exact (hJ.store_keeps hpath fun _ => []).bind fun _ _ => Keeps.get.bind fun _ _ =>
        hJ.writeChunks_keeps hpath _ _ _

theorem storeOpen_keeps (f : Bytes → Bytes) :
    Keeps J (Sys.change fun fs => storeOpen fs path f) fun _ => True := by
  refine hJ.change_keeps (fun fs d hd => ?_) fun fs h => ?_
  · unfold storeOpen
    split
    · exact FS.lookup_store_of_ne (FS.ne_of_not_below hpath hd)
    · rfl
  · unfold storeOpen
    split
    · exact h.of_directoryExists fun _ => FS.directoryExists_store
    · exact h

end File

theorem ensureDirectory_keeps : Keeps J (ensureDirectory dir) fun _ => True := by
  intro w hw
  rw [ensureDirectory_run]
  refine ⟨?_, fun _ _ _ => trivial⟩
  show J (w.withDirectory dir)
  unfold withDirectory
  split
  · exact hw
  · exact hJ.change w _
      (fun _ hd => FS.lookup_createDirectory_of_ne (FS.ne_of_not_below (FS.below_self dir) hd))
      (fun _ => FS.hierarchical_createDirectory _ _) hw

/-- A file of the directory is opened. -/
theorem createIOManager_keeps (name : FileName) (ioType : IOType) :
    Keeps J (createIOManager ⟨dir, name⟩ ioType) fun _ => True := by
  have hpath : FS.below dir (FilePath.mk dir name).dir = true := FS.below_self dir
  cases ioType with
  | standardFio =>
    refine hJ.ensureDirectory_keeps.bind fun _ _ => (hJ.call_keeps _).bind fun outcome _ => ?_
    split
    · exact Keeps.throw _
    · exact hJ.touch_keeps hpath
  | memoryMap =>
    refine (hJ.call_keeps _).bind fun outcome _ => ?_
    split
    · exact Keeps.throw _
    · refine (hJ.touch_keeps hpath).bind fun _ _ => Keeps.get.bind fun w _ => ?_
      split
      · exact hJ.store_keeps hpath _
      · exact Keeps.pure trivial

/-- A handle of a file in the directory is written through. -/
theorem write_keeps {file : DataFile} (hfile : file.path.dir = dir) (data : Bytes) :
    Keeps J (file.write data) fun file' =>
      file'.fileId = file.fileId ∧ file'.path = file.path := by
  have hpath : FS.below dir file.path.dir = true := hfile ▸ FS.below_self _
  refine (hJ.call_keeps _).bind fun outcome _ => ?_
  split
  · exact Keeps.throw _
  · exact (hJ.storeOpen_keeps hpath _).bind fun _ _ => Keeps.pure ⟨rfl, rfl⟩
  · exact (hJ.storeOpen_keeps hpath _).bind fun _ _ => Keeps.pure ⟨rfl, rfl⟩

theorem openDataFile_keeps (fileId : ℕ) (ioType : IOType) :
    Keeps J (openDataFile dir fileId ioType) fun file =>
      file.fileId = fileId ∧ file.path = getDataFileName dir fileId :=
  (hJ.createIOManager_keeps _ ioType).bind fun _ _ => Keeps.pure ⟨rfl, rfl⟩

theorem openAuxFile_keeps (name : FileName) :
    Keeps J (openAuxFile dir name) fun file => file.path.dir = dir :=
  (hJ.openDataFile_keeps 0 .standardFio).bind fun _ _ =>
    (hJ.createIOManager_keeps name .standardFio).bind fun _ _ => Keeps.pure rfl

theorem setIOManager_keeps (file : DataFile) (ioType : IOType) :
    Keeps J (file.setIOManager dir ioType) fun file' =>
      file'.fileId = file.fileId ∧ file'.path = getDataFileName dir file.fileId :=
  (hJ.createIOManager_keeps _ ioType).bind fun _ _ => Keeps.pure ⟨rfl, rfl⟩

theorem removeDirectory_keeps {d : Path} (hd : FS.below dir d = true) :
    Keeps J (removeDirectory d) fun _ => True := by
  refine hJ.change_keeps (fun fs d' hd' => FS.lookup_removeDirectory_of_not_below ?_)
    fun _ h => h.removeDirectory d
  refine Bool.eq_false_of_not_eq_true fun hbelow => ?_
  rw [FS.below_trans hd hbelow] at hd'
  cases hd'

theorem createDirectory_keeps : Keeps J (createDirectory dir) fun _ => True :=
  hJ.change_keeps (fun _ _ hd =>
    FS.lookup_createDirectory_of_ne (FS.ne_of_not_below (FS.below_self dir) hd))
    fun fs _ => FS.hierarchical_createDirectory fs dir

end World.Indifferent

/-! ## Databases -/

variable {ι : Type}

/-- The database is the one of a directory, and its handles are those of the data files
    there, by their ids. -/
structure Proc.InDir (dir : Path) (J : World → Prop) (p : Proc ι) : Prop where
  dirPath : p.db.options.dirPath = dir
  active : ∀ file, p.db.activeFile = some file → file.path = getDataFileName dir file.fileId
  older : ∀ fid file, p.db.olderFiles.lookup fid = some file →
    file.fileId = fid ∧ file.path = getDataFileName dir fid
  holds : J p.world

namespace Proc.InDir

variable {dir : Path} {J : World → Prop} {p : Proc ι}

/-- Nothing happens to the handles. -/
theorem congr (h : p.InDir dir J) {q : Proc ι} {J' : World → Prop}
    (hoptions : q.db.options = p.db.options) (hactive : q.db.activeFile = p.db.activeFile)
    (holder : q.db.olderFiles = p.db.olderFiles) (hworld : J' q.world) : q.InDir dir J' where
  dirPath := hoptions ▸ h.dirPath
  active := hactive ▸ h.active
  older := holder ▸ h.older
  holds := hworld

/-- Another file becomes the active one, or there is none any more. -/
theorem withActive (h : p.InDir dir J) {active : Option DataFile}
    (hactive : ∀ file, active = some file → file.path = getDataFileName dir file.fileId) :
    InDir dir J { p with db := { p.db with activeFile := active } } :=
  ⟨h.dirPath, hactive, h.older, h.holds⟩

/-- A file becomes an older one. -/
theorem withOlder (h : p.InDir dir J) {fid : ℕ} {file : DataFile} (hid : file.fileId = fid)
    (hpath : file.path = getDataFileName dir fid) :
    InDir dir J { p with db := { p.db with olderFiles := p.db.olderFiles.insert fid file } } where
  dirPath := h.dirPath
  active := h.active
  older g f hf := by
    by_cases hg : g = fid
    · subst hg
      obtain rfl := Option.some.inj ((AList.lookup_insert _).symm.trans hf)
      exact ⟨hid, hpath⟩
    · exact h.older g f ((AList.lookup_insert_ne hg).symm.trans hf)
  holds := h.holds

end Proc.InDir

namespace DB

open Proc World

variable {dir : Path} {J : World → Prop} {α : Type}

section Calls

/-- System calls keep what depends on the world by what they keep of it. -/
theorem sys_keeps {I : Proc ι → Prop} {J : World → Prop} (hJ : ∀ p, I p → J p.world)
    (hI : ∀ p w, I p → J w → I { p with world := w }) {m : Sys α} {Q : α → Prop}
    (hm : Keeps J m Q) : Keeps I (sys m : DBM ι α) Q := by
  intro p hp
  obtain ⟨hw, hQ⟩ := hm p.world (hJ p hp)
  rw [show sys m = (liftM m : DBM ι α) from rfl]
  cases hrun : m.run p.world with
  | ok a w =>
    rw [hrun] at hw
    rw [lift_ok hrun]
    refine ⟨hI p w hp hw, fun b q hb => ?_⟩
    cases hb
    exact hQ _ _ hrun
  | error e w =>
    rw [hrun] at hw
    rw [lift_error hrun]
    exact ⟨hI p w hp hw, fun b q hb => by cases hb⟩

theorem sys_inDir {m : Sys α} {Q : α → Prop} (hm : Keeps J m Q) :
    Keeps (InDir dir J) (sys m : DBM ι α) Q :=
  sys_keeps (fun _ hp => hp.holds) (fun _ _ hp hw => hp.congr rfl rfl rfl hw) hm

theorem proc_inDir : Keeps (InDir dir J) (proc : DBM ι _) (InDir dir J) := Keeps.get

/-- Changing a database neither in its options nor in its handles. -/
theorem modifyDB_inDir {f : DB ι → DB ι}
    (hoptions : ∀ db, (f db).options = db.options := by exact fun _ => rfl)
    (hactive : ∀ db, (f db).activeFile = db.activeFile := by exact fun _ => rfl)
    (holder : ∀ db, (f db).olderFiles = db.olderFiles := by exact fun _ => rfl) :
    Keeps (InDir dir J) (modifyDB f) fun _ => True :=
  Keeps.modify fun p hp => hp.congr (hoptions p.db) (hactive p.db) (holder p.db) hp.holds

/-- A file of the directory becomes the active one. -/
theorem modifyDB_active_inDir {file : DataFile}
    (hpath : file.path = getDataFileName dir file.fileId) :
    Keeps (InDir dir J) (modifyDB fun db : DB ι => { db with activeFile := some file })
      fun _ => True :=
  Keeps.modify fun _ hp => hp.withActive fun _ hfile => Option.some.inj hfile ▸ hpath

/-- A file of the directory becomes an older one. -/
theorem modifyDB_older_inDir {fid : ℕ} {file : DataFile} (hid : file.fileId = fid)
    (hpath : file.path = getDataFileName dir fid) :
    Keeps (InDir dir J)
      (modifyDB fun db : DB ι => { db with olderFiles := db.olderFiles.insert fid file })
      fun _ => True :=
  Keeps.modify fun _ hp => hp.withOlder hid hpath

end Calls

variable (hJ : Indifferent dir J)
include hJ

theorem openDataFile_inDir {p : Proc ι} (hp : p.InDir dir J) (fileId : ℕ) (ioType : IOType) :
    Keeps (InDir dir J)
      (sys (openDataFile p.db.options.dirPath fileId ioType) : DBM ι _)
      fun file => file.fileId = fileId ∧ file.path = getDataFileName dir fileId := by
  rw [hp.dirPath]
  exact sys_inDir (hJ.openDataFile_keeps fileId ioType)

theorem setActiveDataFile_inDir :
    Keeps (InDir dir J) (setActiveDataFile : DBM ι Unit) fun _ => True := by
  refine proc_inDir.bind fun p hp => (openDataFile_inDir hJ hp _ _).bind fun file hfile => ?_
  exact modifyDB_active_inDir (hfile.1 ▸ hfile.2)

theorem openDataFiles_inDir (fileIds : List ℕ) :
    Keeps (InDir dir J) (openDataFiles fileIds : DBM ι Unit) fun _ => True := by
  induction fileIds with
  | nil => exact .pure trivial
  | cons fid rest ih =>
    refine proc_inDir.bind fun p hp => (openDataFile_inDir hJ hp _ _).bind fun file hfile => ?_
    dsimp only
    split
    · exact (modifyDB_active_inDir (hfile.1 ▸ hfile.2)).bind fun _ _ => ih
    · exact (modifyDB_older_inDir hfile.1 hfile.2).bind fun _ _ => ih

theorem loadDataFiles_inDir : Keeps (InDir dir J) (loadDataFiles : DBM ι Unit) fun _ => True := by
  refine proc_inDir.bind fun p _ => ?_
  dsimp only
  refine Keeps.bind modifyDB_inDir fun _ _ => ?_
  split
  · split
    · exact setActiveDataFile_inDir hJ
    · exact .pure trivial
  · exact openDataFiles_inDir hJ _

theorem resetIOType_inDir : Keeps (InDir dir J) (resetIOType : DBM ι Unit) fun _ => True := by
  refine proc_inDir.bind fun p hp => proc_inDir.bind fun q _ => ?_
  have hset (file : DataFile) : Keeps (InDir dir J)
      (sys (file.setIOManager p.db.options.dirPath .standardFio) : DBM ι _)
      fun file' => file'.fileId = file.fileId ∧ file'.path = getDataFileName dir file.fileId := by
    rw [hp.dirPath]
    exact sys_inDir (hJ.setIOManager_keeps file .standardFio)
  dsimp only
  split
  on_goal 1 =>
    refine (hset _).bind fun file hfile => Keeps.bind
      (modifyDB_active_inDir (hfile.1 ▸ hfile.2)) fun _ _ => ?_
  -- The loop over the older files, with and without an active file before it.
  all_goals
    refine proc_inDir.bind fun _ _ => Keeps.bind (Keeps.forIn fun fid _ => ?_)
      fun _ _ => Keeps.pure trivial
    refine proc_inDir.bind fun r hr => ?_
    split
    · rename_i old hold
      obtain ⟨hid, -⟩ := hr.older fid old hold
      refine (hset old).bind fun file hfile => ?_
      rw [hid] at hfile
      exact (modifyDB_older_inDir hfile.1 hfile.2).bind fun _ _ => Keeps.pure trivial
    · exact .pure trivial

/-! ## Appending and closing -/

theorem activeDataFile_inDir :
    Keeps (InDir dir J) (activeDataFile : DBM ι DataFile)
      fun file => file.path = getDataFileName dir file.fileId := by
  refine proc_inDir.bind fun p _ => ?_
  split
  on_goal 1 => refine (setActiveDataFile_inDir hJ).bind fun _ _ => ?_
  -- The file that is active then, be it opened just now or not.
  all_goals
    refine proc_inDir.bind fun q hq => ?_
    split
    · exact Keeps.pure (hq.active _ ‹_›)
    · exact Keeps.throw _

theorem appendLogRecordInternal_inDir (record : LogRecord) :
    Keeps (InDir dir J) (appendLogRecordInternal record : DBM ι LogRecordPos) fun _ => True := by
  have hwrite : Keeps (InDir dir J) (do
      let file ← activeDataFile
      let written ← file.write record.encode
      modifyDB fun db => { db with activeFile := some written }
      return ⟨file.fileId, file.writeOff, record.encode.length % 2 ^ 32⟩ : DBM ι LogRecordPos)
      fun _ => True := by
    refine (activeDataFile_inDir hJ).bind fun file hfile => ?_
    have hdir : file.path.dir = dir := congrArg FilePath.dir hfile
    refine (sys_inDir (hJ.write_keeps hdir _)).bind fun written hwritten => ?_
    refine (modifyDB_active_inDir ?_).bind fun _ _ => Keeps.pure trivial
    rw [hwritten.1, hwritten.2, hfile]
  refine (activeDataFile_inDir hJ).bind fun active hactive => proc_inDir.bind fun p _ => ?_
  dsimp only
  split
  · have hrotate : Keeps (InDir dir J) (rotate active : DBM ι Unit) fun _ => True := by
      refine Keeps.bind (Keeps.modify fun q hq => ?_) fun _ _ => setActiveDataFile_inDir hJ
      have hnone : InDir dir J { q with db := { q.db with activeFile := none } } :=
        hq.withActive (by simp)
      exact (hnone.withOlder rfl hactive).congr rfl rfl rfl hq.holds
    exact hrotate.bind fun _ _ => hwrite
  · exact hwrite

theorem close_inDir : Keeps (InDir dir J) (close : DBM ι Unit) fun _ => True := by
  refine proc_inDir.bind fun p hp => ?_
  dsimp only
  have hseqNo : Keeps (InDir dir J) (sys (openSeqNoFile p.db.options.dirPath) : DBM ι _)
      fun file => file.path.dir = dir := by
    rw [hp.dirPath]
    exact sys_inDir (hJ.openAuxFile_keeps .seqNo)
  refine hseqNo.bind fun file hfile => (sys_inDir (hJ.write_keeps hfile _)).bind fun _ _ => ?_
  split
  · exact modifyDB_inDir
  · exact Keeps.pure trivial

/-- The destructor of a database makes its changes in the directory of the database. -/
theorem destroy_keeps {p : Proc ι} (hp : p.InDir dir J) :
    Keeps J (destroy p.db) fun _ => True := by
  intro w hw
  have hclosed := (close_inDir hJ ⟨p.db, w⟩ (hp.congr rfl rfl rfl hw)).1
  refine ⟨?_, fun _ _ _ => trivial⟩
  show J (finalState (destroy p.db w))
  unfold destroy
  cases hrun : (close : DBM ι Unit).run ⟨p.db, w⟩ with
  | ok _ q => exact (hrun ▸ hclosed).holds
  | error e q => exact (hrun ▸ hclosed).holds

/-! ## Opening -/

variable [Indexer ι]

theorem createIndexer_inDir : Keeps (InDir dir J) (createIndexer : DBM ι ι) fun _ => True := by
  intro p hp
  rw [createIndexer_run]
  exact ⟨hp.congr rfl rfl rfl (hJ.draw _ hp.holds), fun _ _ _ => trivial⟩

omit hJ in
/-- Reading files only moves the write offset of the active file. -/
theorem scanFiles_inDir {p : Proc ι} (hp : p.InDir dir J) (fs : FS)
    (handles : List (ℕ × DataFile)) (s : Loading ι) :
    InDir dir J { p with db := (scanFiles fs handles (p.db, s)).1 } := by
  induction handles generalizing p s with
  | nil => exact hp
  | cons x handles ih =>
    have hset (offset : ℕ) : InDir dir J { p with db := p.db.setWriteOff x.1 offset } := by
      cases hactive : p.db.activeFile with
      | none => simpa only [setWriteOff, hactive] using hp
      | some active =>
        simp only [setWriteOff, hactive]
        split
        · refine hp.withActive fun file hfile => ?_
          obtain rfl := Option.some.inj hfile
          exact hp.active active hactive
        · exact hp
    exact ih (hset _) _

theorem loadIndexFromDataFiles_inDir :
    Keeps (InDir dir J) (loadIndexFromDataFiles : DBM ι Unit) fun _ => True := by
  refine proc_inDir.bind fun p hp => ?_
  dsimp only
  split
  · exact .pure trivial
  · refine (createIndexer_inDir hJ).bind fun index _ => ?_
    have hmarker : FS.below dir (FilePath.mk p.db.options.dirPath .mergeFinished).dir = true :=
      hp.dirPath ▸ FS.below_self _
    refine (sys_inDir (hJ.removeIfExists_keeps hmarker)).bind fun _ _ => ?_
    refine proc_inDir.bind fun _ _ => Keeps.modify fun q hq => ?_
    exact (scanFiles_inDir hq _ _ _).congr rfl rfl rfl hq.holds

theorem loadIndexFromHintFile_inDir :
    Keeps (InDir dir J) (loadIndexFromHintFile : DBM ι Unit) fun _ => True := by
  refine proc_inDir.bind fun p hp => ?_
  dsimp only
  refine (sys_inDir (Indifferent.read_keeps _)).bind fun found _ => ?_
  split
  · have hhint : Keeps (InDir dir J) (sys (openHintFile p.db.options.dirPath) : DBM ι _)
        fun file => file.path.dir = dir := by
      rw [hp.dirPath]
      exact sys_inDir (hJ.openAuxFile_keeps .hintIndex)
    refine hhint.bind fun _ _ => proc_inDir.bind fun _ _ => proc_inDir.bind fun _ _ => ?_
    refine Keeps.bind modifyDB_inDir fun _ _ => ?_
    split
    · exact Keeps.throw _
    · exact Keeps.pure trivial
  · exact Keeps.pure trivial

omit [Indexer ι] in
theorem loadMergeFiles_inDir : Keeps (InDir dir J) (loadMergeFiles : DBM ι Unit) fun _ => True := by
  have hcopy (src : Path) (exclude : FileName) (names : List FileName) :
      Keeps J (copyDirectory src dir exclude names) fun _ => True := by
    induction names with
    | nil => exact Keeps.pure trivial
    | cons name rest ih =>
      unfold copyDirectory
      split
      · exact (hJ.copyFile_keeps (FS.below_dir ⟨dir, name⟩) _).bind fun _ _ => ih
      · exact ih
  have hbelow : FS.below dir (dir ++ "/merge".toList) = true := by
    simp [FS.below, List.isPrefixOf_iff_prefix]
  refine proc_inDir.bind fun p hp => ?_
  dsimp only
  rw [hp.dirPath]
  refine (sys_inDir (Indifferent.read_keeps _)).bind fun found _ => ?_
  split
  · refine (sys_inDir (Indifferent.read_keeps _)).bind fun finished _ => ?_
    split
    · refine proc_inDir.bind fun _ _ => (sys_inDir (hcopy _ _ _)).bind fun _ _ => ?_
      exact sys_inDir (hJ.removeDirectory_keeps hbelow)
    · exact Keeps.pure trivial
  · exact Keeps.pure trivial

theorem init_inDir : Keeps (InDir dir J) (init : DBM ι Unit) fun _ => True := by
  have hdirectory : Keeps (InDir dir J) (initDirectory : DBM ι Unit) fun _ => True := by
    refine proc_inDir.bind fun p hp => ?_
    dsimp only
    rw [hp.dirPath]
    refine (sys_inDir (Indifferent.read_keeps _)).bind fun _ _ => ?_
    refine (sys_inDir hJ.ensureDirectory_keeps).bind fun _ _ => ?_
    refine (sys_inDir (hJ.touch_keeps (FS.below_dir ⟨dir, .flock⟩))).bind fun _ _ => ?_
    exact proc_inDir.bind fun _ _ => modifyDB_inDir
  have hload : Keeps (InDir dir J) (load : DBM ι Unit) fun _ => True := by
    refine (loadDataFiles_inDir hJ).bind fun _ _ => ?_
    refine proc_inDir.bind fun _ _ => proc_inDir.bind fun _ _ => ?_
    split
    · refine (loadIndexFromHintFile_inDir hJ).bind fun _ _ => ?_
      refine (loadIndexFromDataFiles_inDir hJ).bind fun _ _ => proc_inDir.bind fun _ _ => ?_
      split
      · exact resetIOType_inDir hJ
      · exact Keeps.pure trivial
    · exact Keeps.pure trivial
  refine hdirectory.bind fun _ _ => (createIndexer_inDir hJ).bind fun _ _ => ?_
  exact Keeps.bind modifyDB_inDir fun _ _ => (loadMergeFiles_inDir hJ).bind fun _ _ => hload

/-- A database is opened in its directory. -/
theorem open_inDir {options : Options} (hdir : options.dirPath = dir) :
    Keeps J («open» options : Sys (DB ι)) fun db => ∀ w, J w → InDir dir J ⟨db, w⟩ := by
  intro w hw
  have hbegin : InDir dir J ⟨{ options := options, index := (Indexer.create 0 : ι) }, w⟩ :=
    ⟨hdir, nofun, nofun, hw⟩
  have hinit := init_inDir hJ _ hbegin
  cases hvalid : checkOptions options with
  | error e =>
    rw [open_of_invalid hvalid]
    exact ⟨hw, fun db w' h => by cases h⟩
  | ok _ =>
    cases hrun : (init : DBM ι Unit).run ⟨{ options := options, index := Indexer.create 0 }, w⟩ with
    | ok _ p =>
      rw [hrun] at hinit
      rw [open_of_ok hvalid hrun]
      refine ⟨hinit.1.holds, fun db w' h => ?_⟩
      cases h
      exact fun w hw => hinit.1.congr rfl rfl rfl hw
    | error e p =>
      rw [hrun] at hinit
      rw [open_of_error hvalid hrun]
      exact ⟨(destroy_keeps hJ hinit.1 p.world hinit.1.holds).1, fun db w' h => by cases h⟩

end DB

end Bitcask
