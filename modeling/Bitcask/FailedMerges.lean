import Bitcask.Destructors
import Bitcask.Guarding
import Bitcask.Handles
import Bitcask.MergeRun

/-!
# Merges that throw

A merge makes its copies in a directory of its own, and replaces the data files after that.
By then it has made the active file an older one and opened the first data file as the
active one, to be written from the front. If it throws before it replaces the files, it
leaves the database so (`DB.merge_startsOver`): all values can be read, and a value stays
until later records reach it (`DB.merge_throwsEarly`).
-/

namespace Bitcask

open FuelLoop DataFile DBM Sys Guarantee

variable {ι : Type}

/-! ## Merges that throw before they replace the files -/

/-- The files of a directory stay as they are, though others may appear. -/
def World.KeepsFiles (dir : Path) (w w' : World) : Prop :=
  ∀ path content, path.dir = dir → w.fs.file? path = some content → w'.fs.file? path = some content

theorem World.indifferent_keepsFiles {d dir : Path} (h : FS.below d dir = false) (w : World) :
    Indifferent d (w.KeepsFiles dir) where
  change w' fs hfs _ hw path content hpath hfile := by
    rw [change_fs, FS.file?_congr (hfs _ (hpath ▸ h))]
    exact hw path content hpath hfile
  next w' c hw path content hpath hfile := by
    rw [next_fs]
    exact hw path content hpath hfile
  draw _ hw := hw

/-- The data files of a database have become older ones, and it goes on at the front of its
    first data file, if it has an active file at all. -/
structure Proc.StartsOver (p q : Proc ι) : Prop where
  options : q.db.options = p.db.options
  index : q.db.index = p.db.index
  active : ∀ file, q.db.activeFile = some file → file = q.db.firstFile
  older : ∀ fid file, p.db.fileOf fid = some file → q.db.olderFiles.lookup fid = some file
  files : p.world.KeepsFiles p.db.options.dirPath q.world

namespace DB

/-- The first part of a merge: all that is done before the data files are replaced. -/
def makeCopies [Indexer ι] : DBM ι Unit := do
  let (mergePath, files, mergeDb) ← prepareMerge
  writeCopies mergePath files mergeDb

open Proc World

variable {p : Proc ι} {α : Type}

theorem sys_startsOver {m : Sys α} {Q : α → Prop}
    (hm : Keeps (p.world.KeepsFiles p.db.options.dirPath) m Q) :
    Keeps p.StartsOver (sys m : DBM ι α) Q :=
  sys_keeps (fun _ hq => hq.files)
    (fun _ _ hq hw => ⟨hq.options, hq.index, hq.active, hq.older, hw⟩) hm

theorem openMergeFiles_keepsFiles (w : World) (dir dirPath : Path) (fids : List ℕ) :
    Keeps (w.KeepsFiles dir) (openMergeFiles dirPath fids) fun _ => True := by
  induction fids with
  | nil => exact Keeps.pure trivial
  | cons fid rest ih =>
    have hopen : Keeps (w.KeepsFiles dir) (openDataFile dirPath fid .standardFio) fun _ => True :=
      .of_guarantees (OnlyOpened.openDataFile dirPath fid)
        (fun _ _ hw hopened path content hpath hfile =>
          hopened.file? path content (hw path content hpath hfile)) fun _ _ _ _ => trivial
    exact hopen.bind fun _ _ => ih.bind fun _ _ => Keeps.pure trivial

/-- The active file is made an older one, whether the rotation returns or throws. -/
theorem rotateMergeFiles_startsOver {w : World}
    (hw : p.world.KeepsFiles p.db.options.dirPath w) :
    p.StartsOver (finalState ((rotateMergeFiles : DBM ι _).run ⟨p.db, w⟩)) := by
  have hfiles (fids : List ℕ) (q : Proc ι) (hq : p.StartsOver q) :
      p.StartsOver (finalState
        ((liftM (openMergeFiles p.db.options.dirPath fids) : DBM ι (List DataFile)).run q)) :=
    (sys_startsOver (openMergeFiles_keepsFiles _ _ _ fids) q hq).1
  rw [rotateMergeFiles, bind_ok (proc_run _)]
  dsimp only
  cases hactive : p.db.activeFile with
  | none =>
    refine hfiles _ _ ⟨rfl, rfl, fun file hfile => ?_, fun fid file hfile => ?_, hw⟩
    · cases hactive.symm.trans hfile
    · rwa [fileOf_of_ne (by simp [hactive])] at hfile
  | some file =>
    set q : Proc ι := ⟨{ p.db with
      activeFile := none, olderFiles := p.db.olderFiles.insert file.fileId file }, w⟩ with hq
    have hturned : p.StartsOver q := by
      refine ⟨rfl, rfl, by simp [hq], fun fid file' hfile => ?_, hw⟩
      by_cases hid : fid = file.fileId
      · subst hid
        rw [fileOf_of_eq hactive] at hfile
        rw [← Option.some.inj hfile]
        exact AList.lookup_insert _
      · rw [fileOf_of_ne fun f hf heq => hid (Option.some.inj (hactive.symm.trans hf) ▸ heq.symm)]
          at hfile
        exact (AList.lookup_insert_ne hid).trans hfile
    obtain ⟨w', hopened, hset⟩ := setActiveDataFile_cases (p := q) rfl
    have hw' : p.world.KeepsFiles p.db.options.dirPath w' := fun path content hpath hfile =>
      hopened.file? path content (hw path content hpath hfile)
    show p.StartsOver (finalState ((setActiveDataFile >>= fun _ => _ : DBM ι _).run q))
    rcases hset with hset | ⟨e, hset⟩
    · rw [bind_ok hset]
      refine hfiles _ _ ⟨rfl, rfl, fun f hf => ?_, hturned.older, hw'⟩
      exact (Option.some.inj hf).symm
    · rw [bind_error hset]
      exact ⟨rfl, rfl, hturned.active, hturned.older, hw'⟩

/-! ### Copying -/

/-- A merge writes its copies and its hint file in a directory. -/
structure MergeScan.InDir (dir : Path) (J : World → Prop) (s : MergeScan ι) : Prop where
  mergeDb : Proc.InDir dir J ⟨s.mergeDb, s.world⟩
  hint : s.hintFile.path.dir = dir

namespace MergeScan.InDir

variable {dir : Path} {J : World → Prop} {s : MergeScan ι}

/-- What a pass does that reaches a scan or ends in one. -/
def OfPass (dir : Path) (J : World → Prop) : Pass (MergeScan ι) (MergeScan ι) → Prop
  | .again s => s.InDir dir J
  | .done s => s.InDir dir J

theorem skip (h : s.InDir dir J) (e : Exn) : OfPass dir J (s.skip e) := by
  unfold MergeScan.skip
  split
  · exact h
  · exact ⟨h.mergeDb, h.hint⟩

theorem copyRecord (hJ : Indifferent dir J) (h : s.InDir dir J) (record : LogRecord) (size : ℕ) :
    OfPass dir J (copyRecord record size s) := by
  have happend := (appendLogRecordInternal_inDir hJ (copyOf record) _ h.mergeDb).1
  unfold DB.copyRecord
  split
  · rename_i e q hrun
    rw [hrun] at happend
    exact skip (s := { s with mergeDb := q.db, world := q.world }) ⟨happend, h.hint⟩ e
  · rename_i pos q hrun
    rw [hrun] at happend
    obtain ⟨hworld, hfile⟩ := hJ.write_keeps h.hint (LogRecord.encode
      { key := (parseLogRecordKey record.key).1, value := pos.encode, type := .normal })
      q.world happend.holds
    split
    · rename_i e w hwrite
      rw [show s.hintFile.writeHintRecord _ pos = s.hintFile.write _ from rfl] at hwrite
      rw [hwrite] at hworld
      exact skip (s := { s with mergeDb := q.db, world := w })
        ⟨happend.congr rfl rfl rfl hworld, h.hint⟩ e
    · rename_i hintFile w hwrite
      rw [show s.hintFile.writeHintRecord _ pos = s.hintFile.write _ from rfl] at hwrite
      rw [hwrite] at hworld
      exact ⟨happend.congr rfl rfl rfl hworld,
        (congrArg FilePath.dir (hfile _ _ hwrite).2).trans h.hint⟩

theorem mergePass (hJ : Indifferent dir J) (h : s.InDir dir J)
    (valid : List (Bytes × LogRecordPos)) (file : DataFile) :
    OfPass dir J (mergePass valid file s) := by
  unfold DB.mergePass
  split
  · exact skip h _
  · split
    · exact copyRecord hJ h _ _
    · exact ⟨h.mergeDb, h.hint⟩

theorem mergeScan (hJ : Indifferent dir J) (h : s.InDir dir J)
    (valid : List (Bytes × LogRecordPos)) (files : List DataFile) :
    (mergeScan valid files s).InDir dir J := by
  induction files generalizing s with
  | nil => exact h
  | cons file files ih =>
    refine ih ?_
    have hstart : InDir dir J { s with offset := 0 } := ⟨h.mergeDb, h.hint⟩
    cases hloop : loop (DB.mergePass valid file) ((file.content s.world.fs).length + 1)
        { s with offset := 0 } with
    | none => exact hstart
    | some r =>
      refine loop_inv (fun t t' ht hpass => ?_) (fun t r ht hpass => ?_) hstart hloop
      all_goals
        have hnext := mergePass hJ ht valid file
        rw [hpass] at hnext
        exact hnext

end MergeScan.InDir

variable [Indexer ι]

/-- What the copies are written to, while the files of the database stay. -/
def CopiesTo (p : Proc ι) (mergePath : Path) (mergeDb : DB ι) : Prop :=
  ∀ w, p.world.KeepsFiles p.db.options.dirPath w →
    InDir mergePath (p.world.KeepsFiles p.db.options.dirPath) ⟨mergeDb, w⟩

omit [Indexer ι] in
theorem destroy_startsOver {mergePath : Path}
    (hJ : Indifferent mergePath (p.world.KeepsFiles p.db.options.dirPath)) {mergeDb : DB ι}
    (hdb : CopiesTo p mergePath mergeDb) {q : Proc ι} (hq : p.StartsOver q) :
    p.StartsOver { q with world := finalState ((destroy mergeDb).run q.world) } :=
  ⟨hq.options, hq.index, hq.active, hq.older,
    (destroy_keeps hJ (hdb _ hq.files) q.world hq.files).1⟩

/-- Making the copies keeps what is indifferent to their directory, and does nothing to the
    database. -/
theorem writeCopies_keeps {mergePath : Path} {J : World → Prop} (hJ : Indifferent mergePath J)
    {mergeDb : DB ι} (hdb : ∀ w, J w → InDir mergePath J ⟨mergeDb, w⟩) (files : List DataFile)
    (db : DB ι) : Keeps (fun q : Proc ι => q.db = db ∧ J q.world)
      (writeCopies mergePath files mergeDb : DBM ι Unit) fun _ => True := by
  have hsys {α : Type} {m : Sys α} {Q : α → Prop} (hm : Keeps J m Q) :
      Keeps (fun q : Proc ι => q.db = db ∧ J q.world) (sys m : DBM ι α) Q :=
    sys_keeps (fun _ hq => hq.2) (fun _ _ hq hw => ⟨hq.1, hw⟩) hm
  refine Keeps.bind (hsys (hJ.openAuxFile_keeps .hintIndex)) fun hintFile hhint => ?_
  refine Keeps.bind (Q := fun q : Proc ι => q.db = db ∧ J q.world) Keeps.get fun q hq => ?_
  dsimp only
  set s := mergeScan (validRecords q.db.index) files ⟨0, mergeDb, hintFile, q.world⟩ with hs
  have hscan : s.InDir mergePath J := MergeScan.InDir.mergeScan hJ ⟨hdb _ hq.2, hhint⟩ _ _
  have hfinished (n : ℕ) : Keeps J (writeMergeFinished mergePath n) fun _ => True :=
    (hJ.openAuxFile_keeps .mergeFinished).bind fun file hfile =>
      (hJ.write_keeps hfile _).bind fun _ _ => Keeps.pure trivial
  have hset : Keeps (fun q : Proc ι => q.db = db ∧ J q.world)
      (set (⟨q.db, s.world⟩ : Proc ι) : DBM ι PUnit) fun _ => True :=
    fun r _ => ⟨⟨hq.1, hscan.mergeDb.holds⟩, fun _ _ _ => trivial⟩
  refine hset.bind fun _ _ => (hsys (hfinished _)).bind fun _ _ => ?_
  intro r hr
  refine ⟨?_, fun _ _ _ => trivial⟩
  have hclosed := (close_inDir hJ ⟨s.mergeDb, r.world⟩
    (hscan.mergeDb.congr rfl rfl rfl hr.2)).1.holds
  show (fun q : Proc ι => q.db = db ∧ J q.world) (finalState (onOther s.mergeDb close r))
  unfold onOther
  cases hclose : (close : DBM ι Unit).run ⟨s.mergeDb, r.world⟩ with
  | ok _ t =>
    rw [hclose] at hclosed
    exact ⟨hr.1, hclosed⟩
  | error e t =>
    rw [hclose] at hclosed
    exact ⟨hr.1, hclosed⟩

/-- Making the copies does nothing to the files of the database. -/
theorem writeCopies_startsOver {mergePath : Path}
    (hJ : Indifferent mergePath (p.world.KeepsFiles p.db.options.dirPath)) {mergeDb : DB ι}
    (hdb : CopiesTo p mergePath mergeDb) (files : List DataFile) :
    Keeps p.StartsOver (writeCopies mergePath files mergeDb : DBM ι Unit) fun _ => True := by
  intro q hq
  obtain ⟨⟨hsame, hkept⟩, -⟩ := writeCopies_keeps hJ hdb files q.db q ⟨rfl, hq.files⟩
  exact ⟨⟨hsame ▸ hq.options, hsame ▸ hq.index, hsame ▸ hq.active, hsame ▸ hq.older, hkept⟩,
    fun _ _ _ => trivial⟩

omit [Indexer ι] in
theorem indifferent_getMergePath (p : Proc ι) : Indifferent (getMergePath p.db.options.dirPath)
    (p.world.KeepsFiles p.db.options.dirPath) :=
  indifferent_keepsFiles (not_below_getMergePath _) _

/-- So it is when a merge is prepared, and the copies are to be written to the directory
    next to that of the database. -/
theorem prepareMerge_startsOver (p : Proc ι) :
    p.StartsOver (finalState ((prepareMerge : DBM ι _).run p)) ∧
      ∀ x q, (prepareMerge : DBM ι _).run p = .ok x q →
        x.1 = getMergePath p.db.options.dirPath ∧ CopiesTo p x.1 x.2.2 := by
  have hrenewed : p.world.KeepsFiles p.db.options.dirPath
      (p.world.renewed (getMergePath p.db.options.dirPath)) := by
    intro path content hpath hfile
    rwa [FS.file?_congr (renewed_lookup_of_not_below (hpath ▸ not_below_getMergePath _))]
  have hrotated := rotateMergeFiles_startsOver hrenewed
  rw [prepareMerge_eq]
  cases hrotate : (rotateMergeFiles : DBM ι _).run
      ⟨p.db, p.world.renewed (getMergePath p.db.options.dirPath)⟩ with
  | error e q =>
    rw [hrotate] at hrotated
    rw [bind_error hrotate]
    exact ⟨hrotated, fun x r h => by cases h⟩
  | ok files q =>
    rw [hrotate] at hrotated
    rw [bind_ok hrotate]
    have hopen : Keeps _ (DB.open (mergeOptions p.db.options) : Sys (DB ι)) _ :=
      open_inDir (indifferent_getMergePath p) rfl
    have hrest : Keeps p.StartsOver (do
        let mergeDb ← liftM (DB.open (mergeOptions p.db.options) : Sys (DB ι))
        return (getMergePath p.db.options.dirPath, files, mergeDb) : DBM ι _)
        fun x => x.1 = getMergePath p.db.options.dirPath ∧ CopiesTo p x.1 x.2.2 :=
      (sys_startsOver hopen).bind fun mergeDb hdb => Keeps.pure ⟨rfl, hdb⟩
    exact hrest q hrotated

/-! ### The end of the process -/

/-- Preparing a merge does not end the process if its database can be closed, which can be done
    then, too. -/
theorem prepareMerge_closable (hp : p.world.Closable (getMergePath p.db.options.dirPath)) :
    let mergePath := getMergePath p.db.options.dirPath
    (∀ e q, (prepareMerge : DBM ι _).run p = .error e q → e ≠ .terminated) ∧
      ∀ x q, (prepareMerge : DBM ι _).run p = .ok x q → q.world.Closable mergePath ∧
        ∀ w, w.Closable mergePath → InDir mergePath (Closable mergePath) ⟨x.2.2, w⟩ := by
  intro mergePath
  have hrenewed : (p.world.renewed mergePath).Closable mergePath :=
    hp.of_outcomes fun c => by rw [renewed_outcomes]; exact List.Subset.refl _
  have hrotated := (rotateMergeFiles_closable ⟨p.db, p.world.renewed mergePath⟩ hrenewed).1
  rw [prepareMerge_eq]
  cases hrotate : (rotateMergeFiles : DBM ι _).run
      ⟨p.db, p.world.renewed (getMergePath p.db.options.dirPath)⟩ with
  | error e q =>
    rw [bind_error hrotate]
    refine ⟨fun e' r h => ?_, fun x r h => by cases h⟩
    cases h
    exact catchable_rotateMergeFiles _ _ _ hrotate
  | ok files q =>
    rw [hrotate, finalState_ok] at hrotated
    rw [bind_ok hrotate]
    obtain ⟨hworld, hopened⟩ := open_inDir (ι := ι) (Closable.indifferent mergePath mergePath)
      (show (mergeOptions p.db.options).dirPath = mergePath from rfl) q.world hrotated
    cases hopen : (DB.open (mergeOptions p.db.options) : Sys (DB ι)).run q.world with
    | error e w =>
      rw [bind_error (lift_error hopen)]
      refine ⟨fun e' r h => ?_, fun x r h => by cases h⟩
      cases h
      exact open_ne_terminated hrotated hopen
    | ok mergeDb w =>
      rw [hopen, finalState_ok] at hworld
      rw [bind_ok (lift_ok hopen)]
      refine ⟨(fun e' r h => by cases h), fun x r h => ?_⟩
      cases h
      exact ⟨hworld, hopened _ _ hopen⟩

/-- A merge that throws before it replaces the files lets the database start over. It does not
    end the process if its own database can be closed. -/
theorem mergeFiles_startsOver {e : Exn} {r : Proc ι}
    (hthrows : (makeCopies : DBM ι Unit).run p = .error e r) :
    ∃ e' q, (mergeFiles : DBM ι Unit).run p = .error e' q ∧ p.StartsOver q ∧
      (p.world.Closable (getMergePath p.db.options.dirPath) → e' ≠ .terminated) := by
  obtain ⟨hprepared, hcopies⟩ := prepareMerge_startsOver p
  rw [makeCopies] at hthrows
  rw [mergeFiles]
  cases hprepare : (prepareMerge : DBM ι _).run p with
  | error e' q =>
    rw [hprepare] at hprepared
    rw [bind_error hprepare]
    exact ⟨e', q, rfl, hprepared, fun hp => (prepareMerge_closable hp).1 _ _ hprepare⟩
  | ok x q =>
    obtain ⟨hpath, hdb⟩ := hcopies x q hprepare
    rw [hprepare] at hprepared
    rw [bind_ok hprepare] at hthrows
    rw [bind_ok hprepare]
    rw [hpath] at hdb
    have hJ := indifferent_getMergePath p
    have hwritten := (writeCopies_startsOver hJ hdb x.2.1 q hprepared).1
    have hclosable (hp : p.world.Closable (getMergePath p.db.options.dirPath)) :=
      (prepareMerge_closable hp).2 x q hprepare
    rcases x with ⟨mergePath, files, mergeDb⟩
    obtain rfl : mergePath = getMergePath p.db.options.dirPath := hpath
    have hthrows : (writeCopies _ files mergeDb : DBM ι Unit).run q = .error e r := hthrows
    rw [hthrows] at hwritten
    have hreplace : (copyAndReplace _ files mergeDb : DBM ι Unit).run q = .error e r :=
      bind_error hthrows
    refine ⟨_, _, withDestructor_error mergeDb hreplace, destroy_startsOver hJ hdb hwritten,
      fun hp => ?_⟩
    -- What has been thrown before is thrown on, since the database is closed.
    obtain ⟨hq, hopened⟩ := hclosable hp
    obtain ⟨⟨-, hr⟩, -⟩ := writeCopies_keeps (Closable.indifferent _ _) hopened files q.db q ⟨rfl, hq⟩
    rw [hthrows, finalState_error] at hr
    rw [destroy_returns (hopened _ hr).dirPath hr]
    exact catchable_writeCopies _ _ _ _ _ _ hthrows

end DB

/-- A merge gets as far as to take up the files: there are data, no other merge is going on,
    and there are enough to reclaim and enough space. -/
structure Proc.MergeStarts (p : Proc ι) (shouldMerge : Bool) (availableSize : ℕ) : Prop where
  data : ¬((p.db.activeFile.all fun file => file.writeOff = 0) ∧ p.db.olderFiles.keys = [])
  isMerging : p.db.isMerging = false
  shouldMerge : shouldMerge = true
  space : DB.minAvailableSize ≤ availableSize

instance Proc.MergeStarts.decidable (p : Proc ι) (shouldMerge : Bool) (availableSize : ℕ) :
    Decidable (p.MergeStarts shouldMerge availableSize) :=
  decidable_of_iff (¬((p.db.activeFile.all fun file => file.writeOff = 0) ∧
      p.db.olderFiles.keys = []) ∧ p.db.isMerging = false ∧ shouldMerge = true ∧
      DB.minAvailableSize ≤ availableSize)
    ⟨fun h => ⟨h.1, h.2.1, h.2.2.1, h.2.2.2⟩, fun h => ⟨h.1, h.2, h.3, h.4⟩⟩

/-- A merge that takes up the files throws before it replaces them. -/
def Proc.ThrowsEarly [Indexer ι] (p : Proc ι) (shouldMerge : Bool) (availableSize : ℕ) : Prop :=
  p.MergeStarts shouldMerge availableSize ∧
    ∃ e r, (DB.makeCopies : DBM ι Unit).run { p with db := { p.db with isMerging := true } } =
      .error e r

namespace DB

theorem merge_startsOver [Indexer ι] {p : Proc ι} {shouldMerge : Bool} {availableSize : ℕ}
    (h : p.ThrowsEarly shouldMerge availableSize) :
    ∃ e q, (merge shouldMerge availableSize : DBM ι Unit).run p = .error e q ∧
      p.StartsOver q ∧ (p.world.Closable (getMergePath p.db.options.dirPath) → e ≠ .terminated) := by
  obtain ⟨hstarts, e, r, hthrows⟩ := h
  obtain ⟨e', q, hrun, hq, hends⟩ := mergeFiles_startsOver hthrows
  refine ⟨e', { q with db := { q.db with isMerging := false } }, ?_, ⟨hq.options, hq.index,
    hq.active, hq.older, hq.files⟩, hends⟩
  rw [merge, bind_ok (proc_run p)]
  dsimp only
  rw [if_neg hstarts.data, if_neg (by rw [hstarts.isMerging]; decide),
    bind_ok (modifyDB_run _ p), if_neg (by rw [hstarts.shouldMerge]; decide),
    if_neg (Nat.not_lt.2 hstarts.space)]
  refine bind_error ?_
  rw [tryCatch_error hrun]
  rfl

end DB

/-! ## Keys after such a merge -/

theorem Proc.InDir.fileOf_eq {dir : Path} {J : World → Prop} {p : Proc ι} (h : p.InDir dir J)
    {fid : ℕ} {file : DataFile} (hfile : p.db.fileOf fid = some file) :
    file.path = getDataFileName dir fid := by
  by_cases hfirst : ∃ file, p.db.activeFile = some file ∧ file.fileId = fid
  · obtain ⟨file', hactive, rfl⟩ := hfirst
    obtain rfl := Option.some.inj ((DB.fileOf_of_eq hactive).symm.trans hfile)
    exact h.active _ hactive
  · rw [DB.fileOf_of_ne fun f hactive hid => hfirst ⟨f, hactive, hid⟩] at hfile
    exact (h.older fid file hfile).2

/-- What can be read of a database that starts over is guarded. -/
theorem Proc.StartsOver.guarded {options : Options} {p q : Proc ι} (h : p.StartsOver q)
    (hoptions : p.db.options = options) (hp : p.HandlesIn options.dirPath) {fid limit : ℕ}
    {file : DataFile} (hfile : p.db.fileOf fid = some file)
    (hlimit : limit < (file.content p.world.fs).length) :
    q.Guarded options fid limit ((file.content p.world.fs).drop limit) := by
  have hpath := hp.fileOf_eq hfile
  obtain ⟨c, hc⟩ : ∃ c, p.world.fs.file? file.path = some c := by
    rw [← Option.ne_none_iff_exists']
    intro hnone
    rw [DataFile.content, hnone] at hlimit
    exact Nat.not_lt_zero _ hlimit
  rw [content_eq_of_file? hc] at hlimit ⊢
  refine ⟨h.options.trans hoptions, fun f hf => ?_, ⟨file, h.older fid file hfile, hpath⟩, c,
    hpath ▸ h.files _ c ?_ hc, hlimit.le, rfl⟩
  · rw [h.active f hf]
    rfl
  · rw [hpath, hoptions]
    rfl

namespace DB

variable [Indexer ι]

/-- A key that is read is read from a file. -/
theorem get_eq_ok {db : DB ι} {fs : FS} {key value : Bytes} (h : db.get fs key = .ok value) :
    key ≠ [] ∧ ∃ pos file, Indexer.get db.index key = some pos ∧
      db.fileOf pos.fid = some file ∧ readValue (file.content fs) pos.offset = .ok value := by
  unfold get at h
  split at h
  · cases h
  refine ⟨‹_›, ?_⟩
  split at h
  · cases h
  · rename_i pos hpos
    unfold getValueByPosition at h
    split at h
    · cases h
    · rename_i file hfile
      exact ⟨pos, file, hpos, hfile, h⟩

/-- A place where the hint file of a merge cannot be opened. -/
def hintFails : World where
  fs := ∅
  outcomes := Function.update (fun _ => []) (.open ⟨getMergePath ['d'], .hintIndex⟩) [.fail]

/-- Two keys have been put there. -/
def twoKeys : Option (Session BTreeIndex) :=
  let r := (DB.open ⟨['d'], 100, false⟩ : Sys (DB BTreeIndex)).run hintFails
  (value? r).map fun db =>
    (Session.run ⟨⟨db, finalState r⟩, []⟩ [.put [97] [49], .put [98] [50]]).1

theorem inUse_twoKeys {s : Session BTreeIndex} (h : twoKeys = some s) :
    InUse ⟨['d'], 100, false⟩ s := by
  simp only [twoKeys, Option.map_eq_some_iff, value?_eq_some] at h
  obtain ⟨db, ⟨w, hrun⟩, rfl⟩ := h
  rw [hrun]
  exact (InUse.opened hrun).run _

/-- A merge of the two keys throws, and a third key is put over the first one. -/
theorem merge_twoKeys : ∃ s e q, twoKeys = some s ∧ s.proc.ThrowsEarly true minAvailableSize ∧
    (merge true minAvailableSize : DBM BTreeIndex Unit).run s.proc = .error e q ∧
    s.proc.db.get s.proc.world.fs [97] = .ok [49] ∧
    s.proc.db.get s.proc.world.fs [98] = .ok [50] ∧
    Indexer.get q.db.index [98] = some ⟨0, 9, 9⟩ ∧
    reach q.db.options.dataFileSize q.db.writer.writeOff q.outcomes [⟨[99], [51], .normal⟩] ≤ 9 ∧
    let r := (Session.run { s with proc := q } [.put [99] [51]]).1.proc
    r.db.get r.world.fs [97] = .ok [51] := by
  have hvalues : (twoKeys.any fun s =>
      decide (s.proc.MergeStarts true minAvailableSize ∧
        value? ((makeCopies : DBM BTreeIndex Unit).run
          { s.proc with db := { s.proc.db with isMerging := true } }) = none ∧
        value? ((merge true minAvailableSize : DBM BTreeIndex Unit).run s.proc) = none ∧
        s.proc.db.get s.proc.world.fs [97] = .ok [49] ∧
        s.proc.db.get s.proc.world.fs [98] = .ok [50] ∧
        let q := finalState ((merge true minAvailableSize : DBM BTreeIndex Unit).run s.proc)
        let r := (Session.run { s with proc := q } [.put [99] [51]]).1.proc
        Indexer.get q.db.index [98] = some ⟨0, 9, 9⟩ ∧
        reach q.db.options.dataFileSize q.db.writer.writeOff q.outcomes
          [⟨[99], [51], .normal⟩] ≤ 9 ∧ r.db.get r.world.fs [97] = .ok [51])) = true := by
    decide +kernel
  obtain ⟨s, hs, hvalues⟩ := (Option.any_eq_true _ _).1 hvalues
  obtain ⟨hstarts, hcopies, hmerge, ha, hb, hput⟩ := of_decide_eq_true hvalues
  have hthrows : s.proc.ThrowsEarly true minAvailableSize := by
    refine ⟨hstarts, ?_⟩
    cases hrun : (makeCopies : DBM BTreeIndex Unit).run
        { s.proc with db := { s.proc.db with isMerging := true } } with
    | ok _ r =>
      rw [hrun] at hcopies
      cases hcopies
    | error e r => exact ⟨e, r, rfl⟩
  cases hrun : (merge true minAvailableSize : DBM BTreeIndex Unit).run s.proc with
  | ok _ q =>
    rw [hrun] at hmerge
    cases hmerge
  | error e q =>
    rw [hrun] at hput
    exact ⟨s, e, q, hs, hthrows, hrun, ha, hb, hput⟩

end DB

end Bitcask
