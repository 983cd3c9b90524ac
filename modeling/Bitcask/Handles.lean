import Bitcask.Appending
import Bitcask.Backup
import Bitcask.Locality

/-!
# Databases in use

A database is in use once it has been opened: requests are made, its files are merged and
backed up, and any of these may throw (`InUse`). All the time its handles are those of the
data files in its directory, by their ids (`InUse.handlesIn`).
-/

namespace Bitcask

open DataFile DBM Sys Guarantee World

variable {ι : Type}

/-- The handles of a database are those of the data files in a directory. -/
abbrev Proc.HandlesIn (dir : Path) : Proc ι → Prop := Proc.InDir dir fun _ => True

namespace DB

open Proc

variable {dir : Path} {α : Type}

/-- System calls do nothing to the handles. -/
theorem sys_handlesIn (m : Sys α) :
    Keeps (HandlesIn dir) (sys m : DBM ι α) fun _ => True :=
  sys_inDir fun _ _ => ⟨trivial, fun _ _ _ => trivial⟩

theorem indifferent_true : Indifferent dir fun _ => True :=
  ⟨fun _ _ _ _ _ => trivial, fun _ _ _ => trivial, fun _ _ => trivial⟩

theorem rotateMergeFiles_handlesIn :
    Keeps (HandlesIn dir) (rotateMergeFiles : DBM ι _) fun _ => True := by
  refine proc_inDir.bind fun p hp => ?_
  dsimp only
  split
  · rename_i file hactive
    refine Keeps.bind (Keeps.modify fun q hq => ?_) fun _ _ =>
      (setActiveDataFile_inDir indifferent_true).bind fun _ _ => sys_handlesIn _
    have hnone : HandlesIn dir { q with db := { q.db with activeFile := none } } :=
      hq.withActive (by simp)
    exact hnone.withOlder rfl (hp.active file hactive)
  · exact sys_handlesIn _

variable [Indexer ι]

theorem reload_handlesIn (currentSeq : ℕ) :
    Keeps (HandlesIn dir) (reload currentSeq : DBM ι Unit) fun _ => True := by
  have hrebuild : Keeps (HandlesIn dir) (rebuildIndex currentSeq : DBM ι Unit)
      fun _ => True := by
    unfold rebuildIndex
    refine Keeps.bind (Q := fun _ => True) (Keeps.tryCatch ?_ fun _ => Keeps.pure trivial)
      fun r _ => ?_
    · refine (createIndexer_inDir indifferent_true).bind fun _ _ => ?_
      refine Keeps.bind modifyDB_inDir fun _ _ => ?_
      refine (loadIndexFromHintFile_inDir indifferent_true).bind fun _ _ => ?_
      refine (loadIndexFromDataFiles_inDir indifferent_true).bind fun _ _ => ?_
      exact Keeps.bind modifyDB_inDir fun _ _ => Keeps.pure trivial
    · cases r <;> exact Keeps.pure trivial
  refine Keeps.bind modifyDB_inDir fun _ _ => ?_
  refine (loadDataFiles_inDir indifferent_true).bind fun _ _ => hrebuild.bind fun _ _ => ?_
  exact modifyDB_inDir

theorem copyAndReplace_handlesIn (mergePath : Path) (files : List DataFile) (mergeDb : DB ι) :
    Keeps (HandlesIn dir)
      (copyAndReplace mergePath files mergeDb : DBM ι Unit) fun _ => True := by
  have hother (other : DB ι) : Keeps (HandlesIn dir)
      (onOther other close : DBM ι Unit) fun _ => True := by
    intro p hp
    refine ⟨?_, fun _ _ _ => trivial⟩
    show HandlesIn dir (finalState (onOther other close p))
    unfold onOther
    split
    all_goals exact hp.congr rfl rfl rfl trivial
  have hcopies : Keeps (HandlesIn dir)
      (writeCopies mergePath files mergeDb : DBM ι Unit) fun _ => True := by
    refine Keeps.bind (sys_handlesIn _) fun _ _ => proc_inDir.bind fun p hp => ?_
    refine Keeps.bind (Q := fun _ => True) ?_ fun _ _ =>
      Keeps.bind (sys_handlesIn _) fun _ _ => hother _
    exact fun _ _ => ⟨hp.congr rfl rfl rfl trivial, fun _ _ _ => trivial⟩
  have hreplace : Keeps (HandlesIn dir) (replaceFiles mergePath : DBM ι Unit)
      fun _ => True := by
    refine Keeps.bind (Keeps.modify fun q hq => ?_) fun _ _ => proc_inDir.bind fun _ _ => ?_
    · exact ⟨hq.dirPath, by simp, by simp, trivial⟩
    · exact Keeps.bind (sys_handlesIn _) fun _ _ => Keeps.bind (sys_handlesIn _) fun _ _ =>
        Keeps.bind (sys_handlesIn _) fun _ _ => sys_handlesIn _
  exact hcopies.bind fun _ _ => proc_inDir.bind fun _ _ => hreplace.bind fun _ _ =>
    (reload_handlesIn _).bind fun _ _ => sys_handlesIn _

/-- Whatever becomes of a merge, the handles are those of the data files. -/
theorem merge_handlesIn (shouldMerge : Bool) (availableSize : ℕ) :
    Keeps (HandlesIn dir) (merge shouldMerge availableSize : DBM ι Unit)
      fun _ => True := by
  have hprepare : Keeps (HandlesIn dir) (prepareMerge : DBM ι _) fun _ => True := by
    refine proc_inDir.bind fun p _ => ?_
    have hrotate : Keeps (HandlesIn dir) (rotateMergeFiles : DBM ι _) fun _ => True :=
      rotateMergeFiles_handlesIn
    have hrest := hrotate.bind fun files _ =>
      Keeps.bind (sys_handlesIn (DB.open (ι := ι)
        { p.db.options with dirPath := getMergePath p.db.options.dirPath })) fun mergeDb _ =>
          Keeps.pure (a := (getMergePath p.db.options.dirPath, files, mergeDb))
            (Q := fun _ => True) trivial
    refine Keeps.bind (sys_handlesIn _) fun _ _ => ?_
    dsimp only
    split
    · exact Keeps.bind (sys_handlesIn _) fun _ _ => Keeps.bind (sys_handlesIn _) fun _ _ => hrest
    · exact Keeps.bind (sys_handlesIn _) fun _ _ => hrest
  have hfiles : Keeps (HandlesIn dir) (mergeFiles : DBM ι Unit) fun _ => True := by
    refine hprepare.bind fun x _ => ?_
    rcases x with ⟨mergePath, files, mergeDb⟩
    intro p hp
    have hcopied := (copyAndReplace_handlesIn mergePath files mergeDb p hp).1
    refine ⟨?_, fun _ _ _ => trivial⟩
    rw [show finalState _ = _ from finalState_withDestructor mergeDb _ p]
    exact hcopied.congr rfl rfl rfl trivial
  have hflag (b : Bool) : Keeps (HandlesIn dir)
      (modifyDB fun db => { db with isMerging := b } : DBM ι Unit) fun _ => True := modifyDB_inDir
  refine proc_inDir.bind fun p _ => ?_
  dsimp only
  split
  · exact Keeps.pure trivial
  split
  · exact Keeps.throw _
  refine (hflag true).bind fun _ _ => ?_
  split
  · exact (hflag false).bind fun _ _ => Keeps.throw _
  split
  · exact (hflag false).bind fun _ _ => Keeps.throw _
  exact (hfiles.tryCatch fun e => (hflag false).bind fun _ _ => Keeps.throw _).bind
    fun _ _ => hflag false

omit [Indexer ι] in
theorem backup_handlesIn (target : Path) :
    Keeps (HandlesIn dir) (backup target : DBM ι Unit) fun _ => True := by
  refine Keeps.bind (sys_handlesIn _) fun _ _ => proc_inDir.bind fun p _ => ?_
  have hrest : Keeps (HandlesIn dir) (do
      let db := (← proc).db
      if db.fileIds = [] ∧ db.activeFile.isNone then return
      backupFiles db.options.dirPath target db.activeFile db.fileIds : DBM ι Unit)
      fun _ => True := by
    refine proc_inDir.bind fun _ _ => ?_
    dsimp only
    split
    · exact Keeps.pure trivial
    · exact sys_handlesIn _
  dsimp only
  split
  · exact Keeps.bind modifyDB_inDir fun _ _ => hrest
  · exact hrest

end DB

variable [Indexer ι]

/-- A database in use, whatever becomes of its calls. -/
inductive InUse (options : Options) : Session ι → Prop
  | opened {w w' : World} {db : DB ι}
      (hopen : (DB.open options : Sys (DB ι)).run w = .ok db w') : InUse options ⟨⟨db, w'⟩, []⟩
  | step {s : Session ι} (op : Op) : InUse options s → InUse options (s.step op).1
  | merged {s : Session ι} (shouldMerge : Bool) (availableSize : ℕ) : InUse options s →
      InUse options { s with
        proc := finalState ((DB.merge shouldMerge availableSize).run s.proc) }
  | backedUp {s : Session ι} (dir : Path) : InUse options s →
      InUse options { s with proc := finalState ((DB.backup dir).run s.proc) }

theorem InUse.run {options : Options} {s : Session ι} (h : InUse options s) (ops : List Op) :
    InUse options (s.run ops).1 := by
  induction ops generalizing s with
  | nil => exact h
  | cons op ops ih => exact ih (.step op h)

theorem InUse.handlesIn {options : Options} {s : Session ι} (h : InUse options s) :
    s.proc.HandlesIn options.dirPath := by
  induction h with
  | opened hopen =>
    obtain ⟨-, hdb⟩ := DB.open_inDir (ι := ι) DB.indifferent_true rfl _ trivial
    exact hdb _ _ hopen _ trivial
  | step op _ ih =>
    exact Session.step_of_append (fun _ _ hsame hp => hp.congr hsame.options hsame.activeFile
      hsame.olderFiles trivial) (DB.appendLogRecordInternal_inDir DB.indifferent_true) ih op
  | merged shouldMerge availableSize _ ih =>
    exact (DB.merge_handlesIn shouldMerge availableSize _ ih).1
  | backedUp dir _ ih => exact (DB.backup_handlesIn dir _ ih).1

end Bitcask

