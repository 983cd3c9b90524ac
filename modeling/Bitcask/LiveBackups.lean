import Bitcask.Backup
import Bitcask.Lives

/-!
# Backups of a living database

A backup makes all its changes to the file system in its target (`DB.backup_keeps`). If the
target is spared by the database (`DB.SparedBy`), which is neither inside the target nor around
it, the database goes on as if there had been no backup, whether the backup returns or throws
(`Life.Alive.afterBackup`).
-/

namespace Bitcask

open Sys Guarantee

namespace DB

variable {ι : Type} {dir : Path}

/-- The directory is apart from that of the database and from that of its merges. -/
def SparedBy (dirPath dir : Path) : Prop :=
  FS.Apart dirPath dir ∧ FS.Apart (getMergePath dirPath) dir

instance (dirPath dir : Path) : Decidable (SparedBy dirPath dir) :=
  inferInstanceAs (Decidable (_ ∧ _))

/-! ## What a backup keeps -/

/-- The database is the same but for the list of the file ids. -/
def BackingUp (J : World → Prop) (db : DB ι) (q : Proc ι) : Prop :=
  J q.world ∧ ∃ fileIds, q.db = { db with fileIds := fileIds }

section Keeps

variable {J : World → Prop} (hJ : World.Indifferent dir J)
include hJ

theorem backupFile_keeps (dirPath : Path) (name : FileName) :
    Keeps J (backupFile dirPath dir name) fun _ => True := by
  refine (World.Indifferent.read_keeps _).bind fun found _ => ?_
  split
  · exact (hJ.copyFile_keeps (FS.below_self dir) _).bind fun _ _ => Keeps.pure trivial
  · exact Keeps.pure trivial

theorem tryBackupFile_keeps (dirPath : Path) (name : FileName) :
    Keeps J (tryBackupFile dirPath dir name) fun _ => True :=
  (backupFile_keeps hJ dirPath name).tryCatch fun _ => Keeps.pure trivial

theorem backupOlderFiles_keeps (dirPath : Path) (active : Option DataFile) (fileIds : List ℕ) :
    Keeps J (backupOlderFiles dirPath dir active fileIds) fun _ => True := by
  induction fileIds with
  | nil => exact Keeps.pure trivial
  | cons fid rest ih =>
    have hmore (copied : Bool) : Keeps J (do
        let more ← backupOlderFiles dirPath dir active rest
        return copied || more) fun _ => True :=
      ih.bind fun more _ => Keeps.pure trivial
    rw [backupOlderFiles]
    dsimp only
    split
    · exact (Keeps.pure (Q := fun _ => True) trivial).bind fun copied _ => hmore copied
    · exact (tryBackupFile_keeps hJ _ _).bind fun copied _ => hmore copied

theorem backupActiveFile_keeps (dirPath : Path) (active : Option DataFile) :
    Keeps J (backupActiveFile dirPath dir active) fun _ => True := by
  cases active with
  | none => exact Keeps.pure trivial
  | some file => exact (backupFile_keeps hJ _ _).tryCatch fun _ => Keeps.throw _

theorem backupFiles_keeps (dirPath : Path) (active : Option DataFile) (fileIds : List ℕ) :
    Keeps J (backupFiles dirPath dir active fileIds) fun _ => True := by
  have hrest : Keeps J (do
      let _ ← tryBackupFile dirPath dir .hintIndex
      let _ ← tryBackupFile dirPath dir .seqNo : Sys Unit) fun _ => True :=
    (tryBackupFile_keeps hJ _ _).bind fun _ _ =>
      (tryBackupFile_keeps hJ _ _).bind fun _ _ => Keeps.pure trivial
  refine (backupActiveFile_keeps hJ _ _).bind fun _ _ =>
    (backupOlderFiles_keeps hJ _ _ _).bind fun _ _ => ?_
  split
  · exact (Keeps.throw (Q := fun _ => True) _).bind fun _ _ => hrest
  · exact hrest

/-- A backup changes the list of the file ids at most. -/
theorem backup_keeps (db : DB ι) :
    Keeps (BackingUp J db) (backup dir : DBM ι Unit) fun _ => True := by
  have hsys {α : Type} {m : Sys α} (hm : Keeps J m fun _ => True) :
      Keeps (BackingUp J db) (DBM.sys m) fun _ => True :=
    sys_keeps (fun _ h => h.1) (fun _ _ h hw => ⟨hw, h.2⟩) hm
  have hcopies : Keeps (BackingUp J db) (do
      let db := (← DBM.proc).db
      if db.fileIds = [] ∧ db.activeFile.isNone then return
      backupFiles db.options.dirPath dir db.activeFile db.fileIds : DBM ι Unit) fun _ => True := by
    refine Keeps.get.bind fun q _ => ?_
    dsimp only
    split
    · exact Keeps.pure trivial
    · exact hsys (backupFiles_keeps hJ _ _ _)
  refine (hsys hJ.createDirectory_keeps).bind fun _ _ => Keeps.get.bind fun q _ => ?_
  dsimp only
  split
  · refine (Keeps.modify fun q hq => ?_).bind fun _ _ => hcopies
    obtain ⟨hworld, fileIds, hdb⟩ := hq
    exact ⟨hworld, _, by rw [hdb]⟩
  · exact hcopies

end Keeps

end DB

/-- A backup into another directory changes nothing of the store. -/
theorem Life.Alive.afterBackup {ι : Type} [Indexer ι] {options : Options}
    {records : List LogRecord} {base : ℕ} {p : Proc ι} {store : BatchStore.Store Bytes Bytes}
    (h : Alive options records base ⟨p, []⟩ store) {dir : Path}
    (hdir : DB.SparedBy options.dirPath dir) :
    Alive options records base ⟨finalState ((DB.backup dir : DBM ι Unit).run p), []⟩ store := by
  obtain ⟨⟨⟨hnil, huntouched⟩, fileIds, hdb⟩, -⟩ := DB.backup_keeps
    ((World.indifferent_unfailing dir).and (World.indifferent_untouched dir p.world)) p.db p
    ⟨⟨h.outcomes, World.untouched_self _ _⟩, p.db.fileIds, rfl⟩
  generalize finalState ((DB.backup dir : DBM ι Unit).run p) = q at hnil huntouched hdb
  obtain ⟨db, w⟩ := q
  obtain rfl := hdb
  obtain ⟨hspared, hmergePath⟩ := hdir
  have hlookup := huntouched.last.1
  have hfile (name : FileName) :
      w.fs.file? ⟨options.dirPath, name⟩ = p.world.fs.file? ⟨options.dirPath, name⟩ := by
    rw [FS.file?, FS.file?, hlookup _ hspared.symm.not_below]
  have htidy : w.fs.Tidy options :=
    { others fid hne := (hfile _).trans (h.tidy.others fid hne)
      hint content hcontent := h.tidy.hint content ((hfile _).symm.trans hcontent)
      merge := (hlookup _ (hspared.not_below_append (by decide))).trans h.tidy.merge
      hierarchical := h.tidy.hierarchical.congr fun sub hsub =>
        hlookup sub (hmergePath.symm.not_below_both hsub) }
  have hcontent := h.stored.content
  rw [DB.firstPath, h.options_eq] at hcontent
  refine { h with stored := ⟨h.stored.active, ?_⟩, tidy := htidy, outcomes := hnil }
  rw [DB.firstPath, h.options_eq]
  exact (hfile _).trans hcontent

end Bitcask
