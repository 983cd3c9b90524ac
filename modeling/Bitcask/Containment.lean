import Mathlib.Data.List.TakeWhile
import Bitcask.Locality

/-!
# What stays in a directory

A database writes the files of its own directory. What is needed to see this is that
its active file is there (`Proc.Within`): opening a database establishes it
(`open_keeps`), and appending records keeps it (`appendLogRecordInternal_run_within`).
If all calls on the files of the directory succeed, so does appending, and the files
of the other directories stay as they are.
-/

namespace Bitcask

open DataFile DBM Sys Guarantee

/-- The path a call is made on. -/
def Call.path : Call → FilePath
  | .open path => path
  | .write path => path

/-- All calls on the files of a directory succeed. -/
def World.Quiet (dir : Path) (w : World) : Prop := ∀ c : Call, c.path.dir = dir → w.outcomes c = []

/-- Calls only take outcomes away. -/
theorem World.indifferent_quiet (d dir : Path) : Indifferent d (Quiet dir) where
  change _ _ _ _ hw := hw
  next w c hw c' hc' := by
    by_cases heq : c' = c
    · rw [heq, next_outcomes_self, ← heq, hw c' hc']
      rfl
    · rw [next_outcomes_of_ne _ heq, hw c' hc']
  draw _ hw := hw

/-! ## Handles of a directory's files -/

theorem openAuxFile_path {dirPath : Path} {name : FileName} {w w' : World} {file : DataFile}
    (h : (openAuxFile dirPath name).run w = .ok file w') : file.path = ⟨dirPath, name⟩ := by
  obtain ⟨_, _, -, h⟩ := Guarantee.bind_eq_ok h
  obtain ⟨_, _, -, h⟩ := Guarantee.bind_eq_ok h
  cases h
  rfl

/-! ## Databases in a directory -/

/-- Nothing changes outside of a directory. -/
def World.SameOutside (dir : Path) (w w' : World) : Prop :=
  ∀ path : FilePath, path.dir ≠ dir → w'.fs.file? path = w.fs.file? path

theorem World.SameOutside.trans {dir : Path} {w w' w'' : World} (h : w.SameOutside dir w')
    (h' : w'.SameOutside dir w'') : w.SameOutside dir w'' :=
  fun path hne => (h' path hne).trans (h path hne)

variable {ι : Type}

/-- The database is the one of a directory, where its active file is, too, and
    where all calls succeed. -/
structure Proc.Within (dir : Path) (p : Proc ι) : Prop where
  dirPath : p.db.options.dirPath = dir
  active : ∀ file, p.db.activeFile = some file → file.path.dir = dir
  quiet : p.world.Quiet dir

/-- A database with some options, while calls on the files of another directory succeed. -/
def Proc.Beside (options : Options) (dir : Path) (p : Proc ι) : Prop :=
  p.db.options = options ∧ p.world.Quiet dir

namespace Proc.Within

variable {dir : Path} {p q : Proc ι}

/-- The handle of the active file and the world may change. -/
theorem congr (h : p.Within dir) (hoptions : q.db.options = p.db.options)
    (hactive : ∀ file, q.db.activeFile = some file → file.path.dir = dir)
    (hworld : q.world.Quiet dir) : q.Within dir :=
  ⟨by rw [hoptions, h.dirPath], hactive, hworld⟩

end Proc.Within

namespace DB

open Proc World

variable {dir : Path} {α : Type}

/-- A database is opened in its directory. -/
theorem open_keeps [Indexer ι] (options : Options) :
    Keeps (Quiet options.dirPath) («open» options : Sys (DB ι))
      fun db => db.options.dirPath = options.dirPath ∧
        ∀ file, db.activeFile = some file → file.path.dir = options.dirPath := by
  intro w hw
  obtain ⟨hquiet, hdb⟩ := open_inDir (ι := ι) (indifferent_quiet _ _) rfl w hw
  refine ⟨hquiet, fun db w' hrun => ?_⟩
  have hopened := hdb db w' hrun w hw
  exact ⟨hopened.dirPath, fun file hfile => congrArg FilePath.dir (hopened.active file hfile)⟩

/-! ## Appending in a directory -/

variable {p : Proc ι}

/-- The next data file is opened in the directory. -/
theorem setActiveDataFile_run_within (hp : p.Within dir) :
    ∃ file q, (setActiveDataFile : DBM ι Unit).run p = .ok () q ∧ q.Within dir ∧
      q.db.activeFile = some file ∧ p.world.SameOutside dir q.world := by
  obtain ⟨fileId, hrun⟩ : ∃ fileId, (setActiveDataFile : DBM ι Unit).run p =
      (do let file ← openDataFile p.db.options.dirPath fileId .standardFio
          modifyDB fun db => { db with activeFile := some file } : DBM ι Unit).run p :=
    ⟨_, bind_ok (proc_run p)⟩
  have hdir : (getDataFileName p.db.options.dirPath fileId).dir = dir := hp.dirPath
  have hopen := hp.quiet (.open (getDataFileName p.db.options.dirPath fileId)) hdir
  rw [bind_ok (lift_ok (openDataFile_run hopen))] at hrun
  refine ⟨_, _, hrun, hp.congr rfl (fun file hfile => ?_) (fun c hc => ?_), rfl,
    fun path hne => opened_file?_of_ne _ _ fun heq => hne (heq ▸ hdir)⟩
  · obtain rfl := Option.some.inj hfile
    exact hdir
  · rw [opened_outcomes]
    exact hp.quiet c hc

/-- The active file is in the directory, and is opened there if there is none. -/
theorem activeDataFile_run_within (hp : p.Within dir) :
    ∃ file q, (activeDataFile : DBM ι DataFile).run p = .ok file q ∧ q.Within dir ∧
      q.db.activeFile = some file ∧ p.world.SameOutside dir q.world := by
  cases hactive : p.db.activeFile with
  | some file => exact ⟨file, p, activeDataFile_run hactive, hp, hactive, fun _ _ => rfl⟩
  | none =>
    obtain ⟨file, q, hrun, hq, hfile, hsame⟩ := setActiveDataFile_run_within hp
    refine ⟨file, q, ?_, hq, hfile, hsame⟩
    rw [activeDataFile, bind_ok (proc_run p), hactive]
    show (setActiveDataFile >>= fun _ => proc >>= fun _ => _).run p = _
    rw [bind_ok hrun, bind_ok (proc_run q), hfile]
    rfl

/-- Writing a record to the active file succeeds in a directory where all calls do. -/
theorem writeActive_run_within (hp : p.Within dir) (data : Bytes) :
    ∃ pos q, (do
        let file ← activeDataFile
        let written ← file.write data
        modifyDB fun db => { db with activeFile := some written }
        return ⟨file.fileId, file.writeOff, data.length % 2 ^ 32⟩ : DBM ι LogRecordPos).run p =
          .ok pos q ∧ q.Within dir ∧ p.world.SameOutside dir q.world := by
  obtain ⟨file, q, hrun, hq, hactive, hsame⟩ := activeDataFile_run_within hp
  have hdir := hq.active file hactive
  have hwrite : (file.write data).run q.world = _ :=
    DataFile.write_ok file (next_of_nil (hq.quiet (.write _) hdir))
  refine ⟨⟨file.fileId, file.writeOff, data.length % 2 ^ 32⟩,
    ⟨{ q.db with activeFile := some { file with writeOff := file.writeOff + data.length } },
      q.world.wrote file data⟩, ?_, hq.congr rfl (fun file' hfile' => ?_) hq.quiet,
      fun path hne => ?_⟩
  · rw [bind_ok hrun, bind_ok (lift_ok hwrite)]
    rfl
  · obtain rfl := Option.some.inj hfile'
    exact hdir
  · have hpath : path ≠ file.path := fun heq => hne (by rw [heq, hdir])
    rw [World.wrote_file?_of_ne _ _ _ hpath, hsame path hne]

/-- Appending succeeds in a directory where all calls do. -/
theorem appendLogRecordInternal_run_within (hp : p.Within dir) (record : LogRecord) :
    ∃ pos q, (appendLogRecordInternal record : DBM ι _).run p = .ok pos q ∧ q.Within dir ∧
      p.world.SameOutside dir q.world := by
  obtain ⟨file, p₁, hrun₁, hp₁, -, hsame₁⟩ := activeDataFile_run_within hp
  rw [appendLogRecordInternal, bind_ok hrun₁]
  show ∃ pos q, (proc >>= fun _ => _).run p₁ = .ok pos q ∧ _
  rw [bind_ok (proc_run p₁)]
  split
  · -- The file is rotated, and the record is written to its successor.
    have hnone : Within dir { p₁ with db := { p₁.db with
        activeFile := none
        olderFiles := p₁.db.olderFiles.insert file.fileId file
        fileIds := addFileId p₁.db.fileIds file.fileId } } :=
      hp₁.congr rfl (by simp) hp₁.quiet
    obtain ⟨_, p₂, hrun₂, hp₂, -, hsame₂⟩ := setActiveDataFile_run_within hnone
    have hrotate : (rotate file : DBM ι Unit).run p₁ = .ok () p₂ :=
      (bind_ok (modifyDB_run _ p₁)).trans hrun₂
    obtain ⟨pos, q, hrun, hq, hsame⟩ := writeActive_run_within hp₂ record.encode
    exact ⟨pos, q, (bind_ok hrotate).trans hrun, hq, hsame₁.trans (hsame₂.trans hsame)⟩
  · obtain ⟨pos, q, hrun, hq, hsame⟩ := writeActive_run_within hp₁ record.encode
    exact ⟨pos, q, hrun, hq, hsame₁.trans hsame⟩

/-! ## Merges -/

/-- The directory of a merge has the name of that of the database, with a suffix. -/
theorem getMergePath_eq (dirPath : Path) : getMergePath dirPath = dirPath ++ mergeDirSuffix := by
  unfold getMergePath
  split
  · rename_i hsep
    have hsplit := List.takeWhile_append_dropWhile (p := (· ≠ '/')) (l := dirPath.reverse)
    set name := dirPath.reverse.takeWhile (· ≠ '/') with hname
    obtain ⟨sep, parent, hparent⟩ : ∃ sep parent,
        dirPath.reverse.dropWhile (· ≠ '/') = sep :: parent := by
      refine List.exists_cons_of_ne_nil fun hnil => ?_
      have hall := List.dropWhile_eq_nil_iff.1 hnil '/' (List.mem_reverse.2 hsep)
      simp at hall
    have hhead : sep = '/' := by
      have hhead := List.head?_dropWhile_not (· ≠ '/') dirPath.reverse
      rw [hparent] at hhead
      simpa using hhead
    have hdir : dirPath = parent.reverse ++ ['/'] ++ name.reverse := by
      rw [← List.reverse_reverse dirPath, ← hsplit, hparent, hhead]
      simp
    have hlength : dirPath.length - name.reverse.length - 1 = parent.reverse.length := by
      rw [hdir]
      simp
      omega
    dsimp only
    rw [hlength]
    conv_lhs => rw [hdir]
    conv_rhs => rw [hdir]
    simp
  · rfl

theorem length_getMergePath (dirPath : Path) :
    (getMergePath dirPath).length = dirPath.length + 6 := by
  rw [getMergePath_eq, List.length_append]
  rfl

theorem getMergePath_ne (dirPath : Path) : getMergePath dirPath ≠ dirPath := by
  intro h
  have hlength := length_getMergePath dirPath
  rw [h] at hlength
  omega

/-- The directory of a database is not in that of its merge. -/
theorem not_below_getMergePath (dirPath : Path) :
    FS.below (getMergePath dirPath) dirPath = false := by
  have hlength := length_getMergePath dirPath
  have hprefix : ¬getMergePath dirPath ++ ['/'] <+: dirPath := by
    intro h
    have := h.length_le
    rw [List.length_append] at this
    omega
  simpa [FS.below, Ne.symm (getMergePath_ne dirPath), ← Bool.not_eq_true,
    List.isPrefixOf_iff_prefix] using hprefix

/-- Neither is its subdirectory for merges. -/
theorem merge_not_below (dirPath : Path) :
    FS.below (getMergePath dirPath) (dirPath ++ "/merge".toList) = false := by
  rw [getMergePath_eq, FS.below, Bool.or_eq_false_iff]
  refine ⟨by simp [mergeDirSuffix], Bool.eq_false_iff.2 fun h => ?_⟩
  rw [List.isPrefixOf_iff_prefix, List.append_assoc, List.prefix_append_right_inj] at h
  exact absurd h (by decide)

/-- System calls leave the database beside the directory. -/
theorem sys_beside {options : Options} {m : Sys α} {Q : α → Prop} (hm : Keeps (Quiet dir) m Q) :
    Keeps (Beside options dir) (sys m : DBM ι α) Q :=
  sys_keeps (fun _ hp => hp.2) (fun _ _ hp hw => ⟨hp.1, hw⟩) hm

/-- The files to be merged are in the database's directory. -/
theorem rotateMergeFiles_beside (options : Options) :
    Keeps (Beside options dir) (rotateMergeFiles : DBM ι (List DataFile))
      fun files => ∀ file ∈ files, file.path.dir = options.dirPath := by
  have hJ := indifferent_quiet options.dirPath dir
  have hfiles (fids : List ℕ) : Keeps (Quiet dir) (openMergeFiles options.dirPath fids)
      fun files => ∀ file ∈ files, file.path.dir = options.dirPath := by
    induction fids with
    | nil => exact Keeps.pure (List.forall_mem_nil _)
    | cons fid rest ih =>
      refine (hJ.openDataFile_keeps fid .standardFio).bind fun file hfile => ih.bind
        fun files hfiles => Keeps.pure (List.forall_mem_cons.2 ⟨?_, hfiles⟩)
      exact congrArg FilePath.dir hfile.2
  refine Keeps.bind (Keeps.get (I := Beside options dir)) fun p hp => ?_
  dsimp only
  have hpath := congrArg Options.dirPath hp.1
  rw [hpath]
  split
  · refine Keeps.bind (Keeps.modify (by exact fun q hq => hq)) fun _ _ => ?_
    refine Keeps.bind (Q := fun _ => True) ?_ fun _ _ => sys_beside (hfiles _)
    refine Keeps.bind (Keeps.get (I := Beside options dir)) fun q hq => ?_
    dsimp only
    rw [congrArg Options.dirPath hq.1]
    refine Keeps.bind (sys_beside (hJ.openDataFile_keeps _ .standardFio)) fun file _ => ?_
    exact Keeps.modify (by exact fun r hr => hr)
  · exact sys_beside (hfiles _)

/-- A merge prepared: the files are in the database's directory, and the database
    they are copied to is in the merge directory. -/
theorem prepareMerge_beside [Indexer ι] (options : Options) :
    Keeps (Beside options (getMergePath options.dirPath))
      (prepareMerge : DBM ι (Path × List DataFile × DB ι))
      fun x => x.1 = getMergePath options.dirPath ∧
        (∀ file ∈ x.2.1, file.path.dir = options.dirPath) ∧ x.2.2.options.dirPath = x.1 ∧
        ∀ file, x.2.2.activeFile = some file → file.path.dir = x.1 := by
  set dir := getMergePath options.dirPath with hdir
  have hJ := indifferent_quiet dir dir
  refine Keeps.bind Keeps.get fun p hp => ?_
  dsimp only
  rw [hp.1, ← hdir]
  have hrest : Keeps (Beside options dir) (do
      let files ← rotateMergeFiles
      let mergeDb ← DB.open (ι := ι) { options with dirPath := dir }
      return (dir, files, mergeDb) : DBM ι (Path × List DataFile × DB ι))
      fun x => x.1 = dir ∧ (∀ file ∈ x.2.1, file.path.dir = options.dirPath) ∧
        x.2.2.options.dirPath = x.1 ∧
        ∀ file, x.2.2.activeFile = some file → file.path.dir = x.1 := by
    refine (rotateMergeFiles_beside options).bind fun files hfiles => ?_
    refine (sys_keeps (fun _ hp => hp.2) (fun _ _ hp hw => ⟨hp.1, hw⟩)
      (open_keeps { options with dirPath := dir })).bind fun mergeDb hdb => ?_
    exact Keeps.pure ⟨rfl, hfiles, hdb⟩
  have hcreate : Keeps (Beside options dir) (createDirectory dir : DBM ι Unit) fun _ => True :=
    sys_beside hJ.createDirectory_keeps
  refine Keeps.bind (sys_beside (Indifferent.read_keeps _)) fun found _ => ?_
  split
  · refine Keeps.bind (sys_beside (hJ.removeDirectory_keeps (FS.below_self dir))) fun _ _ => ?_
    exact hcreate.bind fun _ _ => hrest
  · exact hcreate.bind fun _ _ => hrest

end DB

end Bitcask
