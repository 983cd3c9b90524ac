import Bitcask.FailedMerges
import Bitcask.Merges

/-!
# What a merge passes through

A merge of a database that keeps its records in the first data file works in a directory of
its own, then removes the file, copies the merged one to its place and loads it. At each moment
of it the first data file holds the records, or is away, or holds the first chunks of the merged
ones (`Unrotated.merge_passes`). Between the moment when the file is removed and the one when
the last chunk has been copied, data are missing.
-/

namespace Bitcask

open Framing Transaction DataFile DBM Sys Guarantee

/-- Making a directory anew touches nothing else. -/
theorem World.untouched_renewed (w : World) (dir : Path) : w.Untouched dir (w.renewed dir) := by
  have hJ := World.indifferent_untouched dir w
  have hremoved : w.Untouched dir
      (if w.fs.directoryExists dir then w.change (w.fs.removeDirectory dir) else w) := by
    split
    · exact hJ.change w _ (fun _ hd => FS.lookup_removeDirectory_of_not_below hd)
        (fun h => h.removeDirectory dir) (World.untouched_self dir w)
    · exact World.untouched_self dir w
  exact hJ.change _ _ (fun _ hd => FS.lookup_createDirectory_of_ne
    (FS.ne_of_not_below (FS.below_self dir) hd)) (fun _ => FS.hierarchical_createDirectory _ _)
    hremoved

/-! ## Directories a database can be opened in -/

/-- Nothing is in the directory of a database, or next to it, that would be in its way: data
    files but the first one, a hint file that cannot be read, or what merges have left behind. -/
structure FS.Tidy (options : Options) (fs : FS) : Prop where
  others : ∀ fid ≠ 0, fs.file? (getDataFileName options.dirPath fid) = none
  hint : DB.HintFits fs options.dirPath
  merge : fs.lookup (options.dirPath ++ "/merge".toList) = none
  hierarchical : fs.Hierarchical (DB.getMergePath options.dirPath)

namespace FS.Tidy

variable {options : Options} {fs fs' : FS}

/-- Other directories and the first data file do not matter. -/
theorem congr (h : fs.Tidy options)
    (hothers : ∀ fid ≠ 0, fs'.file? (getDataFileName options.dirPath fid) =
      fs.file? (getDataFileName options.dirPath fid))
    (hhint : fs'.file? ⟨options.dirPath, .hintIndex⟩ = fs.file? ⟨options.dirPath, .hintIndex⟩)
    (hlookup : ∀ dir ≠ options.dirPath, fs'.lookup dir = fs.lookup dir) : fs'.Tidy options where
  others fid hne := (hothers fid hne).trans (h.others fid hne)
  hint content hcontent := h.hint content (hhint.symm.trans hcontent)
  merge := (hlookup _ (DB.merge_ne _)).trans h.merge
  hierarchical := h.hierarchical.congr fun sub hsub => hlookup sub fun heq => by
    rw [heq, DB.not_below_getMergePath] at hsub
    cases hsub

end FS.Tidy

/-! ## In the middle of a merge -/

/-- Where a merge may be: the first data file holds the records, or the first chunks of the
    copies of them, or is away, and the hint file can be read, or holds the first chunks of the
    hints to the copies. Nothing else is in the way. -/
structure FS.Midway (options : Options) (records copies : List LogRecord) (fs : FS) : Prop where
  others : ∀ fid ≠ 0, fs.file? (getDataFileName options.dirPath fid) = none
  merge : fs.lookup (options.dirPath ++ "/merge".toList) = none
  hierarchical : fs.Hierarchical (DB.getMergePath options.dirPath)
  first : fs.file? (getDataFileName options.dirPath 0) = some (encodeAll records) ∨
    fs.file? (getDataFileName options.dirPath 0) = none ∨
    ∃ n, fs.file? (getDataFileName options.dirPath 0) =
      some ((encodeAll copies).take (n * copyBufferSize))
  hint : DB.HintFits fs options.dirPath ∨
    ∃ n, fs.file? ⟨options.dirPath, .hintIndex⟩ =
      some ((encodeAll (DB.hintRecords copies)).take (n * copyBufferSize))

namespace FS.Midway

variable {options : Options} {records copies : List LogRecord} {fs fs' : FS}

theorem of_tidy (h : fs.Tidy options)
    (hfirst : fs.file? (getDataFileName options.dirPath 0) = some (encodeAll records)) :
    fs.Midway options records copies :=
  ⟨h.others, h.merge, h.hierarchical, .inl hfirst, .inl h.hint⟩

/-- If the hint file can be read, nothing is in the way of opening. -/
theorem tidy (h : fs.Midway options records copies) (hhint : DB.HintFits fs options.dirPath) :
    fs.Tidy options :=
  ⟨h.others, hhint, h.merge, h.hierarchical⟩

/-- What is in the directory of the database decides. -/
theorem congr (h : fs.Midway options records copies)
    (hdir : fs'.lookup options.dirPath = fs.lookup options.dirPath)
    (hmerge : fs'.lookup (options.dirPath ++ "/merge".toList) =
      fs.lookup (options.dirPath ++ "/merge".toList))
    (hdirs : fs'.Hierarchical (DB.getMergePath options.dirPath)) :
    fs'.Midway options records copies := by
  have hfile (name : FileName) : fs'.file? ⟨options.dirPath, name⟩ =
      fs.file? ⟨options.dirPath, name⟩ := FS.file?_congr hdir
  refine ⟨fun fid hne => (hfile _).trans (h.others fid hne), hmerge.trans h.merge, hdirs, ?_,
    h.hint.imp (fun hfits content hcontent => hfits content ((hfile _).symm.trans hcontent))
      fun ⟨n, hchunks⟩ => ⟨n, (hfile _).trans hchunks⟩⟩
  rw [getDataFileName, hfile]
  exact h.first

/-- Changes outside of the directory of the database. -/
theorem of_lookup (h : fs.Midway options records copies)
    (hlookup : ∀ d, FS.below (DB.getMergePath options.dirPath) d = false → fs'.lookup d = fs.lookup d)
    (hdirs : fs.Hierarchical (DB.getMergePath options.dirPath) →
      fs'.Hierarchical (DB.getMergePath options.dirPath)) : fs'.Midway options records copies :=
  h.congr (hlookup _ (DB.not_below_getMergePath _)) (hlookup _ (DB.merge_not_below _))
    (hdirs h.hierarchical)

/-- One file of the directory changes. -/
theorem of_file (h : fs.Midway options records copies) {name : FileName}
    (hfile : ∀ path, path ≠ ⟨options.dirPath, name⟩ → fs'.file? path = fs.file? path)
    (hlookup : ∀ dir ≠ options.dirPath, fs'.lookup dir = fs.lookup dir)
    (hothers : ∀ fid ≠ 0, name = .data fid → fs'.file? ⟨options.dirPath, name⟩ = none)
    (hfirst : name = .data 0 → fs'.file? ⟨options.dirPath, name⟩ = none ∨
      ∃ n, fs'.file? ⟨options.dirPath, name⟩ = some ((encodeAll copies).take (n * copyBufferSize)))
    (hhint : name = .hintIndex → fs'.file? ⟨options.dirPath, name⟩ = none ∨
      ∃ n, fs'.file? ⟨options.dirPath, name⟩ =
        some ((encodeAll (DB.hintRecords copies)).take (n * copyBufferSize))) :
    fs'.Midway options records copies := by
  refine ⟨fun fid hne => ?_, (hlookup _ (DB.merge_ne _)).trans h.merge, ?_, ?_, ?_⟩
  · by_cases hname : name = .data fid
    · subst hname
      exact hothers fid hne rfl
    · rw [hfile _ (by simpa [getDataFileName] using Ne.symm hname), h.others fid hne]
  · exact h.hierarchical.congr fun sub hsub => hlookup sub fun heq => by
      rw [heq, DB.not_below_getMergePath] at hsub
      cases hsub
  · by_cases hname : name = .data 0
    · subst hname
      exact .inr (hfirst rfl)
    · rw [hfile _ (by simpa [getDataFileName] using Ne.symm hname)]
      exact h.first
  · by_cases hname : name = .hintIndex
    · subst hname
      refine (hhint rfl).imp_left fun hnone content hcontent => ?_
      cases hnone.symm.trans hcontent
    · have hsame := hfile ⟨options.dirPath, .hintIndex⟩ (by simpa using Ne.symm hname)
      rw [DB.HintFits, hsame]
      exact h.hint

theorem remove (h : fs.Midway options records copies) (name : FileName) :
    (fs.remove ⟨options.dirPath, name⟩).Midway options records copies := by
  have hself : (fs.remove ⟨options.dirPath, name⟩).file? ⟨options.dirPath, name⟩ = none :=
    FS.file?_remove_self
  exact h.of_file (fun path hne => FS.file?_remove_of_ne hne)
    (fun dir hne => FS.lookup_remove_of_ne hne) (fun _ _ _ => hself) (fun _ => .inl hself)
    fun _ => .inl hself

/-- A file gets chunks of the contents that it has in a merge. -/
theorem store (h : fs.Midway options records copies) {name : FileName} {content : Bytes}
    (hothers : ∀ fid ≠ 0, name ≠ .data fid)
    (hfirst : name = .data 0 → ∃ n, content = (encodeAll copies).take (n * copyBufferSize))
    (hhint : name = .hintIndex →
      ∃ n, content = (encodeAll (DB.hintRecords copies)).take (n * copyBufferSize)) :
    (fs.store ⟨options.dirPath, name⟩ content).Midway options records copies := by
  by_cases hdir : fs.directoryExists options.dirPath = true
  · have hself : (fs.store ⟨options.dirPath, name⟩ content).file? ⟨options.dirPath, name⟩ =
        some content := FS.file?_store_self hdir
    exact h.of_file (fun path hne => FS.file?_store_of_ne hne)
      (fun dir hne => FS.lookup_store_of_ne hne) (fun fid hne hname => absurd hname (hothers fid hne))
      (fun hname => .inr ((hfirst hname).imp fun n hchunks => hself.trans (congrArg some hchunks)))
      fun hname => .inr ((hhint hname).imp fun n hchunks => hself.trans (congrArg some hchunks))
  · have hnone : fs.lookup options.dirPath = none := by simpa [FS.directoryExists] using hdir
    rwa [FS.store, hnone]

end FS.Midway

/-! ## The steps of a merge -/

namespace World.Passes

variable {options : Options} {records copies : List LogRecord} {w w' : World}

theorem withoutDataFiles (h : w.Passes (FS.Midway options records copies) w') (fids : List ℕ) :
    w.Passes (FS.Midway options records copies)
      (DB.withoutDataFiles w' options.dirPath fids) := by
  induction fids generalizing w' with
  | nil => exact h
  | cons fid fids ih =>
    refine ih ?_
    show w.Passes _ (w'.withoutFile (getDataFileName options.dirPath fid))
    rw [World.withoutFile]
    split
    · exact h.change (h.last.remove (.data fid))
    · exact h

/-- A file is copied into the directory of the database, chunk by chunk. -/
theorem copied (h : w.Passes (FS.Midway options records copies) w') {src : Path} {name : FileName}
    (hothers : ∀ fid ≠ 0, name ≠ .data fid)
    (hfirst : name = .data 0 → ∀ content, w'.fs.file? ⟨src, name⟩ = some content →
      content = encodeAll copies)
    (hhint : name = .hintIndex → ∀ content, w'.fs.file? ⟨src, name⟩ = some content →
      content = encodeAll (DB.hintRecords copies)) :
    w.Passes (FS.Midway options records copies) (w'.copied src options.dirPath name) := by
  rw [World.copied]
  split
  · rename_i content hcontent
    refine World.rewritten_induction (P := w.Passes (FS.Midway options records copies))
      (fun w'' n hpasses => hpasses.change (hpasses.last.store hothers
        (fun hname => ⟨n, ?_⟩) fun hname => ⟨n, ?_⟩)) h
    · rw [hfirst hname content hcontent]
    · rw [hhint hname content hcontent]
  · exact h

end World.Passes

namespace DB

variable {ι : Type} [Indexer ι] {options : Options} {records copies : List LogRecord}

omit [Indexer ι] in
theorem replacedWorld_passes {w w' : World}
    (h : w.Passes (FS.Midway options records copies) w') {p : Proc ι}
    (hmade : CopiesMade options p.world copies w') (fids : List ℕ) : w.Passes (FS.Midway options records copies)
      (replacedWorld w' (getMergePath options.dirPath) options.dirPath fids) := by
  have hne := getMergePath_ne options.dirPath
  obtain ⟨-, -, -, hlookup⟩ := withoutFiles_spec options.dirPath fids w'
  have hfile (name : FileName) : (withoutDataFiles w' options.dirPath fids).fs.file?
      ⟨getMergePath options.dirPath, name⟩ = w'.fs.file? ⟨getMergePath options.dirPath, name⟩ :=
    FS.file?_congr (hlookup _ hne)
  have hdata : w.Passes (FS.Midway options records copies)
      ((withoutDataFiles w' options.dirPath fids).copied (getMergePath options.dirPath)
        options.dirPath (.data 0)) := by
    refine (h.withoutDataFiles fids).copied (fun fid hne heq => ?_) (fun _ content hcontent => ?_)
      nofun
    · exact hne (FileName.data.inj heq).symm
    · rw [hfile] at hcontent
      exact Option.some.inj (hcontent.symm.trans hmade.first)
  have hhints : w.Passes (FS.Midway options records copies)
      (((withoutDataFiles w' options.dirPath fids).copied (getMergePath options.dirPath)
        options.dirPath (.data 0)).copied (getMergePath options.dirPath) options.dirPath
          .hintIndex) := by
    refine hdata.copied nofun nofun fun _ content hcontent => ?_
    rw [FS.file?_congr (World.copied_lookup_of_ne _ _ _ _ hne), hfile] at hcontent
    exact Option.some.inj (hcontent.symm.trans hmade.hint)
  exact hhints.copied nofun nofun nofun

/-- A merge is prepared in a directory of its own. -/
theorem prepareMerge_untouched {p q : Proc ι} (h : Mergeable options p)
    {x : Path × List DataFile × DB ι} (hrun : (prepareMerge : DBM ι _).run p = .ok x q) :
    let J := p.world.Untouched (getMergePath options.dirPath)
    J q.world ∧ ∀ w, J w → Proc.InDir (getMergePath options.dirPath) J ⟨x.2.2, w⟩ := by
  intro J
  obtain ⟨file, hactive, hid⟩ := h.active
  obtain ⟨content, hcontent⟩ := Option.isSome_iff_exists.1 h.first
  set mergePath := getMergePath options.dirPath with hmergePath
  have hJ : World.Indifferent mergePath J := World.indifferent_untouched _ _
  have hrenewed : J (p.world.renewed mergePath) := World.untouched_renewed _ _
  have hfirst : (p.world.renewed mergePath).fs.file? p.db.firstPath = some content := by
    rw [DB.firstPath, h.options_eq, ← hcontent]
    exact FS.file?_congr (World.renewed_lookup_of_not_below (not_below_getMergePath _))
  have hrotate := rotateMergeFiles_run (p := ⟨p.db, p.world.renewed mergePath⟩) hactive hid
    h.olderFiles_eq hfirst (by rw [World.renewed_outcomes, h.outcomes])
  obtain ⟨hworld, hopened⟩ := open_inDir (ι := ι) hJ
    (show (mergeOptions options).dirPath = mergePath from rfl) _ hrenewed
  rw [prepareMerge_eq, h.options_eq, ← hmergePath, bind_ok hrotate] at hrun
  cases hopen : (DB.open (mergeOptions options) : Sys (DB ι)).run (p.world.renewed mergePath) with
  | error e w =>
    rw [bind_error (lift_error hopen)] at hrun
    cases hrun
  | ok mergeDb w =>
    rw [bind_ok (lift_ok hopen)] at hrun
    rw [hopen] at hworld
    cases hrun
    exact ⟨hworld, hopened _ _ hopen⟩

omit [Indexer ι] in
/-- A data file that is not memory mapped is opened as it is. -/
theorem loadDataFiles_run_plain {p : Proc ι} {content : Bytes}
    (hmmap : p.db.options.mmapAtStartup = false)
    (hfirst : p.world.fs.file? p.db.firstPath = some content)
    (hothers : ∀ fid ≠ 0, p.world.fs.file? (getDataFileName p.db.options.dirPath fid) = none)
    (hopen : p.world.outcomes (.open p.db.firstPath) = []) :
    (loadDataFiles : DBM ι Unit).run p = .ok () ⟨{ p.db with
      fileIds := [0], activeFile := some ⟨p.db.firstPath, 0, 0, .standardFio⟩ }, p.world⟩ := by
  have hstart : (loadDataFiles : DBM ι Unit).run p =
      (openDataFiles [0]).run { p with db := { p.db with fileIds := [0] } } := by
    rw [loadDataFiles, bind_ok (proc_run p), findDataFiles_eq_first hfirst hothers]
    rfl
  refine hstart.trans (openDataFiles_run (p := { p with db := { p.db with fileIds := [0] } }) ?_)
  rw [loadingIOType, if_neg (by simp [hmmap])]
  exact (openDataFile_run hopen).trans
    (congrArg (EStateM.Result.ok _) (World.opened_of_exists _ _ hfirst))

/-- Loading the copies only removes the marker. -/
theorem reload_world {p : Proc ι} (hoptions : p.db.options = options)
    (hmmap : options.mmapAtStartup = false) (h : Replaced options copies p.world)
    (hhint : HintReads (encodeAll (hintRecords copies))) (currentSeq : ℕ) :
    (finalState ((reload currentSeq : DBM ι Unit).run p)).world =
      World.withoutFile { p.world with seeds := p.world.seeds + 2 }
        ⟨options.dirPath, .mergeFinished⟩ := by
  subst hoptions
  set p₁ : Proc ι := { p with db := { p.db with reclaimSize := 0, fileIds := [] } } with hp₁
  have hload := loadDataFiles_run_plain (p := p₁) hmmap h.first h.others (h.outcomes _)
  set p₂ : Proc ι := ⟨{ p₁.db with
    fileIds := [0], activeFile := some ⟨p₁.db.firstPath, 0, 0, .standardFio⟩ }, p.world⟩ with hp₂
  set p₃ : Proc ι := ⟨{ p₂.db with index := Indexer.create p.world.seeds },
    { p.world with seeds := p.world.seeds + 1 }⟩ with hp₃
  have hfits : HintFits p₃.world.fs p.db.options.dirPath := by
    intro content hcontent
    obtain rfl := Option.some.inj (h.hint.symm.trans hcontent)
    exact hhint
  obtain ⟨index, hhintRun⟩ := loadIndexFromHintFile_run (p := p₃) h.first
    (fun name => h.outcomes _) (hintOk_of_fits hfits)
  set p₄ : Proc ι := { p₃ with db := { p₃.db with index := index } } with hp₄
  have hindex := loadIndexFromDataFiles_run p₄ (by simp [hp₄, hp₃, hp₂])
  set w := World.withoutFile { p₄.world with seeds := p₄.world.seeds + 1 }
    ⟨p.db.options.dirPath, .mergeFinished⟩ with hw
  set db := p₄.db.scanned w.fs (Indexer.create p₄.world.seeds) with hdb
  have hrebuild : (rebuildIndex currentSeq : DBM ι Unit).run p₂ =
      .ok () ⟨{ db with seqNo := currentSeq }, w⟩ := by
    unfold rebuildIndex
    refine Eq.trans (bind_ok (tryCatch_ok (?_ : EStateM.run _ p₂ = .ok (Except.ok ())
      ⟨{ db with seqNo := currentSeq }, w⟩))) rfl
    rw [bind_ok (createIndexer_run p₂), bind_ok (modifyDB_run _ _), bind_ok hhintRun,
      bind_ok hindex]
    rfl
  rw [reload, bind_ok (modifyDB_run _ p), bind_ok hload, bind_ok hrebuild]
  rfl

/-- The copies replace the data file and are loaded, and the directory of the merge is removed. -/
theorem replaceAndReload_passes {w w' : World} {p : Proc ι} {db : DB ι}
    (hpasses : w.Passes (FS.Midway options records copies) w') (hoptions : db.options = options)
    (hmmap : options.mmapAtStartup = false) (hp : Mergeable options p)
    (hmade : CopiesMade options p.world copies w')
    (hhint : HintReads (encodeAll (hintRecords copies))) (currentSeq : ℕ) :
    ∃ q, (do
        replaceFiles (getMergePath options.dirPath)
        reload currentSeq
        removeDirectory (getMergePath options.dirPath) : DBM ι Unit).run ⟨db, w'⟩ = .ok () q ∧
      w.Passes (FS.Midway options records copies) q.world := by
  subst hoptions
  set mergePath := getMergePath db.options.dirPath with hmergePath
  have hreplace : (replaceFiles mergePath : DBM ι Unit).run ⟨db, w'⟩ = _ :=
    replaceFiles_eq (getMergePath_ne _) hmade.outcomes (FS.fileExists_iff.2 ⟨_, hmade.first⟩)
      (hmade.others 1 Nat.one_ne_zero)
  obtain ⟨w₂, hrun, hreplaced, -⟩ :=
    replaceFiles_run (show db.options = db.options from rfl) hp hmade
  obtain rfl : w₂ = replacedWorld w' mergePath db.options.dirPath db.fileIds :=
    congrArg Proc.world (EStateM.Result.ok.inj (hrun.symm.trans hreplace)).2
  have hpasses₂ := replacedWorld_passes hpasses hmade db.fileIds
  rw [← hmergePath] at hpasses₂
  set w₂ := replacedWorld w' mergePath db.options.dirPath db.fileIds with hw₂
  set p₂ : Proc ι := ⟨{ db with olderFiles := ∅, activeFile := none }, w₂⟩ with hp₂
  obtain ⟨q, hreload, -⟩ := reload_run (p := p₂) rfl rfl rfl hreplaced hhint currentSeq
  have hworld := reload_world (p := p₂) rfl hmmap hreplaced hhint currentSeq
  rw [hreload, finalState_ok] at hworld
  have hpasses₃ : w.Passes (FS.Midway db.options records copies) q.world := by
    rw [hworld, World.withoutFile]
    split
    · exact (hpasses₂.congr rfl rfl).change (hpasses₂.last.remove .mergeFinished)
    · exact hpasses₂.congr rfl rfl
  set w₄ := q.world.change (q.world.fs.removeDirectory mergePath) with hw₄
  have hremove : (removeDirectory mergePath).run q.world = .ok () w₄ := rfl
  refine ⟨⟨q.db, w₄⟩, ?_, hpasses₃.change (hpasses₃.last.of_lookup
    (fun d hd => FS.lookup_removeDirectory_of_not_below hd) fun hdirs => hdirs.removeDirectory _)⟩
  rw [bind_ok hreplace, bind_ok hreload]
  exact lift_ok hremove

theorem mergeFiles_passes {p : Proc ι} (h : Mergeable options p) (htidy : p.world.fs.Tidy options)
    (hmmap : options.mmapAtStartup = false)
    (hcontent : p.world.fs.file? (getDataFileName options.dirPath 0) = some (encodeAll records))
    (hlength : (encodeAll records).length ≤ options.dataFileSize) :
    p.world.Passes (FS.Midway options records (merged p.db.index records))
      (finalState ((mergeFiles : DBM ι Unit).run p)).world := by
  set good := FS.Midway options records (merged p.db.index records) with hgood
  have hoff {w w' : World} (hw : good w.fs) (h : w.Untouched (getMergePath options.dirPath) w') :
      w.Passes good w' := h.imp fun fs hfs => hw.of_lookup hfs.1 hfs.2
  -- The copies are made.
  obtain ⟨file, mergeDb, w, -, hprepare, hopened⟩ := prepareMerge_run h htidy.hierarchical
  obtain ⟨hprepared, hdb⟩ := prepareMerge_untouched h hprepare
  have hpath : p.db.firstFile.path = getDataFileName options.dirPath 0 := by
    rw [firstFile, firstPath, h.options_eq]
    rfl
  obtain ⟨w₁, hcopies, hmade⟩ := writeCopies_run (p.db.setAside file) hopened hcontent
    ((length_copies_le _ _ _).trans hlength) (show p.db.firstFile.fileId = 0 from rfl) hpath
  have hwritten : p.world.Untouched (getMergePath options.dirPath)
      (finalState ((writeCopies (getMergePath options.dirPath) [p.db.firstFile] mergeDb :
        DBM ι Unit).run ⟨p.db.setAside file, w⟩)).world :=
    (writeCopies_keeps (World.indifferent_untouched _ p.world) hdb
      [p.db.firstFile] (p.db.setAside file) ⟨p.db.setAside file, w⟩ ⟨rfl, hprepared⟩).1.2
  rw [hcopies, finalState_ok] at hwritten
  -- They replace the data file.
  have hoptions : (p.db.setAside file).options = options := h.options_eq
  obtain ⟨q, hrun, hpasses⟩ := replaceAndReload_passes (hoff (.of_tidy htidy hcontent) hwritten) hoptions
    hmmap h hmade (hintReads_hintRecords fun _ => length_key_of_mem_copies) (p.db.setAside file).seqNo
  have hcopied : (copyAndReplace (getMergePath options.dirPath) [p.db.firstFile] mergeDb :
      DBM ι Unit).run ⟨p.db.setAside file, w⟩ = .ok () q := by
    rw [copyAndReplace, bind_ok hcopies, bind_ok (proc_run _)]
    exact hrun
  -- The merged database is closed once more.
  have hdestroyed := (destroy_keeps
    (World.indifferent_untouched (getMergePath options.dirPath) q.world)
    ((hdb w₁ hwritten).congr rfl rfl rfl (World.untouched_self _ _) :
      Proc.InDir _ _ ⟨mergeDb, q.world⟩) q.world (World.untouched_self _ _)).1
  rw [mergeFiles, bind_ok hprepare]
  rw [show finalState _ = _ from finalState_withDestructor mergeDb _ _, hcopied]
  exact hpasses.trans (hoff hpasses.last hdestroyed)

end DB

/-- At each moment of a merge, the first data file holds its records, or is away, or holds the
    first chunks of those that are live. -/
theorem Unrotated.merge_passes {ι : Type} [Indexer ι] {options : Options} {p : Proc ι}
    {records : List LogRecord} (h : Unrotated options p records) (htidy : p.world.fs.Tidy options)
    (hmmap : options.mmapAtStartup = false) (shouldMerge : Bool) (availableSize : ℕ) :
    p.world.Passes (FS.Midway options records (DB.merged p.db.index records))
      (finalState ((DB.merge shouldMerge availableSize : DBM ι Unit).run p)).world := by
  set good := FS.Midway options records (DB.merged p.db.index records) with hgood
  have hfirst : p.world.fs.file? (getDataFileName options.dirPath 0) = some (encodeAll records) := by
    have hcontent := h.first
    rwa [DB.firstPath, h.mergeable.options_eq] at hcontent
  have hnow : p.world.Passes good p.world := World.passes_self (.of_tidy htidy hfirst)
  rw [DB.merge, bind_ok (proc_run p)]
  dsimp only
  split
  · exact hnow
  · rw [if_neg (by simp [h.isMerging_eq]), bind_ok (modifyDB_run _ p)]
    split
    · exact hnow
    · split
      · exact hnow
      · set merging : Proc ι := { p with db := { p.db with isMerging := true } } with hmerging
        have hmergeable : DB.Mergeable options merging := h.mergeable.of_db rfl rfl rfl
        have hpasses := DB.mergeFiles_passes hmergeable htidy hmmap hfirst h.length_le
        obtain ⟨q, hrun, -⟩ := DB.mergeFiles_run hmergeable htidy.hierarchical hfirst
          ((DB.length_copies_le _ _ _).trans h.length_le)
        rw [hrun] at hpasses
        rw [bind_ok (tryCatch_ok hrun)]
        exact hpasses

end Bitcask
