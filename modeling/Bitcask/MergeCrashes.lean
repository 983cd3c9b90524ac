import Bitcask.Lives

/-!
# Deaths during a merge

A merge removes the data file before it copies the merged one to its place, chunk by chunk, and
the hint file behind it. A process that dies while both files are as before the merge, or as
after it, leaves a database with all values (`Life.mergeCrash_keeps`). If each of the new files
is copied in one chunk, it leaves one with all values or with none (`Life.mergeCrash_get`). So a
merge may lose everything.
-/

namespace Bitcask

open Framing Transaction DataFile Sys Guarantee BatchStore

namespace Life

variable {ι : Type} [Indexer ι] {options : Options} {records : List LogRecord} {base : ℕ}
  {s : Session ι} {store : Store Bytes Bytes}

/-- Where there are no data files, a database without values is opened. -/
theorem restarted_nothing {t : Session ι} {w : World} (hoptions : t.proc.db.options = options)
    (hvalid : DB.checkOptions options = .ok ()) (htidy : w.fs.Tidy options)
    (hnil : ∀ c, w.outcomes c = [])
    (hnone : w.fs.file? (getDataFileName options.dirPath 0) = none) :
    (restarted t w).2 = [] ∧ ∀ key ≠ [],
      DB.get (restarted t w).1.proc.db (restarted t w).1.proc.world.fs key =
        .error .keyNotFound := by
  have hfiles (fid : ℕ) : w.fs.file? (getDataFileName options.dirPath fid) = none := by
    by_cases hfid : fid = 0
    · rw [hfid, hnone]
    · exact htidy.others fid hfid
  obtain ⟨db, w', hrun, hcontains⟩ := (DB.open_contains (ι := ι) hvalid (.of_lookup htidy.merge)
    fun name => hnil _).1 fun _ => htidy.hint
  rw [DB.filesIn, DB.findDataFiles_eq_nil hfiles, List.map_nil] at hcontains
  have hrestarted : restarted t w = (⟨⟨db, w'⟩, []⟩, []) := by
    rw [restarted, hoptions, hrun]
    rfl
  rw [hrestarted]
  refine ⟨rfl, fun key hkey => ?_⟩
  rw [hcontains.get_eq, valueIn, if_neg hkey]
  rfl

/-- The first data file is there and not empty. -/
def HasData (s : Session ι) (fs : FS) : Prop := (fs.file? s.proc.db.firstPath).getD [] ≠ []

instance (s : Session ι) (fs : FS) : Decidable (HasData s fs) := inferInstanceAs (Decidable (_ ≠ _))

/-- The data file and the hint file that a merge leaves are copied in one chunk each. -/
def OneChunk (s : Session ι) (shouldMerge : Bool) (availableSize : ℕ) : Prop :=
  let fs := (mergedWorld s shouldMerge availableSize).fs
  ((fs.file? s.proc.db.firstPath).getD []).length ≤ copyBufferSize ∧
    ((fs.file? ⟨s.proc.db.options.dirPath, .hintIndex⟩).getD []).length ≤ copyBufferSize

instance (s : Session ι) (shouldMerge : Bool) (availableSize : ℕ) :
    Decidable (OneChunk s shouldMerge availableSize) := inferInstanceAs (Decidable (_ ∧ _))

omit [Indexer ι] in
/-- One chunk is nothing or all. -/
theorem take_chunks {content : Bytes} (h : content.length ≤ copyBufferSize) (n : ℕ) :
    content.take (n * copyBufferSize) = [] ∨ content.take (n * copyBufferSize) = content := by
  cases n with
  | zero => exact .inl (by rw [Nat.zero_mul, List.take_zero])
  | succ n => exact .inr (List.take_of_length_le (h.trans (Nat.le_mul_of_pos_left _ n.succ_pos)))

/-- If the files are copied in one chunk each, the hint file can be read at each moment of the
    merge, and the data file is whole if it is not empty. -/
theorem Alive.whole_of_oneChunk (h : Alive options records base s store)
    (hmergeable : Mergeable s) {shouldMerge : Bool} {availableSize : ℕ}
    (hchunk : OneChunk s shouldMerge availableSize) (changes : ℕ) :
    DB.HintFits (mergeCutOff s shouldMerge availableSize changes) options.dirPath ∧
      (HasData s (mergeCutOff s shouldMerge availableSize changes) →
        Whole s shouldMerge availableSize changes s.proc.db.firstPath) := by
  have hunchanged (hsame : mergedWorld s shouldMerge availableSize = s.proc.world) :
      mergeCutOff s shouldMerge availableSize changes = s.proc.world.fs := by
    rw [mergeCutOff, hsame, World.cutOff, List.drop_length, List.take_nil]
    rfl
  rcases h.unrotated.merge_cases h.tidy.hierarchical shouldMerge availableSize with
    hrun | ⟨e, hrun, -⟩ | ⟨q, hrun, hmerged, hleaves⟩
  · have hcut := hunchanged (by rw [mergedWorld, hrun]; rfl)
    exact ⟨hcut ▸ h.tidy.hint, fun _ => .inl (by rw [hcut])⟩
  · have hcut := hunchanged (by rw [mergedWorld, hrun]; rfl)
    exact ⟨hcut ▸ h.tidy.hint, fun _ => .inl (by rw [hcut])⟩
  · have hworld : mergedWorld s shouldMerge availableSize = q.world := by
      rw [mergedWorld, hrun]
      rfl
    have hplain : options.mmapAtStartup = false := h.options_eq ▸ hmergeable.1
    have hfirst := hmerged.loaded.content _ List.mem_cons_self
    rw [DB.loadingContent, if_neg (by simp [hplain])] at hfirst
    rw [OneChunk, hworld, h.firstPath_eq, h.options_eq, hfirst, hleaves.hint] at hchunk
    obtain ⟨hdataChunk, hhintChunk⟩ : (encodeAll (DB.merged s.proc.db.index records)).length ≤
        copyBufferSize ∧ (encodeAll (DB.hintRecords (DB.merged s.proc.db.index records))).length ≤
          copyBufferSize := hchunk
    rw [Whole, HasData, hworld, h.firstPath_eq, hfirst, h.first]
    have hmidway := h.midway hmergeable shouldMerge availableSize changes
    constructor
    · rcases hmidway.hint with hfits | ⟨n, hchunks⟩
      · exact hfits
      · intro content hcontent
        obtain rfl := Option.some.inj (hchunks.symm.trans hcontent)
        rcases take_chunks hhintChunk n with hnil | hall
        · rw [hnil]
          exact DB.hintReads_nil
        · rw [hall]
          exact DB.hintReads_hintRecords fun _ => DB.length_key_of_mem_copies
    · intro hdata
      rcases hmidway.first with hbefore | hnone | ⟨n, hchunks⟩
      · exact .inl hbefore
      · exact absurd (by rw [hnone]; rfl) hdata
      · rcases take_chunks hdataChunk n with hnil | hall
        · exact absurd (by rw [hchunks, hnil]; rfl) hdata
        · exact .inr (hchunks.trans (congrArg some hall))

/-- If the files are copied in one chunk each, all values are read after a death in a merge if
    there is a data file, and none otherwise. -/
theorem Alive.get_mergeCrash (h : Alive options records base s store) (hmergeable : Mergeable s)
    {shouldMerge : Bool} {availableSize : ℕ} (hchunk : OneChunk s shouldMerge availableSize)
    (changes : ℕ) :
    let x := step s (.mergeCrash shouldMerge availableSize changes)
    x.2 = [] ∧ ∀ key ≠ [], DB.get x.1.proc.db x.1.proc.world.fs key =
      if HasData s (mergeCutOff s shouldMerge availableSize changes) then
        DB.get s.proc.db s.proc.world.fs key
      else .error .keyNotFound := by
  intro x
  obtain ⟨hfits, hwhole⟩ := h.whole_of_oneChunk hmergeable hchunk changes
  have htidy := (h.midway hmergeable shouldMerge availableSize changes).tidy hfits
  set fs := mergeCutOff s shouldMerge availableSize changes with hfs
  by_cases hdata : HasData s fs
  · obtain ⟨hnil, records', base', halive⟩ := h.afterMergeCrash hmergeable (hwhole hdata) hfits
    refine ⟨hnil, fun key hkey => ?_⟩
    rw [if_pos hdata, halive.get_eq hkey, h.get_eq hkey]
    rfl
  · simp only [if_neg hdata]
    have hplain : options.mmapAtStartup = false := h.options_eq ▸ hmergeable.1
    have hx : x = restarted s { s.proc.world with fs := fs } := rfl
    rw [HasData, h.firstPath_eq, not_not] at hdata
    cases hfirst : fs.file? (getDataFileName options.dirPath 0) with
    | none => exact hx ▸ restarted_nothing h.options_eq h.valid htidy h.outcomes hfirst
    | some content =>
      obtain rfl : content = [] := by rwa [hfirst] at hdata
      have hempty : fs.file? (getDataFileName options.dirPath 0) = some (encodeAll []) := hfirst
      obtain ⟨hnil, base', halive⟩ := alive_restarted (t := s)
        (w := { s.proc.world with fs := fs }) h.options_eq h.valid htidy h.outcomes hempty
        (Nat.zero_le _) (fun hmmap => absurd hmmap (by simp [hplain])) standsFor_nil
      refine hx ▸ ⟨hnil, fun key hkey => ?_⟩
      rw [halive.get_eq hkey]
      rfl

/-- A key is put, and the database is closed and opened again. -/
def putAndReopen : List Event := [.request (.put [97] [49]), .reopen]

/-- After eleven changes of a merge of it the data file is away, after twelve it is empty, and
    after thirteen it has been copied. -/
theorem exists_putAndReopen : ∃ (db : DB BTreeIndex) (w' : World),
    (DB.open ⟨['d'], 100, false⟩ : Sys (DB BTreeIndex)).run { fs := ∅ } = .ok db w' ∧
      Machine.AllSteps step Permits ⟨⟨db, w'⟩, []⟩ putAndReopen ∧
      let s := (Machine.run step ⟨⟨db, w'⟩, []⟩ putAndReopen).1
      Mergeable s ∧ OneChunk s true DB.minAvailableSize ∧
        ¬HasData s (mergeCutOff s true DB.minAvailableSize 11) ∧
        ¬HasData s (mergeCutOff s true DB.minAvailableSize 12) ∧
        HasData s (mergeCutOff s true DB.minAvailableSize 13) ∧
        Settled s true DB.minAvailableSize 13 ∧
        DB.get s.proc.db s.proc.world.fs [97] = .ok [49] := by
  obtain ⟨db, w', hopen, -⟩ := alive_run (ι := BTreeIndex)
    (Session.fresh_empty (by decide : 100 ≠ 0) false) (fun _ => rfl) (fun _ _ _ => rfl)
  have hsteps : (value? ((DB.open ⟨['d'], 100, false⟩ : Sys (DB BTreeIndex)).run { fs := ∅ })).any
      (fun db' => let w'' := finalState ((DB.open ⟨['d'], 100, false⟩ :
          Sys (DB BTreeIndex)).run { fs := ∅ })
        let s := (Machine.run step ⟨⟨db', w''⟩, []⟩ putAndReopen).1
        decide (Machine.AllSteps step Permits ⟨⟨db', w''⟩, []⟩ putAndReopen ∧ Mergeable s ∧
          OneChunk s true DB.minAvailableSize ∧
          ¬HasData s (mergeCutOff s true DB.minAvailableSize 11) ∧
          ¬HasData s (mergeCutOff s true DB.minAvailableSize 12) ∧
          HasData s (mergeCutOff s true DB.minAvailableSize 13) ∧
          Settled s true DB.minAvailableSize 13 ∧
          DB.get s.proc.db s.proc.world.fs [97] = .ok [49])) = true := by
    decide +kernel
  simp only [hopen, value?, Option.any_some, finalState_ok, decide_eq_true_eq] at hsteps
  exact ⟨db, w', hopen, hsteps⟩

/-- Opening reads the same after a death in a merge as it would have done before the merge. -/
def CrashKeeps (s : Session ι) (shouldMerge : Bool) (availableSize changes : ℕ) : Prop :=
  let x := step s (.mergeCrash shouldMerge availableSize changes)
  let y := restarted s s.proc.world
  x.2 = y.2 ∧ ∀ key, DB.get x.1.proc.db x.1.proc.world.fs key =
    DB.get y.1.proc.db y.1.proc.world.fs key

end Life

end Bitcask
