import Mathlib.Order.Bounds.Defs
import Bitcask.Opening

/-!
# Which data files are found

The ids of the data files in a directory are looked for one by one. The search ends
at an upper limit, or earlier once some ids in a row are missing behind a file that
has been found: a file is `Found` if its id is below the limit and there is no such
gap between an earlier one and it.

Exactly the files that are found are opened, the one of the largest id as the active
file (`loadDataFiles_opens`).
-/

namespace Bitcask

open DataFile DBM Sys Guarantee

namespace DB

/-! ## The search -/

/-- So many ids in a row are missing, from the given one on. -/
def Gap (fileExists : ℕ → Bool) (start : ℕ) : Prop :=
  ∀ j < maxConsecutiveMissing, fileExists (start + j) = false

/-- No file is in front of a gap that is in front of the id. -/
def Connected (fileExists : ℕ → Bool) (fid : ℕ) : Prop :=
  ∀ start, start + maxConsecutiveMissing ≤ fid → Gap fileExists start →
    ∀ g < start, fileExists g = false

/-- A file the search finds. -/
structure Found (fileExists : ℕ → Bool) (fid : ℕ) : Prop where
  lt_limit : fid < maxScanFiles
  isFile : fileExists fid = true
  connected : Connected fileExists fid

/-- How far the search has come: all files below an id have been found, and so many ids
    before it are missing. -/
structure Searched (fileExists : ℕ → Bool) (fid missing : ℕ) (fileIds : List ℕ) : Prop where
  mem_iff : ∀ g, g ∈ fileIds ↔ g < fid ∧ fileExists g = true
  sorted : fileIds.Pairwise (· < ·)
  connected : Connected fileExists fid
  missing_le : missing ≤ fid
  between : ∀ g < fid, fid ≤ g + missing → fileExists g = false
  last : missing = fid ∨ ∃ g, g + missing + 1 = fid ∧ fileExists g = true
  few : fileIds ≠ [] → missing < maxConsecutiveMissing

section Search

variable {fileExists : ℕ → Bool} {fid missing : ℕ} {fileIds : List ℕ}

theorem Searched.start : Searched fileExists 0 0 [] where
  mem_iff g := by simp
  sorted := .nil
  connected := by
    intro start hstart
    simp [maxConsecutiveMissing] at hstart
  missing_le := le_rfl
  between g hg := absurd hg (Nat.not_lt_zero g)
  last := .inl rfl
  few h := absurd rfl h

/-- An id that is there is found. -/
theorem Searched.found (h : Searched fileExists fid missing fileIds)
    (hfid : fileExists fid = true) : Searched fileExists (fid + 1) 0 (fileIds ++ [fid]) where
  mem_iff g := by
    rw [List.mem_append, h.mem_iff, List.mem_singleton, Nat.lt_succ_iff_lt_or_eq]
    constructor
    · rintro (⟨hlt, hg⟩ | rfl)
      · exact ⟨.inl hlt, hg⟩
      · exact ⟨.inr rfl, hfid⟩
    · rintro ⟨hlt | rfl, hg⟩
      · exact .inl ⟨hlt, hg⟩
      · exact .inr rfl
  sorted := List.pairwise_append.2 ⟨h.sorted, List.pairwise_singleton _ _, fun g hg g' hg' =>
    List.mem_singleton.1 hg' ▸ ((h.mem_iff g).1 hg).1⟩
  connected := by
    intro start hstart hgap
    rcases Nat.lt_or_ge fid (start + maxConsecutiveMissing) with hlt | hge
    · -- The gap would contain the id.
      have hpos : 0 < maxConsecutiveMissing := by decide
      have hmissing := hgap (fid - start) (by omega)
      rw [Nat.add_sub_cancel' (by omega), hfid] at hmissing
      cases hmissing
    · exact h.connected start hge hgap
  missing_le := Nat.zero_le _
  between g hg hle := by omega
  last := .inr ⟨fid, rfl, hfid⟩
  few _ := by decide

/-- An id that is missing is passed over. -/
theorem Searched.skip (h : Searched fileExists fid missing fileIds) (hfid : fileExists fid = false)
    (hgo : ¬(fileIds ≠ [] ∧ maxConsecutiveMissing ≤ missing + 1)) :
    Searched fileExists (fid + 1) (missing + 1) fileIds where
  mem_iff g := by
    rw [h.mem_iff, Nat.lt_succ_iff_lt_or_eq]
    constructor
    · rintro ⟨hlt, hg⟩
      exact ⟨.inl hlt, hg⟩
    · rintro ⟨hlt | rfl, hg⟩
      · exact ⟨hlt, hg⟩
      · rw [hfid] at hg
        cases hg
  sorted := h.sorted
  connected := by
    intro start hstart hgap g hg
    rcases Nat.lt_or_ge fid (start + maxConsecutiveMissing) with hlt | hge
    · -- The gap ends at the id. It is not longer than the ids that are missing before.
      have hpos : 0 < maxConsecutiveMissing := by decide
      by_contra hexists
      rw [Bool.not_eq_false] at hexists
      have hmem : g ∈ fileIds := (h.mem_iff g).2 ⟨by omega, hexists⟩
      have hfew : missing + 1 < maxConsecutiveMissing :=
        Nat.lt_of_not_le fun hle => hgo ⟨List.ne_nil_of_mem hmem, hle⟩
      rcases h.last with hlast | ⟨g', hg', hexists'⟩
      · rw [h.between g (by omega) (by omega)] at hexists
        cases hexists
      · have hmissing := hgap (g' - start) (by omega)
        rw [Nat.add_sub_cancel' (by omega), hexists'] at hmissing
        cases hmissing
    · exact h.connected start hge hgap g hg
  missing_le := Nat.succ_le_succ h.missing_le
  between g hg hle := by
    rcases Nat.lt_succ_iff_lt_or_eq.1 hg with hlt | rfl
    · exact h.between g hlt (by omega)
    · exact hfid
  last := by
    rcases h.last with hlast | ⟨g, hg, hexists⟩
    · exact .inl (congrArg (· + 1) hlast)
    · exact .inr ⟨g, congrArg (· + 1) hg, hexists⟩
  few hne := Nat.lt_of_not_le fun hle => hgo ⟨hne, hle⟩

/-- Where the search stops, no file behind is found. -/
theorem Searched.stop (h : Searched fileExists fid missing fileIds) (hfid : fileExists fid = false)
    (hstop : fileIds ≠ [] ∧ maxConsecutiveMissing ≤ missing + 1) {fid' : ℕ} (hfid' : fid < fid') :
    ¬Connected fileExists fid' := by
  intro hconnected
  obtain ⟨g, hg⟩ := List.exists_mem_of_ne_nil _ hstop.1
  obtain ⟨hlt, hexists⟩ := (h.mem_iff g).1 hg
  have hmissing : g + missing < fid := by
    by_contra hle
    rw [h.between g hlt (by omega)] at hexists
    cases hexists
  -- The last ids before the one that is missing now make the gap, with it.
  have hgap : Gap fileExists (fid + 1 - maxConsecutiveMissing) := by
    intro j hj
    rcases Nat.lt_or_ge (fid + 1 - maxConsecutiveMissing + j) fid with hj' | hj'
    · exact h.between _ hj' (by omega)
    · rw [show fid + 1 - maxConsecutiveMissing + j = fid by omega, hfid]
  rw [hconnected _ (by omega) hgap g (by omega)] at hexists
  cases hexists

/-- What the search finds from here on. -/
theorem findDataFilesLoop_spec (h : Searched fileExists fid missing fileIds) (n : ℕ) :
    (∀ g, g ∈ findDataFilesLoop fileExists n fid missing fileIds ↔
        g < fid + n ∧ fileExists g = true ∧ (g < fid ∨ Connected fileExists g)) ∧
      (findDataFilesLoop fileExists n fid missing fileIds).Pairwise (· < ·) := by
  induction n generalizing fid missing fileIds with
  | zero =>
    refine ⟨fun g => ?_, h.sorted⟩
    rw [findDataFilesLoop, h.mem_iff, Nat.add_zero]
    constructor
    · rintro ⟨hlt, hg⟩
      exact ⟨hlt, hg, .inl hlt⟩
    · rintro ⟨hlt, hg, -⟩
      exact ⟨hlt, hg⟩
  | succ n ih =>
    rw [findDataFilesLoop]
    cases hfid : fileExists fid with
    | true =>
      rw [if_pos rfl]
      obtain ⟨hmem, hsorted⟩ := ih (h.found hfid)
      refine ⟨fun g => (hmem g).trans ?_, hsorted⟩
      constructor
      · rintro ⟨hlt, hg, hlt' | hconnected⟩
        · rcases Nat.lt_succ_iff_lt_or_eq.1 hlt' with hlt' | rfl
          · exact ⟨by omega, hg, .inl hlt'⟩
          · exact ⟨by omega, hg, .inr h.connected⟩
        · exact ⟨by omega, hg, .inr hconnected⟩
      · rintro ⟨hlt, hg, hlt' | hconnected⟩
        · exact ⟨by omega, hg, .inl (Nat.lt_succ_of_lt hlt')⟩
        · exact ⟨by omega, hg, .inr hconnected⟩
    | false =>
      have hne : ∀ {g}, fileExists g = true → g ≠ fid := by
        rintro g hg rfl
        exact Bool.false_ne_true (hfid.symm.trans hg)
      rw [if_neg Bool.false_ne_true]
      by_cases hstop : fileIds ≠ [] ∧ maxConsecutiveMissing ≤ missing + 1
      · rw [if_pos hstop]
        refine ⟨fun g => (h.mem_iff g).trans ?_, h.sorted⟩
        constructor
        · rintro ⟨hlt, hg⟩
          exact ⟨by omega, hg, .inl hlt⟩
        · rintro ⟨hlt, hg, hlt' | hconnected⟩
          · exact ⟨hlt', hg⟩
          · rcases Nat.lt_or_gt_of_ne (hne hg) with hlt' | hgt
            · exact ⟨hlt', hg⟩
            · exact absurd hconnected (h.stop hfid hstop hgt)
      · rw [if_neg hstop]
        obtain ⟨hmem, hsorted⟩ := ih (h.skip hfid hstop)
        refine ⟨fun g => (hmem g).trans ?_, hsorted⟩
        constructor
        · rintro ⟨hlt, hg, hlt' | hconnected⟩
          · rcases Nat.lt_succ_iff_lt_or_eq.1 hlt' with hlt' | heq
            · exact ⟨by omega, hg, .inl hlt'⟩
            · exact absurd heq (hne hg)
          · exact ⟨by omega, hg, .inr hconnected⟩
        · rintro ⟨hlt, hg, hlt' | hconnected⟩
          · exact ⟨by omega, hg, .inl (Nat.lt_succ_of_lt hlt')⟩
          · exact ⟨by omega, hg, .inr hconnected⟩

end Search

/-- Whether there is a data file of an id in a directory. -/
def hasDataFile (fs : FS) (dirPath : Path) (fid : ℕ) : Bool :=
  fs.fileExists (getDataFileName dirPath fid)

theorem mem_findDataFiles_iff (fs : FS) (dirPath : Path) (fid : ℕ) :
    fid ∈ findDataFiles fs dirPath ↔ Found (hasDataFile fs dirPath) fid := by
  refine ((findDataFilesLoop_spec .start maxScanFiles).1 fid).trans ?_
  rw [Nat.zero_add, or_iff_right (Nat.not_lt_zero fid)]
  exact ⟨fun ⟨hlt, hfile, hconnected⟩ => ⟨hlt, hfile, hconnected⟩,
    fun h => ⟨h.lt_limit, h.isFile, h.connected⟩⟩

theorem sorted_findDataFiles (fs : FS) (dirPath : Path) :
    (findDataFiles fs dirPath).Pairwise (· < ·) :=
  (findDataFilesLoop_spec .start maxScanFiles).2

/-! ## Opening the files -/

variable {ι : Type}

/-- The handle of a data file that has been opened to be loaded. -/
def loadingFile (options : Options) (fid : ℕ) : DataFile :=
  ⟨getDataFileName options.dirPath fid, fid, 0, loadingIOType options⟩

/-- Data files have been opened to be loaded, and no other file has changed. -/
structure LoadsContents (options : Options) (fids : List ℕ) (w w' : World) : Prop where
  outcomes : w'.outcomes = w.outcomes
  content : ∀ fid ∈ fids, ∀ c, w.fs.file? (getDataFileName options.dirPath fid) = some c →
    w'.fs.file? (getDataFileName options.dirPath fid) = some (loadingContent options c)
  others : ∀ path, (∀ fid ∈ fids, path ≠ getDataFileName options.dirPath fid) →
    w'.fs.file? path = w.fs.file? path

theorem loadingContent_loadingContent (options : Options) (c : Bytes) :
    loadingContent options (loadingContent options c) = loadingContent options c := by
  unfold loadingContent
  split
  · exact if_neg fun h => absurd h.2 (by simp [pageSize])
  · rfl

theorem LoadsContents.cons {options : Options} {fid : ℕ} {fids : List ℕ} {w w' w'' : World}
    (h : LoadsContents options [fid] w w') (h' : LoadsContents options fids w' w'') :
    LoadsContents options (fid :: fids) w w'' where
  outcomes := h'.outcomes.trans h.outcomes
  content := by
    intro g hg c hc
    have hc' : w'.fs.file? (getDataFileName options.dirPath g) =
        some (if g = fid then loadingContent options c else c) := by
      split
      · exact h.content g (List.mem_singleton.2 ‹_›) c hc
      · refine (h.others _ fun g' hg' => ?_).trans hc
        rw [List.mem_singleton.1 hg']
        simpa [getDataFileName] using ‹¬g = fid›
    by_cases hmem : g ∈ fids
    · rw [h'.content g hmem _ hc']
      split
      · rw [loadingContent_loadingContent]
      · rfl
    · rw [h'.others _ fun g' hg' => ?_, hc', if_pos ((List.mem_cons.1 hg).resolve_right hmem)]
      rintro heq
      simp only [getDataFileName, FilePath.mk.injEq, FileName.data.injEq, true_and] at heq
      exact hmem (heq ▸ hg')
  others := by
    intro path hpath
    rw [List.forall_mem_cons] at hpath
    rw [h'.others path hpath.2, h.others path (List.forall_mem_singleton.2 hpath.1)]

theorem openDataFile_loading {options : Options} {w : World} (fid : ℕ)
    (h : ∀ fid, w.outcomes (.open (getDataFileName options.dirPath fid)) = []) :
    ∃ w', (openDataFile options.dirPath fid (loadingIOType options)).run w =
      .ok (loadingFile options fid) w' ∧ LoadsContents options [fid] w w' := by
  cases hmmap : options.mmapAtStartup with
  | false =>
    have hio : loadingIOType options = .standardFio := if_neg (by simp [hmmap])
    refine ⟨w.opened (getDataFileName options.dirPath fid), ?_, World.opened_outcomes _ _, ?_, ?_⟩
    · rw [loadingFile, hio]
      exact openDataFile_run (h fid)
    · intro g hg c hc
      rw [List.mem_singleton.1 hg] at hc ⊢
      rw [World.opened_of_exists _ _ hc, hc, loadingContent, if_neg (by simp [hmmap])]
    · exact fun path hpath => World.opened_file?_of_ne _ _ (hpath fid (List.mem_singleton_self _))
  | true =>
    have hio : loadingIOType options = .memoryMap := if_pos hmmap
    refine ⟨w.mapped (getDataFileName options.dirPath fid), ?_, World.mapped_outcomes _ _, ?_, ?_⟩
    · rw [loadingFile, hio, openDataFile, bind_ok (createIOManager_run_memoryMap (h fid))]
      rfl
    · intro g hg c hc
      rw [List.mem_singleton.1 hg] at hc ⊢
      rcases eq_or_ne c [] with rfl | hne
      · rw [World.mapped_file?_of_nil _ _ hc, loadingContent, if_pos ⟨hmmap, rfl⟩]
      · rw [World.mapped_of_ne_nil _ _ hc hne, hc, loadingContent, if_neg (by simp [hne])]
    · exact fun path hpath => World.mapped_file?_of_ne _ _ (hpath fid (List.mem_singleton_self _))

/-- Of some files, the last one becomes the active file and the others older ones. -/
theorem openDataFiles_spec (fids : List ℕ) (p : Proc ι)
    (hopen : ∀ fid, p.world.outcomes (.open (getDataFileName p.db.options.dirPath fid)) = []) :
    ∃ q, (openDataFiles fids : DBM ι Unit).run p = .ok () q ∧ q.db.options = p.db.options ∧
      q.db.fileIds = p.db.fileIds ∧
      q.db.activeFile = (fids.getLast?.map (loadingFile p.db.options)).or p.db.activeFile ∧
      (∀ fid, q.db.olderFiles.lookup fid = if fid ∈ fids.dropLast then
        some (loadingFile p.db.options fid) else p.db.olderFiles.lookup fid) ∧
      q.db.index = p.db.index ∧ LoadsContents p.db.options fids p.world q.world := by
  induction fids generalizing p with
  | nil =>
    exact ⟨p, rfl, rfl, rfl, rfl, fun fid => (if_neg List.not_mem_nil).symm, rfl, rfl,
      List.forall_mem_nil _, fun _ _ => rfl⟩
  | cons fid rest ih =>
    obtain ⟨w, hrun, hloads⟩ := openDataFile_loading fid hopen
    have hstart (m : DataFile → DBM ι Unit) :
        ((liftM (openDataFile p.db.options.dirPath fid (loadingIOType p.db.options)) : DBM ι _)
          >>= m).run p = (m (loadingFile p.db.options fid)).run ⟨p.db, w⟩ := by
      rw [bind_ok (lift_ok hrun)]
    rw [openDataFiles, bind_ok (proc_run _)]
    refine Exists.imp (fun q => And.imp (hstart _).trans id) ?_
    rcases rest with - | ⟨next, rest⟩
    · exact ⟨_, rfl, rfl, rfl, rfl, fun g => (if_neg List.not_mem_nil).symm, rfl, hloads⟩
    · obtain ⟨q, hq, hoptions, hids, hactive, holder, hindex, hloads'⟩ := ih
        ⟨{ p.db with olderFiles := p.db.olderFiles.insert fid (loadingFile p.db.options fid) }, w⟩
        (fun g => by rw [hloads.outcomes]; exact hopen g)
      refine ⟨q, hq, hoptions, hids, ?_, fun g => (holder g).trans ?_, hindex,
        hloads.cons hloads'⟩
      · rw [hactive, List.getLast?_cons_cons]
      · rw [List.dropLast_cons_of_ne_nil (List.cons_ne_nil _ _)]
        by_cases hg : g = fid
        · subst hg
          rw [AList.lookup_insert, if_pos List.mem_cons_self, ite_self]
        · rw [AList.lookup_insert_ne hg]
          exact if_congr (by rw [List.mem_cons, or_iff_right hg]) rfl rfl

/-- Exactly the files of some ids are opened, that of the largest one as the active file. -/
structure Loads (p q : Proc ι) (ids : Set ℕ) : Prop where
  mem_fileIds : ∀ fid, fid ∈ q.db.fileIds ↔ fid ∈ ids
  active : ∀ last, IsGreatest ids last → q.db.activeFile = some (loadingFile p.db.options last)
  older : ∀ fid file, q.db.olderFiles.lookup fid = some file ↔
    fid ∈ ids ∧ ¬IsGreatest ids fid ∧ file = loadingFile p.db.options fid

/-- The last one of ids in order is the largest one. -/
theorem isGreatest_iff_getLast {fids : List ℕ} (h : fids.Pairwise (· < ·)) (hne : fids ≠ [])
    (fid : ℕ) : IsGreatest {g | g ∈ fids} fid ↔ fid = fids.getLast hne := by
  have hlast : IsGreatest {g | g ∈ fids} (fids.getLast hne) := by
    refine ⟨List.getLast_mem hne, fun g hg => ?_⟩
    rw [← List.dropLast_append_getLast hne] at h hg
    rcases List.mem_append.1 hg with hg | hg
    · exact ((List.pairwise_append.1 h).2.2 g hg _ (List.mem_singleton_self _)).le
    · exact (List.mem_singleton.1 hg).le
  exact ⟨fun hfid => hfid.unique hlast, fun hfid => hfid ▸ hlast⟩

theorem mem_dropLast_iff {fids : List ℕ} (h : fids.Pairwise (· < ·)) (hne : fids ≠ []) (fid : ℕ) :
    fid ∈ fids.dropLast ↔ fid ∈ fids ∧ fid ≠ fids.getLast hne := by
  have hmem : fid ∈ fids ↔ fid ∈ fids.dropLast ∨ fid = fids.getLast hne := by
    conv_lhs => rw [← List.dropLast_append_getLast hne, List.mem_append, List.mem_singleton]
  have hlt : fid ∈ fids.dropLast → fid < fids.getLast hne := by
    intro hfid
    rw [← List.dropLast_append_getLast hne] at h
    exact (List.pairwise_append.1 h).2.2 fid hfid _ (List.mem_singleton_self _)
  rw [hmem]
  constructor
  · intro hfid
    exact ⟨.inl hfid, (hlt hfid).ne⟩
  · rintro ⟨hfid | heq, hne'⟩
    · exact hfid
    · exact absurd heq hne'

section Load

variable {p : Proc ι}

theorem loadDataFiles_spec (hactive : p.db.activeFile = none) (holder : p.db.olderFiles = ∅)
    (hopen : ∀ fid, p.world.outcomes (.open (getDataFileName p.db.options.dirPath fid)) = []) :
    ∃ q, (loadDataFiles : DBM ι Unit).run p = .ok () q ∧
      Loads p q {fid | fid ∈ findDataFiles p.world.fs p.db.options.dirPath} ∧
      (findDataFiles p.world.fs p.db.options.dirPath = [] →
        q.db.activeFile = if p.db.isInitial then some p.db.firstFile else none) := by
  generalize hfids : findDataFiles p.world.fs p.db.options.dirPath = fids
  have hsorted : fids.Pairwise (· < ·) := hfids ▸ sorted_findDataFiles _ _
  let listed : Proc ι := { p with db := { p.db with fileIds := fids } }
  have hstart : (loadDataFiles : DBM ι Unit).run p =
      (if fids = [] then if p.db.isInitial then setActiveDataFile else pure ()
        else openDataFiles fids : DBM ι Unit).run listed := by
    rw [loadDataFiles, bind_ok (proc_run p), hfids]
    rfl
  rw [hstart]
  by_cases hnil : fids = []
  · subst hnil
    rw [if_pos rfl]
    have hempty : ∀ last, ¬IsGreatest {fid | fid ∈ ([] : List ℕ)} last :=
      fun last h => List.not_mem_nil h.1
    cases hinitial : p.db.isInitial with
    | false =>
      refine ⟨listed, rfl, ⟨fun fid => .rfl, fun last h => absurd h (hempty last), ?_⟩, ?_⟩
      · intro fid file
        simp [listed, holder]
      · exact fun _ => hactive
    | true =>
      refine ⟨_, setActiveDataFile_run_of_none hactive (hopen initialFileId),
        ⟨fun fid => .rfl, fun last h => absurd h (hempty last), ?_⟩, fun _ => rfl⟩
      intro fid file
      simp [listed, holder]
  · rw [if_neg hnil]
    obtain ⟨q, hq, -, hids, hlast, hothers, -⟩ := openDataFiles_spec fids listed hopen
    refine ⟨q, hq, ⟨fun fid => by rw [hids]; rfl, fun last h => ?_, fun fid file => ?_⟩,
      fun h => absurd h hnil⟩
    · rw [hlast, List.getLast?_eq_some_getLast hnil, (isGreatest_iff_getLast hsorted hnil last).1 h]
      rfl
    · rw [hothers, isGreatest_iff_getLast hsorted hnil, ← and_assoc, Set.mem_ofPred_eq,
        ← mem_dropLast_iff hsorted hnil]
      split
      · simp [*, listed, eq_comm]
      · simp [*, listed]

/-- Exactly the files are opened that are found, that of the largest id as the active
    one. If none is found, only an initial database gets its first file. -/
theorem loadDataFiles_opens (hactive : p.db.activeFile = none) (holder : p.db.olderFiles = ∅)
    (hopen : ∀ fid, p.world.outcomes (.open (getDataFileName p.db.options.dirPath fid)) = []) :
    ∃ q, (loadDataFiles : DBM ι Unit).run p = .ok () q ∧
      Loads p q {fid | Found (hasDataFile p.world.fs p.db.options.dirPath) fid} ∧
      ((∀ fid, ¬Found (hasDataFile p.world.fs p.db.options.dirPath) fid) →
        q.db.activeFile = if p.db.isInitial then some p.db.firstFile else none) := by
  obtain ⟨q, hq, hloads, hnone⟩ := loadDataFiles_spec hactive holder hopen
  simp only [mem_findDataFiles_iff] at hloads
  refine ⟨q, hq, hloads, fun h => hnone (List.eq_nil_iff_forall_not_mem.2 fun fid hfid => ?_)⟩
  exact h fid ((mem_findDataFiles_iff _ _ fid).1 hfid)

end Load

/-- A database of which only the directory is known, with empty data files in it. -/
def withDataFiles (fids : List ℕ) : Proc BTreeIndex where
  db := { options := ⟨['d'], 100, false⟩, index := Indexer.create 0 }
  world := { fs := (∅ : FS).insert ['d'] (fids.foldl (fun dir fid => dir.insert (.data fid) []) ∅) }

/-- The file of id 4 is opened, behind three ids that are missing. -/
theorem loadDataFiles_opens_four : ∃ q, (loadDataFiles : DBM BTreeIndex Unit).run
      (withDataFiles [0, 4]) = .ok () q ∧
    Loads (withDataFiles [0, 4]) q
      {fid | Found (hasDataFile (withDataFiles [0, 4]).world.fs ['d']) fid} ∧
    ((∀ fid, ¬Found (hasDataFile (withDataFiles [0, 4]).world.fs ['d']) fid) →
      q.db.activeFile = if (withDataFiles [0, 4]).db.isInitial then
        some (withDataFiles [0, 4]).db.firstFile else none) :=
  loadDataFiles_opens (p := withDataFiles [0, 4]) rfl rfl fun _ => rfl

/-- The file of id 6 is not opened, behind five ids that are missing. -/
theorem not_forall_loadDataFiles : ¬∀ p : Proc BTreeIndex, p.db.activeFile = none →
    p.db.olderFiles = ∅ →
    (∀ fid, p.world.outcomes (.open (getDataFileName p.db.options.dirPath fid)) = []) →
    ∃ q, (loadDataFiles : DBM BTreeIndex Unit).run p = .ok () q ∧
      Loads p q {fid | hasDataFile p.world.fs p.db.options.dirPath fid = true} := by
  intro h
  obtain ⟨q, hq, hall⟩ := h (withDataFiles [0, 6]) rfl rfl fun _ => rfl
  obtain ⟨q', hq', hfound, -⟩ := loadDataFiles_spec (p := withDataFiles [0, 6]) rfl rfl fun _ => rfl
  cases hq.symm.trans hq'
  have hmem := (hall.mem_fileIds 6).2 (show hasDataFile _ _ 6 = true from rfl)
  have hids : findDataFiles (withDataFiles [0, 6]).world.fs ['d'] = [0] := by decide
  have hmem' : 6 ∈ findDataFiles (withDataFiles [0, 6]).world.fs ['d'] :=
    (hfound.mem_fileIds 6).1 hmem
  rw [hids] at hmem'
  exact absurd hmem' (by decide)

end DB

end Bitcask
