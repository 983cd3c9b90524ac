import Bitcask.Common

/-!
# The file system

The directories and files the store works on, and the system calls it makes. A
directory maps file names to contents; the file of a data file id has a name of
its own, whatever its spelling.

A `World` is a file system with what decides how the calls end: the outcomes
that opening and writing each file will have (success when none are left), and
the seeds the random device will yield. Its `trace` records every file system
passed through, which is what a crash may leave behind.

The calls are computations in `Sys`; the effects of those that succeed are given
by functions on file systems, about which there are the usual lemmas: what is
found at the place written (`file?_store_self`) and that the rest is left alone.
-/

namespace Bitcask

/-- The names of the files of a database. -/
inductive FileName
  | data (fileId : ℕ)
  | hintIndex
  | mergeFinished
  | seqNo
  | flock
deriving DecidableEq, Repr

/-- A file in a directory. -/
structure FilePath where
  dir : Path
  name : FileName
deriving DecidableEq, Repr

/-- The contents of a directory. -/
abbrev Dir := AList fun _ : FileName => Bytes

/-- The directories that exist. -/
abbrev FS := AList fun _ : Path => Dir

/-- The size memory-mapped files are extended to multiples of. -/
def pageSize : ℕ := 4096

/-- A file's contents after writing at an offset. A gap is filled with zeros. -/
def overwrite (content : Bytes) (offset : ℕ) (data : Bytes) : Bytes :=
  if data = [] then content
  else
    content.take offset ++ List.replicate (offset - content.length) 0 ++ data ++
      content.drop (offset + data.length)

theorem overwrite_append {content : Bytes} {offset : ℕ} (h : content.length = offset)
    (rest data : Bytes) :
    overwrite (content ++ rest) offset data = content ++ data ++ rest.drop data.length := by
  subst h
  have hgap : content.length - (content ++ rest).length = 0 := by simp
  rw [overwrite, hgap, List.replicate_zero, List.take_left, List.append_nil, ← List.drop_drop,
    List.drop_left]
  split
  · simp [*]
  · rfl

/-- Two writes, one behind the other, make one. -/
theorem overwrite_overwrite (content : Bytes) (offset : ℕ) (a b : Bytes) :
    overwrite (overwrite content offset a) (offset + a.length) b =
      overwrite content offset (a ++ b) := by
  rcases eq_or_ne a [] with rfl | ha
  · have hnil : overwrite content offset [] = content := if_pos rfl
    rw [hnil, List.length_nil, Nat.add_zero, List.nil_append]
  rcases eq_or_ne b [] with rfl | hb
  · rw [overwrite, if_pos rfl, List.append_nil]
  have hfront : (content.take offset ++ List.replicate (offset - content.length) 0 ++ a).length =
      offset + a.length := by
    rw [List.length_append, List.length_append, List.length_take, List.length_replicate]
    omega
  have hgap : offset + a.length - (overwrite content offset a).length = 0 := by
    rw [overwrite, if_neg ha, List.length_append, hfront]
    omega
  rw [overwrite.eq_1 (overwrite content offset a), if_neg hb, hgap, List.replicate_zero,
    List.append_nil, overwrite, if_neg ha, List.take_left' hfront, ← List.drop_drop,
    List.drop_left' hfront, List.drop_drop, overwrite, if_neg (by simp [ha]), List.length_append,
    ← List.append_assoc, Nat.add_assoc]

/-- What is behind the part that is written to stays there. -/
theorem overwrite_append_right {content data : Bytes} {offset : ℕ}
    (h : offset + data.length ≤ content.length) (rest : Bytes) :
    overwrite (content ++ rest) offset data = overwrite content offset data ++ rest := by
  unfold overwrite
  split
  · rfl
  · rw [List.take_append_of_le_length (by omega), List.drop_append_of_le_length h,
      List.length_append, show offset - (content.length + rest.length) = 0 by omega,
      show offset - content.length = 0 by omega]
    simp only [List.append_assoc]

theorem length_overwrite_of_le {content data : Bytes} {offset : ℕ}
    (h : offset + data.length ≤ content.length) :
    (overwrite content offset data).length = content.length := by
  unfold overwrite
  split
  · rfl
  · simp only [List.length_append, List.length_take, List.length_replicate, List.length_drop]
    omega

namespace FS

variable (fs : FS)

/-- The contents of a file. -/
def file? (path : FilePath) : Option Bytes := (fs.lookup path.dir).bind (·.lookup path.name)

def fileExists (path : FilePath) : Bool := (fs.file? path).isSome

def directoryExists (dir : Path) : Bool := (fs.lookup dir).isSome

/-- The directory is the given one or below it. -/
def below (dir : Path) (sub : Path) : Bool := sub = dir || (dir ++ ['/']).isPrefixOf sub

/-- The sizes of the files in a directory and below it. -/
def dirSize (dir : Path) : ℕ :=
  ((fs.entries.filter fun e => below dir e.1).map fun e =>
    (e.2.entries.map fun f => f.2.length).sum).sum

def createDirectory (dir : Path) : FS :=
  if fs.directoryExists dir then fs else fs.insert dir ∅

/-- The file system with new contents of a file in a directory that exists. -/
def store (path : FilePath) (content : Bytes) : FS :=
  match fs.lookup path.dir with
  | some dir => fs.insert path.dir (dir.insert path.name content)
  | none => fs

def remove (path : FilePath) : FS :=
  match fs.lookup path.dir with
  | some dir => fs.insert path.dir (dir.erase path.name)
  | none => fs

/-- The file system without a directory and everything below it. -/
def removeDirectory (dir : Path) : FS :=
  ⟨fs.entries.filter fun e => !below dir e.1, fs.nodupKeys.sublist List.filter_sublist⟩

/-! ## Lookups -/

section Lookup

variable {fs : FS} {path p : FilePath} {content : Bytes} {dir d : Path}

theorem fileExists_iff : fs.fileExists path = true ↔ ∃ c, fs.file? path = some c :=
  Option.isSome_iff_exists

theorem directoryExists_iff : fs.directoryExists dir = true ↔ ∃ c, fs.lookup dir = some c :=
  Option.isSome_iff_exists

/-- A file is found in a directory that exists. -/
theorem directoryExists_of_file? (h : fs.file? path = some content) :
    fs.directoryExists path.dir = true := by
  obtain ⟨c, hc, _⟩ := Option.bind_eq_some_iff.1 h
  exact directoryExists_iff.2 ⟨c, hc⟩

/-- A file is found in what its directory holds. -/
theorem file?_congr {fs' : FS} (h : fs.lookup path.dir = fs'.lookup path.dir) :
    fs.file? path = fs'.file? path := by
  rw [file?, file?, h]

@[simp]
theorem lookup_store_of_ne (h : d ≠ path.dir) :
    (fs.store path content).lookup d = fs.lookup d := by
  unfold store
  split
  · exact AList.lookup_insert_ne h
  · rfl

theorem file?_store_self (h : fs.directoryExists path.dir = true) :
    (fs.store path content).file? path = some content := by
  obtain ⟨c, hc⟩ := directoryExists_iff.1 h
  simp [store, file?, hc]

theorem file?_store_of_ne (h : p ≠ path) :
    (fs.store path content).file? p = fs.file? p := by
  by_cases hd : p.dir = path.dir
  · have hn : p.name ≠ path.name := fun hn => h (by cases p; cases path; simp_all)
    unfold store file?
    split
    · rw [hd, AList.lookup_insert, ‹fs.lookup path.dir = _›]
      exact AList.lookup_insert_ne hn
    · rfl
  · exact file?_congr (lookup_store_of_ne hd)

@[simp]
theorem directoryExists_store :
    (fs.store path content).directoryExists d = fs.directoryExists d := by
  unfold directoryExists
  by_cases hd : d = path.dir
  · subst hd
    unfold store
    split
    · rw [AList.lookup_insert, ‹fs.lookup path.dir = _›]
      rfl
    · rfl
  · rw [lookup_store_of_ne hd]

@[simp]
theorem lookup_remove_of_ne (h : d ≠ path.dir) : (fs.remove path).lookup d = fs.lookup d := by
  unfold remove
  split
  · exact AList.lookup_insert_ne h
  · rfl

theorem file?_remove_self : (fs.remove path).file? path = none := by
  unfold remove file?
  split
  · simp
  · rw [‹fs.lookup path.dir = _›]
    rfl

theorem file?_remove_of_ne (h : p ≠ path) : (fs.remove path).file? p = fs.file? p := by
  by_cases hd : p.dir = path.dir
  · have hn : p.name ≠ path.name := fun hn => h (by cases p; cases path; simp_all)
    unfold remove file?
    split
    · rw [hd, AList.lookup_insert, ‹fs.lookup path.dir = _›]
      exact AList.lookup_erase_ne hn
    · rfl
  · exact file?_congr (lookup_remove_of_ne hd)

@[simp]
theorem directoryExists_remove : (fs.remove path).directoryExists d = fs.directoryExists d := by
  unfold directoryExists
  by_cases hd : d = path.dir
  · subst hd
    unfold remove
    split
    · rw [AList.lookup_insert, ‹fs.lookup path.dir = _›]
      rfl
    · rfl
  · rw [lookup_remove_of_ne hd]

@[simp]
theorem lookup_createDirectory_of_ne (h : d ≠ dir) :
    (fs.createDirectory dir).lookup d = fs.lookup d := by
  unfold createDirectory
  split
  · rfl
  · exact AList.lookup_insert_ne h

theorem directoryExists_createDirectory_self :
    (fs.createDirectory dir).directoryExists dir = true := by
  unfold createDirectory
  split
  · assumption
  · simp [directoryExists]

/-- A new directory is empty. -/
theorem file?_createDirectory : (fs.createDirectory dir).file? path = fs.file? path := by
  unfold createDirectory
  split
  · rfl
  · rename_i hd
    by_cases h : path.dir = dir
    · have hnone : fs.lookup dir = none := by
        simpa [directoryExists] using hd
      subst h
      simp [file?, hnone]
    · exact file?_congr (AList.lookup_insert_ne h)

@[simp]
theorem lookup_removeDirectory_of_not_below (h : below dir d = false) :
    (fs.removeDirectory dir).lookup d = fs.lookup d := by
  ext c
  rw [← Option.mem_def, ← Option.mem_def, AList.mem_lookup_iff, AList.mem_lookup_iff]
  simp [removeDirectory, h]

/-- A removed directory is gone, with all that is below it. -/
theorem lookup_removeDirectory_of_below (h : below dir d = true) :
    (fs.removeDirectory dir).lookup d = none := by
  rw [AList.lookup_eq_none]
  intro hmem
  obtain ⟨files, hfiles⟩ := AList.lookup_isSome.2 hmem |> Option.isSome_iff_exists.1
  rw [← Option.mem_def, AList.mem_lookup_iff] at hfiles
  simp [removeDirectory, h] at hfiles

end Lookup

/-! ## Directories below others -/

section Below

variable {dir d d' : Path}

theorem below_self (dir : Path) : below dir dir = true := by simp [below]

theorem below_dir (path : FilePath) : below path.dir path.dir = true := below_self _

theorem below_append (dir sub : Path) : below dir (dir ++ '/' :: sub) = true := by simp [below]

theorem below_trans (h : below dir d = true) (h' : below d d' = true) : below dir d' = true := by
  simp only [below, Bool.or_eq_true, decide_eq_true_eq, List.isPrefixOf_iff_prefix] at h h' ⊢
  rcases h with rfl | hd
  · exact h'
  · rcases h' with rfl | hd'
    · exact .inr hd
    · exact .inr (hd.trans ((List.prefix_append _ _).trans hd'))

/-- What is not below a directory is none of those that are. -/
theorem ne_of_not_below (h : below dir d = true) (h' : below dir d' = false) : d' ≠ d := by
  rintro rfl
  rw [h] at h'
  cases h'

/-- If a directory is missing, nothing is below it. -/
def Hierarchical (fs : FS) (dir : Path) : Prop :=
  fs.lookup dir = none → ∀ sub, below dir sub = true → fs.lookup sub = none

theorem Hierarchical.congr {fs fs' : FS} (h : fs.Hierarchical dir)
    (hsame : ∀ sub, below dir sub = true → fs'.lookup sub = fs.lookup sub) :
    fs'.Hierarchical dir := by
  intro hnone sub hsub
  rw [hsame _ (below_self dir)] at hnone
  rw [hsame sub hsub]
  exact h hnone sub hsub

/-- It matters only which directories there are. -/
theorem Hierarchical.of_directoryExists {fs fs' : FS} (h : fs.Hierarchical dir)
    (hsame : ∀ d, fs'.directoryExists d = fs.directoryExists d) : fs'.Hierarchical dir := by
  have hiff (d : Path) : fs'.lookup d = none ↔ fs.lookup d = none := by
    have hd := hsame d
    unfold directoryExists at hd
    rw [← Option.not_isSome_iff_eq_none, hd, Option.not_isSome_iff_eq_none]
  intro hnone sub hsub
  exact (hiff sub).2 (h ((hiff dir).1 hnone) sub hsub)

theorem hierarchical_createDirectory (fs : FS) (dir : Path) :
    (fs.createDirectory dir).Hierarchical dir := by
  intro hnone
  have hexists : (fs.createDirectory dir).directoryExists dir = true :=
    directoryExists_createDirectory_self
  rw [directoryExists, hnone] at hexists
  cases hexists

/-- What is below a removed directory is removed with it. -/
theorem Hierarchical.removeDirectory {fs : FS} (h : fs.Hierarchical dir) (d : Path) :
    (fs.removeDirectory d).Hierarchical dir := by
  intro hnone sub hsub
  cases hbelow : below d sub with
  | true => exact lookup_removeDirectory_of_below hbelow
  | false =>
    have hdir : below d dir = false := Bool.eq_false_of_not_eq_true fun hd => by
      rw [below_trans hd hsub] at hbelow
      cases hbelow
    rw [lookup_removeDirectory_of_not_below hdir] at hnone
    rw [lookup_removeDirectory_of_not_below hbelow]
    exact h hnone sub hsub

end Below

/-! ## Directories that are apart -/

/-- The names on a path, from outside to inside. An empty name and `.` lead nowhere. -/
def names (path : Path) : List Path :=
  (path.splitOn '/').filter fun name => name ≠ [] ∧ name ≠ ['.']

theorem names_append (path rest : Path) : names (path ++ '/' :: rest) = names path ++ names rest := by
  rw [names, List.splitOn_append_cons_self, List.filter_append]
  rfl

theorem prefix_names_of_below {dir sub : Path} (h : below dir sub = true) :
    names dir <+: names sub := by
  simp only [below, Bool.or_eq_true, decide_eq_true_eq, List.isPrefixOf_iff_prefix] at h
  rcases h with rfl | ⟨rest, rfl⟩
  · exact List.prefix_rfl
  · rw [List.append_assoc, List.singleton_append, names_append]
    exact List.prefix_append _ _

/-- Neither of two directories is the other one or inside it, however their paths are written.
    Paths that lead upwards, or of which one only begins at the root, are not compared. -/
def Apart (dir dir' : Path) : Prop :=
  ['.', '.'] ∉ names dir ++ names dir' ∧ (dir.head? = some '/' ↔ dir'.head? = some '/') ∧
    ¬names dir <+: names dir' ∧ ¬names dir' <+: names dir

instance (dir dir' : Path) : Decidable (Apart dir dir') :=
  inferInstanceAs (Decidable (_ ∧ _ ∧ _ ∧ _))

namespace Apart

variable {dir dir' : Path}

theorem symm (h : Apart dir dir') : Apart dir' dir := by
  obtain ⟨hupwards, hroot, hprefix, hprefix'⟩ := h
  refine ⟨?_, hroot.symm, hprefix', hprefix⟩
  rwa [List.mem_append, or_comm, ← List.mem_append]

theorem ne_nil (h : Apart dir dir') : dir ≠ [] := by
  rintro rfl
  exact h.2.2.1 List.nil_prefix

theorem not_below (h : Apart dir dir') : below dir dir' = false :=
  Bool.eq_false_of_not_eq_true fun hbelow => h.2.2.1 (prefix_names_of_below hbelow)

theorem ne (h : Apart dir dir') : dir' ≠ dir := ne_of_not_below (below_self dir) h.not_below

/-- Nor is a subdirectory of the one inside the other. -/
theorem not_below_append (h : Apart dir dir') {name : Path} (hname : names name = [name]) :
    below dir' (dir ++ '/' :: name) = false := by
  refine Bool.eq_false_of_not_eq_true fun hbelow => ?_
  have hprefix := prefix_names_of_below hbelow
  rw [names_append, hname, List.prefix_concat_iff] at hprefix
  rcases hprefix with heq | hprefix
  · exact h.2.2.1 (heq ▸ List.prefix_append _ _)
  · exact h.2.2.2 hprefix

/-- Nothing is below both. -/
theorem not_below_both (h : Apart dir dir') {sub : Path} (hsub : below dir' sub = true) :
    below dir sub = false := by
  refine Bool.eq_false_of_not_eq_true fun hbelow => ?_
  rcases List.prefix_or_prefix_of_prefix (prefix_names_of_below hbelow)
    (prefix_names_of_below hsub) with hprefix | hprefix
  · exact h.2.2.1 hprefix
  · exact h.2.2.2 hprefix

end Apart

end FS

/-! ## The world -/

/-- The calls that may fail. -/
inductive Call
  | open (path : FilePath)
  | write (path : FilePath)
deriving DecidableEq, Repr

/-- How a call ends: as it should, with an error, or having written only some of
    the bytes. -/
inductive Outcome
  | ok
  | fail
  | short (count : ℕ)
deriving DecidableEq, Repr

/-- The file system, what decides how calls end, and the file systems passed through. -/
structure World where
  fs : FS
  outcomes : Call → List Outcome := fun _ => []
  seeds : ℕ := 0
  trace : List FS := []

/-- Computations making system calls. -/
abbrev Sys := EStateM Exn World

namespace World

/-- The world after a change of its file system. -/
def change (w : World) (fs : FS) : World := { w with fs := fs, trace := w.trace ++ [fs] }

/-- The outcome of a call, and the world after it. -/
def next (w : World) (c : Call) : Outcome × World :=
  match w.outcomes c with
  | [] => (.ok, w)
  | outcome :: outcomes =>
    (outcome, { w with outcomes := Function.update w.outcomes c outcomes })

@[simp]
theorem change_fs (w : World) (fs : FS) : (w.change fs).fs = fs := rfl

@[simp]
theorem change_outcomes (w : World) (fs : FS) : (w.change fs).outcomes = w.outcomes := rfl

@[simp]
theorem change_seeds (w : World) (fs : FS) : (w.change fs).seeds = w.seeds := rfl

theorem next_of_nil {w : World} {c : Call} (h : w.outcomes c = []) : w.next c = (.ok, w) := by
  rw [next, h]

/-- The world without a file. -/
def withoutFile (w : World) (path : FilePath) : World :=
  if w.fs.fileExists path then w.change (w.fs.remove path) else w

@[simp]
theorem next_fs (w : World) (c : Call) : (w.next c).2.fs = w.fs := by
  unfold next
  split <;> rfl

@[simp]
theorem next_seeds (w : World) (c : Call) : (w.next c).2.seeds = w.seeds := by
  unfold next
  split <;> rfl

@[simp]
theorem next_trace (w : World) (c : Call) : (w.next c).2.trace = w.trace := by
  unfold next
  split <;> rfl

/-- A call leaves the outcomes of the others. -/
theorem next_outcomes_of_ne (w : World) {c c' : Call} (h : c' ≠ c) :
    (w.next c).2.outcomes c' = w.outcomes c' := by
  unfold next
  split
  · rfl
  · exact Function.update_of_ne h _ _

/-- A call takes the first of its outcomes. -/
theorem next_outcomes_self (w : World) (c : Call) :
    (w.next c).2.outcomes c = (w.outcomes c).tail := by
  unfold next
  split <;> simp [*]

theorem next_fst (w : World) (c : Call) : (w.next c).1 = (w.outcomes c).headD .ok := by
  unfold next
  split <;> simp [*]

/-- The world with a directory. -/
def withDirectory (w : World) (dir : Path) : World :=
  if w.fs.directoryExists dir then w else w.change (w.fs.createDirectory dir)

/-- The world with a file, empty if it is new. -/
def withFile (w : World) (path : FilePath) : World :=
  if w.fs.fileExists path then w else w.change (w.fs.store path [])

section WithDirectory

variable (w : World) (dir : Path)

@[simp]
theorem withDirectory_outcomes : (w.withDirectory dir).outcomes = w.outcomes := by
  unfold withDirectory
  split <;> rfl

@[simp]
theorem withDirectory_seeds : (w.withDirectory dir).seeds = w.seeds := by
  unfold withDirectory
  split <;> rfl

theorem withDirectory_directoryExists :
    (w.withDirectory dir).fs.directoryExists dir = true := by
  unfold withDirectory
  split
  · assumption
  · exact FS.directoryExists_createDirectory_self

theorem withDirectory_lookup_of_ne {d : Path} (h : d ≠ dir) :
    (w.withDirectory dir).fs.lookup d = w.fs.lookup d := by
  unfold withDirectory
  split
  · rfl
  · exact FS.lookup_createDirectory_of_ne h

theorem withDirectory_file? (path : FilePath) :
    (w.withDirectory dir).fs.file? path = w.fs.file? path := by
  unfold withDirectory
  split
  · rfl
  · exact FS.file?_createDirectory

end WithDirectory

section WithFile

variable (w : World) (path : FilePath)

@[simp]
theorem withFile_outcomes : (w.withFile path).outcomes = w.outcomes := by
  unfold withFile
  split <;> rfl

@[simp]
theorem withFile_seeds : (w.withFile path).seeds = w.seeds := by
  unfold withFile
  split <;> rfl

@[simp]
theorem withFile_directoryExists (dir : Path) :
    (w.withFile path).fs.directoryExists dir = w.fs.directoryExists dir := by
  unfold withFile
  split
  · rfl
  · exact FS.directoryExists_store

theorem withFile_lookup_of_ne {dir : Path} (h : dir ≠ path.dir) :
    (w.withFile path).fs.lookup dir = w.fs.lookup dir := by
  unfold withFile
  split
  · rfl
  · exact FS.lookup_store_of_ne h

theorem withFile_file?_of_ne {p : FilePath} (h : p ≠ path) :
    (w.withFile path).fs.file? p = w.fs.file? p := by
  unfold withFile
  split
  · rfl
  · exact FS.file?_store_of_ne h

theorem withFile_file?_self (h : w.fs.directoryExists path.dir = true) :
    (w.withFile path).fs.file? path = some ((w.fs.file? path).getD []) := by
  unfold withFile
  split
  · obtain ⟨c, hc⟩ := FS.fileExists_iff.1 ‹_›
    rw [hc]
    rfl
  · have hnone : w.fs.file? path = none := by
      simpa [FS.fileExists] using ‹¬w.fs.fileExists path = true›
    rw [hnone]
    exact FS.file?_store_self h

end WithFile

section WithoutFile

variable (w : World) (path : FilePath)

@[simp]
theorem withoutFile_seeds : (w.withoutFile path).seeds = w.seeds := by
  unfold withoutFile
  split <;> rfl

@[simp]
theorem withoutFile_outcomes : (w.withoutFile path).outcomes = w.outcomes := by
  unfold withoutFile
  split <;> rfl

theorem withoutFile_file?_of_ne {p : FilePath} (h : p ≠ path) :
    (w.withoutFile path).fs.file? p = w.fs.file? p := by
  unfold withoutFile
  split
  · exact FS.file?_remove_of_ne h
  · rfl

theorem withoutFile_file?_self : (w.withoutFile path).fs.file? path = none := by
  unfold withoutFile
  split
  · exact FS.file?_remove_self
  · rename_i hnot
    rwa [FS.fileExists, Option.not_isSome_iff_eq_none] at hnot

theorem withoutFile_lookup_of_ne {dir : Path} (h : dir ≠ path.dir) :
    (w.withoutFile path).fs.lookup dir = w.fs.lookup dir := by
  unfold withoutFile
  split
  · exact FS.lookup_remove_of_ne h
  · rfl

@[simp]
theorem withoutFile_directoryExists (dir : Path) :
    (w.withoutFile path).fs.directoryExists dir = w.fs.directoryExists dir := by
  unfold withoutFile
  split
  · exact FS.directoryExists_remove
  · rfl

end WithoutFile

/-! ### File systems passed through -/

/-- The file system after so many of the changes that lead from one world to another. -/
def cutOff (w w' : World) (changes : ℕ) : FS :=
  ((w'.trace.drop w.trace.length).take changes).getLastD w.fs

/-- All file systems passed through, from one world to another, have a property. -/
def Passes (good : FS → Prop) (w w' : World) : Prop :=
  ∃ passed, w'.trace = w.trace ++ passed ∧ ∀ fs ∈ w'.fs :: passed, good fs

section Passes

variable {good good' : FS → Prop} {w w' w'' : World}

theorem passes_self (h : good w.fs) : w.Passes good w :=
  ⟨[], by simp, List.forall_mem_singleton.2 h⟩

theorem Passes.last (h : w.Passes good w') : good w'.fs := by
  obtain ⟨passed, -, hpassed⟩ := h
  exact hpassed _ List.mem_cons_self

theorem Passes.imp (h : w.Passes good w') (himp : ∀ fs, good fs → good' fs) :
    w.Passes good' w' := by
  obtain ⟨passed, htrace, hpassed⟩ := h
  exact ⟨passed, htrace, fun fs hfs => himp fs (hpassed fs hfs)⟩

theorem Passes.trans (h : w.Passes good w') (h' : w'.Passes good w'') :
    w.Passes good w'' := by
  obtain ⟨passed, htrace, hpassed⟩ := h
  obtain ⟨passed', htrace', hpassed'⟩ := h'
  rw [List.forall_mem_cons] at hpassed hpassed'
  refine ⟨passed ++ passed', by rw [htrace', htrace, List.append_assoc], ?_⟩
  rw [List.forall_mem_cons, List.forall_mem_append]
  exact ⟨hpassed'.1, hpassed.2, hpassed'.2⟩

theorem Passes.change (h : w.Passes good w') {fs : FS} (hfs : good fs) :
    w.Passes good (w'.change fs) := by
  refine h.trans ⟨[fs], rfl, ?_⟩
  rw [List.forall_mem_cons, List.forall_mem_singleton]
  exact ⟨hfs, hfs⟩

/-- Only the file system and the trace matter. -/
theorem Passes.congr (h : w.Passes good w') (hfs : w''.fs = w'.fs)
    (htrace : w''.trace = w'.trace) : w.Passes good w'' := by
  obtain ⟨passed, hsame, hpassed⟩ := h
  exact ⟨passed, htrace.trans hsame, hfs ▸ hpassed⟩

theorem Passes.cutOff (h : w.Passes good w') (hw : good w.fs) (changes : ℕ) :
    good (w.cutOff w' changes) := by
  obtain ⟨passed, htrace, hpassed⟩ := h
  rw [World.cutOff, htrace, List.drop_left]
  rcases List.mem_cons.1 (List.getLastD_mem_cons (l := passed.take changes) (a := w.fs)) with
    heq | hmem
  · rwa [heq]
  · exact hpassed _ (List.mem_cons_of_mem _ (List.mem_of_mem_take hmem))

end Passes

end World

namespace Sys

/-- Changes the file system. -/
def change (f : FS → FS) : Sys Unit := modify fun w => w.change (f w.fs)

/-- Makes a call that may fail. -/
def call (c : Call) : Sys Outcome := modifyGet fun w => w.next c

/-- A value of the random device. -/
def randomDevice : Sys ℕ := modifyGet fun w => (w.seeds, { w with seeds := w.seeds + 1 })

def fileExists (path : FilePath) : Sys Bool := return (← get).fs.fileExists path

def directoryExists (dir : Path) : Sys Bool := return (← get).fs.directoryExists dir

def createDirectory (dir : Path) : Sys Unit := change (·.createDirectory dir)

def removeDirectory (dir : Path) : Sys Unit := change (·.removeDirectory dir)

def remove (path : FilePath) : Sys Unit := change (·.remove path)

theorem call_run (c : Call) (w : World) : (call c).run w = .ok (w.next c).1 (w.next c).2 := rfl

/-- Creates a directory if it is missing. -/
def ensureDirectory (dir : Path) : Sys Unit := do
  unless ← directoryExists dir do createDirectory dir

theorem ensureDirectory_run (dir : Path) (w : World) :
    (ensureDirectory dir).run w = .ok () (w.withDirectory dir) := by
  show (if w.fs.directoryExists dir then pure () else createDirectory dir : Sys Unit).run w = _
  unfold World.withDirectory
  cases w.fs.directoryExists dir <;> rfl

/-- Creates a file if it is missing. -/
def touch (path : FilePath) : Sys Unit := do
  unless ← fileExists path do change (·.store path [])

theorem touch_run (path : FilePath) (w : World) : (touch path).run w = .ok () (w.withFile path) := by
  show (if w.fs.fileExists path then pure () else change (·.store path []) : Sys Unit).run w = _
  unfold World.withFile
  cases w.fs.fileExists path <;> rfl

/-- Removes a file that may be missing. -/
def removeIfExists (path : FilePath) : Sys Unit := do
  if ← fileExists path then remove path

theorem removeIfExists_run (path : FilePath) (w : World) :
    (removeIfExists path).run w = .ok () (w.withoutFile path) := by
  show (if w.fs.fileExists path then remove path else pure () : Sys Unit).run w = _
  unfold World.withoutFile
  split <;> rfl

/-- The bytes that are copied at a time. -/
def copyBufferSize : ℕ := 8192

/-- The number of chunks that contents are copied in. -/
def chunkCount (content : Bytes) : ℕ := (content.length + (copyBufferSize - 1)) / copyBufferSize

/-- Writes so many chunks of contents to a file that has some of them already. -/
def writeChunks (dst : FilePath) (content : Bytes) : ℕ → ℕ → Sys Unit
  | 0, _ => return
  | n + 1, chunks => do
    match ← call (.write dst) with
    | .ok =>
      change (·.store dst (content.take ((chunks + 1) * copyBufferSize)))
      writeChunks dst content n (chunks + 1)
    | .fail => throw (.bitcask "Failed to write to destination file")
    | .short count =>
      change (·.store dst (content.take (chunks * copyBufferSize + min count copyBufferSize)))
      throw (.bitcask "Failed to write to destination file")

/-- Copies the contents of a file. The destination is emptied before the source is read. -/
def copyFile (src dst : FilePath) : Sys Unit := do
  match (← get).fs.file? src with
  | none => throw (.bitcask "Failed to open source file")
  | some _ =>
    match ← call (.open dst) with
    | .fail => throw (.bitcask "Failed to open destination file")
    | _ =>
      change (·.store dst [])
      let content := ((← get).fs.file? src).getD []
      writeChunks dst content (chunkCount content) 0

end Sys

end Bitcask
