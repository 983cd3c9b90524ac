import Bitcask.Appending

/-!
# Requests that are cut off

A process may die during a request. What it leaves behind is a file system that the
request has passed through: the one after so many of its changes (`Session.cutOff`). If
no record is rotated and no call fails, the first data file then holds the first so many
of the records of the request, and nothing else has changed (`Session.cutOff_spec`).
-/

namespace Bitcask

open DB DBM Guarantee

variable {ι : Type}

/-- What the first data file holds after so many changes, which change nothing else. -/
structure FS.AppendedTo (p : Proc ι) (records : List LogRecord) (fs : FS) : Prop where
  first : fs.file? p.db.firstPath = some (encodeAll records)
  file? : ∀ path ≠ p.db.firstPath, fs.file? path = p.world.fs.file? path
  lookup : ∀ dir ≠ p.db.options.dirPath, fs.lookup dir = p.world.fs.lookup dir

namespace Stored

variable {p : Proc ι} {records : List LogRecord}

/-- Records are appended by one change each. -/
theorem appending_trace (h : Stored p records 0) (hwrites : p.writeOutcomes = [])
    {appended : List LogRecord}
    (hfit : FitAll false p.db.options.dataFileSize (encodeAll records).length appended) :
    ∃ passed, (p.appending appended).world.trace = p.world.trace ++ passed ∧
      passed.length = appended.length ∧
      (passed.getLastD p.world.fs = (p.appending appended).world.fs) ∧
      ∀ n, FS.AppendedTo p (records ++ appended.take n) ((passed.take n).getLastD p.world.fs) := by
  have hnow : FS.AppendedTo p (records ++ []) p.world.fs :=
    ⟨by simpa using h.content, fun _ _ => rfl, fun _ _ => rfl⟩
  induction appended generalizing p records with
  | nil => exact ⟨[], by simp [Proc.appending], rfl, rfl, fun n => by simpa using hnow⟩
  | cons record appended ih =>
    set file := p.db.activeAt (encodeAll records).length with hfile
    have hle := hfit.1.resolve_right fun hrotated => Bool.noConfusion hrotated.1
    have hnext : p.world.next (.write file.path) = (.ok, p.world) := World.next_of_nil hwrites
    have hrun := appendLogRecordInternal_ok h.active hle hnext
    set q : Proc ι := ⟨p.db.written file record, p.world.wrote file record.encode⟩ with hq
    have hstored : Stored q (records ++ [record]) 0 := by
      simpa using h.wrote rfl rfl
    have hpath : q.db.firstPath = p.db.firstPath := rfl
    have hlength : (encodeAll (records ++ [record])).length =
        (encodeAll records).length + record.encode.length := by simp
    obtain ⟨passed, htrace, hcount, hlast, hpassed⟩ := ih hstored hwrites (hlength ▸ hfit.2)
      ⟨by simpa using hstored.content, fun _ _ => rfl, fun _ _ => rfl⟩
    -- What has been passed before the others is the file system with the first record.
    refine ⟨q.world.fs :: passed, ?_, by rw [List.length_cons, hcount, List.length_cons], ?_,
      fun n => ?_⟩
    · rw [Proc.appending_ok hrun, htrace]
      show (p.world.wrote file record.encode).trace ++ passed = _
      rw [World.wrote, World.change, List.append_assoc]
      rfl
    · rw [Proc.appending_ok hrun, List.getLastD_cons, hlast]
    · cases n with
      | zero => simpa using hnow
      | succ n =>
        obtain ⟨hfirst, hothers, hlookup⟩ := hpassed n
        rw [List.take_succ_cons, List.take_succ_cons, List.getLastD_cons]
        refine ⟨?_, fun path hne => (hothers path hne).trans ?_, fun dir hne =>
          (hlookup dir hne).trans ?_⟩
        · rw [← hpath, hfirst, List.append_assoc, List.singleton_append]
        · exact World.wrote_file?_of_ne _ _ _ hne
        · exact World.wrote_lookup_of_ne _ _ _ hne

end Stored

namespace Session

variable [Indexer ι]

/-- The file system that a request leaves behind that is cut off after so many of its
    changes. -/
def cutOff (s : Session ι) (op : Op) (changes : ℕ) : FS :=
  s.proc.world.cutOff (s.step op).1.proc.world changes

variable {s : Session ι} {records : List LogRecord}

/-- A request that is cut off has appended the first of its records. -/
theorem cutOff_spec (h : Stored s.proc records 0) (hwrites : s.proc.writeOutcomes = []) {op : Op}
    (hfit : FitAll false s.proc.db.options.dataFileSize (encodeAll records).length
      (s.appends op)) (changes : ℕ) :
    FS.AppendedTo s.proc (records ++ (s.appends op).take changes) (s.cutOff op changes) := by
  obtain ⟨passed, htrace, -, -, hpassed⟩ := h.appending_trace hwrites hfit
  have hworld := (s.step_reindexed op).world
  rw [cutOff, World.cutOff, hworld, htrace, List.drop_left]
  exact hpassed changes

/-- A request that is not cut off has appended all of its records. -/
theorem step_appended (h : Stored s.proc records 0) (hwrites : s.proc.writeOutcomes = []) {op : Op}
    (hfit : FitAll false s.proc.db.options.dataFileSize (encodeAll records).length
      (s.appends op)) :
    (s.step op).1.proc.world.fs.file? s.proc.db.firstPath =
      some (encodeAll (records ++ s.appends op)) := by
  obtain ⟨passed, -, hcount, hlast, hpassed⟩ := h.appending_trace hwrites hfit
  have hall := (hpassed passed.length).first
  rwa [List.take_length, hlast, hcount, List.take_length,
    ← (s.step_reindexed op).world] at hall

end Session

end Bitcask
