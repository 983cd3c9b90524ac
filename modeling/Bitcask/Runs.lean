import Bitcask.Opening
import Bitcask.Requests

/-!
# Runs of a database

A database opened in a place where there was nothing yet (`Fresh`), and what
requests made of it preserve as long as its records stay in the first file. What
holds at first and is preserved by whatever effect a request may have, holds
after a run (`Session.run_keeps`).
-/

namespace Bitcask

open Framing Transaction DataFile FuelLoop

variable {ι : Type}

/-- There is nothing yet where the database will be. -/
structure Fresh (options : Options) (w : World) : Prop where
  valid : DB.checkOptions options = .ok ()
  new : ∀ dir, FS.below options.dirPath dir = true → w.fs.lookup dir = none
  opens : World.OpensOk options.dirPath w

namespace Fresh

variable {options : Options} {w : World}

theorem lookup_merge (h : Fresh options w) :
    w.fs.lookup (options.dirPath ++ "/merge".toList) = none := h.new _ (FS.below_append _ _)

theorem file?_eq_none (h : Fresh options w) (name : FileName) :
    w.fs.file? ⟨options.dirPath, name⟩ = none := by
  rw [FS.file?, h.new _ (FS.below_self _)]
  rfl

end Fresh

/-- The only data file of a database is the first one, no merge has left anything
    behind, and only the writes to the data file may fail. -/
structure OnlyFirst (p : Proc ι) : Prop where
  valid : DB.checkOptions p.db.options = .ok ()
  others : ∀ fid ≠ 0, p.world.fs.file? (getDataFileName p.db.options.dirPath fid) = none
  hint : p.world.fs.file? ⟨p.db.options.dirPath, .hintIndex⟩ = none
  merge : p.world.fs.lookup (p.db.options.dirPath ++ "/merge".toList) = none
  opens : World.OpensOk p.db.options.dirPath p.world
  seqNo : p.world.outcomes (.write ⟨p.db.options.dirPath, .seqNo⟩) = []

namespace OnlyFirst

variable {p q : Proc ι}

theorem of_sameRest {rotated : Bool} (h : OnlyFirst p) (hsame : SameRest rotated p q) :
    OnlyFirst q := by
  obtain ⟨hvalid, hothers, hhint, hmerge, hopens, hseqNo⟩ := h
  constructor
  all_goals rw [hsame.options]
  · exact hvalid
  · intro fid hne
    rw [hsame.file? _ (by simpa [DB.firstPath, getDataFileName, initialFileId] using hne)]
    exact hothers fid hne
  · rw [hsame.file? _ (by simp [DB.firstPath, getDataFileName])]
    exact hhint
  · rw [hsame.lookup _ (DB.merge_ne _)]
    exact hmerge
  · intro name
    rw [hsame.outcomes _ (by simp)]
    exact hopens name
  · rw [hsame.outcomes _ (by simp [DB.firstPath, getDataFileName])]
    exact hseqNo

theorem of_sameOthers (h : OnlyFirst p) {db : DB ι} {w : World}
    (hoptions : db.options = p.db.options)
    (hsame : p.world.SameOthers p.db.options.dirPath w) : OnlyFirst ⟨db, w⟩ := by
  obtain ⟨hvalid, hothers, hhint, hmerge, hopens, hseqNo⟩ := h
  constructor
  all_goals
    dsimp only
    rw [hoptions]
  · exact hvalid
  · exact fun fid hne => (hsame.others fid hne).trans (hothers fid hne)
  · exact hsame.hint.trans hhint
  · exact (hsame.lookup _ (DB.merge_ne _)).trans hmerge
  · exact hsame.opensOk hopens
  · rw [hsame.outcomes]
    exact hseqNo

end OnlyFirst

variable [Indexer ι]

/-! ## Opening -/

namespace DB.Opened

variable {options : Options} {fileIds : List ℕ} {records : List LogRecord} {zeros : ℕ}
  {w w' : World} {db : DB ι}

/-- The records of the file opened have been replayed. -/
theorem replayed (h : Opened options fileIds (encodeAll records ++ List.replicate zeros 0) w db w')
    (hrecords : ∀ r ∈ records, r.Readable) (h5 : zeros ≠ 5) (h6 : zeros ≠ 6) :
    Stored ⟨db, w'⟩ records zeros ∧
      Indexer.get db.index = (replay (fileEntries 0 records)).value ∧
      db.seqNo = maxSeqNo records := by
  obtain ⟨seed, hactive, hindex, hseqNo⟩ := h.loaded
  rw [scanFile_zeros 0 _ hrecords h5 h6] at hactive hindex hseqNo
  have hinit : Loading.state (ι := ι) { index := Indexer.create seed, reclaimSize := 0 } = .init :=
    congrArg₂ State.mk (funext fun k => Indexer.get_create _ k) rfl
  refine ⟨⟨hactive, h.first⟩, ?_, ?_⟩
  · have hstate := state_processAll 0
      { index := (Indexer.create seed : ι), reclaimSize := 0 } (offsets records)
    rw [hinit] at hstate
    rw [hindex]
    exact congrArg State.value hstate
  · rw [hseqNo, seqNo_processAll, map_snd_layout]
    rfl

end DB.Opened

/-- A database that has just been made. -/
structure Made (options : Options) (w : World) (db : DB ι) (w' : World) : Prop where
  options_eq : db.options = options
  fileIds_eq : db.fileIds = []
  olderFiles_eq : db.olderFiles = ∅
  isMerging_eq : db.isMerging = false
  stored : Stored ⟨db, w'⟩ [] 0
  index : ∀ k, Indexer.get db.index k = none
  seqNo : db.seqNo = nonTransactionSeqNo
  outcomes : w'.outcomes = w.outcomes
  onlyFirst : w.outcomes (.write ⟨options.dirPath, .seqNo⟩) = [] → OnlyFirst ⟨db, w'⟩
  lookup : ∀ dir ≠ options.dirPath, w'.fs.lookup dir = w.fs.lookup dir

theorem Fresh.open_run {options : Options} {w : World} (h : Fresh options w) :
    ∃ (db : DB ι) (w' : World), (DB.open options : Sys (DB ι)).run w = .ok db w' ∧
      DB.Opened options [] [] w db w' ∧ db.reclaimSize = 0 := by
  have hnew : w.fs.directoryExists options.dirPath = false := by
    rw [FS.directoryExists, h.new _ (FS.below_self _)]
    rfl
  have hhint : DB.HintOk ι w.fs options.dirPath := fun c hc => by
    rw [h.file?_eq_none] at hc
    cases hc
  exact DB.open_run_new h.valid (.of_lookup h.lookup_merge) (fun fid => h.file?_eq_none _) (.inl hnew) h.opens
    hhint

/-- A database is made where there was nothing yet. -/
theorem Fresh.open {options : Options} {w : World} (h : Fresh options w) :
    ∃ (db : DB ι) (w' : World), (DB.open options : Sys (DB ι)).run w = .ok db w' ∧
      Made options w db w' := by
  obtain ⟨db, w', hrun, hopened, -⟩ := h.open_run (ι := ι)
  have hempty : DB.Opened options [] (encodeAll [] ++ List.replicate 0 0) w db w' := hopened
  obtain ⟨hstored, hindex, hseqNo⟩ := hempty.replayed (List.forall_mem_nil _) (by decide) (by decide)
  refine ⟨db, w', hrun, hopened.options_eq, hopened.fileIds_eq, hopened.olderFiles_eq,
    hopened.isMerging_eq, hstored, fun k => by rw [hindex]; rfl, hseqNo,
    hopened.sameOthers.outcomes, fun hw => ?_, hopened.sameOthers.lookup⟩
  have hbefore : OnlyFirst (⟨{ db with options := options }, w⟩ : Proc ι) :=
    ⟨h.valid, fun _ _ => h.file?_eq_none _, h.file?_eq_none _, h.lookup_merge, h.opens, hw⟩
  exact hbefore.of_sameOthers hopened.options_eq hopened.sameOthers

/-- Whether the first data file is written to without short writes does not change when a
    database is made. -/
theorem Made.noShortWrites {options : Options} {w w' : World} {db : DB ι}
    (h : Made options w db w') (hfresh : Fresh options w)
    (hw : ∀ o ∈ w.outcomes (.write (getDataFileName options.dirPath 0)), o = .ok ∨ o = .fail) :
    NoShortWrites ⟨db, w'⟩ := by
  have hpath : db.firstPath = getDataFileName options.dirPath 0 := by
    rw [DB.firstPath, h.options_eq]
    rfl
  rw [NoShortWrites, Proc.writeOutcomes, hpath, h.outcomes]
  exact ⟨hfresh.opens _, hw⟩

/-- Closing a database and opening it again reads its file. -/
theorem Stored.reopen {p : Proc ι} {records : List LogRecord} {zeros : ℕ}
    (h : Stored p records zeros) (hp : OnlyFirst p) :
    ∃ q, (DB.close : DBM ι Unit).run p = .ok () q ∧
      ∃ (db : DB ι) (w : World), (DB.open p.db.options : Sys (DB ι)).run q.world = .ok db w ∧
        DB.Opened p.db.options [0]
          (DB.loadingContent p.db.options (encodeAll records ++ List.replicate zeros 0))
          p.world db w ∧ OnlyFirst ⟨db, w⟩ := by
  obtain ⟨w, hclose, hsame⟩ := DB.close_run h.content (hp.opens _) (hp.opens _) hp.seqNo
  refine ⟨_, hclose, ?_⟩
  have hw : OnlyFirst ⟨p.db, w⟩ := hp.of_sameOthers rfl hsame.toSameOthers
  obtain ⟨db, w', hrun, hopened⟩ := DB.open_run_first (ι := ι) hw.valid (.of_lookup hw.merge)
    (hsame.first.trans h.content) hw.others hw.opens
    fun c hc => by rw [hw.hint] at hc; cases hc
  have hsame' := hsame.toSameOthers.trans hopened.sameOthers
  exact ⟨db, w', hrun, { hopened with sameOthers := hsame' },
    hp.of_sameOthers hopened.options_eq hsame'⟩

/-! ## Runs -/

namespace Session

/-- The write offset of the active file. -/
def writeOff (s : Session ι) : ℕ := s.proc.db.activeFile.elim 0 DataFile.writeOff

/-- The records a request appends fit behind the end of the active file. If they
    may be `rotated`, a record that does not fit may be the first one. -/
def FitsFile (rotated : Bool) (s : Session ι) (op : Op) : Prop :=
  FitAll rotated s.proc.db.options.dataFileSize s.writeOff (s.appends op)

/-- No stored key and no value a request appends exceeds 64 MiB. -/
def SmallEnough (s : Session ι) (op : Op) : Prop :=
  ∀ r ∈ s.appends op, r.key.length ≤ maxRecordSize ∧ r.value.length ≤ maxRecordSize

instance (rotated : Bool) (s : Session ι) (op : Op) : Decidable (s.FitsFile rotated op) :=
  inferInstanceAs (Decidable (FitAll ..))

instance (s : Session ι) (op : Op) : Decidable (s.SmallEnough op) :=
  inferInstanceAs (Decidable (∀ r ∈ s.appends op, _))

/-- A session that goes on from a state, keeping its records in the first file. -/
structure Ongoing (rotated : Bool) (p : Proc ι) (s : Session ι) (records : List LogRecord)
    (zeros : ℕ) : Prop where
  stored : Stored s.proc records zeros
  rest : SameRest rotated p s.proc
  noShortWrites : NoShortWrites s.proc

omit [Indexer ι] in
theorem Ongoing.writeOff_eq {rotated : Bool} {p : Proc ι} {s : Session ι}
    {records : List LogRecord} {zeros : ℕ} (h : Ongoing rotated p s records zeros) :
    s.writeOff = (encodeAll records).length := by
  rw [writeOff, h.stored.active]
  rfl

/-- What a request of a session that goes on does. -/
theorem Ongoing.performed {rotated : Bool} {p : Proc ι} {s : Session ι}
    {records : List LogRecord} {zeros : ℕ} (h : Ongoing rotated p s records zeros) {op : Op}
    (hfit : s.FitsFile rotated op) :
    Performed rotated s.proc records zeros (s.committed op) (s.appends op) (s.requested op)
      (s.step op).1.proc (s.step op).2 := by
  rw [FitsFile, h.writeOff_eq] at hfit
  exact step_performed h.stored h.noShortWrites hfit

/-- A session that goes on, of whose records and acknowledged writes something holds.
    There are no more zeros behind its records than there were once. -/
def Keeps (rotated : Bool) (p : Proc ι) (maxZeros : ℕ)
    (J : Session ι → List LogRecord → List Write → Prop) (s : Session ι) (acks : List Write) :
    Prop :=
  ∃ records, ∃ zeros ≤ maxZeros, Ongoing rotated p s records zeros ∧ J s records acks

section Keeps

variable {rotated : Bool} {p : Proc ι} {maxZeros : ℕ} {C : Session ι → Op → Prop}
  {J : Session ι → List LogRecord → List Write → Prop}
  (hfit : ∀ s op, C s op → s.FitsFile rotated op)
  (hstep : ∀ s op records zeros appended acks, Ongoing rotated p s records zeros →
    J s records acks → C s op → appended <+: s.appends op →
    Effect s.proc (s.step op).1.proc (encodeAll records).length (s.committed op) appended
      (s.step op).2 →
    J (s.step op).1 (records ++ appended) (acks ++ (s.step op).2))

include hfit hstep

theorem step_keeps {s : Session ι} {op : Op} {acks : List Write} (hs : Keeps rotated p maxZeros J s acks)
    (hC : C s op) : Keeps rotated p maxZeros J (s.step op).1 (acks ++ (s.step op).2) := by
  obtain ⟨records, zeros, hzeros, hs, hJ⟩ := hs
  obtain ⟨⟨appended, hpre, hstored, heffect⟩, hrest, -⟩ := hs.performed (hfit s op hC)
  exact ⟨records ++ appended, _, (Nat.sub_le _ _).trans hzeros, ⟨hstored, hs.rest.trans hrest,
    hrest.noShortWrites hs.noShortWrites⟩, hstep s op records zeros appended acks hs hJ hC hpre
    heffect⟩

/-- The invariant rule for runs: what every effect of a request preserves, holds
    of the session, its records and all writes acknowledged. -/
theorem run_keeps {s : Session ι} (hs : Keeps rotated p maxZeros J s []) {ops : List Op}
    (hops : Machine.AllSteps step C s ops) :
    Keeps rotated p maxZeros J (s.run ops).1 (s.run ops).2 :=
  Machine.run_inv (fun _ _ _ hs hC => step_keeps hfit hstep hs hC) hs hops

/-- If no write can fail, all writes requested in a run are acknowledged. -/
theorem acknowledged_of_keeps (hp : p.writeOutcomes = [])
    {s : Session ι} (hs : Keeps rotated p maxZeros J s []) {ops : List Op}
    (hops : Machine.AllSteps step C s ops) :
    Machine.AllSteps step (fun s op => (s.step op).2 = s.requested op) s ops := by
  refine Machine.AllSteps.of_inv (I := fun s => ∃ acks, Keeps rotated p maxZeros J s acks)
    (fun s op ⟨acks, hs⟩ hC => ⟨_, step_keeps hfit hstep hs hC⟩) ?_ ⟨[], hs⟩ hops
  rintro s op ⟨acks, records, zeros, -, hs, -⟩ hC
  exact (hs.performed (hfit s op hC)).acknowledged (hs.rest.writes_nil hp)

end Keeps

end Session

end Bitcask
