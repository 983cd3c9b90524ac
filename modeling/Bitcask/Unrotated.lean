import Bitcask.MergeRun
import Bitcask.Restart

/-!
# Databases without rotations

As long as no file has been rotated, the records of a database are behind one another in its
first file, and the index points to those that put its keys, in a batch or not (`Unrotated`).
This is what the requests of a new database keep (`Fresh.run_unrotated`).
-/

namespace Bitcask

open Framing FuelLoop Transaction DataFile DBM Sys Guarantee

/-! ## Where keys are put -/

/-- A position of a record that puts a key, in a transaction or not. -/
def PutAt (records : List LogRecord) (key : Bytes) (pos : LogRecordPos) : Prop :=
  ∃ x ∈ offsets records, pos = posOf 0 x ∧ x.2.type = .normal ∧
    ∃ seqNo < seqNoBound, x.2.key = logRecordKeyWithSeq key seqNo

theorem PutAt.append {records : List LogRecord} {key : Bytes} {pos : LogRecordPos}
    (h : PutAt records key pos) (appended : List LogRecord) :
    PutAt (records ++ appended) key pos := by
  obtain ⟨x, hx, hput⟩ := h
  refine ⟨x, ?_, hput⟩
  rw [offsets, layout_append]
  exact List.mem_append_left _ hx

/-- What a request writes to the index are positions of its records. -/
theorem putAt_of_mem_indexWrites {records items : List LogRecord} (rest : List LogRecord)
    {seqNo : ℕ} {key : Bytes} {pos : LogRecordPos} (hseqNo : seqNo < seqNoBound)
    (hitems : ∀ r ∈ items, r.IsWrite)
    (h : (key, some pos) ∈ indexWrites seqNo (encodeAll records).length items) :
    key ≠ [] ∧ PutAt (records ++ (items.map (WriteBatch.withSeq seqNo) ++ rest)) key pos := by
  obtain ⟨x, hx, heq⟩ := List.mem_map.1 h
  obtain ⟨hkey, hpos⟩ := Prod.mk.inj heq
  obtain ⟨pre, post, hsplit, hoffset⟩ := mem_layout_iff.1 hx
  have hitem := hitems x.2 (mem_of_mem_layout hx)
  unfold written? at hpos
  split at hpos
  · cases hpos
  · rename_i htype
    refine ⟨hkey ▸ hitem.key_ne, (x.1, WriteBatch.withSeq seqNo x.2), ?_,
      (Option.some.inj hpos).symm, hitem.type_eq.resolve_right htype, seqNo, hseqNo, hkey ▸ rfl⟩
    refine mem_layout_iff.2 ⟨records ++ pre.map (WriteBatch.withSeq seqNo),
      post.map (WriteBatch.withSeq seqNo) ++ rest, by simp [hsplit], ?_⟩
    dsimp only
    rw [hoffset, Nat.zero_add, extent_append, length_encodeAll, extent, extent, extent,
      List.map_map]
    rfl

namespace Session

variable {ι : Type} [Indexer ι]

/-- Requests let the index point to the records that put its keys. -/
theorem putAt_step {s : Session ι} {op : Op} {records appended : List LogRecord}
    {acks : List Write} (hseqNo : ∀ b ∈ s.batches, b.seqNo < seqNoBound)
    (h : ∀ k pos, Indexer.get s.proc.db.index k = some pos → k ≠ [] ∧ PutAt records k pos)
    (heffect : Effect s.proc (s.step op).1.proc (encodeAll records).length (s.committed op)
      appended acks) (k : Bytes) (pos : LogRecordPos)
    (hpos : Indexer.get (s.step op).1.proc.db.index k = some pos) :
    k ≠ [] ∧ PutAt (records ++ appended) k pos := by
  have hold (hpos : Indexer.get s.proc.db.index k = some pos) :
      k ≠ [] ∧ PutAt (records ++ appended) k pos := by
    obtain ⟨hk, hput⟩ := h k pos hpos
    exact ⟨hk, hput.append appended⟩
  generalize hc : s.committed op = committed at heffect
  cases heffect with
  | nothing hsame => exact hold (hsame.index ▸ hpos)
  | @plain record hr hindex _ =>
    rw [hindex] at hpos
    rcases mem_or_eq_of_overlay hpos with hmem | hbefore
    · have hput := putAt_of_mem_indexWrites [] (by decide)
        (List.forall_mem_singleton.2 hr) hmem
      have hstored : WriteBatch.withSeq nonTransactionSeqNo record = record := by
        rw [WriteBatch.withSeq, logRecordKeyWithSeq, if_pos rfl]
      simpa [hstored] using hput
    · exact hold hbefore
  | batch batch hpending hindex _ hcan =>
    rw [hindex] at hpos
    rcases mem_or_eq_of_overlay hpos with hmem | hbefore
    · exact putAt_of_mem_indexWrites _ (hseqNo batch (mem_of_committed hc)) batch.isWrite hmem
    · exact hold hbefore
  | torn batch n hsame => exact hold (hsame.index ▸ hpos)

end Session

/-! ## Databases whose records are all in their first file -/

/-- Records that fit behind an offset without a rotation end in the file. -/
theorem FitAll.length_le {dataFileSize offset : ℕ} {records appended : List LogRecord}
    (h : FitAll false dataFileSize offset records) (hle : offset ≤ dataFileSize)
    (hpre : appended <+: records) : offset + (encodeAll appended).length ≤ dataFileSize := by
  induction records generalizing offset appended with
  | nil =>
    rw [List.prefix_nil.1 hpre]
    exact hle
  | cons r records ih =>
    cases appended with
    | nil => exact hle
    | cons a appended =>
      obtain ⟨rfl, htail⟩ := List.cons_prefix_cons.1 hpre
      have hfits := h.1.resolve_right fun hrotated => Bool.noConfusion hrotated.1
      have hrest := ih h.2 hfits htail
      rw [encodeAll_cons, List.length_append]
      omega

/-- A database that has kept its records in the first file, without a rotation: they are
    behind one another, and the index points to those that put its keys. -/
structure Unrotated {ι : Type} [Indexer ι] (options : Options) (p : Proc ι)
    (records : List LogRecord) : Prop where
  mergeable : DB.Mergeable options p
  stored : Stored p records 0
  isMerging_eq : p.db.isMerging = false
  length_le : (encodeAll records).length ≤ options.dataFileSize
  putAt : ∀ k pos, Indexer.get p.db.index k = some pos → k ≠ [] ∧ PutAt records k pos

/-- This is what runs on a new database come to. If they have appended small records only,
    these can be read. -/
theorem Fresh.run_unrotated {ι : Type} [Indexer ι] {options : Options} {w w' : World} {db : DB ι}
    (hfresh : Fresh options w) (hio : ∀ c, w.outcomes c = [])
    (hopen : (DB.open options : Sys (DB ι)).run w = .ok db w') (small : Prop) {ops : List Op}
    (hops : Machine.AllSteps Session.step
      (fun s op => s.FitsFile false op ∧ (small → s.SmallEnough op)) ⟨⟨db, w'⟩, []⟩ ops) :
    let p := (Session.run ⟨⟨db, w'⟩, []⟩ ops).1.proc
    (∃ records, Unrotated options p records ∧ (small → ∀ r ∈ records, r.Readable)) ∧
      ∀ dir ≠ options.dirPath, p.world.fs.lookup dir = w.fs.lookup dir := by
  obtain ⟨db', w'', hopen', hmade⟩ := hfresh.open (ι := ι)
  obtain ⟨rfl, rfl⟩ := EStateM.Result.ok.inj (hopen.symm.trans hopen')
  have hnone (c : Call) : w'.outcomes c = [] := by rw [hmade.outcomes, hio]
  have hfirst : OnlyFirst ⟨db, w'⟩ := hmade.onlyFirst (hio _)
  have hstart : Session.Keeps false ⟨db, w'⟩ 0 (fun s records _ => s.OddBatches ∧
      (∀ k pos, Indexer.get s.proc.db.index k = some pos → k ≠ [] ∧ PutAt records k pos) ∧
      (encodeAll records).length ≤ options.dataFileSize ∧ (small → ∀ r ∈ records, r.Readable))
      ⟨⟨db, w'⟩, []⟩ [] := by
    refine ⟨[], 0, Nat.le_refl _, ⟨hmade.stored, .refl _, hnone _, ?_⟩, ⟨?_, nofun⟩, ?_,
      Nat.zero_le _, fun _ => List.forall_mem_nil _⟩
    · simp [Proc.writeOutcomes, hnone]
    · rw [hmade.seqNo]
      rfl
    · intro k pos hpos
      rw [hmade.index] at hpos
      cases hpos
  obtain ⟨records, zeros, hzeros, hs, hodd, hput, hle, hreadable⟩ := Session.run_keeps
    (fun _ _ hC => hC.1) (fun s op records zeros appended acks hs hJ hC hpre heffect => by
      obtain ⟨hodd, hput, hle, hreadable⟩ := hJ
      refine ⟨Session.oddBatches_step hodd heffect, Session.putAt_step (fun b hb => (hodd.2 b hb).2) hput heffect, ?_,
        fun hsmall => List.forall_mem_append.2
          ⟨hreadable hsmall, heffect.readable (hC.2 hsmall) hpre⟩⟩
      have hoptions : s.proc.db.options = options := hs.rest.options.trans hmade.options_eq
      have hfits := hC.1
      rw [Session.FitsFile, hs.writeOff_eq, hoptions] at hfits
      rw [encodeAll_append, List.length_append]
      exact hfits.length_le hle hpre) hstart hops
  obtain rfl := Nat.le_zero.1 hzeros
  have honly := hfirst.of_sameRest hs.rest
  have hoptions := hs.rest.options.trans hmade.options_eq
  have hpath : DB.firstPath (Session.run ⟨⟨db, w'⟩, []⟩ ops).1.proc.db =
      getDataFileName options.dirPath 0 := by
    rw [DB.firstPath, hoptions]
    rfl
  obtain ⟨holder, -⟩ := hs.rest.listed rfl
  refine ⟨⟨records, ⟨⟨hoptions, hfresh.valid, ⟨_, hs.stored.active, rfl⟩,
    holder.trans hmade.olderFiles_eq, ?_, hoptions ▸ honly.others, fun c => ?_⟩, hs.stored,
    hs.rest.isMerging.trans hmade.isMerging_eq, hle, hput⟩, hreadable⟩, ?_⟩
  · rw [← hpath, hs.stored.content]
    rfl
  · by_cases hc : c = .write db.firstPath
    · rw [hc, ← hs.rest.firstPath]
      exact hs.rest.writes_nil (hnone _)
    · exact (hs.rest.outcomes c hc).trans (hnone c)
  · intro dir hdir
    rw [hs.rest.lookup dir (by rwa [hmade.options_eq]), hmade.lookup dir hdir]

end Bitcask
