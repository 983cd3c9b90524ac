import Bitcask.Endings
import Bitcask.ReadYourWrites

/-!
# Sequence numbers

A batch takes a number when it is created, one more than `seqNo` of the database, and
all its commits write their records under it; a commit stores the next number in the
database again. So the numbers of batches are odd and that of the database is even
(`Numbered`), and whether they are fresh depends on the order of creations and commits.

In a run without failing commits, the number of the database never decreases and no two
commits use the same one if and only if each commit is of a batch that has been created
since the commit before it (`freshNumbers_iff`).
-/

namespace Bitcask

open DB DBM Guarantee

variable {ι : Type}

/-! ## Requests and the number of the database -/

/-- The number stays. -/
def SameSeqNo (p q : Proc ι) : Prop := q.db.seqNo = p.db.seqNo

namespace SameSeqNo

instance : Std.Refl (SameSeqNo (ι := ι)) := ⟨fun _ => rfl⟩

instance : IsTrans (Proc ι) SameSeqNo := ⟨fun _ _ _ h h' => h'.trans h⟩

theorem append (record : LogRecord) :
    Guarantees SameSeqNo (appendLogRecordInternal record : DBM ι LogRecordPos) :=
  (SameIndex.appendLogRecordInternal record).mono fun _ _ h => h.seqNo

theorem modifyDB {f : DB ι → DB ι} (h : ∀ db, (f db).seqNo = db.seqNo := by exact fun _ => rfl) :
    Guarantees SameSeqNo (DBM.modifyDB f) :=
  .modifyGet fun p => h p.db

variable [Indexer ι]

theorem indexPut (key : Bytes) (pos : LogRecordPos) :
    Guarantees SameSeqNo (DB.indexPut key pos : DBM ι Unit) := modifyDB

theorem indexRemove (key : Bytes) : Guarantees SameSeqNo (DB.indexRemove key : DBM ι Bool) := by
  refine .bind .get fun p => ?_
  rcases Indexer.remove p.db.index key with ⟨⟨oldPos, ok⟩, index⟩
  exact .bind modifyDB fun _ => .pure _

theorem put (key value : Bytes) : Guarantees SameSeqNo (DB.put key value : DBM ι Unit) := by
  unfold DB.put
  split
  · exact fun p => rfl
  · exact .bind (append _) fun _ => indexPut _ _

theorem remove (key : Bytes) : Guarantees SameSeqNo (DB.remove key : DBM ι Unit) := by
  have hindex : ∀ ok : Bool, Guarantees SameSeqNo
      (if ok then pure () else throw .indexUpdateFailed : DBM ι Unit) := by
    intro ok
    split
    · exact .pure _
    · exact .throw _
  unfold DB.remove
  split
  · exact fun p => rfl
  · refine .bind .get fun p => ?_
    split
    · exact .pure _
    · exact .bind (append _) fun _ => .bind modifyDB fun _ => .bind (indexRemove key) hindex

end SameSeqNo

variable [Indexer ι]

/-- A commit that returns stores the number behind that of the batch. -/
theorem WriteBatch.commit_seqNo {batch batch' : WriteBatch} {p q : Proc ι}
    (hpending : batch.pendingWrites ≠ []) (h : batch.commit.run p = .ok batch' q) :
    q.db.seqNo = (batch.seqNo + 1) % seqNoBound ∧ batch'.seqNo = batch.seqNo := by
  rw [commit, if_neg hpending] at h
  obtain ⟨positions, p₁, -, h⟩ := Guarantee.bind_eq_ok h
  obtain ⟨pos, p₂, -, h⟩ := Guarantee.bind_eq_ok h
  obtain ⟨_, p₃, -, h⟩ := Guarantee.bind_eq_ok h
  obtain ⟨_, p₄, hmodify, h⟩ := Guarantee.bind_eq_ok h
  cases hmodify
  cases h
  exact ⟨rfl, rfl⟩

theorem WriteBatch.add_seqNo {batch batch' : WriteBatch} {record : LogRecord}
    {htype : record.type = .normal ∨ record.type = .deleted}
    (h : batch.add record htype = .ok batch') : batch'.seqNo = batch.seqNo := by
  unfold add at h
  split at h
  · cases h
  · split at h
    · cases h
    · cases h
      rfl

namespace Session

/-! ## Fresh numbers -/

/-- The number under which a request commits records. -/
def commitsUnder (s : Session ι) (op : Op) : Option ℕ :=
  ((s.committed op).filter fun batch => batch.pendingWrites ≠ []).map WriteBatch.seqNo

/-- The number of the database before each request, and in the end. -/
def seqNos (s : Session ι) : List Op → List ℕ
  | [] => [s.proc.db.seqNo]
  | op :: ops => s.proc.db.seqNo :: seqNos (s.step op).1 ops

/-- The numbers of the commits that write records. -/
def commitNumbers (s : Session ι) : List Op → List ℕ
  | [] => []
  | op :: ops => (s.commitsUnder op).toList ++ commitNumbers (s.step op).1 ops

/-- The number of the database never decreases, and no two commits write their records
    under the same one. -/
def FreshNumbers (s : Session ι) (ops : List Op) : Prop :=
  (s.seqNos ops).IsChain (· ≤ ·) ∧ (s.commitNumbers ops).Nodup

/-- A request does not fail to commit a batch. -/
def Commits (s : Session ι) (op : Op) : Prop :=
  (s.committed op).all (fun batch => (value? (batch.commit.run s.proc)).isSome) = true

instance (s : Session ι) (op : Op) : Decidable (s.Commits op) := inferInstanceAs (Decidable (_ = true))

/-- A batch that is committed has been created since the last commit. -/
def CommitsNew (s : Session ι) (op : Op) : Prop := ∀ n ∈ s.commitsUnder op, s.proc.db.seqNo < n

/-- The numbers after so many commits under some numbers. -/
structure Numbered (s : Session ι) (commits : ℕ) (used : List ℕ) : Prop where
  even : s.proc.db.seqNo % 2 = 0
  le : s.proc.db.seqNo ≤ 2 * commits
  batches : ∀ batch ∈ s.batches, batch.seqNo % 2 = 1 ∧ batch.seqNo ≤ 2 * commits + 1
  last : s.proc.db.seqNo = 0 ∨ s.proc.db.seqNo - 1 ∈ used

end Session

/-- Whether a batch is to be committed. -/
def Op.isCommit : Op → Bool
  | .commit _ => true
  | _ => false

namespace Session

variable {s : Session ι} {commits : ℕ} {used : List ℕ}

omit [Indexer ι] in
/-- As long as no number changes, neither does how they are. -/
theorem Numbered.congr {s' : Session ι} (h : Numbered s commits used)
    (hseqNo : s'.proc.db.seqNo = s.proc.db.seqNo)
    (hbatches : ∀ batch ∈ s'.batches, ∃ batch₀ ∈ s.batches, batch.seqNo = batch₀.seqNo) :
    Numbered s' commits used where
  even := hseqNo ▸ h.even
  le := hseqNo ▸ h.le
  batches batch hbatch := by
    obtain ⟨batch₀, hmem, heq⟩ := hbatches batch hbatch
    exact heq ▸ h.batches batch₀ hmem
  last := hseqNo ▸ h.last

omit [Indexer ι] in
theorem Numbered.request {m : DBM ι Unit} (h : Numbered s commits used)
    (hm : Guarantees SameSeqNo m) (writes : List Write) :
    Numbered (s.request m writes).1 commits used ∧
      (s.request m writes).1.proc.db.seqNo = s.proc.db.seqNo := by
  have hsame := hm s.proc
  cases hrun : m.run s.proc with
  | ok a q =>
    rw [hrun] at hsame
    rw [request_ok hrun]
    exact ⟨h.congr hsame fun batch hbatch => ⟨batch, hbatch, rfl⟩, hsame⟩
  | error e q =>
    rw [hrun] at hsame
    rw [request_error hrun]
    exact ⟨h.congr hsame fun batch hbatch => ⟨batch, hbatch, rfl⟩, hsame⟩

omit [Indexer ι] in
theorem Numbered.editBatch {edit : WriteBatch → Except Exn WriteBatch}
    (h : Numbered s commits used) (i : ℕ)
    (hedit : ∀ batch batch', edit batch = .ok batch' → batch'.seqNo = batch.seqNo) :
    Numbered (s.editBatch i edit) commits used := by
  refine h.congr (congrArg (fun p : Proc ι => p.db.seqNo) (editBatch_proc s i edit)) ?_
  intro batch hbatch
  unfold Session.editBatch at hbatch
  split at hbatch
  · exact ⟨batch, hbatch, rfl⟩
  · rename_i batch₀ hi
    split at hbatch
    · rename_i batch' hbatch'
      rcases List.mem_or_eq_of_mem_set hbatch with hmem | rfl
      · exact ⟨batch, hmem, rfl⟩
      · exact ⟨batch₀, List.mem_of_getElem? hi, hedit _ _ hbatch'⟩
    · exact ⟨batch, hbatch, rfl⟩

/-- A commit under a number stores the next one. -/
theorem Numbered.commit (h : Numbered s commits used) {i : ℕ} (hc : s.Commits (.commit i))
    (hcommits : 2 * (commits + 1) < seqNoBound) :
    Numbered (s.commitBatch i).1 (commits + 1) (used ++ (s.commitsUnder (.commit i)).toList) ∧
      (s.commitBatch i).1.proc.db.seqNo =
        (s.commitsUnder (.commit i)).elim s.proc.db.seqNo (· + 1) := by
  have hmore : Numbered s (commits + 1) used :=
    ⟨h.even, h.le.trans (by omega), fun batch hbatch =>
      ⟨(h.batches batch hbatch).1, (h.batches batch hbatch).2.trans (by omega)⟩, h.last⟩
  rw [commitsUnder, committed]
  rw [Commits, committed] at hc
  unfold commitBatch
  cases hi : s.batches[i]? with
  | none => exact ⟨by simpa using hmore, rfl⟩
  | some batch =>
    have hmem := List.mem_of_getElem? hi
    rw [hi, Option.all_some] at hc
    by_cases hpending : batch.pendingWrites = []
    · -- Nothing is written.
      simp only [WriteBatch.commit_nil hpending, Option.filter_some, hpending, ne_eq,
        not_true_eq_false, decide_false, Bool.false_eq_true, if_false, Option.map_none,
        Option.toList_none, List.append_nil, Option.elim_none, and_true]
      refine hmore.congr rfl fun batch' hbatch' => ?_
      rcases List.mem_or_eq_of_mem_set hbatch' with hmem' | rfl
      · exact ⟨batch', hmem', rfl⟩
      · exact ⟨batch', hmem, rfl⟩
    · obtain ⟨batch', hvalue⟩ := Option.isSome_iff_exists.1 hc
      obtain ⟨q, hrun⟩ := value?_eq_some.1 hvalue
      obtain ⟨hseqNo, hsame⟩ := WriteBatch.commit_seqNo hpending hrun
      obtain ⟨hodd, hle⟩ := h.batches batch hmem
      rw [Nat.mod_eq_of_lt (by omega)] at hseqNo
      have hunder : (Option.filter (fun batch => decide (batch.pendingWrites ≠ []))
          (some batch)).map WriteBatch.seqNo = some batch.seqNo := by simp [hpending]
      simp only [hrun, hunder, Option.toList_some, Option.elim_some]
      refine ⟨⟨?_, ?_, fun batch₁ hbatch₁ => ?_, .inr ?_⟩, hseqNo⟩
      · show q.db.seqNo % 2 = 0
        omega
      · show q.db.seqNo ≤ 2 * (commits + 1)
        omega
      · rcases List.mem_or_eq_of_mem_set hbatch₁ with hmem₁ | rfl
        · exact hmore.batches batch₁ hmem₁
        · rw [hsame]
          exact hmore.batches batch hmem
      · rw [hseqNo, Nat.add_sub_cancel]
        exact List.mem_append_right _ (List.mem_singleton_self _)

/-- What a request does to the numbers. -/
theorem Numbered.step (h : Numbered s commits used) {op : Op} (hc : s.Commits op)
    (hcommits : 2 * (commits + op.isCommit.toNat) < seqNoBound) :
    Numbered (s.step op).1 (commits + op.isCommit.toNat) (used ++ (s.commitsUnder op).toList) ∧
      (s.step op).1.proc.db.seqNo = (s.commitsUnder op).elim s.proc.db.seqNo (· + 1) := by
  have hnone : ∀ {op : Op}, s.commitsUnder op = none → op.isCommit = false →
      Numbered (s.step op).1 commits used ∧ (s.step op).1.proc.db.seqNo = s.proc.db.seqNo →
      Numbered (s.step op).1 (commits + op.isCommit.toNat) (used ++ (s.commitsUnder op).toList) ∧
        (s.step op).1.proc.db.seqNo = (s.commitsUnder op).elim s.proc.db.seqNo (· + 1) := by
    intro op hunder hcommit hstep
    simpa [hunder, hcommit] using hstep
  cases op with
  | put key value => exact hnone rfl rfl (h.request (.put key value) _)
  | remove key => exact hnone rfl rfl (h.request (.remove key) _)
  | newWriteBatch options =>
    refine hnone rfl rfl ⟨⟨h.even, h.le, fun batch hbatch => ?_, h.last⟩, rfl⟩
    rcases List.mem_append.1 hbatch with hbatch | hbatch
    · exact h.batches batch hbatch
    · -- A new batch takes the next number.
      have heven := h.even
      have hle := h.le
      have hbound : seqNoBound % 2 = 0 := rfl
      replace hcommits : 2 * commits < seqNoBound := hcommits
      have hnew : batch.seqNo = s.proc.db.seqNo + 1 := by
        rw [List.mem_singleton.1 hbatch]
        exact Nat.mod_eq_of_lt (by omega)
      rw [hnew]
      exact ⟨by omega, by omega⟩
  | batchPut i key value =>
    refine hnone rfl rfl ⟨h.editBatch i fun _ _ => WriteBatch.add_seqNo, ?_⟩
    exact congrArg (fun p : Proc ι => p.db.seqNo) (editBatch_proc s i _)
  | batchRemove i key =>
    refine hnone rfl rfl ⟨h.editBatch i fun _ _ => WriteBatch.add_seqNo, ?_⟩
    exact congrArg (fun p : Proc ι => p.db.seqNo) (editBatch_proc s i _)
  | commit i => exact h.commit hc hcommits

/-- Of the numbers used, all before that of the database, a run keeps them fresh if and
    only if it commits new batches only. -/
theorem Numbered.fresh_iff (h : Numbered s commits used) (hnodup : used.Nodup)
    (hlt : ∀ n ∈ used, n < s.proc.db.seqNo) {ops : List Op}
    (hc : Machine.AllSteps Session.step Commits s ops)
    (hcommits : 2 * (commits + ops.countP Op.isCommit) < seqNoBound) :
    ((s.seqNos ops).IsChain (· ≤ ·) ∧ (used ++ s.commitNumbers ops).Nodup) ↔
      Machine.AllSteps Session.step CommitsNew s ops := by
  induction ops generalizing s commits used with
  | nil => simpa [seqNos, commitNumbers, Machine.AllSteps] using hnodup
  | cons op ops ih =>
    have hcount : (op :: ops).countP Op.isCommit = ops.countP Op.isCommit + op.isCommit.toNat := by
      rw [List.countP_cons]
      cases op.isCommit <;> rfl
    rw [hcount] at hcommits
    obtain ⟨hnumbered, hseqNo⟩ := h.step hc.1 (by omega)
    have hchain : (s.seqNos (op :: ops)).IsChain (· ≤ ·) ↔
        s.proc.db.seqNo ≤ (s.step op).1.proc.db.seqNo ∧
          ((s.step op).1.seqNos ops).IsChain (· ≤ ·) := by
      cases ops <;> simp [seqNos]
    have ih' := fun hnodup' hlt' => ih hnumbered hnodup' hlt' hc.2 (by omega)
    rw [hchain, commitNumbers, ← List.append_assoc, Machine.AllSteps, CommitsNew]
    cases hunder : s.commitsUnder op with
    | none =>
      rw [hunder] at hseqNo ih'
      simp only [Option.toList_none, List.append_nil, Option.elim_none] at hseqNo ih' ⊢
      rw [hseqNo] at ih' ⊢
      simpa using ih' hnodup hlt
    | some n =>
      rw [hunder] at hseqNo ih'
      simp only [Option.toList_some, Option.elim_some] at hseqNo ih' ⊢
      have hodd : n % 2 = 1 := by
        obtain ⟨batch, hbatch, rfl⟩ := Option.map_eq_some_iff.1 hunder
        exact (h.batches batch (mem_of_committed (Option.filter_eq_some_iff.1 hbatch).1)).1
      have hused : s.proc.db.seqNo < n → ∀ m ∈ used, m < n := fun hn m hm => (hlt m hm).trans hn
      have hall : s.proc.db.seqNo < n → ∀ m ∈ used ++ [n], m < (s.step op).1.proc.db.seqNo := by
        intro hn m hm
        rw [hseqNo]
        rcases List.mem_append.1 hm with hm | hm
        · exact (hused hn m hm).trans (Nat.lt_succ_self n)
        · exact (List.mem_singleton.1 hm).trans_lt (Nat.lt_succ_self n)
      constructor
      · rintro ⟨⟨hle, hchain'⟩, hnodup'⟩
        have hnodup₁ := (List.nodup_append.1 hnodup').1
        have hnew : s.proc.db.seqNo < n := by
          -- The number has not been used, so it is not the one in front of that of the database.
          have hne : s.proc.db.seqNo ≠ n + 1 := by
            intro heq
            rcases h.last with hzero | hlast
            · omega
            · rw [heq, Nat.add_sub_cancel] at hlast
              exact (List.nodup_append.1 hnodup₁).2.2 n hlast n (List.mem_singleton_self n) rfl
          have heven := h.even
          omega
        refine ⟨fun m hm => ?_, (ih' hnodup₁ (hall hnew)).1 ⟨hchain', hnodup'⟩⟩
        rwa [← Option.some_inj.1 hm]
      · rintro ⟨hnew, hops⟩
        have hn := hnew n rfl
        have hnodup₁ : (used ++ [n]).Nodup := by
          refine List.nodup_append.2 ⟨hnodup, List.nodup_singleton n, fun m hm m' hm' => ?_⟩
          rw [List.mem_singleton.1 hm']
          exact (hused hn m hm).ne
        obtain ⟨hchain', hnodup'⟩ := (ih' hnodup₁ (hall hn)).2 hops
        exact ⟨⟨by omega, hchain'⟩, hnodup'⟩

/-- In a run on a new database, in which no commit fails, the number of the database never
    decreases and no two commits use the same one if and only if every commit that writes
    records is of a batch whose number is larger than that of the database. -/
theorem freshNumbers_iff {options : Options} {w w' : World} {db : DB ι} {ops : List Op}
    (hfresh : Fresh options w) (hopen : (DB.open options : Sys (DB ι)).run w = .ok db w')
    (hc : Machine.AllSteps step Commits ⟨⟨db, w'⟩, []⟩ ops)
    (hcommits : ops.countP Op.isCommit < 2 ^ 63) :
    FreshNumbers ⟨⟨db, w'⟩, []⟩ ops ↔ Machine.AllSteps step CommitsNew ⟨⟨db, w'⟩, []⟩ ops := by
  obtain ⟨db', w'', hopen', hmade⟩ := hfresh.open (ι := ι)
  cases hopen.symm.trans hopen'
  have hzero : db.seqNo = 0 := hmade.seqNo
  have hbound : seqNoBound = 2 * 2 ^ 63 := rfl
  have hstart : Numbered (⟨⟨db, w'⟩, []⟩ : Session ι) 0 [] :=
    ⟨by rw [hzero], hzero.le, List.forall_mem_nil _, .inl hzero⟩
  exact hstart.fresh_iff List.nodup_nil (List.forall_mem_nil _) hc (by omega)

/-- Two batches, the second one created after the first one has been committed. -/
def commitTwo : List Op :=
  [.newWriteBatch ⟨10⟩, .batchPut 0 [97] [49], .commit 0,
    .newWriteBatch ⟨10⟩, .batchPut 1 [98] [50], .commit 1]

theorem freshNumbers_commitTwo : ∃ (db : DB BTreeIndex) (w' : World),
    (DB.open ⟨['d'], 100, false⟩ : Sys (DB BTreeIndex)).run { fs := ∅ } = .ok db w' ∧
    (FreshNumbers ⟨⟨db, w'⟩, []⟩ commitTwo ↔
      Machine.AllSteps step CommitsNew ⟨⟨db, w'⟩, []⟩ commitTwo) := by
  have hfresh : Fresh ⟨['d'], 100, false⟩ { fs := ∅ } := fresh_empty (by decide) false
  obtain ⟨db, w', hopen, -⟩ := hfresh.open (ι := BTreeIndex)
  have hsteps : (match (DB.open ⟨['d'], 100, false⟩ : Sys (DB BTreeIndex)).run { fs := ∅ } with
      | .ok db w' => decide (Machine.AllSteps step Commits ⟨⟨db, w'⟩, []⟩ commitTwo)
      | .error _ _ => false) = true := by decide +kernel
  rw [hopen] at hsteps
  exact ⟨db, w', hopen, freshNumbers_iff hfresh hopen (of_decide_eq_true hsteps) (by decide)⟩

/-- One batch, filled and committed twice. -/
def commitTwice : List Op :=
  [.newWriteBatch ⟨10⟩, .batchPut 0 [97] [49], .commit 0, .batchPut 0 [98] [50], .commit 0]

/-- The second commit of a batch uses the number of the first one. -/
theorem not_forall_freshNumbers :
    ¬∀ (options : Options) (w w' : World) (db : DB BTreeIndex) (ops : List Op),
      Fresh options w → (DB.open options : Sys (DB BTreeIndex)).run w = .ok db w' →
      Machine.AllSteps step Commits ⟨⟨db, w'⟩, []⟩ ops → ops.countP Op.isCommit < 2 ^ 63 →
      FreshNumbers ⟨⟨db, w'⟩, []⟩ ops := by
  intro h
  have hfresh : Fresh ⟨['d'], 100, false⟩ { fs := ∅ } := fresh_empty (by decide) false
  obtain ⟨db, w', hopen, -⟩ := hfresh.open (ι := BTreeIndex)
  have hsteps : (match (DB.open ⟨['d'], 100, false⟩ : Sys (DB BTreeIndex)).run { fs := ∅ } with
      | .ok db w' => decide (Machine.AllSteps step Commits ⟨⟨db, w'⟩, []⟩ commitTwice ∧
          commitNumbers ⟨⟨db, w'⟩, []⟩ commitTwice = [1, 1])
      | .error _ _ => false) = true := by decide +kernel
  rw [hopen] at hsteps
  obtain ⟨hc, hnumbers⟩ := of_decide_eq_true hsteps
  have hnodup := (h _ _ _ _ _ hfresh hopen hc (by decide)).2
  rw [hnumbers] at hnodup
  exact absurd hnodup (by decide)

end Session

end Bitcask
