import Bitcask.DB

/-!
# Stored keys

The key of a record is stored with the sequence number of its transaction behind
it, or plainly if it has none. Nothing tells the two apart but the bytes
themselves: a plain key of eight bytes or more is read back as it was if the last
eight are zero, and in no other case (`parseLogRecordKey_plain_iff`).
-/

namespace Bitcask

/-- The stored key cannot be taken for that of another sequence number: it has one,
    or there are no eight last bytes that could be one other than zero. -/
def Unmistakable (key : Bytes) (seqNo : ℕ) : Prop :=
  seqNo ≠ nonTransactionSeqNo ∨ key.length < 8 ∨ ∀ b ∈ key.drop (key.length - 8), b = 0

theorem length_parseLogRecordKey_le (key : Bytes) : (parseLogRecordKey key).1.length ≤ key.length := by
  unfold parseLogRecordKey
  split
  · exact le_rfl
  · dsimp only
    split
    · exact le_rfl
    · simp

/-- A stored key without a sequence number stands for itself. -/
theorem fst_parseLogRecordKey {key : Bytes} (h : (parseLogRecordKey key).2 = nonTransactionSeqNo) :
    (parseLogRecordKey key).1 = key := by
  unfold parseLogRecordKey at h ⊢
  split
  · rfl
  · rename_i hlength
    rw [if_neg hlength] at h
    dsimp only at h ⊢
    split
    · rfl
    · rw [if_neg ‹_›] at h
      exact absurd h ‹_›

/-- When a key that is stored plainly is read back. -/
theorem parseLogRecordKey_plain_iff (key : Bytes) :
    parseLogRecordKey key = (key, nonTransactionSeqNo) ↔
      key.length < 8 ∨ ∀ b ∈ key.drop (key.length - 8), b = 0 := by
  unfold parseLogRecordKey
  split
  · exact iff_of_true rfl (.inl ‹_›)
  · rename_i hlength
    rw [← LittleEndian.decode_eq_zero_iff]
    by_cases hzero : LittleEndian.decode (key.drop (key.length - 8)) = nonTransactionSeqNo
    · rw [if_pos hzero]
      exact iff_of_true rfl (.inr hzero)
    · rw [if_neg hzero]
      refine iff_of_false (fun h => hzero (Prod.ext_iff.1 h).2) ?_
      rintro (hshort | heq)
      · exact hlength hshort
      · exact hzero heq

theorem parseLogRecordKey_withSeq_iff {seqNo : ℕ} (hlt : seqNo < seqNoBound) (key : Bytes) :
    parseLogRecordKey (logRecordKeyWithSeq key seqNo) = (key, seqNo) ↔ Unmistakable key seqNo := by
  by_cases h0 : seqNo = nonTransactionSeqNo
  · subst h0
    rw [logRecordKeyWithSeq, if_pos rfl, parseLogRecordKey_plain_iff]
    simp [Unmistakable]
  · exact iff_of_true (parseLogRecordKey_withSeq h0 hlt key) (.inl h0)

/-- Two keys with their sequence numbers are stored differently, unless they are the
    same, and both are read back, if and only if neither can be mistaken. -/
theorem logRecordKeyWithSeq_unambiguous_iff (key key' : Bytes) (seqNo seqNo' : UInt64) :
    ((logRecordKeyWithSeq key seqNo.toNat = logRecordKeyWithSeq key' seqNo'.toNat →
        key = key' ∧ seqNo = seqNo') ∧
      parseLogRecordKey (logRecordKeyWithSeq key seqNo.toNat) = (key, seqNo.toNat) ∧
      parseLogRecordKey (logRecordKeyWithSeq key' seqNo'.toNat) = (key', seqNo'.toNat)) ↔
      Unmistakable key seqNo.toNat ∧ Unmistakable key' seqNo'.toNat := by
  rw [← parseLogRecordKey_withSeq_iff seqNo.toNat_lt, ← parseLogRecordKey_withSeq_iff seqNo'.toNat_lt]
  refine ⟨And.right, fun hread => ⟨fun hstored => ?_, hread⟩⟩
  -- What both are read back from is the same.
  have hpair : (key, seqNo.toNat) = (key', seqNo'.toNat) := by
    rw [← hread.1, ← hread.2, hstored]
  obtain ⟨hkey, hseqNo⟩ := Prod.mk.inj hpair
  exact ⟨hkey, UInt64.toNat_inj.1 hseqNo⟩

/-- The plain key `password` is stored like the empty key with a sequence number. -/
theorem not_forall_logRecordKeyWithSeq_unambiguous :
    ¬∀ (key key' : Bytes) (seqNo seqNo' : UInt64),
      (logRecordKeyWithSeq key seqNo.toNat = logRecordKeyWithSeq key' seqNo'.toNat →
        key = key' ∧ seqNo = seqNo') ∧
      parseLogRecordKey (logRecordKeyWithSeq key seqNo.toNat) = (key, seqNo.toNat) := by
  intro h
  have hread := (h [112, 97, 115, 115, 119, 111, 114, 100] [] 0 0).2
  exact absurd hread (by decide)

end Bitcask
