import Bitcask.BPlusTree
import Bitcask.SkipListIterator

/-!
# Four indexes

All indexes reply to requests as an ordered map does, so alike. Their iterators read
alike, too, as long as those that go backwards look for no other key than the last
one: the B-tree and the radix tree let them land at the last item that is not behind
the key, the others at the last item of all unless that is before the key.
-/

namespace Bitcask

open OrderedIndex

/-- The four indexes reply alike, as an ordered map. -/
theorem run_eq_mapReplies (levels : ℕ → ℕ → ℕ) (seed : ℕ) (requests : List IndexRequest) :
    ∃ replies, MapReplies Positions.empty requests replies ∧
      (run (create seed : BTreeIndex) requests).map Prod.fst = some replies ∧
      (run (create seed : ARTIndex) requests).map Prod.fst = some replies ∧
      (run (create seed : BPlusTreeIndex) requests).map Prod.fst = some replies ∧
      (run (create seed : SkipListMemory levels) requests).map Prod.fst = some replies := by
  have hrun (ι : Type) {It : Type} [Cursor It Bytes Item] [OrderedIndex ι It] :
      ∃ replies, MapReplies Positions.empty requests replies ∧
        (run (create seed : ι) requests).map Prod.fst = some replies := by
    obtain ⟨replies, i, hrun, hreplies, -⟩ := run_eq (models_create (ι := ι) seed) requests
    exact ⟨replies, hreplies, by rw [hrun]; rfl⟩
  obtain ⟨replies, hreplies, hbtree⟩ := hrun BTreeIndex
  obtain ⟨replies₁, hreplies₁, hart⟩ := hrun ARTIndex
  obtain ⟨replies₂, hreplies₂, hbplus⟩ := hrun BPlusTreeIndex
  obtain ⟨replies₃, hreplies₃, hskiplist⟩ := hrun (SkipListMemory levels)
  -- there is only one list of replies of a map
  obtain rfl := hreplies.unique hreplies₁
  obtain rfl := hreplies.unique hreplies₂
  obtain rfl := hreplies.unique hreplies₃
  exact ⟨replies, hreplies, hbtree, hart, hbplus, hskiplist⟩

/-! ## Iterators -/

/-- Two ends of a list are the same if they have the same first item. -/
theorem dropWhile_eq_of_head?_eq {α : Type} {p q : α → Bool} {xs : List α} (hxs : xs.Nodup)
    (h : (xs.dropWhile p).head? = (xs.dropWhile q).head?) : xs.dropWhile p = xs.dropWhile q := by
  induction xs with
  | nil => rfl
  | cons x xs ih =>
    rw [List.nodup_cons] at hxs
    have hnot {r : α → Bool} : (xs.dropWhile r).head? ≠ some x := fun hhead =>
      hxs.1 ((List.dropWhile_sublist r).subset (List.mem_of_mem_head? hhead))
    cases hp : p x with
    | true =>
      cases hq : q x with
      | true =>
        rw [List.dropWhile_cons, List.dropWhile_cons, if_pos hp, if_pos hq] at h ⊢
        exact ih hxs.2 h
      | false => simp [hp, hq, hnot] at h
    | false =>
      cases hq : q x with
      | true => simp [hp, hq, hnot.symm] at h
      | false => simp [hp, hq]

section Landing

variable {items : List Item} {m : Positions}

/-- The last item is behind all others. -/
theorem Enumerates.compare_last {xs : List Item} {last : Item} (h : Enumerates (xs ++ [last]) m)
    {k : Bytes} (hk : (m k).isSome) : compare k last.1 ≠ .gt := by
  obtain ⟨item, hitem, rfl⟩ := List.mem_map.1 ((h.isSome_iff k).2 hk)
  have hsorted := (List.pairwise_append.1 (List.pairwise_map.1 h.sorted)).2.2
  rcases List.mem_append.1 hitem with hitem | hitem
  · simp [hsorted item hitem last List.mem_cons_self]
  · rw [List.mem_singleton.1 hitem]
    simp

/-- Backwards the two ways to look for a key land at the same place if and only if it
    is the last one, or there is none. -/
theorem landing_reverse_eq_iff (h : Enumerates items m) (key : Bytes) :
    landing true items.reverse key = landing false items.reverse key ↔
      ∀ k, (m k).isSome → (m key).isSome ∧ compare k key ≠ .gt := by
  rcases List.eq_nil_or_concat items with rfl | ⟨xs, last, rfl⟩
  · refine iff_of_true rfl fun k hk => ?_
    rw [← h.isSome_iff] at hk
    cases hk
  · rw [List.concat_eq_append] at h ⊢
    have hlast : (m last.1).isSome := by
      rw [← h.isSome_iff]
      simp
    have hle {r : Bool} : (landing r xs.reverse key).length ≤ xs.length := by
      rw [← @List.length_reverse _ xs]
      exact (List.dropWhile_sublist _).length_le
    rw [List.reverse_append, List.reverse_singleton, List.singleton_append]
    -- The reversed items start with the largest one: it decides where each search stops.
    cases hcmp : compare last.1 key with
    | lt =>
      refine iff_of_false (fun heq => ?_) fun hall => ?_
      · have hlength := congrArg List.length heq
        rw [landing, landing, List.dropWhile_cons_of_neg (by simp [reaches, hcmp]),
          List.dropWhile_cons_of_pos (by simp [reaches, hcmp])] at hlength
        have : (landing false xs.reverse key).length ≤ xs.length := hle
        rw [landing] at this
        simp only [List.length_cons, List.length_reverse] at hlength
        omega
      · refine h.compare_last (hall last.1 hlast).1 ?_
        rw [Std.OrientedCmp.gt_iff_lt, hcmp]
    | eq =>
      obtain rfl := Std.LawfulEqCmp.compare_eq_iff_eq.1 hcmp
      refine iff_of_true ?_ fun k hk => ⟨hlast, h.compare_last hk⟩
      rw [landing, landing, List.dropWhile_cons_of_neg (by simp [reaches]),
        List.dropWhile_cons_of_neg (by simp [reaches])]
    | gt =>
      refine iff_of_false (fun heq => ?_) fun hall => (hall last.1 hlast).2 hcmp
      have hlength := congrArg List.length heq
      rw [landing, landing, List.dropWhile_cons_of_pos (by simp [reaches, hcmp]),
        List.dropWhile_cons_of_neg (by simp [reaches, hcmp])] at hlength
      have : (landing true xs.reverse key).length ≤ xs.length := hle
      rw [landing] at this
      simp only [List.length_cons, List.length_reverse] at hlength
      omega

end Landing

/-- The iterators of the four indexes read what is ahead where they should land. -/
def Interchangeable (levels : ℕ → ℕ → ℕ) (seed : ℕ) (requests : List IndexRequest)
    (reverse : Bool) (calls : List (Cursor.Call Bytes)) : Prop :=
  ∃ items, Enumerates items (contents requests) ∧
    let expected := some (Cursor.readings (ordered reverse items)
      (landing reverse (ordered reverse items)) (ordered reverse items) calls)
    readAfter BTreeIndex seed requests reverse calls = expected ∧
    readAfter ARTIndex seed requests reverse calls = expected ∧
    readAfter BPlusTreeIndex seed requests reverse calls = expected ∧
    readAfter (SkipListMemory levels) seed requests reverse calls = expected

/-- The iterators are interchangeable if and only if those that go backwards look for
    the last key only. -/
theorem interchangeable_iff (levels : ℕ → ℕ → ℕ) (seed : ℕ) (requests : List IndexRequest)
    (reverse : Bool) (calls : List (Cursor.Call Bytes)) :
    Interchangeable levels seed requests reverse calls ↔
      (reverse = true → ∀ key, .seek key ∈ calls → ∀ k, (contents requests k).isSome →
        (contents requests key).isSome ∧ compare k key ≠ .gt) := by
  obtain ⟨-, i, -, -, hmodels⟩ := run_eq (models_create (ι := BTreeIndex) seed) requests
  obtain ⟨items, hitems, -⟩ := items_eq hmodels
  have hbtree := readAfter_eq BTreeIndex seed hitems reverse calls
  have hart := readAfter_eq ARTIndex seed hitems reverse calls
  have hbplus := readAfter_eq BPlusTreeIndex seed hitems reverse calls
  have hskiplist := readAfter_eq (SkipListMemory levels) seed hitems reverse calls
  have hnodup : (ordered reverse items).Nodup := by
    have hnodup := hitems.nodup.of_map
    unfold ordered
    split
    · exact List.nodup_reverse.2 hnodup
    · exact hnodup
  -- all is said by where two of them land
  have hreadings : Cursor.readings (ordered reverse items) (landing false (ordered reverse items))
        (ordered reverse items) calls =
      Cursor.readings (ordered reverse items) (landing reverse (ordered reverse items))
        (ordered reverse items) calls ↔
      ∀ key, .seek key ∈ calls → landing false (ordered reverse items) key =
        landing reverse (ordered reverse items) key :=
    Cursor.readings_eq_iff (fun key h => dropWhile_eq_of_head?_eq hnodup h) calls
  constructor
  · rintro ⟨items', hitems', -, -, hbplus', -⟩ hreverse key hkey
    obtain rfl := hitems.unique hitems'
    have hsame := hreadings.1 (Option.some.inj (hbplus.symm.trans hbplus')) key hkey
    rw [hreverse] at hsame
    exact (landing_reverse_eq_iff hitems key).1 hsame.symm
  · intro h
    have hsame := hreadings.2 fun key hkey => by
      cases hreverse : reverse with
      | false => rfl
      | true => exact ((landing_reverse_eq_iff hitems key).2 (h hreverse key hkey)).symm
    exact ⟨items, hitems, hbtree, hart, hbplus.trans (congrArg some hsame),
      hskiplist.trans (congrArg some hsame)⟩

/-- Backwards from the second of two keys to the first one, the B+ tree's iterator does
    not move. -/
theorem not_forall_interchangeable : ¬ ∀ (levels : ℕ → ℕ → ℕ) (seed : ℕ)
    (requests : List IndexRequest) (reverse : Bool) (calls : List (Cursor.Call Bytes)),
    Interchangeable levels seed requests reverse calls := by
  intro h
  obtain ⟨items, -, hbtree, -, hbplus, -⟩ :=
    h (fun _ _ => 0) 0 [.put [1] ⟨0, 0, 0⟩, .put [2] ⟨0, 0, 0⟩] true [.seek [1]]
  exact absurd (hbtree.trans hbplus.symm) (by decide)

end Bitcask
