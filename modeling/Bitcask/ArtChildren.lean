import Mathlib.Data.FinEnum
import Bitcask.ArtNodes

/-!
# The children of a node

A node of the radix tree, whichever kind it is of, is the map of its children. What
the kinds say of a step is put together (`ARTNode.Valid`), and followed along the
steps of a node that starts without children, grows and shrinks (`ARTNode.Reached`).

* `ARTNode.Reached.invariant`: what the steps preserve;
* `ARTNode.Reached.childMap`: a child is found under the byte it was added last, the
  keys are in order, the children are counted, and growing keeps all.
-/

namespace Bitcask

open ShiftedArray

variable {α : Type}

/-! ## Nodes of all kinds -/

namespace ARTNode

variable {n : ARTNode α}

/-- The layout of a node is what its kind demands. -/
def Valid : ARTNode α → Prop
  | node4 n => n.Valid
  | node16 n => n.Valid
  | node48 n => n.Valid
  | node256 _ => True

/-- The node a child is added to: a full one is replaced by a larger one, which
    the largest kind never needs. -/
def makeRoom (n : ARTNode α) : ARTNode α := if n.isFull then n.grow.getD n else n

theorem num_lt_of_isFull {capacity num : ℕ} (hle : num ≤ capacity)
    (hfull : (num == capacity) = false) : num < capacity :=
  Nat.lt_of_le_of_ne hle (by simpa using hfull)

section Add

variable (hn : n.Valid) (hfull : n.isFull = false) {key : UInt8} (h : n.findChild key = none)
include hn hfull h

theorem Valid.addChild (c : α) : (n.addChild key (some c)).Valid := by
  cases n with
  | node4 n =>
    exact SortedNode.Valid.addChild hn (by decide) (num_lt_of_isFull hn.num_le hfull) h c
  | node16 n =>
    exact SortedNode.Valid.addChild hn (by decide) (num_lt_of_isFull hn.num_le hfull) h c
  | node48 n => exact ARTNode48.Valid.addChild (num_lt_of_isFull hn.num_le hfull) hn key c
  | node256 n => trivial

theorem Valid.findChild_addChild (c : α) (k : UInt8) :
    (n.addChild key (some c)).findChild k = if k = key then some c else n.findChild k := by
  cases n with
  | node4 n =>
    exact SortedNode.Valid.findChild_addChild hn (by decide) (num_lt_of_isFull hn.num_le hfull) h c k
  | node16 n =>
    exact SortedNode.Valid.findChild_addChild hn (by decide) (num_lt_of_isFull hn.num_le hfull) h c k
  | node48 n =>
    exact ARTNode48.Valid.findChild_addChild (num_lt_of_isFull hn.num_le hfull) hn key c k
  | node256 n => exact Function.update_apply n.children key (some c) k

theorem Valid.numChildren_addChild (c : Option α) :
    (n.addChild key c).base.numChildren = n.base.numChildren + 1 := by
  cases n with
  | node4 n => exact SortedNode.numChildren_addChild (num_lt_of_isFull hn.num_le hfull) key c
  | node16 n => exact SortedNode.numChildren_addChild (num_lt_of_isFull hn.num_le hfull) key c
  | node48 n =>
    have hlt := num_lt_of_isFull hn.num_le hfull
    simp only [ARTNode.addChild, ARTNode48.addChild, if_pos hlt, base]
  | node256 n =>
    have hnone : (n.children key).isNone := Option.isNone_iff_eq_none.2 h
    simp only [ARTNode.addChild, ARTNode256.addChild, base, if_pos hnone]

end Add

theorem Valid.removeChild (hn : n.Valid) (key : UInt8) : (n.removeChild key).Valid := by
  cases n with
  | node4 n => exact SortedNode.Valid.removeChild hn key
  | node16 n => exact SortedNode.Valid.removeChild hn key
  | node48 n => exact ARTNode48.Valid.removeChild hn key
  | node256 n => trivial

theorem Valid.findChild_removeChild (hn : n.Valid) (key k : UInt8) :
    (n.removeChild key).findChild k = if k = key then none else n.findChild k := by
  cases n with
  | node4 n => exact SortedNode.Valid.findChild_removeChild hn key k
  | node16 n => exact SortedNode.Valid.findChild_removeChild hn key k
  | node48 n => exact ARTNode48.Valid.findChild_removeChild hn key k
  | node256 n =>
    simp only [ARTNode.removeChild, findChild, ARTNode256.findChild, ARTNode256.removeChild]
    split
    · exact Function.update_apply n.children key none k
    · rename_i hnone
      split
      · rename_i hk
        rw [hk]
        simpa using hnone
      · rfl

theorem Valid.numChildren_removeChild (hn : n.Valid) (key : UInt8) :
    (n.removeChild key).base.numChildren =
      if (n.findChild key).isSome then n.base.numChildren - 1 else n.base.numChildren := by
  cases n with
  | node4 n => exact SortedNode.Valid.numChildren_removeChild hn key
  | node16 n => exact SortedNode.Valid.numChildren_removeChild hn key
  | node48 n => exact ARTNode48.Valid.numChildren_removeChild hn key
  | node256 n =>
    by_cases hsome : (n.children key).isSome
    · rw [if_pos (show ((node256 n).findChild key).isSome from hsome)]
      simp only [ARTNode.removeChild, ARTNode256.removeChild, base, if_pos hsome]
    · rw [if_neg (show ¬((node256 n).findChild key).isSome from hsome)]
      simp only [ARTNode.removeChild, ARTNode256.removeChild, base, if_neg hsome]

section Grow

variable {n' : ARTNode α} (h : n.grow = some n')
include h

theorem base_grow : n'.base = n.base := by
  cases n with
  | node4 n | node16 n | node48 n =>
    obtain rfl := Option.some.inj h
    rfl
  | node256 n => cases h

theorem Valid.grow (hn : n.Valid) : n'.Valid := by
  cases n with
  | node4 n =>
    obtain rfl := Option.some.inj h
    exact ARTNode4.valid_grow hn
  | node16 n =>
    obtain rfl := Option.some.inj h
    exact ARTNode16.valid_grow hn
  | node48 n =>
    obtain rfl := Option.some.inj h
    trivial
  | node256 n => cases h

theorem Valid.findChild_grow (hn : n.Valid) (k : UInt8) : n'.findChild k = n.findChild k := by
  cases n with
  | node4 n =>
    obtain rfl := Option.some.inj h
    exact ARTNode4.findChild_grow hn k
  | node16 n =>
    obtain rfl := Option.some.inj h
    exact ARTNode16.findChild_grow hn k
  | node48 n =>
    obtain rfl := Option.some.inj h
    exact ARTNode48.findChild_grow k
  | node256 n => cases h

/-- There is room in a grown node. -/
theorem Valid.isFull_grow (hn : n.Valid) : n'.isFull = false := by
  cases n with
  | node4 n =>
    obtain rfl := Option.some.inj h
    have hle := hn.num_le
    show (n.numChildren.toNat == 16) = false
    exact beq_false_of_ne (by omega)
  | node16 n =>
    obtain rfl := Option.some.inj h
    have hle := hn.num_le
    show (n.numChildren.toNat == 48) = false
    exact beq_false_of_ne (by omega)
  | node48 n =>
    obtain rfl := Option.some.inj h
    rfl
  | node256 n => cases h

end Grow

/-- A full node can grow. -/
theorem isSome_grow (hfull : n.isFull = true) : n.grow.isSome := by
  cases n with
  | node4 n | node16 n | node48 n => rfl
  | node256 n => cases hfull

/-- Making room changes neither what a node holds nor that its layout is right. -/
theorem Valid.makeRoom (hn : n.Valid) :
    n.makeRoom.Valid ∧ n.makeRoom.isFull = false ∧ n.makeRoom.base = n.base ∧
      ∀ k, n.makeRoom.findChild k = n.findChild k := by
  unfold ARTNode.makeRoom
  split
  · rename_i hfull
    obtain ⟨n', hgrow⟩ := Option.isSome_iff_exists.1 (isSome_grow hfull)
    rw [hgrow]
    exact ⟨hn.grow hgrow, hn.isFull_grow hgrow, base_grow hgrow, hn.findChild_grow hgrow⟩
  · exact ⟨hn, Bool.eq_false_of_not_eq_true ‹_›, rfl, fun _ => rfl⟩

end ARTNode

/-! ## Runs of a node -/

namespace ARTNode

/-- The bytes a child is under. -/
def present (m : UInt8 → Option α) : Finset UInt8 := Finset.univ.filter fun b => (m b).isSome

theorem card_present_some {m : UInt8 → Option α} {b : UInt8} (h : m b = none) (c : α) :
    (present (Function.update m b (some c))).card = (present m).card + 1 := by
  have hnot : b ∉ present m := by simp [present, h]
  rw [← Finset.card_insert_of_notMem hnot]
  congr 1
  ext k
  by_cases hk : k = b <;> simp [present, hk]

theorem card_present_none (m : UInt8 → Option α) (b : UInt8) :
    (present (Function.update m b none)).card =
      if (m b).isSome then (present m).card - 1 else (present m).card := by
  have herase : present (Function.update m b none) = (present m).erase b := by
    ext k
    by_cases hk : k = b <;> simp [present, hk]
  rw [herase, Finset.card_erase_eq_ite]
  exact if_congr (by simp [present]) rfl rfl

/-- The nodes reached from one without children, each with the map of the children
    added to it and not removed since. -/
inductive Reached : ARTNode α → (UInt8 → Option α) → Prop
  | empty (prefixLen : UInt8) (prefixBytes : Bytes) :
    Reached (.node4 { prefixLen, prefixBytes }) fun _ => none
  | add {n : ARTNode α} {m : UInt8 → Option α} (h : Reached n m) (b : UInt8) (c : α)
    (hb : m b = none) : Reached (n.makeRoom.addChild b (some c)) (Function.update m b (some c))
  | remove {n : ARTNode α} {m : UInt8 → Option α} (h : Reached n m) (b : UInt8) :
    Reached (n.removeChild b) (Function.update m b none)

/-- The keys of a node that keeps them in order are in order. -/
def KeysAscending : ARTNode α → Prop
  | node4 n => Ascending n.numChildren.toNat n.keys
  | node16 n => Ascending n.numChildren.toNat n.keys
  | node48 _ | node256 _ => True

/-- The number of children of a node that may not have 256 of them is right. -/
def CountsChildren : ARTNode α → Prop
  | node256 _ => True
  | n => n.base.numChildren.toNat = (present n.findChild).card

/-- What the steps preserve: the layout, the map, and the number of children as
    one of a byte. -/
theorem Reached.invariant {n : ARTNode α} {m : UInt8 → Option α} (h : Reached n m) :
    n.Valid ∧ (∀ b, n.findChild b = m b) ∧
      n.base.numChildren.toNat = (present m).card % 256 := by
  induction h with
  | empty prefixLen prefixBytes =>
    refine ⟨⟨Nat.zero_le _, fun i j _ hj => absurd hj (Nat.not_lt_zero j),
      fun i hi => absurd hi (Nat.not_lt_zero i)⟩, fun b => rfl, ?_⟩
    have : present (fun _ => (none : Option α)) = ∅ := by ext; simp [present]
    rw [this]
    rfl
  | @add n m h b c hb ih =>
    obtain ⟨hvalid, hmap, hnum⟩ := ih
    obtain ⟨hroom, hfull, hbase, hsame⟩ := hvalid.makeRoom
    have hnone : n.makeRoom.findChild b = none := by rw [hsame, hmap, hb]
    refine ⟨hroom.addChild hfull hnone c, fun k => ?_, ?_⟩
    · rw [hroom.findChild_addChild hfull hnone, hsame, hmap, Function.update_apply]
    · rw [hroom.numChildren_addChild hfull hnone, hbase, UInt8.toNat_add, hnum,
        card_present_some hb, UInt8.toNat_one]
      omega
  | @remove n m h b ih =>
    obtain ⟨hvalid, hmap, hnum⟩ := ih
    refine ⟨hvalid.removeChild b, fun k => ?_, ?_⟩
    · rw [hvalid.findChild_removeChild, hmap, Function.update_apply]
    · rw [hvalid.numChildren_removeChild, hmap, card_present_none]
      split
      · rename_i hsome
        have hpos : 0 < (present m).card :=
          Finset.card_pos.2 ⟨b, Finset.mem_filter.2 ⟨Finset.mem_univ b, hsome⟩⟩
        rw [UInt8.toNat_sub, hnum, UInt8.toNat_one]
        omega
      · exact hnum

/-- A node that is not of the largest kind has no more children than it counts. -/
theorem Valid.card_present_le {n : ARTNode α} (hn : n.Valid) (hkind : ∀ n', n ≠ node256 n') :
    (present n.findChild).card ≤ n.base.numChildren.toNat := by
  have hsorted {capacity : ℕ} {n : SortedNode capacity α} (hn : n.Valid) :
      (present n.findChild).card ≤ n.numChildren.toNat := by
    rw [← Finset.card_range n.numChildren.toNat]
    refine Finset.card_le_card_of_surjOn n.keys fun k hk => ?_
    have hk := (Finset.mem_filter.1 hk).2
    obtain ⟨c, hc⟩ := Option.isSome_iff_exists.1 hk
    obtain ⟨i, hi, hkey, -⟩ := hn.findChild_eq_some.1 hc
    exact ⟨i, by simpa using hi, hkey⟩
  cases n with
  | node4 n => exact hsorted hn
  | node16 n => exact hsorted hn
  | node48 n =>
    show (present n.findChild).card ≤ n.numChildren.toNat
    rw [← Finset.card_range n.numChildren.toNat]
    have hindex {k : UInt8} (hk : k ∈ present n.findChild) : n.keyIndices k ≠ 0 := fun h0 => by
      have hsome := (Finset.mem_filter.1 hk).2
      rw [ARTNode48.Valid.findChild_eq_none hn |>.2 h0] at hsome
      cases hsome
    -- the places of the children, counted from zero
    refine Finset.card_le_card_of_injOn (fun k => (n.keyIndices k).toNat - 1) (fun k hk => ?_)
      fun k hk k' hk' heq => ?_
    · have hpos := ARTNode48.toNat_pos (hindex hk)
      have hle := hn.index_le k
      refine Finset.mem_coe.2 (Finset.mem_range.2 ?_)
      show (n.keyIndices k).toNat - 1 < n.numChildren.toNat
      omega
    · have hpos := ARTNode48.toNat_pos (hindex hk)
      have hpos' := ARTNode48.toNat_pos (hindex hk')
      have heq : (n.keyIndices k).toNat - 1 = (n.keyIndices k').toNat - 1 := heq
      exact hn.index_inj k k' (hindex hk) (UInt8.toNat_inj.1 (by omega))
  | node256 n => exact absurd rfl (hkind n)

/-- A node is the map of its children: whatever is added and removed, in whichever
    kind of node it has become, a child is found under the byte it was added last,
    the keys are in order, the children are counted, and growing keeps all. -/
theorem Reached.childMap {n : ARTNode α} {m : UInt8 → Option α} (h : Reached n m) :
    (∀ b, n.findChild b = m b) ∧ n.KeysAscending ∧ n.CountsChildren ∧
      ∀ n', n.grow = some n' →
        n'.base.prefixLen = n.base.prefixLen ∧ n'.base.prefixBytes = n.base.prefixBytes ∧
          ∀ b, n'.findChild b = n.findChild b := by
  obtain ⟨hvalid, hmap, hnum⟩ := h.invariant
  have hcount (hkind : ∀ n', n ≠ node256 n') :
      n.base.numChildren.toNat = (present n.findChild).card := by
    have hle := hvalid.card_present_le hkind
    have hsame : (present m).card = (present n.findChild).card := by rw [funext hmap]
    have := Nat.mod_le (present m).card 256
    omega
  refine ⟨hmap, ?_, ?_, fun n' hgrow => ?_⟩
  · cases n with
    | node4 n => exact SortedNode.Valid.ascending hvalid
    | node16 n => exact SortedNode.Valid.ascending hvalid
    | node48 n | node256 n => trivial
  · cases n with
    | node4 n | node16 n | node48 n => exact hcount fun n' h => by cases h
    | node256 n => trivial
  · rw [base_grow hgrow]
    exact ⟨rfl, rfl, hvalid.findChild_grow hgrow⟩

/-- Of two children the first is removed again. -/
theorem childMap_two :
    let n := (((node4 {} : ARTNode ℕ).makeRoom.addChild 7 (some 70)).makeRoom.addChild 2
      (some 20)).removeChild 7
    n.findChild 2 = some 20 ∧ n.findChild 7 = none := by
  have h := ((((Reached.empty 0 []).add 7 70 rfl).add 2 20 rfl).remove 7).childMap.1
  exact ⟨(h 2).trans rfl, (h 7).trans rfl⟩

end ARTNode

end Bitcask
