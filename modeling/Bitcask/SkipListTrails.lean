import Bitcask.Library.Sweep
import Bitcask.SkipListLayout

/-!
# Trails through a skip list

The pointers of the lowest level from any node that has ever been linked in: also from
one that has been removed, whose pointers stay as they were. What is met from there is
a trail of keys, and the operations of the index change it as they do the chain: a
key that is put comes into it at most (`Lays.trail_put`), and one that is removed goes away
from it at most (`Lays.trail_remove`).
-/

namespace Bitcask

open LinkedList

/-- One key is before another one. -/
def KeyLt (k k' : Bytes) : Prop := compare k k' = .lt

instance : IsTrans Bytes KeyLt := ⟨fun _ _ _ => Std.TransCmp.lt_trans⟩

instance : Std.Irrefl KeyLt := ⟨fun k h => by simp [KeyLt] at h⟩

theorem KeyLt.trans {k₁ k₂ k₃ : Bytes} (h : KeyLt k₁ k₂) (h' : KeyLt k₂ k₃) : KeyLt k₁ k₃ :=
  IsTrans.trans _ _ _ h h'

theorem KeyLt.irrefl (k : Bytes) : ¬KeyLt k k := Std.Irrefl.irrefl k

namespace Memory

variable {nodes nodes' : Memory} {update : ℕ → Option ℕ} {level node z : ℕ}

/-- The key of a node. The header has none. -/
def keyAt (nodes : Memory) (node : ℕ) : Option Bytes :=
  if node = header then none else nodes[node]?.map MemoryNode.key

theorem SameCells.keyAt_eq (h : SameCells nodes nodes') : nodes'.keyAt = nodes.keyAt := by
  funext node
  have hcell := congrArg (fun cells => (cells[node]?).map Prod.fst) h
  simp only [List.getElem?_map, Option.map_map] at hcell
  exact if_congr Iff.rfl rfl hcell

theorem keyAt_eq_of_ne {n : MemoryNode} (hne : node ≠ header) (hn : nodes[node]? = some n) :
    nodes.keyAt node = some n.key := by
  rw [keyAt, if_neg hne, hn]
  rfl

/-- Another position leaves keys and pointers as they are. -/
theorem keyAt_set {n : MemoryNode} (hn : nodes[node]? = some n) (pos : LogRecordPos) :
    keyAt (nodes.set node { n with pos := pos }) = nodes.keyAt := by
  funext b
  rw [keyAt, keyAt, List.getElem?_set]
  by_cases hb : node = b
  · subst hb
    rw [if_pos rfl, if_pos (List.getElem?_eq_some_iff.1 hn).1, hn]
    rfl
  · rw [if_neg hb]

/-- A node that is allocated has the key it is given; the others keep theirs. -/
theorem keyAt_append {n : MemoryNode} {key : Bytes} (h : nodes.keyAt node = some key) :
    keyAt (nodes ++ [n]) node = some key := by
  rw [keyAt] at h ⊢
  split at h
  · cases h
  · rename_i hne
    obtain ⟨n', hn', hkey⟩ := Option.map_eq_some_iff.1 h
    rw [if_neg hne, List.getElem?_append_left (List.getElem?_eq_some_iff.1 hn').1, hn', ← hkey]
    rfl

theorem keyAt_length (nodes : Memory) : nodes.keyAt nodes.length = none := by
  rw [keyAt, List.getElem?_eq_none (Nat.le_refl _)]
  split <;> rfl

/-! ### The lowest level -/

theorem forward?_append_of_ne {n : MemoryNode} {l b : ℕ} (hb : b ≠ nodes.length) :
    Memory.forward? (nodes ++ [n]) l b = nodes.forward? l b := by
  rcases Nat.lt_or_gt_of_ne hb with hlt | hgt
  · exact Stores.forward?_append hlt
  · rw [forward?, forward?, List.getElem?_eq_none (Nat.le_of_lt hgt), List.getElem?_eq_none]
    rw [List.length_append, List.length_singleton]
    exact hgt

theorem setForward_inv {target : Option ℕ} (h : nodes.setForward level node target = some nodes') :
    SameCells nodes nodes' ∧ ∀ l b, nodes'.forward? l b =
      if l = level ∧ b = node then some target else nodes.forward? l b := by
  obtain ⟨n, hn, hset⟩ := Option.bind_eq_some_iff.1 h
  have hlt : level < n.forward.length := by
    by_contra hle
    rw [if_neg hle] at hset
    cases hset
  have hold : nodes.forward? level node = some n.forward[level] :=
    forward?_eq_some_iff.2 ⟨n, hn, List.getElem?_eq_getElem hlt⟩
  obtain ⟨nodes₁, hset₁, hsame, hforward⟩ := setForward_eq hold target
  obtain rfl := Option.some.inj (h.symm.trans hset₁)
  exact ⟨hsame, hforward⟩

theorem linkAt_inv (h : linkAt update z level nodes = some nodes') :
    ∃ p w, update level = some p ∧ nodes.forward? level p = some w ∧ SameCells nodes nodes' ∧
      ∀ l b, nodes'.forward? l b = if l = level ∧ b = p then some (some z)
        else if l = level ∧ b = z then some w else nodes.forward? l b := by
  obtain ⟨p, hp, h⟩ := Option.bind_eq_some_iff.1 h
  obtain ⟨w, hw, h⟩ := Option.bind_eq_some_iff.1 h
  obtain ⟨nodes₁, hset₁, hset₂⟩ := Option.bind_eq_some_iff.1 h
  obtain ⟨hsame₁, hforward₁⟩ := setForward_inv hset₁
  obtain ⟨hsame₂, hforward₂⟩ := setForward_inv hset₂
  refine ⟨p, w, hp, hw, hsame₁.trans hsame₂, fun l b => ?_⟩
  rw [hforward₂, hforward₁]

/-- On the lowest level a node that is linked in comes between the node found there and the one
    behind that. -/
theorem linkLevels_inv {n : ℕ} (h : linkLevels update z (n + 1) nodes = some nodes') :
    ∃ p w, update 0 = some p ∧ nodes.forward? 0 p = some w ∧ SameCells nodes nodes' ∧
      ∀ b, nodes'.forward? 0 b = if b = p then some (some z)
        else if b = z then some w else nodes.forward? 0 b := by
  induction n generalizing nodes' with
  | zero =>
    obtain ⟨p, w, hp, hw, hsame, hforward⟩ := linkAt_inv h
    refine ⟨p, w, hp, hw, hsame, fun b => ?_⟩
    simp only [hforward, true_and]
  | succ n ih =>
    obtain ⟨nodes₁, h₁, h₂⟩ := Option.bind_eq_some_iff.1 h
    obtain ⟨p, w, hp, hw, hsame, hforward⟩ := ih h₁
    obtain ⟨_, _, -, -, hsame', hforward'⟩ := linkAt_inv h₂
    refine ⟨p, w, hp, hw, hsame.trans hsame', fun b => ?_⟩
    rw [hforward', if_neg (by simp), if_neg (by simp), hforward]

/-- Unlinking a node from the higher levels leaves the lowest one as it is. -/
theorem unlinkLevels_above {count : ℕ}
    (h : unlinkLevels update z count (level + 1) nodes = some nodes') :
    SameCells nodes nodes' ∧ ∀ b, nodes'.forward? 0 b = nodes.forward? 0 b := by
  induction count generalizing level nodes with
  | zero =>
    obtain rfl := Option.some.inj h
    exact ⟨rfl, fun _ => rfl⟩
  | succ count ih =>
    obtain ⟨p, -, h⟩ := Option.bind_eq_some_iff.1 h
    obtain ⟨target, -, h⟩ := Option.bind_eq_some_iff.1 h
    split at h
    · obtain rfl := Option.some.inj h
      exact ⟨rfl, fun _ => rfl⟩
    · obtain ⟨next, -, h⟩ := Option.bind_eq_some_iff.1 h
      obtain ⟨nodes₁, hset, h⟩ := Option.bind_eq_some_iff.1 h
      obtain ⟨hsame, hforward⟩ := setForward_inv hset
      obtain ⟨hsame', hforward'⟩ := ih h
      refine ⟨hsame.trans hsame', fun b => ?_⟩
      rw [hforward', hforward, if_neg (by simp)]

/-- On the lowest level the node in front of one that is unlinked points behind it. -/
theorem unlinkLevels_inv {count p : ℕ} (h : unlinkLevels update z (count + 1) 0 nodes = some nodes')
    (hp : update 0 = some p) (hz : nodes.forward? 0 p = some (some z)) :
    ∃ w, nodes.forward? 0 z = some w ∧ SameCells nodes nodes' ∧
      ∀ b, nodes'.forward? 0 b = if b = p then some w else nodes.forward? 0 b := by
  rw [unlinkLevels, hp, Option.bind_eq_bind, Option.bind_some, hz, Option.bind_eq_bind,
    Option.bind_some, if_neg (by simp)] at h
  obtain ⟨w, hw, h⟩ := Option.bind_eq_some_iff.1 h
  obtain ⟨nodes₁, hset, h⟩ := Option.bind_eq_some_iff.1 h
  obtain ⟨hsame, hforward⟩ := setForward_inv hset
  obtain ⟨hsame', hforward'⟩ := unlinkLevels_above h
  refine ⟨w, hw, hsame.trans hsame', fun b => ?_⟩
  simp only [hforward', hforward, true_and]

end Memory

namespace Stores

variable {nodes : Memory} {cells before after : List Cell}

theorem ne_header (h : Stores nodes cells) {c : Cell} (hc : c ∈ cells) : c.1 ≠ header := by
  intro heq
  have hnot := (List.nodup_cons.1 h.nodup).1
  exact hnot (heq ▸ List.mem_map_of_mem hc)

theorem keyAt_eq (h : Stores nodes cells) {c : Cell} (hc : c ∈ cells) :
    nodes.keyAt c.1 = some c.2.key := by
  obtain ⟨n, hn, hkey, -⟩ := h.cell c hc
  rw [Memory.keyAt_eq_of_ne (h.ne_header hc) hn, hkey]

/-- The chain is a trail. -/
theorem trail (h : Stores nodes (before ++ after)) :
    Trail nodes.keyAt (nodes.forward? 0) (after.head?.map Prod.fst)
      (after.map fun c => c.2.key) := by
  induction after generalizing before with
  | nil => exact .nil
  | cons c after ih =>
    have hcells : before ++ c :: after = before ++ [c] ++ after := List.append_cons before c after
    have hnext := (hcells ▸ h).forward?_predAt (Nat.zero_le _)
    rw [predAt, idsAt_zero, List.map_append, getLastD_append, idsAt_zero, List.head?_map] at hnext
    exact .cons (h.keyAt_eq (List.mem_append_right _ List.mem_cons_self)) hnext (ih (hcells ▸ h))

/-- The last node before a place of the chain has no key, or that of a cell. -/
theorem keyAt_predAt (h : Stores nodes (before ++ after)) {k : Bytes}
    (hk : nodes.keyAt (predAt 0 before) = some k) : ∃ c ∈ before, c.2.key = k := by
  rcases List.mem_cons.1 (predAt_mem 0 before) with heq | hmem
  · rw [heq] at hk
    cases hk
  · obtain ⟨c, hc, -, heq⟩ := mem_idsAt_iff.1 hmem
    rw [← heq, h.keyAt_eq (List.mem_append_left _ hc)] at hk
    exact ⟨c, hc, Option.some.inj hk⟩

theorem predAt_lt (h : Stores nodes (before ++ after)) : predAt 0 before < nodes.length := by
  rcases List.mem_cons.1 (predAt_mem 0 before) with heq | hmem
  · rw [heq]
    exact h.header_lt
  · refine h.lt_of_mem ?_
    rw [List.map_append]
    exact List.mem_append_left _ (idsAt_sublist.subset hmem)

/-- A key that is not found is before the node behind the place it is looked for. -/
theorem lt_of_found_none (h : Stores nodes (before ++ after)) {key : Bytes}
    (hfound : found key (after.map Prod.snd) = none) (hnot : ∀ c ∈ after, ¬KeyLt c.2.key key) :
    ∀ b ∈ after.head?.map Prod.fst, ∀ k, nodes.keyAt b = some k → KeyLt key k := by
  rcases after with _ | ⟨c, after⟩
  · rintro b ⟨⟩
  · rintro b ⟨⟩ k hk
    rw [h.keyAt_eq (List.mem_append_right _ List.mem_cons_self)] at hk
    obtain rfl := Option.some.inj hk
    rw [List.map_cons, found, compareKeys_eq_compare] at hfound
    have hnot' := hnot c List.mem_cons_self
    rw [KeyLt] at hnot' ⊢
    rw [← Std.OrientedCmp.gt_iff_lt]
    cases hcmp : compare c.2.key key with
    | lt => exact absurd hcmp hnot'
    | eq =>
      rw [if_pos hcmp] at hfound
      cases hfound
    | gt => rfl

end Stores

namespace Lays

variable {levels : ℕ → ℕ → ℕ} {m m' : SkipListMemory levels} {i : SkipListIndex levels}
  {cells : List Cell} {key : Bytes} {start : Option ℕ} {ks : List Bytes}

/-- What a search for a key finds: the keys before it, and the node behind them. -/
theorem exists_find (h : Lays m i cells) (key : Bytes) :
    ∃ before after, cells = before ++ after ∧ (∀ c ∈ before, KeyLt c.2.key key) ∧
      (∀ c ∈ after, ¬KeyLt c.2.key key) ∧ after.map Prod.snd = i.findNode key ∧
      m.findNode key = some (after.head?.map Prod.fst, fun l =>
        if l ≤ m.level then some (predAt l before) else none) := by
  obtain ⟨before, after, rfl, hbefore, hafter, hfind⟩ := h.exists_findNode key
  refine ⟨before, after, rfl, fun c hc => ?_, fun c hc => ?_, hafter, hfind⟩
  · rw [KeyLt, ← compareKeys_eq_compare]
    exact (i.exists_before key).2 _ (hbefore ▸ List.mem_map_of_mem hc)
  · rw [KeyLt, ← compareKeys_eq_compare]
    exact (i.splitAt key).not_lt _ (hafter ▸ List.mem_map_of_mem hc)

/-- A key that is put comes into a trail at most. -/
theorem trail_put (h : Lays m i cells) {pos : LogRecordPos} {old : Option LogRecordPos}
    (hput : m.put key pos = some (old, m'))
    (htrail : Trail m.nodes.keyAt (m.nodes.forward? 0) start ks) (hks : ks.IsChain KeyLt) :
    ∃ ks', Trail m'.nodes.keyAt (m'.nodes.forward? 0) start ks' ∧ ks'.IsChain KeyLt ∧
      ks'.head? = ks.head? ∧ ks ⊆ ks' := by
  obtain ⟨before, after, rfl, hbefore, hnot, hafter, hfind⟩ := h.exists_find key
  rw [SkipListMemory.put, hfind, Option.bind_eq_bind, Option.bind_some] at hput
  rcases hfound : found key (i.findNode key) with _ | node
  · simp only [matching_eq_none h.stores (hafter ▸ hfound)] at hput
    obtain ⟨nodes', hlink, hput⟩ := Option.bind_eq_some_iff.1 hput
    obtain rfl := (Prod.mk.inj (Option.some.inj hput)).2
    obtain ⟨p, w, hp, hw, hsame, hforward⟩ := Memory.linkLevels_inv hlink
    obtain rfl : predAt 0 before = p := by simpa using hp
    have hne : predAt 0 before ≠ m.nodes.length := Nat.ne_of_lt h.stores.predAt_lt
    rw [Memory.forward?_append_of_ne hne] at hw
    have hnext := h.stores.forward?_predAt (Nat.zero_le _)
    rw [hw, idsAt_zero, List.head?_map, Option.some_inj] at hnext
    -- The new node comes between the last one with a smaller key and the one behind that.
    have hz : nodes'.keyAt m.nodes.length = some key := by
      rw [hsame.keyAt_eq]
      exact Memory.keyAt_eq_of_ne (Nat.ne_of_gt h.stores.header_lt) List.getElem?_concat_length
    refine htrail.insert hks (fun a k hk => ?_) (Memory.keyAt_length _) hz hw ?_ ?_ ?_ ?_ ?_
    · rw [hsame.keyAt_eq]
      exact Memory.keyAt_append hk
    · rw [hforward, if_pos rfl]
    · rw [hforward, if_neg hne.symm, if_pos rfl]
    · intro a hap haz
      rw [hforward, if_neg hap, if_neg haz, Memory.forward?_append_of_ne haz]
    · intro k hk
      obtain ⟨c, hc, rfl⟩ := h.stores.keyAt_predAt hk
      exact hbefore c hc
    · rw [hnext]
      exact h.stores.lt_of_found_none (hafter ▸ hfound) hnot
  · -- The node that has the key is given another position.
    obtain ⟨z, rest, n, rfl, hn, -, -, -, hmatching⟩ := exists_matching h.stores (hafter ▸ hfound)
    simp only [List.head?_cons, Option.map_some, hmatching] at hput
    obtain rfl := (Prod.mk.inj (Option.some.inj hput)).2
    refine ⟨ks, ?_, hks, rfl, List.Subset.refl _⟩
    rw [Memory.keyAt_set hn, Memory.forward?_set hn]
    exact htrail

/-- A key that is removed goes away from a trail at most. -/
theorem trail_remove (h : Lays m i cells) {removed : Option LogRecordPos × Bool}
    (hremove : m.remove key = some (removed, m'))
    (htrail : Trail m.nodes.keyAt (m.nodes.forward? 0) start ks) (hks : ks.IsChain KeyLt) :
    ∃ ks', Trail m'.nodes.keyAt (m'.nodes.forward? 0) start ks' ∧ ks'.IsChain KeyLt ∧
      ks'.head? = ks.head? ∧ ∀ k ∈ ks, k ≠ key → k ∈ ks' := by
  obtain ⟨before, after, rfl, -, -, hafter, hfind⟩ := h.exists_find key
  rw [SkipListMemory.remove, hfind, Option.bind_eq_bind, Option.bind_some] at hremove
  rcases hfound : found key (i.findNode key) with _ | node
  · simp only [matching_eq_none h.stores (hafter ▸ hfound)] at hremove
    obtain rfl := (Prod.mk.inj (Option.some.inj hremove)).2
    exact ⟨ks, htrail, hks, rfl, fun _ hk _ => hk⟩
  · obtain ⟨z, rest, n, rfl, hn, -, -, -, hmatching⟩ := exists_matching h.stores (hafter ▸ hfound)
    simp only [List.head?_cons, Option.map_some, hmatching] at hremove
    obtain ⟨nodes', hunlink, hremove⟩ := Option.bind_eq_some_iff.1 hremove
    obtain ⟨level, -, hremove⟩ := Option.bind_eq_some_iff.1 hremove
    obtain rfl := (Prod.mk.inj (Option.some.inj hremove)).2
    have hz : m.nodes.forward? 0 (predAt 0 before) = some (some z) := by
      rw [h.stores.forward?_predAt (Nat.zero_le _), idsAt_zero]
      rfl
    obtain ⟨w, hw, hsame, hforward⟩ := Memory.unlinkLevels_inv hunlink (if_pos (Nat.zero_le _)) hz
    have hmem : (z, node) ∈ before ++ (z, node) :: rest := by simp
    have hkey : m.nodes.keyAt z = some key := by
      rw [h.stores.keyAt_eq hmem, (found_eq_some hfound).2]
    have hne : predAt 0 before ≠ z := by
      intro heq
      have hnodup := h.stores.nodup_idsAt 0
      rw [idsAt_append, idsAt_cons, if_pos (Nat.zero_le _)] at hnodup
      exact getLastD_not_mem hnodup (heq ▸ List.mem_cons_self)
    refine htrail.erase hks (fun a k hk => ?_) hkey hz hw hne ?_ fun a hap => ?_
    · rwa [hsame.keyAt_eq]
    · rw [hforward, if_pos rfl]
    · rw [hforward, if_neg hap]

end Lays

end Bitcask
