import Mathlib.Data.List.TakeWhile
import Bitcask.SkipListMemory

/-!
# Inserting and removing in memory

A memory `Lays` out a skip list when it stores its chain, and the levels of the nodes
are at most that of the list. Inserting and removing keep this: at each level a node
is linked in behind its predecessor, or unlinked from it, and the other levels stay
as they are. So no operation uses a pointer that is not there, and each gives the
result of that of `SkipListIndex`.
-/

namespace Bitcask

open LinkedList

namespace Stores

variable {nodes nodes' : Memory} {cells before after : List Cell}

/-- The pointer of the last node that reaches a level, up to some point of the chain,
    is to the next one. -/
theorem forward?_predAt (h : Stores nodes (before ++ after)) {l : ℕ} (hl : l ≤ maxLevel) :
    nodes.forward? l (predAt l before) = some (idsAt l after).head? := by
  have hlinked := h.linked l hl
  rw [idsAt_append, linked_append] at hlinked
  exact hlinked.2.next_eq

theorem predAt_mem (level : ℕ) (cells : List Cell) :
    predAt level cells ∈ header :: idsAt level cells :=
  getLastD_mem _ _

/-! ## Linking a node in -/

section Link

variable {c : Cell} {update : ℕ → Option ℕ}

/-- A new node has no pointers yet. -/
theorem forward?_new (nodes : Memory) (n : MemoryNode) {l : ℕ} (hl : l < n.forward.length) :
    Memory.forward? (nodes ++ [n]) l nodes.length = some n.forward[l] := by
  rw [Memory.forward?_eq_some_iff]
  exact ⟨n, List.getElem?_concat_length, List.getElem?_eq_getElem hl⟩

theorem forward?_append {n : MemoryNode} {l b : ℕ} (hb : b < nodes.length) :
    Memory.forward? (nodes ++ [n]) l b = nodes.forward? l b := by
  rw [Memory.forward?, Memory.forward?, List.getElem?_append_left hb]

/-- The levels below one at which a new node `z` has been linked in. -/
structure LinkedBelow (nodes₀ : Memory) (before after : List Cell) (z n : ℕ) (nodes : Memory) :
    Prop where
  same : Memory.SameCells nodes₀ nodes
  below : ∀ l < n, Linked (nodes.forward? l) header (idsAt l before ++ z :: idsAt l after)
  above : ∀ l b, n ≤ l → nodes.forward? l b = nodes₀.forward? l b

/-- Linking a node in at the next level. -/
theorem LinkedBelow.linkAt {nodes₀ : Memory} {z n : ℕ}
    (h : LinkedBelow nodes₀ before after z n nodes)
    (hlinked : Linked (nodes₀.forward? n) header (idsAt n before ++ idsAt n after))
    (hnodup : (header :: (idsAt n before ++ idsAt n after)).Nodup)
    (hz : z ∉ header :: (idsAt n before ++ idsAt n after))
    (hnew : nodes₀.forward? n z = some none) (hupdate : update n = some (predAt n before)) :
    ∃ nodes', Memory.linkAt update z n nodes = some nodes' ∧
      LinkedBelow nodes₀ before after z (n + 1) nodes' := by
  have hnext : nodes.forward? n (predAt n before) = some (idsAt n after).head? := by
    rw [h.above n _ le_rfl]
    exact (linked_append.1 hlinked).2.next_eq
  have hne : predAt n before ≠ z := by
    rintro rfl
    exact hz (List.cons_subset_cons _ (List.subset_append_left _ _) (predAt_mem n before))
  obtain ⟨nodes₁, hset₁, hsame₁, hforward₁⟩ :=
    Memory.setForward_eq ((h.above n z le_rfl).trans hnew) (idsAt n after).head?
  have hpred₁ : nodes₁.forward? n (predAt n before) = some (idsAt n after).head? := by
    rw [hforward₁, if_neg fun h => hne h.2, hnext]
  obtain ⟨nodes₂, hset₂, hsame₂, hforward₂⟩ := Memory.setForward_eq hpred₁ (some z)
  refine ⟨nodes₂, ?_, (h.same.trans hsame₁).trans hsame₂, fun l hl => ?_, fun l b hl => ?_⟩
  · simp [Memory.linkAt, hupdate, hnext, hset₁, hset₂]
  · rcases Nat.lt_succ_iff_lt_or_eq.1 hl with hl | rfl
    · refine (h.below l hl).congr fun b _ => ?_
      rw [hforward₂, if_neg fun h => Nat.ne_of_lt hl h.1, hforward₁,
        if_neg fun h => Nat.ne_of_lt hl h.1]
    · refine hlinked.insert hnodup hz ?_ ?_ fun b hb hlast => ?_
      · rw [hforward₂, if_neg fun h => hne h.2.symm, hforward₁, if_pos ⟨rfl, rfl⟩]
        exact ((linked_append.1 hlinked).2.next_eq).symm
      · exact (hforward₂ l _).trans (if_pos ⟨rfl, rfl⟩)
      · have hbz : b ≠ z := by
          rintro rfl
          exact hz hb
        rw [hforward₂, if_neg fun h => hlast h.2, hforward₁, if_neg fun h => hbz h.2,
          h.above l b le_rfl]
  · rw [hforward₂, if_neg fun h => Nat.ne_of_gt hl h.1, hforward₁,
      if_neg fun h => Nat.ne_of_gt hl h.1, h.above l b (Nat.le_of_succ_le hl)]

theorem LinkedBelow.linkLevels {nodes₀ : Memory} {z n : ℕ}
    (hlinked : ∀ l < n, Linked (nodes₀.forward? l) header (idsAt l before ++ idsAt l after))
    (hnodup : ∀ l < n, (header :: (idsAt l before ++ idsAt l after)).Nodup)
    (hz : ∀ l < n, z ∉ header :: (idsAt l before ++ idsAt l after))
    (hnew : ∀ l < n, nodes₀.forward? l z = some none)
    (hupdate : ∀ l < n, update l = some (predAt l before)) :
    ∃ nodes', Memory.linkLevels update z n nodes₀ = some nodes' ∧
      LinkedBelow nodes₀ before after z n nodes' := by
  induction n with
  | zero => exact ⟨nodes₀, rfl, rfl, nofun, fun _ _ _ => rfl⟩
  | succ n ih =>
    obtain ⟨nodes₁, hlink, h⟩ := ih (fun l hl => hlinked l (Nat.lt_succ_of_lt hl))
      (fun l hl => hnodup l (Nat.lt_succ_of_lt hl)) (fun l hl => hz l (Nat.lt_succ_of_lt hl))
      (fun l hl => hnew l (Nat.lt_succ_of_lt hl)) fun l hl => hupdate l (Nat.lt_succ_of_lt hl)
    have hn := Nat.lt_succ_self n
    obtain ⟨nodes₂, hlinkAt, h'⟩ :=
      h.linkAt (hlinked n hn) (hnodup n hn) (hz n hn) (hnew n hn) (hupdate n hn)
    refine ⟨nodes₂, ?_, h'⟩
    rw [Memory.linkLevels, hlink]
    exact hlinkAt

/-- A new node is stored in the chain at the place its links are at. -/
theorem linkLevels (h : Stores nodes (before ++ after)) {n : SkipListNode}
    (hn : n.level ≤ maxLevel) (hupdate : ∀ l ≤ n.level, update l = some (predAt l before)) :
    ∃ nodes', Memory.linkLevels update nodes.length (n.level + 1)
        (nodes ++ [⟨n.key, n.pos, List.replicate (n.level + 1) none⟩]) = some nodes' ∧
      Stores nodes' (before ++ (nodes.length, n) :: after) := by
  have hlt {l b : ℕ} (hb : b ∈ header :: (idsAt l before ++ idsAt l after)) : b < nodes.length := by
    rw [← idsAt_append] at hb
    rcases List.mem_cons.1 hb with rfl | hb
    · exact h.header_lt
    · exact h.lt_of_mem (idsAt_sublist.subset hb)
  have hlinked {l : ℕ} (hl : l ≤ maxLevel) :
      Linked (Memory.forward? (nodes ++ [⟨n.key, n.pos, List.replicate (n.level + 1) none⟩]) l)
        header (idsAt l before ++ idsAt l after) := by
    refine (idsAt_append l before after ▸ h.linked l hl).congr fun b hb => ?_
    exact forward?_append (hlt hb)
  -- The new node is linked in level by level; its number is that of no other node.
  obtain ⟨nodes', hlink, h'⟩ := LinkedBelow.linkLevels (n := n.level + 1)
    (fun l hl => hlinked (by omega))
    (fun l _ => idsAt_append l before after ▸ h.nodup_idsAt l)
    (fun l _ hb => Nat.lt_irrefl _ (hlt hb))
    (fun l hl => (forward?_new nodes _ (by simpa using hl)).trans (by simp))
    (fun l hl => hupdate l (Nat.le_of_lt_succ hl))
  have hold {b : ℕ} {m : MemoryNode} (hm : nodes[b]? = some m) :
      ∃ m', nodes'[b]? = some m' ∧ m'.key = m.key ∧ m'.pos = m.pos ∧
        m'.forward.length = m.forward.length := by
    refine h'.same.getElem? ?_
    rw [List.getElem?_append_left (List.getElem?_eq_some_iff.1 hm).1, hm]
  refine ⟨nodes', hlink, ?_, ?_, fun c hc => ?_, fun l hl => ?_⟩
  · have hperm : (header :: (before ++ (nodes.length, n) :: after).map Prod.fst).Perm
        (nodes.length :: header :: (before ++ after).map Prod.fst) := by
      rw [List.map_append, List.map_cons, List.map_append]
      exact (List.perm_middle.cons _).trans (.swap _ _ _)
    rw [hperm.nodup_iff]
    refine h.nodup.cons fun hmem => ?_
    rcases List.mem_cons.1 hmem with heq | hmem
    · exact Nat.ne_of_gt h.header_lt heq
    · exact Nat.lt_irrefl _ (h.lt_of_mem hmem)
  · obtain ⟨m, hm, hlength⟩ := h.header_length
    obtain ⟨m', hm', -, -, hlength'⟩ := hold hm
    exact ⟨m', hm', hlength'.trans hlength⟩
  · rcases List.mem_append.1 hc with hc | hc
    · obtain ⟨m, hm, hkey, hpos, hlength⟩ := h.cell c (List.mem_append_left _ hc)
      obtain ⟨m', hm', hkey', hpos', hlength'⟩ := hold hm
      exact ⟨m', hm', hkey'.trans hkey, hpos'.trans hpos, hlength'.trans hlength⟩
    · rcases List.mem_cons.1 hc with rfl | hc
      · obtain ⟨m', hm', hkey', hpos', hlength'⟩ := h'.same.getElem? List.getElem?_concat_length
        exact ⟨m', hm', hkey', hpos', hlength'.trans List.length_replicate⟩
      · obtain ⟨m, hm, hkey, hpos, hlength⟩ := h.cell c (List.mem_append_right _ hc)
        obtain ⟨m', hm', hkey', hpos', hlength'⟩ := hold hm
        exact ⟨m', hm', hkey'.trans hkey, hpos'.trans hpos, hlength'.trans hlength⟩
  · -- The node is on the levels up to its own; those above are as they were.
    rw [idsAt_append, idsAt_cons]
    split
    · rename_i hlevel
      exact h'.below l (Nat.lt_succ_of_le hlevel)
    · rename_i hlevel
      exact (hlinked hl).congr fun b _ => h'.above l b (Nat.lt_of_not_le hlevel)

end Link

/-! ## Unlinking a node -/

section Unlink

variable {update : ℕ → Option ℕ} {z : Cell} {nodes₀ : Memory} {n : ℕ}

/-- The levels below one from which a node has been unlinked. -/
structure UnlinkedBelow (nodes₀ : Memory) (before after : List Cell) (n : ℕ) (nodes : Memory) :
    Prop where
  same : Memory.SameCells nodes₀ nodes
  below : ∀ l < n, Linked (nodes.forward? l) header (idsAt l before ++ idsAt l after)
  above : ∀ l b, n ≤ l → nodes.forward? l b = nodes₀.forward? l b

/-- A node is unlinked from all levels it reaches. -/
theorem UnlinkedBelow.unlinkLevels (count : ℕ) (h₀ : Stores nodes₀ (before ++ z :: after))
    (hupdate : ∀ l < n + count, update l = some (predAt l before))
    (hcount : n + count ≤ maxLevel + 1) (hz : z.2.level < n + count) (hn : n ≤ z.2.level + 1)
    (h : UnlinkedBelow nodes₀ before after n nodes) :
    ∃ nodes', Memory.unlinkLevels update z.1 count n nodes = some nodes' ∧
      UnlinkedBelow nodes₀ before after (z.2.level + 1) nodes' := by
  induction count generalizing n nodes with
  | zero =>
    have hlast : n = z.2.level + 1 := by omega
    rw [← hlast]
    exact ⟨nodes, rfl, h⟩
  | succ count ih =>
    have hlevel : n ≤ maxLevel := by omega
    have hlinked := h₀.linked n hlevel
    have hnodup := h₀.nodup_idsAt n
    have hpred : nodes.forward? n (predAt n before) = some (idsAt n (z :: after)).head? := by
      rw [h.above n _ le_rfl, h₀.forward?_predAt hlevel]
    rw [idsAt_append, idsAt_cons] at hlinked hnodup
    rw [idsAt_cons] at hpred
    rw [Memory.unlinkLevels, hupdate n (by omega)]
    by_cases hreach : n ≤ z.2.level
    · -- the node is linked in at this level
      rw [if_pos hreach] at hlinked hnodup hpred
      have hnext : nodes.forward? n z.1 = some (idsAt n after).head? := by
        rw [h.above n _ le_rfl]
        exact (linked_cons.1 (linked_append.1 hlinked).2).2.next_eq
      obtain ⟨nodes₁, hset, hsame, hforward⟩ := Memory.setForward_eq hpred (idsAt n after).head?
      have h₁ : UnlinkedBelow nodes₀ before after (n + 1) nodes₁ := by
        refine ⟨h.same.trans hsame, fun l hl => ?_, fun l b hl => ?_⟩
        · rcases Nat.lt_succ_iff_lt_or_eq.1 hl with hl | rfl
          · refine (h.below l hl).congr fun b _ => ?_
            rw [hforward, if_neg fun h => Nat.ne_of_lt hl h.1]
          · refine hlinked.erase hnodup ?_ fun b _ hlast => ?_
            · rw [← h.above l _ le_rfl, hnext]
              exact (hforward l _).trans (if_pos ⟨rfl, rfl⟩)
            · rw [hforward, if_neg fun h => hlast h.2, h.above l b le_rfl]
        · rw [hforward, if_neg fun h => Nat.ne_of_gt hl h.1, h.above l b (Nat.le_of_succ_le hl)]
      obtain ⟨nodes', hunlink, h'⟩ := ih (fun l hl => hupdate l (by omega)) (by omega) (by omega)
        (by omega) h₁
      refine ⟨nodes', ?_, h'⟩
      simpa [hpred, hnext, hset] using hunlink
    · -- the loop ends at the first level the node does not reach
      rw [if_neg hreach] at hpred
      have hlast : n = z.2.level + 1 := by omega
      have hne : (idsAt n after).head? ≠ some z.1 := by
        intro heq
        have hmem := idsAt_sublist.subset (List.mem_of_mem_head? heq)
        have hall := h₀.nodup
        rw [List.nodup_cons, List.map_append, List.map_cons, List.nodup_append, List.nodup_cons]
          at hall
        exact hall.2.2.1.1 hmem
      refine ⟨nodes, ?_, hlast ▸ h⟩
      simp [hpred, hne]

/-- What is left is stored when a node has been unlinked. -/
theorem unlinkLevels (h : Stores nodes (before ++ z :: after)) {level : ℕ}
    (hupdate : ∀ l ≤ level, update l = some (predAt l before)) (hlevel : level ≤ maxLevel)
    (hz : z.2.level ≤ level) :
    ∃ nodes', Memory.unlinkLevels update z.1 (level + 1) 0 nodes = some nodes' ∧
      Stores nodes' (before ++ after) := by
  obtain ⟨nodes', hunlink, h'⟩ := UnlinkedBelow.unlinkLevels (n := 0) (level + 1) h
    (fun l hl => hupdate l (by omega)) (by omega) (by omega) (Nat.zero_le _)
    ⟨rfl, nofun, fun _ _ _ => rfl⟩
  refine ⟨nodes', hunlink, ?_, ?_, fun c hc => ?_, fun l hl => ?_⟩
  · refine h.nodup.sublist (.cons_cons _ (.map _ ?_))
    exact (List.sublist_cons_self z after).append_left before
  · obtain ⟨m, hm, hlength⟩ := h.header_length
    obtain ⟨m', hm', -, -, hlength'⟩ := h'.same.getElem? hm
    exact ⟨m', hm', hlength'.trans hlength⟩
  · have hc' : c ∈ before ++ z :: after :=
      ((List.sublist_cons_self z after).append_left before).subset hc
    obtain ⟨m, hm, hkey, hpos, hlength⟩ := h.cell c hc'
    obtain ⟨m', hm', hkey', hpos', hlength'⟩ := h'.same.getElem? hm
    exact ⟨m', hm', hkey'.trans hkey, hpos'.trans hpos, hlength'.trans hlength⟩
  · rw [idsAt_append]
    by_cases hreach : l ≤ z.2.level
    · exact h'.below l (Nat.lt_succ_of_le hreach)
    · have hlinked := h.linked l hl
      rw [idsAt_append, idsAt_cons, if_neg hreach] at hlinked
      exact hlinked.congr fun b _ => h'.above l b (Nat.lt_of_not_le hreach)

end Unlink

/-! ## The level of the list -/

theorem forward_eq_nil_iff (level : ℕ) (cells : List Cell) :
    forward level (cells.map Prod.snd) = [] ↔ idsAt level cells = [] := by
  rw [forward, List.dropWhile_eq_nil_iff, List.forall_mem_map, idsAt, List.map_eq_nil_iff,
    List.filter_eq_nil_iff]
  simp only [decide_eq_true_eq, Nat.not_le]

/-- The level found for what is left is that of the chain. -/
theorem shrinkLevel_eq (h : Stores nodes cells) {level : ℕ} (hlevel : level ≤ maxLevel) :
    nodes.shrinkLevel level = some (SkipListIndex.shrink (cells.map Prod.snd) level) := by
  induction level with
  | zero => rfl
  | succ level ih =>
    have hfirst := (h.linked (level + 1) hlevel).next_eq
    rw [Memory.shrinkLevel, SkipListIndex.shrink, hfirst]
    by_cases hempty : idsAt (level + 1) cells = []
    · rw [if_pos ((forward_eq_nil_iff _ _).2 hempty), ← ih (Nat.le_of_succ_le hlevel), hempty]
      rfl
    · rw [if_neg (mt (forward_eq_nil_iff _ _).1 hempty)]
      obtain ⟨b, bs, hcons⟩ := List.exists_cons_of_ne_nil hempty
      rw [hcons]
      rfl

theorem shrink_le (nodes : List SkipListNode) (level : ℕ) :
    SkipListIndex.shrink nodes level ≤ level := by
  induction level with
  | zero => exact le_rfl
  | succ level ih =>
    rw [SkipListIndex.shrink]
    split
    · exact Nat.le_succ_of_le ih
    · exact le_rfl

/-- A list has the level of the highest of its nodes, or less if it had less. -/
theorem le_shrink {level : ℕ} (hcells : ∀ c ∈ cells, c.2.level ≤ level) {c : Cell}
    (hc : c ∈ cells) : c.2.level ≤ SkipListIndex.shrink (cells.map Prod.snd) level := by
  induction level with
  | zero => exact hcells c hc
  | succ level ih =>
    rw [SkipListIndex.shrink]
    split
    · rename_i hempty
      refine ih fun c hc => Nat.le_of_lt_succ (lt_of_le_of_ne (hcells c hc) fun heq => ?_)
      have hmem : c.1 ∈ idsAt (level + 1) cells := mem_idsAt_iff.2 ⟨c, hc, heq.ge, rfl⟩
      rw [(forward_eq_nil_iff _ _).1 hempty] at hmem
      cases hmem
    · exact hcells c hc

end Stores

/-! ## Layouts -/

variable {levels : ℕ → ℕ → ℕ}

/-- A memory lays out a skip list: its chain is stored. -/
structure Lays (m : SkipListMemory levels) (i : SkipListIndex levels) (cells : List Cell) : Prop where
  stores : Stores m.nodes cells
  nodes_eq : i.nodes = cells.map Prod.snd
  level_eq : m.level = i.level
  seed_eq : m.seed = i.seed
  drawn_eq : m.drawn = i.drawn
  level_le : m.level ≤ maxLevel
  cells_le : ∀ c ∈ cells, c.2.level ≤ m.level

namespace Lays

variable {m : SkipListMemory levels} {i : SkipListIndex levels} {cells : List Cell}

theorem create (seed : ℕ) :
    Lays (SkipListMemory.create seed : SkipListMemory levels) (Indexer.create seed) [] where
  stores := by
    refine ⟨List.nodup_singleton _, ⟨_, rfl, List.length_replicate⟩, nofun, fun l hl => ?_⟩
    refine ⟨trivial, Memory.forward?_eq_some_iff.2 ⟨_, rfl, ?_⟩⟩
    rw [List.getElem?_replicate, if_pos (Nat.lt_succ_of_le hl)]
  nodes_eq := rfl
  level_eq := rfl
  seed_eq := rfl
  drawn_eq := rfl
  level_le := Nat.zero_le _
  cells_le := nofun

/-- No node reaches a level above that of the list. -/
theorem idsAt_eq_nil {before after : List Cell} (h : Lays m i (before ++ after)) {l : ℕ}
    (hl : m.level < l) : idsAt l before = [] := by
  refine List.eq_nil_iff_forall_not_mem.2 fun b hb => ?_
  obtain ⟨c, hc, hlevel, -⟩ := mem_idsAt_iff.1 hb
  have hle := h.cells_le c (List.mem_append_left _ hc)
  omega

/-- Searching finds the nodes at which the chain is split. -/
theorem exists_findNode (h : Lays m i cells) (key : Bytes) :
    ∃ before after, cells = before ++ after ∧ before.map Prod.snd = i.update key ∧
      after.map Prod.snd = i.findNode key ∧
      m.findNode key = some (after.head?.map Prod.fst, fun l =>
        if l ≤ m.level then some (predAt l before) else none) := by
  obtain ⟨hsplit, hbefore⟩ := i.exists_before key
  obtain ⟨before, after, rfl, hupdate, hfind⟩ :=
    List.map_eq_append_iff.1 (h.nodes_eq.symm.trans hsplit)
  have hafter : ∀ c ∈ after, compareKeys c.2.key key ≠ .lt := by
    intro c hc
    refine (i.splitAt key).not_lt c.2 ?_
    rw [← hfind]
    exact List.mem_map_of_mem hc
  have hbefore' : ∀ c ∈ before, compareKeys c.2.key key = .lt := fun c hc =>
    hbefore _ (hupdate ▸ List.mem_map_of_mem hc)
  have hids : idsAt m.level before = [] ++ idsAt m.level before := rfl
  have hdescend := h.stores.descend_eq hbefore' hafter h.level_le hids fun _ => none
  refine ⟨before, after, rfl, hupdate, hfind, ?_⟩
  have hnext := h.stores.forward?_predAt (Nat.zero_le _)
  rw [idsAt_zero, List.head?_map] at hnext
  rw [SkipListMemory.findNode]
  simp only [List.getLastD_nil] at hdescend
  simp [hdescend, hnext]

/-- A key that is not found matches no node. -/
theorem matching_eq_none {before after : List Cell} (h : Stores m.nodes (before ++ after))
    {key : Bytes} (hfound : found key (after.map Prod.snd) = none) :
    m.matching key (after.head?.map Prod.fst) = none := by
  cases after with
  | nil => rfl
  | cons z rest =>
    obtain ⟨n, hn, hkey, -⟩ := h.cell z (List.mem_append_right _ List.mem_cons_self)
    rw [List.map_cons, found] at hfound
    simp only [ite_eq_right_iff, reduceCtorEq, imp_false] at hfound
    simp [SkipListMemory.matching, hn, hkey, hfound]

/-- A key that is found matches the node it is stored in. -/
theorem exists_matching {before after : List Cell} (h : Stores m.nodes (before ++ after))
    {key : Bytes} {old : SkipListNode} (hfound : found key (after.map Prod.snd) = some old) :
    ∃ z rest n, after = (z, old) :: rest ∧ m.nodes[z]? = some n ∧ n.key = old.key ∧
      n.pos = old.pos ∧ n.forward.length = old.level + 1 ∧
      m.matching key (some z) = some (z, n) := by
  cases after with
  | nil => cases hfound
  | cons c rest =>
    obtain ⟨n, hn, hkey, hpos, hlength⟩ := h.cell c (List.mem_append_right _ List.mem_cons_self)
    rw [List.map_cons, found] at hfound
    split at hfound
    · rename_i heq
      obtain rfl := Option.some.inj hfound
      refine ⟨c.1, rest, n, rfl, hn, hkey, hpos, hlength, ?_⟩
      simp [SkipListMemory.matching, hn, hkey, heq]
    · cases hfound

theorem get_eq (h : Lays m i cells) (key : Bytes) : m.get key = some (i.get key) := by
  obtain ⟨before, after, rfl, -, hafter, hfind⟩ := h.exists_findNode key
  rw [SkipListMemory.get, hfind, SkipListIndex.get, ← hafter]
  cases hfound : found key (after.map Prod.snd) with
  | none => simp [matching_eq_none h.stores hfound]
  | some old =>
    obtain ⟨z, rest, n, rfl, -, -, hpos, -, hmatching⟩ := exists_matching h.stores hfound
    simp [hmatching, hpos]

/-- Storing another position leaves all pointers as they are. -/
theorem stores_set {nodes : Memory} {before rest : List Cell} {z : ℕ} {old : SkipListNode}
    {n : MemoryNode} (h : Stores nodes (before ++ (z, old) :: rest)) (hn : nodes[z]? = some n)
    (hkey : n.key = old.key) (hlength : n.forward.length = old.level + 1) (pos : LogRecordPos) :
    Stores (nodes.set z { n with pos := pos }) (before ++ (z, { old with pos := pos }) :: rest) := by
  obtain ⟨hz, -⟩ := List.getElem?_eq_some_iff.1 hn
  have hids (l : ℕ) : idsAt l (before ++ (z, { old with pos := pos }) :: rest) =
      idsAt l (before ++ (z, old) :: rest) := by
    rw [idsAt_append, idsAt_append, idsAt_cons, idsAt_cons]
  have hmap : (before ++ (z, { old with pos := pos }) :: rest).map Prod.fst =
      (before ++ (z, old) :: rest).map Prod.fst := by
    simp
  have hnodup := h.nodup
  have hother {c : Cell} (hc : c ∈ before ++ rest) : c.1 ≠ z := by
    intro heq
    rw [List.nodup_cons, List.map_append, List.map_cons] at hnodup
    refine (List.nodup_middle.1 hnodup.2).notMem ?_
    rw [← List.map_append, ← heq]
    exact List.mem_map.2 ⟨c, hc, rfl⟩
  refine ⟨hmap ▸ hnodup, ?_, fun c hc => ?_, fun l hl => ?_⟩
  · obtain ⟨m, hm, hlength⟩ := h.header_length
    have hne : z ≠ header := by
      rintro rfl
      rw [List.nodup_cons, List.map_append, List.map_cons] at hnodup
      exact hnodup.1 (List.mem_append_right _ List.mem_cons_self)
    exact ⟨m, by rw [List.getElem?_set_ne hne, hm], hlength⟩
  · by_cases hc' : c ∈ before ++ rest
    · obtain ⟨m, hm, hcell⟩ := h.cell c (by
        rcases List.mem_append.1 hc' with hc' | hc'
        · exact List.mem_append_left _ hc'
        · exact List.mem_append_right _ (List.mem_cons_of_mem _ hc'))
      exact ⟨m, by rw [List.getElem?_set_ne (hother hc').symm, hm], hcell⟩
    · have hself : c = (z, { old with pos := pos }) := by
        simp only [List.mem_append, List.mem_cons, not_or] at hc hc'
        tauto
      rw [hself]
      exact ⟨_, List.getElem?_set_self hz, hkey, rfl, hlength⟩
  · -- Pointers, and with them the lists of all levels, do not depend on positions.
    rw [Memory.forward?_set hn, hids]
    exact h.linked l hl

/-- Putting a key gives the result of the skip list, and keeps the layout. -/
theorem put (h : Lays m i cells) (key : Bytes) (pos : LogRecordPos) :
    ∃ m' cells', m.put key pos = some ((i.put key pos).1, m') ∧
      Lays m' (i.put key pos).2 cells' := by
  obtain ⟨before, after, rfl, hbefore, hafter, hfind⟩ := h.exists_findNode key
  cases hfound : found key (i.findNode key) with
  | some old =>
    -- The node is there: its position changes, and no pointer does.
    obtain ⟨ascending, hput⟩ := i.put_of_found key hfound pos
    obtain ⟨z, rest, n, rfl, hn, hkey, hpos, hlength, hmatching⟩ :=
      exists_matching h.stores (hafter ▸ hfound)
    rw [hput]
    refine ⟨{ m with nodes := m.nodes.set z { n with pos := pos } },
      before ++ (z, { old with pos := pos }) :: rest, ?_, stores_set h.stores hn hkey hlength pos,
      ?_, h.level_eq, h.seed_eq, h.drawn_eq, h.level_le, fun c hc => ?_⟩
    · rw [SkipListMemory.put, hfind]
      simp [hmatching, hpos]
    · show i.update key ++ _ :: (i.findNode key).tail = _
      rw [← hafter, List.map_append, hbefore]
      rfl
    · rcases List.mem_append.1 hc with hc | hc
      · exact h.cells_le c (List.mem_append_left _ hc)
      · rcases List.mem_cons.1 hc with rfl | hc
        · exact h.cells_le (z, old) (List.mem_append_right _ List.mem_cons_self)
        · exact h.cells_le c (List.mem_append_right _ (List.mem_cons_of_mem _ hc))
  | none =>
    obtain ⟨ascending, hput⟩ := i.put_of_not_found key hfound pos
    have hmatching := matching_eq_none h.stores (hafter ▸ hfound)
    have hrandom : m.randomLevel = i.randomLevel := by
      rw [SkipListMemory.randomLevel, SkipListIndex.randomLevel, h.seed_eq, h.drawn_eq]
    have hle : m.randomLevel ≤ maxLevel := Nat.min_le_left _ _
    -- Levels the list did not have start at the header.
    have hupdate (l : ℕ) (hl : l ≤ m.randomLevel) : (if m.level < l then some header else
        if l ≤ m.level then some (predAt l before) else none) = some (predAt l before) := by
      split
      · rename_i hlevel
        rw [predAt, h.idsAt_eq_nil hlevel]
        rfl
      · rename_i hlevel
        rw [if_pos (Nat.le_of_not_lt hlevel)]
    obtain ⟨nodes', hlink, hstores⟩ := h.stores.linkLevels (n := ⟨key, pos, m.randomLevel⟩) hle
      hupdate
    rw [hput]
    refine ⟨{ m with nodes := nodes', level := max m.level m.randomLevel, drawn := m.drawn + 1 },
      _, ?_, hstores, ?_, ?_, h.seed_eq, ?_, max_le h.level_le hle, fun c hc => ?_⟩
    · rw [SkipListMemory.put, hfind]
      simp [hmatching, hlink]
    · show i.update key ++ _ :: i.findNode key = _
      rw [← hafter, List.map_append, hbefore, ← hrandom]
      rfl
    · show max m.level m.randomLevel = max i.level i.randomLevel
      rw [h.level_eq, hrandom]
    · show m.drawn + 1 = i.drawn + 1
      rw [h.drawn_eq]
    · rcases List.mem_append.1 hc with hc | hc
      · exact le_max_of_le_left (h.cells_le c (List.mem_append_left _ hc))
      · rcases List.mem_cons.1 hc with rfl | hc
        · exact le_max_right _ _
        · exact le_max_of_le_left (h.cells_le c (List.mem_append_right _ hc))

/-- Removing a key gives the result of the skip list, and keeps the layout. -/
theorem remove (h : Lays m i cells) (key : Bytes) :
    ∃ m' cells', m.remove key = some ((i.remove key).1, m') ∧ Lays m' (i.remove key).2 cells' := by
  obtain ⟨before, after, rfl, hbefore, hafter, hfind⟩ := h.exists_findNode key
  cases hfound : found key (i.findNode key) with
  | none =>
    have hmatching := matching_eq_none h.stores (hafter ▸ hfound)
    have hremove : i.remove key = ((none, false), i) := by
      rw [SkipListIndex.remove, hfound]
    refine ⟨m, before ++ after, ?_, hremove ▸ h⟩
    rw [SkipListMemory.remove, hfind, hremove]
    simp [hmatching]
  | some old =>
    obtain ⟨z, rest, n, rfl, hn, -, hpos, -, hmatching⟩ :=
      exists_matching h.stores (hafter ▸ hfound)
    have hupdate (l : ℕ) (hl : l ≤ m.level) :
        (if l ≤ m.level then some (predAt l before) else none) = some (predAt l before) :=
      if_pos hl
    obtain ⟨nodes', hunlink, hstores⟩ := h.stores.unlinkLevels hupdate h.level_le
      (h.cells_le (z, old) (List.mem_append_right _ List.mem_cons_self))
    have hcells (c : Cell) (hc : c ∈ before ++ rest) : c.2.level ≤ m.level := by
      refine h.cells_le c (((List.sublist_cons_self _ rest).append_left before).subset hc)
    -- The level shrinks to the highest one that is not empty, in memory and in the list.
    have hshrink := hstores.shrinkLevel_eq h.level_le
    have hnodes : i.update key ++ (i.findNode key).tail = (before ++ rest).map Prod.snd := by
      rw [← hafter, List.map_append, hbefore]
      rfl
    have hremove : i.remove key = ((some old.pos, true), { i with
        nodes := i.update key ++ (i.findNode key).tail
        level := SkipListIndex.shrink (i.update key ++ (i.findNode key).tail) i.level
        ascending := (i.splitAt key).ascending_tail }) := by
      rw [SkipListIndex.remove, hfound]
    rw [hremove]
    refine ⟨{ m with
      nodes := nodes'
      level := SkipListIndex.shrink ((before ++ rest).map Prod.snd) m.level }, before ++ rest,
      ?_, hstores, hnodes, ?_, h.seed_eq, h.drawn_eq, ?_, fun c hc => ?_⟩
    · rw [SkipListMemory.remove, hfind]
      simp [hmatching, hpos, hunlink, hshrink]
    · show SkipListIndex.shrink _ m.level = SkipListIndex.shrink _ i.level
      rw [← hnodes, h.level_eq]
    · exact (Stores.shrink_le _ _).trans h.level_le
    · exact Stores.le_shrink hcells hc

/-! ### Reading the whole list -/

theorem chain_eq (h : Lays m i cells) : m.chain = some (cells.map Prod.fst) := by
  have hlinked := h.stores.linked 0 (Nat.zero_le _)
  rw [idsAt_zero] at hlinked
  rw [SkipListMemory.chain, hlinked.next_eq]
  refine collect_eq hlinked ?_
  rw [List.length_map]
  exact h.stores.length_lt.le

theorem items_eq (h : Lays m i cells) :
    m.items = some (i.nodes.map fun node => (node.key, node.pos)) := by
  rw [SkipListMemory.items, h.chain_eq, h.nodes_eq]
  refine congrArg some ?_
  have hcells := h.stores.cell
  generalize cells = cs at hcells ⊢
  induction cs with
  | nil => rfl
  | cons c cs ih =>
    rw [List.forall_mem_cons] at hcells
    obtain ⟨⟨n, hn, hkey, hpos, -⟩, hrest⟩ := hcells
    rw [List.map_cons, List.filterMap_cons, hn, Option.map_some, hkey, hpos, ih hrest]
    rfl

theorem listKeys_eq (h : Lays m i cells) : m.listKeys = some i.listKeys := by
  rw [SkipListMemory.listKeys, h.items_eq, SkipListIndex.listKeys]
  simp

theorem size_eq (h : Lays m i cells) : m.size = some i.nodes.length := by
  rw [SkipListMemory.size, h.chain_eq, h.nodes_eq]
  simp

end Lays

end Bitcask
