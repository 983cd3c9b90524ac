import Bitcask.Library.LinkedList
import Bitcask.SkipList

/-!
# Skip lists in memory

The index of type `SKIPLIST` as it is laid out: nodes in memory, each with an
array of pointers, one for each level up to its own. Inserting and removing a key
redirects the pointers of the nodes that precede it, one at each level.

The operations are those of the code: a search goes right on each level as far as the
keys are smaller, and down (`Memory.descend`), and what it ends at on each level is what an
insertion or a removal redirects. That they are those of `SkipListIndex` is shown in
`SkipListLayout`.
-/

namespace Bitcask

open LinkedList

/-- A node in memory. -/
structure MemoryNode where
  key : Bytes
  pos : LogRecordPos
  forward : List (Option ℕ)
deriving DecidableEq, Repr

/-- The nodes that have been allocated, numbered in the order they were. -/
abbrev Memory := List MemoryNode

/-- The node all levels start at. -/
def header : ℕ := 0

namespace Memory

/-- The pointer of a node at a level. There is none outside its array. -/
def forward? (nodes : Memory) (level node : ℕ) : Option (Option ℕ) :=
  nodes[node]?.bind fun n => n.forward[level]?

/-- Redirects the pointer of a node at a level. -/
def setForward (nodes : Memory) (level node : ℕ) (target : Option ℕ) : Option Memory := do
  let n ← nodes[node]?
  if level < n.forward.length then
    return nodes.set node { n with forward := n.forward.set level target }
  else none

/-- Whether the key of a node is before another one. -/
def precedes (nodes : Memory) (key : Bytes) (node : ℕ) : Bool :=
  nodes[node]?.any fun n => compareKeys n.key key = .lt

/-- The levels walked by `findNode`, from one downwards: the last node before the
    key, and the one found at every level. -/
def descend (nodes : Memory) (key : Bytes) :
    ℕ → ℕ → (ℕ → Option ℕ) → Option (ℕ × (ℕ → Option ℕ))
  | 0, current, update => do
    let current ← walk (nodes.forward? 0) (nodes.precedes key) nodes.length current
    return (current, Function.update update 0 (some current))
  | level + 1, current, update => do
    let current ← walk (nodes.forward? (level + 1)) (nodes.precedes key) nodes.length current
    nodes.descend key level current (Function.update update (level + 1) (some current))

/-- Links a new node in at a level, behind the node found there. -/
def linkAt (update : ℕ → Option ℕ) (new level : ℕ) (nodes : Memory) : Option Memory := do
  let pred ← update level
  let next ← nodes.forward? level pred
  let nodes ← nodes.setForward level new next
  nodes.setForward level pred (some new)

/-- Links a new node in at the levels below one. -/
def linkLevels (update : ℕ → Option ℕ) (new : ℕ) : ℕ → Memory → Option Memory
  | 0, nodes => some nodes
  | level + 1, nodes => do linkAt update new level (← linkLevels update new level nodes)

/-- Unlinks a node from the levels from one on, as long as it is linked there. -/
def unlinkLevels (update : ℕ → Option ℕ) (node : ℕ) : ℕ → ℕ → Memory → Option Memory
  | 0, _, nodes => some nodes
  | count + 1, level, nodes => do
    let pred ← update level
    if (← nodes.forward? level pred) ≠ some node then return nodes
    let next ← nodes.forward? level node
    unlinkLevels update node count (level + 1) (← nodes.setForward level pred next)

/-- The level of a list some of whose levels may have become empty. -/
def shrinkLevel (nodes : Memory) : ℕ → Option ℕ
  | 0 => some 0
  | level + 1 => do
    match ← nodes.forward? (level + 1) header with
    | none => nodes.shrinkLevel level
    | some _ => return level + 1

end Memory

/-- A skip list in memory. `levels` tells the levels drawn from a seed. -/
structure SkipListMemory (levels : ℕ → ℕ → ℕ) where
  nodes : Memory
  level : ℕ
  seed : ℕ
  drawn : ℕ

namespace SkipListMemory

variable {levels : ℕ → ℕ → ℕ}

/-- An empty skip list: its only node is the header, with pointers at all levels. -/
def create (seed : ℕ) : SkipListMemory levels where
  nodes := [⟨[], ⟨0, 0, 0⟩, List.replicate (maxLevel + 1) none⟩]
  level := 0
  seed := seed
  drawn := 0

variable (m : SkipListMemory levels) (key : Bytes)

/-- The first node that does not precede a key, and the last ones at every level
    that do. -/
def findNode : Option (Option ℕ × (ℕ → Option ℕ)) := do
  let (current, update) ← m.nodes.descend key m.level header fun _ => none
  return (← m.nodes.forward? 0 current, update)

/-- The node found, if it has the key looked for. -/
def matching (node : Option ℕ) : Option (ℕ × MemoryNode) := do
  let node ← node
  let n ← m.nodes[node]?
  if compareKeys n.key key = .eq then return (node, n) else none

def get : Option (Option LogRecordPos) := do
  let (node, _) ← m.findNode key
  return (m.matching key node).map fun x => x.2.pos

def randomLevel : ℕ := min maxLevel (levels m.seed m.drawn)

def put (pos : LogRecordPos) : Option (Option LogRecordPos × SkipListMemory levels) := do
  let (node, update) ← m.findNode key
  match m.matching key node with
  | some (node, n) =>
    return (some n.pos, { m with nodes := m.nodes.set node { n with pos := pos } })
  | none =>
    let newLevel := m.randomLevel
    let update i := if m.level < i then some header else update i
    let newNode : MemoryNode := ⟨key, pos, List.replicate (newLevel + 1) none⟩
    let nodes ← Memory.linkLevels update m.nodes.length (newLevel + 1) (m.nodes ++ [newNode])
    return (none, { m with
      nodes := nodes
      level := max m.level newLevel
      drawn := m.drawn + 1 })

def remove : Option ((Option LogRecordPos × Bool) × SkipListMemory levels) := do
  let (node, update) ← m.findNode key
  match m.matching key node with
  | none => return ((none, false), m)
  | some (node, n) =>
    let nodes ← Memory.unlinkLevels update node (m.level + 1) 0 m.nodes
    return ((some n.pos, true), { m with nodes := nodes, level := ← nodes.shrinkLevel m.level })

/-- The nodes from the first one on. -/
def chain : Option (List ℕ) := do
  collect (m.nodes.forward? 0) m.nodes.length (← m.nodes.forward? 0 header)

/-- The keys and positions of all nodes in order. -/
def items : Option (List (Bytes × LogRecordPos)) := do
  return (← m.chain).filterMap fun node => m.nodes[node]?.map fun n => (n.key, n.pos)

def listKeys : Option (List Bytes) := return (← m.items).map Prod.fst

def size : Option ℕ := return (← m.chain).length

end SkipListMemory

/-! ## Memory cells -/

namespace Memory

variable {nodes nodes' : Memory} {level node : ℕ}

/-- What redirecting pointers leaves alone: keys, positions, and the lengths of the arrays. -/
def SameCells (nodes nodes' : Memory) : Prop :=
  nodes'.map (fun n => (n.key, n.pos, n.forward.length)) =
    nodes.map fun n => (n.key, n.pos, n.forward.length)

theorem SameCells.length_eq (h : SameCells nodes nodes') : nodes'.length = nodes.length := by
  simpa using congrArg List.length h

theorem SameCells.trans {nodes'' : Memory} (h : SameCells nodes nodes')
    (h' : SameCells nodes' nodes'') : SameCells nodes nodes'' := Eq.trans h' h

/-- A node keeps its key, its position and the length of its array. -/
theorem SameCells.getElem? (h : SameCells nodes nodes') {n : MemoryNode}
    (hn : nodes[node]? = some n) : ∃ n', nodes'[node]? = some n' ∧ n'.key = n.key ∧
      n'.pos = n.pos ∧ n'.forward.length = n.forward.length := by
  have hget := congrArg (fun cells => cells[node]?) h
  simp only [List.getElem?_map, hn, Option.map_some] at hget
  obtain ⟨n', hn', hcell⟩ := Option.map_eq_some_iff.1 hget
  simp only [Prod.mk.injEq] at hcell
  exact ⟨n', hn', hcell⟩

theorem forward?_eq_some_iff {target : Option ℕ} : nodes.forward? level node = some target ↔
    ∃ n, nodes[node]? = some n ∧ n.forward[level]? = some target := by
  rw [forward?, Option.bind_eq_some_iff]

/-- A pointer that is there can be redirected; the others stay. -/
theorem setForward_eq {old : Option ℕ} (h : nodes.forward? level node = some old)
    (target : Option ℕ) : ∃ nodes', nodes.setForward level node target = some nodes' ∧
      SameCells nodes nodes' ∧ ∀ l b, nodes'.forward? l b =
        if l = level ∧ b = node then some target else nodes.forward? l b := by
  obtain ⟨n, hn, hold⟩ := forward?_eq_some_iff.1 h
  have hlt : level < n.forward.length := (List.getElem?_eq_some_iff.1 hold).1
  refine ⟨nodes.set node { n with forward := n.forward.set level target }, ?_, ?_, fun l b => ?_⟩
  · rw [setForward, hn]
    simp [hlt]
  · refine List.ext_getElem? fun b => ?_
    rw [List.getElem?_map, List.getElem?_map, List.getElem?_set]
    split
    · subst b
      obtain ⟨hbound, hval⟩ := List.getElem?_eq_some_iff.1 hn
      simp [hbound, hval]
    · rfl
  · rw [forward?, forward?, List.getElem?_set]
    obtain ⟨hbound, hval⟩ := List.getElem?_eq_some_iff.1 hn
    by_cases hb : b = node
    · subst b
      by_cases hl : l = level
      · subst l
        simp [hbound, hlt]
      · simp [hbound, hl, Ne.symm hl, hval]
    · simp [hb, Ne.symm hb]

/-- Pointers do not depend on positions. -/
theorem forward?_set {n : MemoryNode} (hn : nodes[node]? = some n) (pos : LogRecordPos) (l : ℕ) :
    forward? (nodes.set node { n with pos := pos }) l = nodes.forward? l := by
  funext b
  rw [forward?, forward?, List.getElem?_set]
  by_cases hb : node = b
  · subst hb
    rw [if_pos rfl, if_pos (List.getElem?_eq_some_iff.1 hn).1, hn]
    rfl
  · rw [if_neg hb]

end Memory

/-! ## The layout of a chain -/

/-- A node of a skip list and its number in memory. -/
abbrev Cell := ℕ × SkipListNode

/-- The numbers of the nodes that reach a level. -/
def idsAt (level : ℕ) (cells : List Cell) : List ℕ :=
  (cells.filter fun c => level ≤ c.2.level).map Prod.fst

/-- The last node that reaches a level, or the header. -/
def predAt (level : ℕ) (cells : List Cell) : ℕ := (idsAt level cells).getLastD header

section IdsAt

variable (level : ℕ) (cells cells' : List Cell)

@[simp]
theorem idsAt_append : idsAt level (cells ++ cells') = idsAt level cells ++ idsAt level cells' := by
  rw [idsAt, List.filter_append, List.map_append]
  rfl

theorem idsAt_cons (c : Cell) : idsAt level (c :: cells) =
    if level ≤ c.2.level then c.1 :: idsAt level cells else idsAt level cells := by
  rw [idsAt, List.filter_cons]
  split <;> simp_all [idsAt]

theorem idsAt_zero : idsAt 0 cells = cells.map Prod.fst := by
  simp [idsAt]

variable {level cells}

theorem mem_idsAt_iff {node : ℕ} :
    node ∈ idsAt level cells ↔ ∃ c ∈ cells, level ≤ c.2.level ∧ c.1 = node := by
  simp [idsAt, and_assoc]

theorem idsAt_sublist : (idsAt level cells).Sublist (cells.map Prod.fst) :=
  List.filter_sublist.map _

/-- What precedes at a level is met at the level below, too. -/
theorem exists_idsAt_eq {level' : ℕ} (h : level ≤ level') :
    ∃ xs ys, idsAt level cells = xs ++ ys ∧ xs.getLastD header = predAt level' cells := by
  induction cells using List.reverseRecOn with
  | nil => exact ⟨[], [], rfl, rfl⟩
  | append_singleton cells c ih =>
    obtain ⟨xs, ys, hids, hlast⟩ := ih
    rw [predAt, idsAt_append, idsAt_append, idsAt_cons, idsAt_cons]
    by_cases hc : level' ≤ c.2.level
    · refine ⟨idsAt level cells ++ [c.1], [], ?_, ?_⟩
      · rw [if_pos (h.trans hc), List.append_nil]
        rfl
      · rw [if_pos hc, getLastD_append, getLastD_append]
        rfl
    · refine ⟨xs, ys ++ if level ≤ c.2.level then [c.1] else [], ?_, ?_⟩
      · rw [hids, List.append_assoc]
        rfl
      · have hnil : idsAt level' [] = [] := rfl
        rw [if_neg hc, hnil, List.append_nil, hlast, predAt]

end IdsAt

/-- The nodes of a chain are stored in memory, and the pointers at every level lead
    through those that reach it. -/
structure Stores (nodes : Memory) (cells : List Cell) : Prop where
  nodup : (header :: cells.map Prod.fst).Nodup
  header_length : ∃ n, nodes[header]? = some n ∧ n.forward.length = maxLevel + 1
  cell : ∀ c ∈ cells, ∃ n, nodes[c.1]? = some n ∧ n.key = c.2.key ∧ n.pos = c.2.pos ∧
    n.forward.length = c.2.level + 1
  linked : ∀ l ≤ maxLevel, Linked (nodes.forward? l) header (idsAt l cells)

namespace Stores

variable {nodes : Memory} {cells before after : List Cell} {key : Bytes}

theorem nodup_idsAt (h : Stores nodes cells) (level : ℕ) : (header :: idsAt level cells).Nodup :=
  h.nodup.sublist (idsAt_sublist.cons_cons _)

theorem header_lt (h : Stores nodes cells) : header < nodes.length := by
  obtain ⟨n, hn, -⟩ := h.header_length
  exact (List.getElem?_eq_some_iff.1 hn).1

theorem lt_of_mem (h : Stores nodes cells) {node : ℕ} (hnode : node ∈ cells.map Prod.fst) :
    node < nodes.length := by
  obtain ⟨c, hc, rfl⟩ := List.mem_map.1 hnode
  obtain ⟨n, hn, -⟩ := h.cell c hc
  exact (List.getElem?_eq_some_iff.1 hn).1

/-- There are more nodes in memory than in the chain. -/
theorem length_lt (h : Stores nodes cells) : cells.length < nodes.length := by
  have hsubset : header :: cells.map Prod.fst ⊆ List.range nodes.length := by
    intro node hnode
    rw [List.mem_range]
    rcases List.mem_cons.1 hnode with rfl | hnode
    · exact h.header_lt
    · exact h.lt_of_mem hnode
  have hle := (List.subperm_of_subset h.nodup hsubset).length_le
  rwa [List.length_cons, List.length_map, List.length_range] at hle

theorem precedes_eq (h : Stores nodes cells) {c : Cell} (hc : c ∈ cells) :
    nodes.precedes key c.1 = decide (compareKeys c.2.key key = .lt) := by
  obtain ⟨n, hn, hkey, -⟩ := h.cell c hc
  rw [Memory.precedes, hn, Option.any_some, hkey]

/-- Walking a level ends at the last node before the key that reaches it. -/
theorem walk_eq (h : Stores nodes (before ++ after))
    (hbefore : ∀ c ∈ before, compareKeys c.2.key key = .lt)
    (hafter : ∀ c ∈ after, compareKeys c.2.key key ≠ .lt) {level : ℕ} (hlevel : level ≤ maxLevel)
    {xs ys : List ℕ} (hids : idsAt level before = xs ++ ys) :
    walk (nodes.forward? level) (nodes.precedes key) nodes.length (xs.getLastD header) =
      some (predAt level before) := by
  have hlinked := h.linked level hlevel
  rw [idsAt_append, hids, List.append_assoc] at hlinked
  rw [predAt, hids, getLastD_append]
  refine LinkedList.walk_eq (linked_append.1 hlinked).2 (fun b hb => ?_) (fun b hb => ?_) ?_
  · obtain ⟨c, hc, -, rfl⟩ := mem_idsAt_iff.1 (hids ▸ List.mem_append_right xs hb)
    rw [h.precedes_eq (List.mem_append_left _ hc), hbefore c hc]
    rfl
  · obtain ⟨c, hc, -, rfl⟩ := mem_idsAt_iff.1 (List.mem_of_mem_head? hb)
    rw [h.precedes_eq (List.mem_append_right _ hc)]
    exact decide_eq_false (hafter c hc)
  · have hsub : (idsAt level before).length ≤ (before.map Prod.fst).length :=
      idsAt_sublist.length_le
    have hlt := h.length_lt
    rw [hids] at hsub
    simp only [List.length_append, List.length_map] at hsub hlt
    omega

/-- Searching finds the last nodes before the key at all levels. -/
theorem descend_eq (h : Stores nodes (before ++ after))
    (hbefore : ∀ c ∈ before, compareKeys c.2.key key = .lt)
    (hafter : ∀ c ∈ after, compareKeys c.2.key key ≠ .lt) {level : ℕ} (hlevel : level ≤ maxLevel)
    {xs ys : List ℕ} (hids : idsAt level before = xs ++ ys) (update : ℕ → Option ℕ) :
    nodes.descend key level (xs.getLastD header) update =
      some (predAt 0 before, fun l => if l ≤ level then some (predAt l before) else update l) := by
  induction level generalizing xs ys update with
  | zero =>
    rw [Memory.descend, h.walk_eq hbefore hafter hlevel hids]
    refine congrArg (fun update => some (predAt 0 before, update)) (funext fun l => ?_)
    rw [Function.update_apply]
    simp only [Nat.le_zero]
    split <;> simp_all
  | succ level ih =>
    rw [Memory.descend, h.walk_eq hbefore hafter hlevel hids]
    obtain ⟨xs', ys', hids', hlast⟩ : ∃ xs' ys', idsAt level before = xs' ++ ys' ∧
        xs'.getLastD header = predAt (level + 1) before := exists_idsAt_eq (Nat.le_succ level)
    refine Eq.trans (b := nodes.descend key level (xs'.getLastD header)
      (Function.update update (level + 1) (some (predAt (level + 1) before)))) ?_ ?_
    · rw [hlast]
      rfl
    · rw [ih (Nat.le_of_succ_le hlevel) hids']
      refine congrArg (fun update => some (predAt 0 before, update)) (funext fun l => ?_)
      rw [Function.update_apply]
      by_cases hl : l = level + 1
      · simp [hl]
      · simp only [Nat.le_succ_iff, hl, or_false, if_false]

end Stores

end Bitcask
