import Bitcask.SkipListLayout
import Bitcask.Iterators

/-!
# Iterators over skip lists

The iterator of the index of type `SKIPLIST` follows the pointers of the lowest level
when it goes forwards, and looks for a key from the highest level downwards. As long
as the memory lays out a skip list, the nodes it meets are those of the chain.
-/

namespace Bitcask

open LinkedList

/-- The iterator of the index of type `SKIPLIST`: forwards it is at a node, or at none,
    of the memory as it is. -/
structure SkipListIterator where
  nodes : Memory
  current : Option ℕ
  options : IteratorOptions
  snapshot : Snapshot
  useItems : Bool

namespace SkipListIterator

variable (it : SkipListIterator)

/-- The loop that skips the nodes whose keys do not match. -/
def skipUnmatched (nodes : Memory) (options : IteratorOptions) :
    ℕ → Option ℕ → Option (Option ℕ)
  | _, none => some none
  | 0, some current => do
    if options.keyMatchesPrefix (← nodes[current]?).key then return some current else none
  | fuel + 1, some current => do
    if options.keyMatchesPrefix (← nodes[current]?).key then return some current
    else skipUnmatched nodes options fuel (← nodes.forward? 0 current)

/-- The iterator at the first node from one on whose key matches. -/
def moveTo (current : Option ℕ) : Option SkipListIterator := do
  return { it with current := ← skipUnmatched it.nodes it.options it.nodes.length current }

def rewind : Option SkipListIterator := do
  if it.useItems then return { it with snapshot := it.snapshot.rewind }
  it.moveTo (← it.nodes.forward? 0 header)

def seek (key : Bytes) : Option SkipListIterator := do
  if it.useItems then return { it with snapshot := it.snapshot.seek key }
  let (current, _) ← it.nodes.descend key 15 header fun _ => none
  it.moveTo (← it.nodes.forward? 0 current)

def next : Option SkipListIterator := do
  if it.useItems then return { it with snapshot := it.snapshot.next }
  match it.current with
  | some current => it.moveTo (← it.nodes.forward? 0 current)
  | none => return it

/-- The item the iterator is at, if it is valid. -/
def item : Option (Option Item) := do
  if it.useItems then return it.snapshot.item
  match it.current with
  | some current => do
    let n ← it.nodes[current]?
    return some (n.key, n.pos)
  | none => return none

def create {levels : ℕ → ℕ → ℕ} (m : SkipListMemory levels) (options : IteratorOptions) :
    Option SkipListIterator := do
  let items ← if options.reverse then m.items else some []
  rewind {
    nodes := m.nodes
    current := none
    options := options
    snapshot := ⟨(items.filter fun item => options.keyMatchesPrefix item.1).reverse, 0⟩
    useItems := options.reverse }

instance : Cursor SkipListIterator Bytes Item where
  rewind := rewind
  seek := seek
  next := next
  read := item

/-! ### Backwards -/

/-- The items ahead of an iterator that goes backwards. -/
def Backwards (all : List Item) (it : SkipListIterator) (rest : List Item) : Prop :=
  it.useItems = true ∧ it.snapshot.Ahead all rest

theorem represents_backwards (all : List Item) :
    Cursor.Represents (Backwards all) all (landing false all) where
  read := by
    rintro it rest ⟨huse, hahead⟩
    rw [← hahead.item_eq]
    exact if_pos huse
  rewind := by
    rintro it rest ⟨huse, hahead⟩
    exact ⟨_, if_pos huse, huse, hahead.rewind⟩
  seek := by
    rintro it rest key ⟨huse, hahead⟩
    exact ⟨_, if_pos huse, huse, hahead.seek key⟩
  next := by
    rintro it rest ⟨huse, hahead⟩
    exact ⟨_, if_pos huse, huse, hahead.next⟩

/-! ### Forwards -/

/-- The key and the position of a cell. -/
def itemOf (c : Cell) : Item := (c.2.key, c.2.pos)

/-- The items ahead of an iterator that goes forwards over the chain of a skip list. -/
structure Forwards (nodes : Memory) (cells : List Cell) (it : SkipListIterator)
    (rest : List Item) : Prop where
  nodes_eq : it.nodes = nodes
  keyPrefix_eq : it.options.keyPrefix = []
  useItems_eq : it.useItems = false
  place : ∃ before after, cells = before ++ after ∧ it.current = after.head?.map Prod.fst ∧
    rest = after.map itemOf

variable {it} {nodes : Memory} {cells before after : List Cell} {rest : List Item}

/-- Without a prefix no node is skipped. -/
theorem moveTo_eq (hstores : Stores nodes (before ++ after)) (h : it.nodes = nodes)
    (hempty : it.options.keyPrefix = []) :
    it.moveTo (after.head?.map Prod.fst) =
      some { it with current := after.head?.map Prod.fst } := by
  unfold moveTo
  cases after with
  | nil => simp [skipUnmatched]
  | cons c after =>
    obtain ⟨n, hn, -⟩ := hstores.cell c (List.mem_append_right _ List.mem_cons_self)
    rw [h]
    cases nodes.length <;>
      simp [skipUnmatched, hn, IteratorOptions.keyMatchesPrefix_of_empty hempty]

/-- The iterator moves to the node behind the last one of the first part of the chain. -/
theorem Forwards.moveTo (hstores : Stores nodes (before ++ after)) (hcells : cells = before ++ after)
    (h : Forwards nodes cells it rest) :
    ∃ next it', it.nodes.forward? 0 (predAt 0 before) = some next ∧ it.moveTo next = some it' ∧
      Forwards nodes cells it' (after.map itemOf) := by
  have hnext := hstores.forward?_predAt (Nat.zero_le _)
  rw [idsAt_zero, List.head?_map] at hnext
  refine ⟨_, _, h.nodes_eq ▸ hnext, moveTo_eq hstores h.nodes_eq h.keyPrefix_eq, ?_⟩
  exact ⟨h.nodes_eq, h.keyPrefix_eq, h.useItems_eq, before, after, hcells, rfl, rfl⟩

theorem represents_forwards (hstores : Stores nodes cells) {m : Positions}
    (hitems : Enumerates (cells.map itemOf) m) :
    Cursor.Represents (Forwards nodes cells) (cells.map itemOf)
      (landing false (cells.map itemOf)) where
  read := by
    intro it rest h
    show it.item = _
    obtain ⟨before, after, rfl, hcurrent, rfl⟩ := h.place
    unfold item
    rw [if_neg (by simp [h.useItems_eq]), hcurrent, h.nodes_eq]
    cases after with
    | nil => rfl
    | cons c after =>
      obtain ⟨n, hn, hkey, hpos, -⟩ :=
        hstores.cell c (List.mem_append_right _ List.mem_cons_self)
      simp [hn, hkey, hpos, itemOf]
  rewind := by
    intro it rest h
    have hnil : Stores nodes ([] ++ cells) := hstores
    obtain ⟨next, it', hnext, hmove, h'⟩ := Forwards.moveTo hnil rfl h
    refine ⟨it', ?_, h'⟩
    show it.rewind = _
    rw [rewind, if_neg (by simp [h.useItems_eq])]
    exact Option.bind_eq_some_iff.2 ⟨next, hnext, hmove⟩
  seek := by
    intro it rest key h
    show ∃ it', it.seek key = _ ∧ _
    obtain ⟨xs, ys, heq, hsplit⟩ := hitems.exists_split key
    rw [heq, hsplit.landing_eq]
    obtain ⟨before, after, rfl, rfl, rfl⟩ := List.map_eq_append_iff.1 heq
    obtain ⟨next, it', hnext, hmove, h'⟩ := Forwards.moveTo hstores rfl h
    have hbefore : ∀ c ∈ before, compareKeys c.2.key key = .lt := fun c hc =>
      compareKeys_eq_compare _ _ ▸ hsplit.before_lt _ (List.mem_map_of_mem hc)
    have hafter : ∀ c ∈ after, compareKeys c.2.key key ≠ .lt := fun c hc =>
      compareKeys_eq_compare _ _ ▸ hsplit.after_not_lt _ (List.mem_map_of_mem hc)
    -- The search goes down from the highest level, wherever the list's own is.
    have hids : idsAt 15 before = [] ++ idsAt 15 before := rfl
    have hdescend := hstores.descend_eq hbefore hafter (by decide) hids fun _ => none
    rw [List.getLastD_nil, ← h.nodes_eq] at hdescend
    refine ⟨it', ?_, h'⟩
    rw [seek, if_neg (by simp [h.useItems_eq])]
    simp [hdescend, hnext, hmove]
  next := by
    intro it rest h
    show ∃ it', it.next = _ ∧ _
    obtain ⟨before, after, rfl, hcurrent, rfl⟩ := h.place
    rw [next, if_neg (by simp [h.useItems_eq]), hcurrent]
    cases after with
    | nil => exact ⟨it, rfl, h⟩
    | cons c after =>
      -- The node left behind becomes the last one passed.
      have hcells : before ++ c :: after = before ++ [c] ++ after :=
        (List.append_cons before c after)
      obtain ⟨next, it', hnext, hmove, h'⟩ := Forwards.moveTo (hcells ▸ hstores) hcells h
      rw [predAt, idsAt_zero, List.map_append, getLastD_append] at hnext
      exact ⟨it', Option.bind_eq_some_iff.2 ⟨next, hnext, hmove⟩, h'⟩

/-- A new iterator that goes backwards has all items ahead. -/
theorem create_backwards {levels : ℕ → ℕ → ℕ} {m : SkipListMemory levels} {items : List Item}
    (h : m.items = some items) :
    ∃ it, create m { reverse := true } = some it ∧ Backwards items.reverse it items.reverse := by
  refine ⟨⟨m.nodes, none, { reverse := true }, ⟨items.reverse, 0⟩, true⟩, ?_, rfl, rfl, rfl⟩
  simp [create, h, rewind, Snapshot.rewind, IteratorOptions.keyMatchesPrefix]

theorem create_forwards {levels : ℕ → ℕ → ℕ} {m : SkipListMemory levels}
    (hstores : Stores m.nodes cells) :
    ∃ it, create m {} = some it ∧ Forwards m.nodes cells it (cells.map itemOf) := by
  have h : Forwards m.nodes cells ⟨m.nodes, none, {}, ⟨[], 0⟩, false⟩ [] :=
    ⟨rfl, rfl, rfl, cells, [], (List.append_nil cells).symm, rfl, rfl⟩
  have hnil : Stores m.nodes ([] ++ cells) := hstores
  obtain ⟨next, it, hnext, hmove, h'⟩ := Forwards.moveTo hnil rfl h
  exact ⟨it, Option.bind_eq_some_iff.2 ⟨next, hnext, hmove⟩, h'⟩

end SkipListIterator

/-! ## Ordered maps -/

/-- The position of a key is that of the node that has it. -/
theorem valueOf_eq_some_iff {nodes : List SkipListNode} (h : Ascending nodes) {key : Bytes}
    {pos : LogRecordPos} : valueOf nodes key = some pos ↔
      (key, pos) ∈ nodes.map fun node => (node.key, node.pos) := by
  induction nodes with
  | nil => simp [valueOf]
  | cons node nodes ih =>
    obtain ⟨hnode, hnodes⟩ := List.pairwise_cons.1 h
    rw [List.map_cons, List.mem_cons, ← ih hnodes]
    by_cases hkey : node.key = key
    · -- no other node has the key
      have hnone : valueOf nodes key = none := by
        refine Option.map_eq_none_iff.2 (List.find?_eq_none.2 fun other hother => ?_)
        intro heq
        have hlt := hnode other hother
        rw [of_decide_eq_true heq, ← hkey, compareKeys_eq_iff.2 rfl] at hlt
        cases hlt
      rw [hnone, valueOf, List.find?_cons]
      simp [hkey, eq_comm]
    · rw [valueOf, List.find?_cons]
      simp [hkey, Ne.symm hkey, valueOf]

theorem SkipListIndex.enumerates {levels : ℕ → ℕ → ℕ} (i : SkipListIndex levels) :
    Enumerates (i.nodes.map fun node => (node.key, node.pos)) (Indexer.toMap i) where
  sorted := by
    rw [List.map_map]
    refine List.pairwise_map.2 (i.ascending.imp fun h => ?_)
    rwa [compareKeys_eq_compare] at h
  mem_iff key pos := by
    rw [← valueOf_eq_some_iff i.ascending, i.valueOf_nodes]
    rfl

instance (levels : ℕ → ℕ → ℕ) : OrderedIndex (SkipListMemory levels) SkipListIterator where
  create := SkipListMemory.create
  put := SkipListMemory.put
  get := SkipListMemory.get
  remove := SkipListMemory.remove
  size := SkipListMemory.size
  listKeys := SkipListMemory.listKeys
  iterator m reverse := SkipListIterator.create m { reverse := reverse }
  Models m f := ∃ (i : SkipListIndex levels) (cells : List Cell), Lays m i cells ∧
    Indexer.toMap i = f
  land _ := landing false
  models_create seed := ⟨_, _, Lays.create seed, Indexer.toMap_create seed⟩
  put_eq := by
    rintro m f ⟨i, cells, h, rfl⟩ k pos
    obtain ⟨m', cells', hput, h'⟩ := h.put k pos
    refine ⟨m', ?_, _, cells', h', Indexer.toMap_put i k pos⟩
    rw [hput]
    exact congrArg (fun old => some (old, m')) (Indexer.put_fst i k pos)
  get_eq := by
    rintro m f ⟨i, cells, h, rfl⟩ k
    exact h.get_eq k
  remove_eq := by
    rintro m f ⟨i, cells, h, rfl⟩ k
    obtain ⟨m', cells', hremove, h'⟩ := h.remove k
    refine ⟨m', ?_, _, cells', h', Indexer.toMap_remove i k⟩
    rw [hremove]
    exact congrArg (fun removed => some (removed, m')) (Indexer.remove_fst i k)
  items_eq := by
    rintro m f ⟨i, cells, h, rfl⟩
    have hitems : i.nodes.map (fun node => (node.key, node.pos)) =
        cells.map SkipListIterator.itemOf := by
      rw [h.nodes_eq, List.map_map]
      rfl
    have henumerates := i.enumerates
    have hall := h.items_eq
    have hkeys := h.listKeys_eq
    rw [hitems] at henumerates hall
    refine ⟨cells.map SkipListIterator.itemOf, henumerates, ?_, ?_, fun reverse => ?_⟩
    · rw [SkipListMemory.size, h.chain_eq]
      simp
    · rw [hkeys, ← hitems, List.map_map]
      rfl
    · cases reverse with
      | true =>
        obtain ⟨it, hcreate, h'⟩ := SkipListIterator.create_backwards hall
        exact ⟨_, it, hcreate, h', SkipListIterator.represents_backwards _⟩
      | false =>
        obtain ⟨it, hcreate, h'⟩ := SkipListIterator.create_forwards h.stores
        exact ⟨_, it, hcreate, h', SkipListIterator.represents_forwards h.stores henumerates⟩

end Bitcask
