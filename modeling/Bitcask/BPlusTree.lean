import Mathlib.Data.List.InsertIdx
import Bitcask.Library.BinarySearch
import Bitcask.Iterators

/-!
# B+ trees

The index of type `BPLUS_TREE`. Its nodes are never split, so the tree is one leaf,
and the leaf has no next one. The places of its keys are found by binary search.

A leaf `Holds` the items of a map when its arrays are those of the keys and of the
positions of the items in order. Every operation finds the place at which the items
are split by a key (`findKeyPosition_eq`), and changes the arrays there alike.
-/

namespace Bitcask

/-- A leaf of the tree. -/
structure BPlusTreeNode where
  keys : List Bytes
  values : List LogRecordPos
deriving DecidableEq, Repr

namespace BPlusTreeNode

variable (leaf : BPlusTreeNode) (key : Bytes)

def findKeyPosition : Option ℕ :=
  BinarySearch.lowerBound (fun mid => do return compareKeys (← leaf.keys[mid]?) key = .lt)
    (leaf.keys.length + 1) 0 leaf.keys.length

/-- Whether a key is at a place. -/
def hasKeyAt (place : ℕ) : Bool := leaf.keys[place]?.any fun k => compareKeys k key = .eq

def insertToLeaf (pos : LogRecordPos) : Option (Option LogRecordPos × BPlusTreeNode) := do
  let insertPos ← leaf.findKeyPosition key
  if leaf.hasKeyAt key insertPos then
    let oldPos ← leaf.values[insertPos]?
    return (some oldPos, { leaf with values := leaf.values.set insertPos pos })
  else if insertPos ≤ leaf.values.length then
    return (none, {
      keys := leaf.keys.insertIdx insertPos key
      values := leaf.values.insertIdx insertPos pos })
  else none

def deleteFromLeaf : Option ((Option LogRecordPos × Bool) × BPlusTreeNode) := do
  let pos ← leaf.findKeyPosition key
  if leaf.hasKeyAt key pos then
    let oldPos ← leaf.values[pos]?
    return ((some oldPos, true), {
      keys := leaf.keys.eraseIdx pos
      values := leaf.values.eraseIdx pos })
  else return ((none, false), leaf)

end BPlusTreeNode

/-- The index of type `BPLUS_TREE`. -/
structure BPlusTreeIndex where
  root : BPlusTreeNode

namespace BPlusTreeIndex

def create (_seed : ℕ) : BPlusTreeIndex := ⟨⟨[], []⟩⟩

variable (i : BPlusTreeIndex) (key : Bytes)

def put (pos : LogRecordPos) : Option (Option LogRecordPos × BPlusTreeIndex) := do
  let (oldPos, leaf) ← i.root.insertToLeaf key pos
  return (oldPos, ⟨leaf⟩)

def get : Option (Option LogRecordPos) := do
  let pos ← i.root.findKeyPosition key
  if i.root.hasKeyAt key pos then return some (← i.root.values[pos]?) else return none

def remove : Option ((Option LogRecordPos × Bool) × BPlusTreeIndex) := do
  let (removed, leaf) ← i.root.deleteFromLeaf key
  return (removed, ⟨leaf⟩)

def listKeys : List Bytes := i.root.keys

def size : ℕ := i.root.keys.length

end BPlusTreeIndex

/-! ## The items of a leaf -/

/-- A leaf holds the items of a map in order. -/
structure BPlusTreeNode.Holds (leaf : BPlusTreeNode) (items : List Item) : Prop where
  keys_eq : leaf.keys = items.map Prod.fst
  values_eq : leaf.values = items.map Prod.snd

namespace ItemsSplitAt

variable {key : Bytes} {before after : List Item} {m : Positions} {leaf : BPlusTreeNode}

/-- A key that is not the first one from the split on is not in the map. -/
theorem eq_none (h : ItemsSplitAt key before after) (hitems : Enumerates (before ++ after) m)
    (hhead : ∀ item ∈ after.head?, item.1 ≠ key) :
    m key = none ∧ ∀ item ∈ after, compare key item.1 = .lt := by
  have hafter : ∀ item ∈ after, compare key item.1 = .lt := by
    intro item hitem
    cases after with
    | nil => cases hitem
    | cons first rest =>
      have hsorted := List.pairwise_map.1 hitems.sorted
      have hfirst : compare key first.1 = .lt := by
        cases hcmp : compare key first.1 with
        | lt => rfl
        | eq => exact absurd (Std.LawfulEqCmp.compare_eq_iff_eq.1 hcmp).symm (hhead first rfl)
        | gt =>
          exact absurd (Std.OrientedCmp.gt_iff_lt.1 hcmp) (h.after_not_lt first List.mem_cons_self)
      rcases List.mem_cons.1 hitem with rfl | hitem
      · exact hfirst
      · rw [List.pairwise_append, List.pairwise_cons] at hsorted
        exact Std.TransCmp.lt_trans hfirst (hsorted.2.1.1 item hitem)
  refine ⟨Option.eq_none_iff_forall_not_mem.2 fun pos hpos => ?_, hafter⟩
  rcases List.mem_append.1 ((hitems.mem_iff key pos).2 hpos) with hmem | hmem
  · simpa using h.before_lt _ hmem
  · simpa using hafter _ hmem

/-- The binary search finds the place of the split. -/
theorem findKeyPosition_eq (h : ItemsSplitAt key before after)
    (hleaf : leaf.Holds (before ++ after)) : leaf.findKeyPosition key = some before.length := by
  refine BinarySearch.lowerBound_eq (fun i hi => ?_) (Nat.zero_le _) ?_ (Nat.lt_succ_self _)
  · rw [hleaf.keys_eq, List.length_map] at hi
    rw [hleaf.keys_eq, List.getElem?_map, List.getElem?_eq_getElem hi]
    have hmem := List.getElem_mem hi
    by_cases hbefore : i < before.length
    · have hlt := h.before_lt _ (List.getElem_mem hbefore)
      simp [compareKeys_eq_compare, List.getElem_append_left hbefore, hlt, hbefore]
    · have hlt := h.after_not_lt (before ++ after)[i] (by
        rw [List.getElem_append_right (Nat.le_of_not_lt hbefore)]
        exact List.getElem_mem _)
      simp [compareKeys_eq_compare, hlt, hbefore]
  · rw [hleaf.keys_eq, List.length_map, List.length_append]
    exact Nat.le_add_right _ _

theorem hasKeyAt_eq (hleaf : leaf.Holds (before ++ after)) :
    leaf.hasKeyAt key before.length = after.head?.any fun item => item.1 = key := by
  rw [BPlusTreeNode.hasKeyAt, hleaf.keys_eq, List.getElem?_map,
    List.getElem?_append_right le_rfl, Nat.sub_self, ← List.head?_eq_getElem?]
  cases after with
  | nil => rfl
  | cons item rest => simp [compareKeys_eq_iff]

end ItemsSplitAt

/-- A key is in the leaf, at the place found, or it is not. -/
theorem BPlusTreeNode.Holds.find {leaf : BPlusTreeNode} {items : List Item} {m : Positions}
    (h : leaf.Holds items) (hitems : Enumerates items m) (key : Bytes) :
    (∃ before old after, items = before ++ (key, old) :: after ∧ m key = some old ∧
      leaf.findKeyPosition key = some before.length ∧ leaf.hasKeyAt key before.length = true) ∨
    ∃ before after, items = before ++ after ∧ m key = none ∧
      leaf.findKeyPosition key = some before.length ∧ leaf.hasKeyAt key before.length = false ∧
      (∀ item ∈ before, compare item.1 key = .lt) ∧ ∀ item ∈ after, compare key item.1 = .lt := by
  obtain ⟨before, after, rfl, hsplit⟩ := hitems.exists_split key
  have hposition := hsplit.findKeyPosition_eq h
  have hhas : leaf.hasKeyAt key before.length = _ := ItemsSplitAt.hasKeyAt_eq h
  by_cases hhead : ∃ item ∈ after.head?, item.1 = key
  · obtain ⟨⟨k, old⟩, hhead, rfl⟩ := hhead
    obtain ⟨rest, rfl⟩ := List.head?_eq_some_iff.1 hhead
    have hold := (hitems.mem_iff k old).1 (List.mem_append_right _ List.mem_cons_self)
    exact .inl ⟨before, old, rest, rfl, hold, hposition, by simpa using hhas⟩
  · push Not at hhead
    obtain ⟨hnone, hafter⟩ := hsplit.eq_none hitems hhead
    refine .inr ⟨before, after, rfl, hnone, hposition, ?_, hsplit.before_lt, hafter⟩
    rw [hhas]
    cases after with
    | nil => rfl
    | cons item rest => simpa using hhead item rfl

/-! ## The operations -/

theorem insertIdx_append {α : Type} (xs ys : List α) (a : α) :
    (xs ++ ys).insertIdx xs.length a = xs ++ a :: ys := by
  induction xs with
  | nil => rfl
  | cons x xs ih => rw [List.cons_append, List.length_cons, List.insertIdx_succ_cons, ih]; rfl

namespace BPlusTreeNode.Holds

variable {leaf : BPlusTreeNode} {items before after : List Item} {m : Positions}
  {key : Bytes} {old : LogRecordPos}

theorem getElem?_values (h : leaf.Holds (before ++ (key, old) :: after)) :
    leaf.values[before.length]? = some old := by
  simp [h.values_eq]

theorem set (h : leaf.Holds (before ++ (key, old) :: after)) (pos : LogRecordPos) :
    Holds { leaf with values := leaf.values.set before.length pos }
      (before ++ (key, pos) :: after) where
  keys_eq := by simp [h.keys_eq]
  values_eq := by simp [h.values_eq]

theorem insertIdx (h : leaf.Holds (before ++ after)) (key : Bytes) (pos : LogRecordPos) :
    Holds ⟨leaf.keys.insertIdx before.length key, leaf.values.insertIdx before.length pos⟩
      (before ++ (key, pos) :: after) where
  keys_eq := by
    rw [h.keys_eq, ← insertIdx_append, List.map_insertIdx]
  values_eq := by
    rw [h.values_eq, ← insertIdx_append, List.map_insertIdx]

theorem eraseIdx (h : leaf.Holds (before ++ (key, old) :: after)) :
    Holds ⟨leaf.keys.eraseIdx before.length, leaf.values.eraseIdx before.length⟩
      (before ++ after) where
  keys_eq := by simp [h.keys_eq, List.eraseIdx_append]
  values_eq := by simp [h.values_eq, List.eraseIdx_append]

theorem insertToLeaf_eq (h : leaf.Holds items) (hitems : Enumerates items m) (key : Bytes)
    (pos : LogRecordPos) : ∃ leaf' items', leaf.insertToLeaf key pos = some (m key, leaf') ∧
      leaf'.Holds items' ∧ Enumerates items' (Function.update m key (some pos)) := by
  rcases h.find hitems key with ⟨before, old, after, rfl, hold, hposition, hhas⟩ |
    ⟨before, after, rfl, hnone, hposition, hhas, hbefore, hafter⟩
  · refine ⟨_, _, ?_, h.set pos, hitems.set pos⟩
    simp [insertToLeaf, hposition, hhas, h.getElem?_values, hold]
  · refine ⟨_, _, ?_, h.insertIdx key pos, hitems.insert pos hbefore hafter⟩
    have hle : before.length ≤ leaf.values.length := by
      simp [h.values_eq]
    simp [insertToLeaf, hposition, hhas, hle, hnone]

theorem deleteFromLeaf_eq (h : leaf.Holds items) (hitems : Enumerates items m) (key : Bytes) :
    ∃ leaf' items', leaf.deleteFromLeaf key = some ((m key, (m key).isSome), leaf') ∧
      leaf'.Holds items' ∧ Enumerates items' (Function.update m key none) := by
  rcases h.find hitems key with ⟨before, old, after, rfl, hold, hposition, hhas⟩ |
    ⟨before, after, rfl, hnone, hposition, hhas, -⟩
  · refine ⟨_, _, ?_, h.eraseIdx, hitems.erase⟩
    simp [deleteFromLeaf, hposition, hhas, h.getElem?_values, hold]
  · refine ⟨_, _, ?_, h, ?_⟩
    · simp [deleteFromLeaf, hposition, hhas, hnone]
    · rwa [← hnone, Function.update_eq_self]

theorem get_eq (h : leaf.Holds items) (hitems : Enumerates items m) (key : Bytes) :
    BPlusTreeIndex.get ⟨leaf⟩ key = some (m key) := by
  rcases h.find hitems key with ⟨before, old, after, rfl, hold, hposition, hhas⟩ |
    ⟨before, after, rfl, hnone, hposition, hhas, -⟩
  · simp [BPlusTreeIndex.get, hposition, hhas, h.getElem?_values, hold]
  · simp [BPlusTreeIndex.get, hposition, hhas, hnone]

end BPlusTreeNode.Holds

/-! ## Iterators -/

/-- The iterator of the index of type `BPLUS_TREE`: forwards it is at a place of a leaf
    of the tree, as the tree is. -/
structure BPlusTreeIterator where
  root : BPlusTreeNode
  currentLeaf : Option BPlusTreeNode
  currentIndex : ℕ
  options : IteratorOptions
  snapshot : Snapshot
  useItems : Bool

namespace BPlusTreeIterator

variable (it : BPlusTreeIterator)

/-- The key the iterator is at. -/
def currentKey : Option Bytes := do
  if it.useItems then return (← it.snapshot.item).1
  else (← it.currentLeaf).keys[it.currentIndex]?

/-- The position the iterator is at. -/
def currentValue : Option LogRecordPos := do
  if it.useItems then return (← it.snapshot.item).2
  else (← it.currentLeaf).values[it.currentIndex]?

def valid : Bool := it.currentKey.isSome

def key : Bytes := it.currentKey.getD []

def value : LogRecordPos := it.currentValue.getD ⟨0, 0, 0⟩

/-- One place on; behind the last place of the leaf there is no other leaf. -/
def advance : BPlusTreeIterator :=
  if it.currentLeaf.any fun leaf => leaf.keys.length ≤ it.currentIndex + 1 then
    { it with currentLeaf := none, currentIndex := 0 }
  else { it with currentIndex := it.currentIndex + 1 }

/-- A loop that goes on from keys of which a condition holds. -/
def pass (p : Bytes → Bool) (step : BPlusTreeIterator → Option BPlusTreeIterator) :
    ℕ → BPlusTreeIterator → Option BPlusTreeIterator
  | 0, it => if it.valid && p it.key then none else some it
  | fuel + 1, it =>
    if it.valid && p it.key then do pass p step fuel (← step it) else some it

/-- The loop that skips the keys that do not match. -/
def skipUnmatched : Option BPlusTreeIterator :=
  pass (fun key => !it.options.keyMatchesPrefix key) (fun it => some it.advance)
    it.root.keys.length it

def rewind : Option BPlusTreeIterator :=
  if it.useItems then some { it with snapshot := it.snapshot.rewind }
  else skipUnmatched { it with currentLeaf := some it.root, currentIndex := 0 }

def next : Option BPlusTreeIterator :=
  if it.useItems then some { it with snapshot := it.snapshot.next } else it.advance.skipUnmatched

def seek (key : Bytes) : Option BPlusTreeIterator :=
  if it.useItems then some { it with snapshot := it.snapshot.seek key }
  else pass (fun k => compareKeys k key = .lt) next it.root.keys.length
    { it with currentLeaf := some it.root, currentIndex := 0 }

/-- The items of a leaf whose keys match. -/
def initItems (options : IteratorOptions) : List Bytes → List LogRecordPos → Option (List Item)
  | [], _ => some []
  | key :: keys, values => do
    let items ← initItems options keys values.tail
    if options.keyMatchesPrefix key then return (key, ← values.head?) :: items else return items

def create (root : BPlusTreeNode) (options : IteratorOptions) : Option BPlusTreeIterator := do
  let items ← if options.reverse then initItems options root.keys root.values else some []
  rewind {
    root := root
    currentLeaf := none
    currentIndex := 0
    options := options
    snapshot := ⟨items.reverse, 0⟩
    useItems := options.reverse }

instance : Cursor BPlusTreeIterator Bytes Item where
  rewind := rewind
  seek := seek
  next := next
  read it := some (if it.valid then some (it.key, it.value) else none)

/-! ### Backwards -/

/-- The items ahead of an iterator that goes backwards. -/
def Backwards (all : List Item) (it : BPlusTreeIterator) (rest : List Item) : Prop :=
  it.useItems = true ∧ it.snapshot.Ahead all rest

theorem represents_backwards (all : List Item) :
    Cursor.Represents (Backwards all) all (landing false all) where
  read := by
    rintro it rest ⟨huse, hahead⟩
    show some (if it.valid then _ else _) = _
    rw [← hahead.item_eq]
    unfold valid key value currentKey currentValue
    rw [if_pos huse, if_pos huse]
    cases it.snapshot.item <;> rfl
  rewind := by
    rintro it rest ⟨huse, hahead⟩
    exact ⟨_, if_pos huse, huse, hahead.rewind⟩
  seek := by
    rintro it rest key ⟨huse, hahead⟩
    exact ⟨_, if_pos huse, huse, hahead.seek key⟩
  next := by
    rintro it rest ⟨huse, hahead⟩
    exact ⟨_, if_pos huse, huse, hahead.next⟩

/-! ### Forwards -/

/-- The items ahead of an iterator that goes forwards over a leaf. -/
structure Forwards (leaf : BPlusTreeNode) (items : List Item) (it : BPlusTreeIterator)
    (rest : List Item) : Prop where
  root_eq : it.root = leaf
  keyPrefix_eq : it.options.keyPrefix = []
  useItems_eq : it.useItems = false
  place : it.currentLeaf = some leaf ∧ rest = items.drop it.currentIndex ∨
    it.currentLeaf = none ∧ rest = []

variable {it} {leaf : BPlusTreeNode} {items rest : List Item}

/-- Without a prefix no key is skipped. -/
theorem skipUnmatched_eq (h : it.options.keyPrefix = []) : it.skipUnmatched = some it := by
  unfold skipUnmatched
  cases it.root.keys.length <;> simp [pass, IteratorOptions.keyMatchesPrefix_of_empty h]

namespace Forwards

theorem start (h : Forwards leaf items it rest) :
    Forwards leaf items { it with currentLeaf := some it.root, currentIndex := 0 } items :=
  ⟨h.root_eq, h.keyPrefix_eq, h.useItems_eq, .inl ⟨congrArg some h.root_eq, rfl⟩⟩

theorem currentKey_eq (h : Forwards leaf items it rest) (hleaf : leaf.Holds items) :
    it.currentKey = rest.head?.map Prod.fst := by
  unfold currentKey
  rw [h.useItems_eq]
  rcases h.place with ⟨hplace, rfl⟩ | ⟨hplace, rfl⟩
  · simp [hplace, hleaf.keys_eq]
  · simp [hplace]

theorem currentValue_eq (h : Forwards leaf items it rest) (hleaf : leaf.Holds items) :
    it.currentValue = rest.head?.map Prod.snd := by
  unfold currentValue
  rw [h.useItems_eq]
  rcases h.place with ⟨hplace, rfl⟩ | ⟨hplace, rfl⟩
  · simp [hplace, hleaf.values_eq]
  · simp [hplace]

theorem advance (h : Forwards leaf items it rest) (hleaf : leaf.Holds items) :
    Forwards leaf items it.advance rest.tail := by
  have hlength : leaf.keys.length = items.length := by
    rw [hleaf.keys_eq, List.length_map]
  unfold BPlusTreeIterator.advance
  rcases h.place with ⟨hplace, rfl⟩ | ⟨hplace, rfl⟩
  · split
    · -- the last item has been passed
      rename_i hlast
      rw [hplace, Option.any_some, decide_eq_true_eq, hlength] at hlast
      refine ⟨h.root_eq, h.keyPrefix_eq, h.useItems_eq, .inr ⟨rfl, ?_⟩⟩
      rw [List.tail_drop, List.drop_eq_nil_of_le hlast]
    · exact ⟨h.root_eq, h.keyPrefix_eq, h.useItems_eq, .inl ⟨hplace, List.tail_drop⟩⟩
  · split
    · exact ⟨h.root_eq, h.keyPrefix_eq, h.useItems_eq, .inr ⟨rfl, rfl⟩⟩
    · exact ⟨h.root_eq, h.keyPrefix_eq, h.useItems_eq, .inr ⟨hplace, rfl⟩⟩

theorem next (h : Forwards leaf items it rest) (hleaf : leaf.Holds items) :
    ∃ it', it.next = some it' ∧ Forwards leaf items it' rest.tail := by
  have h' := h.advance hleaf
  refine ⟨it.advance, ?_, h'⟩
  rw [BPlusTreeIterator.next, h.useItems_eq]
  exact skipUnmatched_eq h'.keyPrefix_eq

/-- The loop ends at the first item of which the condition does not hold. -/
theorem pass (h : Forwards leaf items it rest) (hleaf : leaf.Holds items) (p : Bytes → Bool)
    {fuel : ℕ} (hfuel : rest.length ≤ fuel) :
    ∃ it', BPlusTreeIterator.pass p BPlusTreeIterator.next fuel it = some it' ∧
      Forwards leaf items it' (rest.dropWhile fun item => p item.1) := by
  induction rest generalizing it fuel with
  | nil =>
    have hkey := h.currentKey_eq hleaf
    refine ⟨it, ?_, h⟩
    cases fuel <;> simp [BPlusTreeIterator.pass, valid, hkey]
  | cons item rest ih =>
    obtain ⟨fuel, rfl⟩ := Nat.exists_eq_succ_of_ne_zero (Nat.ne_zero_of_lt hfuel)
    have hkey := h.currentKey_eq hleaf
    rw [List.dropWhile_cons]
    by_cases hp : p item.1
    · obtain ⟨it₁, hnext, h₁⟩ := h.next hleaf
      obtain ⟨it', hpass, h'⟩ := ih h₁ (Nat.le_of_succ_le_succ hfuel)
      refine ⟨it', ?_, by rwa [if_pos hp]⟩
      simp [BPlusTreeIterator.pass, valid, key, hkey, hp, hnext, hpass]
    · refine ⟨it, ?_, by rwa [if_neg hp]⟩
      simp [BPlusTreeIterator.pass, valid, key, hkey, hp]

end Forwards

theorem represents_forwards (hleaf : leaf.Holds items) :
    Cursor.Represents (Forwards leaf items) items (landing false items) where
  read := by
    intro it rest h
    show some (if it.valid then _ else _) = _
    unfold valid key value
    rw [h.currentKey_eq hleaf, h.currentValue_eq hleaf]
    cases rest <;> rfl
  rewind := by
    intro it rest h
    refine ⟨{ it with currentLeaf := some it.root, currentIndex := 0 }, ?_, h.start⟩
    show it.rewind = _
    rw [rewind, h.useItems_eq]
    exact skipUnmatched_eq h.keyPrefix_eq
  seek := by
    intro it rest key h
    have hfuel : items.length ≤ it.root.keys.length := by
      rw [h.root_eq, hleaf.keys_eq, List.length_map]
    obtain ⟨it', hpass, h'⟩ := h.start.pass hleaf (fun k => compareKeys k key = .lt) hfuel
    refine ⟨it', ?_, ?_⟩
    · show it.seek key = _
      rw [seek, if_neg (by simp [h.useItems_eq])]
      exact hpass
    · simpa [landing, reaches, compareKeys_eq_compare] using h'
  next := by
    intro it rest h
    exact h.next hleaf

theorem initItems_eq {options : IteratorOptions} (h : options.keyPrefix = []) (items : List Item) :
    initItems options (items.map Prod.fst) (items.map Prod.snd) = some items := by
  induction items with
  | nil => rfl
  | cons item items ih =>
    rw [List.map_cons, List.map_cons, initItems, List.tail_cons, ih]
    simp [IteratorOptions.keyMatchesPrefix_of_empty h]

/-- A new iterator that goes backwards has all items ahead. -/
theorem create_backwards (hleaf : leaf.Holds items) :
    ∃ it, create leaf { reverse := true } = some it ∧ Backwards items.reverse it items.reverse := by
  unfold create
  rw [hleaf.keys_eq, hleaf.values_eq, if_pos rfl, initItems_eq rfl]
  exact ⟨_, rfl, rfl, rfl, rfl⟩

theorem create_forwards (leaf : BPlusTreeNode) (items : List Item) :
    ∃ it, create leaf {} = some it ∧ Forwards leaf items it items :=
  ⟨_, skipUnmatched_eq rfl, rfl, rfl, rfl, .inl ⟨rfl, rfl⟩⟩

end BPlusTreeIterator

instance : OrderedIndex BPlusTreeIndex BPlusTreeIterator where
  create := BPlusTreeIndex.create
  put := BPlusTreeIndex.put
  get := BPlusTreeIndex.get
  remove := BPlusTreeIndex.remove
  size i := some i.size
  listKeys i := some i.listKeys
  iterator i reverse := BPlusTreeIterator.create i.root { reverse := reverse }
  Models i m := ∃ items, i.root.Holds items ∧ Enumerates items m
  land _ := landing false
  models_create seed := ⟨[], ⟨rfl, rfl⟩, .nil, fun k pos => by simp [Positions.empty]⟩
  put_eq := by
    rintro i m ⟨items, hleaf, hitems⟩ k pos
    obtain ⟨leaf, items', hput, h⟩ := hleaf.insertToLeaf_eq hitems k pos
    exact ⟨⟨leaf⟩, by simp [BPlusTreeIndex.put, hput], items', h⟩
  get_eq := by
    rintro i m ⟨items, hleaf, hitems⟩ k
    exact hleaf.get_eq hitems k
  remove_eq := by
    rintro i m ⟨items, hleaf, hitems⟩ k
    obtain ⟨leaf, items', hremove, h⟩ := hleaf.deleteFromLeaf_eq hitems k
    exact ⟨⟨leaf⟩, by simp [BPlusTreeIndex.remove, hremove], items', h⟩
  items_eq := by
    rintro i m ⟨items, hleaf, hitems⟩
    refine ⟨items, hitems, ?_, congrArg some hleaf.keys_eq, fun reverse => ?_⟩
    · rw [BPlusTreeIndex.size, hleaf.keys_eq, List.length_map]
    · cases reverse with
      | true =>
        obtain ⟨it, hcreate, h⟩ := BPlusTreeIterator.create_backwards hleaf
        exact ⟨_, it, hcreate, h, BPlusTreeIterator.represents_backwards items.reverse⟩
      | false =>
        obtain ⟨it, hcreate, h⟩ := BPlusTreeIterator.create_forwards i.root items
        exact ⟨_, it, hcreate, h, BPlusTreeIterator.represents_forwards hleaf⟩

end Bitcask
