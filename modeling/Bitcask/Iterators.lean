import Bitcask.OrderedIndex
import Bitcask.SkipList

/-!
# Iterators over arrays

The iterator of the B-tree copies the items of the index to an array, and that of the
radix tree is the same. It lands where it should (`landing`), forwards and backwards.

The other iterators have such an array when they go backwards (`Snapshot`), but look
for a key in it as if it ascended: they land at `landing false` whatever the order is.
-/

namespace Bitcask

/-- The iterator of the index of type `BTREE`. -/
structure BTreeIterator where
  items : List Item
  currentIndex : ℕ
  reverse : Bool

namespace BTreeIterator

variable (it : BTreeIterator)

def create (tree : Tree) (reverse : Bool) : BTreeIterator where
  items := if reverse then tree.toList.reverse else tree.toList
  currentIndex := 0
  reverse := reverse

def rewind : BTreeIterator := { it with currentIndex := 0 }

def seek (key : Bytes) : BTreeIterator :=
  { it with
    currentIndex :=
      if it.reverse then it.items.findIdx fun item => compare item.1 key ≠ .gt
      else it.items.findIdx fun item => compare item.1 key ≠ .lt }

def next : BTreeIterator :=
  if it.currentIndex < it.items.length then { it with currentIndex := it.currentIndex + 1 } else it

def valid : Bool := it.currentIndex < it.items.length

/-- The item the iterator is at. -/
def item : Except Exn Item :=
  match it.items[it.currentIndex]? with
  | some item => .ok item
  | none => .error (.bitcask "Iterator is not valid")

def key : Except Exn Bytes := do return (← it.item).1

def value : Except Exn LogRecordPos := do return (← it.item).2

instance : Cursor BTreeIterator Bytes Item where
  rewind it := some it.rewind
  seek it key := some (it.seek key)
  next it := some it.next
  read it := if it.valid then do return some (← it.key.toOption, ← it.value.toOption) else some none

/-- The items ahead of the iterator. -/
def Ahead (all : List Item) (reverse : Bool) (it : BTreeIterator) (rest : List Item) : Prop :=
  it.items = all ∧ it.reverse = reverse ∧ rest = all.drop it.currentIndex

theorem represents (all : List Item) (reverse : Bool) :
    Cursor.Represents (Ahead all reverse) all (landing reverse all) where
  read := by
    rintro it rest ⟨rfl, -, rfl⟩
    rw [List.head?_drop]
    show (if it.valid then _ else _) = _
    unfold valid key value item
    cases h : it.items[it.currentIndex]? with
    | none =>
      have hle := List.getElem?_eq_none_iff.1 h
      simp [Nat.not_lt.2 hle]
    | some item =>
      have hlt := (List.getElem?_eq_some_iff.1 h).1
      simp [hlt]
      rfl
  rewind := by
    rintro it rest ⟨rfl, rfl, -⟩
    exact ⟨_, rfl, rfl, rfl, rfl⟩
  seek := by
    rintro it rest key ⟨rfl, rfl, -⟩
    refine ⟨_, rfl, rfl, rfl, ?_⟩
    unfold landing reaches seek
    rw [List.dropWhile_eq_drop_findIdx_not]
    cases it.reverse <;> simp
  next := by
    rintro it rest ⟨rfl, rfl, rfl⟩
    refine ⟨_, rfl, ?_⟩
    unfold next
    split
    · exact ⟨rfl, rfl, List.tail_drop⟩
    · rename_i hlt
      refine ⟨rfl, rfl, ?_⟩
      rw [List.drop_eq_nil_of_le (Nat.le_of_not_lt hlt), List.tail_nil]

end BTreeIterator

/-! ## Ordered maps -/

theorem Tree.enumerates (t : Tree) : Enumerates t.toList fun k => t[k]? where
  sorted := by
    rw [Std.TreeMap.map_fst_toList_eq_keys]
    exact Std.TreeMap.ordered_keys
  mem_iff k pos := Std.TreeMap.mem_toList_iff_getElem?_eq_some

/-- The items of an ordered map, as they are listed and gone through. -/
theorem Tree.items_eq (t : Tree) (m : Positions) (h : ∀ k, t[k]? = m k) :
    ∃ items, Enumerates items m ∧ t.size = items.length ∧ t.keys = items.map Prod.fst ∧
      ∀ reverse, ∃ (At : BTreeIterator → List Item → Prop) (c : BTreeIterator),
        some (BTreeIterator.create t reverse) = some c ∧ At c (ordered reverse items) ∧
          Cursor.Represents At (ordered reverse items) (landing reverse (ordered reverse items)) := by
  obtain rfl : (fun k => t[k]?) = m := funext h
  refine ⟨t.toList, t.enumerates, Std.TreeMap.length_toList.symm,
    Std.TreeMap.map_fst_toList_eq_keys.symm, fun reverse => ?_⟩
  exact ⟨_, _, rfl, ⟨rfl, rfl, rfl⟩, BTreeIterator.represents (ordered reverse t.toList) reverse⟩

instance : OrderedIndex BTreeIndex BTreeIterator where
  create := Indexer.create
  put i k pos := some (Indexer.put i k pos)
  get i k := some (Indexer.get i k)
  remove i k := some (Indexer.remove i k)
  size i := some (Indexer.size i)
  listKeys i := some (Indexer.listKeys i)
  iterator i reverse := some (.create i.tree reverse)
  Models i m := Indexer.toMap i = m
  land := landing
  models_create := Indexer.toMap_create
  put_eq := by
    rintro i m rfl k pos
    exact ⟨_, congrArg some (Prod.ext (Indexer.put_fst i k pos) rfl), Indexer.toMap_put i k pos⟩
  get_eq := by
    rintro i m rfl k
    rfl
  remove_eq := by
    rintro i m rfl k
    exact ⟨_, congrArg some (Prod.ext (Indexer.remove_fst i k) rfl), Indexer.toMap_remove i k⟩
  items_eq := by
    rintro i m rfl
    obtain ⟨items, hitems, hsize, hkeys, hiterator⟩ := i.tree.items_eq _ fun k => rfl
    exact ⟨items, hitems, congrArg some hsize, congrArg some hkeys, hiterator⟩

instance : OrderedIndex ARTIndex BTreeIterator where
  create := Indexer.create
  put i k pos := some (Indexer.put i k pos)
  get i k := some (Indexer.get i k)
  remove i k := some (Indexer.remove i k)
  size i := some (Indexer.size i)
  listKeys i := some (Indexer.listKeys i)
  iterator i reverse := some (.create i.simpleMap reverse)
  Models i m := Indexer.toMap i = m
  land := landing
  models_create := Indexer.toMap_create
  put_eq := by
    rintro i m rfl k pos
    exact ⟨_, congrArg some (Prod.ext (Indexer.put_fst i k pos) rfl), Indexer.toMap_put i k pos⟩
  get_eq := by
    rintro i m rfl k
    rfl
  remove_eq := by
    rintro i m rfl k
    exact ⟨_, congrArg some (Prod.ext (Indexer.remove_fst i k) rfl), Indexer.toMap_remove i k⟩
  items_eq := by
    rintro i m rfl
    obtain ⟨items, hitems, hsize, hkeys, hiterator⟩ := i.simpleMap.items_eq _ fun k => rfl
    exact ⟨items, hitems, congrArg some (i.size_eq.trans hsize), congrArg some hkeys, hiterator⟩

/-! ## The other iterators backwards -/

/-- The options of an iterator. -/
structure IteratorOptions where
  keyPrefix : Bytes := []
  reverse : Bool := false

def IteratorOptions.keyMatchesPrefix (options : IteratorOptions) (key : Bytes) : Bool :=
  if options.keyPrefix.isEmpty then true
  else if key.length < options.keyPrefix.length then false
  else options.keyPrefix = key.take options.keyPrefix.length

theorem IteratorOptions.keyMatchesPrefix_of_empty {options : IteratorOptions}
    (h : options.keyPrefix = []) (key : Bytes) : options.keyMatchesPrefix key = true := by
  simp [keyMatchesPrefix, h]

/-- The array of an iterator that goes backwards, and where the iterator is in it. -/
structure Snapshot where
  items : List Item
  index : ℕ

namespace Snapshot

variable (s : Snapshot)

def rewind : Snapshot := { s with index := 0 }

def seek (key : Bytes) : Snapshot :=
  { s with index := s.items.findIdx fun item => compareKeys item.1 key ≠ .lt }

def next : Snapshot := { s with index := s.index + 1 }

def item : Option Item := s.items[s.index]?

/-- The items ahead. -/
def Ahead (all : List Item) (s : Snapshot) (rest : List Item) : Prop :=
  s.items = all ∧ rest = all.drop s.index

variable {s} {all rest : List Item}

theorem Ahead.item_eq (h : s.Ahead all rest) : s.item = rest.head? := by
  obtain ⟨rfl, rfl⟩ := h
  rw [List.head?_drop]
  rfl

theorem Ahead.rewind (h : s.Ahead all rest) : s.rewind.Ahead all all :=
  ⟨h.1, rfl⟩

theorem Ahead.seek (h : s.Ahead all rest) (key : Bytes) :
    (s.seek key).Ahead all (landing false all key) := by
  obtain ⟨rfl, -⟩ := h
  refine ⟨rfl, ?_⟩
  unfold landing reaches Snapshot.seek
  rw [List.dropWhile_eq_drop_findIdx_not]
  simp [compareKeys_eq_compare]

theorem Ahead.next (h : s.Ahead all rest) : s.next.Ahead all rest.tail := by
  obtain ⟨rfl, rfl⟩ := h
  exact ⟨rfl, List.tail_drop⟩

end Snapshot

end Bitcask
