import Bitcask.BPlusTree
import Bitcask.SkipListIterator
import Bitcask.SkipListTrails

/-!
# Iterators while the index changes

What the iterators of the four indexes that go forwards have ahead when keys are put into
the index and removed from it under them. Those of the B-tree and of the radix tree go
through a copy. That of a skip list follows the pointers of the nodes, as they are now: what it
has ahead is a trail, even behind a node that has been removed (`tracks_skipList`). That of
a B+ tree has only a number, its place in the leaf: what it has ahead is kept as long
as no key comes in or goes away at that place or in front of it (`tracks_bPlusTree`).
-/

namespace Bitcask

open LinkedList

/-! ## Indexes that are maps -/

/-- An index, as it is computed, that is a map. -/
structure ModelledIndex (ι : Type) {It : Type} [Cursor It Bytes Item] [OrderedIndex ι It] where
  index : ι
  modelled : ∃ m, OrderedIndex.Models index m

namespace ModelledIndex

variable {ι It : Type} [Cursor It Bytes Item] [OrderedIndex ι It] (i : ModelledIndex ι)
  {m : Positions} (k : Bytes) (pos : LogRecordPos)

theorem isSome_put : (OrderedIndex.put i.index k pos).isSome := by
  obtain ⟨m, hm⟩ := i.modelled
  obtain ⟨i', hput, -⟩ := OrderedIndex.put_eq hm k pos
  rw [hput]
  rfl

theorem isSome_get : (OrderedIndex.get i.index k).isSome := by
  obtain ⟨m, hm⟩ := i.modelled
  rw [OrderedIndex.get_eq hm k]
  rfl

theorem isSome_remove : (OrderedIndex.remove i.index k).isSome := by
  obtain ⟨m, hm⟩ := i.modelled
  obtain ⟨i', hremove, -⟩ := OrderedIndex.remove_eq hm k
  rw [hremove]
  rfl

theorem isSome_size : (OrderedIndex.size i.index).isSome := by
  obtain ⟨m, hm⟩ := i.modelled
  obtain ⟨items, -, hsize, -⟩ := OrderedIndex.items_eq hm
  rw [hsize]
  rfl

theorem isSome_listKeys : (OrderedIndex.listKeys i.index).isSome := by
  obtain ⟨m, hm⟩ := i.modelled
  obtain ⟨items, -, -, hkeys, -⟩ := OrderedIndex.items_eq hm
  rw [hkeys]
  rfl

def put : Option LogRecordPos × ModelledIndex ι :=
  let x := (OrderedIndex.put i.index k pos).get (i.isSome_put k pos)
  (x.1, ⟨x.2, by
    obtain ⟨m, hm⟩ := i.modelled
    obtain ⟨i', hput, hm'⟩ := OrderedIndex.put_eq hm k pos
    simp only [x, hput, Option.get_some]
    exact ⟨_, hm'⟩⟩)

def get : Option LogRecordPos := (OrderedIndex.get i.index k).get (i.isSome_get k)

def remove : (Option LogRecordPos × Bool) × ModelledIndex ι :=
  let x := (OrderedIndex.remove i.index k).get (i.isSome_remove k)
  (x.1, ⟨x.2, by
    obtain ⟨m, hm⟩ := i.modelled
    obtain ⟨i', hremove, hm'⟩ := OrderedIndex.remove_eq hm k
    simp only [x, hremove, Option.get_some]
    exact ⟨_, hm'⟩⟩)

variable {i}

theorem put_eq : OrderedIndex.put i.index k pos =
    some ((i.put k pos).1, (i.put k pos).2.index) := by
  rw [put, Prod.mk.eta, Option.some_get]

theorem remove_eq : OrderedIndex.remove i.index k =
    some ((i.remove k).1, (i.remove k).2.index) := by
  rw [remove, Prod.mk.eta, Option.some_get]

theorem get_eq (h : OrderedIndex.Models i.index m) : i.get = m := by
  funext k
  rw [get]
  simp only [OrderedIndex.get_eq h k, Option.get_some]

theorem models_get (i : ModelledIndex ι) : OrderedIndex.Models i.index i.get := by
  obtain ⟨m, hm⟩ := i.modelled
  rwa [get_eq hm]

theorem models_put (h : OrderedIndex.Models i.index m) :
    OrderedIndex.Models (i.put k pos).2.index (Function.update m k (some pos)) ∧
      (i.put k pos).1 = m k := by
  obtain ⟨i', hput, h'⟩ := OrderedIndex.put_eq h k pos
  rw [put_eq, Option.some_inj, Prod.mk.injEq] at hput
  rw [hput.2]
  exact ⟨h', hput.1⟩

theorem models_remove (h : OrderedIndex.Models i.index m) :
    OrderedIndex.Models (i.remove k).2.index (Function.update m k none) ∧
      (i.remove k).1 = (m k, (m k).isSome) := by
  obtain ⟨i', hremove, h'⟩ := OrderedIndex.remove_eq h k
  rw [remove_eq, Option.some_inj, Prod.mk.injEq] at hremove
  rw [hremove.2]
  exact ⟨h', hremove.1⟩

instance : Indexer (ModelledIndex ι) where
  create seed := ⟨OrderedIndex.create seed, _, OrderedIndex.models_create seed⟩
  put := put
  get := get
  remove := remove
  size i := (OrderedIndex.size i.index).get i.isSome_size
  listKeys i := (OrderedIndex.listKeys i.index).get i.isSome_listKeys
  get_create seed k := by
    rw [get_eq (OrderedIndex.models_create seed)]
    rfl
  put_fst i k pos := by
    obtain ⟨m, hm⟩ := i.modelled
    rw [(models_put k pos hm).2, get_eq hm]
  get_put i k pos k' := by
    obtain ⟨m, hm⟩ := i.modelled
    rw [get_eq (models_put k pos hm).1, get_eq hm, Function.update_apply]
  remove_fst i k := by
    obtain ⟨m, hm⟩ := i.modelled
    rw [(models_remove k hm).2, get_eq hm]
  get_remove i k k' := by
    obtain ⟨m, hm⟩ := i.modelled
    rw [get_eq (models_remove k hm).1, get_eq hm, Function.update_apply]
  mem_listKeys i k := by
    obtain ⟨m, hm⟩ := i.modelled
    obtain ⟨items, hitems, -, hkeys, -⟩ := OrderedIndex.items_eq hm
    simp only [hkeys, Option.get_some, get_eq hm]
    exact hitems.isSome_iff k
  nodup_listKeys i := by
    obtain ⟨m, hm⟩ := i.modelled
    obtain ⟨items, hitems, -, hkeys, -⟩ := OrderedIndex.items_eq hm
    simp only [hkeys, Option.get_some]
    exact hitems.nodup
  size_eq i := by
    obtain ⟨m, hm⟩ := i.modelled
    obtain ⟨items, -, hsize, hkeys, -⟩ := OrderedIndex.items_eq hm
    simp only [hsize, hkeys, Option.get_some, List.length_map]

instance : OrderedIndex (ModelledIndex ι) It where
  create := Indexer.create
  put i k pos := some (Indexer.put i k pos)
  get i k := some (Indexer.get i k)
  remove i k := some (Indexer.remove i k)
  size i := OrderedIndex.size i.index
  listKeys i := OrderedIndex.listKeys i.index
  iterator i reverse := OrderedIndex.iterator i.index reverse
  Models i m := OrderedIndex.Models i.index m
  land := OrderedIndex.land ι
  models_create := OrderedIndex.models_create
  put_eq h k pos := ⟨_, congrArg some (Prod.ext (models_put k pos h).2 rfl), (models_put k pos h).1⟩
  get_eq h k := congrArg some (congrFun (get_eq h) k)
  remove_eq h k := ⟨_, congrArg some (Prod.ext (models_remove k h).2 rfl), (models_remove k h).1⟩
  items_eq h := OrderedIndex.items_eq h

end ModelledIndex

/-! ## Iterators that are moved while the index changes -/

/-- Indexes whose iterators share memory with them: `follow i c` is an iterator `c` when the index
    has become `i`. -/
class LiveIndex (ι : Type) (It : outParam Type) [Cursor It Bytes Item] [OrderedIndex ι It] where
  follow : ι → It → It

/-- A key is put into an index or removed from it. -/
inductive IndexChange
  | put (key : Bytes) (pos : LogRecordPos)
  | remove (key : Bytes)

section Tracks

variable {ι It : Type} [Cursor It Bytes Item] [OrderedIndex ι It] [LiveIndex ι It]

def ModelledIndex.apply (i : ModelledIndex ι) : IndexChange → ModelledIndex ι
  | .put key pos => (Indexer.put i key pos).2
  | .remove key => (Indexer.remove i key).2

/-- New iterators that go forwards have visited the first key, and the others are ahead:
    `Ahead i c last rest` says that `c` has visited the key `last` of the index `i`, and has
    `rest` ahead. Keys that stay in the index stay ahead when it changes, if the iterator
    `Keeps` its place. -/
structure Tracks (Ahead : ModelledIndex ι → It → Bytes → List Bytes → Prop)
    (Keeps : ModelledIndex ι → It → IndexChange → Prop) : Prop where
  ascending {i : ModelledIndex ι} {c : It} {last : Bytes} {rest : List Bytes} :
    Ahead i c last rest → (last :: rest).IsChain KeyLt
  follow {i : ModelledIndex ι} {c : It} {last : Bytes} {rest : List Bytes} :
    Ahead i c last rest → LiveIndex.follow i.index c = c
  start (i : ModelledIndex ι) : ∃ c items, OrderedIndex.iterator i.index false = some c ∧
    Enumerates items (Indexer.get i) ∧ Cursor.read c = some items.head? ∧
    ∀ item rest, items = item :: rest → Ahead i c item.1 (rest.map Prod.fst)
  next {i : ModelledIndex ι} {c : It} {last : Bytes} {rest : List Bytes} :
    Ahead i c last rest → ∃ c' item, Cursor.next c = some c' ∧ Cursor.read c' = some item ∧
      item.map Prod.fst = rest.head? ∧ ∀ key rest', rest = key :: rest' → Ahead i c' key rest'
  change {i : ModelledIndex ι} {c : It} {last : Bytes} {rest : List Bytes} (x : IndexChange) :
    Ahead i c last rest → Keeps i c x →
      ∃ rest', Ahead (i.apply x) (LiveIndex.follow (i.apply x).index c) last rest' ∧
        ∀ key ∈ rest, (Indexer.get (i.apply x) key).isSome → key ∈ rest'

/-! ### Copies -/

/-- The items that an iterator over a copy has ahead. -/
def AheadInCopy (_ : ModelledIndex ι) (c : It) (last : Bytes) (rest : List Bytes) : Prop :=
  ∃ (At : It → List Item → Prop) (all : List Item) (land : Bytes → List Item) (items : List Item),
    Cursor.Represents At all land ∧ At c items ∧ items.map Prod.fst = last :: rest ∧
      (last :: rest).IsChain KeyLt

/-- Iterators over copies keep all keys that are ahead of them, whatever the index becomes. -/
theorem tracks_copy (hfollow : ∀ (i : ι) (c : It), LiveIndex.follow i c = c) :
    Tracks (ι := ι) AheadInCopy fun _ _ _ => True where
  ascending := by
    rintro i c last rest ⟨At, all, land, items, -, -, -, hchain⟩
    exact hchain
  follow _ := hfollow _ _
  start i := by
    obtain ⟨m, hm⟩ := i.modelled
    obtain ⟨items, hitems, -, -, hiterator⟩ := OrderedIndex.items_eq hm
    obtain ⟨At, c, hc, hat, hrepresents⟩ := hiterator false
    refine ⟨c, items, hc, ?_, hrepresents.read _ _ hat, fun item rest hrest => ?_⟩
    · have hget : Indexer.get i = m := ModelledIndex.get_eq hm
      rwa [hget]
    · have hpairwise : (items.map Prod.fst).Pairwise KeyLt := hitems.sorted
      have hsorted := List.isChain_iff_pairwise.2 hpairwise
      rw [hrest] at hat hsorted
      exact ⟨At, _, _, _, hrepresents, hat, rfl, hsorted⟩
  next := by
    rintro i c last rest ⟨At, all, land, items, hrepresents, hat, hkeys, hchain⟩
    obtain ⟨c', hnext, hat'⟩ := hrepresents.next _ _ hat
    refine ⟨c', _, hnext, hrepresents.read _ _ hat', ?_, fun key rest' hrest => ?_⟩
    · rw [← List.head?_map, List.map_tail, hkeys, List.tail_cons]
    · refine ⟨At, all, land, _, hrepresents, hat', ?_, ?_⟩
      · rw [List.map_tail, hkeys, List.tail_cons, hrest]
      · rw [hrest] at hchain
        exact hchain.tail
  change := by
    rintro i c last rest x hahead -
    rw [hfollow]
    exact ⟨rest, hahead, fun _ hkey _ => hkey⟩

end Tracks

instance : LiveIndex BTreeIndex BTreeIterator := ⟨fun _ c => c⟩

instance : LiveIndex ARTIndex BTreeIterator := ⟨fun _ c => c⟩

/-! ### Places in a leaf -/

instance : LiveIndex BPlusTreeIndex BPlusTreeIterator where
  follow i c := { c with root := i.root, currentLeaf := c.currentLeaf.map fun _ => i.root }

namespace BPlusTreeIterator

/-- An iterator is at a key before another one, or has left the leaf. -/
def Before (c : BPlusTreeIterator) (key : Bytes) : Prop :=
  c.currentLeaf = none ∨ ∃ k, c.currentKey = some k ∧ KeyLt k key

/-- A new key comes in behind the place of the iterator. A key goes away behind it, or nothing is
    behind it. -/
def KeepsPlace (i : ModelledIndex BPlusTreeIndex) (c : BPlusTreeIterator) : IndexChange → Prop
  | .put key _ => Indexer.get i key = none → c.Before key
  | .remove key => (Indexer.get i key).isSome →
      c.Before key ∨ i.index.root.keys.length ≤ c.currentIndex + 1

variable {leaf leaf' : BPlusTreeNode} {items items' items₁ : List Item} {c : BPlusTreeIterator}
  {last : Bytes} {rest : List Bytes} {m : Positions}

/-- The keys behind the place of an iterator that goes forwards over a leaf, at which it has
    visited the last key, if there still is one. -/
def AheadInLeaf (i : ModelledIndex BPlusTreeIndex) (c : BPlusTreeIterator) (last : Bytes)
    (rest : List Bytes) : Prop :=
  ∃ items ahead, i.index.root.Holds items ∧ Enumerates items (Indexer.get i) ∧
    Forwards i.index.root items c ahead ∧ rest = ahead.tail.map Prod.fst ∧
    ∀ item ∈ ahead.head?, item.1 = last

/-- The iterator of a leaf that has become another one is at the same place. -/
theorem Forwards.follow (h : Forwards leaf items c items₁) (i : BPlusTreeIndex)
    (items' : List Item) : Forwards i.root items' (LiveIndex.follow i c)
      (if c.currentLeaf = none then [] else items'.drop c.currentIndex) := by
  refine ⟨rfl, h.keyPrefix_eq, h.useItems_eq, ?_⟩
  rcases h.place with ⟨hleaf, -⟩ | ⟨hleaf, -⟩
  · refine .inl ⟨?_, if_neg (by simp [hleaf])⟩
    show c.currentLeaf.map _ = _
    rw [hleaf]
    rfl
  · refine .inr ⟨?_, if_pos hleaf⟩
    show c.currentLeaf.map _ = _
    rw [hleaf]
    rfl

/-- An iterator of the leaf as it is stays as it is. -/
theorem Forwards.follow_self {i : BPlusTreeIndex} (h : Forwards i.root items c items₁) :
    LiveIndex.follow i c = c := by
  have hleaf : c.currentLeaf.map (fun _ => i.root) = c.currentLeaf := by
    rcases h.place with ⟨hleaf, -⟩ | ⟨hleaf, -⟩ <;> rw [hleaf] <;> rfl
  rw [show LiveIndex.follow i c = { c with
    root := i.root, currentLeaf := c.currentLeaf.map fun _ => i.root } from rfl, hleaf, ← h.root_eq]

theorem Forwards.sublist (h : Forwards leaf items c items₁) : items₁.Sublist items := by
  rcases h.place with ⟨-, rfl⟩ | ⟨-, rfl⟩
  · exact List.drop_sublist _ _
  · exact List.nil_sublist _

/-- A place before a key is in front of where the items are split by it. -/
theorem lt_length_of_before {before after : List Item} {index : ℕ} {key : Bytes} {item : Item}
    (hitem : ((before ++ after).drop index).head? = some item) (hlt : KeyLt item.1 key)
    (hafter : ∀ x ∈ after, ¬KeyLt x.1 key) : index < before.length := by
  by_contra hle
  rw [List.drop_append, List.drop_eq_nil_of_le (Nat.le_of_not_lt hle), List.nil_append] at hitem
  exact hafter item (List.drop_subset _ _ (List.mem_of_mem_head? hitem)) hlt

theorem exists_drop_eq_cons {α : Type} {before : List α} {index : ℕ} (h : index < before.length) :
    ∃ x xs, ∀ after, (before ++ after).drop index = x :: (xs ++ after) := by
  refine ⟨before[index], before.drop (index + 1), fun after => ?_⟩
  rw [List.drop_append_of_le_length (Nat.le_of_lt h), List.drop_eq_getElem_cons h, List.cons_append]

/-- The items behind a place are kept by a change if the key at the place is, and if the keys
    behind it that stay in the index are. -/
def KeepsBehind (index : ℕ) (items items' : List Item) (m' : Positions) : Prop :=
  (∀ last, (∀ item ∈ (items.drop index).head?, item.1 = last) →
    ∀ item ∈ (items'.drop index).head?, item.1 = last) ∧
  ∀ key ∈ (items.drop index).tail.map Prod.fst, (m' key).isSome →
    key ∈ (items'.drop index).tail.map Prod.fst

theorem AheadInLeaf.change {i i' : ModelledIndex BPlusTreeIndex}
    (hahead : Forwards i.index.root items c items₁) (hlast : ∀ item ∈ items₁.head?, item.1 = last)
    (hleaf' : i'.index.root.Holds items') (hitems' : Enumerates items' (Indexer.get i'))
    (hkeeps : c.currentLeaf ≠ none → KeepsBehind c.currentIndex items items' (Indexer.get i')) :
    ∃ rest', AheadInLeaf i' (LiveIndex.follow i'.index c) last rest' ∧
      ∀ key ∈ items₁.tail.map Prod.fst, (Indexer.get i' key).isSome → key ∈ rest' := by
  have hfollow := hahead.follow i'.index items'
  rcases hahead.place with ⟨hleaf, rfl⟩ | ⟨hleaf, rfl⟩
  · have hne : c.currentLeaf ≠ none := by simp [hleaf]
    obtain ⟨hhead, htail⟩ := hkeeps hne
    rw [if_neg hne] at hfollow
    exact ⟨_, ⟨items', _, hleaf', hitems', hfollow, rfl, hhead last hlast⟩, htail⟩
  · rw [if_pos hleaf] at hfollow
    exact ⟨_, ⟨items', _, hleaf', hitems', hfollow, rfl, fun _ hitem => by cases hitem⟩,
      fun _ hkey _ => hkey⟩

/-- The key an iterator is at is the first one from its place on. -/
theorem head?_of_currentKey (h : Forwards leaf items c items₁) (hleaf : leaf.Holds items)
    (hsome : c.currentLeaf ≠ none) {k : Bytes} (hk : c.currentKey = some k) :
    ∃ item, (items.drop c.currentIndex).head? = some item ∧ item.1 = k := by
  rw [h.currentKey_eq hleaf] at hk
  rcases h.place with ⟨-, rfl⟩ | ⟨hnone, -⟩
  · exact Option.map_eq_some_iff.1 hk
  · exact absurd hnone hsome

theorem keepsBehind_insert {before after : List Item} {index : ℕ} (item : Item) (m' : Positions)
    (h : index < before.length) : KeepsBehind index (before ++ after) (before ++ item :: after) m' := by
  obtain ⟨x, xs, hdrop⟩ := exists_drop_eq_cons h
  rw [KeepsBehind, hdrop, hdrop]
  refine ⟨fun last hlast => hlast, fun key hkey _ => ?_⟩
  rw [List.tail_cons] at hkey ⊢
  refine List.Sublist.subset (List.Sublist.map _ ?_) hkey
  exact (List.sublist_cons_self item after).append_left xs

theorem keepsBehind_erase {before after : List Item} {index : ℕ} {item : Item} {m' : Positions}
    (hitem : m' item.1 = none) (h : index < before.length) :
    KeepsBehind index (before ++ item :: after) (before ++ after) m' := by
  obtain ⟨x, xs, hdrop⟩ := exists_drop_eq_cons h
  rw [KeepsBehind, hdrop, hdrop]
  refine ⟨fun last hlast => hlast, fun key hkey hsome => ?_⟩
  rw [List.tail_cons, List.map_append] at hkey ⊢
  rw [List.map_cons] at hkey
  rcases List.mem_append.1 hkey with hkey | hkey
  · exact List.mem_append_left _ hkey
  · rcases List.mem_cons.1 hkey with rfl | hkey
    · rw [hitem] at hsome
      cases hsome
    · exact List.mem_append_right _ hkey

theorem keepsBehind_of_keys_eq (index : ℕ) (m' : Positions)
    (h : items'.map Prod.fst = items.map Prod.fst) : KeepsBehind index items items' m' := by
  have hdrop : (items'.drop index).map Prod.fst = (items.drop index).map Prod.fst := by
    rw [List.map_drop, List.map_drop, h]
  refine ⟨fun last hlast item hitem => ?_, fun key hkey _ => ?_⟩
  · have hhead : ((items.drop index).map Prod.fst).head? = some item.1 := by
      rw [← hdrop, List.head?_map, hitem]
      rfl
    rw [List.head?_map] at hhead
    obtain ⟨item', hitem', heq⟩ := Option.map_eq_some_iff.1 hhead
    rw [← heq]
    exact hlast item' hitem'
  · rwa [List.map_tail, hdrop, ← List.map_tail]

theorem keepsBehind_nil {index : ℕ} (m' : Positions) (h : items.length ≤ index + 1)
    (h' : items'.length ≤ index) : KeepsBehind index items items' m' := by
  rw [KeepsBehind, List.drop_eq_nil_of_le h', List.tail_drop, List.drop_eq_nil_of_le h]
  exact ⟨fun _ _ _ hitem => absurd hitem (by simp), fun _ hkey _ => hkey⟩

/-- A new key behind the place of the iterator comes in there. -/
theorem AheadInLeaf.put {i : ModelledIndex BPlusTreeIndex} (h : AheadInLeaf i c last rest)
    {key : Bytes} (pos : LogRecordPos) (hkeeps : KeepsPlace i c (.put key pos)) :
    ∃ rest', AheadInLeaf (i.put key pos).2 (LiveIndex.follow (i.put key pos).2.index c) last rest' ∧
      ∀ k ∈ rest, (Indexer.get (i.put key pos).2 k).isSome → k ∈ rest' := by
  obtain ⟨items, ahead, hleaf, hitems, hahead, rfl, hlast⟩ := h
  obtain ⟨leaf', items', hput, hleaf', hitems'⟩ := hleaf.insertToLeaf_eq hitems key pos
  have hindex : (i.put key pos).2.index = ⟨leaf'⟩ := by
    have hrun : BPlusTreeIndex.put i.index key pos = some (Indexer.get i key, ⟨leaf'⟩) := by
      rw [BPlusTreeIndex.put, hput]
      rfl
    exact (Prod.mk.inj (Option.some.inj ((ModelledIndex.put_eq key pos).symm.trans hrun))).2
  have hget : Indexer.get (i.put key pos).2 = Function.update (Indexer.get i) key (some pos) :=
    Indexer.toMap_put i key pos
  refine AheadInLeaf.change hahead hlast (by rwa [hindex]) (hget ▸ hitems') fun hsome => ?_
  rcases hleaf.find hitems key with ⟨before, old, after, rfl, -⟩ |
    ⟨before, after, rfl, hnone, -, -, hbefore, hafter⟩
  · obtain rfl := hitems'.unique (hitems.set pos)
    exact keepsBehind_of_keys_eq _ _ (by simp)
  · obtain rfl := hitems'.unique (hitems.insert pos hbefore hafter)
    obtain ⟨k, hk, hlt⟩ := (hkeeps hnone).resolve_left hsome
    obtain ⟨item, hitem, rfl⟩ := head?_of_currentKey hahead hleaf hsome hk
    refine keepsBehind_insert _ _ (lt_length_of_before hitem hlt fun x hx hlt' => ?_)
    exact KeyLt.irrefl key (KeyLt.trans (hafter x hx) hlt')

/-- A key goes away behind the place of the iterator, or nothing is behind it. -/
theorem AheadInLeaf.remove {i : ModelledIndex BPlusTreeIndex} (h : AheadInLeaf i c last rest)
    {key : Bytes} (hkeeps : KeepsPlace i c (.remove key)) :
    ∃ rest', AheadInLeaf (i.remove key).2 (LiveIndex.follow (i.remove key).2.index c) last rest' ∧
      ∀ k ∈ rest, (Indexer.get (i.remove key).2 k).isSome → k ∈ rest' := by
  obtain ⟨items, ahead, hleaf, hitems, hahead, rfl, hlast⟩ := h
  obtain ⟨leaf', items', hremove, hleaf', hitems'⟩ := hleaf.deleteFromLeaf_eq hitems key
  have hindex : (i.remove key).2.index = ⟨leaf'⟩ := by
    have hrun : BPlusTreeIndex.remove i.index key =
        some ((Indexer.get i key, (Indexer.get i key).isSome), ⟨leaf'⟩) := by
      rw [BPlusTreeIndex.remove, hremove]
      rfl
    exact (Prod.mk.inj (Option.some.inj ((ModelledIndex.remove_eq key).symm.trans hrun))).2
  have hget : Indexer.get (i.remove key).2 = Function.update (Indexer.get i) key none :=
    Indexer.toMap_remove i key
  refine AheadInLeaf.change hahead hlast (by rwa [hindex]) (hget ▸ hitems') fun hsome => ?_
  rcases hleaf.find hitems key with ⟨before, old, after, rfl, hold, -⟩ |
    ⟨before, after, rfl, hnone, -⟩
  · obtain rfl := hitems'.unique hitems.erase
    rcases hkeeps (by rw [hold]; rfl) with hbefore | hlength
    · obtain ⟨k, hk, hlt⟩ := hbefore.resolve_left hsome
      obtain ⟨item, hitem, rfl⟩ := head?_of_currentKey hahead hleaf hsome hk
      refine keepsBehind_erase (by rw [hget, Function.update_self]) (lt_length_of_before hitem hlt ?_)
      -- The key itself and those behind it are not before it.
      have hsorted := List.pairwise_append.1 (List.pairwise_map.1 hitems.sorted)
      refine List.forall_mem_cons.2 ⟨KeyLt.irrefl key, fun x hx hlt' => ?_⟩
      exact KeyLt.irrefl key (KeyLt.trans ((List.pairwise_cons.1 hsorted.2.1).1 x hx) hlt')
    · rw [hleaf.keys_eq, List.length_map] at hlength
      refine keepsBehind_nil _ hlength ?_
      simp only [List.length_append, List.length_cons] at hlength ⊢
      omega
  · have hsame : Function.update (Indexer.get i) key none = Indexer.get i := by
      rw [← hnone, Function.update_eq_self]
    rw [hsame] at hitems'
    obtain rfl := hitems'.unique hitems
    exact keepsBehind_of_keys_eq _ _ rfl

theorem tracks_bPlusTree : Tracks AheadInLeaf KeepsPlace where
  ascending := by
    rintro i c last rest ⟨items, ahead, hleaf, hitems, hahead, rfl, hlast⟩
    have hpairwise : (items.map Prod.fst).Pairwise KeyLt := hitems.sorted
    have hsorted := hpairwise.sublist (hahead.sublist.map _)
    cases ahead with
    | nil => exact .singleton _
    | cons item ahead =>
      rw [List.map_cons, hlast item rfl] at hsorted
      exact List.isChain_iff_pairwise.2 hsorted
  follow := by
    rintro i c last rest ⟨items, ahead, -, -, hahead, -, -⟩
    exact hahead.follow_self
  start i := by
    obtain ⟨m, items, hleaf, hitems⟩ := i.modelled
    have hget : Indexer.get i = m := ModelledIndex.get_eq ⟨items, hleaf, hitems⟩
    obtain ⟨c, hcreate, hforwards⟩ := create_forwards i.index.root items
    refine ⟨c, items, hcreate, hget ▸ hitems, (represents_forwards hleaf).read _ _ hforwards, ?_⟩
    rintro item rest rfl
    exact ⟨_, _, hleaf, hget ▸ hitems, hforwards, rfl, fun x hx => Option.some.inj hx ▸ rfl⟩
  next := by
    rintro i c last rest ⟨items, ahead, hleaf, hitems, hahead, rfl, hlast⟩
    obtain ⟨c', hnext, hahead'⟩ := hahead.next hleaf
    refine ⟨c', _, hnext, (represents_forwards hleaf).read _ _ hahead', ?_, fun key rest' hrest => ?_⟩
    · rw [List.head?_map]
    · refine ⟨items, _, hleaf, hitems, hahead', ?_, fun item hitem => ?_⟩
      · rw [List.map_tail, hrest, List.tail_cons]
      · have hhead := congrArg List.head? hrest
        rw [List.head?_map, hitem] at hhead
        exact Option.some.inj hhead
  change := by
    rintro i c last rest (⟨key, pos⟩ | ⟨key⟩) hahead hkeeps
    · exact hahead.put pos hkeeps
    · exact hahead.remove hkeeps

end BPlusTreeIterator

/-! ### Pointers -/

instance (levels : ℕ → ℕ → ℕ) : LiveIndex (SkipListMemory levels) SkipListIterator where
  follow m it := { it with nodes := m.nodes }

namespace SkipListIterator

variable {levels : ℕ → ℕ → ℕ} {it : SkipListIterator} {start : Option ℕ} {ks : List Bytes}

/-- The keys that an iterator meets that goes forwards from a node, in memory as it is. -/
def AheadInNodes (i : ModelledIndex (SkipListMemory levels)) (it : SkipListIterator)
    (last : Bytes) (rest : List Bytes) : Prop :=
  it.nodes = i.index.nodes ∧ it.options.keyPrefix = [] ∧ it.useItems = false ∧
    Trail it.nodes.keyAt (it.nodes.forward? 0) it.current (last :: rest) ∧
    (last :: rest).IsChain KeyLt

theorem exists_of_keyAt {nodes : Memory} {node : ℕ} {key : Bytes}
    (h : nodes.keyAt node = some key) : ∃ n, nodes[node]? = some n ∧ n.key = key := by
  rw [Memory.keyAt] at h
  split at h
  · cases h
  · exact Option.map_eq_some_iff.1 h

/-- Without a prefix an iterator moves to a node of a trail, and reads its key there. -/
theorem moveTo_trail (hempty : it.options.keyPrefix = []) (huse : it.useItems = false)
    (h : Trail it.nodes.keyAt (it.nodes.forward? 0) start ks) :
    ∃ item, it.moveTo start = some { it with current := start } ∧
      SkipListIterator.item { it with current := start } = some item ∧
      item.map Prod.fst = ks.head? := by
  cases h with
  | nil => exact ⟨none, by simp [moveTo, skipUnmatched], by simp [item, huse], rfl⟩
  | cons hkey _ _ =>
    obtain ⟨n, hn, rfl⟩ := exists_of_keyAt hkey
    have hmatches := IteratorOptions.keyMatchesPrefix_of_empty hempty n.key
    have hskip (fuel : ℕ) (a : ℕ) (ha : it.nodes[a]? = some n) :
        skipUnmatched it.nodes it.options fuel (some a) = some (some a) := by
      cases fuel <;> simp [skipUnmatched, ha, hmatches]
    exact ⟨some (n.key, n.pos), by simp [moveTo, hskip _ _ hn], by simp [item, huse, hn], rfl⟩

/-- A trail that has changed has the node of the iterator still in front. -/
theorem AheadInNodes.change {i i' : ModelledIndex (SkipListMemory levels)} {last : Bytes}
    {rest : List Bytes} (h : AheadInNodes i it last rest)
    (htrail : Trail i'.index.nodes.keyAt (i'.index.nodes.forward? 0) it.current ks)
    (hchain : ks.IsChain KeyLt) (hhead : ks.head? = some last)
    (hmem : ∀ key ∈ last :: rest, (Indexer.get i' key).isSome → key ∈ ks) :
    ∃ rest', AheadInNodes i' (LiveIndex.follow i'.index it) last rest' ∧
      ∀ key ∈ rest, (Indexer.get i' key).isSome → key ∈ rest' := by
  obtain ⟨-, hempty, huse, -, hchain₀⟩ := h
  obtain ⟨rest', rfl⟩ := List.head?_eq_some_iff.1 hhead
  refine ⟨rest', ⟨rfl, hempty, huse, htrail, hchain⟩, fun key hkey hsome => ?_⟩
  have hlt : KeyLt last key := (List.pairwise_cons.1 (List.isChain_iff_pairwise.1 hchain₀)).1 key hkey
  refine (List.mem_cons.1 (hmem key (List.mem_cons_of_mem _ hkey) hsome)).resolve_left ?_
  rintro rfl
  exact KeyLt.irrefl _ hlt

/-- Iterators over a skip list keep all keys that are ahead of them, also behind a node that has
    been removed. -/
theorem tracks_skipList : Tracks (ι := SkipListMemory levels) AheadInNodes fun _ _ _ => True where
  ascending := by
    rintro i it last rest ⟨-, -, -, -, hchain⟩
    exact hchain
  follow := by
    rintro i it last rest ⟨hnodes, -⟩
    rw [show LiveIndex.follow i.index it = { it with nodes := i.index.nodes } from rfl, ← hnodes]
  start i := by
    obtain ⟨-, list, cells, hlays, -⟩ := i.modelled
    have hget : Indexer.get i = Indexer.toMap list := ModelledIndex.get_eq ⟨list, cells, hlays, rfl⟩
    have hitems : list.nodes.map (fun node => (node.key, node.pos)) = cells.map itemOf := by
      rw [hlays.nodes_eq, List.map_map]
      rfl
    have henumerates := list.enumerates
    rw [hitems, ← hget] at henumerates
    obtain ⟨it, hcreate, hforwards⟩ := create_forwards hlays.stores
    refine ⟨it, _, hcreate, henumerates, (represents_forwards hlays.stores henumerates).read _ _
      hforwards, fun item rest hrest => ?_⟩
    obtain ⟨before, after, hcells, hcurrent, hall⟩ := hforwards.place
    -- All items are ahead, so none is behind.
    obtain rfl : before = [] := by
      have hlength := congrArg List.length hall
      rw [List.length_map, List.length_map, hcells, List.length_append] at hlength
      exact List.eq_nil_of_length_eq_zero (by omega)
    obtain rfl : cells = after := hcells
    have hpairwise : ((cells.map itemOf).map Prod.fst).Pairwise KeyLt := henumerates.sorted
    have hstores : Stores i.index.nodes ([] ++ cells) := hlays.stores
    have htrail := hstores.trail
    have hkeys : cells.map (fun c => c.2.key) = item.1 :: rest.map Prod.fst := by
      rw [← List.map_cons (f := Prod.fst), ← hrest, List.map_map]
      rfl
    rw [hrest] at hpairwise
    rw [hkeys, ← hcurrent, ← hforwards.nodes_eq] at htrail
    exact ⟨hforwards.nodes_eq, hforwards.keyPrefix_eq, hforwards.useItems_eq, htrail,
      List.isChain_iff_pairwise.2 hpairwise⟩
  next := by
    rintro i it last rest ⟨hnodes, hempty, huse, htrail, hchain⟩
    rcases hcurrent : it.current with _ | current
    · rw [hcurrent] at htrail
      cases htrail
    · rw [hcurrent] at htrail
      cases htrail with
      | @cons _ next _ _ hkey hnext htrail =>
        obtain ⟨item, hmove, hitem, hhead⟩ := moveTo_trail hempty huse htrail
        refine ⟨_, item, ?_, hitem, hhead, ?_⟩
        · show it.next = _
          rw [SkipListIterator.next, if_neg (by simp [huse]), hcurrent]
          exact Option.bind_eq_some_iff.2 ⟨next, hnext, hmove⟩
        · rintro key rest' rfl
          exact ⟨hnodes, hempty, huse, htrail, hchain.tail⟩
  change := by
    rintro i it last rest (⟨key, pos⟩ | ⟨key⟩) hahead -
    · obtain ⟨hnodes, hempty, huse, htrail, hchain⟩ := id hahead
      obtain ⟨-, list, cells, hlays, -⟩ := i.modelled
      have hput : i.index.put key pos = some ((i.put key pos).1, (i.put key pos).2.index) :=
        ModelledIndex.put_eq (i := i) key pos
      obtain ⟨ks, htrail', hchain', hhead, hsub⟩ :=
        hlays.trail_put hput (hnodes ▸ htrail) hchain
      exact hahead.change htrail' hchain' hhead fun key hkey _ => hsub hkey
    · obtain ⟨hnodes, hempty, huse, htrail, hchain⟩ := id hahead
      obtain ⟨-, list, cells, hlays, -⟩ := i.modelled
      have hremove : i.index.remove key = some ((i.remove key).1, (i.remove key).2.index) :=
        ModelledIndex.remove_eq (i := i) key
      obtain ⟨ks, htrail', hchain', hhead, hmem⟩ :=
        hlays.trail_remove hremove (hnodes ▸ htrail) hchain
      refine hahead.change htrail' hchain' hhead fun k hk hsome => hmem k hk ?_
      rintro rfl
      -- The key that has been removed is not in the index any more.
      have hnone : Indexer.get (i.apply (.remove k)) k = none := by
        rw [ModelledIndex.apply, Indexer.get_remove, if_pos rfl]
      rw [hnone] at hsome
      cases hsome

end SkipListIterator

end Bitcask
