import Mathlib.Tactic.Linarith
import Bitcask.LogRecord

/-!
# Indexes

What an index offers (`Indexer`): a map from keys to positions. The operations
are those of the store's interface; the fields after them say that they are the
operations of a map, which is all the rest of the development uses.

* `BTreeIndex` is an ordered map;
* `ARTIndex` is one too: its tree is not used, and its size is counted apart.
-/

namespace Bitcask

/-- An index: a map from keys to positions. The seed given to `create` is for
    indexes that draw random numbers. -/
class Indexer (ι : Type) where
  create : ℕ → ι
  put : ι → Bytes → LogRecordPos → Option LogRecordPos × ι
  get : ι → Bytes → Option LogRecordPos
  remove : ι → Bytes → (Option LogRecordPos × Bool) × ι
  size : ι → ℕ
  listKeys : ι → List Bytes
  get_create (seed : ℕ) (k : Bytes) : get (create seed) k = none
  put_fst (i : ι) (k : Bytes) (pos : LogRecordPos) : (put i k pos).1 = get i k
  get_put (i : ι) (k : Bytes) (pos : LogRecordPos) (k' : Bytes) :
    get (put i k pos).2 k' = if k' = k then some pos else get i k'
  remove_fst (i : ι) (k : Bytes) : (remove i k).1 = (get i k, (get i k).isSome)
  get_remove (i : ι) (k k' : Bytes) :
    get (remove i k).2 k' = if k' = k then none else get i k'
  mem_listKeys (i : ι) (k : Bytes) : k ∈ listKeys i ↔ (get i k).isSome
  nodup_listKeys (i : ι) : (listKeys i).Nodup
  size_eq (i : ι) : size i = (listKeys i).length

/-- The map of an index. -/
def Indexer.toMap {ι : Type} [Indexer ι] (i : ι) : Bytes → Option LogRecordPos := get i

/-! ## The ordered map -/

/-- The ordered maps of the standard library, at keys and positions. -/
abbrev Tree := Std.TreeMap Bytes LogRecordPos

theorem Tree.getElem?_insert (t : Tree) (k k' : Bytes) (pos : LogRecordPos) :
    (t.insert k pos)[k']? = if k' = k then some pos else t[k']? := by
  rw [Std.TreeMap.getElem?_insert]
  exact if_congr (Std.LawfulEqCmp.compare_eq_iff_eq.trans eq_comm) rfl rfl

theorem Tree.getElem?_erase (t : Tree) (k k' : Bytes) :
    (t.erase k)[k']? = if k' = k then none else t[k']? := by
  rw [Std.TreeMap.getElem?_erase]
  exact if_congr (Std.LawfulEqCmp.compare_eq_iff_eq.trans eq_comm) rfl rfl

theorem Tree.mem_keys_iff (t : Tree) (k : Bytes) : k ∈ t.keys ↔ t[k]?.isSome := by
  rw [Std.TreeMap.mem_keys, Std.TreeMap.mem_iff_isSome_getElem?]

/-- The index of type `BTREE`. -/
structure BTreeIndex where
  tree : Tree

instance : Indexer BTreeIndex where
  create _ := ⟨∅⟩
  put i k pos := (i.tree[k]?, ⟨i.tree.insert k pos⟩)
  get i k := i.tree[k]?
  remove i k :=
    match i.tree[k]? with
    | some oldPos => ((some oldPos, true), ⟨i.tree.erase k⟩)
    | none => ((none, false), i)
  size i := i.tree.size
  listKeys i := i.tree.keys
  get_create _ _ := Std.TreeMap.getElem?_emptyc
  put_fst _ _ _ := rfl
  get_put i k pos k' := i.tree.getElem?_insert k k' pos
  remove_fst i k := by
    split <;> simp [*]
  get_remove i k k' := by
    split
    · exact i.tree.getElem?_erase k k'
    · split
      · simp [*]
      · rfl
  mem_listKeys i k := i.tree.mem_keys_iff k
  nodup_listKeys i := Std.TreeMap.nodup_keys
  size_eq i := Std.TreeMap.length_keys.symm

/-! ## The radix tree -/

/-- The index of type `ART`. -/
structure ARTIndex where
  simpleMap : Tree
  size : ℕ
  size_eq : size = simpleMap.size

namespace ARTIndex

def put (i : ARTIndex) (k : Bytes) (pos : LogRecordPos) : Option LogRecordPos × ARTIndex :=
  (i.simpleMap[k]?, {
    simpleMap := i.simpleMap.insert k pos
    size := if k ∈ i.simpleMap then i.size else i.size + 1
    size_eq := by
      simp only [Std.TreeMap.size_insert, i.size_eq, Std.TreeMap.mem_iff_contains] })

def remove (i : ARTIndex) (k : Bytes) : (Option LogRecordPos × Bool) × ARTIndex :=
  if h : k ∈ i.simpleMap then
    ((i.simpleMap[k]?, true), {
      simpleMap := i.simpleMap.erase k
      size := i.size - 1
      size_eq := by
        rw [Std.TreeMap.size_erase, if_pos (Std.TreeMap.mem_iff_contains.1 h), i.size_eq] })
  else ((none, false), i)

end ARTIndex

instance : Indexer ARTIndex where
  create _ := ⟨∅, 0, rfl⟩
  put := ARTIndex.put
  get i k := i.simpleMap[k]?
  remove := ARTIndex.remove
  size := ARTIndex.size
  listKeys i := i.simpleMap.keys
  get_create _ _ := Std.TreeMap.getElem?_emptyc
  put_fst _ _ _ := rfl
  get_put i k pos k' := i.simpleMap.getElem?_insert k k' pos
  remove_fst i k := by
    unfold ARTIndex.remove
    split <;> simp [*]
  get_remove i k k' := by
    unfold ARTIndex.remove
    split
    · exact i.simpleMap.getElem?_erase k k'
    · split
      · simp [*]
      · rfl
  mem_listKeys i k := i.simpleMap.mem_keys_iff k
  nodup_listKeys i := Std.TreeMap.nodup_keys
  size_eq i := by rw [i.size_eq, Std.TreeMap.length_keys]

end Bitcask
