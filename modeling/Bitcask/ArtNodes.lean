import Bitcask.Common
import Bitcask.Library.ShiftedArray

/-!
# The nodes of the radix tree

The four kinds of inner nodes, each with its own layout of the children under
their bytes: keys in order beside their children (`ARTNode4`, `ARTNode16`), a table
from bytes to places (`ARTNode48`), and a child for every byte (`ARTNode256`). The
arrays of the layouts are functions of the index, and the pointers of the children
are values that may be missing.

* What a kind demands of its layout (`SortedNode.Valid`, `ARTNode48.Valid`) is kept
  by adding and removing children and by growing.
* Below it, a node is the map of its children: `findChild_addChild`,
  `findChild_removeChild` and `findChild_grow` say of each kind what is found after
  a step.
-/

namespace Bitcask

open ShiftedArray

/-! ## Layouts -/

/-- What every inner node has: the number of its children, and the bytes of the
    keys below it that it takes itself, with their number. -/
structure ARTNodeBase where
  numChildren : UInt8 := 0
  prefixLen : UInt8 := 0
  prefixBytes : Bytes := []

/-- A node with its keys in order: the first `numChildren` entries of two arrays
    of `capacity` entries. -/
structure SortedNode (capacity : ℕ) (α : Type) extends ARTNodeBase where
  keys : ℕ → UInt8 := fun _ => 0
  children : ℕ → Option α := fun _ => none

abbrev ARTNode4 := SortedNode 4
abbrev ARTNode16 := SortedNode 16

/-- A node with a table from keys to places, counted from one, in an array of 48
    children. -/
structure ARTNode48 (α : Type) extends ARTNodeBase where
  keyIndices : UInt8 → UInt8 := fun _ => 0
  children : ℕ → Option α := fun _ => none

/-- A node with a child for every byte. -/
structure ARTNode256 (α : Type) extends ARTNodeBase where
  children : UInt8 → Option α := fun _ => none

variable {α : Type}

namespace SortedNode

variable {capacity : ℕ} (n : SortedNode capacity α)

/-- The index of a key among the children, or their number. -/
def indexOf (key : UInt8) : ℕ := firstIndex (fun i => n.keys i == key) n.numChildren.toNat

def findChild (key : UInt8) : Option α :=
  if n.indexOf key < n.numChildren.toNat then n.children (n.indexOf key) else none

def addChild (key : UInt8) (child : Option α) : SortedNode capacity α :=
  let num := n.numChildren.toNat
  if num < capacity then
    let pos := firstIndex (fun i => n.keys i > key) num
    { n with
      keys := insert pos num key n.keys
      children := insert pos num child n.children
      numChildren := n.numChildren + 1 }
  else n

def removeChild (key : UInt8) : SortedNode capacity α :=
  let num := n.numChildren.toNat
  let i := n.indexOf key
  if i < num then
    { n with
      keys := erase i num n.keys
      children := erase i num n.children
      numChildren := n.numChildren - 1 }
  else n

def isFull : Bool := n.numChildren.toNat == capacity

end SortedNode

def ARTNode4.grow (n : ARTNode4 α) : ARTNode16 α where
  toARTNodeBase := n.toARTNodeBase
  keys i := if i < n.numChildren.toNat then n.keys i else 0
  children i := if i < n.numChildren.toNat then n.children i else none

/-- The table of the places of keys: the loop of `grow`. -/
def ARTNode16.indicesOf (keys : ℕ → UInt8) (num : ℕ) : UInt8 → UInt8 :=
  (List.range num).foldl (fun (indices : UInt8 → UInt8) i =>
    Function.update indices (keys i) (UInt8.ofNat (i + 1))) fun _ => 0

def ARTNode16.grow (n : ARTNode16 α) : ARTNode48 α where
  toARTNodeBase := n.toARTNodeBase
  keyIndices := indicesOf n.keys n.numChildren.toNat
  children i := if i < n.numChildren.toNat then n.children i else none

namespace ARTNode48

variable (n : ARTNode48 α)

def findChild (key : UInt8) : Option α :=
  if n.keyIndices key ≠ 0 then n.children ((n.keyIndices key).toNat - 1) else none

def addChild (key : UInt8) (child : Option α) : ARTNode48 α :=
  if n.numChildren.toNat < 48 then
    { n with
      keyIndices := Function.update n.keyIndices key (n.numChildren + 1)
      children := Function.update n.children n.numChildren.toNat child
      numChildren := n.numChildren + 1 }
  else n

def removeChild (key : UInt8) : ARTNode48 α :=
  let index := n.keyIndices key
  if index ≠ 0 then
    let num := n.numChildren.toNat
    let cleared := Function.update n.keyIndices key 0
    { n with
      keyIndices := fun k => if cleared k > index then cleared k - 1 else cleared k
      children := Function.update (erase (index.toNat - 1) num n.children) (num - 1) none
      numChildren := n.numChildren - 1 }
  else n

def isFull : Bool := n.numChildren.toNat == 48

def grow : ARTNode256 α where
  toARTNodeBase := n.toARTNodeBase
  children key :=
    if n.keyIndices key ≠ 0 then n.children ((n.keyIndices key).toNat - 1) else none

end ARTNode48

namespace ARTNode256

variable (n : ARTNode256 α)

def findChild (key : UInt8) : Option α := n.children key

/-- The number of children is one of a byte, and 256 children are counted as none. -/
def addChild (key : UInt8) (child : Option α) : ARTNode256 α :=
  { n with
    children := Function.update n.children key child
    numChildren := if (n.children key).isNone then n.numChildren + 1 else n.numChildren }

def removeChild (key : UInt8) : ARTNode256 α :=
  if (n.children key).isSome then
    { n with
      children := Function.update n.children key none
      numChildren := n.numChildren - 1 }
  else n

end ARTNode256

/-- An inner node of the tree. -/
inductive ARTNode (α : Type)
  | node4 (n : SortedNode 4 α)
  | node16 (n : SortedNode 16 α)
  | node48 (n : ARTNode48 α)
  | node256 (n : ARTNode256 α)

namespace ARTNode

def base : ARTNode α → ARTNodeBase
  | node4 n => n.toARTNodeBase
  | node16 n => n.toARTNodeBase
  | node48 n => n.toARTNodeBase
  | node256 n => n.toARTNodeBase

def findChild : ARTNode α → UInt8 → Option α
  | node4 n, key => n.findChild key
  | node16 n, key => n.findChild key
  | node48 n, key => n.findChild key
  | node256 n, key => n.findChild key

def addChild : ARTNode α → UInt8 → Option α → ARTNode α
  | node4 n, key, child => node4 (n.addChild key child)
  | node16 n, key, child => node16 (n.addChild key child)
  | node48 n, key, child => node48 (n.addChild key child)
  | node256 n, key, child => node256 (n.addChild key child)

def removeChild : ARTNode α → UInt8 → ARTNode α
  | node4 n, key => node4 (n.removeChild key)
  | node16 n, key => node16 (n.removeChild key)
  | node48 n, key => node48 (n.removeChild key)
  | node256 n, key => node256 (n.removeChild key)

def isFull : ARTNode α → Bool
  | node4 n => n.isFull
  | node16 n => n.isFull
  | node48 n => n.isFull
  | node256 _ => false

/-- The next larger kind of node; the largest kind has none. -/
def grow : ARTNode α → Option (ARTNode α)
  | node4 n => some (node16 (ARTNode4.grow n))
  | node16 n => some (node48 (ARTNode16.grow n))
  | node48 n => some (node256 n.grow)
  | node256 _ => none

end ARTNode

/-! ## Nodes in order -/

namespace SortedNode

variable {capacity : ℕ} {n : SortedNode capacity α}

/-- The children are there, under keys in order. -/
structure Valid (n : SortedNode capacity α) : Prop where
  num_le : n.numChildren.toNat ≤ capacity
  ascending : Ascending n.numChildren.toNat n.keys
  live : ∀ i < n.numChildren.toNat, (n.children i).isSome

theorem keys_indexOf {key : UInt8} (h : n.indexOf key < n.numChildren.toNat) :
    n.keys (n.indexOf key) = key :=
  eq_of_beq (firstIndex_spec (p := fun i => n.keys i == key) h)

theorem Valid.findChild_eq_some (hn : n.Valid) {key : UInt8} {c : α} :
    n.findChild key = some c ↔
      ∃ i < n.numChildren.toNat, n.keys i = key ∧ n.children i = some c := by
  unfold findChild
  constructor
  · intro h
    split at h
    · rename_i hlt
      exact ⟨_, hlt, keys_indexOf hlt, h⟩
    · cases h
  · rintro ⟨i, hi, hkey, hchild⟩
    have hlt : n.indexOf key < n.numChildren.toNat :=
      firstIndex_lt_iff.2 ⟨i, hi, by simpa using hkey⟩
    rw [if_pos hlt, hn.ascending.injOn hlt hi ((keys_indexOf hlt).trans hkey.symm), hchild]

theorem Valid.keys_ne (hn : n.Valid) {key : UInt8} (h : n.findChild key = none) :
    ∀ i < n.numChildren.toNat, n.keys i ≠ key := by
  intro i hi heq
  obtain ⟨c, hc⟩ := Option.isSome_iff_exists.1 (hn.live i hi)
  rw [hn.findChild_eq_some.2 ⟨i, hi, heq, hc⟩] at h
  cases h

section Add

variable (hn : n.Valid) (hcap : capacity < 256) (hfull : n.numChildren.toNat < capacity)
include hfull

theorem keys_addChild (key : UInt8) (child : Option α) : (n.addChild key child).keys =
    insert (firstIndex (fun i => n.keys i > key) n.numChildren.toNat) n.numChildren.toNat key
      n.keys := by
  rw [addChild, if_pos hfull]

theorem children_addChild (key : UInt8) (child : Option α) : (n.addChild key child).children =
    insert (firstIndex (fun i => n.keys i > key) n.numChildren.toNat) n.numChildren.toNat child
      n.children := by
  rw [addChild, if_pos hfull]

theorem numChildren_addChild (key : UInt8) (child : Option α) :
    (n.addChild key child).numChildren = n.numChildren + 1 := by
  rw [addChild, if_pos hfull]

include hcap

theorem num_addChild (key : UInt8) (child : Option α) :
    (n.addChild key child).numChildren.toNat = n.numChildren.toNat + 1 := by
  rw [numChildren_addChild hfull, UInt8.toNat_add]
  exact Nat.mod_eq_of_lt (by show n.numChildren.toNat + 1 < 256; omega)

include hn

theorem Valid.addChild {key : UInt8} (h : n.findChild key = none) (c : α) :
    (n.addChild key (some c)).Valid where
  num_le := by
    rw [num_addChild hcap hfull]
    omega
  ascending := by
    rw [num_addChild hcap hfull, keys_addChild hfull]
    exact hn.ascending.insert (hn.keys_ne h)
  live i hi := by
    rw [num_addChild hcap hfull] at hi
    rw [children_addChild hfull, insert_apply]
    split
    · rfl
    · split
      · exact hn.live _ (by omega)
      · have hle := firstIndex_le (fun i => decide (n.keys i > key)) n.numChildren.toNat
        exact hn.live _ (by omega)

theorem Valid.findChild_addChild {key : UInt8} (h : n.findChild key = none) (c : α) (k : UInt8) :
    (n.addChild key (some c)).findChild k = if k = key then some c else n.findChild k := by
  refine Option.ext fun d => ?_
  rw [(hn.addChild hcap hfull h c).findChild_eq_some, num_addChild hcap hfull,
    keys_addChild hfull, children_addChild hfull,
    exists_insert_iff (fun k' c' => k' = k ∧ c' = some d) (firstIndex_le _ _),
    ← hn.findChild_eq_some]
  split
  · rename_i hk
    subst hk
    simp [h]
  · rename_i hk
    simp [Ne.symm hk]

end Add

section Remove

variable (hn : n.Valid) {key : UInt8} (hkey : n.indexOf key < n.numChildren.toNat)
include hkey

theorem keys_removeChild :
    (n.removeChild key).keys = erase (n.indexOf key) n.numChildren.toNat n.keys := by
  rw [removeChild, if_pos hkey]

theorem children_removeChild :
    (n.removeChild key).children = erase (n.indexOf key) n.numChildren.toNat n.children := by
  rw [removeChild, if_pos hkey]

theorem numChildren_removeChild : (n.removeChild key).numChildren = n.numChildren - 1 := by
  rw [removeChild, if_pos hkey]

theorem num_removeChild : (n.removeChild key).numChildren.toNat = n.numChildren.toNat - 1 := by
  rw [numChildren_removeChild hkey]
  exact UInt8.toNat_sub_of_le _ _ (UInt8.le_iff_toNat_le.2 (by show 1 ≤ _; omega))

include hn

theorem Valid.removeChild_of_lt : (n.removeChild key).Valid where
  num_le := by
    rw [num_removeChild hkey]
    exact (Nat.sub_le _ _).trans hn.num_le
  ascending := by
    rw [num_removeChild hkey, keys_removeChild hkey]
    exact hn.ascending.erase _
  live i hi := by
    rw [num_removeChild hkey] at hi
    rw [children_removeChild hkey, erase_apply]
    split
    · exact hn.live _ (by omega)
    · exact hn.live _ (by omega)

theorem Valid.findChild_removeChild_of_lt (k : UInt8) :
    (n.removeChild key).findChild k = if k = key then none else n.findChild k := by
  refine Option.ext fun d => ?_
  rw [(hn.removeChild_of_lt hkey).findChild_eq_some, num_removeChild hkey, keys_removeChild hkey,
    children_removeChild hkey, exists_erase_iff (fun k' c' => k' = k ∧ c' = some d) hkey]
  split
  · rename_i hk
    -- the key is nowhere else
    simp only [reduceCtorEq, iff_false, not_exists, not_and]
    intro j hj hne hkeys
    exact absurd (hn.ascending.injOn hj hkey (hkeys.trans (hk.trans (keys_indexOf hkey).symm))) hne
  · rename_i hk
    rw [hn.findChild_eq_some]
    refine exists_congr fun j => and_congr_right fun hj => and_iff_right_of_imp ?_
    rintro ⟨hkeys, -⟩ rfl
    exact hk (hkeys.symm.trans (keys_indexOf hkey))

end Remove

theorem Valid.removeChild (hn : n.Valid) (key : UInt8) : (n.removeChild key).Valid := by
  by_cases hkey : n.indexOf key < n.numChildren.toNat
  · exact hn.removeChild_of_lt hkey
  · rwa [SortedNode.removeChild, if_neg hkey]

theorem Valid.findChild_removeChild (hn : n.Valid) (key k : UInt8) :
    (n.removeChild key).findChild k = if k = key then none else n.findChild k := by
  by_cases hkey : n.indexOf key < n.numChildren.toNat
  · exact hn.findChild_removeChild_of_lt hkey k
  · have hnone : n.findChild key = none := if_neg hkey
    rw [SortedNode.removeChild, if_neg hkey]
    split
    · rename_i hk
      rw [hk, hnone]
    · rfl

/-- A child that is there is counted. -/
theorem Valid.isSome_findChild (hn : n.Valid) (key : UInt8) :
    (n.findChild key).isSome ↔ n.indexOf key < n.numChildren.toNat := by
  unfold findChild
  split
  · simp [*, hn.live]
  · simp [*]

theorem Valid.numChildren_removeChild (hn : n.Valid) (key : UInt8) :
    (n.removeChild key).numChildren =
      if (n.findChild key).isSome then n.numChildren - 1 else n.numChildren := by
  by_cases hkey : n.indexOf key < n.numChildren.toNat
  · rw [if_pos ((hn.isSome_findChild key).2 hkey), SortedNode.numChildren_removeChild hkey]
  · rw [if_neg (mt (hn.isSome_findChild key).1 hkey), SortedNode.removeChild, if_neg hkey]

end SortedNode

namespace ARTNode4

variable {n : ARTNode4 α}

theorem valid_grow (hn : n.Valid) : (grow n).Valid where
  num_le := by
    have := hn.num_le
    show n.numChildren.toNat ≤ 16
    omega
  ascending i j hij hj := by
    have hj' : j < n.numChildren.toNat := hj
    simp only [grow, if_pos hj', if_pos (hij.trans hj')]
    exact hn.ascending i j hij hj
  live i hi := by
    have hi' : i < n.numChildren.toNat := hi
    simp only [grow, if_pos hi']
    exact hn.live i hi

theorem findChild_grow (hn : n.Valid) (k : UInt8) : (grow n).findChild k = n.findChild k := by
  refine Option.ext fun d => ?_
  rw [(valid_grow hn).findChild_eq_some, hn.findChild_eq_some]
  refine exists_congr fun i => and_congr_right fun hi => ?_
  have hi' : i < n.numChildren.toNat := hi
  simp only [grow, if_pos hi']

end ARTNode4

/-! ## Nodes with a table -/

namespace ARTNode48

variable {n : ARTNode48 α}

/-- Every key of the table has a place of its own among the children that are there. -/
structure Valid (n : ARTNode48 α) : Prop where
  num_le : n.numChildren.toNat ≤ 48
  index_le : ∀ k, (n.keyIndices k).toNat ≤ n.numChildren.toNat
  index_inj : ∀ k k', n.keyIndices k ≠ 0 → n.keyIndices k = n.keyIndices k' → k = k'
  live : ∀ i < n.numChildren.toNat, (n.children i).isSome

theorem toNat_pos {i : UInt8} (h : i ≠ 0) : 0 < i.toNat :=
  Nat.pos_of_ne_zero fun h0 => h (UInt8.toNat_inj.1 h0)

theorem Valid.findChild_eq_none (hn : n.Valid) {key : UInt8} :
    n.findChild key = none ↔ n.keyIndices key = 0 := by
  unfold findChild
  by_cases h : n.keyIndices key = 0
  · simp [h]
  · have hpos := toNat_pos h
    have hle := hn.index_le key
    have hlive := hn.live ((n.keyIndices key).toNat - 1) (by omega)
    rw [if_pos h, iff_false_right h]
    exact Option.ne_none_iff_isSome.2 hlive

section Add

variable (hfull : n.numChildren.toNat < 48)
include hfull

theorem toNat_num_succ : (n.numChildren + 1).toNat = n.numChildren.toNat + 1 := by
  rw [UInt8.toNat_add]
  exact Nat.mod_eq_of_lt (by show n.numChildren.toNat + 1 < 256; omega)

theorem Valid.addChild (hn : n.Valid) (key : UInt8) (c : α) : (n.addChild key (some c)).Valid := by
  have hnum := toNat_num_succ hfull
  rw [ARTNode48.addChild, if_pos hfull]
  refine ⟨?_, fun k => ?_, fun k k' => ?_, fun i hi => ?_⟩
  · show (n.numChildren + 1).toNat ≤ 48
    omega
  · have := hn.index_le k
    simp only [Function.update_apply]
    split <;> omega
  · -- the new index is greater than all the others
    have hlt (k : UInt8) : n.keyIndices k ≠ n.numChildren + 1 := by
      intro heq
      have := hn.index_le k
      rw [heq] at this
      omega
    simp only [Function.update_apply]
    split <;> split
    · exact fun _ _ => by simp [*]
    · exact fun _ h => absurd h.symm (hlt k')
    · exact fun _ h => absurd h (hlt k)
    · exact hn.index_inj k k'
  · have hi' : i < (n.numChildren + 1).toNat := hi
    simp only [Function.update_apply]
    split
    · rfl
    · exact hn.live i (by omega)

theorem Valid.findChild_addChild (hn : n.Valid) (key : UInt8) (c : α) (k : UInt8) :
    (n.addChild key (some c)).findChild k = if k = key then some c else n.findChild k := by
  have hnum := toNat_num_succ hfull
  rw [ARTNode48.addChild, if_pos hfull]
  simp only [findChild, Function.update_apply]
  split
  · have hne : n.numChildren + 1 ≠ 0 := by
      intro h0
      rw [h0] at hnum
      exact absurd hnum (Nat.succ_ne_zero _).symm
    rw [if_pos hne, hnum, Nat.add_sub_cancel, if_pos rfl]
  · split
    · rename_i h
      have hpos := toNat_pos h
      have hle := hn.index_le k
      rw [if_neg (by omega)]
    · rfl

end Add

section Remove

variable {key : UInt8} (hkey : n.keyIndices key ≠ 0)
include hkey

/-- The places behind the one of the key removed move down. -/
theorem toNat_keyIndices_removeChild (k : UInt8) :
    ((n.removeChild key).keyIndices k).toNat =
      if k = key then 0
      else if (n.keyIndices key).toNat < (n.keyIndices k).toNat then (n.keyIndices k).toNat - 1
      else (n.keyIndices k).toNat := by
  rw [removeChild, if_pos hkey]
  simp only [Function.update_apply, GT.gt, UInt8.lt_iff_toNat_lt]
  split
  · rw [if_neg (by simp)]
    rfl
  · split
    · exact UInt8.toNat_sub_of_le _ _ (UInt8.le_iff_toNat_le.2 (by show 1 ≤ _; omega))
    · rfl

theorem children_removeChild {i : ℕ} (hi : i < n.numChildren.toNat - 1) :
    (n.removeChild key).children i =
      if (n.keyIndices key).toNat - 1 ≤ i then n.children (i + 1) else n.children i := by
  rw [removeChild, if_pos hkey]
  simp only [Function.update_apply, if_neg (show ¬i = n.numChildren.toNat - 1 by omega),
    erase_apply, hi, and_true]

variable (hn : n.Valid)
include hn

theorem Valid.num_removeChild :
    (n.removeChild key).numChildren.toNat = n.numChildren.toNat - 1 := by
  have hpos := toNat_pos hkey
  have hle := hn.index_le key
  rw [removeChild, if_pos hkey]
  exact UInt8.toNat_sub_of_le _ _ (UInt8.le_iff_toNat_le.2 (by show 1 ≤ _; omega))

/-- Another key has another place. -/
theorem Valid.toNat_ne {k : UInt8} (hk : k ≠ key) :
    (n.keyIndices k).toNat ≠ (n.keyIndices key).toNat :=
  fun heq => hk (hn.index_inj key k hkey (UInt8.toNat_inj.1 heq.symm)).symm

theorem Valid.removeChild_of_ne : (n.removeChild key).Valid := by
  have hpos := toNat_pos hkey
  have hle := hn.index_le key
  refine ⟨?_, fun k => ?_, fun k k' hk heq => ?_, fun i hi => ?_⟩
  · rw [hn.num_removeChild hkey]
    exact (Nat.sub_le _ _).trans hn.num_le
  · rw [hn.num_removeChild hkey, toNat_keyIndices_removeChild hkey]
    have := hn.index_le k
    split
    · omega
    · rename_i hne
      have := hn.toNat_ne hkey hne
      split <;> omega
  · have hpos' := toNat_pos hk
    have hindex := toNat_keyIndices_removeChild hkey k
    have hindex' := toNat_keyIndices_removeChild hkey k'
    rw [← heq] at hindex'
    -- neither of them is the key removed, which has no index any more
    have hne : k ≠ key := by
      rintro rfl
      rw [if_pos rfl] at hindex
      omega
    have hne' : k' ≠ key := by
      rintro rfl
      rw [if_pos rfl] at hindex'
      omega
    rw [if_neg hne] at hindex
    rw [if_neg hne'] at hindex'
    have h1 := hn.toNat_ne hkey hne
    have h2 := hn.toNat_ne hkey hne'
    have hsame : (n.keyIndices k).toNat = (n.keyIndices k').toNat := by
      split at hindex <;> split at hindex' <;> omega
    refine hn.index_inj k k' (fun h0 => ?_) (UInt8.toNat_inj.1 hsame)
    rw [h0, UInt8.toNat_zero] at hindex
    split at hindex <;> omega
  · rw [hn.num_removeChild hkey] at hi
    rw [children_removeChild hkey hi]
    split
    · exact hn.live _ (by omega)
    · exact hn.live _ (by omega)

theorem Valid.findChild_removeChild_of_ne (k : UInt8) :
    (n.removeChild key).findChild k = if k = key then none else n.findChild k := by
  have hpos := toNat_pos hkey
  have hle := hn.index_le key
  have hindex := toNat_keyIndices_removeChild hkey k
  have hzero (i : UInt8) : i = 0 ↔ i.toNat = 0 := UInt8.toNat_inj.symm
  simp only [findChild]
  by_cases hk : k = key
  · rw [if_pos hk] at hindex
    rw [if_pos hk, if_neg (not_not.2 ((hzero _).2 hindex))]
  · rw [if_neg hk] at hindex ⊢
    have hother := hn.toNat_ne hkey hk
    have hlek := hn.index_le k
    simp only [ne_eq, hzero, hindex]
    split
    · rename_i hbehind
      rw [if_pos (by omega), if_pos (by omega), children_removeChild hkey (by omega),
        if_pos (by omega)]
      congr 1
      omega
    · rename_i hfront
      split
      · rw [children_removeChild hkey (by omega), if_neg (by omega)]
      · rfl

end Remove

theorem removeChild_of_eq_zero {key : UInt8} (h : n.keyIndices key = 0) :
    n.removeChild key = n :=
  if_neg (not_not.2 h)

theorem Valid.removeChild (hn : n.Valid) (key : UInt8) : (n.removeChild key).Valid := by
  by_cases hkey : n.keyIndices key = 0
  · rwa [removeChild_of_eq_zero hkey]
  · exact hn.removeChild_of_ne hkey

theorem Valid.findChild_removeChild (hn : n.Valid) (key k : UInt8) :
    (n.removeChild key).findChild k = if k = key then none else n.findChild k := by
  by_cases hkey : n.keyIndices key = 0
  · rw [removeChild_of_eq_zero hkey]
    split
    · rename_i hk
      rw [hk, hn.findChild_eq_none.2 hkey]
    · rfl
  · exact hn.findChild_removeChild_of_ne hkey k

theorem Valid.numChildren_removeChild (hn : n.Valid) (key : UInt8) :
    (n.removeChild key).numChildren =
      if (n.findChild key).isSome then n.numChildren - 1 else n.numChildren := by
  have hsome : (n.findChild key).isSome ↔ n.keyIndices key ≠ 0 := by
    rw [← Option.ne_none_iff_isSome, Ne, hn.findChild_eq_none]
  by_cases hkey : n.keyIndices key = 0
  · rw [removeChild_of_eq_zero hkey, if_neg (fun h => hsome.1 h hkey)]
  · rw [if_pos (hsome.2 hkey), ARTNode48.removeChild, if_pos hkey]

theorem findChild_grow (k : UInt8) : n.grow.findChild k = n.findChild k := rfl

end ARTNode48

namespace ARTNode16

variable {n : ARTNode16 α}

theorem indicesOf_succ (keys : ℕ → UInt8) (num : ℕ) : indicesOf keys (num + 1) =
    Function.update (indicesOf keys num) (keys num) (UInt8.ofNat (num + 1)) := by
  simp only [indicesOf, List.range_succ, List.foldl_append, List.foldl_cons, List.foldl_nil]

/-- The table of keys in order has the place of each of them. -/
theorem indicesOf_keys {keys : ℕ → UInt8} {num : ℕ} (hkeys : Ascending num keys) {i : ℕ}
    (hi : i < num) : indicesOf keys num (keys i) = UInt8.ofNat (i + 1) := by
  induction num with
  | zero => exact absurd hi (Nat.not_lt_zero i)
  | succ num ih =>
    rw [indicesOf_succ]
    rcases Nat.lt_or_ge i num with hlt | hge
    · have hne : keys i ≠ keys num := fun heq =>
        absurd (hkeys.injOn hi (Nat.lt_succ_self num) heq) (by omega)
      rw [Function.update_of_ne hne, ih (fun i j hij hj => hkeys i j hij (by omega)) hlt]
    · obtain rfl : i = num := by omega
      rw [Function.update_self]

/-- It has no other. -/
theorem indicesOf_of_ne {keys : ℕ → UInt8} {num : ℕ} {k : UInt8} (hk : ∀ i < num, keys i ≠ k) :
    indicesOf keys num k = 0 := by
  induction num with
  | zero => rfl
  | succ num ih =>
    rw [indicesOf_succ, Function.update_of_ne (hk num (Nat.lt_succ_self num)).symm]
    exact ih fun i hi => hk i (by omega)

/-- The index of a key in the table, as a number. -/
theorem toNat_indicesOf {keys : ℕ → UInt8} {num : ℕ} (hkeys : Ascending num keys)
    (hnum : num ≤ 16) (k : UInt8) :
    (indicesOf keys num k).toNat = 0 ∧ (∀ i < num, keys i ≠ k) ∨
      ∃ i < num, keys i = k ∧ (indicesOf keys num k).toNat = i + 1 := by
  by_cases h : ∃ i < num, keys i = k
  · obtain ⟨i, hi, rfl⟩ := h
    refine .inr ⟨i, hi, rfl, ?_⟩
    rw [indicesOf_keys hkeys hi]
    exact UInt8.toNat_ofNat_of_lt' (by show i + 1 < 256; omega)
  · have hk : ∀ i < num, keys i ≠ k := fun i hi heq => h ⟨i, hi, heq⟩
    exact .inl ⟨by rw [indicesOf_of_ne hk]; rfl, hk⟩

theorem valid_grow (hn : n.Valid) : (grow n).Valid where
  num_le := by
    have := hn.num_le
    show n.numChildren.toNat ≤ 48
    omega
  index_le k := by
    show (indicesOf n.keys n.numChildren.toNat k).toNat ≤ n.numChildren.toNat
    rcases toNat_indicesOf hn.ascending hn.num_le k with ⟨h, -⟩ | ⟨i, hi, -, h⟩ <;> omega
  index_inj k k' hk heq := by
    have hpos := ARTNode48.toNat_pos hk
    have heq := congrArg UInt8.toNat heq
    rcases toNat_indicesOf hn.ascending hn.num_le k with ⟨h, -⟩ | ⟨i, hi, hkey, h⟩
    · exact absurd h hpos.ne'
    · rcases toNat_indicesOf hn.ascending hn.num_le k' with ⟨h', -⟩ | ⟨j, hj, hkey', h'⟩
      · exact absurd (heq.trans h') hpos.ne'
      · obtain rfl : i = j := Nat.succ.inj (h.symm.trans (heq.trans h'))
        exact hkey.symm.trans hkey'
  live i hi := by
    have hi' : i < n.numChildren.toNat := hi
    simp only [grow, if_pos hi']
    exact hn.live i hi'

theorem findChild_grow (hn : n.Valid) (k : UInt8) : (grow n).findChild k = n.findChild k := by
  have hindex := toNat_indicesOf hn.ascending hn.num_le k
  show (if indicesOf n.keys n.numChildren.toNat k ≠ 0 then
    (grow n).children ((indicesOf n.keys n.numChildren.toNat k).toNat - 1) else none) = _
  rcases hindex with ⟨h, hk⟩ | ⟨i, hi, hkey, h⟩
  · rw [if_neg (not_not.2 (UInt8.toNat_inj.1 h))]
    refine (Option.eq_none_iff_forall_ne_some.2 fun c hc => ?_).symm
    obtain ⟨i, hi, hkey, -⟩ := hn.findChild_eq_some.1 hc
    exact hk i hi hkey
  · rw [if_pos (fun h0 => absurd (h0 ▸ h) (by simp)), h, Nat.add_sub_cancel]
    obtain ⟨c, hc⟩ := Option.isSome_iff_exists.1 (hn.live i hi)
    rw [hn.findChild_eq_some.2 ⟨i, hi, hkey, hc⟩]
    simp only [grow, if_pos hi, hc]

end ARTNode16

end Bitcask
