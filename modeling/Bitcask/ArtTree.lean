import Bitcask.LogRecord
import Bitcask.ArtChildren

/-!
# The radix tree

The routines of the radix tree that the index of type `ART` keeps beside its map:
`search`, `insert` and `deleteNode`. Leaves hold whole keys; an inner node takes the
bytes of its prefix and the byte of the child. A routine that is given a node
returns the node to take its place: mostly the same object, changed in place.

* `Insertable` says which branches of an insertion lose no key;
* what becomes of a node when one of its children changes is said by
  `ARTNode.Valid.putChild`, `ARTNode.Valid.keepChild` and `ARTNode.Valid.newChild`.
-/

namespace Bitcask

open ShiftedArray

/-! ## Nodes -/

/-- A leaf: a key and its position. -/
structure ARTLeaf where
  key : Bytes
  value : LogRecordPos
deriving DecidableEq, Repr

/-- The tree below a node. -/
inductive ARTTree
  | leaf (leaf : ARTLeaf)
  | inner (node : ARTNode ARTTree)

variable {α : Type}

/-- A child has changed in place: what is behind the pointer to it is another value. -/
def SortedNode.setChild {capacity : ℕ} (n : SortedNode capacity α) (key : UInt8) (child : α) :
    SortedNode capacity α :=
  { n with children := Function.update n.children (n.indexOf key) (some child) }

def ARTNode48.setChild (n : ARTNode48 α) (key : UInt8) (child : α) : ARTNode48 α :=
  { n with children := Function.update n.children ((n.keyIndices key).toNat - 1) (some child) }

def ARTNode256.setChild (n : ARTNode256 α) (key : UInt8) (child : α) : ARTNode256 α :=
  { n with children := Function.update n.children key (some child) }

namespace ARTNode

def setChild : ARTNode α → UInt8 → α → ARTNode α
  | node4 n, key, child => node4 (n.setChild key child)
  | node16 n, key, child => node16 (n.setChild key child)
  | node48 n, key, child => node48 (n.setChild key child)
  | node256 n, key, child => node256 (n.setChild key child)

/-- A child after an insertion into it: another object takes its place, or it has
    changed in place. -/
def putChild (node : ARTNode α) (key : UInt8) (isNew : Bool) (child : α) : ARTNode α :=
  if isNew then (node.removeChild key).addChild key (some child) else node.setChild key child

/-- A child after a deletion in it: it is gone, or has changed in place. -/
def keepChild (node : ARTNode α) (key : UInt8) : Option α → ARTNode α
  | none => node.removeChild key
  | some child => node.setChild key child

/-- A node whose prefix is another one. -/
def setPrefix : ARTNode α → UInt8 → Bytes → ARTNode α
  | node4 n, prefixLen, prefixBytes => node4 { n with prefixLen, prefixBytes }
  | node16 n, prefixLen, prefixBytes => node16 { n with prefixLen, prefixBytes }
  | node48 n, prefixLen, prefixBytes => node48 { n with prefixLen, prefixBytes }
  | node256 n, prefixLen, prefixBytes => node256 { n with prefixLen, prefixBytes }

end ARTNode

/-! ## The routines -/

namespace ARTIndex

/-- The size of a key, as the `int` it is compared as. -/
def intSize (key : Bytes) : ℤ := (Int32.ofNat key.length).toInt

theorem intSize_le (key : Bytes) : intSize key ≤ key.length := by
  rw [intSize, Int32.toInt_ofNat', show Int32.size = 4294967296 from rfl, Int.bmod_def]
  split <;> omega

/-- The number of bytes of a node's prefix that a key has at some depth. -/
def checkPrefix (node : ARTNodeBase) (key : Bytes) (depth : ℕ) : ℤ :=
  let maxCmp := min (node.prefixLen.toNat : ℤ) (intSize key - depth)
  if 0 ≤ maxCmp then
    firstIndex (fun i => node.prefixBytes.getD i 0 != key.getD (depth + i) 0) maxCmp.toNat
  else maxCmp

/-- The loop of `search`, from a node at some depth. -/
def searchFrom (key : Bytes) : Option ARTTree → ℕ → Option ARTLeaf
  | none, _ => none
  | some (.leaf leaf), _ => if leaf.key = key then some leaf else none
  | some (.inner node), depth =>
    if node.base.prefixLen > 0 ∧ checkPrefix node.base key depth ≠ node.base.prefixLen.toNat then
      none
    else if (depth + node.base.prefixLen.toNat : ℕ) ≥ intSize key then none
    else
      searchFrom key (node.findChild (key.getD (depth + node.base.prefixLen.toNat) 0))
        (depth + node.base.prefixLen.toNat + 1)
termination_by _ depth => key.length - depth
decreasing_by
  have := intSize_le key
  omega

/-- The leaf of a key in the tree of a root. -/
def search (root : Option ARTTree) (key : Bytes) : Option ARTLeaf := searchFrom key root 0

/-- What an insertion returns: the node to take the place of the one given, whether
    it is another object than that one, and the old value of the key. -/
structure Inserted where
  node : ARTTree
  isNew : Bool
  oldValue : Option LogRecordPos := none

/-- The number of bytes two keys have in common from some depth on. -/
def commonBytes (key key' : Bytes) (depth : ℕ) : ℕ :=
  firstIndex (fun i => key.getD (depth + i) 0 != key'.getD (depth + i) 0)
    (min (intSize key) (intSize key') - depth).toNat

/-- Another key is inserted where a leaf is: both hang on a new node, which takes
    what they have in common. -/
def splitLeaf (leaf : ARTLeaf) (key : Bytes) (value : LogRecordPos) (depth : ℕ) :
    ARTNode4 ARTTree :=
  let common := commonBytes key leaf.key depth
  let newNode : ARTNode4 ARTTree :=
    if common > 0 then
      { prefixLen := UInt8.ofNat common, prefixBytes := (key.drop depth).take common }
    else {}
  let branchDepth := depth + common
  let newNode :=
    if branchDepth < intSize key then
      newNode.addChild (key.getD branchDepth 0) (some (.leaf ⟨key, value⟩))
    else newNode
  if branchDepth < intSize leaf.key then
    newNode.addChild (leaf.key.getD branchDepth 0) (some (.leaf leaf))
  else newNode

/-- The node that is left behind the byte at which its prefix is split. -/
def restNode (node : ARTNode ARTTree) (prefixMatch : ℕ) : ARTNode ARTTree :=
  let prefixLen := node.base.prefixLen - UInt8.ofNat (prefixMatch + 1)
  node.setPrefix prefixLen
    (if prefixLen > 0 then node.base.prefixBytes.drop (prefixMatch + 1) else [])

/-- A key is inserted that leaves the prefix of a node after `prefixMatch` bytes: both
    hang on a new node, which takes these bytes. -/
def splitPrefix (node : ARTNode ARTTree) (prefixMatch : ℕ) (key : Bytes) (value : LogRecordPos)
    (depth : ℕ) : ARTNode4 ARTTree :=
  let newNode : ARTNode4 ARTTree :=
    { prefixLen := UInt8.ofNat prefixMatch, prefixBytes := node.base.prefixBytes.take prefixMatch }
  let branchChar := node.base.prefixBytes.getD prefixMatch 0
  let newNode := newNode.addChild branchChar (some (.inner (restNode node prefixMatch)))
  if (depth + prefixMatch : ℕ) < intSize key then
    newNode.addChild (key.getD (depth + prefixMatch) 0) (some (.leaf ⟨key, value⟩))
  else newNode

def insert (key : Bytes) (value : LogRecordPos) : Option ARTTree → ℕ → Inserted
  | none, _ => { node := .leaf ⟨key, value⟩, isNew := true }
  | some (.leaf leaf), depth =>
    if leaf.key = key then
      { node := .leaf { leaf with value }, isNew := false, oldValue := some leaf.value }
    else { node := .inner (.node4 (splitLeaf leaf key value depth)), isNew := true }
  | some (.inner node), depth =>
    if node.base.prefixLen > 0 ∧ checkPrefix node.base key depth < node.base.prefixLen.toNat then
      let prefixMatch := (checkPrefix node.base key depth).toNat
      { node := .inner (.node4 (splitPrefix node prefixMatch key value depth)), isNew := true }
    else if (depth + node.base.prefixLen.toNat : ℕ) ≥ intSize key then
      { node := .inner node, isNew := false }
    else
      let childKey := key.getD (depth + node.base.prefixLen.toNat) 0
      match node.findChild childKey with
      | some child =>
        let r := insert key value (some child) (depth + node.base.prefixLen.toNat + 1)
        { node := .inner (node.putChild childKey r.isNew r.node)
          isNew := false
          oldValue := r.oldValue }
      | none =>
        { node := .inner (node.makeRoom.addChild childKey (some (.leaf ⟨key, value⟩)))
          isNew := node.isFull }
termination_by _ depth => key.length - depth
decreasing_by
  have := intSize_le key
  omega

/-- An insertion takes no branch that loses a key: the key does not end at an inner
    node or within the prefix of one, and it branches off from the leaf it meets, both
    going on after less than 256 common bytes. -/
def Insertable (key : Bytes) : Option ARTTree → ℕ → Prop
  | none, _ => True
  | some (.leaf leaf), depth =>
    leaf.key = key ∨
      commonBytes key leaf.key depth < 256 ∧
        (depth + commonBytes key leaf.key depth : ℕ) < intSize key ∧
        (depth + commonBytes key leaf.key depth : ℕ) < intSize leaf.key
  | some (.inner node), depth =>
    if node.base.prefixLen > 0 ∧ checkPrefix node.base key depth < node.base.prefixLen.toNat then
      depth + checkPrefix node.base key depth < intSize key
    else if (depth + node.base.prefixLen.toNat : ℕ) ≥ intSize key then False
    else
      match node.findChild (key.getD (depth + node.base.prefixLen.toNat) 0) with
      | some child => Insertable key (some child) (depth + node.base.prefixLen.toNat + 1)
      | none => True
termination_by _ depth => key.length - depth
decreasing_by
  have := intSize_le key
  omega

/-- What a deletion returns: the node given, unless it is gone, the old value of the
    key, and whether the key has been found. -/
structure Deleted where
  node : Option ARTTree
  oldValue : Option LogRecordPos := none
  found : Bool

def deleteNode (key : Bytes) : Option ARTTree → ℕ → Deleted
  | none, _ => { node := none, found := false }
  | some (.leaf leaf), _ =>
    if leaf.key = key then { node := none, oldValue := some leaf.value, found := true }
    else { node := some (.leaf leaf), found := false }
  | some (.inner node), depth =>
    if node.base.prefixLen > 0 ∧ checkPrefix node.base key depth ≠ node.base.prefixLen.toNat then
      { node := some (.inner node), found := false }
    else if (depth + node.base.prefixLen.toNat : ℕ) ≥ intSize key then
      { node := some (.inner node), found := false }
    else
      let childKey := key.getD (depth + node.base.prefixLen.toNat) 0
      match node.findChild childKey with
      | some child =>
        let r := deleteNode key (some child) (depth + node.base.prefixLen.toNat + 1)
        { r with node := some (.inner (node.keepChild childKey r.node)) }
      | none => { node := some (.inner node), found := false }
termination_by _ depth => key.length - depth
decreasing_by
  have := intSize_le key
  omega

end ARTIndex

/-! ## Changes of nodes -/

namespace SortedNode

variable {capacity : ℕ} {n : SortedNode capacity α}

theorem base_addChild (key : UInt8) (child : Option α) : (n.addChild key child).toARTNodeBase =
    { n.toARTNodeBase with numChildren := (n.addChild key child).numChildren } := by
  rw [addChild]
  split <;> rfl

theorem base_removeChild (key : UInt8) : (n.removeChild key).toARTNodeBase =
    { n.toARTNodeBase with numChildren := (n.removeChild key).numChildren } := by
  rw [removeChild]
  split <;> rfl

section SetChild

variable (hn : n.Valid) {key : UInt8} (h : (n.findChild key).isSome) (child : α)
include hn

theorem Valid.setChild : (n.setChild key child).Valid where
  num_le := hn.num_le
  ascending := hn.ascending
  live i hi := by
    show (Function.update n.children (n.indexOf key) (some child) i).isSome
    rw [Function.update_apply]
    split
    · rfl
    · exact hn.live i hi

include h

theorem Valid.findChild_setChild (k : UInt8) :
    (n.setChild key child).findChild k = if k = key then some child else n.findChild k := by
  have hkey := (hn.isSome_findChild key).1 h
  show (if n.indexOf k < n.numChildren.toNat then
    Function.update n.children (n.indexOf key) (some child) (n.indexOf k) else none) = _
  by_cases hk : k = key
  · rw [hk, if_pos hkey, Function.update_self, if_pos rfl]
  · rw [if_neg hk, findChild]
    refine if_ctx_congr Iff.rfl (fun hlt => ?_) fun _ => rfl
    -- the other key is at another index
    refine Function.update_of_ne (fun heq => hk ?_) _ _
    rw [← keys_indexOf hlt, heq, keys_indexOf hkey]

theorem Valid.num_removeChild_lt : (n.removeChild key).numChildren.toNat < capacity := by
  have hkey := (hn.isSome_findChild key).1 h
  have hle := hn.num_le
  rw [num_removeChild hkey]
  omega

end SetChild

end SortedNode

namespace ARTNode48

variable {n : ARTNode48 α}

theorem base_addChild (key : UInt8) (child : Option α) : (n.addChild key child).toARTNodeBase =
    { n.toARTNodeBase with numChildren := (n.addChild key child).numChildren } := by
  rw [addChild]
  split <;> rfl

theorem base_removeChild (key : UInt8) : (n.removeChild key).toARTNodeBase =
    { n.toARTNodeBase with numChildren := (n.removeChild key).numChildren } := by
  rw [removeChild]
  split <;> rfl

section SetChild

variable (hn : n.Valid) {key : UInt8} (h : (n.findChild key).isSome) (child : α)
include hn

theorem Valid.setChild : (n.setChild key child).Valid where
  num_le := hn.num_le
  index_le := hn.index_le
  index_inj := hn.index_inj
  live i hi := by
    show (Function.update n.children ((n.keyIndices key).toNat - 1) (some child) i).isSome
    rw [Function.update_apply]
    split
    · rfl
    · exact hn.live i hi

include h

theorem Valid.keyIndices_ne : n.keyIndices key ≠ 0 :=
  fun h0 => absurd (hn.findChild_eq_none.2 h0) (Option.ne_none_iff_isSome.2 h)

theorem Valid.findChild_setChild (k : UInt8) :
    (n.setChild key child).findChild k = if k = key then some child else n.findChild k := by
  have hkey := hn.keyIndices_ne h
  show (if n.keyIndices k ≠ 0 then Function.update n.children ((n.keyIndices key).toNat - 1)
    (some child) ((n.keyIndices k).toNat - 1) else none) = _
  by_cases hk : k = key
  · rw [hk, if_pos hkey, Function.update_self, if_pos rfl]
  · rw [if_neg hk, findChild]
    refine if_ctx_congr Iff.rfl (fun hk0 => ?_) fun _ => rfl
    have hpos := toNat_pos hk0
    have hpos' := toNat_pos hkey
    have hne := hn.toNat_ne hkey hk
    exact Function.update_of_ne (by omega) _ _

theorem Valid.num_removeChild_lt : (n.removeChild key).numChildren.toNat < 48 := by
  have hkey := hn.keyIndices_ne h
  have hpos := toNat_pos hkey
  have hindex := hn.index_le key
  have hle := hn.num_le
  rw [hn.num_removeChild hkey]
  omega

end SetChild

end ARTNode48

namespace ARTNode

variable {n : ARTNode α}

theorem base_addChild (key : UInt8) (child : Option α) : (n.addChild key child).base =
    { n.base with numChildren := (n.addChild key child).base.numChildren } := by
  cases n with
  | node4 n | node16 n => exact SortedNode.base_addChild key child
  | node48 n => exact ARTNode48.base_addChild key child
  | node256 n => rfl

theorem base_removeChild (key : UInt8) : (n.removeChild key).base =
    { n.base with numChildren := (n.removeChild key).base.numChildren } := by
  cases n with
  | node4 n | node16 n => exact SortedNode.base_removeChild key
  | node48 n => exact ARTNode48.base_removeChild key
  | node256 n =>
    show (n.removeChild key).toARTNodeBase =
      { n.toARTNodeBase with numChildren := (n.removeChild key).numChildren }
    rw [ARTNode256.removeChild]
    split <;> rfl

@[simp]
theorem base_setChild (key : UInt8) (child : α) : (n.setChild key child).base = n.base := by
  cases n <;> rfl

@[simp]
theorem findChild_setPrefix (prefixLen : UInt8) (prefixBytes : Bytes) (k : UInt8) :
    (n.setPrefix prefixLen prefixBytes).findChild k = n.findChild k := by
  cases n <;> rfl

theorem base_setPrefix (prefixLen : UInt8) (prefixBytes : Bytes) :
    (n.setPrefix prefixLen prefixBytes).base = { n.base with prefixLen, prefixBytes } := by
  cases n <;> rfl

theorem Valid.setPrefix (hn : n.Valid) (prefixLen : UInt8) (prefixBytes : Bytes) :
    (n.setPrefix prefixLen prefixBytes).Valid := by
  cases n with
  | node4 n | node16 n => exact ⟨hn.num_le, hn.ascending, hn.live⟩
  | node48 n => exact ⟨hn.num_le, hn.index_le, hn.index_inj, hn.live⟩
  | node256 n => trivial

/-- A new node has no children. -/
theorem valid_new (prefixLen : UInt8) (prefixBytes : Bytes) :
    (node4 { prefixLen, prefixBytes } : ARTNode α).Valid :=
  ⟨Nat.zero_le _, fun _ j _ hj => absurd hj (Nat.not_lt_zero j),
    fun i hi => absurd hi (Nat.not_lt_zero i)⟩

theorem findChild_single (prefixLen : UInt8) (prefixBytes : Bytes) (b : UInt8) (child : α)
    (k : UInt8) : ((node4 { prefixLen, prefixBytes }).addChild b (some child)).findChild k =
      if k = b then some child else none := by
  rw [(valid_new prefixLen prefixBytes).findChild_addChild rfl rfl]
  rfl

/-- A new node to which two children have been added. -/
theorem pair_spec (prefixLen : UInt8) (prefixBytes : Bytes) {b b' : UInt8} (hne : b' ≠ b)
    (child child' : α) :
    let n := ((node4 { prefixLen, prefixBytes }).addChild b (some child)).addChild b' (some child')
    n.Valid ∧ n.base.prefixLen = prefixLen ∧ n.base.prefixBytes = prefixBytes ∧
      ∀ k, n.findChild k = if k = b' then some child' else if k = b then some child else none := by
  have hnew := valid_new (α := α) prefixLen prefixBytes
  have hone : ((node4 { prefixLen, prefixBytes }).addChild b (some child)).Valid :=
    hnew.addChild rfl rfl child
  have hfull : ((node4 { prefixLen, prefixBytes } : ARTNode α).addChild b (some child)).isFull =
    false := rfl
  have hnone : ((node4 { prefixLen, prefixBytes } : ARTNode α).addChild b (some child)).findChild
      b' = none := by
    rw [findChild_single, if_neg hne]
  refine ⟨hone.addChild hfull hnone child', ?_, ?_, fun k => ?_⟩
  · rw [base_addChild, base_addChild]
    rfl
  · rw [base_addChild, base_addChild]
    rfl
  · rw [hone.findChild_addChild hfull hnone, findChild_single]

section SetChild

variable (hn : n.Valid) {key : UInt8} (h : (n.findChild key).isSome)
include hn h

theorem Valid.setChild (child : α) : (n.setChild key child).Valid := by
  cases n with
  | node4 n | node16 n => exact SortedNode.Valid.setChild hn child
  | node48 n => exact ARTNode48.Valid.setChild hn child
  | node256 n => trivial

/-- A child that has changed in place is found under its byte. -/
theorem Valid.findChild_setChild (child : α) (k : UInt8) :
    (n.setChild key child).findChild k = if k = key then some child else n.findChild k := by
  cases n with
  | node4 n | node16 n => exact SortedNode.Valid.findChild_setChild hn h child k
  | node48 n => exact ARTNode48.Valid.findChild_setChild hn h child k
  | node256 n => exact Function.update_apply n.children key (some child) k

/-- What is left of a child is found under its byte. -/
theorem Valid.keepChild (child : Option α) :
    (n.keepChild key child).Valid ∧
      (n.keepChild key child).base.prefixLen = n.base.prefixLen ∧
      (n.keepChild key child).base.prefixBytes = n.base.prefixBytes ∧
      ∀ k, (n.keepChild key child).findChild k = if k = key then child else n.findChild k := by
  cases child with
  | none =>
    refine ⟨hn.removeChild key, ?_, ?_, hn.findChild_removeChild key⟩
    · rw [ARTNode.keepChild, base_removeChild]
    · rw [ARTNode.keepChild, base_removeChild]
  | some child =>
    refine ⟨hn.setChild h child, ?_, ?_, hn.findChild_setChild h child⟩
    · rw [ARTNode.keepChild, base_setChild]
    · rw [ARTNode.keepChild, base_setChild]

/-- There is room where a child has been removed. -/
theorem Valid.isFull_removeChild : (n.removeChild key).isFull = false := by
  cases n with
  | node4 n | node16 n => exact beq_false_of_ne (SortedNode.Valid.num_removeChild_lt hn h).ne
  | node48 n => exact beq_false_of_ne (ARTNode48.Valid.num_removeChild_lt hn h).ne
  | node256 n => rfl

/-- The child that takes the place of another one is found under its byte. -/
theorem Valid.putChild (isNew : Bool) (child : α) :
    (n.putChild key isNew child).Valid ∧
      (n.putChild key isNew child).base.prefixLen = n.base.prefixLen ∧
      (n.putChild key isNew child).base.prefixBytes = n.base.prefixBytes ∧
      ∀ k, (n.putChild key isNew child).findChild k =
        if k = key then some child else n.findChild k := by
  have hremoved := hn.removeChild key
  have hfull := hn.isFull_removeChild h
  have hnone : (n.removeChild key).findChild key = none := by
    rw [hn.findChild_removeChild, if_pos rfl]
  cases isNew with
  | false =>
    refine ⟨hn.setChild h child, ?_, ?_, hn.findChild_setChild h child⟩
    · rw [ARTNode.putChild, if_neg Bool.false_ne_true, base_setChild]
    · rw [ARTNode.putChild, if_neg Bool.false_ne_true, base_setChild]
  | true =>
    refine ⟨hremoved.addChild hfull hnone child, ?_, ?_, fun k => ?_⟩
    · rw [ARTNode.putChild, if_pos rfl, base_addChild, base_removeChild]
    · rw [ARTNode.putChild, if_pos rfl, base_addChild, base_removeChild]
    · rw [ARTNode.putChild, if_pos rfl, hremoved.findChild_addChild hfull hnone,
        hn.findChild_removeChild]
      split <;> simp [*]

end SetChild

/-- The child of a new byte is found under it, in the larger node if there is one. -/
theorem Valid.newChild (hn : n.Valid) {key : UInt8} (h : n.findChild key = none) (child : α) :
    (n.makeRoom.addChild key (some child)).Valid ∧
      (n.makeRoom.addChild key (some child)).base.prefixLen = n.base.prefixLen ∧
      (n.makeRoom.addChild key (some child)).base.prefixBytes = n.base.prefixBytes ∧
      ∀ k, (n.makeRoom.addChild key (some child)).findChild k =
        if k = key then some child else n.findChild k := by
  obtain ⟨hroom, hfull, hbase, hsame⟩ := hn.makeRoom
  have hnone : n.makeRoom.findChild key = none := by rw [hsame, h]
  refine ⟨hroom.addChild hfull hnone child, ?_, ?_, fun k => ?_⟩
  · rw [base_addChild, hbase]
  · rw [base_addChild, hbase]
  · rw [hroom.findChild_addChild hfull hnone, hsame]

end ARTNode

end Bitcask
