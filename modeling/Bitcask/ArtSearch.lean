import Bitcask.ArtTree

/-!
# Searches in the radix tree

A node stands behind the bytes that lead to it, its path, and a key reaches it when
it starts with them (`Reaches`). A tree is well formed (`Wf`) when every leaf is
where its key reaches, prefixes are as long as they are counted, and the layouts are
right.

* `reaches_child_iff`: the checks of a routine at an inner node decide whether the
  key reaches a child;
* `searchFrom_cases`: a search goes on at the child the key reaches, or ends;
* `searchFrom_replace`: what is found when one child is another tree.
-/

namespace Bitcask.ARTIndex

open ShiftedArray

/-! ## Paths -/

/-- A key reaches the node behind some bytes: it starts with them, and goes on as far
    as an `int` counts. -/
def Reaches (path key : Bytes) : Prop :=
  path <+: key ∧ (path ≠ [] → (path.length : ℤ) ≤ intSize key)

theorem reaches_nil (key : Bytes) : Reaches [] key :=
  ⟨List.nil_prefix, fun h => absurd rfl h⟩

/-- A key that reaches a node has passed those above it. -/
theorem Reaches.of_le {path path' key : Bytes} (h : Reaches path' key) (hle : path <+: path') :
    Reaches path key := by
  refine ⟨hle.trans h.1, fun hne => ?_⟩
  have hlen := hle.length_le
  have hsize := h.2 (fun h0 => hne (List.prefix_nil.1 (h0 ▸ hle)))
  omega

/-- The path of the child of a node. -/
def childPath (path : Bytes) (node : ARTNodeBase) (b : UInt8) : Bytes :=
  path ++ node.prefixBytes ++ [b]

theorem length_childPath (path : Bytes) (node : ARTNodeBase) (b : UInt8) :
    (childPath path node b).length = path.length + node.prefixBytes.length + 1 := by
  simp [childPath, Nat.add_assoc]

theorem childPath_ne_nil (path : Bytes) (node : ARTNodeBase) (b : UInt8) :
    childPath path node b ≠ [] := by
  simp [childPath]

theorem getD_of_path {path bytes key : Bytes} (h : path ++ bytes <+: key) {i : ℕ}
    (hi : i < bytes.length) : key.getD (path.length + i) 0 = bytes.getD i 0 := by
  obtain ⟨rest, rfl⟩ := h
  rw [List.getD_eq_getElem?_getD, List.getD_eq_getElem?_getD, List.append_assoc,
    List.getElem?_append_right (Nat.le_add_right _ _), Nat.add_sub_cancel_left,
    List.getElem?_append_left hi]

/-- A key goes on with some bytes where it has each of them. -/
theorem prefix_of_getD {path bytes key : Bytes} (hpath : path <+: key)
    (hlen : path.length + bytes.length ≤ key.length)
    (h : ∀ i < bytes.length, bytes.getD i 0 = key.getD (path.length + i) 0) :
    path ++ bytes <+: key := by
  obtain ⟨rest, rfl⟩ := hpath
  rw [List.length_append] at hlen
  refine (List.prefix_append_right_inj path).2 (List.prefix_iff_eq_take.2 ?_)
  refine List.ext_getElem (by rw [List.length_take]; omega) fun i hi hi' => ?_
  have hbyte := h i hi
  rw [List.getD_eq_getElem _ _ hi, List.getD_eq_getElem?_getD,
    List.getElem?_append_right (Nat.le_add_right _ _), Nat.add_sub_cancel_left,
    List.getElem?_eq_getElem (by omega)] at hbyte
  rw [hbyte, List.getElem_take]
  rfl

theorem Reaches.getD_childPath {path key : Bytes} {node : ARTNodeBase} {b : UInt8}
    (h : Reaches (childPath path node b) key) :
    key.getD (path.length + node.prefixBytes.length) 0 = b := by
  have h := h.1
  rw [childPath] at h
  have := getD_of_path h (i := 0) (by simp)
  simpa using this

/-- A key reaches one child of a node at most. -/
theorem Reaches.childPath_inj {path key : Bytes} {node : ARTNodeBase} {b b' : UInt8}
    (h : Reaches (childPath path node b) key) (h' : Reaches (childPath path node b') key) :
    b = b' := by
  rw [← h.getD_childPath, h'.getD_childPath]

/-- A key that has the prefix of a node and goes on reaches a child. -/
theorem Reaches.child {path key : Bytes} {node : ARTNodeBase}
    (hpath : path ++ node.prefixBytes <+: key)
    (hsize : ((path.length + node.prefixBytes.length : ℕ) : ℤ) < intSize key) :
    Reaches (childPath path node (key.getD (path.length + node.prefixBytes.length) 0)) key := by
  have hle := intSize_le key
  refine ⟨prefix_of_getD hpath (by simp; omega) fun i hi => ?_, fun _ => ?_⟩
  · obtain rfl : i = 0 := by simpa using hi
    simp
  · rw [length_childPath]
    omega

/-! ## Prefixes -/

section CheckPrefix

variable {path key : Bytes} {node : ARTNodeBase}

theorem checkPrefix_le (node : ARTNodeBase) (key : Bytes) (depth : ℕ) :
    checkPrefix node key depth ≤ node.prefixLen.toNat ∧
      checkPrefix node key depth ≤ intSize key - depth := by
  unfold checkPrefix
  simp only
  split
  · have := firstIndex_le (fun i => node.prefixBytes.getD i 0 != key.getD (depth + i) 0)
      (min (node.prefixLen.toNat : ℤ) (intSize key - depth)).toNat
    omega
  · omega

/-- The number is negative only where the key ends before the node. -/
theorem checkPrefix_nonneg {depth : ℕ} (h : depth + checkPrefix node key depth < intSize key) :
    0 ≤ checkPrefix node key depth := by
  by_contra hneg
  unfold checkPrefix at hneg h
  simp only at hneg h
  split at h
  · rw [if_pos ‹_›] at hneg
    exact hneg (Int.natCast_nonneg _)
  · omega

/-- The bytes counted are in the key, and the one behind them is not. -/
theorem checkPrefix_spec (hreach : path <+: key)
    (hlen : node.prefixBytes.length = node.prefixLen.toNat) {m : ℕ}
    (hm : checkPrefix node key path.length = m) :
    path ++ node.prefixBytes.take m <+: key ∧
      (m < node.prefixLen.toNat → ((path.length + m : ℕ) : ℤ) < intSize key →
        node.prefixBytes.getD m 0 ≠ key.getD (path.length + m) 0) := by
  have hbounds := checkPrefix_le node key path.length
  have hsize := intSize_le key
  rw [hm] at hbounds
  unfold checkPrefix at hm
  simp only at hm
  split at hm
  · have hm := Int.ofNat_inj.1 hm
    constructor
    · refine prefix_of_getD hreach (by rw [List.length_take]; omega) fun i hi => ?_
      rw [List.length_take] at hi
      have := of_lt_firstIndex (p := fun i => node.prefixBytes.getD i 0 !=
        key.getD (path.length + i) 0) (hm ▸ (show i < m by omega))
      rw [bne_eq_false_iff_eq] at this
      rw [← this, List.getD_eq_getElem?_getD, List.getElem?_take_of_lt (by omega),
        List.getD_eq_getElem?_getD]
    · intro h1 h2
      have hlt : firstIndex (fun i => node.prefixBytes.getD i 0 !=
          key.getD (path.length + i) 0)
            (min (node.prefixLen.toNat : ℤ) (intSize key - path.length)).toNat <
          (min (node.prefixLen.toNat : ℤ) (intSize key - path.length)).toNat := by
        rw [hm]
        omega
      have := firstIndex_spec hlt
      rw [hm] at this
      exact bne_iff_ne.1 this
  · omega

/-- The whole prefix is in the key. -/
theorem checkPrefix_eq_iff (hreach : path <+: key)
    (hlen : node.prefixBytes.length = node.prefixLen.toNat)
    (hsize : ((path.length + node.prefixLen.toNat : ℕ) : ℤ) ≤ intSize key) :
    checkPrefix node key path.length = node.prefixLen.toNat ↔
      path ++ node.prefixBytes <+: key := by
  constructor
  · intro h
    have := (checkPrefix_spec hreach hlen h).1
    rwa [List.take_of_length_le hlen.le] at this
  · intro h
    obtain ⟨hle, -⟩ := checkPrefix_le node key path.length
    unfold checkPrefix at hle ⊢
    simp only at hle ⊢
    rw [if_pos (by omega), Int.min_eq_left (by omega), Int.toNat_natCast] at hle ⊢
    refine congrArg Nat.cast (Nat.le_antisymm (firstIndex_le _ _) (Nat.le_of_not_lt fun hlt => ?_))
    have hne := bne_iff_ne.1 (firstIndex_spec (p := fun i => node.prefixBytes.getD i 0 !=
      key.getD (path.length + i) 0) hlt)
    exact hne (getD_of_path h (hlen ▸ hlt)).symm

end CheckPrefix

/-! ## Searches -/

section Search

variable {path key : Bytes} {node : ARTNode ARTTree}
  (hlen : node.base.prefixBytes.length = node.base.prefixLen.toNat)
include hlen

/-- The key goes on below the node where it has the prefix and is longer. -/
theorem reaches_child_iff (hreach : Reaches path key) :
    Reaches (childPath path node.base
        (key.getD (path.length + node.base.prefixLen.toNat) 0)) key ↔
      ¬(node.base.prefixLen > 0 ∧
          checkPrefix node.base key path.length ≠ node.base.prefixLen.toNat) ∧
        ¬(path.length + node.base.prefixLen.toNat : ℕ) ≥ intSize key := by
  constructor
  · intro h
    have hsize := h.2 (childPath_ne_nil path node.base _)
    rw [length_childPath, hlen] at hsize
    have hpath : path ++ node.base.prefixBytes <+: key := (List.prefix_append _ _).trans h.1
    exact ⟨fun hne => hne.2 ((checkPrefix_eq_iff hreach.1 hlen (by omega)).2 hpath), by omega⟩
  · rintro ⟨hcheck, hsize⟩
    rw [← hlen]
    refine Reaches.child ?_ (by rw [hlen]; omega)
    rcases Nat.eq_zero_or_pos node.base.prefixLen.toNat with h0 | hpos
    · rw [List.eq_nil_of_length_eq_zero (hlen.trans h0), List.append_nil]
      exact hreach.1
    · have heq : checkPrefix node.base key path.length = node.base.prefixLen.toNat := by
        by_contra hne
        exact hcheck ⟨UInt8.lt_iff_toNat_lt.2 hpos, hne⟩
      exact (checkPrefix_eq_iff hreach.1 hlen (by omega)).1 heq

/-- An insertion that neither splits the prefix nor ends at the node is at a child. -/
theorem reaches_child_of_insert (hreach : Reaches path key)
    (hcheck : ¬(node.base.prefixLen > 0 ∧
      checkPrefix node.base key path.length < node.base.prefixLen.toNat))
    (hsize : ¬(path.length + node.base.prefixLen.toNat : ℕ) ≥ intSize key) :
    Reaches (childPath path node.base
      (key.getD (path.length + node.base.prefixLen.toNat) 0)) key := by
  obtain ⟨hle, -⟩ := checkPrefix_le node.base key path.length
  refine (reaches_child_iff hlen hreach).2 ⟨fun hne => hcheck ⟨hne.1, ?_⟩, hsize⟩
  exact lt_of_le_of_ne hle hne.2

/-- A search goes on at the child the key reaches. -/
theorem searchFrom_child {b : UInt8} (h : Reaches (childPath path node.base b) key) :
    searchFrom key (some (.inner node)) path.length =
      searchFrom key (node.findChild b) (childPath path node.base b).length := by
  have hbyte := h.getD_childPath
  rw [hlen] at hbyte
  subst hbyte
  have hreach : Reaches path key :=
    h.of_le ((List.prefix_append _ _).trans (List.prefix_append _ _))
  obtain ⟨hcheck, hsize⟩ := (reaches_child_iff hlen hreach).1 h
  rw [searchFrom, if_neg hcheck, if_neg hsize, length_childPath, hlen]

/-- A search ends where the key reaches no child. -/
theorem searchFrom_none (hreach : Reaches path key)
    (h : ∀ b, ¬Reaches (childPath path node.base b) key) :
    searchFrom key (some (.inner node)) path.length = none := by
  rw [searchFrom]
  split
  · rfl
  · split
    · rfl
    · exact absurd ((reaches_child_iff hlen hreach).2 ⟨‹_›, ‹_›⟩) (h _)

/-- A search goes on at a child or ends. -/
theorem searchFrom_cases (hreach : Reaches path key) :
    (∃ b, Reaches (childPath path node.base b) key ∧
      searchFrom key (some (.inner node)) path.length =
        searchFrom key (node.findChild b) (childPath path node.base b).length) ∨
    (∀ b, ¬Reaches (childPath path node.base b) key) ∧
      searchFrom key (some (.inner node)) path.length = none := by
  by_cases h : ∃ b, Reaches (childPath path node.base b) key
  · obtain ⟨b, hb⟩ := h
    exact .inl ⟨b, hb, searchFrom_child hlen hb⟩
  · have hnone (b : UInt8) (hb : Reaches (childPath path node.base b) key) : False := h ⟨b, hb⟩
    exact .inr ⟨hnone, searchFrom_none hlen hreach hnone⟩

end Search

/-- A key that does not reach the child of its next byte reaches none. -/
theorem not_reaches_child {path key : Bytes} {node : ARTNodeBase}
    (hlen : node.prefixBytes.length = node.prefixLen.toNat)
    (h : ¬Reaches (childPath path node (key.getD (path.length + node.prefixLen.toNat) 0)) key)
    (b : UInt8) : ¬Reaches (childPath path node b) key := by
  intro hb
  rw [← hlen, hb.getD_childPath] at h
  exact h hb

section Replace

variable {path : Bytes} {node node' : ARTNode ARTTree} {b : UInt8} {child : Option ARTTree}
  (hlen : node.base.prefixBytes.length = node.base.prefixLen.toNat)
  (hlen' : node'.base.prefixLen = node.base.prefixLen)
  (hbytes : node'.base.prefixBytes = node.base.prefixBytes)
  (hfind : ∀ k, node'.findChild k = if k = b then child else node.findChild k)
include hlen hlen' hbytes hfind

/-- Nodes of one prefix that differ in the child of one byte differ for the keys that
    reach it only. -/
theorem searchFrom_update {key : Bytes} (hreach : Reaches path key) :
    (Reaches (childPath path node.base b) key →
      searchFrom key (some (.inner node')) path.length =
        searchFrom key child (childPath path node.base b).length) ∧
    (¬Reaches (childPath path node.base b) key →
      searchFrom key (some (.inner node')) path.length =
        searchFrom key (some (.inner node)) path.length) := by
  have hpath (k : UInt8) : childPath path node'.base k = childPath path node.base k := by
    rw [childPath, childPath, hbytes]
  have hlen'' : node'.base.prefixBytes.length = node'.base.prefixLen.toNat := by
    rw [hbytes, hlen', hlen]
  constructor
  · intro h
    rw [searchFrom_child hlen'' (hpath b ▸ h), hfind, if_pos rfl, hpath]
  · intro h
    rcases searchFrom_cases hlen hreach with ⟨k, hk, hfound⟩ | ⟨hno, hnone⟩
    · have hne : k ≠ b := fun heq => h (heq ▸ hk)
      rw [hfound, searchFrom_child hlen'' (hpath k ▸ hk), hfind, if_neg hne, hpath]
    · rw [hnone, searchFrom_none hlen'' hreach fun k => hpath k ▸ hno k]

/-- Where a child answers another way for one key, so does the node. -/
theorem searchFrom_replace {key : Bytes} {x : Option ARTLeaf}
    (hb : Reaches (childPath path node.base b) key)
    (hchild : ∀ k, Reaches (childPath path node.base b) k →
      searchFrom k child (childPath path node.base b).length =
        if k = key then x
        else searchFrom k (node.findChild b) (childPath path node.base b).length) {k : Bytes}
    (hk : Reaches path k) :
    searchFrom k (some (.inner node')) path.length =
      if k = key then x else searchFrom k (some (.inner node)) path.length := by
  obtain ⟨hin, hout⟩ := searchFrom_update hlen hlen' hbytes hfind hk
  by_cases hkb : Reaches (childPath path node.base b) k
  · rw [hin hkb, hchild k hkb, searchFrom_child hlen hkb]
  · have hne : k ≠ key := fun heq => hkb (heq ▸ hb)
    rw [hout hkb, if_neg hne]

end Replace

/-- A leaf is found under its key. -/
theorem searchFrom_leaf (leaf : ARTLeaf) (key : Bytes) (depth : ℕ) :
    searchFrom key (some (.leaf leaf)) depth = if leaf.key = key then some leaf else none := by
  rw [searchFrom]

theorem searchFrom_nothing (key : Bytes) (depth : ℕ) : searchFrom key none depth = none := by
  rw [searchFrom]

/-- The trees of a path: the layouts are right, prefixes are as long as they are
    counted, and every leaf is where its key reaches. -/
inductive Wf : Bytes → ARTTree → Prop
  | leaf {path : Bytes} {leaf : ARTLeaf} (h : Reaches path leaf.key) : Wf path (.leaf leaf)
  | inner {path : Bytes} {node : ARTNode ARTTree} (hvalid : node.Valid)
    (hlen : node.base.prefixBytes.length = node.base.prefixLen.toNat)
    (hchild : ∀ b child, node.findChild b = some child →
      Wf (childPath path node.base b) child) : Wf path (.inner node)

/-- A node stays well formed when one child becomes another well-formed tree. -/
theorem wf_replace {path : Bytes} {node node' : ARTNode ARTTree} {b : UInt8}
    {child : Option ARTTree} (hwf : Wf path (.inner node)) (hvalid : node'.Valid)
    (hlen : node'.base.prefixLen = node.base.prefixLen)
    (hbytes : node'.base.prefixBytes = node.base.prefixBytes)
    (hfind : ∀ k, node'.findChild k = if k = b then child else node.findChild k)
    (hchild : ∀ c, child = some c → Wf (childPath path node.base b) c) :
    Wf path (.inner node') := by
  cases hwf with
  | inner _ hlen' hchild' =>
    refine .inner hvalid (by rw [hbytes, hlen, hlen']) fun k c hc => ?_
    rw [childPath, hbytes]
    rw [hfind] at hc
    split at hc
    · rename_i hk
      exact hk ▸ hchild c hc
    · exact hchild' k c hc

end Bitcask.ARTIndex
