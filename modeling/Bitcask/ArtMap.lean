import Bitcask.ArtUpdates

/-!
# The radix tree as a map

Calls of the routines of the tree one after the other, beside the same calls on a
map. An insertion that takes a branch that loses a key loses it at once: the key
inserted, or the one of the leaf it meets, is not found afterwards.

* `insert_loses`: every such insertion loses a key;
* `isMap_iff`: from the empty tree on, the calls are those of a map exactly as long
  as no insertion takes such a branch.
-/

namespace Bitcask

namespace ARTIndex

open ShiftedArray

/-! ## Lost keys -/

/-- Inserting a key has lost a key: it, or another one. -/
def Loses (path key : Bytes) (value : LogRecordPos) (tree : ARTTree) (r : Inserted) : Prop :=
  ∃ k, Reaches path k ∧ searchFrom k (some r.node) path.length ≠
    if k = key then some ⟨key, value⟩ else searchFrom k (some tree) path.length

/-- Where a search ends below a node. -/
theorem searchFrom_eq_some {key : Bytes} {node : ARTNode ARTTree} {depth : ℕ} {leaf : ARTLeaf}
    (h : searchFrom key (some (.inner node)) depth = some leaf) :
    ((depth + node.base.prefixLen.toNat : ℕ) : ℤ) < intSize key ∧
      ∃ child, node.findChild (key.getD (depth + node.base.prefixLen.toNat) 0) = some child ∧
        searchFrom key (some child) (depth + node.base.prefixLen.toNat + 1) = some leaf := by
  rw [searchFrom] at h
  split at h
  · cases h
  · split at h
    · cases h
    · rename_i hsize
      refine ⟨by omega, ?_⟩
      cases hchild : node.findChild (key.getD (depth + node.base.prefixLen.toNat) 0) with
      | none =>
        rw [hchild, searchFrom_nothing] at h
        cases h
      | some child => exact ⟨child, rfl, hchild ▸ h⟩

section Leaf

variable (leaf : ARTLeaf) (key : Bytes) (value : LogRecordPos) (depth : ℕ)

/-- The new node of a split has the common bytes counted as one byte, and no other
    children than the two keys, each where it goes on. -/
theorem splitLeaf_children {node : ARTNode ARTTree}
    (hnode : .node4 (splitLeaf leaf key value depth) = node) :
    node.base.prefixLen = UInt8.ofNat (commonBytes key leaf.key depth) ∧
    ∀ b child, node.findChild b = some child →
      child = .leaf ⟨key, value⟩ ∧ b = key.getD (depth + commonBytes key leaf.key depth) 0 ∧
          ((depth + commonBytes key leaf.key depth : ℕ) : ℤ) < intSize key ∨
        child = .leaf leaf ∧ b = leaf.key.getD (depth + commonBytes key leaf.key depth) 0 ∧
          ((depth + commonBytes key leaf.key depth : ℕ) : ℤ) < intSize leaf.key := by
  by_cases h : ((depth + commonBytes key leaf.key depth : ℕ) : ℤ) < intSize key
  · by_cases h' : ((depth + commonBytes key leaf.key depth : ℕ) : ℤ) < intSize leaf.key
    · rw [splitLeaf_eq h h'] at hnode
      obtain ⟨-, hlen, -, hfind⟩ := ARTNode.pair_spec
        (UInt8.ofNat (commonBytes key leaf.key depth))
        ((key.drop depth).take (commonBytes key leaf.key depth))
        (commonBytes_spec h h').2.symm (ARTTree.leaf ⟨key, value⟩) (.leaf leaf)
      rw [hnode] at hlen hfind
      refine ⟨hlen, fun b child hb => ?_⟩
      rw [hfind] at hb
      split at hb
      · exact .inr ⟨(Option.some.inj hb).symm, ‹_›, h'⟩
      · split at hb
        · exact .inl ⟨(Option.some.inj hb).symm, ‹_›, h⟩
        · cases hb
    · rw [splitLeaf] at hnode
      simp only [if_pos h, if_neg h', newNode_eq] at hnode
      have hnode : (ARTNode.node4 _).addChild _ _ = node := hnode
      subst hnode
      refine ⟨by rw [ARTNode.base_addChild]; rfl, fun b child hb => ?_⟩
      rw [ARTNode.findChild_single] at hb
      split at hb
      · exact .inl ⟨(Option.some.inj hb).symm, ‹_›, h⟩
      · cases hb
  · rw [splitLeaf] at hnode
    simp only [if_neg h, newNode_eq] at hnode
    split at hnode
    · rename_i h'
      have hnode : (ARTNode.node4 _).addChild _ _ = node := hnode
      subst hnode
      refine ⟨by rw [ARTNode.base_addChild]; rfl, fun b child hb => ?_⟩
      rw [ARTNode.findChild_single] at hb
      split at hb
      · exact .inr ⟨(Option.some.inj hb).symm, ‹_›, h'⟩
      · cases hb
    · subst hnode
      exact ⟨rfl, fun b child hb => by cases hb⟩

end Leaf

/-- Two keys one of which does not go on, or that have too many bytes in common, are
    not both found below the new node. -/
theorem splitLeaf_loses {path key : Bytes} {leaf : ARTLeaf} (value : LogRecordPos)
    (hleaf : Reaches path leaf.key) (hreach : Reaches path key) (hne : leaf.key ≠ key)
    (hins : ¬(commonBytes key leaf.key path.length < 256 ∧
      ((path.length + commonBytes key leaf.key path.length : ℕ) : ℤ) < intSize key ∧
      ((path.length + commonBytes key leaf.key path.length : ℕ) : ℤ) < intSize leaf.key)) :
    Loses path key value (.leaf leaf)
      { node := .inner (.node4 (splitLeaf leaf key value path.length)), isNew := true } := by
  obtain ⟨node, hnode⟩ : ∃ node, ARTNode.node4 (splitLeaf leaf key value path.length) = node :=
    ⟨_, rfl⟩
  obtain ⟨hlen, hchildren⟩ := splitLeaf_children leaf key value path.length hnode
  rw [hnode]
  by_contra hkept
  simp only [Loses, not_exists, not_and, not_not] at hkept
  have hkey := hkept key hreach
  have hkey' := hkept leaf.key hleaf
  rw [if_pos rfl] at hkey
  rw [if_neg hne, searchFrom_leaf, if_pos rfl] at hkey'
  -- where the two are found
  obtain ⟨hsize, child, hchild, hfound⟩ := searchFrom_eq_some hkey
  obtain ⟨hsize', child', hchild', hfound'⟩ := searchFrom_eq_some hkey'
  have h : key.getD (path.length + node.base.prefixLen.toNat) 0 =
        key.getD (path.length + commonBytes key leaf.key path.length) 0 ∧
      ((path.length + commonBytes key leaf.key path.length : ℕ) : ℤ) < intSize key := by
    rcases hchildren _ _ hchild with ⟨-, h⟩ | ⟨rfl, -⟩
    · exact h
    · rw [searchFrom_leaf, if_neg hne] at hfound
      cases hfound
  have h' : leaf.key.getD (path.length + node.base.prefixLen.toNat) 0 =
        leaf.key.getD (path.length + commonBytes key leaf.key path.length) 0 ∧
      ((path.length + commonBytes key leaf.key path.length : ℕ) : ℤ) < intSize leaf.key := by
    rcases hchildren _ _ hchild' with ⟨rfl, -⟩ | ⟨-, h⟩
    · rw [searchFrom_leaf, if_neg (Ne.symm hne)] at hfound'
      cases hfound'
    · exact h
  have hmany : ¬commonBytes key leaf.key path.length < 256 := fun hlt => hins ⟨hlt, h.2, h'.2⟩
  have hlt : node.base.prefixLen.toNat < commonBytes key leaf.key path.length := by
    have := node.base.prefixLen.toNat_lt
    omega
  -- the byte looked at is one of the common ones
  obtain ⟨hsame, hbyte⟩ := commonBytes_spec h.2 h'.2
  exact hbyte (h.1.symm.trans ((hsame _ hlt).trans h'.1))

/-- A search ends where the key does. -/
theorem searchFrom_of_ge {key : Bytes} {node : ARTNode ARTTree} {depth : ℕ}
    (h : ((depth + node.base.prefixLen.toNat : ℕ) : ℤ) ≥ intSize key) :
    searchFrom key (some (.inner node)) depth = none := by
  rw [Option.eq_none_iff_forall_ne_some]
  intro leaf hfound
  have := (searchFrom_eq_some hfound).1
  omega

/-- An insertion that takes a branch that loses a key loses one. -/
theorem insert_loses {path key : Bytes} (value : LogRecordPos) {tree : ARTTree}
    (h : Wf path tree) (hreach : Reaches path key)
    (hins : ¬Insertable key (some tree) path.length) :
    Loses path key value tree (insert key value (some tree) path.length) := by
  induction h with
  | @leaf path leaf h =>
    rw [Insertable, not_or] at hins
    rw [insert, if_neg hins.1]
    exact splitLeaf_loses value h hreach hins.1 hins.2
  | @inner path node hvalid hlen hchild ih =>
    rw [Insertable] at hins
    rw [insert]
    obtain ⟨hle, hle'⟩ := checkPrefix_le node.base key path.length
    split
    · -- the key ends within the prefix, and is not added
      rename_i hcheck
      rw [if_pos hcheck] at hins
      refine ⟨key, hreach, ?_⟩
      rw [if_pos rfl, searchFrom_of_ge]
      · exact (Option.some_ne_none _).symm
      · have hlt := node.base.prefixLen.toNat_lt
        have hends : ¬((path.length + (checkPrefix node.base key path.length).toNat : ℕ) : ℤ) <
            intSize key := by omega
        have hsmall : (checkPrefix node.base key path.length).toNat < 256 := by omega
        simp only [splitPrefix, if_neg hends]
        show ((path.length + ((ARTNode.node4 _).addChild _ _).base.prefixLen.toNat : ℕ) : ℤ) ≥ _
        rw [ARTNode.base_addChild]
        show ((path.length +
          (UInt8.ofNat (checkPrefix node.base key path.length).toNat).toNat : ℕ) : ℤ) ≥ _
        rw [UInt8.toNat_ofNat_of_lt' hsmall]
        omega
    · rename_i hcheck
      rw [if_neg hcheck] at hins
      split
      · -- the key ends at the node, and is not added
        rename_i hsize
        refine ⟨key, hreach, ?_⟩
        rw [if_pos rfl, searchFrom_of_ge hsize]
        exact (Option.some_ne_none _).symm
      · rename_i hsize
        rw [if_neg hsize] at hins
        have hb := reaches_child_of_insert hlen hreach hcheck hsize
        have hdepth := length_childPath path node.base
          (key.getD (path.length + node.base.prefixLen.toNat) 0)
        rw [hlen] at hdepth
        dsimp only
        generalize key.getD (path.length + node.base.prefixLen.toNat) 0 = b at hb hdepth hins ⊢
        cases hfind : node.findChild b with
        | some child =>
          rw [hfind] at hins
          dsimp only
          rw [← hdepth] at hins ⊢
          obtain ⟨k, hk, hlost⟩ := ih b child hfind hb hins
          generalize insert key value (some child) (childPath path node.base b).length = r
            at hlost ⊢
          have hsome : (node.findChild b).isSome := by rw [hfind]; rfl
          obtain ⟨-, hlen', hbytes', hfind'⟩ := hvalid.putChild hsome r.isNew r.node
          have hkpath : Reaches path k :=
            hk.of_le ((List.prefix_append _ _).trans (List.prefix_append _ _))
          refine ⟨k, hkpath, ?_⟩
          rw [(searchFrom_update hlen hlen' hbytes' hfind' hkpath).1 hk, searchFrom_child hlen hk,
            hfind]
          exact hlost
        | none =>
          rw [hfind] at hins
          exact absurd trivial hins

end ARTIndex

/-! ## Calls -/

/-- A call of one of the routines of the tree. -/
inductive ARTCall
  | insert (key : Bytes) (pos : LogRecordPos)
  | deleteNode (key : Bytes)
  | search (key : Bytes)

/-- What a call reports. -/
inductive ARTReport
  | inserted (oldValue : Option LogRecordPos)
  | deleted (oldValue : Option LogRecordPos) (found : Bool)
  | searched (leaf : Option ARTLeaf)

namespace ARTCall

/-- A call on the tree of a root: its report, and the root afterwards. -/
def run (root : Option ARTTree) : ARTCall → ARTReport × Option ARTTree
  | insert key pos =>
    let r := ARTIndex.insert key pos root 0
    (.inserted r.oldValue, some r.node)
  | deleteNode key =>
    let r := ARTIndex.deleteNode key root 0
    (.deleted r.oldValue r.found, r.node)
  | search key => (.searched (ARTIndex.search root key), root)

/-- The call on a map. -/
def runMap (m : Bytes → Option LogRecordPos) :
    ARTCall → ARTReport × (Bytes → Option LogRecordPos)
  | insert key pos => (.inserted (m key), Function.update m key (some pos))
  | deleteNode key => (.deleted (m key) (m key).isSome, Function.update m key none)
  | search key => (.searched ((m key).map (ARTLeaf.mk key)), m)

/-- A call loses no key: it is no insertion that takes a branch that loses one. -/
def Fits (root : Option ARTTree) : ARTCall → Prop
  | insert key _ => ARTIndex.Insertable key root 0
  | deleteNode _ | search _ => True

end ARTCall

namespace ARTIndex

/-- The tree of a root holds a map: every key of the map is found, and nothing else. -/
def Holds (root : Option ARTTree) (m : Bytes → Option LogRecordPos) : Prop :=
  ∀ key, search root key = (m key).map (ARTLeaf.mk key)

/-- Calls one after the other are those of a map: before and after each of them the
    tree holds the map, and each reports what it does on the map. -/
def IsMap (root : Option ARTTree) (m : Bytes → Option LogRecordPos) : List ARTCall → Prop
  | [] => Holds root m
  | call :: calls =>
    Holds root m ∧ (call.run root).1 = (call.runMap m).1 ∧
      IsMap (call.run root).2 (call.runMap m).2 calls

/-- Calls one after the other lose no key. -/
def AllFit (root : Option ARTTree) : List ARTCall → Prop
  | [] => True
  | call :: calls => call.Fits root ∧ AllFit (call.run root).2 calls

theorem IsMap.holds {root : Option ARTTree} {m : Bytes → Option LogRecordPos}
    {calls : List ARTCall} (h : IsMap root m calls) : Holds root m := by
  cases calls with
  | nil => exact h
  | cons call calls => exact h.1

theorem map_value_of_eq {found : Option ARTLeaf} {key : Bytes} {pos : Option LogRecordPos}
    (h : found = pos.map (ARTLeaf.mk key)) : found.map ARTLeaf.value = pos := by
  subst h
  cases pos <;> rfl

section Step

variable {root : Option ARTTree} {m : Bytes → Option LogRecordPos}
  (hwf : ∀ tree, root = some tree → Wf [] tree) (hholds : Holds root m)
include hwf hholds

/-- A call that loses no key is one of the map. -/
theorem run_right {call : ARTCall} (hfits : call.Fits root) :
    (call.run root).1 = (call.runMap m).1 ∧
      (∀ tree, (call.run root).2 = some tree → Wf [] tree) ∧
      Holds (call.run root).2 (call.runMap m).2 := by
  cases call with
  | insert key pos =>
    have hkey := hholds key
    cases root with
    | none =>
      have hnone : m key = none := by
        rw [search, searchFrom_nothing] at hkey
        exact (Option.map_eq_none_iff.1 hkey.symm)
      simp only [ARTCall.run, ARTCall.runMap, insert]
      refine ⟨by rw [hnone], fun tree htree => ?_, fun k => ?_⟩
      · obtain rfl := Option.some.inj htree
        exact .leaf (reaches_nil key)
      · have hk := hholds k
        rw [search, searchFrom_nothing] at hk
        rw [search, searchFrom_leaf, Function.update_apply]
        by_cases hkk : k = key
        · rw [if_pos hkk, if_pos hkk.symm, hkk]
          rfl
        · rw [if_neg hkk, if_neg (Ne.symm hkk), hk]
    | some tree =>
      have hr := insert_right pos (hwf tree rfl) (reaches_nil key) hfits
      have hold : (insert key pos (some tree) 0).oldValue = m key :=
        hr.oldValue.trans (map_value_of_eq hkey)
      refine ⟨congrArg ARTReport.inserted hold, fun tree' htree => ?_, fun k => ?_⟩
      · obtain rfl := Option.some.inj htree
        exact hr.wf
      · refine (hr.search k (reaches_nil k)).trans ?_
        show _ = (Function.update m key (some pos) k).map _
        rw [Function.update_apply]
        split
        · rename_i hkk
          rw [hkk]
          rfl
        · exact hholds k
  | deleteNode key =>
    have hkey := hholds key
    cases root with
    | none =>
      have hnone : m key = none := by
        rw [search, searchFrom_nothing] at hkey
        exact (Option.map_eq_none_iff.1 hkey.symm)
      simp only [ARTCall.run, ARTCall.runMap, deleteNode]
      refine ⟨by rw [hnone]; rfl, fun tree htree => ?_, fun k => ?_⟩
      · cases htree
      · rw [hholds k, Function.update_apply]
        split
        · rename_i hkk
          rw [hkk, hnone]
        · rfl
    | some tree =>
      have hr := deleteNode_right (hwf tree rfl) (reaches_nil key)
      have hold : (deleteNode key (some tree) 0).oldValue = m key :=
        hr.oldValue.trans (map_value_of_eq hkey)
      have hfound : (deleteNode key (some tree) 0).found = (m key).isSome := by
        refine hr.found.trans ?_
        show (search (some tree) key).isSome = _
        rw [hkey, Option.isSome_map]
      refine ⟨congrArg₂ ARTReport.deleted hold hfound, hr.wf, fun k => ?_⟩
      · refine (hr.search k (reaches_nil k)).trans ?_
        show _ = (Function.update m key none k).map _
        rw [Function.update_apply]
        split
        · rfl
        · exact hholds k
  | search key =>
    refine ⟨?_, hwf, hholds⟩
    show ARTReport.searched (search root key) = _
    rw [hholds key]
    rfl

/-- A call that loses a key is not. -/
theorem run_loses {call : ARTCall} (hfits : ¬call.Fits root) :
    ¬Holds (call.run root).2 (call.runMap m).2 := by
  cases call with
  | insert key pos =>
    cases root with
    | none =>
      refine absurd ?_ hfits
      show Insertable key none 0
      rw [Insertable]
      trivial
    | some tree =>
      obtain ⟨k, -, hk⟩ := insert_loses pos (hwf tree rfl) (reaches_nil key) hfits
      intro hafter
      refine hk ((hafter k).trans ?_)
      show (Function.update m key (some pos) k).map _ = _
      rw [Function.update_apply]
      split
      · rename_i hkk
        rw [hkk]
        rfl
      · exact (hholds k).symm
  | deleteNode key => exact absurd trivial hfits
  | search key => exact absurd trivial hfits

end Step

/-- From a tree that holds a map on, by induction on the calls. -/
theorem isMap_iff_allFit {root : Option ARTTree} {m : Bytes → Option LogRecordPos}
    (hwf : ∀ tree, root = some tree → Wf [] tree) (hholds : Holds root m) (calls : List ARTCall) :
    IsMap root m calls ↔ AllFit root calls := by
  induction calls generalizing root m with
  | nil => exact iff_of_true hholds trivial
  | cons call calls ih =>
    by_cases hfits : call.Fits root
    · obtain ⟨hreport, hwf', hholds'⟩ := run_right hwf hholds hfits
      constructor
      · rintro ⟨-, -, h⟩
        exact ⟨hfits, (ih hwf' hholds').1 h⟩
      · rintro ⟨-, h⟩
        exact ⟨hholds, hreport, (ih hwf' hholds').2 h⟩
    · constructor
      · rintro ⟨-, -, h⟩
        exact absurd h.holds (run_loses hwf hholds hfits)
      · rintro ⟨h, -⟩
        exact absurd h hfits

/-- The tree is a map as long as no insertion takes a branch that loses a key. -/
theorem isMap_iff (calls : List ARTCall) :
    IsMap none (fun _ => none) calls ↔ AllFit none calls :=
  isMap_iff_allFit (fun _ h => by cases h) (fun key => by rw [search, searchFrom_nothing]; rfl) calls

/-- A key is lost when one is inserted that goes on behind it. -/
theorem prefix_not_isMap : ¬IsMap none (fun _ => none)
    [.insert [112, 114, 101, 102, 105, 120] ⟨1, 10, 5⟩,
      .insert [112, 114, 101, 102, 105, 120, 97] ⟨2, 20, 6⟩] := by
  intro h
  have hlost := h.2.2.2.2 [112, 114, 101, 102, 105, 120]
  revert hlost
  decide +kernel

end ARTIndex

end Bitcask
