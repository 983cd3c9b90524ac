import Bitcask.ArtSearch

/-!
# Insertions into the radix tree and deletions

What the two routines are to do (`InsertedRight`, `DeletedRight`): keep the tree well
formed, return the old value, and change what is found under their key only.

* `deleteNode_right`: a deletion always does so;
* `insert_right`: an insertion does so where it takes no branch that loses a key.
-/

namespace Bitcask.ARTIndex

open ShiftedArray

/-! ## Deletions -/

/-- What deleting a key from a tree is to do. -/
structure DeletedRight (path key : Bytes) (tree : ARTTree) (r : Deleted) : Prop where
  wf : ∀ tree', r.node = some tree' → Wf path tree'
  oldValue : r.oldValue = (searchFrom key (some tree) path.length).map ARTLeaf.value
  found : r.found = (searchFrom key (some tree) path.length).isSome
  search : ∀ k, Reaches path k → searchFrom k r.node path.length =
    if k = key then none else searchFrom k (some tree) path.length

/-- Deleting a key that is not there changes nothing. -/
theorem DeletedRight.of_none {path key : Bytes} {tree : ARTTree} (hwf : Wf path tree)
    (h : searchFrom key (some tree) path.length = none) :
    DeletedRight path key tree { node := some tree, found := false } where
  wf tree' htree := Option.some.inj htree ▸ hwf
  oldValue := by rw [h]; rfl
  found := by rw [h]; rfl
  search k _ := by
    split
    · rename_i hk
      rw [hk, h]
    · rfl

/-- Deleting a key takes its leaf out of a tree, and nothing else. -/
theorem deleteNode_right {path key : Bytes} {tree : ARTTree} (h : Wf path tree)
    (hreach : Reaches path key) :
    DeletedRight path key tree (deleteNode key (some tree) path.length) := by
  induction h with
  | @leaf path leaf h =>
    rw [deleteNode]
    split
    · rename_i hkey
      refine ⟨fun tree' htree => ?_, ?_, ?_, fun k _ => ?_⟩
      · cases htree
      · rw [searchFrom_leaf, if_pos hkey]
        rfl
      · rw [searchFrom_leaf, if_pos hkey]
        rfl
      · rw [searchFrom_nothing, searchFrom_leaf, hkey]
        split
        · rfl
        · exact (if_neg (Ne.symm ‹_›)).symm
    · exact .of_none (.leaf h) (by rw [searchFrom_leaf, if_neg ‹_›])
  | @inner path node hvalid hlen hchild ih =>
    have hwf : Wf path (.inner node) := .inner hvalid hlen hchild
    by_cases hb : Reaches (childPath path node.base
        (key.getD (path.length + node.base.prefixLen.toNat) 0)) key
    · obtain ⟨hcheck, hsize⟩ := (reaches_child_iff hlen hreach).1 hb
      have hdepth := length_childPath path node.base
        (key.getD (path.length + node.base.prefixLen.toNat) 0)
      rw [hlen] at hdepth
      rw [deleteNode, if_neg hcheck, if_neg hsize]
      dsimp only
      generalize key.getD (path.length + node.base.prefixLen.toNat) 0 = b at hb hdepth ⊢
      have hold := searchFrom_child hlen hb
      split
      · rename_i child hfind
        rw [← hdepth]
        have hr := ih b child hfind hb
        generalize deleteNode key (some child) (childPath path node.base b).length = r at hr ⊢
        rw [hfind] at hold
        have hsome : (node.findChild b).isSome := by rw [hfind]; rfl
        obtain ⟨hvalid', hlen', hbytes', hfind'⟩ := hvalid.keepChild hsome r.node
        refine ⟨fun tree' htree => ?_, hold ▸ hr.oldValue, hold ▸ hr.found, fun k hk => ?_⟩
        · obtain rfl := Option.some.inj htree
          exact wf_replace hwf hvalid' hlen' hbytes' hfind' hr.wf
        · exact searchFrom_replace hlen hlen' hbytes' hfind' hb (hfind ▸ hr.search) hk
      · rename_i hfind
        exact .of_none hwf (by rw [hold, hfind, searchFrom_nothing])
    · have hnone := searchFrom_none hlen hreach (not_reaches_child hlen hb)
      have hstop : ¬(_ ∧ _) := fun h => hb ((reaches_child_iff hlen hreach).2 h)
      rw [deleteNode]
      split
      · exact .of_none hwf hnone
      · split
        · exact .of_none hwf hnone
        · exact absurd ⟨‹_›, ‹_›⟩ hstop

/-! ## Insertions -/

/-- What inserting a key into a tree is to do. -/
structure InsertedRight (path key : Bytes) (value : LogRecordPos) (tree : ARTTree) (r : Inserted) :
    Prop where
  wf : Wf path r.node
  oldValue : r.oldValue = (searchFrom key (some tree) path.length).map ARTLeaf.value
  search : ∀ k, Reaches path k → searchFrom k (some r.node) path.length =
    if k = key then some ⟨key, value⟩ else searchFrom k (some tree) path.length

theorem commonBytes_spec {key key' : Bytes} {depth : ℕ}
    (h : ((depth + commonBytes key key' depth : ℕ) : ℤ) < intSize key)
    (h' : ((depth + commonBytes key key' depth : ℕ) : ℤ) < intSize key') :
    (∀ i < commonBytes key key' depth, key.getD (depth + i) 0 = key'.getD (depth + i) 0) ∧
      key.getD (depth + commonBytes key key' depth) 0 ≠
        key'.getD (depth + commonBytes key key' depth) 0 := by
  constructor
  · intro i hi
    have := of_lt_firstIndex (p := fun i => key.getD (depth + i) 0 != key'.getD (depth + i) 0) hi
    exact bne_eq_false_iff_eq.1 this
  · have hlt : commonBytes key key' depth < (min (intSize key) (intSize key') - depth).toNat := by
      omega
    exact bne_iff_ne.1 (firstIndex_spec
      (p := fun i => key.getD (depth + i) 0 != key'.getD (depth + i) 0) hlt)

section Split

variable {path key : Bytes} {leaf : ARTLeaf} {value : LogRecordPos}

/-- A new node for the bytes that are common, if any, is one with these bytes. -/
theorem newNode_eq (key key' : Bytes) (depth : ℕ) :
    (if commonBytes key key' depth > 0 then
      { prefixLen := UInt8.ofNat (commonBytes key key' depth)
        prefixBytes := (key.drop depth).take (commonBytes key key' depth) }
    else {} : ARTNode4 ARTTree) =
      { prefixLen := UInt8.ofNat (commonBytes key key' depth)
        prefixBytes := (key.drop depth).take (commonBytes key key' depth) } := by
  split
  · rfl
  · rename_i h0
    rw [Nat.eq_zero_of_not_pos h0, List.take_zero]
    rfl

theorem splitLeaf_eq {depth : ℕ}
    (h : ((depth + commonBytes key leaf.key depth : ℕ) : ℤ) < intSize key)
    (h' : ((depth + commonBytes key leaf.key depth : ℕ) : ℤ) < intSize leaf.key) :
    ARTNode.node4 (splitLeaf leaf key value depth) =
      ((ARTNode.node4 {
          prefixLen := UInt8.ofNat (commonBytes key leaf.key depth)
          prefixBytes := (key.drop depth).take (commonBytes key leaf.key depth) }).addChild
        (key.getD (depth + commonBytes key leaf.key depth) 0) (some (.leaf ⟨key, value⟩))).addChild
        (leaf.key.getD (depth + commonBytes key leaf.key depth) 0) (some (.leaf leaf)) := by
  rw [splitLeaf]
  simp only [if_pos h, if_pos h', newNode_eq]
  rfl

/-- A leaf and a key that branch off from each other hang on one new node. -/
theorem splitLeaf_right (hleaf : Reaches path leaf.key) (hreach : Reaches path key)
    (hcommon : commonBytes key leaf.key path.length < 256)
    (h : ((path.length + commonBytes key leaf.key path.length : ℕ) : ℤ) < intSize key)
    (h' : ((path.length + commonBytes key leaf.key path.length : ℕ) : ℤ) < intSize leaf.key) :
    InsertedRight path key value (.leaf leaf)
      { node := .inner (.node4 (splitLeaf leaf key value path.length)), isNew := true } := by
  obtain ⟨hsame, hbyte⟩ := commonBytes_spec h h'
  rw [splitLeaf_eq h h']
  generalize hc : commonBytes key leaf.key path.length = c at hcommon h h' hsame hbyte ⊢
  obtain ⟨hvalid, hlen, hbytes, hfind⟩ := ARTNode.pair_spec (UInt8.ofNat c)
    ((key.drop path.length).take c) hbyte.symm (ARTTree.leaf ⟨key, value⟩) (.leaf leaf)
  generalize ((ARTNode.node4 _).addChild _ _).addChild _ _ = node at hvalid hlen hbytes hfind ⊢
  have hsize := intSize_le key
  have hsize' := intSize_le leaf.key
  have htake : ((key.drop path.length).take c).length = c := by
    rw [List.length_take, List.length_drop]
    omega
  have hlen' : node.base.prefixBytes.length = node.base.prefixLen.toNat := by
    rw [hbytes, htake, hlen]
    exact (UInt8.toNat_ofNat_of_lt' hcommon).symm
  have hpath : path ++ node.base.prefixBytes <+: key := by
    obtain ⟨rest, rfl⟩ := hreach.1
    rw [hbytes, List.drop_left]
    exact (List.prefix_append_right_inj path).2 (List.take_prefix c rest)
  have hpath' : path ++ node.base.prefixBytes <+: leaf.key := by
    refine prefix_of_getD hleaf.1 (by rw [hbytes, htake]; omega) fun i hi => ?_
    rw [← getD_of_path hpath hi]
    rw [hbytes, htake] at hi
    exact hsame i hi
  have hchild : Reaches (childPath path node.base (key.getD (path.length + c) 0)) key := by
    have := Reaches.child hpath (by rw [hbytes, htake]; exact h)
    rwa [hbytes, htake] at this
  have hchild' : Reaches (childPath path node.base (leaf.key.getD (path.length + c) 0))
      leaf.key := by
    have := Reaches.child hpath' (by rw [hbytes, htake]; exact h')
    rwa [hbytes, htake] at this
  have hne : leaf.key ≠ key := fun heq => hbyte (by rw [heq])
  refine ⟨.inner hvalid hlen' fun b child hb => ?_, ?_, fun k hk => ?_⟩
  · rw [hfind] at hb
    split at hb
    · rename_i hkey
      obtain rfl := Option.some.inj hb
      exact .leaf (hkey ▸ hchild')
    · split at hb
      · rename_i hkey
        obtain rfl := Option.some.inj hb
        exact .leaf (hkey ▸ hchild)
      · cases hb
  · rw [searchFrom_leaf, if_neg hne]
    rfl
  · rw [searchFrom_leaf]
    split
    · rename_i hkey
      rw [hkey, searchFrom_child hlen' hchild, hfind, if_neg hbyte, if_pos rfl, searchFrom_leaf,
        if_pos rfl]
    · rename_i hkey
      split
      · rename_i hkey'
        rw [← hkey', searchFrom_child hlen' hchild', hfind, if_pos rfl, searchFrom_leaf,
          if_pos rfl]
      · rename_i hkey'
        -- any other key meets one of the two leaves, if any
        rcases searchFrom_cases hlen' hk with ⟨b, -, hb⟩ | ⟨-, hb⟩
        · rw [hb, hfind]
          split
          · rw [searchFrom_leaf, if_neg hkey']
          · split
            · rw [searchFrom_leaf, if_neg (Ne.symm hkey)]
            · rw [searchFrom_nothing]
        · exact hb

variable {node : ARTNode ARTTree}

theorem splitPrefix_eq {depth m : ℕ} (h : ((depth + m : ℕ) : ℤ) < intSize key) :
    ARTNode.node4 (splitPrefix node m key value depth) =
      ((ARTNode.node4 {
          prefixLen := UInt8.ofNat m
          prefixBytes := node.base.prefixBytes.take m }).addChild
        (node.base.prefixBytes.getD m 0) (some (.inner (restNode node m)))).addChild
        (key.getD (depth + m) 0) (some (.leaf ⟨key, value⟩)) := by
  rw [splitPrefix]
  simp only [if_pos h]
  rfl

section Rest

variable (hlen : node.base.prefixBytes.length = node.base.prefixLen.toNat) {m : ℕ}
  (hm : m < node.base.prefixLen.toNat)
include hlen hm

/-- What is left of a prefix is what is behind the byte of the split. -/
theorem prefix_restNode : (restNode node m).base.prefixBytes = node.base.prefixBytes.drop (m + 1) ∧
    (restNode node m).base.prefixBytes.length = (restNode node m).base.prefixLen.toNat := by
  have hbyte := node.base.prefixLen.toNat_lt
  have hsucc : (UInt8.ofNat (m + 1)).toNat = m + 1 :=
    UInt8.toNat_ofNat_of_lt' (by show m + 1 < 256; omega)
  have hsub : (node.base.prefixLen - UInt8.ofNat (m + 1)).toNat =
      node.base.prefixLen.toNat - (m + 1) := by
    rw [UInt8.toNat_sub_of_le _ _ (UInt8.le_iff_toNat_le.2 (by omega)), hsucc]
  have hdrop : (restNode node m).base.prefixBytes = node.base.prefixBytes.drop (m + 1) := by
    rw [restNode, ARTNode.base_setPrefix]
    split
    · rfl
    · rename_i hzero
      have hzero : ¬0 < (node.base.prefixLen - UInt8.ofNat (m + 1)).toNat := hzero
      rw [List.drop_of_length_le (by omega)]
  refine ⟨hdrop, ?_⟩
  rw [hdrop, List.length_drop, hlen, restNode, ARTNode.base_setPrefix, hsub]

/-- The children of the node are where they were. -/
theorem childPath_restNode (path : Bytes) {base : ARTNodeBase}
    (hbytes : base.prefixBytes = node.base.prefixBytes.take m) (b : UInt8) :
    childPath (childPath path base (node.base.prefixBytes.getD m 0)) (restNode node m).base b =
      childPath path node.base b := by
  have hsplit : node.base.prefixBytes =
      node.base.prefixBytes.take m ++ [node.base.prefixBytes.getD m 0] ++
        node.base.prefixBytes.drop (m + 1) := by
    rw [List.getD_eq_getElem _ _ (by omega), List.append_assoc, List.singleton_append,
      List.cons_getElem_drop_succ, List.take_append_drop]
  rw [childPath, childPath, childPath, (prefix_restNode hlen hm).1, hbytes]
  conv_rhs => rw [hsplit]
  simp only [List.append_assoc]

/-- Whatever reaches the byte of the split finds the same below it. -/
theorem searchFrom_restNode {base : ARTNodeBase}
    (hbytes : base.prefixBytes = node.base.prefixBytes.take m) {k : Bytes}
    (hk : Reaches (childPath path base (node.base.prefixBytes.getD m 0)) k) :
    searchFrom k (some (.inner (restNode node m)))
        (childPath path base (node.base.prefixBytes.getD m 0)).length =
      searchFrom k (some (.inner node)) path.length := by
  have hchildPath (b : UInt8) := childPath_restNode hlen hm path hbytes b
  have hlen' := (prefix_restNode hlen hm).2
  rcases searchFrom_cases hlen' hk with ⟨b, hb, hfound⟩ | ⟨hno, hnone⟩
  · rw [hfound, hchildPath, restNode, ARTNode.findChild_setPrefix]
    rw [hchildPath] at hb
    exact (searchFrom_child hlen hb).symm
  · rw [hnone]
    refine (searchFrom_none hlen (hk.of_le ?_) fun b hb => hno b ((hchildPath b).symm ▸ hb)).symm
    exact (List.prefix_append _ _).trans (List.prefix_append _ _)

end Rest

/-- A key that leaves the prefix of a node hangs beside what is left of it. -/
theorem splitPrefix_right (hwf : Wf path (.inner node)) (hreach : Reaches path key) {m : ℕ}
    (hcheck : checkPrefix node.base key path.length = m) (hm : m < node.base.prefixLen.toNat)
    (h : ((path.length + m : ℕ) : ℤ) < intSize key) :
    InsertedRight path key value (.inner node)
      { node := .inner (.node4 (splitPrefix node m key value path.length)), isNew := true } := by
  cases hwf with | inner hvalid hlen hchild
  obtain ⟨hpath, hbyte⟩ := checkPrefix_spec hreach.1 hlen hcheck
  have hbyte := hbyte hm h
  rw [splitPrefix_eq h]
  obtain ⟨hvalid', hlen', hbytes, hfind⟩ := ARTNode.pair_spec (UInt8.ofNat m)
    (node.base.prefixBytes.take m) hbyte.symm (ARTTree.inner (restNode node m)) (.leaf ⟨key, value⟩)
  generalize ((ARTNode.node4 _).addChild _ _).addChild _ _ = newNode at hvalid' hlen' hbytes hfind ⊢
  have hlt := node.base.prefixLen.toNat_lt
  have htake : (node.base.prefixBytes.take m).length = m := by
    rw [List.length_take]
    omega
  have hnewlen : newNode.base.prefixBytes.length = newNode.base.prefixLen.toNat := by
    rw [hbytes, htake, hlen']
    exact (UInt8.toNat_ofNat_of_lt' (by show m < 256; omega)).symm
  have hchildPath (b : UInt8) := childPath_restNode hlen hm path hbytes b
  -- every key below the node reaches the byte of the split
  have hbelow {k : Bytes} {b : UInt8} (hb : Reaches (childPath path node.base b) k) :
      Reaches (childPath path newNode.base (node.base.prefixBytes.getD m 0)) k := by
    rw [← hchildPath b] at hb
    exact hb.of_le ((List.prefix_append _ _).trans (List.prefix_append _ _))
  have hkey : Reaches (childPath path newNode.base (key.getD (path.length + m) 0)) key := by
    have hpath : path ++ newNode.base.prefixBytes <+: key := hbytes ▸ hpath
    have := Reaches.child hpath (by rw [hbytes, htake]; exact h)
    rwa [hbytes, htake] at this
  have hnone : searchFrom key (some (.inner node)) path.length = none :=
    searchFrom_none hlen hreach fun b hb => hbyte ((hbelow hb).childPath_inj hkey)
  refine ⟨.inner hvalid' hnewlen fun b child hb => ?_, ?_, fun k hk => ?_⟩
  · rw [hfind] at hb
    split at hb
    · rename_i hbk
      obtain rfl := Option.some.inj hb
      exact .leaf (hbk ▸ hkey)
    · split at hb
      · rename_i hbk
        obtain rfl := Option.some.inj hb
        refine hbk ▸ .inner (hvalid.setPrefix _ _) (prefix_restNode hlen hm).2 fun b' child hb' => ?_
        rw [hchildPath]
        rw [restNode, ARTNode.findChild_setPrefix] at hb'
        exact hchild b' child hb'
      · cases hb
  · rw [hnone]
    rfl
  · split
    · rename_i hkk
      rw [hkk, searchFrom_child hnewlen hkey, hfind, if_pos rfl, searchFrom_leaf, if_pos rfl]
    · rename_i hkk
      rcases searchFrom_cases hnewlen hk with ⟨b, hb, hfound⟩ | ⟨hno, hfound⟩
      · rw [hfound, hfind]
        split
        · -- the byte of the key is not the one of the split
          rename_i hbk
          rw [searchFrom_leaf, if_neg (Ne.symm hkk)]
          refine (searchFrom_none hlen hk fun b' hb' => hbyte ?_).symm
          rw [← hbk]
          exact (hbelow hb').childPath_inj hb
        · split
          · rename_i hbk
            subst hbk
            exact searchFrom_restNode hlen hm hbytes hb
          · rename_i hbk
            rw [searchFrom_nothing]
            refine (searchFrom_none hlen hk fun b' hb' => hbk ?_).symm
            exact hb.childPath_inj (hbelow hb')
      · rw [hfound]
        exact (searchFrom_none hlen hk fun b' hb' => hno _ (hbelow hb')).symm

end Split

/-- An insertion that loses no key puts a leaf into a tree, and changes nothing else. -/
theorem insert_right {path key : Bytes} (value : LogRecordPos) {tree : ARTTree} (h : Wf path tree)
    (hreach : Reaches path key) (hins : Insertable key (some tree) path.length) :
    InsertedRight path key value tree (insert key value (some tree) path.length) := by
  induction h with
  | @leaf path leaf h =>
    rw [insert]
    rw [Insertable] at hins
    split
    · rename_i hkey
      have hfound := searchFrom_leaf leaf key path.length
      rw [if_pos hkey] at hfound
      refine ⟨.leaf h, by rw [hfound]; rfl, fun k _ => ?_⟩
      rw [searchFrom_leaf, searchFrom_leaf]
      subst hkey
      by_cases hk : k = leaf.key
      · rw [if_pos hk.symm, if_pos hk]
      · rw [if_neg (Ne.symm hk), if_neg hk, if_neg (Ne.symm hk)]
    · obtain ⟨hcommon, hsize, hsize'⟩ := hins.resolve_left ‹_›
      exact splitLeaf_right h hreach hcommon hsize hsize'
  | @inner path node hvalid hlen hchild ih =>
    have hwf : Wf path (.inner node) := .inner hvalid hlen hchild
    rw [Insertable] at hins
    rw [insert]
    split
    · rename_i hcheck
      rw [if_pos hcheck] at hins
      have hpos := checkPrefix_nonneg hins
      exact splitPrefix_right hwf hreach (Int.toNat_of_nonneg hpos).symm (by omega) (by omega)
    · rename_i hcheck
      rw [if_neg hcheck] at hins
      split
      · rename_i hsize
        rw [if_pos hsize] at hins
        exact hins.elim
      · rename_i hsize
        rw [if_neg hsize] at hins
        have hb := reaches_child_of_insert hlen hreach hcheck hsize
        have hdepth := length_childPath path node.base
          (key.getD (path.length + node.base.prefixLen.toNat) 0)
        rw [hlen] at hdepth
        dsimp only
        generalize key.getD (path.length + node.base.prefixLen.toNat) 0 = b at hb hdepth hins ⊢
        have hold := searchFrom_child hlen hb
        cases hfind : node.findChild b with
        | some child =>
          -- the child is the tree that the insertion into it returns
          rw [hfind] at hins hold
          dsimp only
          rw [← hdepth] at hins ⊢
          have hr := ih b child hfind hb hins
          generalize insert key value (some child) (childPath path node.base b).length = r
            at hr ⊢
          have hsome : (node.findChild b).isSome := by rw [hfind]; rfl
          obtain ⟨hvalid', hlen', hbytes', hfind'⟩ := hvalid.putChild hsome r.isNew r.node
          refine ⟨wf_replace hwf hvalid' hlen' hbytes' hfind' fun c hc => ?_, hold ▸ hr.oldValue,
            fun k hk => ?_⟩
          · obtain rfl := Option.some.inj hc
            exact hr.wf
          · exact searchFrom_replace hlen hlen' hbytes' hfind' hb (hfind ▸ hr.search) hk
        | none =>
          -- a leaf hangs where there was no child
          rw [hfind, searchFrom_nothing] at hold
          obtain ⟨hvalid', hlen', hbytes', hfind'⟩ :=
            hvalid.newChild hfind (ARTTree.leaf ⟨key, value⟩)
          refine ⟨wf_replace hwf hvalid' hlen' hbytes' hfind' fun c hc => ?_, ?_, fun k hk => ?_⟩
          · obtain rfl := Option.some.inj hc
            exact .leaf hb
          · rw [hold]
            rfl
          · refine searchFrom_replace hlen hlen' hbytes' hfind' hb (fun k' _ => ?_) hk
            rw [searchFrom_leaf, hfind, searchFrom_nothing]
            exact if_congr eq_comm rfl rfl

end Bitcask.ARTIndex
