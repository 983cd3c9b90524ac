import Bitcask.Index

/-!
# Skip lists

The index of type `SKIPLIST`. A skip list is the chain of its nodes in the order
of their keys, each with its level: what a node points to at a level is the next
node that reaches it. Searching walks the levels downwards; where it ends does
not depend on them (`findNode_eq`), so neither does the map of the index.
-/

namespace Bitcask

/-! ## The order of keys -/

def compareKeys : Bytes → Bytes → Ordering
  | [], [] => .eq
  | [], _ :: _ => .lt
  | _ :: _, [] => .gt
  | a :: as, b :: bs => if a < b then .lt else if b < a then .gt else compareKeys as bs

theorem compareKeys_eq_compare (a b : Bytes) : compareKeys a b = compare a b := by
  fun_induction compareKeys a b with
  | case1 => rfl
  | case2 => rfl
  | case3 => rfl
  | case4 a as b bs h =>
    show _ = List.compareLex compare (a :: as) (b :: bs)
    rw [List.compareLex_cons_cons, Std.compare_eq_lt.2 h]
    rfl
  | case5 a as b bs _ h =>
    show _ = List.compareLex compare (a :: as) (b :: bs)
    rw [List.compareLex_cons_cons, Std.compare_eq_gt.2 h]
    rfl
  | case6 a as b bs h1 h2 ih =>
    have heq : a = b := UInt8.le_antisymm (UInt8.not_lt.1 h2) (UInt8.not_lt.1 h1)
    show _ = List.compareLex compare (a :: as) (b :: bs)
    have hself : compare b b = .eq := Std.ReflCmp.compare_self
    rw [List.compareLex_cons_cons, heq, hself, ih]
    rfl

theorem compareKeys_eq_iff {a b : Bytes} : compareKeys a b = .eq ↔ a = b := by
  rw [compareKeys_eq_compare, Std.LawfulEqCmp.compare_eq_iff_eq]

theorem compareKeys_trans {a b c : Bytes} (h : compareKeys a b = .lt)
    (h' : compareKeys b c = .lt) : compareKeys a c = .lt := by
  rw [compareKeys_eq_compare] at h h' ⊢
  exact Std.TransCmp.lt_trans h h'

theorem compareKeys_gt_iff {a b : Bytes} : compareKeys a b = .gt ↔ compareKeys b a = .lt := by
  rw [compareKeys_eq_compare, compareKeys_eq_compare]
  exact Std.OrientedCmp.gt_iff_lt

/-! ## Searching -/

/-- A node of a skip list. It is pointed to at the levels up to its own. -/
structure SkipListNode where
  key : Bytes
  pos : LogRecordPos
  level : ℕ
deriving DecidableEq, Repr

/-- The nodes from the one on that is pointed to at a level. -/
def forward (level : ℕ) (after : List SkipListNode) : List SkipListNode :=
  after.dropWhile fun node => node.level < level

/-- The loop of `findNode` at one level: what is behind the last node reached. -/
def advance (key : Bytes) (level : ℕ) : ℕ → List SkipListNode → List SkipListNode
  | 0, after => after
  | fuel + 1, after =>
    match forward level after with
    | node :: rest =>
      if compareKeys node.key key = .lt then advance key level fuel rest else after
    | [] => after

/-- The levels walked by `findNode`, from one downwards. -/
def descend (key : Bytes) : ℕ → List SkipListNode → List SkipListNode
  | 0, after => advance key 0 after.length after
  | level + 1, after => descend key level (advance key (level + 1) after.length after)

/-- The keys of nodes ascend. -/
abbrev Ascending (nodes : List SkipListNode) : Prop :=
  nodes.Pairwise fun a b => compareKeys a.key b.key = .lt

/-- What is left of some nodes when only nodes before a key have been passed. -/
def Passed (key : Bytes) (nodes after : List SkipListNode) : Prop :=
  ∃ before, nodes = before ++ after ∧ ∀ node ∈ before, compareKeys node.key key = .lt

namespace Passed

variable {key : Bytes} {nodes after after' : List SkipListNode}

theorem refl (key : Bytes) (nodes : List SkipListNode) : Passed key nodes nodes :=
  ⟨[], rfl, nofun⟩

theorem trans (h : Passed key nodes after) (h' : Passed key after after') :
    Passed key nodes after' := by
  obtain ⟨before, rfl, h⟩ := h
  obtain ⟨before', rfl, h'⟩ := h'
  exact ⟨before ++ before', (List.append_assoc ..).symm, List.forall_mem_append.2 ⟨h, h'⟩⟩

/-- All nodes before one that is passed are passed. -/
theorem of_forward {node : SkipListNode} {rest : List SkipListNode} {level : ℕ}
    (hsorted : Ascending nodes) (h : forward level nodes = node :: rest)
    (hnode : compareKeys node.key key = .lt) : Passed key nodes rest := by
  refine ⟨nodes.takeWhile (fun n => n.level < level) ++ [node], ?_, ?_⟩
  · rw [List.append_assoc, List.singleton_append, ← h, forward, List.takeWhile_append_dropWhile]
  · have hsplit : nodes = nodes.takeWhile (fun n => n.level < level) ++ node :: rest := by
      rw [← h, forward, List.takeWhile_append_dropWhile]
    rw [hsplit, Ascending, List.pairwise_append] at hsorted
    refine List.forall_mem_append.2 ⟨fun n hn => ?_, List.forall_mem_singleton.2 hnode⟩
    exact compareKeys_trans (hsorted.2.2 n hn node List.mem_cons_self) hnode

theorem ascending (h : Passed key nodes after) (hsorted : Ascending nodes) : Ascending after := by
  obtain ⟨before, rfl, -⟩ := h
  exact (List.pairwise_append.1 hsorted).2.1

end Passed

theorem passed_advance {key : Bytes} {level fuel : ℕ} {after : List SkipListNode}
    (hsorted : Ascending after) : Passed key after (advance key level fuel after) := by
  induction fuel generalizing after with
  | zero => exact .refl _ _
  | succ fuel ih =>
    rw [advance]
    split
    · split
      · have h := Passed.of_forward hsorted ‹_› ‹_›
        exact h.trans (ih (h.ascending hsorted))
      · exact .refl _ _
    · exact .refl _ _

/-- At the lowest level no node before the key is left. -/
theorem head_advance_zero {key : Bytes} {fuel : ℕ} {after : List SkipListNode}
    (hfuel : after.length ≤ fuel) {node : SkipListNode}
    (h : node ∈ (advance key 0 fuel after).head?) : compareKeys node.key key ≠ .lt := by
  induction fuel generalizing after with
  | zero =>
    rw [List.length_eq_zero_iff.1 (Nat.le_zero.1 hfuel)] at h
    simp [advance] at h
  | succ fuel ih =>
    have hforward : forward 0 after = after := by
      cases after <;> simp [forward]
    rw [advance, hforward] at h
    split at h
    · split at h
      · exact ih (by simpa using hfuel) h
      · simp only [List.head?_cons, Option.mem_some_iff] at h
        rwa [← h]
    · simp at h

theorem passed_descend {key : Bytes} {level : ℕ} {after : List SkipListNode}
    (hsorted : Ascending after) : Passed key after (descend key level after) ∧
      ∀ node ∈ (descend key level after).head?, compareKeys node.key key ≠ .lt := by
  induction level generalizing after with
  | zero => exact ⟨passed_advance hsorted, fun _ h => head_advance_zero (le_refl _) h⟩
  | succ level ih =>
    have h : Passed key after (advance key (level + 1) after.length after) :=
      passed_advance hsorted
    obtain ⟨h1, h2⟩ := ih (h.ascending hsorted)
    exact ⟨h.trans h1, h2⟩

/-! ## Nodes with a key -/

/-- The position of a key. -/
def valueOf (nodes : List SkipListNode) (key : Bytes) : Option LogRecordPos :=
  (nodes.find? fun node => node.key = key).map SkipListNode.pos

/-- The first of some nodes if its key is the one looked for. -/
def found (key : Bytes) : List SkipListNode → Option SkipListNode
  | node :: _ => if compareKeys node.key key = .eq then some node else none
  | [] => none

/-- Nodes are split at a key: those before it, and those from it on. -/
structure SplitAt (key : Bytes) (before after : List SkipListNode) : Prop where
  ascending : Ascending (before ++ after)
  before_lt : ∀ node ∈ before, compareKeys node.key key = .lt
  head_not_lt : ∀ node ∈ after.head?, compareKeys node.key key ≠ .lt

theorem found_eq_some {key : Bytes} {after : List SkipListNode} {node : SkipListNode}
    (h : found key after = some node) : after = node :: after.tail ∧ node.key = key := by
  cases after with
  | nil => cases h
  | cons first rest =>
    rw [found] at h
    split at h
    · obtain rfl := Option.some.inj h
      exact ⟨rfl, compareKeys_eq_iff.1 ‹_›⟩
    · cases h

namespace SplitAt

variable {key : Bytes} {before after rest : List SkipListNode} {node : SkipListNode}

theorem ne_of_mem_before (h : SplitAt key before after) (hnode : node ∈ before) :
    node.key ≠ key := by
  intro heq
  have := h.before_lt node hnode
  rw [compareKeys_eq_iff.2 heq] at this
  cases this

theorem rest_gt (h : SplitAt key before (node :: rest)) (hnode : compareKeys key node.key ≠ .gt) :
    ∀ n ∈ rest, compareKeys key n.key = .lt := by
  intro n hn
  have hsorted := (List.pairwise_append.1 h.ascending).2.1
  have hlt := (List.pairwise_cons.1 hsorted).1 n hn
  cases hcmp : compareKeys key node.key with
  | lt => exact compareKeys_trans hcmp hlt
  | eq => rwa [compareKeys_eq_iff.1 hcmp]
  | gt => exact absurd hcmp hnode

/-- The first node from the key on does not precede it. -/
theorem not_gt (h : SplitAt key before (node :: rest)) : compareKeys key node.key ≠ .gt := by
  rw [Ne, compareKeys_gt_iff]
  exact h.head_not_lt node rfl

/-- Nor do the others. -/
theorem not_lt (h : SplitAt key before after) : ∀ n ∈ after, compareKeys n.key key ≠ .lt := by
  intro n hn
  cases after with
  | nil => cases hn
  | cons node rest =>
    rcases List.mem_cons.1 hn with rfl | hn
    · exact h.head_not_lt n rfl
    · rw [compareKeys_gt_iff.2 (h.rest_gt h.not_gt n hn)]
      decide

theorem ne_of_mem_rest (h : SplitAt key before (node :: rest)) {n : SkipListNode}
    (hn : n ∈ rest) : n.key ≠ key := by
  intro heq
  have := h.rest_gt h.not_gt n hn
  rw [compareKeys_eq_iff.2 heq.symm] at this
  cases this

/-- The key is found where the nodes are split, or not at all. -/
theorem valueOf_eq (h : SplitAt key before after) :
    valueOf (before ++ after) key = (found key after).map SkipListNode.pos := by
  have hbefore : before.find? (fun node => node.key = key) = none :=
    List.find?_eq_none.2 fun n hn => by simpa using h.ne_of_mem_before hn
  rw [valueOf, List.find?_append, hbefore, Option.none_or]
  cases after with
  | nil => rfl
  | cons node rest =>
    have hrest : rest.find? (fun node => node.key = key) = none :=
      List.find?_eq_none.2 fun n hn => by simpa using h.ne_of_mem_rest hn
    rw [found, List.find?_cons, hrest]
    by_cases heq : node.key = key
    · simp [heq, compareKeys_eq_iff]
    · simp [heq, compareKeys_eq_iff]

/-- A node with the key instead of the one found. -/
theorem ascending_replace (h : SplitAt key before after) {old : SkipListNode}
    (hfound : found key after = some old) (hnode : node.key = key) :
    Ascending (before ++ node :: after.tail) := by
  obtain ⟨hafter, hkey⟩ := found_eq_some hfound
  have hsorted := h.ascending
  rw [hafter] at hsorted
  obtain ⟨h1, h2, h3⟩ := List.pairwise_append.1 hsorted
  rw [List.pairwise_cons] at h2
  simp only [List.forall_mem_cons] at h3
  refine List.pairwise_append.2 ⟨h1, List.pairwise_cons.2 ⟨?_, h2.2⟩, fun a ha => ?_⟩
  · rw [hnode, ← hkey]
    exact h2.1
  · rw [List.forall_mem_cons, hnode, ← hkey]
    exact h3 a ha

/-- A node with the key if there was none. -/
theorem ascending_insert (h : SplitAt key before after) (hfound : found key after = none)
    (hnode : node.key = key) : Ascending (before ++ node :: after) := by
  obtain ⟨h1, h2, h3⟩ := List.pairwise_append.1 h.ascending
  refine List.pairwise_append.2 ⟨h1, List.pairwise_cons.2 ⟨fun n hn => ?_, h2⟩, fun a ha => ?_⟩
  · cases after with
    | nil => cases hn
    | cons first rest =>
      rw [hnode]
      rcases List.mem_cons.1 hn with rfl | hn
      · cases hcmp : compareKeys key n.key with
        | lt => rfl
        | eq => simp [found, compareKeys_eq_iff.2 (compareKeys_eq_iff.1 hcmp).symm] at hfound
        | gt => exact absurd hcmp h.not_gt
      · exact h.rest_gt h.not_gt n hn
  · rw [List.forall_mem_cons, hnode]
    exact ⟨h.before_lt a ha, h3 a ha⟩

theorem ascending_tail (h : SplitAt key before after) : Ascending (before ++ after.tail) :=
  h.ascending.sublist ((List.tail_sublist _).append_left _)

end SplitAt

/-- The keys other than that of a node are found without it. -/
theorem valueOf_insert {before rest : List SkipListNode} {node : SkipListNode} {key : Bytes}
    (h : key ≠ node.key) : valueOf (before ++ node :: rest) key = valueOf (before ++ rest) key := by
  rw [valueOf, valueOf, List.find?_append, List.find?_append, List.find?_cons]
  simp [h.symm]

/-! ## The index -/

def maxLevel : ℕ := 16

/-- The index of type `SKIPLIST`. Its generator of random numbers is seeded when it
    is created; `levels` tells the levels drawn from a seed. -/
structure SkipListIndex (levels : ℕ → ℕ → ℕ) where
  nodes : List SkipListNode
  level : ℕ
  seed : ℕ
  drawn : ℕ
  ascending : Ascending nodes

namespace SkipListIndex

variable {levels : ℕ → ℕ → ℕ} (i : SkipListIndex levels) (key : Bytes)

/-- The nodes from the first one on that does not precede a key. -/
def findNode : List SkipListNode := descend key i.level i.nodes

/-- The nodes before those that `findNode` returns. -/
def update : List SkipListNode := i.nodes.take (i.nodes.length - (i.findNode key).length)

theorem exists_before : i.nodes = i.update key ++ i.findNode key ∧
    ∀ node ∈ i.update key, compareKeys node.key key = .lt := by
  obtain ⟨before, hsplit, hbefore⟩ : Passed key i.nodes (i.findNode key) :=
    (passed_descend i.ascending).1
  have hupdate : i.update key = before := by
    unfold update
    generalize i.findNode key = after at hsplit ⊢
    simp [hsplit]
  rw [hupdate]
  exact ⟨hsplit, hbefore⟩

theorem splitAt : SplitAt key (i.update key) (i.findNode key) where
  ascending := (i.exists_before key).1 ▸ i.ascending
  before_lt := (i.exists_before key).2
  head_not_lt := (passed_descend i.ascending).2

/-- Looking a key up gives what the search finds. -/
theorem valueOf_nodes : valueOf i.nodes key = (found key (i.findNode key)).map SkipListNode.pos := by
  rw [(i.exists_before key).1]
  exact (i.splitAt key).valueOf_eq

def get : Option LogRecordPos := (found key (i.findNode key)).map SkipListNode.pos

def randomLevel : ℕ := min maxLevel (levels i.seed i.drawn)

def put (pos : LogRecordPos) : Option LogRecordPos × SkipListIndex levels :=
  match h : found key (i.findNode key) with
  | some old =>
    (some old.pos, { i with
      nodes := i.update key ++ { old with pos := pos } :: (i.findNode key).tail
      ascending := (i.splitAt key).ascending_replace h (found_eq_some h).2 })
  | none =>
    (none, { i with
      nodes := i.update key ++ ⟨key, pos, i.randomLevel⟩ :: i.findNode key
      level := max i.level i.randomLevel
      drawn := i.drawn + 1
      ascending := (i.splitAt key).ascending_insert h rfl })

theorem put_of_found {old : SkipListNode} (h : found key (i.findNode key) = some old)
    (pos : LogRecordPos) : ∃ ascending, i.put key pos = (some old.pos, { i with
      nodes := i.update key ++ { old with pos := pos } :: (i.findNode key).tail
      ascending := ascending }) := by
  unfold put
  split
  · rename_i old' h'
    obtain rfl := Option.some.inj (h.symm.trans h')
    exact ⟨(i.splitAt key).ascending_replace h (found_eq_some h).2, rfl⟩
  · rename_i h'
    cases h.symm.trans h'

theorem put_of_not_found (h : found key (i.findNode key) = none) (pos : LogRecordPos) :
    ∃ ascending, i.put key pos = (none, { i with
      nodes := i.update key ++ ⟨key, pos, i.randomLevel⟩ :: i.findNode key
      level := max i.level i.randomLevel
      drawn := i.drawn + 1
      ascending := ascending }) := by
  unfold put
  split
  · rename_i old h'
    cases h.symm.trans h'
  · exact ⟨(i.splitAt key).ascending_insert h rfl, rfl⟩

/-- The level of a list that had levels which no node may reach any more. -/
def shrink (nodes : List SkipListNode) : ℕ → ℕ
  | 0 => 0
  | level + 1 => if forward (level + 1) nodes = [] then shrink nodes level else level + 1

def remove : (Option LogRecordPos × Bool) × SkipListIndex levels :=
  match found key (i.findNode key) with
  | some old =>
    ((some old.pos, true), { i with
      nodes := i.update key ++ (i.findNode key).tail
      level := shrink (i.update key ++ (i.findNode key).tail) i.level
      ascending := (i.splitAt key).ascending_tail })
  | none => ((none, false), i)

def listKeys : List Bytes := i.nodes.map SkipListNode.key

theorem valueOf_put (pos : LogRecordPos) (k : Bytes) :
    valueOf (i.put key pos).2.nodes k = if k = key then some pos else valueOf i.nodes k := by
  have hnone : ∀ n ∈ i.update key, ¬decide (n.key = key) = true := fun n hn => by
    simpa using (i.splitAt key).ne_of_mem_before hn
  have hself (node : SkipListNode) (hnode : node.key = key) (rest : List SkipListNode) :
      valueOf (i.update key ++ node :: rest) key = some node.pos := by
    rw [valueOf, List.find?_append, List.find?_eq_none.2 hnone, List.find?_cons]
    simp [hnode]
  unfold put
  split
  · rename_i old h
    obtain ⟨hafter, hkey⟩ := found_eq_some h
    split
    · subst k
      exact hself { old with pos := pos } hkey _
    · rw [valueOf_insert (by simpa [hkey] using ‹¬k = key›), (i.exists_before key).1]
      conv_rhs => rw [hafter]
      rw [valueOf_insert (by simpa [hkey] using ‹¬k = key›)]
  · split
    · subst k
      exact hself _ rfl _
    · rw [valueOf_insert ‹_›, ← (i.exists_before key).1]

theorem valueOf_remove (k : Bytes) :
    valueOf (i.remove key).2.nodes k = if k = key then none else valueOf i.nodes k := by
  unfold remove
  split
  · rename_i old h
    obtain ⟨hafter, hkey⟩ := found_eq_some h
    have hsplit := i.splitAt key
    rw [hafter] at hsplit
    split
    · subst k
      refine Option.map_eq_none_iff.2 (List.find?_eq_none.2 fun n hn => ?_)
      rcases List.mem_append.1 hn with hn | hn
      · simpa using hsplit.ne_of_mem_before hn
      · simpa using hsplit.ne_of_mem_rest hn
    · rw [(i.exists_before key).1]
      conv_rhs => rw [hafter]
      rw [valueOf_insert (by simpa [hkey] using ‹¬k = key›)]
  · rename_i h
    split
    · subst k
      rw [i.valueOf_nodes, h]
      rfl
    · rfl

end SkipListIndex

instance (levels : ℕ → ℕ → ℕ) : Indexer (SkipListIndex levels) where
  create seed := ⟨[], 0, seed, 0, .nil⟩
  put := SkipListIndex.put
  get := SkipListIndex.get
  remove := SkipListIndex.remove
  size i := i.nodes.length
  listKeys := SkipListIndex.listKeys
  get_create seed k := by rw [SkipListIndex.get, ← SkipListIndex.valueOf_nodes]; rfl
  put_fst i k pos := by
    unfold SkipListIndex.put SkipListIndex.get
    split <;> simp [*]
  get_put i k pos k' := by
    rw [SkipListIndex.get, ← SkipListIndex.valueOf_nodes, SkipListIndex.valueOf_put,
      SkipListIndex.get, ← SkipListIndex.valueOf_nodes]
  remove_fst i k := by
    unfold SkipListIndex.remove SkipListIndex.get
    split <;> simp [*]
  get_remove i k k' := by
    rw [SkipListIndex.get, ← SkipListIndex.valueOf_nodes, SkipListIndex.valueOf_remove,
      SkipListIndex.get, ← SkipListIndex.valueOf_nodes]
  mem_listKeys i k := by
    rw [SkipListIndex.get, ← SkipListIndex.valueOf_nodes, SkipListIndex.listKeys, valueOf,
      Option.isSome_map, List.find?_isSome]
    simp
  nodup_listKeys i := List.pairwise_map.2 <| i.ascending.imp fun h heq => by
    rw [compareKeys_eq_iff.2 heq] at h
    cases h
  size_eq i := by simp [SkipListIndex.listKeys]

end Bitcask
