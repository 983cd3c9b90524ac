import Bitcask.Library.InputStream
import Bitcask.BPlusTree

/-!
# The file of a B+ tree

An index of type `BPLUS_TREE` is saved to a file when it is closed, and loaded from
there when the next one is constructed: the type of the node, the number of its keys,
the keys with their lengths, the positions. An index has one leaf of any size; what is
loaded has at most `2 * maxKeys` keys, and where loading fails the index is empty.

* The index is the same as before if and only if it has no more keys than that, of
  lengths of 32 bits (`reopens_iff`).
* Of a file that is cut off, a leaf of pairs that were saved is loaded if and only if
  up to sixteen zeros make up for what is missing (`handlesCut_iff`).
-/

namespace Bitcask

open InputStream

/-- The keys of a node, as the tree was meant to be split. -/
def maxKeys : ℕ := 64

/-- A position of numbers of the widths the store keeps them in. -/
structure LogRecordPos.InRange (pos : LogRecordPos) : Prop where
  fid_lt : pos.fid < 2 ^ 32
  offset_lt : pos.offset < 2 ^ 64
  size_lt : pos.size < 2 ^ 32

/-! ## Saving -/

def serializeBytes (bytes : Bytes) : Bytes :=
  LittleEndian.encode 4 bytes.length ++ bytes.take (bytes.length % 2 ^ 32)

def serializePos (pos : LogRecordPos) : Bytes :=
  LittleEndian.encode 4 pos.fid ++ LittleEndian.encode 8 pos.offset ++
    LittleEndian.encode 4 pos.size

/-- The type of a leaf. -/
def nodeTypeLeaf : UInt8 := 1

def serializeNode (leaf : BPlusTreeNode) : Bytes :=
  [nodeTypeLeaf] ++ LittleEndian.encode 4 leaf.keys.length ++ leaf.keys.flatMap serializeBytes ++
    leaf.values.flatMap serializePos

/-! ## Loading -/

/-- What is read from a file: a leaf, or a node of another type. -/
inductive StoredNode
  | leaf (leaf : BPlusTreeNode)
  | internal (type : UInt8) (keys : List Bytes) (children : List StoredNode)

/-- The leaf without keys. -/
def StoredNode.empty : StoredNode := .leaf ⟨[], []⟩

/-- A computation that reads from the file of an index. -/
abbrev NodeReader (α : Type) := Reader UInt8 Exn α

/-- A number of so many bytes; `junk` is what is in the variable that is read into. -/
def readNumber (bytes junk : ℕ) : NodeReader ℕ := do
  return LittleEndian.decode (← read (LittleEndian.encode bytes junk))

/-- The length is read into a variable that nothing has been assigned to. -/
def deserializeBytes (junk : ℕ) : NodeReader Bytes := do
  let size ← readNumber 4 junk
  read (List.replicate size 0)

def deserializePos : NodeReader LogRecordPos := do
  let fid ← readNumber 4 0
  let offset ← readNumber 8 0
  let size ← readNumber 4 0
  return ⟨fid, offset, size⟩

/-- A node and those below it. Each of them takes bytes, so the depth is less than the
    number of bytes. -/
def deserializeNode (junk : ℕ) : ℕ → NodeReader StoredNode
  | 0 => throw (.bitcask "Invalid stream state during deserialization")
  | depth + 1 => do
    if !(← isGood) then throw (.bitcask "Invalid stream state during deserialization")
    let type ← readNumber 1 junk
    if !(← isGood) then throw (.bitcask "Failed to read node type")
    let keyCount ← readNumber 4 junk
    if !(← isGood) then throw (.bitcask "Failed to read key count")
    if maxKeys * 2 < keyCount then throw (.bitcask "Invalid key count in serialized node")
    let keys ← readMany (deserializeBytes junk) keyCount
    if type = nodeTypeLeaf.toNat then
      let values ← readMany deserializePos keyCount
      return .leaf ⟨keys, values⟩
    else
      let children ← readMany (deserializeNode junk depth) (keyCount + 1)
      return .internal (UInt8.ofNat type) keys children

namespace BPlusTreeIndex

/-- Whatever is thrown, the root is a leaf without keys then. -/
def loadFromFile (content : Bytes) (junk : ℕ) : StoredNode :=
  if 0 < content.length then
    match (deserializeNode junk (content.length + 1)).run ⟨content, true⟩ with
    | .ok (root, _) => root
    | .error _ => .empty
  else .empty

/-- The root of the index constructed over a directory, in which the file of the index
    has some contents, or is not. -/
def construct (file : Option Bytes) (junk : ℕ) : StoredNode :=
  match file with
  | some content => loadFromFile content junk
  | none => .empty

/-- What is in the file after closing an index. -/
def close (i : BPlusTreeIndex) : Bytes := serializeNode i.root

end BPlusTreeIndex

/-! ## What is read -/

section Read

variable {rest : Bytes} {junk : ℕ}

theorem run_readNumber {n : ℕ} {bs : Bytes} (h : bs.length = n) (rest : Bytes) (junk : ℕ) :
    (readNumber n junk).run ⟨bs ++ rest, true⟩ = .ok (LittleEndian.decode bs, ⟨rest, true⟩) := by
  have hread := @run_read_append _ Exn (LittleEndian.encode n junk) bs (by simpa) rest
  rw [readNumber, StateT.run_bind, hread]
  rfl

theorem run_readNumber_encode (n v : ℕ) (rest : Bytes) (junk : ℕ) :
    (readNumber n junk).run ⟨LittleEndian.encode n v ++ rest, true⟩ =
      .ok (v % 256 ^ n, ⟨rest, true⟩) := by
  rw [run_readNumber (LittleEndian.length_encode n v), LittleEndian.decode_encode]

/-- A number that is cut off: some number is read, and the stream is at its end. -/
theorem run_readNumber_short {n : ℕ} (h : rest.length < n) (junk : ℕ) :
    ∃ v, (readNumber n junk).run ⟨rest, true⟩ = .ok (v, ⟨[], false⟩) := by
  have hread := @run_read_short _ Exn (LittleEndian.encode n junk) rest (by simpa)
  exact ⟨_, by rw [readNumber, StateT.run_bind, hread]; rfl⟩

/-- Into a variable that is zero, zeros are read where the bytes end. -/
theorem run_readNumber_zero (n : ℕ) {good : Bool} (h : good = false → rest = []) :
    (readNumber n 0).run ⟨rest, good⟩ =
      .ok (LittleEndian.decode ((rest ++ List.replicate n 0).take n),
        ⟨rest.drop n, good && n ≤ rest.length⟩) := by
  have hzeros : LittleEndian.encode n 0 = List.replicate n 0 := by
    have hlength := LittleEndian.length_encode n 0
    refine List.eq_replicate_iff.2 ⟨hlength, LittleEndian.decode_eq_zero_iff.1 ?_⟩
    rw [LittleEndian.decode_encode, Nat.zero_mod]
  have hread : (read (LittleEndian.encode n 0) : NodeReader Bytes).run ⟨rest, good⟩ =
      .ok ((rest ++ List.replicate n 0).take n, ⟨rest.drop n, good && n ≤ rest.length⟩) := by
    rw [hzeros]
    cases good with
    | true =>
      rw [run_read, List.length_replicate, List.take_append, List.take_replicate,
        List.drop_replicate, Nat.min_eq_left (Nat.sub_le _ _), Bool.true_and]
    | false =>
      rw [h rfl, run_read_bad, List.nil_append, List.take_of_length_le (by simp), List.drop_nil]
      rfl
  rw [readNumber, StateT.run_bind, hread]
  rfl

/-- What is in the file for a key: the length is of 32 bits. -/
def writtenKey (key : Bytes) : Bytes := key.take (key.length % 2 ^ 32)

theorem run_deserializeBytes (key rest : Bytes) (junk : ℕ) :
    (deserializeBytes junk).run ⟨serializeBytes key ++ rest, true⟩ =
      .ok (writtenKey key, ⟨rest, true⟩) := by
  have hlength : (writtenKey key).length = (List.replicate (key.length % 2 ^ 32) (0 : UInt8)).length := by
    rw [writtenKey, List.length_take, List.length_replicate]
    exact Nat.min_eq_left (Nat.mod_le _ _)
  rw [serializeBytes, List.append_assoc, deserializeBytes, StateT.run_bind, run_readNumber_encode]
  exact run_read_append hlength rest

theorem run_deserializeBytes_cut {key : Bytes} {k : ℕ} (hk : k < (serializeBytes key).length)
    (junk : ℕ) : ∃ key', (deserializeBytes junk).run ⟨(serializeBytes key).take k, true⟩ =
      .ok (key', ⟨[], false⟩) := by
  rw [serializeBytes, List.length_append, LittleEndian.length_encode] at hk
  rw [deserializeBytes, StateT.run_bind, serializeBytes, List.take_append,
    LittleEndian.length_encode]
  rcases Nat.lt_or_ge k 4 with hcut | hcut
  · -- The length is cut off: whatever it is, nothing more is read.
    have hshort : ((LittleEndian.encode 4 key.length).take k).length < 4 := by
      rw [List.length_take]
      omega
    obtain ⟨size, hsize⟩ := run_readNumber_short hshort junk
    rw [Nat.sub_eq_zero_of_le hcut.le, List.take_zero, List.append_nil, hsize]
    exact ⟨_, run_read_bad _ _⟩
  · rw [List.take_of_length_le (by simpa using hcut), run_readNumber_encode]
    have hshort : ((key.take (key.length % 2 ^ 32)).take (k - 4)).length <
        (List.replicate (key.length % 2 ^ 32) (0 : UInt8)).length := by
      rw [List.length_take, List.length_replicate]
      rw [List.length_take] at hk ⊢
      omega
    exact ⟨_, run_read_short hshort⟩

/-- Sixteen bytes as a position. -/
def decodePos (bs : Bytes) : LogRecordPos :=
  ⟨LittleEndian.decode (bs.take 4), LittleEndian.decode ((bs.drop 4).take 8),
    LittleEndian.decode ((bs.drop 12).take 4)⟩

theorem decodePos_inRange (bs : Bytes) : (decodePos bs).InRange where
  fid_lt := (LittleEndian.decode_lt _).trans_le
    (Nat.pow_le_pow_right (by decide) (List.length_take_le 4 _))
  offset_lt := (LittleEndian.decode_lt _).trans_le
    (Nat.pow_le_pow_right (by decide) (List.length_take_le 8 _))
  size_lt := (LittleEndian.decode_lt _).trans_le
    (Nat.pow_le_pow_right (by decide) (List.length_take_le 4 _))

@[simp]
theorem length_serializePos (pos : LogRecordPos) : (serializePos pos).length = 16 := by
  simp [serializePos]

theorem decodePos_serializePos {pos : LogRecordPos} (h : pos.InRange) :
    decodePos (serializePos pos) = pos := by
  have hfid_lt : pos.fid < 256 ^ 4 := h.fid_lt
  have hoffset_lt : pos.offset < 256 ^ 8 := h.offset_lt
  have hsize_lt : pos.size < 256 ^ 4 := h.size_lt
  have hoffset : (serializePos pos).drop 4 =
      LittleEndian.encode 8 pos.offset ++ LittleEndian.encode 4 pos.size := by
    rw [serializePos, List.append_assoc, List.drop_left' (LittleEndian.length_encode _ _)]
  have hsize : (serializePos pos).drop 12 = LittleEndian.encode 4 pos.size := by
    rw [serializePos, List.drop_left' (by simp)]
  rw [decodePos, hoffset, hsize, List.take_left' (LittleEndian.length_encode _ _), serializePos,
    List.append_assoc, List.take_left' (LittleEndian.length_encode _ _),
    List.take_of_length_le (by simp), LittleEndian.decode_encode, LittleEndian.decode_encode,
    LittleEndian.decode_encode, Nat.mod_eq_of_lt hfid_lt, Nat.mod_eq_of_lt hoffset_lt,
    Nat.mod_eq_of_lt hsize_lt]

theorem serializePos_decodePos {bs : Bytes} (h : bs.length = 16) : serializePos (decodePos bs) = bs := by
  have hencode : ∀ part : Bytes, ∀ n, part.length = n →
      LittleEndian.encode n (LittleEndian.decode part) = part := by
    rintro part n rfl
    exact LittleEndian.encode_decode part
  rw [serializePos, decodePos, hencode _ 4 (by simp [h]), hencode _ 8 (by simp [h]),
    hencode _ 4 (by simp [h]), List.append_assoc, List.take_of_length_le (l := bs.drop 12) (by simp [h]),
    show bs.drop 12 = (bs.drop 4).drop 8 by rw [List.drop_drop], List.take_append_drop,
    List.take_append_drop]

/-- Zeros behind the bytes go through to those behind a part of them. -/
theorem take_drop_append_zeros (bs : Bytes) {k n m : ℕ} (h : k + n ≤ m) :
    (bs.drop k ++ List.replicate n 0).take n = ((bs ++ List.replicate m 0).drop k).take n := by
  rw [List.drop_append, List.drop_replicate, List.take_append, List.take_append,
    List.take_replicate, List.take_replicate, List.length_drop]
  congr 2
  omega

/-- A position is read from sixteen bytes, zeros where the bytes end. -/
theorem run_deserializePos (rest : Bytes) :
    deserializePos.run ⟨rest, true⟩ =
      .ok (decodePos ((rest ++ List.replicate 16 0).take 16), ⟨rest.drop 16, 16 ≤ rest.length⟩) := by
  have hpart : ∀ {k n}, k + n ≤ 16 → (((rest ++ List.replicate 16 0).take 16).drop k).take n =
      (rest.drop k ++ List.replicate n 0).take n := by
    intro k n hkn
    rw [take_drop_append_zeros rest hkn, List.drop_take, List.take_take, Nat.min_eq_left (by omega)]
  have hnil : ∀ {k}, decide (k ≤ rest.length) = false → rest.drop k = [] := by
    intro k hk
    exact List.drop_eq_nil_of_le (Nat.le_of_not_le (of_decide_eq_false hk))
  have hgood : ∀ {k n}, (decide (k ≤ rest.length) && decide (n ≤ (rest.drop k).length)) =
      decide (k + n ≤ rest.length) := by
    intro k n
    rw [List.length_drop, Bool.eq_iff_iff]
    simp only [Bool.and_eq_true, decide_eq_true_eq]
    omega
  rw [deserializePos, StateT.run_bind, run_readNumber_zero 4 (by simp), ok_bind, Bool.true_and,
    StateT.run_bind, run_readNumber_zero 8 hnil, ok_bind, hgood, List.drop_drop,
    StateT.run_bind, run_readNumber_zero 4 hnil, ok_bind, hgood, List.drop_drop, decodePos,
    hpart (k := 4) (n := 8) (by decide), hpart (k := 12) (n := 4) (by decide)]
  have hfid := hpart (k := 0) (n := 4) (by decide)
  rw [List.drop_zero, List.drop_zero] at hfid
  rw [hfid]
  rfl

theorem length_flatMap_serializePos (values : List LogRecordPos) :
    (values.flatMap serializePos).length = 16 * values.length := by
  induction values with
  | nil => rfl
  | cons pos values ih =>
    rw [List.flatMap_cons, List.length_append, ih, length_serializePos, List.length_cons]
    omega

/-- The bytes of positions determine them. -/
theorem eq_of_flatMap_serializePos_eq {values values' : List LogRecordPos}
    (h : ∀ pos ∈ values, pos.InRange) (h' : ∀ pos ∈ values', pos.InRange)
    (heq : values.flatMap serializePos = values'.flatMap serializePos) : values = values' := by
  induction values generalizing values' with
  | nil =>
    have hlength := congrArg List.length heq
    rw [length_flatMap_serializePos, length_flatMap_serializePos, List.length_nil] at hlength
    exact (List.length_eq_zero_iff.1 (by omega)).symm
  | cons pos values ih =>
    cases values' with
    | nil =>
      have hlength := congrArg List.length heq
      rw [length_flatMap_serializePos, length_flatMap_serializePos] at hlength
      simp at hlength
    | cons pos' values' =>
      rw [List.forall_mem_cons] at h h'
      rw [List.flatMap_cons, List.flatMap_cons] at heq
      obtain ⟨hpos, hvalues⟩ := List.append_inj heq (by simp)
      rw [← decodePos_serializePos h.1, hpos, decodePos_serializePos h'.1, ih h.2 h'.2 hvalues]

/-- As many positions as the bytes are enough for, when zeros make up for the last ones
    of them. -/
theorem run_readMany_deserializePos (n : ℕ) (rest : Bytes) :
    ∃ values s, (readMany deserializePos n).run ⟨rest, true⟩ = .ok (values, s) ∧
      (∀ pos ∈ values, pos.InRange) ∧ (values.length = n ↔ 16 * n ≤ rest.length + 16) ∧
      values.flatMap serializePos = (rest ++ List.replicate 16 0).take (16 * values.length) := by
  induction n generalizing rest with
  | zero => exact ⟨[], _, rfl, by simp, by simp, rfl⟩
  | succ n ih =>
    have hread := run_deserializePos rest
    have hfirst : serializePos (decodePos ((rest ++ List.replicate 16 0).take 16)) =
        (rest ++ List.replicate 16 0).take 16 := serializePos_decodePos (by simp)
    rcases Nat.lt_or_ge rest.length 16 with hcut | hcut
    · -- The bytes end within the position, or in front of it.
      rw [List.drop_eq_nil_of_le hcut.le, decide_eq_false (Nat.not_le.2 hcut)] at hread
      refine ⟨_, _, run_readMany_last rfl hread n, ?_, ?_, ?_⟩
      · rintro pos hpos
        rw [List.mem_singleton.1 hpos]
        exact decodePos_inRange _
      · rw [List.length_singleton]
        omega
      · rw [List.flatMap_singleton, hfirst, List.length_singleton]
    · obtain ⟨values, s, hvalues, hrange, hlength, hbytes⟩ := ih (rest.drop 16)
      rw [decide_eq_true hcut] at hread
      refine ⟨_ :: values, s, by rw [run_readMany_succ rfl hread, hvalues]; rfl, ?_, ?_, ?_⟩
      · exact List.forall_mem_cons.2 ⟨decodePos_inRange _, hrange⟩
      · rw [List.length_drop] at hlength
        rw [List.length_cons]
        omega
      · rw [List.flatMap_cons, hfirst, hbytes, List.length_cons, Nat.mul_succ,
          Nat.add_comm _ 16, List.take_add, List.drop_append_of_le_length hcut]

end Read

/-! ## The node that is loaded -/

namespace BPlusTreeNode

variable (leaf : BPlusTreeNode)

/-- The number of keys, as it is in the file. -/
def keyCount : ℕ := leaf.keys.length % 2 ^ 32

/-- What is in the file behind the number of keys. -/
def body : Bytes := leaf.keys.flatMap serializeBytes ++ leaf.values.flatMap serializePos

theorem serializeNode_eq :
    serializeNode leaf = [nodeTypeLeaf] ++ (LittleEndian.encode 4 leaf.keys.length ++ leaf.body) := by
  simp [serializeNode, body]

theorem length_take_keyCount : (leaf.keys.take leaf.keyCount).length = leaf.keyCount := by
  rw [List.length_take, keyCount]
  exact Nat.min_eq_left (Nat.mod_le _ _)

end BPlusTreeNode

section Node

variable (leaf : BPlusTreeNode) (junk : ℕ)

/-- The header of a leaf leads to its keys and positions. -/
theorem run_deserializeNode (bytes : Bytes) (depth : ℕ) :
    (deserializeNode junk (depth + 1)).run
        ⟨[nodeTypeLeaf] ++ (LittleEndian.encode 4 leaf.keys.length ++ bytes), true⟩ =
      if maxKeys * 2 < leaf.keyCount then .error (.bitcask "Invalid key count in serialized node")
      else (readMany (deserializeBytes junk) leaf.keyCount).run ⟨bytes, true⟩ >>= fun keys =>
        (readMany deserializePos leaf.keyCount).run keys.2 >>= fun values =>
          .ok (.leaf ⟨keys.1, values.1⟩, values.2) := by
  have htype := run_readNumber (show [nodeTypeLeaf].length = 1 from rfl)
    (LittleEndian.encode 4 leaf.keys.length ++ bytes) junk
  have hcount := run_readNumber_encode 4 leaf.keys.length bytes junk
  have hgood : ∀ rest, (isGood : NodeReader Bool).run ⟨rest, true⟩ = .ok (true, ⟨rest, true⟩) :=
    fun _ => rfl
  have hleaf : LittleEndian.decode [nodeTypeLeaf] = nodeTypeLeaf.toNat := rfl
  simp only [deserializeNode, StateT.run_bind, hgood, ok_bind, htype, hcount, Bool.not_true,
    Bool.false_eq_true, if_false, hleaf, if_true]
  by_cases hlimit : maxKeys * 2 < leaf.keyCount
  · rw [if_pos hlimit]
    exact congrArg (StateT.run · _) (if_pos hlimit)
  · rw [if_neg hlimit]
    exact congrArg (StateT.run · _) (if_neg hlimit)

/-- Without the whole number of keys, nothing is loaded. -/
theorem loadFromFile_take_header {p : ℕ} (hp : p < 5) :
    BPlusTreeIndex.loadFromFile ((serializeNode leaf).take p) junk = .empty := by
  rw [BPlusTreeNode.serializeNode_eq, List.singleton_append]
  cases p with
  | zero => rfl
  | succ p =>
    have hp4 : p < 4 := Nat.lt_of_succ_lt_succ hp
    rw [List.take_succ_cons, List.take_append_of_le_length (by simpa using hp4.le)]
    have htype := run_readNumber (show [nodeTypeLeaf].length = 1 from rfl)
      ((LittleEndian.encode 4 leaf.keys.length).take p) junk
    have hshort : ((LittleEndian.encode 4 leaf.keys.length).take p).length < 4 := by simpa using hp4
    obtain ⟨count, hcount⟩ := run_readNumber_short hshort junk
    have hgood : ∀ s, (isGood : NodeReader Bool).run s = .ok (s.good, s) := fun _ => rfl
    rw [List.singleton_append] at htype
    rw [BPlusTreeIndex.loadFromFile, if_pos (by simp)]
    simp only [deserializeNode, StateT.run_bind, hgood, ok_bind, htype, hcount, Bool.not_true,
      Bool.false_eq_true, if_false, Bool.not_false, if_true]
    rfl

variable {leaf}

theorem take_serializeNode {p : ℕ} (hp : 5 ≤ p) :
    (serializeNode leaf).take p =
      [nodeTypeLeaf] ++ (LittleEndian.encode 4 leaf.keys.length ++ leaf.body.take (p - 5)) := by
  have hheader : ([nodeTypeLeaf] ++ LittleEndian.encode 4 leaf.keys.length).length = 5 := by simp
  rw [BPlusTreeNode.serializeNode_eq, ← List.append_assoc, List.take_append, hheader,
    List.take_of_length_le (by rwa [hheader]), List.append_assoc]

theorem loadFromFile_of_lt (h : maxKeys * 2 < leaf.keyCount) (p : ℕ) :
    BPlusTreeIndex.loadFromFile ((serializeNode leaf).take p) junk = .empty := by
  rcases Nat.lt_or_ge p 5 with hp | hp
  · exact loadFromFile_take_header leaf junk hp
  · rw [take_serializeNode hp, BPlusTreeIndex.loadFromFile, if_pos (by simp),
      run_deserializeNode leaf junk, if_pos h]

variable {junk} in
theorem loadFromFile_of_le (h : leaf.keyCount ≤ maxKeys * 2) {p : ℕ} (hp : 5 ≤ p)
    {keys : List Bytes} {values : List LogRecordPos} {s s' : InputStream UInt8}
    (hkeys : (readMany (deserializeBytes junk) leaf.keyCount).run ⟨leaf.body.take (p - 5), true⟩ =
      .ok (keys, s))
    (hvalues : (readMany deserializePos leaf.keyCount).run s = .ok (values, s')) :
    BPlusTreeIndex.loadFromFile ((serializeNode leaf).take p) junk = .leaf ⟨keys, values⟩ := by
  rw [take_serializeNode hp, BPlusTreeIndex.loadFromFile, if_pos (by simp),
    run_deserializeNode leaf junk, if_neg (Nat.not_lt.2 h), hkeys, ok_bind, hvalues, ok_bind]

/-- In a file that is cut off among the keys, there are no positions. -/
theorem loadFromFile_cut_keys (h : leaf.keyCount ≤ maxKeys * 2) (p : ℕ) (hp : 5 ≤ p)
    (hcut : p - 5 < ((leaf.keys.take leaf.keyCount).flatMap serializeBytes).length) :
    ∃ keys, keys ≠ [] ∧ BPlusTreeIndex.loadFromFile ((serializeNode leaf).take p) junk =
      .leaf ⟨keys, []⟩ := by
  obtain ⟨before, key, after, k, hsplit, hk, htake⟩ := exists_take_flatMap serializeBytes hcut
  have hbody : leaf.body.take (p - 5) =
      before.flatMap serializeBytes ++ (serializeBytes key).take k := by
    rw [← htake, BPlusTreeNode.body, ← List.take_append_drop leaf.keyCount leaf.keys,
      List.flatMap_append, List.append_assoc, List.take_append_drop,
      List.take_append_of_le_length hcut.le]
  have hcount : leaf.keyCount = before.length + (after.length + 1) := by
    rw [← leaf.length_take_keyCount, hsplit, List.length_append, List.length_cons]
  obtain ⟨key', hkey⟩ := run_deserializeBytes_cut hk junk
  have hwhole : ∀ key ∈ before, ∀ rest, (deserializeBytes junk).run
      ⟨serializeBytes key ++ rest, true⟩ = .ok (writtenKey key, ⟨rest, true⟩) :=
    fun key _ rest => run_deserializeBytes key rest junk
  have hkeys := run_readMany_flatMap hwhole ((serializeBytes key).take k) (after.length + 1)
  rw [run_readMany_last rfl hkey, ← hcount, ← hbody] at hkeys
  exact ⟨_, by simp, loadFromFile_of_le h hp hkeys (run_readMany_bad _ _ _)⟩

/-- Behind the keys, as many positions are read as the bytes are enough for. -/
theorem loadFromFile_cut_values (h : leaf.keyCount ≤ maxKeys * 2) (p : ℕ) (hp : 5 ≤ p)
    (hcut : ((leaf.keys.take leaf.keyCount).flatMap serializeBytes).length ≤ p - 5) :
    ∃ values rest, BPlusTreeIndex.loadFromFile ((serializeNode leaf).take p) junk =
        .leaf ⟨(leaf.keys.take leaf.keyCount).map writtenKey, values⟩ ∧
      leaf.body.take (p - 5) = (leaf.keys.take leaf.keyCount).flatMap serializeBytes ++ rest ∧
      (∀ pos ∈ values, pos.InRange) ∧
      (values.length = leaf.keyCount ↔ 16 * leaf.keyCount ≤ rest.length + 16) ∧
      values.flatMap serializePos = (rest ++ List.replicate 16 0).take (16 * values.length) := by
  obtain ⟨rest, hrest⟩ : ∃ rest, leaf.body.take (p - 5) =
      (leaf.keys.take leaf.keyCount).flatMap serializeBytes ++ rest := by
    have hbody : leaf.body = (leaf.keys.take leaf.keyCount).flatMap serializeBytes ++
        ((leaf.keys.drop leaf.keyCount).flatMap serializeBytes ++
          leaf.values.flatMap serializePos) := by
      rw [← List.append_assoc, ← List.flatMap_append, List.take_append_drop, BPlusTreeNode.body]
    rw [hbody, List.take_append, List.take_of_length_le hcut]
    exact ⟨_, rfl⟩
  obtain ⟨values, s, hvalues, hrange, hlength, hbytes⟩ :=
    run_readMany_deserializePos leaf.keyCount rest
  have hwhole : ∀ key ∈ leaf.keys.take leaf.keyCount, ∀ rest, (deserializeBytes junk).run
      ⟨serializeBytes key ++ rest, true⟩ = .ok (writtenKey key, ⟨rest, true⟩) :=
    fun key _ rest => run_deserializeBytes key rest junk
  have hkeys := run_readMany_flatMap hwhole rest 0
  rw [leaf.length_take_keyCount, Nat.add_zero, ← hrest] at hkeys
  have hall := hkeys.trans (congrArg (fun keys => Except.ok (keys, _)) (List.append_nil _))
  exact ⟨values, rest, loadFromFile_of_le h hp hall hvalues, hrest, hrange, hlength, hbytes⟩

end Node

/-! ## Files that are complete -/

/-- The replies of an index to requests. -/
def BPlusTreeIndex.replies (i : BPlusTreeIndex) (requests : List IndexRequest) :
    Option (List IndexReply) :=
  (OrderedIndex.run i requests).map Prod.fst

/-- An index constructed after this one has been closed replies to all requests as this
    one does. -/
def BPlusTreeIndex.Reopens (i : BPlusTreeIndex) (junk : ℕ) : Prop :=
  ∃ leaf, construct (some i.close) junk = .leaf leaf ∧
    ∀ requests, replies ⟨leaf⟩ requests = i.replies requests

section Reopen

variable {leaf : BPlusTreeNode} {items : List Item} {m : Positions} {junk : ℕ}

theorem writtenKey_eq_iff (key : Bytes) : writtenKey key = key ↔ key.length < 2 ^ 32 := by
  rw [writtenKey, List.take_eq_self_iff]
  constructor
  · intro h
    exact h.trans_lt (Nat.mod_lt _ (by decide))
  · intro h
    rw [Nat.mod_eq_of_lt h]

/-- Keys are written as they are if their lengths are of 32 bits. -/
theorem map_writtenKey_eq_iff (keys : List Bytes) :
    keys.map writtenKey = keys ↔ ∀ key ∈ keys, key.length < 2 ^ 32 := by
  induction keys with
  | nil => simp
  | cons key keys ih =>
    rw [List.map_cons, List.cons_eq_cons, ih, writtenKey_eq_iff, List.forall_mem_cons]

/-- The whole file is read: the keys as they are written, and the positions. -/
theorem construct_close (h : leaf.keyCount ≤ maxKeys * 2)
    (hrange : ∀ pos ∈ leaf.values, pos.InRange) (junk : ℕ) :
    ∃ values, BPlusTreeIndex.construct (some (BPlusTreeIndex.close ⟨leaf⟩)) junk =
        .leaf ⟨(leaf.keys.take leaf.keyCount).map writtenKey, values⟩ ∧
      (leaf.keyCount = leaf.keys.length → leaf.values.length = leaf.keys.length →
        values = leaf.values) := by
  have hlength : (serializeNode leaf).length = 5 + leaf.body.length := by
    rw [leaf.serializeNode_eq, List.length_append, List.length_append,
      LittleEndian.length_encode, List.length_singleton, ← Nat.add_assoc]
  have hkeys : ((leaf.keys.take leaf.keyCount).flatMap serializeBytes).length ≤
      leaf.body.length := by
    rw [BPlusTreeNode.body, ← List.take_append_drop leaf.keyCount leaf.keys, List.flatMap_append,
      List.append_assoc, List.take_append_drop, List.length_append]
    exact Nat.le_add_right _ _
  obtain ⟨values, rest, hload, hrest, hvalues, hcount, hbytes⟩ :=
    loadFromFile_cut_values junk h (serializeNode leaf).length (by omega)
      (by rwa [hlength, Nat.add_sub_cancel_left])
  rw [List.take_length] at hload
  refine ⟨values, hload, fun hall hvaluesLength => ?_⟩
  have hrest_eq : rest = leaf.values.flatMap serializePos := by
    rw [hlength, Nat.add_sub_cancel_left, List.take_length, hall, List.take_length,
      BPlusTreeNode.body] at hrest
    exact (List.append_cancel_left hrest).symm
  have hlengths : values.length = leaf.values.length := by
    rw [hvaluesLength, ← hall]
    refine hcount.2 ?_
    rw [hrest_eq, length_flatMap_serializePos, hvaluesLength, hall]
    exact Nat.le_add_right _ _
  refine eq_of_flatMap_serializePos_eq hvalues hrange ?_
  rw [hbytes, hrest_eq, hlengths, ← length_flatMap_serializePos, List.take_left]

/-- A constructed index has all keys of the one that has been closed, if they are not
    too many, and not too long. -/
theorem reopens_iff_of_holds (h : leaf.Holds items) (hrange : ∀ pos ∈ leaf.values, pos.InRange)
    (junk : ℕ) : BPlusTreeIndex.Reopens ⟨leaf⟩ junk ↔
      leaf.keys.length ≤ maxKeys * 2 ∧ ∀ key ∈ leaf.keys, key.length < 2 ^ 32 := by
  have hlengths : leaf.values.length = leaf.keys.length := by
    rw [h.keys_eq, h.values_eq, List.length_map, List.length_map]
  have hle : leaf.keyCount ≤ leaf.keys.length := Nat.mod_le _ _
  have hkeys : ∀ loaded : BPlusTreeNode, (∀ requests, BPlusTreeIndex.replies ⟨loaded⟩ requests =
      BPlusTreeIndex.replies ⟨leaf⟩ requests) → loaded.keys = leaf.keys := by
    intro loaded hreplies
    simpa [BPlusTreeIndex.replies, OrderedIndex.run, OrderedIndex.step, OrderedIndex.listKeys,
      BPlusTreeIndex.listKeys] using hreplies [.listKeys]
  rcases Nat.lt_or_ge (maxKeys * 2) leaf.keyCount with hlimit | hlimit
  · -- The leaf that is loaded instead has no keys.
    refine iff_of_false ?_ fun hsmall => Nat.not_le.2 (hlimit.trans_le hle) hsmall.1
    rintro ⟨loaded, hloaded, hreplies⟩
    have hempty := loadFromFile_of_lt junk hlimit (serializeNode leaf).length
    rw [List.take_length] at hempty
    cases hempty.symm.trans hloaded
    rw [← hkeys _ hreplies] at hle
    exact Nat.not_lt_zero _ (hlimit.trans_le hle)
  · obtain ⟨values, hconstruct, hvalues⟩ := construct_close hlimit hrange junk
    constructor
    · rintro ⟨loaded, hloaded, hreplies⟩
      cases hconstruct.symm.trans hloaded
      have heq : (leaf.keys.take leaf.keyCount).map writtenKey = leaf.keys := hkeys _ hreplies
      have hcount : leaf.keyCount = leaf.keys.length := by
        rw [← leaf.length_take_keyCount, ← List.length_map writtenKey, heq]
      rw [hcount, List.take_length] at heq
      exact ⟨hcount ▸ hlimit, (map_writtenKey_eq_iff _).1 heq⟩
    · rintro ⟨hsmall, hshort⟩
      have hcount : leaf.keyCount = leaf.keys.length :=
        Nat.mod_eq_of_lt (hsmall.trans_lt (by decide))
      refine ⟨_, hconstruct, fun requests => ?_⟩
      rw [hcount, List.take_length, (map_writtenKey_eq_iff _).2 hshort, hvalues hcount hlengths]

/-- The positions of an index are those that have been put. -/
theorem exists_put_of_contents {requests : List IndexRequest} {m : Positions} {key : Bytes}
    {pos : LogRecordPos} (h : requests.foldl IndexRequest.update m key = some pos) :
    m key = some pos ∨ .put key pos ∈ requests := by
  induction requests generalizing m with
  | nil => exact .inl h
  | cons r rs ih =>
    rcases ih h with hr | hrs
    · cases r with
      | put k p =>
        rw [IndexRequest.update, Function.update_apply] at hr
        split at hr
        · rename_i hk
          cases hr
          exact .inr (hk ▸ List.mem_cons_self)
        · exact .inl hr
      | remove k =>
        rw [IndexRequest.update, Function.update_apply] at hr
        split at hr
        · cases hr
        · exact .inl hr
      | get | size | listKeys | loop => exact .inl hr
    · exact .inr (List.mem_cons_of_mem _ hrs)

/-- A run of an index makes a leaf of the items of a map. -/
theorem run_holds (requests : List IndexRequest)
    (hrange : ∀ key pos, .put key pos ∈ requests → pos.InRange) :
    ∃ replies i items, OrderedIndex.run (OrderedIndex.create 0 : BPlusTreeIndex) requests =
        some (replies, i) ∧ i.root.Holds items ∧ Enumerates items (contents requests) ∧
      ∀ pos ∈ i.root.values, pos.InRange := by
  obtain ⟨replies, i, hrun, -, items, hleaf, hitems⟩ :=
    OrderedIndex.run_eq (OrderedIndex.models_create (ι := BPlusTreeIndex) 0) requests
  refine ⟨replies, i, items, hrun, hleaf, hitems, fun pos hpos => ?_⟩
  rw [hleaf.values_eq, List.mem_map] at hpos
  obtain ⟨⟨key, pos⟩, hitem, rfl⟩ := hpos
  rcases exists_put_of_contents ((hitems.mem_iff key pos).1 hitem) with hempty | hput
  · cases hempty
  · exact hrange key pos hput

/-- An index comes back after closing it if and only if it has at most 128 keys, all of
    lengths of 32 bits. -/
theorem reopens_iff (requests : List IndexRequest)
    (hrange : ∀ key pos, .put key pos ∈ requests → pos.InRange) (junk : ℕ) :
    ∃ replies i, OrderedIndex.run (OrderedIndex.create 0 : BPlusTreeIndex) requests =
        some (replies, i) ∧
      (i.Reopens junk ↔ i.size ≤ maxKeys * 2 ∧ ∀ key ∈ i.listKeys, key.length < 2 ^ 32) := by
  obtain ⟨replies, i, items, hrun, hleaf, -, hvalues⟩ := run_holds requests hrange
  exact ⟨replies, i, hrun, reopens_iff_of_holds hleaf hvalues junk⟩

/-- One key comes back. -/
theorem reopens_one : ∃ replies i, OrderedIndex.run (OrderedIndex.create 0 : BPlusTreeIndex)
      [.put [1] ⟨0, 0, 7⟩] = some (replies, i) ∧
    (i.Reopens 0 ↔ i.size ≤ maxKeys * 2 ∧ ∀ key ∈ i.listKeys, key.length < 2 ^ 32) :=
  reopens_iff [.put [1] ⟨0, 0, 7⟩] (by
    rintro key pos hput
    cases List.mem_singleton.1 hput
    exact ⟨by decide, by decide, by decide⟩) 0

/-- The keys that are put are in the map. -/
theorem isSome_foldl_put (keys : List Bytes) (pos : LogRecordPos) (m : Positions) (key : Bytes) :
    ((keys.map fun k => IndexRequest.put k pos).foldl IndexRequest.update m key).isSome ↔
      key ∈ keys ∨ (m key).isSome := by
  induction keys generalizing m with
  | nil => simp
  | cons k keys ih =>
    rw [List.map_cons, List.foldl_cons, ih, IndexRequest.update, Function.update_apply]
    by_cases hk : key = k <;> simp [hk]

/-- 129 keys do not come back. -/
theorem not_forall_reopens : ¬ ∀ requests : List IndexRequest,
    (∀ key pos, .put key pos ∈ requests → pos.InRange) → ∀ replies i,
    OrderedIndex.run (OrderedIndex.create 0 : BPlusTreeIndex) requests = some (replies, i) →
    ∀ junk, i.Reopens junk := by
  intro h
  let keys : List Bytes := (List.range 129).map fun n => List.replicate (n + 1) 0
  have hrange : ∀ key pos, IndexRequest.put key pos ∈
      keys.map (fun k => IndexRequest.put k ⟨0, 0, 0⟩) → pos.InRange := by
    rintro key pos hput
    obtain ⟨k, -, hk⟩ := List.mem_map.1 hput
    cases hk
    exact ⟨by decide, by decide, by decide⟩
  obtain ⟨replies, i, items, hrun, hleaf, hitems, hvalues⟩ := run_holds _ hrange
  obtain ⟨hsmall, -⟩ := (reopens_iff_of_holds hleaf hvalues 0).1 (h _ hrange replies i hrun 0)
  -- The keys of the index are those put, without repetition.
  have hnodup : keys.Nodup := List.nodup_range.map fun a b hab => by
    simpa using congrArg List.length hab
  have hsub : keys ⊆ i.root.keys := by
    intro key hkey
    rw [hleaf.keys_eq, hitems.isSome_iff]
    exact (isSome_foldl_put keys _ _ key).2 (.inl hkey)
  have hlength := (List.subperm_of_subset hnodup hsub).length_le
  rw [List.length_map, List.length_range] at hlength
  exact absurd (hlength.trans hsmall) (by decide)

end Reopen

/-! ## Files that are cut off -/

/-- The leaf without keys, or a leaf of pairs that are in another one. -/
def StoredNode.PairsFrom (leaf : BPlusTreeNode) (node : StoredNode) : Prop :=
  node = .empty ∨ ∃ loaded, node = .leaf loaded ∧ loaded.keys.length = loaded.values.length ∧
    ∀ pair ∈ loaded.keys.zip loaded.values, pair ∈ leaf.keys.zip leaf.values

/-- Up to sixteen zeros make the first bytes of a file one of pairs that are in the leaf. -/
def BPlusTreeNode.MadeUpFor (leaf : BPlusTreeNode) (p : ℕ) : Prop :=
  ∃ values, values.length = leaf.keyCount ∧
    serializeNode ⟨leaf.keys.take leaf.keyCount, values⟩ <+:
      (serializeNode leaf).take p ++ List.replicate 16 0 ∧
    ∀ pair ∈ ((leaf.keys.take leaf.keyCount).map writtenKey).zip values,
      pair ∈ leaf.keys.zip leaf.values

section Cut

variable {leaf : BPlusTreeNode} {p : ℕ}

theorem encode_keyCount (leaf : BPlusTreeNode) :
    LittleEndian.encode 4 leaf.keyCount = LittleEndian.encode 4 leaf.keys.length := by
  have hdecode := LittleEndian.encode_decode (LittleEndian.encode 4 leaf.keys.length)
  rwa [LittleEndian.length_encode, LittleEndian.decode_encode] at hdecode

/-- What is compared behind the header. -/
theorem serializeNode_isPrefix_iff (hp : 5 ≤ p) (values : List LogRecordPos) (zeros : Bytes) :
    serializeNode ⟨leaf.keys.take leaf.keyCount, values⟩ <+: (serializeNode leaf).take p ++ zeros ↔
      (leaf.keys.take leaf.keyCount).flatMap serializeBytes ++ values.flatMap serializePos <+:
        leaf.body.take (p - 5) ++ zeros := by
  rw [take_serializeNode hp, BPlusTreeNode.serializeNode_eq, leaf.length_take_keyCount,
    encode_keyCount, List.append_assoc, List.append_assoc, List.prefix_append_right_inj,
    List.prefix_append_right_inj]
  rfl

/-- A file that ends among the keys is not made up for. -/
theorem not_madeUpFor_of_lt (hp : 5 ≤ p)
    (hcut : p - 5 < ((leaf.keys.take leaf.keyCount).flatMap serializeBytes).length) :
    ¬ leaf.MadeUpFor p := by
  rintro ⟨values, hvalues, hbytes, -⟩
  have hlength := ((serializeNode_isPrefix_iff hp values _).1 hbytes).length_le
  rw [List.length_append, length_flatMap_serializePos, hvalues, List.length_append,
    List.length_replicate, List.length_take] at hlength
  have hkeys : leaf.keys.take leaf.keyCount = [] := by
    rw [← List.length_eq_zero_iff, leaf.length_take_keyCount]
    omega
  rw [hkeys] at hcut
  exact Nat.not_lt_zero _ hcut

/-- Behind the keys, the positions read are the only ones there may be. -/
theorem madeUpFor_iff (hleaf : ∀ pos ∈ leaf.values, pos.InRange) (hp : 5 ≤ p) {rest : Bytes}
    (hrest : leaf.body.take (p - 5) =
      (leaf.keys.take leaf.keyCount).flatMap serializeBytes ++ rest)
    {values : List LogRecordPos} (hrange : ∀ pos ∈ values, pos.InRange)
    (hlength : values.length = leaf.keyCount ↔ 16 * leaf.keyCount ≤ rest.length + 16)
    (hbytes : values.flatMap serializePos =
      (rest ++ List.replicate 16 0).take (16 * values.length)) :
    leaf.MadeUpFor p ↔ values.length = leaf.keyCount ∧
      ∀ pair ∈ ((leaf.keys.take leaf.keyCount).map writtenKey).zip values,
        pair ∈ leaf.keys.zip leaf.values := by
  unfold BPlusTreeNode.MadeUpFor
  simp only [serializeNode_isPrefix_iff hp, hrest, List.append_assoc, List.prefix_append_right_inj]
  constructor
  · rintro ⟨values', hvalues', hpre, hpairs⟩
    have hle := hpre.length_le
    rw [length_flatMap_serializePos, List.length_append, List.length_replicate, hvalues'] at hle
    have hcount := hlength.2 hle
    -- The positions are paired with keys, so they are among those of the leaf.
    have hrange' : ∀ pos ∈ values', pos.InRange := by
      intro pos hpos
      obtain ⟨i, hi, rfl⟩ := List.getElem_of_mem hpos
      have hkey : i < ((leaf.keys.take leaf.keyCount).map writtenKey).length := by
        rwa [List.length_map, leaf.length_take_keyCount, ← hvalues']
      exact hleaf _ (List.of_mem_zip (hpairs _ (List.mem_iff_getElem.2
        ⟨i, by rw [List.length_zip]; exact Nat.lt_min.2 ⟨hkey, hi⟩, List.getElem_zip⟩))).2
    have heq : values = values' := by
      refine eq_of_flatMap_serializePos_eq hrange hrange' ?_
      rw [hbytes, hcount, ← hvalues', ← length_flatMap_serializePos]
      exact (List.prefix_iff_eq_take.1 hpre).symm
    exact ⟨hcount, heq ▸ hpairs⟩
  · rintro ⟨hcount, hpairs⟩
    exact ⟨values, hcount, hbytes ▸ List.take_prefix _ _, hpairs⟩

/-- Of a file of which only the first bytes have been written, the pairs that were saved
    are loaded, or none, if and only if the file ends in its header, its leaf is too large
    to be loaded, or zeros make up for what is missing. -/
theorem handlesCut_iff (leaf : BPlusTreeNode) (hleaf : ∀ pos ∈ leaf.values, pos.InRange) (p : ℕ)
    (junk : ℕ) : (BPlusTreeIndex.loadFromFile ((serializeNode leaf).take p) junk).PairsFrom leaf ↔
      p < 5 ∨ maxKeys * 2 < leaf.keyCount ∨ leaf.MadeUpFor p := by
  rcases Nat.lt_or_ge p 5 with hp | hp
  · exact iff_of_true (.inl (loadFromFile_take_header leaf junk hp)) (.inl hp)
  rcases Nat.lt_or_ge (maxKeys * 2) leaf.keyCount with hlimit | hlimit
  · exact iff_of_true (.inl (loadFromFile_of_lt junk hlimit p)) (.inr (.inl hlimit))
  rw [or_iff_right (Nat.not_lt.2 hp), or_iff_right (Nat.not_lt.2 hlimit)]
  rcases Nat.lt_or_ge (p - 5) ((leaf.keys.take leaf.keyCount).flatMap serializeBytes).length with
    hcut | hcut
  · -- A key has been read, or a part of one, and no position.
    obtain ⟨keys, hkeys, hload⟩ := loadFromFile_cut_keys junk hlimit p hp hcut
    refine iff_of_false ?_ (not_madeUpFor_of_lt hp hcut)
    rw [hload]
    rintro (hempty | ⟨loaded, hloaded, hlength, -⟩)
    · cases hempty
      exact hkeys rfl
    · cases hloaded
      exact hkeys (List.length_eq_zero_iff.1 hlength)
  · obtain ⟨values, rest, hload, hrest, hrange, hlength, hbytes⟩ :=
      loadFromFile_cut_values junk hlimit p hp hcut
    rw [madeUpFor_iff hleaf hp hrest hrange hlength hbytes, hload]
    have hcount : ((leaf.keys.take leaf.keyCount).map writtenKey).length = leaf.keyCount := by
      rw [List.length_map, leaf.length_take_keyCount]
    constructor
    · rintro (hempty | ⟨loaded, hloaded, hequal, hpairs⟩)
      · injection hempty with hempty
        injection hempty with hkeys hvalues
        rw [hvalues, ← hcount, hkeys]
        exact ⟨rfl, by simp⟩
      · cases hloaded
        exact ⟨hequal.symm.trans hcount, hpairs⟩
    · rintro ⟨hequal, hpairs⟩
      exact .inr ⟨_, rfl, hcount.trans hequal.symm, hpairs⟩

/-- A file is loaded from its first nine bytes with a key that was not saved, and without
    a position. -/
theorem not_forall_handlesCut : ¬ ∀ (requests : List IndexRequest) (replies : List IndexReply)
    (i : BPlusTreeIndex), (∀ key pos, .put key pos ∈ requests → pos.InRange) →
    OrderedIndex.run (OrderedIndex.create 0 : BPlusTreeIndex) requests = some (replies, i) →
    ∀ p < i.close.length, ∀ junk,
      (BPlusTreeIndex.loadFromFile (i.close.take p) junk).PairsFrom i.root := by
  intro h
  have hload := h [.put [1] ⟨0, 0, 0⟩] [.position none] ⟨⟨[[1]], [⟨0, 0, 0⟩]⟩⟩
    (by rintro key pos hput; cases List.mem_singleton.1 hput; exact ⟨by decide, by decide, by decide⟩)
    (by rfl) 9 (by decide) 0
  have hcut : BPlusTreeIndex.loadFromFile
      (BPlusTreeIndex.close ⟨⟨[[1]], [⟨0, 0, 0⟩]⟩⟩ |>.take 9) 0 = .leaf ⟨[[0]], []⟩ := by rfl
  rw [hcut] at hload
  rcases hload with hempty | ⟨loaded, hloaded, hlength, -⟩
  · cases hempty
  · cases hloaded
    cases hlength

/-- The last three bytes of the only position are zeros, and need not be there. -/
theorem handlesCut_lastZeros : (BPlusTreeIndex.loadFromFile ((serializeNode
    ⟨[[1]], [⟨0, 0, 7⟩]⟩).take 23) 0).PairsFrom ⟨[[1]], [⟨0, 0, 7⟩]⟩ :=
  (handlesCut_iff ⟨[[1]], [⟨0, 0, 7⟩]⟩ (by
    rintro pos hpos
    cases List.mem_singleton.1 hpos
    exact ⟨by decide, by decide, by decide⟩) 23 0).2
    (.inr (.inr ⟨[⟨0, 0, 7⟩], rfl, by decide, by decide⟩))

/-- Other elements for the same keys are the same, where the pairs are. -/
theorem eq_of_forall_mem_zip {κ α : Type} {keys : List κ} (hkeys : keys.Nodup) {xs ys : List α}
    (hxs : xs.length = keys.length) (hys : ys.length = keys.length)
    (h : ∀ pair ∈ keys.zip xs, pair ∈ keys.zip ys) : xs = ys := by
  induction keys generalizing xs ys with
  | nil => rw [List.length_eq_zero_iff.1 hxs, List.length_eq_zero_iff.1 hys]
  | cons key keys ih =>
    obtain ⟨x, xs, rfl⟩ := List.exists_cons_of_length_eq_add_one hxs
    obtain ⟨y, ys, rfl⟩ := List.exists_cons_of_length_eq_add_one hys
    rw [List.nodup_cons] at hkeys
    rw [List.zip_cons_cons, List.zip_cons_cons, List.forall_mem_cons] at h
    have hx : x = y := by
      rcases List.mem_cons.1 h.1 with heq | hmem
      · exact congrArg Prod.snd heq
      · exact absurd (List.of_mem_zip hmem).1 hkeys.1
    have hrest : xs = ys := by
      refine ih hkeys.2 (Nat.succ_inj.1 hxs) (Nat.succ_inj.1 hys) fun pair hpair => ?_
      rcases List.mem_cons.1 (h.2 pair hpair) with rfl | hmem
      · exact absurd (List.of_mem_zip hpair).1 hkeys.1
      · exact hmem
    rw [hx, hrest]

/-- What is missing is a part of the last position, and is all zeros. -/
theorem madeUpFor_iff_zeros {items : List Item} {m : Positions} (h : leaf.Holds items)
    (hitems : Enumerates items m) (hkeys : ∀ key ∈ leaf.keys, key.length < 2 ^ 32)
    (hcount : leaf.keys.length < 2 ^ 32) : leaf.MadeUpFor p ↔
      (serializeNode leaf).length ≤ p + 16 ∧ ∀ b ∈ (serializeNode leaf).drop p, b = 0 := by
  have hlengths : leaf.values.length = leaf.keys.length := by
    rw [h.keys_eq, h.values_eq, List.length_map, List.length_map]
  have hkeyCount : leaf.keyCount = leaf.keys.length := Nat.mod_eq_of_lt hcount
  have hzeros : serializeNode leaf <+: (serializeNode leaf).take p ++ List.replicate 16 0 ↔
      (serializeNode leaf).length ≤ p + 16 ∧ ∀ b ∈ (serializeNode leaf).drop p, b = 0 := by
    conv_lhs => lhs; rw [← List.take_append_drop p (serializeNode leaf)]
    rw [List.prefix_append_right_inj, List.prefix_replicate_iff, List.eq_replicate_iff]
    simp only [List.length_drop, true_and, Nat.sub_le_iff_le_add, Nat.add_comm]
  rw [← hzeros, BPlusTreeNode.MadeUpFor, hkeyCount, List.take_length,
    (map_writtenKey_eq_iff _).2 hkeys]
  constructor
  · rintro ⟨values, hvalues, hpre, hpairs⟩
    have heq := eq_of_forall_mem_zip (h.keys_eq ▸ hitems.nodup) hvalues hlengths hpairs
    rwa [heq] at hpre
  · exact fun hpre => ⟨leaf.values, hlengths, hpre, fun pair hpair => hpair⟩

end Cut

end Bitcask
