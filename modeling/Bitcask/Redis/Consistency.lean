import Bitcask.Redis.Lists

/-!
# Consistent collections

A stored collection is consistent when its metadata agrees with the elements
stored (`Consistent`): its size is their number and, for a list, the indices that
have an element are those from the head up to the tail.
-/

namespace Bitcask.Redis

/-! ## Stored elements -/

/-- The keys of the elements stored for a version of a collection. -/
def elementKeys (entries : Entries) (key : Bytes) (version : UInt64) : List Bytes :=
  entries.keys.filter (key ++ littleEndian64 version).isPrefixOf

section ElementKeys

variable {entries entries' : Entries} {key x : Bytes} {version : UInt64}

theorem mem_elementKeys :
    x ∈ elementKeys entries key version ↔
      entries[x]?.isSome ∧ key ++ littleEndian64 version <+: x := by
  rw [elementKeys, List.mem_filter, Std.TreeMap.mem_keys, Std.TreeMap.mem_iff_isSome_getElem?,
    List.isPrefixOf_iff_prefix]

theorem nodup_elementKeys : (elementKeys entries key version).Nodup :=
  Std.TreeMap.nodup_keys.filter _

theorem isPrefix_internalKey (key : Bytes) (version : UInt64) (e : Bytes) :
    key ++ littleEndian64 version <+: internalKey key version e :=
  List.prefix_append _ _

theorem not_isPrefix_self (key : Bytes) (version : UInt64) :
    ¬key ++ littleEndian64 version <+: key := by
  intro h
  have := h.length_le
  simp at this

theorem elementKeys_congr
    (h : ∀ x, key ++ littleEndian64 version <+: x → entries'[x]?.isSome = entries[x]?.isSome) :
    (elementKeys entries' key version).length = (elementKeys entries key version).length := by
  refine List.Perm.length_eq ((List.perm_ext_iff_of_nodup nodup_elementKeys nodup_elementKeys).2 ?_)
  intro x
  rw [mem_elementKeys, mem_elementKeys]
  exact and_congr_left fun hx => by rw [h x hx]

/-- One element more. -/
theorem length_elementKeys_insert (hx : key ++ littleEndian64 version <+: x)
    (hnew : entries[x]? = none) (value : Bytes) :
    (elementKeys (entries.insert x value) key version).length =
      (elementKeys entries key version).length + 1 := by
  have hmem : x ∉ elementKeys entries key version := by
    rw [mem_elementKeys, hnew]
    exact fun h => nomatch h.1
  suffices hperm : (elementKeys (entries.insert x value) key version).Perm
      (x :: elementKeys entries key version) from hperm.length_eq
  refine (List.perm_ext_iff_of_nodup nodup_elementKeys (nodup_elementKeys.cons hmem)).2 ?_
  intro y
  rw [List.mem_cons, mem_elementKeys, mem_elementKeys, Entries.getElem?_insert]
  by_cases hy : y = x
  · simp [hy, hx]
  · simp [hy]

/-- One element fewer. -/
theorem length_elementKeys_erase (hx : key ++ littleEndian64 version <+: x)
    (hstored : entries[x]?.isSome) :
    (elementKeys (entries.erase x) key version).length + 1 =
      (elementKeys entries key version).length := by
  have hmem : x ∉ elementKeys (entries.erase x) key version := by
    rw [mem_elementKeys, Entries.getElem?_erase, if_pos rfl]
    exact fun h => nomatch h.1
  suffices hperm : (x :: elementKeys (entries.erase x) key version).Perm
      (elementKeys entries key version) from hperm.length_eq
  refine (List.perm_ext_iff_of_nodup (nodup_elementKeys.cons hmem) nodup_elementKeys).2 ?_
  intro y
  rw [List.mem_cons, mem_elementKeys, mem_elementKeys, Entries.getElem?_erase]
  by_cases hy : y = x
  · simp [hy, hx, hstored]
  · simp [hy]

end ElementKeys

/-! ## Consistency -/

/-- The elements stored are the ones the metadata says. -/
def Counts (entries : Entries) (key : Bytes) (m : RedisMetadata) : Prop :=
  if m.dataType = .list then
    m.size.toNat = (m.tail - m.head).toNat ∧
      ∀ i, entries[elementKey key m.version i]?.isSome ↔ i - m.head < m.tail - m.head
  else
    m.size.toNat = (elementKeys entries key m.version).length

theorem counts_of_ne_list {entries : Entries} {key : Bytes} {m : RedisMetadata}
    (h : m.dataType ≠ .list) :
    Counts entries key m ↔ m.size.toNat = (elementKeys entries key m.version).length := by
  rw [Counts, if_neg h]

/-- The types of the collections. -/
def collectionTypes : List RedisDataType := [.hash, .set, .list, .zset]

/-- The collection under a key, if there is one, is consistent. -/
def Consistent (entries : Entries) (key : Bytes) : Prop :=
  ∀ bytes m, entries[key]? = some bytes → RedisMetadata.decode bytes = .ok m →
    m.dataType ∈ collectionTypes → Counts entries key m

theorem Consistent.of_absent {entries : Entries} {key : Bytes} (h : entries[key]? = none) :
    Consistent entries key := by
  intro bytes m hbytes
  rw [h] at hbytes
  cases hbytes

/-- A database whose metadata is known. -/
theorem consistent_iff {entries : Entries} {key bytes : Bytes} {m : RedisMetadata}
    (hbytes : entries[key]? = some bytes) (hm : RedisMetadata.decode bytes = .ok m)
    (htype : m.dataType ∈ collectionTypes) : Consistent entries key ↔ Counts entries key m := by
  constructor
  · intro h
    exact h bytes m hbytes hm htype
  · intro h bytes' m' hbytes' hm' _
    obtain rfl := Option.some.inj (hbytes.symm.trans hbytes')
    obtain rfl := Except.ok.inj (hm.symm.trans hm')
    exact h

/-! ## One element more or fewer -/

section Indices

variable {j n : UInt64}

theorem succ_lt_succ_iff (hn : n.toNat + 1 < 2 ^ 64) : j + 1 < n + 1 ↔ j = -1 ∨ j < n := by
  rw [UInt64.lt_iff_toNat_lt, UInt64.lt_iff_toNat_lt, ← UInt64.toNat_inj, UInt64.toNat_add,
    UInt64.toNat_add]
  have := j.toNat_lt
  have hneg : (-1 : UInt64).toNat = 2 ^ 64 - 1 := by decide
  have hone : (1 : UInt64).toNat = 1 := rfl
  omega

theorem lt_succ_iff (hn : n.toNat + 1 < 2 ^ 64) : j < n + 1 ↔ j = n ∨ j < n := by
  rw [UInt64.lt_iff_toNat_lt, UInt64.lt_iff_toNat_lt, ← UInt64.toNat_inj, UInt64.toNat_add]
  have hone : (1 : UInt64).toNat = 1 := rfl
  omega

theorem pred_lt_pred_iff (hn : n ≠ 0) : j - 1 < n - 1 ↔ j ≠ 0 ∧ j < n := by
  have hn' : n.toNat ≠ 0 := by rwa [ne_eq, ← UInt64.toNat_inj] at hn
  rw [UInt64.lt_iff_toNat_lt, UInt64.lt_iff_toNat_lt, ne_eq, ← UInt64.toNat_inj,
    UInt64.toNat_sub, UInt64.toNat_sub]
  have := j.toNat_lt
  have := n.toNat_lt
  rw [UInt64.toNat_one, UInt64.toNat_zero]
  omega

theorem lt_pred_iff (hn : n ≠ 0) : j < n - 1 ↔ j ≠ n - 1 ∧ j < n := by
  have hn' : n.toNat ≠ 0 := by rwa [ne_eq, ← UInt64.toNat_inj] at hn
  rw [UInt64.lt_iff_toNat_lt, UInt64.lt_iff_toNat_lt, ne_eq, ← UInt64.toNat_inj, UInt64.toNat_sub]
  have := j.toNat_lt
  have := n.toNat_lt
  have hone : (1 : UInt64).toNat = 1 := rfl
  omega

theorem one_le_of_ne_zero (hn : n ≠ 0) : 1 ≤ n := by
  rw [UInt64.le_iff_toNat_le, UInt64.toNat_one]
  rw [ne_eq, ← UInt64.toNat_inj, UInt64.toNat_zero] at hn
  omega

end Indices

section Counts

variable {entries entries' : Entries} {key e value : Bytes} {m : RedisMetadata}

theorem counts_congr (h : ∀ x, key ++ littleEndian64 m.version <+: x →
    entries'[x]?.isSome = entries[x]?.isSome) : Counts entries' key m ↔ Counts entries key m := by
  unfold Counts
  rw [elementKeys_congr h]
  simp only [fun i => h (elementKey key m.version i) (isPrefix_internalKey key m.version _)]

/-- The entry of the key itself is that of no element. -/
theorem counts_insert_key (bytes : Bytes) :
    Counts (entries.insert key bytes) key m ↔ Counts entries key m := by
  refine counts_congr fun x hx => ?_
  rw [Entries.getElem?_insert, if_neg]
  rintro rfl
  exact not_isPrefix_self _ _ hx

theorem counts_stored : Counts entries key m.stored ↔ Counts entries key m := by
  unfold RedisMetadata.stored
  split
  · rfl
  · rename_i hlist
    simp only [Counts, if_neg hlist]

/-- An element that is added is not counted by the metadata there is. -/
theorem Counts.not_insert (h : Counts entries key m)
    (hindex : m.dataType = .list → ∃ i, e = littleEndian64 i)
    (hnew : entries[internalKey key m.version e]? = none) :
    ¬Counts (entries.insert (internalKey key m.version e) value) key m := by
  unfold Counts at h ⊢
  split at h
  · rename_i hlist
    rw [if_pos hlist]
    obtain ⟨i, rfl⟩ := hindex hlist
    have hstored := (h.2 i).not.1 (by simp [elementKey, ListInternalKey.encode, hnew])
    intro h'
    apply hstored
    rw [← h'.2 i]
    simp [elementKey, ListInternalKey.encode]
  · rename_i hlist
    rw [if_neg hlist, length_elementKeys_insert (isPrefix_internalKey ..) hnew, h]
    exact Nat.ne_of_lt (Nat.lt_succ_self _)

/-- An element that is removed is still counted. -/
theorem Counts.not_erase (h : Counts entries key m)
    (hindex : m.dataType = .list → ∃ i, e = littleEndian64 i)
    (hstored : entries[internalKey key m.version e]?.isSome) :
    ¬Counts (entries.erase (internalKey key m.version e)) key m := by
  unfold Counts at h ⊢
  split at h
  · rename_i hlist
    rw [if_pos hlist]
    obtain ⟨i, rfl⟩ := hindex hlist
    have hcounted := (h.2 i).1 hstored
    intro h'
    rw [← h'.2 i] at hcounted
    simp [elementKey, ListInternalKey.encode] at hcounted
  · rename_i hlist
    rw [if_neg hlist, h, ← length_elementKeys_erase (isPrefix_internalKey ..) hstored]
    exact Nat.ne_of_gt (Nat.lt_succ_self _)

/-- The entry of an element that is there already is changed. -/
theorem counts_insert_of_isSome {x : Bytes} (hstored : entries[x]?.isSome) :
    Counts (entries.insert x value) key m ↔ Counts entries key m := by
  refine counts_congr fun y _ => ?_
  rw [Entries.getElem?_insert]
  split
  · rename_i hy
    rw [hy, hstored]
    rfl
  · rfl

/-- An element of a hash or a set is added and counted. -/
theorem Counts.insert_element (h : Counts entries key m) (hlist : m.dataType ≠ .list)
    (hroom : m.size.toNat + 1 < 2 ^ 32) (hnew : entries[internalKey key m.version e]? = none) :
    Counts (entries.insert (internalKey key m.version e) value) key
      { m with size := m.size + 1 } := by
  unfold Counts at h ⊢
  rw [if_neg hlist] at h ⊢
  rw [length_elementKeys_insert (isPrefix_internalKey ..) hnew, ← h, UInt32.toNat_add]
  exact Nat.mod_eq_of_lt hroom

/-- An element of a hash or a set is removed and not counted any more. -/
theorem Counts.erase_element (h : Counts entries key m) (hlist : m.dataType ≠ .list)
    (hstored : entries[internalKey key m.version e]?.isSome) :
    Counts (entries.erase (internalKey key m.version e)) key { m with size := m.size - 1 } := by
  unfold Counts at h ⊢
  rw [if_neg hlist] at h ⊢
  have hlength := length_elementKeys_erase (isPrefix_internalKey key m.version e) hstored
  have := m.size.toNat_lt
  rw [UInt32.toNat_sub_of_le _ _ (by rw [UInt32.le_iff_toNat_le]; show 1 ≤ _; omega)]
  show m.size.toNat - 1 = (elementKeys (entries.erase _) key m.version).length
  omega

/-! ### Lists -/

theorem counts_list (hlist : m.dataType = .list) :
    Counts entries key m ↔ m.size.toNat = (m.tail - m.head).toNat ∧
      ∀ i, entries[elementKey key m.version i]?.isSome ↔ i - m.head < m.tail - m.head := by
  rw [Counts, if_pos hlist]

theorem Counts.marked (h : Counts entries key m) (hlist : m.dataType = .list) :
    Counts entries key m.marked := by
  unfold RedisMetadata.marked
  split
  · rename_i hsize
    have h := (counts_list hlist).1 h
    have hlength : (m.tail - m.head).toNat = 0 := by rw [← h.1, hsize, UInt32.toNat_zero]
    have hempty : m.tail - m.head = 0 :=
      UInt64.toNat_inj.1 (hlength.trans UInt64.toNat_zero.symm)
    refine (counts_list (m := { m with head := initialListMark, tail := initialListMark }) hlist).2
      ⟨?_, fun i => (h.2 i).trans ?_⟩
    · show m.size.toNat = (initialListMark - initialListMark).toNat
      rw [hsize, UInt64.sub_self, UInt32.toNat_zero, UInt64.toNat_zero]
    · show _ ↔ i - initialListMark < initialListMark - initialListMark
      rw [hempty, UInt64.sub_self]
      exact iff_of_false UInt64.not_lt_zero UInt64.not_lt_zero
  · exact h

/-- The indices next to those of the elements have none. -/
theorem Counts.not_isSome_head (h : Counts entries key m) (hlist : m.dataType = .list) :
    entries[elementKey key m.version (m.head - 1)]? = none := by
  have h := (((counts_list hlist).1 h).2 (m.head - 1)).not.2 ?_
  · simpa using h
  · have hneg : m.head - 1 - m.head = -1 := by grind
    rw [hneg, UInt64.lt_iff_toNat_lt]
    have := (m.tail - m.head).toNat_lt
    have hone : (-1 : UInt64).toNat = 2 ^ 64 - 1 := by decide
    omega

theorem Counts.not_isSome_tail (h : Counts entries key m) (hlist : m.dataType = .list) :
    entries[elementKey key m.version m.tail]? = none := by
  have h := (((counts_list hlist).1 h).2 m.tail).not.2 (UInt64.lt_irrefl _)
  simpa using h

theorem Counts.tail_ne_head (h : Counts entries key m) (hlist : m.dataType = .list)
    (hsize : m.size ≠ 0) : m.tail - m.head ≠ 0 := by
  intro h0
  apply hsize
  rw [← UInt32.toNat_inj, ((counts_list hlist).1 h).1, h0]
  rfl

theorem Counts.isSome_head (h : Counts entries key m) (hlist : m.dataType = .list)
    (hsize : m.size ≠ 0) : entries[elementKey key m.version m.head]?.isSome := by
  rw [((counts_list hlist).1 h).2, UInt64.sub_self]
  exact UInt64.pos_iff_ne_zero.2 (h.tail_ne_head hlist hsize)

theorem Counts.isSome_tail (h : Counts entries key m) (hlist : m.dataType = .list)
    (hsize : m.size ≠ 0) : entries[elementKey key m.version (m.tail - 1)]?.isSome := by
  have hne := h.tail_ne_head hlist hsize
  have hpred : m.tail - 1 - m.head = m.tail - m.head - 1 := by grind
  rw [((counts_list hlist).1 h).2, hpred, UInt64.lt_iff_toNat_lt, UInt64.toNat_sub_of_le]
  · have : (m.tail - m.head).toNat ≠ 0 := by rwa [ne_eq, ← UInt64.toNat_inj] at hne
    exact Nat.sub_lt (Nat.pos_of_ne_zero this) Nat.one_pos
  · exact one_le_of_ne_zero hne

theorem Counts.pushFront (h : Counts entries key m) (hlist : m.dataType = .list)
    (hroom : m.size.toNat + 1 < 2 ^ 32) :
    Counts (entries.insert (elementKey key m.version (m.head - 1)) value) key m.pushFront := by
  obtain ⟨hsize, h⟩ := (counts_list hlist).1 h
  have hlength : m.tail - (m.head - 1) = m.tail - m.head + 1 := by grind
  refine (counts_list (m := m.pushFront) hlist).2 ⟨?_, fun i => ?_⟩
  · show (m.size + 1).toNat = (m.tail - (m.head - 1)).toNat
    rw [hlength, UInt32.toNat_add, UInt64.toNat_add, ← hsize, UInt32.toNat_one, UInt64.toNat_one]
    omega
  · show (entries.insert _ _)[elementKey key m.version i]?.isSome ↔
      i - (m.head - 1) < m.tail - (m.head - 1)
    have hi : i - (m.head - 1) = i - m.head + 1 := by grind
    have hfirst : i - m.head = -1 ↔ i = m.head - 1 := by grind
    rw [hlength, hi, succ_lt_succ_iff (by omega), ← h i, hfirst]
    by_cases hi : i = m.head - 1 <;> simp [hi]

theorem Counts.pushBack (h : Counts entries key m) (hlist : m.dataType = .list)
    (hroom : m.size.toNat + 1 < 2 ^ 32) :
    Counts (entries.insert (elementKey key m.version m.tail) value) key m.pushBack := by
  obtain ⟨hsize, h⟩ := (counts_list hlist).1 h
  have hlength : m.tail + 1 - m.head = m.tail - m.head + 1 := by grind
  refine (counts_list (m := m.pushBack) hlist).2 ⟨?_, fun i => ?_⟩
  · show (m.size + 1).toNat = (m.tail + 1 - m.head).toNat
    rw [hlength, UInt32.toNat_add, UInt64.toNat_add, ← hsize, UInt32.toNat_one, UInt64.toNat_one]
    omega
  · show (entries.insert _ _)[elementKey key m.version i]?.isSome ↔
      i - m.head < m.tail + 1 - m.head
    have hlast : i - m.head = m.tail - m.head ↔ i = m.tail := by grind
    rw [hlength, lt_succ_iff (by omega), ← h i, hlast]
    by_cases hi : i = m.tail <;> simp [hi]

theorem Counts.toNat_size_sub_one (h : Counts entries key m) (hlist : m.dataType = .list)
    (hsize : m.size ≠ 0) : (m.size - 1).toNat = (m.tail - m.head - 1).toNat := by
  have hne := h.tail_ne_head hlist hsize
  have hone : 1 ≤ m.size := by
    rw [UInt32.le_iff_toNat_le, UInt32.toNat_one]
    rw [ne_eq, ← UInt32.toNat_inj, UInt32.toNat_zero] at hsize
    omega
  rw [UInt32.toNat_sub_of_le _ _ hone, UInt64.toNat_sub_of_le _ _ (one_le_of_ne_zero hne),
    ((counts_list hlist).1 h).1, UInt32.toNat_one, UInt64.toNat_one]

theorem Counts.popFront (h : Counts entries key m) (hlist : m.dataType = .list)
    (hsize : m.size ≠ 0) :
    Counts (entries.erase (elementKey key m.version m.head)) key m.popFront := by
  have hne := h.tail_ne_head hlist hsize
  have hlength : m.tail - (m.head + 1) = m.tail - m.head - 1 := by grind
  refine (counts_list (m := m.popFront) hlist).2 ⟨?_, fun i => ?_⟩
  · show (m.size - 1).toNat = (m.tail - (m.head + 1)).toNat
    rw [hlength, h.toNat_size_sub_one hlist hsize]
  · show (entries.erase _)[elementKey key m.version i]?.isSome ↔
      i - (m.head + 1) < m.tail - (m.head + 1)
    have hi : i - (m.head + 1) = i - m.head - 1 := by grind
    have hfirst : i - m.head = 0 ↔ i = m.head := by grind
    rw [hlength, hi, pred_lt_pred_iff hne, ← ((counts_list hlist).1 h).2 i, ne_eq, hfirst]
    by_cases hi : i = m.head <;> simp [hi]

theorem Counts.popBack (h : Counts entries key m) (hlist : m.dataType = .list)
    (hsize : m.size ≠ 0) :
    Counts (entries.erase (elementKey key m.version (m.tail - 1))) key m.popBack := by
  have hne := h.tail_ne_head hlist hsize
  have hlength : m.tail - 1 - m.head = m.tail - m.head - 1 := by grind
  refine (counts_list (m := m.popBack) hlist).2 ⟨?_, fun i => ?_⟩
  · show (m.size - 1).toNat = (m.tail - 1 - m.head).toNat
    rw [hlength, h.toNat_size_sub_one hlist hsize]
  · show (entries.erase _)[elementKey key m.version i]?.isSome ↔ i - m.head < m.tail - 1 - m.head
    have hlast : i - m.head = m.tail - m.head - 1 ↔ i = m.tail - 1 := by grind
    rw [hlength, lt_pred_iff hne, ← ((counts_list hlist).1 h).2 i, ne_eq, hlast]
    by_cases hi : i = m.tail - 1 <;> simp [hi]

end Counts

/-- A collection that is made has no element. -/
theorem counts_create {entries : Entries} {key : Bytes} {version : UInt64} (dataType : RedisDataType)
    (h : elementKeys entries key version = []) : Counts entries key (.create dataType version) := by
  unfold Counts
  split
  · refine ⟨?_, fun i => ?_⟩
    · rw [RedisMetadata.create, UInt64.sub_self, UInt64.toNat_zero, UInt32.toNat_zero]
    · have hmem : elementKey key version i ∉ elementKeys entries key version := by
        rw [h]
        exact List.not_mem_nil
      rw [mem_elementKeys] at hmem
      rw [RedisMetadata.create, UInt64.sub_self]
      refine iff_of_false (fun hi => hmem ⟨hi, isPrefix_internalKey ..⟩) UInt64.not_lt_zero
  · rw [RedisMetadata.create, h, UInt32.toNat_zero]
    rfl

end Bitcask.Redis
