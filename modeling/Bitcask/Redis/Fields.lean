import Bitcask.Redis.MapDatabase

/-!
# What hashes and sets hold

The operations on the fields of one hash, or the members of one set
(`FieldRequest`), against those of a map from fields to values (`Fields.step`). The
database holds the map when the metadata has its size and there is an entry for each
field (`HoldsFields`).

Removing a field that is not there, from a collection that is, counts one off all the
same, and removing a key always returns true, since the database does not tell that
there was nothing to remove. As long as only what is there is removed, the
results are those of the map (`serve_eq_fields_step`).
-/

namespace Bitcask.Redis

/-! ## Maps of fields -/

/-- The collections made of fields: a set is one without values. -/
inductive FieldsType
  | hash
  | set
deriving DecidableEq, Repr

def FieldsType.dataType : FieldsType → RedisDataType
  | hash => .hash
  | set => .set

/-- The operations on the fields of one collection, and its removal. -/
inductive FieldRequest
  | add (field value : Bytes)
  | find (field : Bytes)
  | remove (field : Bytes)
  | del
deriving DecidableEq, Repr

def FieldRequest.toRequest (key : Bytes) : FieldsType → FieldRequest → Request
  | .hash, add field value => .hset key field value
  | .hash, find field => .hget key field
  | .hash, remove field => .hdel key field
  | .set, add member _ => .sadd key member
  | .set, find member => .sismember key member
  | .set, remove member => .srem key member
  | _, del => .del key

/-- What is returned for a field that is looked for. -/
def Fields.found : FieldsType → Option Bytes → Except Exn Reply
  | .hash, some value => .ok (.text value)
  | .hash, none => .error .keyNotFound
  | .set, value => .ok (.flag value.isSome)

/-- A map of fields: what is added, removed and deleted is told to have been there, or
    not, and only that disappears. -/
def Fields.step (type : FieldsType) (m : Entries) : FieldRequest → Entries × List (Except Exn Reply)
  | .add field value =>
    (match type with
      | .hash => m.insert field value
      | .set => if m.contains field then m else m.insert field [],
      [.ok (.flag (!m.contains field))])
  | .find field => (m, [Fields.found type m[field]?])
  | .remove field => (m.erase field, [.ok (.flag (m.contains field))])
  | .del => (∅, [.ok (.flag (!m.isEmpty))])

/-! ## Maps of fields in a database -/

/-- The metadata of a collection of `n` fields. -/
def fieldsMetadata (type : FieldsType) (version : UInt64) (n : ℕ) : RedisMetadata where
  dataType := type.dataType
  version := version
  size := .ofNat n

/-- There is an entry for each field of a map, and for no other. -/
def FieldEntries (entries : Entries) (key : Bytes) (version : UInt64) (m : Entries) : Prop :=
  ∀ field, entries[internalKey key version field]? = m[field]?

/-- The entries of the database are those of the map `m` at `key`: the key is there
    unless there are no fields, and the metadata has their number. -/
structure HoldsFields (type : FieldsType) (entries : Entries) (key : Bytes) (m : Entries) : Prop where
  size_lt : m.size < 2 ^ 32
  absent : m.size = 0 → entries[key]? = none
  present : m.size ≠ 0 → ∃ version,
    entries[key]? = some (fieldsMetadata type version m.size).encode ∧
      FieldEntries entries key version m

section Metadata

variable {type : FieldsType} {version : UInt64} {n : ℕ}

theorem create_eq_fieldsMetadata (type : FieldsType) (version : UInt64) :
    RedisMetadata.create type.dataType version = fieldsMetadata type version 0 := by
  cases type <;> rfl

theorem stored_fieldsMetadata : (fieldsMetadata type version n).stored = fieldsMetadata type version n := by
  cases type <;> rfl

theorem size_fieldsMetadata_eq_zero_iff (hn : n < 2 ^ 32) :
    (fieldsMetadata type version n).size = 0 ↔ n = 0 := by
  rw [← UInt32.toNat_inj, fieldsMetadata, UInt32.toNat_ofNat_of_lt' hn]
  rfl

theorem fieldsMetadata_add_one :
    { fieldsMetadata type version n with size := (fieldsMetadata type version n).size + 1 } =
      fieldsMetadata type version (n + 1) := by
  have : (fieldsMetadata type version n).size + 1 = .ofNat (n + 1) := by
    rw [UInt32.ofNat_add]
    rfl
  rw [this]
  rfl

theorem fieldsMetadata_sub_one (hn : n ≠ 0) :
    { fieldsMetadata type version n with size := (fieldsMetadata type version n).size - 1 } =
      fieldsMetadata type version (n - 1) := by
  obtain ⟨n, rfl⟩ := Nat.exists_eq_succ_of_ne_zero hn
  have : (fieldsMetadata type version (n + 1)).size - 1 = .ofNat n := by
    show UInt32.ofNat (n + 1) - 1 = _
    rw [UInt32.ofNat_add]
    exact UInt32.add_sub_cancel _ _
  rw [Nat.succ_eq_add_one, this]
  rfl

end Metadata

section Entries

variable {type : FieldsType} {entries m : Entries} {key field value : Bytes} {version : UInt64}

theorem FieldEntries.insert (h : FieldEntries entries key version m) (field value : Bytes) :
    FieldEntries (entries.insert (internalKey key version field) value) key version
      (m.insert field value) := by
  intro f
  rw [Entries.getElem?_insert, Entries.getElem?_insert, h f]
  exact if_congr (internalKey_inj.trans (and_iff_right rfl)) rfl rfl

theorem FieldEntries.erase (h : FieldEntries entries key version m) (field : Bytes) :
    FieldEntries (entries.erase (internalKey key version field)) key version (m.erase field) := by
  intro f
  rw [Entries.getElem?_erase, Entries.getElem?_erase, h f]
  exact if_congr (internalKey_inj.trans (and_iff_right rfl)) rfl rfl

theorem FieldEntries.insert_key (h : FieldEntries entries key version m) (bytes : Bytes) :
    FieldEntries (entries.insert key bytes) key version m := by
  intro f
  rw [Entries.getElem?_insert, if_neg (internalKey_ne key version f), h f]

theorem FieldEntries.isSome_eq (h : FieldEntries entries key version m) (field : Bytes) :
    (entries[internalKey key version field]?).isSome = m.contains field := by
  rw [h field, Std.TreeMap.contains_eq_isSome_getElem?]

theorem size_ne_zero_of_contains (h : m.contains field = true) : m.size ≠ 0 := by
  intro h0
  rw [Std.TreeMap.contains_of_isEmpty (Std.TreeMap.isEmpty_eq_size_eq_zero ▸ beq_iff_eq.2 h0)] at h
  cases h

/-- A field that is there is given another value. -/
theorem HoldsFields.insert_of_contains (h : HoldsFields type entries key m)
    (hkey : entries[key]? = some (fieldsMetadata type version m.size).encode)
    (hentries : FieldEntries entries key version m) (hfield : m.contains field = true)
    (value : Bytes) :
    HoldsFields type (entries.insert (internalKey key version field) value) key
      (m.insert field value) := by
  have hsize : (m.insert field value).size = m.size := by
    rw [Std.TreeMap.size_insert, if_pos hfield]
  have hne := size_ne_zero_of_contains hfield
  refine ⟨by rw [hsize]; exact h.size_lt, fun h0 => absurd (hsize.symm.trans h0) hne, fun _ =>
    ⟨version, ?_, hentries.insert field value⟩⟩
  rw [hsize, Entries.getElem?_insert, if_neg (internalKey_ne key version field).symm, hkey]

/-- A field that is not there is added, and counted. -/
theorem HoldsFields.insert_of_not_contains (hentries : FieldEntries entries key version m)
    (hfield : m.contains field = false) (hroom : m.size + 1 < 2 ^ 32) (value : Bytes) :
    HoldsFields type ((entries.insert (internalKey key version field) value).insert key
      (fieldsMetadata type version (m.size + 1)).encode) key (m.insert field value) := by
  have hsize : (m.insert field value).size = m.size + 1 := by
    rw [Std.TreeMap.size_insert, hfield]
    rfl
  refine ⟨by rw [hsize]; exact hroom, fun h0 => by omega, fun _ =>
    ⟨version, ?_, (hentries.insert field value).insert_key _⟩⟩
  rw [hsize, Entries.getElem?_insert, if_pos rfl]

/-- A field is removed, and the key with the last one. -/
theorem FieldEntries.run_putOrRemove {s : MapDB} (hentries : FieldEntries s.entries key version m)
    (hsize : m.size < 2 ^ 32) (hfield : m.contains field = true) (type : FieldsType) :
    ∃ s', Operation.run (putOrRemove key (fieldsMetadata type version (m.size - 1)))
        (s.erase (internalKey key version field)) = (.ok (), s') ∧
      HoldsFields type s'.entries key (m.erase field) := by
  have hsizeErase : (m.erase field).size = m.size - 1 := by
    rw [Std.TreeMap.size_erase, if_pos hfield]
  have hne := size_ne_zero_of_contains hfield
  unfold putOrRemove
  by_cases hlast : m.size - 1 = 0
  · rw [if_pos ((size_fieldsMetadata_eq_zero_iff (by omega)).2 hlast)]
    refine ⟨_, run_remove key _, by omega, fun _ => ?_, fun h0 => absurd (hsizeErase.trans hlast) h0⟩
    show ((s.entries.erase _).erase key)[key]? = none
    rw [Entries.getElem?_erase, if_pos rfl]
  · rw [if_neg (mt (size_fieldsMetadata_eq_zero_iff (by omega)).1 hlast)]
    refine ⟨_, run_put key _ _, by omega, fun h0 => absurd (hsizeErase.symm.trans h0) hlast,
      fun _ => ⟨version, ?_, (hentries.erase field).insert_key _⟩⟩
    rw [hsizeErase]
    exact (Entries.getElem?_insert ..).trans (if_pos rfl)

end Entries

/-! ## Operations on fields -/

section Operations

variable {type : FieldsType} {s : MapDB} {m : Entries} {key : Bytes}

/-- What an operation on fields starts from: the metadata of its map, be it stored or
    made. -/
theorem HoldsFields.run_findMetadata (h : HoldsFields type s.entries key m) :
    ∃ version clock, Operation.run (findMetadata key type.dataType) s =
        (.ok (fieldsMetadata type version m.size), ⟨s.entries, clock⟩) ∧
      (m.size = 0 → version = s.clock 0) ∧
      (m.size ≠ 0 → s.entries[key]? = some (fieldsMetadata type version m.size).encode ∧
        FieldEntries s.entries key version m) := by
  by_cases h0 : m.size = 0
  · refine ⟨s.clock 0, fun n => s.clock (n + 1), ?_, fun _ => rfl, fun hne => absurd h0 hne⟩
    rw [h0, ← create_eq_fieldsMetadata]
    exact (Finds.absent (h.absent h0)).run
  · obtain ⟨version, hkey, hentries⟩ := h.present h0
    refine ⟨version, s.clock, ?_, fun heq => absurd heq h0, fun _ => ⟨hkey, hentries⟩⟩
    have hdecode := RedisMetadata.decode_encode (fieldsMetadata type version m.size)
    rw [stored_fieldsMetadata] at hdecode
    exact (Finds.lasting hkey hdecode rfl rfl).run

/-- The requests whose outcome the code counts right, for what the database holds: what
    is removed is there, or nothing is, and the key is there when it is deleted. Adding
    takes room for the field and, where the collection is made, no entries left of an
    earlier one with the version read from the clock. -/
def Counted (entries : Entries) (key : Bytes) (m : Entries) (clock : Clock) : FieldRequest → Prop
  | .add field _ =>
    (m.size = 0 → ∀ f, entries[internalKey key (clock 0) f]? = none) ∧
      (m.contains field = false → m.size + 1 < 2 ^ 32)
  | .find _ => True
  | .remove field => m.size = 0 ∨ m.contains field = true
  | .del => m.size ≠ 0

theorem getElem?_of_size {f : Bytes} (h : m.size = 0) : m[f]? = none := by
  cases hf : m[f]? with
  | none => rfl
  | some value =>
    refine absurd h (@size_ne_zero_of_contains m f ?_)
    rw [Std.TreeMap.contains_eq_isSome_getElem?, hf]
    rfl

/-- Adding a field starts from its entry. -/
theorem HoldsFields.run_findMetadata_add (h : HoldsFields type s.entries key m) {field value : Bytes}
    (hcounted : Counted s.entries key m s.clock (.add field value)) :
    ∃ version clock, Operation.run (findMetadata key type.dataType) s =
        (.ok (fieldsMetadata type version m.size), ⟨s.entries, clock⟩) ∧
      FieldEntries s.entries key version m ∧
      Operation.run (stored (internalKey key version field)) ⟨s.entries, clock⟩ =
        (.ok (m.contains field), ⟨s.entries, clock⟩) ∧
      (m.size ≠ 0 → s.entries[key]? = some (fieldsMetadata type version m.size).encode) := by
  obtain ⟨version, clock, hfind, hversion, hpresent⟩ := h.run_findMetadata
  have hentries : FieldEntries s.entries key version m := by
    by_cases h0 : m.size = 0
    · intro f
      rw [hversion h0, hcounted.1 h0 f, getElem?_of_size h0]
    · exact (hpresent h0).2
  refine ⟨version, clock, hfind, hentries, ?_, fun h0 => (hpresent h0).1⟩
  rw [run_stored, hentries.isSome_eq]

theorem HoldsFields.run_hset (h : HoldsFields .hash s.entries key m) {field value : Bytes}
    (hcounted : Counted s.entries key m s.clock (.add field value)) :
    ∃ s', Operation.run (hset key field value) s = (.ok (!m.contains field), s') ∧
      HoldsFields .hash s'.entries key (m.insert field value) := by
  obtain ⟨version, clock, hfind, hentries, hstored, hkey⟩ := h.run_findMetadata_add hcounted
  cases hfield : m.contains field with
  | true =>
    rw [hfield] at hstored
    refine ⟨_, (Operation.run_bind_of_ok hfind).trans (Operation.run_bind_of_ok hstored),
      h.insert_of_contains (hkey (size_ne_zero_of_contains hfield)) hentries hfield value⟩
  | false =>
    rw [hfield] at hstored
    refine ⟨_, (Operation.run_bind_of_ok hfind).trans (Operation.run_bind_of_ok hstored), ?_⟩
    have hadded : HoldsFields .hash _ key (m.insert field value) :=
      .insert_of_not_contains hentries hfield (hcounted.2 hfield) value
    rw [← fieldsMetadata_add_one] at hadded
    exact hadded

theorem HoldsFields.run_sadd (h : HoldsFields .set s.entries key m) {member value : Bytes}
    (hcounted : Counted s.entries key m s.clock (.add member value)) :
    ∃ s', Operation.run (sadd key member) s = (.ok (!m.contains member), s') ∧
      HoldsFields .set s'.entries key (if m.contains member then m else m.insert member []) := by
  obtain ⟨version, clock, hfind, hentries, hstored, -⟩ := h.run_findMetadata_add hcounted
  cases hmember : m.contains member with
  | true =>
    rw [hmember] at hstored
    exact ⟨_, (Operation.run_bind_of_ok hfind).trans (Operation.run_bind_of_ok hstored), h⟩
  | false =>
    rw [hmember] at hstored
    refine ⟨_, (Operation.run_bind_of_ok hfind).trans (Operation.run_bind_of_ok hstored), ?_⟩
    have hadded : HoldsFields .set _ key (m.insert member []) :=
      .insert_of_not_contains hentries hmember (hcounted.2 hmember) []
    rw [← fieldsMetadata_add_one] at hadded
    exact hadded

/-- Looking for a field starts from its entry, unless there are none. -/
theorem HoldsFields.run_findMetadata_of_present (h : HoldsFields type s.entries key m)
    (hne : m.size ≠ 0) :
    ∃ version clock, Operation.run (findMetadata key type.dataType) s =
        (.ok (fieldsMetadata type version m.size), ⟨s.entries, clock⟩) ∧
      (fieldsMetadata type version m.size).size ≠ 0 ∧ FieldEntries s.entries key version m := by
  obtain ⟨version, clock, hfind, -, hpresent⟩ := h.run_findMetadata
  exact ⟨version, clock, hfind, mt (size_fieldsMetadata_eq_zero_iff h.size_lt).1 hne,
    (hpresent hne).2⟩

/-- Where there are no fields, metadata is found of none. -/
theorem HoldsFields.run_findMetadata_of_absent (h : HoldsFields type s.entries key m)
    (h0 : m.size = 0) : ∃ version clock, Operation.run (findMetadata key type.dataType) s =
      (.ok (fieldsMetadata type version 0), ⟨s.entries, clock⟩) := by
  obtain ⟨version, clock, hfind, -⟩ := h.run_findMetadata
  rw [h0] at hfind
  exact ⟨version, clock, hfind⟩

theorem HoldsFields.run_hget (h : HoldsFields .hash s.entries key m) (field : Bytes) :
    ∃ clock, Operation.run (hget key field) s = (match m[field]? with
      | some value => .ok value
      | none => .error .keyNotFound, ⟨s.entries, clock⟩) := by
  by_cases h0 : m.size = 0
  · obtain ⟨version, clock, hfind⟩ := h.run_findMetadata_of_absent h0
    rw [getElem?_of_size h0]
    exact ⟨clock, Operation.run_bind_of_ok hfind⟩
  · obtain ⟨version, clock, hfind, hne, hentries⟩ := h.run_findMetadata_of_present h0
    refine ⟨clock, (Operation.run_bind_of_ok hfind).trans ?_⟩
    rw [if_neg hne]
    cases hfield : m[field]? with
    | some value => exact run_get_of_some ((hentries field).trans hfield)
    | none => exact run_get_of_none ((hentries field).trans hfield)

theorem HoldsFields.run_sismember (h : HoldsFields .set s.entries key m) (member : Bytes) :
    ∃ clock, Operation.run (sismember key member) s =
      (.ok (m[member]?).isSome, ⟨s.entries, clock⟩) := by
  by_cases h0 : m.size = 0
  · obtain ⟨version, clock, hfind⟩ := h.run_findMetadata_of_absent h0
    rw [getElem?_of_size h0]
    exact ⟨clock, Operation.run_bind_of_ok hfind⟩
  · obtain ⟨version, clock, hfind, hne, hentries⟩ := h.run_findMetadata_of_present h0
    refine ⟨clock, (Operation.run_bind_of_ok hfind).trans ?_⟩
    rw [if_neg hne, ← hentries member]
    exact run_stored _ _

/-- Removing a field that is there, or one of no fields. -/
theorem HoldsFields.run_removeField (h : HoldsFields type s.entries key m) {field : Bytes}
    (hcounted : Counted s.entries key m s.clock (.remove field)) :
    ∃ s', Operation.run (findMetadata key type.dataType >>= fun metadata =>
        removeElement key (internalKey key metadata.version field) metadata) s =
          (.ok (m.contains field), s') ∧ HoldsFields type s'.entries key (m.erase field) := by
  rcases hcounted with h0 | hfield
  · obtain ⟨version, clock, hfind⟩ := h.run_findMetadata_of_absent h0
    have hfield : m.contains field = false := by
      rw [Std.TreeMap.contains_eq_isSome_getElem?, getElem?_of_size h0]
      rfl
    have hsize : (m.erase field).size = 0 := by
      rw [Std.TreeMap.size_erase, hfield]
      exact h0
    rw [hfield]
    exact ⟨⟨s.entries, clock⟩, Operation.run_bind_of_ok hfind, by omega, fun _ => h.absent h0,
      fun hne => absurd hsize hne⟩
  · have h0 := size_ne_zero_of_contains hfield
    obtain ⟨version, clock, hfind, hne, hentries⟩ := h.run_findMetadata_of_present h0
    have hentries : FieldEntries (MapDB.mk s.entries clock).entries key version m := hentries
    obtain ⟨s', hrun, hs'⟩ := hentries.run_putOrRemove h.size_lt hfield type
    refine ⟨s', (Operation.run_bind_of_ok hfind).trans ?_, hs'⟩
    rw [removeElement, if_neg hne, fieldsMetadata_sub_one h0, hfield]
    refine Program.run_tryCatch_of_ok ?_
    exact (Operation.run_bind_of_ok (run_remove _ _)).trans (Operation.run_bind_of_ok hrun)

end Operations

/-! ## Runs -/

section Runs

variable {type : FieldsType} {entries m : Entries} {key : Bytes}

/-- A request that is counted right is served as by the map. -/
theorem HoldsFields.serve (h : HoldsFields type entries key m) {r : FieldRequest} {clock : Clock}
    (hcounted : Counted entries key m clock r) :
    (serve entries ⟨r.toRequest key type, clock⟩).2 = (Fields.step type m r).2 ∧
      HoldsFields type (Redis.serve entries ⟨r.toRequest key type, clock⟩).1 key
        (Fields.step type m r).1 := by
  have h : HoldsFields type (MapDB.mk entries clock).entries key m := h
  cases r with
  | add field value =>
    cases type with
    | hash =>
      obtain ⟨s', hrun, hs'⟩ := h.run_hset hcounted
      rw [FieldRequest.toRequest, serve_of_run (Operation.run_bind_of_ok hrun)]
      exact ⟨rfl, hs'⟩
    | set =>
      obtain ⟨s', hrun, hs'⟩ := h.run_sadd hcounted
      rw [FieldRequest.toRequest, serve_of_run (Operation.run_bind_of_ok hrun)]
      exact ⟨rfl, hs'⟩
  | find field =>
    cases type with
    | hash =>
      obtain ⟨clock', hrun⟩ := h.run_hget field
      cases hfield : m[field]? with
      | some value =>
        rw [hfield] at hrun
        rw [FieldRequest.toRequest, serve_of_run (Operation.run_bind_of_ok hrun), Fields.step, hfield]
        exact ⟨rfl, h⟩
      | none =>
        rw [hfield] at hrun
        rw [FieldRequest.toRequest, serve_of_run (Operation.run_bind_of_error hrun), Fields.step,
          hfield]
        exact ⟨rfl, h⟩
    | set =>
      obtain ⟨clock', hrun⟩ := h.run_sismember field
      rw [FieldRequest.toRequest, serve_of_run (Operation.run_bind_of_ok hrun)]
      exact ⟨rfl, h⟩
  | remove field =>
    obtain ⟨s', hrun, hs'⟩ := h.run_removeField hcounted
    cases type with
    | hash =>
      rw [FieldRequest.toRequest, serve_of_run (Operation.run_bind_of_ok hrun)]
      exact ⟨rfl, hs'⟩
    | set =>
      rw [FieldRequest.toRequest, serve_of_run (Operation.run_bind_of_ok hrun)]
      exact ⟨rfl, hs'⟩
  | del =>
    have hrun : Redis.serve entries ⟨.del key, clock⟩ = (entries.erase key, [.ok (.flag true)]) := rfl
    have hempty : m.isEmpty = false := by
      rw [Std.TreeMap.isEmpty_eq_size_eq_zero, beq_eq_false_iff_ne]
      exact hcounted
    have hkey : (FieldRequest.del).toRequest key type = .del key := by cases type <;> rfl
    rw [hkey, hrun, Fields.step, hempty]
    refine ⟨rfl, by decide +kernel, fun _ => ?_, fun hne => absurd Std.TreeMap.size_emptyc hne⟩
    rw [Entries.getElem?_erase, if_pos rfl]

/-- Removing a field that is not there, from a collection that is, tells that it was. -/
theorem HoldsFields.serve_remove (h : HoldsFields type entries key m) (h0 : m.size ≠ 0)
    (field : Bytes) (clock : Clock) :
    (Redis.serve entries ⟨(FieldRequest.remove field).toRequest key type, clock⟩).2 =
      [.ok (.flag true)] := by
  have h : HoldsFields type (MapDB.mk entries clock).entries key m := h
  obtain ⟨version, clock', hfind, hne, -⟩ := h.run_findMetadata_of_present h0
  have hremove : ∃ s', Operation.run (removeElement key (internalKey key version field)
      (fieldsMetadata type version m.size)) ⟨entries, clock'⟩ = (.ok true, s') := by
    rw [removeElement, if_neg hne]
    unfold putOrRemove
    split <;> exact ⟨_, rfl⟩
  obtain ⟨s', hrun⟩ := hremove
  have hrun : Operation.run (findMetadata key type.dataType >>= fun metadata =>
      removeElement key (internalKey key metadata.version field) metadata) ⟨entries, clock⟩ =
        (.ok true, s') := (Operation.run_bind_of_ok hfind).trans hrun
  cases type <;> rw [FieldRequest.toRequest, serve_of_run (Operation.run_bind_of_ok hrun)]

/-- The calls on one collection, with the readings of the clock during each. -/
def fieldCalls (type : FieldsType) (key : Bytes) (calls : List (FieldRequest × Clock)) : List Call :=
  calls.map fun call => ⟨call.1.toRequest key type, call.2⟩

/-- All requests of a run are counted right, for what the database holds by then. -/
def AllCounted (type : FieldsType) (key : Bytes) :
    Entries → Entries → List (FieldRequest × Clock) → Prop
  | _, _, [] => True
  | entries, m, (r, clock) :: calls => Counted entries key m clock r ∧
    AllCounted type key (serve entries ⟨r.toRequest key type, clock⟩).1 (Fields.step type m r).1 calls

/-- A run of requests that are counted right is one of the map, by induction on the
    calls. -/
theorem HoldsFields.run_calls (h : HoldsFields type entries key m)
    {calls : List (FieldRequest × Clock)} (hcounted : AllCounted type key entries m calls) :
    (Machine.run Redis.serve entries (fieldCalls type key calls)).2 =
        (Machine.run (Fields.step type) m (calls.map Prod.fst)).2 ∧
      HoldsFields type (Machine.run Redis.serve entries (fieldCalls type key calls)).1 key
        (Machine.run (Fields.step type) m (calls.map Prod.fst)).1 := by
  induction calls generalizing entries m with
  | nil => exact ⟨rfl, h⟩
  | cons call calls ih =>
    obtain ⟨hfirst, hrest⟩ := hcounted
    obtain ⟨hreply, hs⟩ := h.serve hfirst
    have := ih hs hrest
    simp only [fieldCalls, List.map_cons, Machine.run] at this ⊢
    rw [hreply, this.1]
    exact ⟨rfl, this.2⟩

theorem holdsFields_of_absent (type : FieldsType) (habsent : entries[key]? = none) :
    HoldsFields type entries key ∅ :=
  ⟨by decide +kernel, fun _ => habsent, fun hne => absurd Std.TreeMap.size_emptyc hne⟩

/-- Hashes and sets count what they hold, on a key that is absent at first, as long as only
    what is there is removed and deleted. Removing a field that is not there from a
    collection that has others, and deleting a key that is not there, always answer
    otherwise than the map does. -/
theorem run_fieldCalls (type : FieldsType) (key : Bytes) :
    (∀ (entries : Entries) (calls : List (FieldRequest × Clock)),
      entries[key]? = none → AllCounted type key entries ∅ calls →
      (Machine.run serve entries (fieldCalls type key calls)).2 =
          (Machine.run (Fields.step type) ∅ (calls.map Prod.fst)).2 ∧
        HoldsFields type (Machine.run serve entries (fieldCalls type key calls)).1 key
          (Machine.run (Fields.step type) ∅ (calls.map Prod.fst)).1) ∧
    ∀ (entries m : Entries) (clock : Clock),
      HoldsFields type entries key m →
      (∀ field, m.size ≠ 0 → m.contains field = false →
        (serve entries ⟨(FieldRequest.remove field).toRequest key type, clock⟩).2 ≠
          (Fields.step type m (.remove field)).2) ∧
      (m.size = 0 → (serve entries ⟨FieldRequest.del.toRequest key type, clock⟩).2 ≠
        (Fields.step type m .del).2) := by
  refine ⟨fun entries calls habsent hcounted =>
    (holdsFields_of_absent type habsent).run_calls hcounted, fun entries m clock h =>
    ⟨fun field h0 hfield => ?_, fun h0 => ?_⟩⟩
  · rw [h.serve_remove h0, Fields.step, hfield]
    simp
  · have hempty : m.isEmpty = true := by
      rw [Std.TreeMap.isEmpty_eq_size_eq_zero, h0]
      rfl
    rw [Fields.step, hempty]
    cases type <;> exact fun heq => by cases heq

/-- A field is added, removed and looked for. -/
def addAndRemove : List (FieldRequest × Clock) :=
  [(.add [102] [118], fun n => .ofNat n), (.remove [102], fun n => .ofNat n),
    (.find [102], fun n => .ofNat n)]

/-- It is gone then. -/
theorem run_fieldCalls_addAndRemove :
    (Machine.run serve ∅ (fieldCalls .hash [107] addAndRemove)).2 =
      [.ok (.flag true), .ok (.flag true), .error .keyNotFound] :=
  ((run_fieldCalls .hash [107]).1 ∅ addAndRemove Std.TreeMap.getElem?_emptyc
    ⟨⟨fun _ _ => Std.TreeMap.getElem?_emptyc, fun _ => by decide +kernel⟩,
      .inr (by decide +kernel), trivial, trivial⟩).1

/-- Removing another field than the only one removes that one. -/
theorem not_forall_run_fieldCalls :
    ¬∀ (type : FieldsType) (key : Bytes) (calls : List (FieldRequest × Clock)),
      (Machine.run serve ∅ (fieldCalls type key calls)).2 =
        (Machine.run (Fields.step type) ∅ (calls.map Prod.fst)).2 := by
  intro h
  have hsame := h .hash [107]
    ([.add [102] [118], .remove [103], .find [102]].map fun r => (r, fun n => .ofNat n))
  exact absurd hsame (by decide +kernel)

end Runs

end Bitcask.Redis
