import Mathlib.Data.Set.Image
import Bitcask.Redis.MapDatabase

/-!
# Interference between keys

The metadata of all keys and the elements of all collections share one key space,
and an internal key does not say where the key in it ends. So an operation on one
key may write an entry that another key reads.

The entries that matter to the operations on a key are those of its area: the key
itself, and what starts with the key and one of its versions (`Area`). As long as
the operations on other keys write nothing there (`Undisturbed`), the operations
on the key return what they return without them (`resultsOf_filter`).
-/

namespace Bitcask.Redis

/-! ## What a request writes -/

namespace Request

/-- Some requests only look at the database. -/
def readOnly : Request → Bool
  | get _ | «exists» _ | type _ => true
  | _ => false

/-- The element whose entry a request writes, for the metadata it finds. -/
def element (m : RedisMetadata) : Request → Option Bytes
  | hset _ field _ | hdel _ field => some field
  | sadd _ member | srem _ member => some member
  | lpush .. => some (littleEndian64 (m.marked.head - 1))
  | rpush .. => some (littleEndian64 m.marked.tail)
  | lpop .. => some (littleEndian64 m.head)
  | rpop .. => some (littleEndian64 (m.tail - 1))
  | zadd _ score member => some (littleEndian64 score ++ member)
  | _ => none

end Request

/-- The keys of the entries a call may write: its own key, and that of its element,
    for the metadata it finds. -/
inductive Writes (entries : Entries) (call : Call) : Bytes → Prop
  | key : call.request.readOnly = false → Writes entries call call.request.key
  | element {dataType : RedisDataType} {m : RedisMetadata} {s : MapDB} {e : Bytes} :
      call.request.dataType? = some dataType →
      Finds call.request.key dataType ⟨entries, call.clock⟩ (.ok m) s →
      call.request.element m = some e → Writes entries call (internalKey call.request.key m.version e)

/-- The entries that matter to the operations on a key: its own, and those that
    start with the key and one of its versions. -/
def Area (key : Bytes) (versions : Set UInt64) : Set Bytes :=
  {x | x = key ∨ ∃ v ∈ versions, key ++ littleEndian64 v <+: x}

/-! ## Footprints -/

/-- What an operation on a key gets and writes, the values it stores under the
    key, and the keys it looks for with an iterator. -/
structure Footprint where
  key : Bytes
  gets : Set Bytes
  writes : Set Bytes
  values : Set Bytes
  looksFor : Set (Bytes → Bool)

namespace Footprint

def Allows (F : Footprint) : Command → Prop
  | .get x => x ∈ F.gets
  | .put x value => x ∈ F.writes ∧ (x = F.key → value ∈ F.values)
  | .remove x => x ∈ F.writes
  | .iterate => True
  | .now => True

/-- Replies that an operation with the footprint cannot tell apart. -/
def Alike (F : Footprint) : (c : Command) → c.Reply → c.Reply → Prop
  | .get _, reply, reply' => reply = reply'
  | .put _ _, reply, reply' => reply = reply'
  | .remove _, reply, reply' => reply = reply'
  | .iterate, keys, keys' => ∀ p ∈ F.looksFor, keys.find? p = keys'.find? p
  | .now, time, time' => time = time'

theorem alike_refl (F : Footprint) (c : Command) (reply : c.Reply) : F.Alike c reply reply := by
  cases c with
  | iterate => exact fun _ _ => rfl
  | _ => rfl

end Footprint

/-- An operation that stays within a footprint: on replies it cannot tell apart, it
    does the same. -/
def StaysIn {α : Type} (F : Footprint) (p : Operation α) : Prop :=
  Program.Similar F.Allows F.Alike Eq p p

namespace StaysIn

variable {α β : Type} {F : Footprint} {p : Operation α} {f : α → Operation β}

theorem pure (a : α) : StaysIn F (Program.pure a : Operation α) := Program.Similar.pure rfl

theorem throw (e : Exn) : StaysIn F (Program.throw e : Operation α) := Program.Similar.throw e

theorem bind (hp : StaysIn F p) (hf : ∀ a, StaysIn F (f a)) : StaysIn F (p >>= f) := by
  refine Program.Similar.bind hp ?_
  rintro a _ rfl
  exact hf a

theorem ofReply (reply : Except Exn α) : StaysIn F (ofReply reply) := by
  cases reply with
  | ok a => exact pure a
  | error e => exact throw e

theorem catchKeyNotFound {body handler : Operation α} (hbody : StaysIn F body)
    (hhandler : StaysIn F handler) : StaysIn F (catchKeyNotFound body handler) := by
  refine Program.Similar.tryCatch hbody fun e => ?_
  split
  · exact hhandler
  · exact .throw e

theorem get {x : Bytes} (hx : x ∈ F.gets) : StaysIn F (DB.get x) := by
  refine .request hx ?_
  rintro reply _ rfl
  exact ofReply reply

theorem put {x value : Bytes} (hx : x ∈ F.writes) (hvalue : x = F.key → value ∈ F.values) :
    StaysIn F (DB.put x value) := by
  refine .request ⟨hx, hvalue⟩ ?_
  rintro reply _ rfl
  exact ofReply reply

theorem remove {x : Bytes} (hx : x ∈ F.writes) : StaysIn F (DB.remove x) := by
  refine .request hx ?_
  rintro reply _ rfl
  exact ofReply reply

theorem currentTimestamp : StaysIn F currentTimestamp := by
  refine .request trivial ?_
  rintro time _ rfl
  exact pure time

theorem isExpired (expireTime : UInt64) : StaysIn F (isExpired expireTime) := by
  unfold Redis.isExpired
  split
  · exact currentTimestamp.bind fun _ => pure _
  · exact pure _

theorem stored {x : Bytes} (hx : x ∈ F.gets) : StaysIn F (stored x) :=
  ((get hx).bind fun _ => pure _).catchKeyNotFound (pure _)

/-- An iterator that is stopped at the first key looked for. -/
theorem iterate {q : Bytes → Bool} (hq : q ∈ F.looksFor) {g : List Bytes → Operation β}
    (hfind : ∀ keys keys', keys.find? q = keys'.find? q → g keys = g keys')
    (hg : ∀ keys, StaysIn F (g keys)) : StaysIn F (DB.iterate >>= g) := by
  refine .request trivial ?_
  intro keys keys' hkeys
  show Program.Similar _ _ _ (g keys) (g keys')
  rw [hfind keys keys' (hkeys q hq)]
  exact hg keys'

end StaysIn

/-! ## The footprint of a request -/

/-- What a request does to a collection, once its metadata is found. -/
def Request.footprint (r : Request) (m : RedisMetadata) : Footprint where
  key := r.key
  gets := {x | ∃ e, x = internalKey r.key m.version e}
  writes := {x | r.readOnly = false ∧
    (x = r.key ∨ ∃ e, r.element m = some e ∧ x = internalKey r.key m.version e)}
  values := {value | ∃ m' : RedisMetadata, value = m'.encode ∧ m'.version = m.version}
  looksFor := {p | ∃ member, p = isEntryOf r.key m.version member}

/-- What a request does that is not about a collection. -/
def Request.plainFootprint (r : Request) : Footprint where
  key := r.key
  gets := {r.key}
  writes := {x | r.readOnly = false ∧ x = r.key}
  values := {value | value.getD 0 0 = RedisDataType.string.toByte}
  looksFor := ∅

section Collections

variable {r : Request} {m m' : RedisMetadata} {e element : Bytes} {index : UInt64}

theorem internalKey_mem_gets (r : Request) (m : RedisMetadata) (e : Bytes) :
    internalKey r.key m.version e ∈ (r.footprint m).gets :=
  ⟨e, rfl⟩

theorem internalKey_mem_writes (hr : r.readOnly = false) (he : r.element m = some e) :
    internalKey r.key m.version e ∈ (r.footprint m).writes :=
  ⟨hr, .inr ⟨e, he, rfl⟩⟩

theorem key_mem_writes (hr : r.readOnly = false) : r.key ∈ (r.footprint m).writes :=
  ⟨hr, .inl rfl⟩

theorem staysIn_put_element (hr : r.readOnly = false) (he : r.element m = some e)
    (value : Bytes) : StaysIn (r.footprint m) (DB.put (internalKey r.key m.version e) value) :=
  .put (internalKey_mem_writes hr he) fun h => absurd h (internalKey_ne _ _ _)

theorem staysIn_put_metadata (hr : r.readOnly = false) (hm' : m'.version = m.version) :
    StaysIn (r.footprint m) (DB.put r.key m'.encode) :=
  .put (key_mem_writes hr) fun _ => ⟨m', rfl, hm'⟩

theorem staysIn_putOrRemove (hr : r.readOnly = false) (hm' : m'.version = m.version) :
    StaysIn (r.footprint m) (putOrRemove r.key m') := by
  unfold putOrRemove
  split
  · exact .remove (key_mem_writes hr)
  · exact staysIn_put_metadata hr hm'

theorem staysIn_addElement (hr : r.readOnly = false) (he : r.element m = some e) (value : Bytes)
    (isNew : Bool) :
    StaysIn (r.footprint m) (do
      DB.put (internalKey r.key m.version e) value
      if isNew then DB.put r.key { m with size := m.size + 1 }.encode
      return isNew) := by
  refine (staysIn_put_element hr he value).bind fun _ => ?_
  cases isNew with
  | false => exact .pure _
  | true =>
    refine StaysIn.bind ?_ fun _ => .pure _
    exact staysIn_put_metadata hr rfl

theorem staysIn_removeElement (hr : r.readOnly = false) (he : r.element m = some e) :
    StaysIn (r.footprint m) (removeElement r.key (internalKey r.key m.version e) m) := by
  unfold removeElement
  split
  · exact .pure _
  · refine .catchKeyNotFound ?_ (.pure _)
    refine (StaysIn.remove (internalKey_mem_writes hr he)).bind fun _ => ?_
    refine StaysIn.bind ?_ fun _ => .pure _
    exact staysIn_putOrRemove hr rfl

theorem staysIn_pushElement (hr : r.readOnly = false)
    (he : r.element m = some (littleEndian64 index)) (hm' : m'.version = m.version) :
    StaysIn (r.footprint m) (pushElement r.key element index m') := by
  have hput := staysIn_put_element hr he element
  rw [← hm'] at hput
  exact hput.bind fun _ => (staysIn_put_metadata hr hm').bind fun _ => .pure _

theorem staysIn_popElement (hr : r.readOnly = false)
    (he : r.element m = some (littleEndian64 index)) (hm' : m'.version = m.version) :
    StaysIn (r.footprint m) (popElement r.key index m') := by
  have hget := StaysIn.get (internalKey_mem_gets r m (littleEndian64 index))
  have hremove := StaysIn.remove (internalKey_mem_writes hr he)
  rw [← hm'] at hget hremove
  exact hget.bind fun _ => hremove.bind fun _ => (staysIn_putOrRemove hr hm').bind fun _ => .pure _

end Collections

theorem exists_rest_of_bind {α : Type} {F : RedisMetadata → Footprint}
    {p : Operation RedisMetadata} {g : RedisMetadata → Operation α} (f : α → Reply)
    (hg : ∀ m, StaysIn (F m) (g m)) :
    ∃ rest, ((p >>= g) >>= fun a => pure (f a)) = p >>= rest ∧ ∀ m, StaysIn (F m) (rest m) :=
  ⟨_, Program.bind_assoc p g _, fun m => (hg m).bind fun _ => .pure _⟩

/-- A request on a collection finds its metadata, and then stays in the footprint. -/
theorem Request.exists_rest {r : Request} {dataType : RedisDataType}
    (htype : r.dataType? = some dataType) :
    ∃ rest : RedisMetadata → Operation Reply,
      r.operation = findMetadata r.key dataType >>= rest ∧ ∀ m, StaysIn (r.footprint m) (rest m) := by
  cases r <;> simp only [Request.dataType?, Option.some.injEq, reduceCtorEq] at htype <;>
    subst htype
  case hset key field value =>
    refine exists_rest_of_bind .flag fun m => ?_
    refine (StaysIn.stored (internalKey_mem_gets _ m field)).bind fun fieldExists => ?_
    exact staysIn_addElement (r := .hset key field value) rfl rfl value !fieldExists
  case hget key field =>
    refine exists_rest_of_bind .text fun m => ?_
    split
    · exact .throw _
    · exact .get (internalKey_mem_gets _ m field)
  case hdel key field =>
    exact exists_rest_of_bind .flag fun m => staysIn_removeElement (r := .hdel key field) rfl rfl
  case sadd key member =>
    refine exists_rest_of_bind .flag fun m => ?_
    refine (StaysIn.stored (internalKey_mem_gets _ m member)).bind fun memberExists => ?_
    split
    · exact .pure _
    · exact staysIn_addElement (r := .sadd key member) rfl rfl [] true
  case sismember key member =>
    refine exists_rest_of_bind .flag fun m => ?_
    split
    · exact .pure _
    · exact .stored (internalKey_mem_gets _ m member)
  case srem key member =>
    exact exists_rest_of_bind .flag fun m => staysIn_removeElement (r := .srem key member) rfl rfl
  case lpush key element =>
    exact exists_rest_of_bind .number fun m =>
      staysIn_pushElement (r := .lpush key element) rfl rfl m.version_marked
  case rpush key element =>
    exact exists_rest_of_bind .number fun m =>
      staysIn_pushElement (r := .rpush key element) rfl rfl m.version_marked
  case lpop key =>
    refine exists_rest_of_bind .text fun m => ?_
    split
    · exact .throw _
    · exact staysIn_popElement (r := .lpop key) rfl rfl rfl
  case rpop key =>
    refine exists_rest_of_bind .text fun m => ?_
    split
    · exact .throw _
    · exact staysIn_popElement (r := .rpop key) rfl rfl rfl
  case zadd key score member =>
    refine exists_rest_of_bind .flag fun m => ?_
    refine (StaysIn.stored (internalKey_mem_gets _ m _)).bind fun memberExists => ?_
    exact staysIn_addElement (r := .zadd key score member) rfl rfl [] !memberExists
  case zscore key member =>
    refine exists_rest_of_bind .score fun m => ?_
    split
    · exact .throw _
    · have hlooks : isEntryOf key m.version member ∈
          ((Request.zscore key member).footprint m).looksFor := ⟨member, rfl⟩
      refine .iterate hlooks (fun keys keys' hfind => ?_) fun keys => ?_
      · rw [hfind]
      · split
        · exact .pure _
        · exact .throw _

/-- The other requests stay in the plain footprint. -/
theorem Request.staysIn {r : Request} (htype : r.dataType? = none) :
    StaysIn r.plainFootprint r.operation := by
  cases r <;> simp only [Request.dataType?, reduceCtorEq] at htype
  case set key value ttl =>
    refine StaysIn.bind ?_ fun _ => .pure _
    unfold Redis.set
    split
    · exact .pure _
    · refine StaysIn.bind ?_ fun expire => .put ⟨rfl, rfl⟩ fun _ => rfl
      unfold expireAfter
      split
      · exact StaysIn.currentTimestamp.bind fun _ => .pure _
      · exact .pure _
  case get key =>
    refine StaysIn.bind ?_ fun _ => .pure _
    refine (StaysIn.get rfl).bind fun bytes => ?_
    split
    · exact .throw _
    · split
      · exact .throw _
      · refine (StaysIn.isExpired _).bind fun expired => ?_
        split
        · exact .throw _
        · exact .pure _
  case del key =>
    refine StaysIn.bind ?_ fun _ => .pure _
    have hwrites : key ∈ (Request.del key).plainFootprint.writes := ⟨rfl, rfl⟩
    exact ((StaysIn.remove hwrites).bind fun _ => .pure _).catchKeyNotFound (.pure _)
  case «exists» key => exact (StaysIn.stored rfl).bind fun _ => .pure _
  case type key =>
    refine StaysIn.bind ?_ fun _ => .pure _
    refine (StaysIn.get rfl).bind fun bytes => ?_
    split
    · exact .throw _
    · exact .pure _

/-! ## Two databases -/

/-- Databases that agree on the area of a key, whose metadata, if it is that of a
    collection, has one of the versions. -/
structure AgreeOn (key : Bytes) (versions : Set UInt64) (s t : Entries) : Prop where
  entries : ∀ x ∈ Area key versions, s[x]? = t[x]?
  versions : ∀ bytes m, s[key]? = some bytes → RedisMetadata.decode bytes = .ok m →
    m.dataType ≠ .string → m.version ∈ versions

namespace AgreeOn

variable {key : Bytes} {versions : Set UInt64} {s t : Entries}

/-- An iterator that looks for entries both databases have finds the same one. -/
theorem find?_keys_eq {p : Bytes → Bool} (h : ∀ x, p x → s[x]? = t[x]?) :
    s.keys.find? p = t.keys.find? p := by
  have hsub : s.keys.filter p = t.keys.filter p := by
    refine SortedKeys.eq_of_mem_iff (s.ordered_keys.filter p) (t.ordered_keys.filter p) fun x => ?_
    simp only [List.mem_filter, Std.TreeMap.mem_keys, Std.TreeMap.mem_iff_isSome_getElem?]
    refine and_congr_left fun hx => ?_
    rw [h x hx]
  rw [← List.head?_filter, hsub, List.head?_filter]

theorem isEntryOf_mem_area {version : UInt64} {member x : Bytes} (hversion : version ∈ versions)
    (h : isEntryOf key version member x = true) : x ∈ Area key versions := by
  simp only [isEntryOf, Bool.and_eq_true, decide_eq_true_eq, List.isPrefixOf_iff_prefix,
    beq_iff_eq] at h
  obtain ⟨⟨⟨hlength, hkey⟩, hread⟩, -⟩ := h
  obtain ⟨rest, rfl⟩ := hkey
  refine .inr ⟨version, hversion, ?_⟩
  have hread64 : key.length + 8 ≤ (key ++ rest).length := by omega
  have hversion := littleEndian64_read64 hread64
  rw [hread, List.drop_left] at hversion
  rw [hversion, List.prefix_append_right_inj]
  exact List.take_prefix 8 rest

/-- Writing the same entry to both. -/
theorem insert (h : AgreeOn key versions s t) {x value : Bytes}
    (hx : x = key → ∀ m, RedisMetadata.decode value = .ok m → m.dataType ≠ .string →
      m.version ∈ versions) :
    AgreeOn key versions (s.insert x value) (t.insert x value) := by
  constructor
  · intro y hy
    rw [Entries.getElem?_insert, Entries.getElem?_insert, h.entries y hy]
  · intro bytes m hbytes hm htype
    rw [Entries.getElem?_insert] at hbytes
    split at hbytes
    · rename_i hkey
      cases hbytes
      exact hx hkey.symm m hm htype
    · exact h.versions bytes m hbytes hm htype

theorem erase (h : AgreeOn key versions s t) (x : Bytes) :
    AgreeOn key versions (s.erase x) (t.erase x) := by
  constructor
  · intro y hy
    rw [Entries.getElem?_erase, Entries.getElem?_erase, h.entries y hy]
  · intro bytes m hbytes hm htype
    rw [Entries.getElem?_erase] at hbytes
    split at hbytes
    · cases hbytes
    · exact h.versions bytes m hbytes hm htype

end AgreeOn

/-! ## Calls on other keys -/

/-- An operation changes only entries in the footprint. -/
theorem StaysIn.getElem?_run {α : Type} {F : Footprint} {p : Operation α} (hp : StaysIn F p)
    {x : Bytes} (hx : x ∉ F.writes) (s : MapDB) :
    (Operation.run p s).2.entries[x]? = s.entries[x]? := by
  refine Program.Similar.run_inv (h := MapDB.handle)
    (I := fun t => t.entries[x]? = s.entries[x]?) ?_ hp rfl
  intro c t hc ht
  refine ⟨F.alike_refl c _, ?_⟩
  cases c with
  | get y =>
    simp only [MapDB.handle]
    split <;> exact ht
  | put y value =>
    have hne : x ≠ y := by
      rintro rfl
      exact hx hc.1
    exact (Entries.getElem?_insert _ _ _ _).trans ((if_neg hne).trans ht)
  | remove y =>
    have hne : x ≠ y := by
      rintro rfl
      exact hx hc
    exact (Entries.getElem?_erase _ _ _).trans ((if_neg hne).trans ht)
  | iterate => exact ht
  | now => exact ht

theorem Request.readOnly_of_dataType? {r : Request} {dataType : RedisDataType}
    (h : r.dataType? = some dataType) : r.readOnly = false := by
  cases r <;> first | rfl | cases h

/-- A call changes only entries that it writes. -/
theorem getElem?_serve {entries : Entries} {call : Call} {x : Bytes} (hx : ¬Writes entries call x) :
    (serve entries call).1[x]? = entries[x]? := by
  show (Operation.run call.request.operation ⟨entries, call.clock⟩).2.entries[x]? = _
  cases htype : call.request.dataType? with
  | none =>
    refine (Request.staysIn htype).getElem?_run ?_ _
    rintro ⟨hr, rfl⟩
    exact hx (.key hr)
  | some dataType =>
    have hr := Request.readOnly_of_dataType? htype
    have hkey : x ≠ call.request.key := by
      rintro rfl
      exact hx (.key hr)
    obtain ⟨rest, hoperation, hrest⟩ := Request.exists_rest htype
    obtain ⟨result, s', hfinds⟩ := exists_finds call.request.key dataType ⟨entries, call.clock⟩
    have hs' := hfinds.getElem?_entries hkey
    rw [hoperation]
    cases result with
    | error e =>
      rw [Operation.run_bind_of_error hfinds.run]
      exact hs'
    | ok m =>
      rw [Operation.run_bind_of_ok hfinds.run, (hrest m).getElem?_run _ s']
      · exact hs'
      · rintro ⟨-, h | ⟨e, he, rfl⟩⟩
        · exact hkey h
        · exact hx (.element htype hfinds he)

/-! ## Calls on the key -/

/-- The databases agree, at the same time. -/
def Agrees (key : Bytes) (versions : Set UInt64) (s t : MapDB) : Prop :=
  AgreeOn key versions s.entries t.entries ∧ s.clock = t.clock

/-- An operation whose footprint is in the area returns the same. -/
theorem StaysIn.run_agree {α : Type} {F : Footprint} {p : Operation α} (hp : StaysIn F p)
    {versions : Set UInt64} (hgets : F.gets ⊆ Area F.key versions)
    (hvalues : ∀ value ∈ F.values, ∀ m, RedisMetadata.decode value = .ok m →
      m.dataType ≠ .string → m.version ∈ versions)
    (hlooks : ∀ q ∈ F.looksFor, ∀ x, q x → x ∈ Area F.key versions) {s t : MapDB}
    (hst : Agrees F.key versions s t) :
    (Operation.run p s).1 = (Operation.run p t).1 ∧
      Agrees F.key versions (Operation.run p s).2 (Operation.run p t).2 := by
  refine Program.Similar.run ?_ hp hst
  intro c s t hc hst
  obtain ⟨hst, hclock⟩ := hst
  cases c with
  | get x =>
    have hx := hst.entries x (hgets hc)
    cases hs : s.entries[x]? with
    | none => simp [MapDB.handle, Footprint.Alike, Agrees, ← hx, hs, hst, hclock]
    | some value => simp [MapDB.handle, Footprint.Alike, Agrees, ← hx, hs, hst, hclock]
  | put x value =>
    refine ⟨rfl, hst.insert (fun hx => hvalues value (hc.2 hx)), hclock⟩
  | remove x => exact ⟨rfl, hst.erase x, hclock⟩
  | iterate => exact ⟨fun q hq => AgreeOn.find?_keys_eq fun x hx => hst.entries x (hlooks q hq x hx), hst, hclock⟩
  | now => exact ⟨congrFun hclock 0, hst, congrArg (fun clock n => clock (n + 1)) hclock⟩

/-- The same metadata is found, with one of the versions. -/
theorem Finds.agree {key : Bytes} {dataType : RedisDataType} {versions : Set UInt64}
    {s s' t : MapDB} {result : Except Exn RedisMetadata} (h : Finds key dataType s result s')
    (hst : Agrees key versions s t) (hclock : ∀ n, s.clock n ∈ versions)
    (hdataType : dataType ≠ .string) :
    ∃ t', Finds key dataType t result t' ∧ Agrees key versions s' t' ∧
      ∀ m, result = .ok m → m.version ∈ versions := by
  obtain ⟨entries, clock⟩ := s
  obtain ⟨entries', _⟩ := t
  obtain ⟨hst, rfl : clock = _⟩ := hst
  have hkey : entries[key]? = entries'[key]? := hst.entries key (.inl rfl)
  cases h with
  | absent hbytes =>
    refine ⟨_, .absent (hkey.symm.trans hbytes), ⟨hst, rfl⟩, ?_⟩
    rintro m ⟨⟩
    exact hclock 0
  | invalid hbytes hm => exact ⟨_, .invalid (hkey.symm.trans hbytes) hm, ⟨hst, rfl⟩, nofun⟩
  | wrongType hbytes hm htype =>
    exact ⟨_, .wrongType (hkey.symm.trans hbytes) hm htype, ⟨hst, rfl⟩, nofun⟩
  | lasting hbytes hm htype hexpire =>
    refine ⟨_, .lasting (hkey.symm.trans hbytes) hm htype hexpire, ⟨hst, rfl⟩, ?_⟩
    rintro _ ⟨⟩
    exact hst.versions _ _ hbytes hm (htype ▸ hdataType)
  | current hbytes hm htype hcurrent =>
    refine ⟨_, .current (hkey.symm.trans hbytes) hm htype hcurrent, ⟨hst, rfl⟩, ?_⟩
    rintro _ ⟨⟩
    exact hst.versions _ _ hbytes hm (htype ▸ hdataType)
  | expired hbytes hm htype hexpire hexpired =>
    refine ⟨_, .expired (hkey.symm.trans hbytes) hm htype hexpire hexpired,
      ⟨hst.erase key, rfl⟩, ?_⟩
    rintro m ⟨⟩
    exact hclock 1

theorem Request.dataType?_ne_string {r : Request} {dataType : RedisDataType}
    (h : r.dataType? = some dataType) : dataType ≠ .string := by
  cases r <;> cases h <;> decide

/-- A call on the key returns the same over databases that agree on its area, and
    leaves them so. -/
theorem AgreeOn.serve {versions : Set UInt64} {s t : Entries} {call : Call}
    (h : AgreeOn call.request.key versions s t) (hclock : ∀ n, call.clock n ∈ versions) :
    (serve s call).2 = (serve t call).2 ∧
      AgreeOn call.request.key versions (Redis.serve s call).1 (Redis.serve t call).1 := by
  have hst : Agrees call.request.key versions ⟨s, call.clock⟩ ⟨t, call.clock⟩ := ⟨h, rfl⟩
  suffices hrun : (Operation.run call.request.operation ⟨s, call.clock⟩).1 =
      (Operation.run call.request.operation ⟨t, call.clock⟩).1 ∧
      Agrees call.request.key versions (Operation.run call.request.operation ⟨s, call.clock⟩).2
        (Operation.run call.request.operation ⟨t, call.clock⟩).2 from
    ⟨congrArg (fun result => [result]) hrun.1, hrun.2.1⟩
  cases htype : call.request.dataType? with
  | none =>
    refine (Request.staysIn htype).run_agree ?_ ?_ nofun hst
    · rintro x rfl
      exact .inl rfl
    · -- what is stored is a string
      intro value hvalue m hm hstring
      refine absurd ?_ hstring
      rw [RedisMetadata.dataType_of_decode hm, hvalue]
  | some dataType =>
    obtain ⟨rest, hoperation, hrest⟩ := Request.exists_rest htype
    obtain ⟨result, s', hs'⟩ := exists_finds call.request.key dataType ⟨s, call.clock⟩
    obtain ⟨t', ht', hst', hversion⟩ :=
      hs'.agree hst hclock (Request.dataType?_ne_string htype)
    rw [hoperation]
    cases result with
    | error e =>
      rw [Operation.run_bind_of_error hs'.run, Operation.run_bind_of_error ht'.run]
      exact ⟨rfl, hst'⟩
    | ok m =>
      have hversion := hversion m rfl
      rw [Operation.run_bind_of_ok hs'.run, Operation.run_bind_of_ok ht'.run]
      refine (hrest m).run_agree ?_ ?_ ?_ hst'
      · rintro x ⟨e, rfl⟩
        exact .inr ⟨m.version, hversion, List.prefix_append _ _⟩
      · rintro value ⟨m', rfl, hm'⟩ m'' hm'' -
        rw [RedisMetadata.decode_encode] at hm''
        obtain rfl := Except.ok.inj hm''
        rwa [RedisMetadata.version_stored, hm']
      · rintro q ⟨member, rfl⟩ x hx
        exact AgreeOn.isEntryOf_mem_area hversion hx

/-! ## Runs -/

/-- The versions that the collection of a key can have: that of its metadata, and
    the readings of the clock during the calls on it. -/
def versionsOf (key : Bytes) (entries : Entries) (calls : List Call) : Set UInt64 :=
  {v | (∃ bytes m, entries[key]? = some bytes ∧ RedisMetadata.decode bytes = .ok m ∧
      m.dataType ≠ .string ∧ m.version = v) ∨
    ∃ call ∈ calls, call.request.key = key ∧ ∃ n, call.clock n = v}

/-- What the calls on a key return, among all calls. -/
def resultsOf (key : Bytes) : Entries → List Call → List (Except Exn Reply)
  | _, [] => []
  | entries, call :: calls =>
    let (entries', result) := serve entries call
    (if call.request.key = key then result else []) ++ resultsOf key entries' calls

/-- No call on another key writes an entry in the area of the key. -/
def Undisturbed (key : Bytes) (versions : Set UInt64) (entries : Entries) (calls : List Call) :
    Prop :=
  Machine.AllSteps serve (fun entries call => call.request.key ≠ key →
    ∀ x, Writes entries call x → x ∉ Area key versions) entries calls

/-- A call that writes nothing in the area of a key changes nothing for it. -/
theorem AgreeOn.of_not_writes {key : Bytes} {versions : Set UInt64} {s t : Entries} {call : Call}
    (h : AgreeOn key versions s t) (hwrites : ∀ x, Writes s call x → x ∉ Area key versions) :
    AgreeOn key versions (Redis.serve s call).1 t := by
  have hsame (x : Bytes) (hx : x ∈ Area key versions) : (Redis.serve s call).1[x]? = s[x]? :=
    getElem?_serve fun hcall => hwrites x hcall hx
  constructor
  · intro x hx
    rw [hsame x hx, h.entries x hx]
  · intro bytes m hbytes
    rw [hsame key (.inl rfl)] at hbytes
    exact h.versions bytes m hbytes

/-- The calls on a key return what they return without the calls on other keys. -/
theorem resultsOf_filter {key : Bytes} {versions : Set UInt64} {s t : Entries} {calls : List Call}
    (hst : AgreeOn key versions s t)
    (hclock : ∀ call ∈ calls, call.request.key = key → ∀ n, call.clock n ∈ versions)
    (hundisturbed : Undisturbed key versions s calls) :
    resultsOf key s calls = resultsOf key t (calls.filter (·.request.key = key)) := by
  induction calls generalizing s t with
  | nil => rfl
  | cons call calls ih =>
    obtain ⟨hcall, hundisturbed⟩ := hundisturbed
    have hclock' := fun c hc => hclock c (List.mem_cons_of_mem call hc)
    by_cases hkey : call.request.key = key
    · subst hkey
      obtain ⟨hresult, hst'⟩ := hst.serve (hclock call List.mem_cons_self rfl)
      rw [List.filter_cons_of_pos (by simp)]
      simp only [resultsOf]
      rw [hresult, ih hst' hclock' hundisturbed]
    · rw [List.filter_cons_of_neg (by simpa using hkey)]
      simp only [resultsOf, if_neg hkey, List.nil_append]
      exact ih (hst.of_not_writes (hcall hkey)) hclock' hundisturbed

/-- A database agrees with itself. -/
theorem AgreeOn.refl (key : Bytes) (entries : Entries) (calls : List Call) :
    AgreeOn key (versionsOf key entries calls) entries entries :=
  ⟨fun _ _ => rfl, fun bytes m hbytes hm htype => .inl ⟨bytes, m, hbytes, hm, htype, rfl⟩⟩

/-- The calls `calls'` are `calls`, with calls on other keys inserted. -/
inductive Inserted (key : Bytes) : List Call → List Call → Prop
  | nil : Inserted key [] []
  | cons (call : Call) {calls calls' : List Call} : Inserted key calls calls' →
      Inserted key (call :: calls) (call :: calls')
  | insert {call : Call} {calls calls' : List Call} : call.request.key ≠ key →
      Inserted key calls calls' → Inserted key calls (call :: calls')

theorem Inserted.filter_eq {key : Bytes} {calls calls' : List Call}
    (h : Inserted key calls calls') :
    calls.filter (·.request.key = key) = calls'.filter (·.request.key = key) := by
  induction h with
  | nil => rfl
  | cons call _ ih =>
    rw [List.filter_cons, List.filter_cons, ih]
  | insert hne _ ih =>
    rw [List.filter_cons_of_neg (by simpa using hne), ih]

theorem Writes.isPrefix {entries : Entries} {call : Call} {x : Bytes}
    (h : Writes entries call x) : call.request.key <+: x := by
  cases h with
  | key => exact List.prefix_refl _
  | element =>
    rw [internalKey, List.append_assoc]
    exact List.prefix_append _ _

/-- Keys of which none starts with another share no entry. -/
theorem undisturbed_of_incomparable {key : Bytes} {versions : Set UInt64} {entries : Entries}
    {calls : List Call} (h : ∀ call ∈ calls, call.request.key ≠ key →
      ¬call.request.key <+: key ∧ ¬key <+: call.request.key) :
    Undisturbed key versions entries calls := by
  induction calls generalizing entries with
  | nil => trivial
  | cons call calls ih =>
    refine ⟨fun hne x hx hmem => ?_, ih fun c hc => h c (List.mem_cons_of_mem call hc)⟩
    have hkey : key <+: x := by
      rcases hmem with rfl | ⟨v, -, hv⟩
      · exact List.prefix_refl _
      · exact (List.prefix_append _ _).trans hv
    obtain ⟨hcall, hkey'⟩ := h call List.mem_cons_self hne
    rcases List.prefix_or_prefix_of_prefix hx.isPrefix hkey with hle | hle
    · exact hcall hle
    · exact hkey' hle

/-- Calls on other keys that write nothing in the area of a key do not change what
    the calls on it return. -/
theorem resultsOf_insert {key : Bytes} {entries : Entries} {calls calls' : List Call}
    (hinserted : Inserted key calls calls')
    (h : Undisturbed key (versionsOf key entries calls) entries calls)
    (h' : Undisturbed key (versionsOf key entries calls') entries calls') :
    resultsOf key entries calls = resultsOf key entries calls' := by
  have hresults := resultsOf_filter (.refl key entries calls)
    (fun call hcall hkey n => .inr ⟨call, hcall, hkey, n, rfl⟩) h
  have hresults' := resultsOf_filter (.refl key entries calls')
    (fun call hcall hkey n => .inr ⟨call, hcall, hkey, n, rfl⟩) h'
  rw [hresults, hresults', hinserted.filter_eq]

/-- Two hashes with the same field. -/
theorem resultsOf_insert_hset :
    resultsOf [97] ∅ [⟨.hset [97] [102] [49], fun n => .ofNat n⟩, ⟨.hget [97] [102], fun n => .ofNat n⟩] =
      resultsOf [97] ∅ [⟨.hset [97] [102] [49], fun n => .ofNat n⟩,
        ⟨.hset [98] [102] [50], fun n => .ofNat n⟩, ⟨.hget [97] [102], fun n => .ofNat n⟩] :=
  resultsOf_insert (.cons _ (.insert (by decide) (.cons _ .nil)))
    (undisturbed_of_incomparable (by decide)) (undisturbed_of_incomparable (by decide))

/-- A string stored under the internal key of a field is what the field is read as. -/
theorem not_forall_resultsOf_eq : ¬∀ (key : Bytes) (entries : Entries) (calls calls' : List Call),
    Inserted key calls calls' → resultsOf key entries calls = resultsOf key entries calls' := by
  intro h
  let clock : Clock := fun n => 5 + .ofNat n
  let hset : Call := ⟨.hset [97] [102] [49], clock⟩
  let hget : Call := ⟨.hget [97] [102], clock⟩
  let set : Call := ⟨.set (internalKey [97] 5 [102]) [50] 0, clock⟩
  have hinserted : Inserted [97] [hset, hget] [hset, set, hget] :=
    .cons hset (.insert (by decide) (.cons hget .nil))
  have := h [97] ∅ [hset, hget] [hset, set, hget] hinserted
  revert this
  decide

end Bitcask.Redis
