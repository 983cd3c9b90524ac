import Std.Data.TreeMap.Lemmas
import Mathlib.Tactic.Common
import Bitcask.Library.Machine
import Bitcask.Redis.DataStructure

/-!
# A database that is a map

The Redis layer over a database that behaves as a map from byte strings to byte
strings (`MapDB`): every request succeeds, and removing a key that is not there
changes nothing, as in the store. The calls of the clients (`Call`) are served
one after the other (`serve`), each with the readings of the clock during it.
-/

namespace Bitcask.Redis

/-! ## The map -/

/-- The entries of a database. -/
abbrev Entries := Std.TreeMap Bytes Bytes

@[simp]
theorem Entries.getElem?_insert (m : Entries) (k k' v : Bytes) :
    (m.insert k v)[k']? = if k' = k then some v else m[k']? := by
  rw [Std.TreeMap.getElem?_insert]
  exact if_congr (Std.LawfulEqCmp.compare_eq_iff_eq.trans eq_comm) rfl rfl

@[simp]
theorem Entries.getElem?_erase (m : Entries) (k k' : Bytes) :
    (m.erase k)[k']? = if k' = k then none else m[k']? := by
  rw [Std.TreeMap.getElem?_erase]
  exact if_congr (Std.LawfulEqCmp.compare_eq_iff_eq.trans eq_comm) rfl rfl

/-- The readings of the clock still to come. -/
abbrev Clock := ℕ → UInt64

/-- A database that is a map, and the clock of the client it serves. -/
structure MapDB where
  entries : Entries
  clock : Clock

/-- The clock has been read. -/
def MapDB.tick (s : MapDB) : MapDB := { s with clock := fun n => s.clock (n + 1) }

def MapDB.insert (s : MapDB) (key value : Bytes) : MapDB :=
  { s with entries := s.entries.insert key value }

def MapDB.erase (s : MapDB) (key : Bytes) : MapDB := { s with entries := s.entries.erase key }

/-- The reply of a map, and the map after it. -/
def MapDB.handle (c : Command) (s : MapDB) : c.Reply × MapDB :=
  match c with
  | .get key =>
    match s.entries[key]? with
    | some value => (.ok value, s)
    | none => (.error .keyNotFound, s)
  | .put key value => (.ok (), s.insert key value)
  | .remove key => (.ok (), s.erase key)
  | .iterate => (s.entries.keys, s)
  | .now => (s.clock 0, s.tick)

/-- The result of an operation, and the map after it. -/
def Operation.run {α : Type} (p : Operation α) (s : MapDB) : Except Exn α × MapDB :=
  Program.run MapDB.handle p s

section Run

variable {α β : Type} {p : Operation α} {f : α → Operation β} {s s' : MapDB} {key value : Bytes}

theorem Operation.run_bind_of_ok {a : α} (hp : Operation.run p s = (.ok a, s')) :
    Operation.run (p >>= f) s = Operation.run (f a) s' :=
  Program.run_bind_of_ok hp

theorem Operation.run_bind_of_error {e : Exn} (hp : Operation.run p s = (.error e, s')) :
    Operation.run (p >>= f) s = (.error e, s') :=
  Program.run_bind_of_error hp

theorem MapDB.handle_get_of_some (h : s.entries[key]? = some value) :
    MapDB.handle (.get key) s = (.ok value, s) := by
  simp [MapDB.handle, h]

theorem MapDB.handle_get_of_none (h : s.entries[key]? = none) :
    MapDB.handle (.get key) s = (.error .keyNotFound, s) := by
  simp [MapDB.handle, h]

theorem run_get_of_some (h : s.entries[key]? = some value) :
    Operation.run (DB.get key) s = (.ok value, s) := by
  show Program.run _ (ofReply (MapDB.handle (.get key) s).1) (MapDB.handle (.get key) s).2 = _
  rw [MapDB.handle_get_of_some h]
  rfl

theorem run_get_of_none (h : s.entries[key]? = none) :
    Operation.run (DB.get key) s = (.error .keyNotFound, s) := by
  show Program.run _ (ofReply (MapDB.handle (.get key) s).1) (MapDB.handle (.get key) s).2 = _
  rw [MapDB.handle_get_of_none h]
  rfl

theorem run_put (key value : Bytes) (s : MapDB) :
    Operation.run (DB.put key value) s = (.ok (), s.insert key value) :=
  rfl

theorem run_remove (key : Bytes) (s : MapDB) :
    Operation.run (DB.remove key) s = (.ok (), s.erase key) :=
  rfl

theorem run_stored (x : Bytes) (s : MapDB) :
    Operation.run (stored x) s = (.ok (s.entries[x]?).isSome, s) := by
  show Program.run _ (catchKeyNotFound (ofReply (MapDB.handle (.get x) s).1 >>= fun _ => _) _)
    (MapDB.handle (.get x) s).2 = _
  cases hx : s.entries[x]? with
  | some value =>
    rw [MapDB.handle_get_of_some hx]
    rfl
  | none =>
    rw [MapDB.handle_get_of_none hx]
    rfl

end Run

/-! ## Metadata of a map -/

/-- The metadata found under a key, or the exception thrown, and the map after it. -/
inductive Finds (key : Bytes) (dataType : RedisDataType) (s : MapDB) :
    Except Exn RedisMetadata → MapDB → Prop
  | absent : s.entries[key]? = none →
      Finds key dataType s (.ok (.create dataType (s.clock 0))) s.tick
  | invalid {bytes : Bytes} {e : Exn} : s.entries[key]? = some bytes →
      RedisMetadata.decode bytes = .error e → Finds key dataType s (.error e) s
  | wrongType {bytes : Bytes} {m : RedisMetadata} : s.entries[key]? = some bytes →
      RedisMetadata.decode bytes = .ok m → m.dataType ≠ dataType →
      Finds key dataType s (.error (.bitcask "Wrong type operation")) s
  | lasting {bytes : Bytes} {m : RedisMetadata} : s.entries[key]? = some bytes →
      RedisMetadata.decode bytes = .ok m → m.dataType = dataType → m.expire = 0 →
      Finds key dataType s (.ok m) s
  | current {bytes : Bytes} {m : RedisMetadata} : s.entries[key]? = some bytes →
      RedisMetadata.decode bytes = .ok m → m.dataType = dataType → s.clock 0 < m.expire →
      Finds key dataType s (.ok m) s.tick
  | expired {bytes : Bytes} {m : RedisMetadata} : s.entries[key]? = some bytes →
      RedisMetadata.decode bytes = .ok m → m.dataType = dataType → 0 < m.expire →
      m.expire ≤ s.clock 0 →
      Finds key dataType s (.ok (.create dataType (s.clock 1))) (s.tick.erase key).tick

theorem Finds.run {key : Bytes} {dataType : RedisDataType} {s s' : MapDB}
    {result : Except Exn RedisMetadata} (h : Finds key dataType s result s') :
    Operation.run (findMetadata key dataType) s = (result, s') := by
  rw [findMetadata_eq]
  show Program.run _ (onReply key dataType (MapDB.handle (.get key) s).1)
    (MapDB.handle (.get key) s).2 = _
  cases h with
  | absent hbytes =>
    rw [MapDB.handle_get_of_none hbytes]
    rfl
  | invalid hbytes hm =>
    rw [MapDB.handle_get_of_some hbytes, onReply_invalid hm]
    rfl
  | wrongType hbytes hm htype =>
    rw [MapDB.handle_get_of_some hbytes, onReply_wrongType hm htype]
    rfl
  | lasting hbytes hm htype hexpire =>
    rw [MapDB.handle_get_of_some hbytes, onReply_lasting hm htype hexpire]
    rfl
  | current hbytes hm htype hclock =>
    have hexpire := UInt64.lt_of_le_of_lt UInt64.zero_le hclock
    rw [MapDB.handle_get_of_some hbytes, onReply_expiring hm htype hexpire]
    show Program.run _ (if _ ≤ s.clock 0 then _ else _) s.tick = _
    rw [if_neg (UInt64.not_le.2 hclock)]
    rfl
  | expired hbytes hm htype hexpire hclock =>
    rw [MapDB.handle_get_of_some hbytes, onReply_expiring hm htype hexpire]
    show Program.run _ (if _ ≤ s.clock 0 then _ else _) s.tick = _
    rw [if_pos hclock]
    rfl

theorem exists_finds (key : Bytes) (dataType : RedisDataType) (s : MapDB) :
    ∃ result s', Finds key dataType s result s' := by
  cases hbytes : s.entries[key]? with
  | none => exact ⟨_, _, .absent hbytes⟩
  | some bytes =>
    cases hm : RedisMetadata.decode bytes with
    | error e => exact ⟨_, _, .invalid hbytes hm⟩
    | ok m =>
      by_cases htype : m.dataType = dataType
      · rcases eq_or_ne m.expire 0 with hexpire | hexpire
        · exact ⟨_, _, .lasting hbytes hm htype hexpire⟩
        · rcases UInt64.lt_or_le (s.clock 0) m.expire with hclock | hclock
          · exact ⟨_, _, .current hbytes hm htype hclock⟩
          · exact ⟨_, _, .expired hbytes hm htype (UInt64.pos_iff_ne_zero.2 hexpire) hclock⟩
      · exact ⟨_, _, .wrongType hbytes hm htype⟩

/-- Finding metadata changes at most the entry of the key. -/
theorem Finds.getElem?_entries {key : Bytes} {dataType : RedisDataType} {s s' : MapDB}
    {result : Except Exn RedisMetadata} (h : Finds key dataType s result s') {x : Bytes}
    (hx : x ≠ key) : s'.entries[x]? = s.entries[x]? := by
  cases h with
  | expired => exact (Entries.getElem?_erase _ _ _).trans (if_neg hx)
  | _ => rfl

/-- There is no entry of an element with a version. -/
def Unused (entries : Entries) (key : Bytes) (version : UInt64) : Prop :=
  ∀ element, entries[internalKey key version element]? = none

/-! ## Calls -/

/-- The operations offered to the clients. -/
inductive Request
  | set (key value : Bytes) (ttl : Int64)
  | get (key : Bytes)
  | hset (key field value : Bytes)
  | hget (key field : Bytes)
  | hdel (key field : Bytes)
  | sadd (key member : Bytes)
  | sismember (key member : Bytes)
  | srem (key member : Bytes)
  | lpush (key element : Bytes)
  | rpush (key element : Bytes)
  | lpop (key : Bytes)
  | rpop (key : Bytes)
  | zadd (key : Bytes) (score : UInt64) (member : Bytes)
  | zscore (key member : Bytes)
  | del (key : Bytes)
  | exists (key : Bytes)
  | type (key : Bytes)
deriving DecidableEq, Repr

/-- What an operation returns. -/
inductive Reply
  | nothing
  | flag (b : Bool)
  | number (n : UInt32)
  | text (bytes : Bytes)
  | score (bits : UInt64)
  | type (dataType : RedisDataType)
deriving DecidableEq, Repr

namespace Request

def key : Request → Bytes
  | set key _ _ | get key | hset key _ _ | hget key _ | hdel key _ | sadd key _
  | sismember key _ | srem key _ | lpush key _ | rpush key _ | lpop key | rpop key
  | zadd key _ _ | zscore key _ | del key | «exists» key | type key => key

/-- The type of the collections a request works on. -/
def dataType? : Request → Option RedisDataType
  | hset .. | hget .. | hdel .. => some .hash
  | sadd .. | sismember .. | srem .. => some .set
  | lpush .. | rpush .. | lpop .. | rpop .. => some .list
  | zadd .. | zscore .. => some .zset
  | _ => none

def operation : Request → Operation Reply
  | set key value ttl => do Redis.set key value ttl; return .nothing
  | get key => return .text (← Redis.get key)
  | hset key field value => return .flag (← Redis.hset key field value)
  | hget key field => return .text (← Redis.hget key field)
  | hdel key field => return .flag (← Redis.hdel key field)
  | sadd key member => return .flag (← Redis.sadd key member)
  | sismember key member => return .flag (← Redis.sismember key member)
  | srem key member => return .flag (← Redis.srem key member)
  | lpush key element => return .number (← Redis.lpush key element)
  | rpush key element => return .number (← Redis.rpush key element)
  | lpop key => return .text (← Redis.lpop key)
  | rpop key => return .text (← Redis.rpop key)
  | zadd key score member => return .flag (← Redis.zadd key score member)
  | zscore key member => return .score (← Redis.zscore key member)
  | del key => return .flag (← Redis.del key)
  | «exists» key => return .flag (← Redis.exists key)
  | type key => return .type (← Redis.type key)

end Request

/-- A request, and the readings of the clock while it is served. -/
structure Call where
  request : Request
  clock : Clock

/-- Serves a call: the entries after it, and what it returned or threw. -/
def serve (entries : Entries) (call : Call) : Entries × List (Except Exn Reply) :=
  let (result, s) := Operation.run call.request.operation ⟨entries, call.clock⟩
  (s.entries, [result])

theorem serve_of_run {entries : Entries} {r : Request} {clock : Clock}
    {result : Except Exn Reply} {s : MapDB}
    (h : Operation.run r.operation ⟨entries, clock⟩ = (result, s)) :
    serve entries ⟨r, clock⟩ = (s.entries, [result]) := by
  rw [serve, h]

theorem serve_snd (entries : Entries) (call : Call) : (serve entries call).2 =
    [(Operation.run call.request.operation ⟨entries, call.clock⟩).1] := rfl

/-- What is returned is the reply. -/
theorem run_reply_fst {α : Type} (p : Operation α) (f : α → Reply) (s : MapDB) :
    (Operation.run (p >>= fun a => pure (f a)) s).1 = (Operation.run p s).1.map f := by
  rcases hrun : Operation.run p s with ⟨_ | a, t⟩
  · rw [Operation.run_bind_of_error hrun]
    rfl
  · rw [Operation.run_bind_of_ok hrun]
    rfl

end Bitcask.Redis
