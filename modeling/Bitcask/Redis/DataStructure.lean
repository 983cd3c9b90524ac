import Mathlib.Data.UInt
import Bitcask.Library.Program
import Bitcask.Redis.Metadata

/-!
# The Redis data structures

The operations of the Redis layer, as programs that make requests to a database
and read the clock (`Redis.Command`): what the database does with the requests,
in which order those of several clients get there and whether they succeed is
left to what runs them.
-/

namespace Bitcask.Redis

/-! ## Requests -/

/-- A request to the database, the keys an iterator over it goes through, or a
    reading of the clock, in nanoseconds. -/
inductive Command
  | get (key : Bytes)
  | put (key value : Bytes)
  | remove (key : Bytes)
  | iterate
  | now
deriving DecidableEq, Repr

/-- What the database replies: an exception is thrown by the operation. -/
@[reducible]
def Command.Reply : Command → Type
  | get _ => Except Exn Bytes
  | put _ _ => Except Exn Unit
  | remove _ => Except Exn Unit
  | iterate => List Bytes
  | now => UInt64

/-- A program over the database. -/
abbrev Operation := Program Command Command.Reply Exn

/-- A reply, whose exception is thrown. -/
def ofReply {α : Type} : Except Exn α → Operation α
  | .ok a => pure a
  | .error e => throw e

def DB.get (key : Bytes) : Operation Bytes := .perform (Command.get key) >>= ofReply

def DB.put (key value : Bytes) : Operation Unit := .perform (Command.put key value) >>= ofReply

def DB.remove (key : Bytes) : Operation Unit := .perform (Command.remove key) >>= ofReply

def DB.iterate : Operation (List Bytes) := .perform Command.iterate

def currentTimestamp : Operation UInt64 := .perform Command.now

/-- `catch (const KeyNotFoundError&)`. -/
def catchKeyNotFound {α : Type} (body handler : Operation α) : Operation α :=
  tryCatch body fun e => if e = .keyNotFound then handler else throw e

/-! ## Metadata -/

/-- `INITIAL_LIST_MARK`: half of the largest number of 64 bits. -/
def initialListMark : UInt64 := 0xFFFFFFFFFFFFFFFF / 2

def isExpired (expireTime : UInt64) : Operation Bool :=
  if expireTime > 0 then do
    let now ← currentTimestamp
    return decide (expireTime ≤ now)
  else
    return false

/-- The metadata of a collection without elements. -/
def RedisMetadata.create (dataType : RedisDataType) (version : UInt64) : RedisMetadata where
  dataType := dataType
  version := version
  head := if dataType = .list then initialListMark else 0
  tail := if dataType = .list then initialListMark else 0

/-- The metadata of a new collection, whose version is the time. -/
def newMetadata (dataType : RedisDataType) : Operation RedisMetadata := do
  let version ← currentTimestamp
  return .create dataType version

/-- Reads stored metadata; if it has expired, a new collection takes its place. -/
def checkMetadata (key : Bytes) (dataType : RedisDataType) (metadataBytes : Bytes) :
    Operation RedisMetadata := do
  let metadata ← ofReply (RedisMetadata.decode metadataBytes)
  if metadata.dataType ≠ dataType then
    throw (.bitcask "Wrong type operation")
  else if ← isExpired metadata.expire then
    DB.remove key
    newMetadata dataType
  else
    return metadata

/-- The metadata stored under a key, or that of a new collection. -/
def findMetadata (key : Bytes) (dataType : RedisDataType) : Operation RedisMetadata :=
  catchKeyNotFound (do checkMetadata key dataType (← DB.get key)) (newMetadata dataType)

/-! What `findMetadata` does on each reply to its first request. -/

def onReply (key : Bytes) (dataType : RedisDataType) (reply : Except Exn Bytes) :
    Operation RedisMetadata :=
  catchKeyNotFound (do checkMetadata key dataType (← ofReply reply)) (newMetadata dataType)

/-- The collection is removed, and a new one made. -/
def renewMetadata (key : Bytes) (dataType : RedisDataType) : Operation RedisMetadata :=
  catchKeyNotFound (do DB.remove key; newMetadata dataType) (newMetadata dataType)

theorem findMetadata_eq (key : Bytes) (dataType : RedisDataType) :
    findMetadata key dataType = .request (.get key) (onReply key dataType) :=
  rfl

section OnReply

variable {key bytes : Bytes} {dataType : RedisDataType} {m : RedisMetadata}

theorem onReply_absent : onReply key dataType (.error .keyNotFound) = newMetadata dataType := rfl

theorem RedisMetadata.ne_keyNotFound_of_decode {data : Bytes} {e : Exn}
    (h : decode data = .error e) : e ≠ .keyNotFound := by
  unfold decode at h
  split at h
  · cases h
    simp
  · cases h

theorem onReply_invalid {e : Exn} (hm : RedisMetadata.decode bytes = .error e) :
    onReply key dataType (.ok bytes) = throw e := by
  have he := RedisMetadata.ne_keyNotFound_of_decode hm
  show catchKeyNotFound (checkMetadata key dataType bytes) _ = _
  rw [checkMetadata, hm]
  exact if_neg he

theorem onReply_wrongType (hm : RedisMetadata.decode bytes = .ok m) (htype : m.dataType ≠ dataType) :
    onReply key dataType (.ok bytes) = throw (.bitcask "Wrong type operation") := by
  show catchKeyNotFound (checkMetadata key dataType bytes) _ = _
  rw [checkMetadata, hm]
  show catchKeyNotFound (ite _ _ _) _ = _
  rw [if_pos htype]
  rfl

theorem onReply_lasting (hm : RedisMetadata.decode bytes = .ok m) (htype : m.dataType = dataType)
    (hexpire : m.expire = 0) : onReply key dataType (.ok bytes) = pure m := by
  show catchKeyNotFound (checkMetadata key dataType bytes) _ = _
  rw [checkMetadata, hm]
  show catchKeyNotFound (ite _ _ _) _ = _
  rw [if_neg (not_not.2 htype), hexpire]
  rfl

/-- The clock is read for metadata with an expiry only. -/
theorem onReply_expiring (hm : RedisMetadata.decode bytes = .ok m) (htype : m.dataType = dataType)
    (hexpire : 0 < m.expire) : onReply key dataType (.ok bytes) =
      .request .now fun now =>
        if m.expire ≤ now then renewMetadata key dataType else pure m := by
  show catchKeyNotFound (checkMetadata key dataType bytes) _ = _
  rw [checkMetadata, hm]
  show catchKeyNotFound (ite _ _ _) _ = _
  rw [if_neg (not_not.2 htype), isExpired, if_pos hexpire]
  refine congrArg (Program.request Command.now) ?_
  funext now
  show catchKeyNotFound (ite (decide (m.expire ≤ now) = true) _ _) _ = _
  by_cases hnow : m.expire ≤ now
  · rw [if_pos hnow, if_pos (decide_eq_true hnow)]
    rfl
  · rw [if_neg hnow, if_neg (by simpa using hnow)]
    rfl

end OnReply

/-- Stores the metadata of a collection, or removes the key of an empty one. -/
def putOrRemove (key : Bytes) (metadata : RedisMetadata) : Operation Unit :=
  if metadata.size = 0 then DB.remove key else DB.put key metadata.encode

/-- Whether there is an entry under a key. -/
def stored (key : Bytes) : Operation Bool :=
  catchKeyNotFound (do let _ ← DB.get key; return true) (return false)

/-! ## Strings -/

/-- The value stored for a string: its type, its expiry and the string. -/
def encodeString (expire : UInt64) (value : Bytes) : Bytes :=
  RedisDataType.string.toByte :: littleEndian64 expire ++ value

/-- The expiry, in nanoseconds, of a time to live, in milliseconds. -/
def expireAfter (ttl : Int64) : Operation UInt64 :=
  if ttl > 0 then do
    let now ← currentTimestamp
    return now + ttl.toUInt64 * 1000000
  else
    return 0

def set (key value : Bytes) (ttl : Int64) : Operation Unit :=
  if value = [] then
    return ()
  else do
    let expire ← expireAfter ttl
    DB.put key (encodeString expire value)

def get (key : Bytes) : Operation Bytes := do
  let encodedValue ← DB.get key
  if encodedValue.length < 9 then
    throw .keyNotFound
  else if RedisDataType.mk (encodedValue.getD 0 0) ≠ .string then
    throw (.bitcask "Wrong type operation")
  else if ← isExpired (read64 encodedValue 1) then
    throw .keyNotFound
  else
    return encodedValue.drop 9

/-! ## Hashes -/

def hset (key field value : Bytes) : Operation Bool := do
  let metadata ← findMetadata key .hash
  let internalKeyBytes := HashInternalKey.encode ⟨key, metadata.version, field⟩
  let fieldExists ← stored internalKeyBytes
  DB.put internalKeyBytes value
  if !fieldExists then
    DB.put key { metadata with size := metadata.size + 1 }.encode
  return !fieldExists

def hget (key field : Bytes) : Operation Bytes := do
  let metadata ← findMetadata key .hash
  if metadata.size = 0 then
    throw .keyNotFound
  else
    DB.get (HashInternalKey.encode ⟨key, metadata.version, field⟩)

/-- Removes the entry of an element, and counts it off the metadata. -/
def removeElement (key internalKeyBytes : Bytes) (metadata : RedisMetadata) : Operation Bool :=
  if metadata.size = 0 then
    return false
  else
    catchKeyNotFound
      (do
        DB.remove internalKeyBytes
        putOrRemove key { metadata with size := metadata.size - 1 }
        return true)
      (return false)

def hdel (key field : Bytes) : Operation Bool := do
  let metadata ← findMetadata key .hash
  removeElement key (HashInternalKey.encode ⟨key, metadata.version, field⟩) metadata

/-! ## Sets -/

def sadd (key member : Bytes) : Operation Bool := do
  let metadata ← findMetadata key .set
  let internalKeyBytes := SetInternalKey.encode ⟨key, metadata.version, member⟩
  if ← stored internalKeyBytes then
    return false
  else
    DB.put internalKeyBytes []
    DB.put key { metadata with size := metadata.size + 1 }.encode
    return true

def sismember (key member : Bytes) : Operation Bool := do
  let metadata ← findMetadata key .set
  if metadata.size = 0 then
    return false
  else
    stored (SetInternalKey.encode ⟨key, metadata.version, member⟩)

def srem (key member : Bytes) : Operation Bool := do
  let metadata ← findMetadata key .set
  removeElement key (SetInternalKey.encode ⟨key, metadata.version, member⟩) metadata

/-! ## Lists -/

/-- The metadata a push starts from: an empty list starts at the middle mark. -/
def RedisMetadata.marked (m : RedisMetadata) : RedisMetadata :=
  if m.size = 0 then { m with head := initialListMark, tail := initialListMark } else m

@[simp]
theorem RedisMetadata.version_marked (m : RedisMetadata) : m.marked.version = m.version := by
  unfold marked
  split <;> rfl

@[simp]
theorem RedisMetadata.dataType_marked (m : RedisMetadata) : m.marked.dataType = m.dataType := by
  unfold marked
  split <;> rfl

@[simp]
theorem RedisMetadata.size_marked (m : RedisMetadata) : m.marked.size = m.size := by
  unfold marked
  split <;> rfl

def RedisMetadata.pushFront (m : RedisMetadata) : RedisMetadata :=
  { m with head := m.head - 1, size := m.size + 1 }

def RedisMetadata.pushBack (m : RedisMetadata) : RedisMetadata :=
  { m with tail := m.tail + 1, size := m.size + 1 }

def RedisMetadata.popFront (m : RedisMetadata) : RedisMetadata :=
  { m with head := m.head + 1, size := m.size - 1 }

def RedisMetadata.popBack (m : RedisMetadata) : RedisMetadata :=
  { m with tail := m.tail - 1, size := m.size - 1 }

/-- Stores an element at an index, then the metadata with it; returns the size. -/
def pushElement (key element : Bytes) (index : UInt64) (metadata : RedisMetadata) :
    Operation UInt32 := do
  DB.put (ListInternalKey.encode ⟨key, metadata.version, index⟩) element
  DB.put key metadata.encode
  return metadata.size

/-- Reads and removes the element at an index, then stores the metadata without it. -/
def popElement (key : Bytes) (index : UInt64) (metadata : RedisMetadata) : Operation Bytes := do
  let internalKeyBytes := ListInternalKey.encode ⟨key, metadata.version, index⟩
  let result ← DB.get internalKeyBytes
  DB.remove internalKeyBytes
  putOrRemove key metadata
  return result

def lpush (key element : Bytes) : Operation UInt32 := do
  let metadata ← findMetadata key .list
  pushElement key element (metadata.marked.head - 1) metadata.marked.pushFront

def rpush (key element : Bytes) : Operation UInt32 := do
  let metadata ← findMetadata key .list
  pushElement key element metadata.marked.tail metadata.marked.pushBack

def lpop (key : Bytes) : Operation Bytes := do
  let metadata ← findMetadata key .list
  if metadata.size = 0 then
    throw .keyNotFound
  else
    popElement key metadata.head metadata.popFront

def rpop (key : Bytes) : Operation Bytes := do
  let metadata ← findMetadata key .list
  if metadata.size = 0 then
    throw .keyNotFound
  else
    popElement key (metadata.tail - 1) metadata.popBack

/-! ## Sorted sets -/

def zadd (key : Bytes) (score : UInt64) (member : Bytes) : Operation Bool := do
  let metadata ← findMetadata key .zset
  let internalKeyBytes := ZSetInternalKey.encode ⟨key, metadata.version, score, member⟩
  let memberExists ← stored internalKeyBytes
  DB.put internalKeyBytes []
  if !memberExists then
    DB.put key { metadata with size := metadata.size + 1 }.encode
  return !memberExists

/-- Whether an entry is taken for that of a member of the sorted set. -/
def isEntryOf (key : Bytes) (version : UInt64) (member currentKey : Bytes) : Bool :=
  currentKey.length ≥ key.length + 8 + 8 && key.isPrefixOf currentKey &&
    read64 currentKey key.length == version && currentKey.drop (key.length + 16) == member

def zscore (key member : Bytes) : Operation UInt64 := do
  let metadata ← findMetadata key .zset
  if metadata.size = 0 then
    throw .keyNotFound
  else
    let keys ← DB.iterate
    match keys.find? (isEntryOf key metadata.version member) with
    | some currentKey => return read64 currentKey (key.length + 8)
    | none => throw .keyNotFound

/-! ## All types -/

def del (key : Bytes) : Operation Bool :=
  catchKeyNotFound (do DB.remove key; return true) (return false)

def «exists» (key : Bytes) : Operation Bool := stored key

def type (key : Bytes) : Operation RedisDataType := do
  let encodedValue ← DB.get key
  if encodedValue = [] then
    throw .keyNotFound
  else
    return ⟨encodedValue.getD 0 0⟩

end Bitcask.Redis
