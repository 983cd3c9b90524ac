import Bitcask.Redis.Server
import Bitcask.Redis.DataStructure

/-!
# The handlers of the Redis server

What the server makes of the arguments of a command, and of what the operation returns or
throws (`handleSet` to `handleZscore`), over any database. All handlers but two catch the
exceptions of their operation and answer with the text.

The conversions between texts and doubles are left open (`Doubles`).
-/

namespace Bitcask.Redis

/-! ## Handling -/

/-- What `std::stod` throws. -/
inductive StodError
  | invalidArgument
  | outOfRange
deriving DecidableEq, Repr

/-- `std::stod` and `std::to_string`, by the bits of the double. -/
structure Doubles where
  stod : Bytes → Except StodError UInt64
  toString : UInt64 → Bytes

/-- A library that reads no doubles. -/
def noDoubles : Doubles := ⟨fun _ => .error .invalidArgument, fun _ => []⟩

namespace RedisServer

/-- The answer to an exception. -/
def errorOf (e : Exn) : RedisResponse := .error (ofText "ERR " ++ ofText e.what)

def wrongNumber (command : String) : RedisResponse :=
  .error (ofText ("ERR wrong number of arguments for '" ++ command ++ "' command"))

/-- `catch (const std::exception& e)`. -/
def catchStd (body : Operation RedisResponse) : Operation RedisResponse :=
  tryCatch body fun e => return errorOf e

/-- `catch (const KeyNotFoundError&)`, then `catch (const std::exception& e)`. -/
def catchAbsent (absent : RedisResponse) (body : Operation RedisResponse) : Operation RedisResponse :=
  tryCatch body fun e => return if e = .keyNotFound then absent else errorOf e

def ofBool (b : Bool) : RedisResponse := .integer (if b then 1 else 0)

/-! ## Handlers -/

def handleSet (args : List Bytes) : Operation RedisResponse :=
  match args with
  | _ :: key :: value :: _ => catchStd do
    Redis.set key value 0
    return .simpleString (ofText "OK")
  | _ => return wrongNumber "set"

def handleGet (args : List Bytes) : Operation RedisResponse :=
  match args with
  | [_, key] => catchAbsent .nullBulkString do return .bulkString (← Redis.get key)
  | _ => return wrongNumber "get"

/-- The loop of `handleDel`: the number of keys deleted. -/
def delAll : List Bytes → Operation ℕ
  | [] => return 0
  | key :: keys => do
    let deleted ← del key
    let count ← delAll keys
    return if deleted then count + 1 else count

def handleDel (args : List Bytes) : Operation RedisResponse :=
  match args with
  | _ :: key :: keys => return .integer (← delAll (key :: keys))
  | _ => return wrongNumber "del"

def handleExists (args : List Bytes) : Operation RedisResponse :=
  match args with
  | [_, key] => return ofBool (← Redis.exists key)
  | _ => return wrongNumber "exists"

/-- The name of a type: none for a byte that is not one. -/
def typeStr (dataType : RedisDataType) : Bytes :=
  if dataType = .string then ofText "string"
  else if dataType = .hash then ofText "hash"
  else if dataType = .set then ofText "set"
  else if dataType = .list then ofText "list"
  else if dataType = .zset then ofText "zset"
  else []

def handleType (args : List Bytes) : Operation RedisResponse :=
  match args with
  | [_, key] => catchAbsent (.simpleString (ofText "none")) do
    return .simpleString (typeStr (← type key))
  | _ => return wrongNumber "type"

/-- The loop of `handleHset`: the number of fields that are new. -/
def hsetAll (key : Bytes) : List Bytes → Operation ℕ
  | field :: value :: rest => do
    let isNew ← hset key field value
    let count ← hsetAll key rest
    return if isNew then count + 1 else count
  | _ => return 0

def handleHset (args : List Bytes) : Operation RedisResponse :=
  match args with
  | _ :: key :: field :: value :: rest =>
    if args.length % 2 ≠ 0 then return wrongNumber "hset"
    else catchStd do return .integer (← hsetAll key (field :: value :: rest))
  | _ => return wrongNumber "hset"

def handleHget (args : List Bytes) : Operation RedisResponse :=
  match args with
  | [_, key, field] => catchAbsent .nullBulkString do return .bulkString (← hget key field)
  | _ => return wrongNumber "hget"

def handleHdel (args : List Bytes) : Operation RedisResponse :=
  match args with
  | [_, key, field] => catchStd do return ofBool (← hdel key field)
  | _ => return wrongNumber "hdel"

def handleSadd (args : List Bytes) : Operation RedisResponse :=
  match args with
  | [_, key, member] => catchStd do return ofBool (← sadd key member)
  | _ => return wrongNumber "sadd"

def handleSismember (args : List Bytes) : Operation RedisResponse :=
  match args with
  | [_, key, member] => catchStd do return ofBool (← sismember key member)
  | _ => return wrongNumber "sismember"

def handleSrem (args : List Bytes) : Operation RedisResponse :=
  match args with
  | [_, key, member] => catchStd do return ofBool (← srem key member)
  | _ => return wrongNumber "srem"

def handleLpush (args : List Bytes) : Operation RedisResponse :=
  match args with
  | [_, key, element] => catchStd do return .integer (← lpush key element).toNat
  | _ => return wrongNumber "lpush"

def handleRpush (args : List Bytes) : Operation RedisResponse :=
  match args with
  | [_, key, element] => catchStd do return .integer (← rpush key element).toNat
  | _ => return wrongNumber "rpush"

def handleLpop (args : List Bytes) : Operation RedisResponse :=
  match args with
  | [_, key] => catchAbsent .nullBulkString do return .bulkString (← lpop key)
  | _ => return wrongNumber "lpop"

def handleRpop (args : List Bytes) : Operation RedisResponse :=
  match args with
  | [_, key] => catchAbsent .nullBulkString do return .bulkString (← rpop key)
  | _ => return wrongNumber "rpop"

def handleZadd (doubles : Doubles) (args : List Bytes) : Operation RedisResponse :=
  match args with
  | [_, key, score, member] =>
    match doubles.stod score with
    | .ok score => catchStd do return ofBool (← zadd key score member)
    | .error .invalidArgument => return .error (ofText "ERR value is not a valid float")
    | .error .outOfRange => return .error (ofText "ERR stod")
  | _ => return wrongNumber "zadd"

def handleZscore (doubles : Doubles) (args : List Bytes) : Operation RedisResponse :=
  match args with
  | [_, key, member] => catchAbsent .nullBulkString do
    return .bulkString (doubles.toString (← zscore key member))
  | _ => return wrongNumber "zscore"

/-! ## The server -/

variable {σ : Type}

/-- A database: what it replies, and its state then. -/
abbrev Database (σ : Type) := (c : Command) → σ → c.Reply × σ

/-- A handler, over a database. What it throws is a standard exception. -/
def onDatabase (database : Database σ) (handle : List Bytes → Operation RedisResponse) :
    RedisCommandHandler σ := fun args state =>
  let result := Program.run database (handle args) state
  (result.1.mapError fun e => ⟨ofText e.what⟩, result.2)

/-- `setup_default_handlers`. -/
def defaultHandlers (database : Database σ) (doubles : Doubles) :
    List (String × RedisCommandHandler σ) :=
  [("SET", onDatabase database handleSet), ("GET", onDatabase database handleGet),
    ("DEL", onDatabase database handleDel), ("EXISTS", onDatabase database handleExists),
    ("TYPE", onDatabase database handleType), ("HSET", onDatabase database handleHset),
    ("HGET", onDatabase database handleHget), ("HDEL", onDatabase database handleHdel),
    ("SADD", onDatabase database handleSadd), ("SISMEMBER", onDatabase database handleSismember),
    ("SREM", onDatabase database handleSrem), ("LPUSH", onDatabase database handleLpush),
    ("RPUSH", onDatabase database handleRpush), ("LPOP", onDatabase database handleLpop),
    ("RPOP", onDatabase database handleRpop), ("ZADD", onDatabase database (handleZadd doubles)),
    ("ZSCORE", onDatabase database (handleZscore doubles)), ("PING", handlePing), ("QUIT", handleQuit)]

def setupDefaultHandlers (database : Database σ) (doubles : Doubles) : RedisServer σ :=
  (defaultHandlers database doubles).foldl
    (fun server command => server.registerCommand (ofText command.1) command.2) ⟨fun _ => none⟩

end RedisServer

end Bitcask.Redis
