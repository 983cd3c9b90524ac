import Bitcask.Redis.Handlers
import Bitcask.Redis.MapDatabase

/-!
# Replies

The answers of the server are to be values of the protocol (`RespValue`), one for each
command. A simple string or an error is a line, and is one value only if there is no CR
or LF in it: the texts of the handlers are lines, and the exceptions they answer with are
if those of the database are (`LineExn`), but the name of an unknown command is whatever the
client has sent. And the connection ends when an exception gets out of a handler, as those
of DEL and EXISTS do.
-/

namespace Bitcask.Redis

/-! ## Values of the protocol -/

/-- A text without CR and LF. -/
def Line (bytes : Bytes) : Prop := 13 ∉ bytes ∧ 10 ∉ bytes

instance (bytes : Bytes) : Decidable (Line bytes) := inferInstanceAs (Decidable (_ ∧ _))

theorem line_append {bytes bytes' : Bytes} : Line (bytes ++ bytes') ↔ Line bytes ∧ Line bytes' := by
  simp only [Line, List.mem_append, not_or]
  exact and_and_and_comm

theorem ofText_append (text text' : String) : ofText (text ++ text') = ofText text ++ ofText text' := by
  rw [ofText, String.toList_append, List.map_append]
  rfl

/-- The bytes of a value. -/
inductive RespValue : Bytes → Prop
  | simpleString {line : Bytes} : Line line → RespValue (43 :: (line ++ crlf))
  | error {line : Bytes} : Line line → RespValue (45 :: (line ++ crlf))
  | integer (n : ℤ) : RespValue (58 :: (printInt n ++ crlf))
  | bulkString (bytes : Bytes) :
      RespValue (36 :: (Decimal.digits bytes.length ++ crlf ++ bytes ++ crlf))
  | nullBulkString : RespValue (ofText "$-1" ++ crlf)
  | array {items : List Bytes} : (∀ item ∈ items, RespValue item) →
      RespValue (42 :: (Decimal.digits items.length ++ crlf ++ items.flatten))

/-- A response whose text is a line where it is sent as one. -/
structure RedisResponse.Plain (response : RedisResponse) : Prop where
  ne_array : response.type ≠ .array
  line : response.type = .simpleString ∨ response.type = .error → Line response.value

theorem RedisResponse.Plain.respValue {response : RedisResponse} (h : response.Plain) :
    RespValue response.serialize := by
  obtain ⟨type, value, integerValue, arrayValue⟩ := response
  cases type with
  | simpleString => exact .simpleString (h.line (.inl rfl))
  | error => exact .error (h.line (.inr rfl))
  | integer => exact .integer integerValue
  | bulkString =>
    rw [serialize]
    split
    · exact .nullBulkString
    · exact .bulkString value
  | array => exact absurd rfl h.ne_array

/-- An error is one value only if it is a line. -/
theorem RespValue.line_of_error {msg : Bytes} (h : RespValue (RedisResponse.error msg).serialize) :
    Line msg := by
  have hbytes : (RedisResponse.error msg).serialize = 45 :: (msg ++ crlf) := rfl
  rw [hbytes] at h
  generalize hvalue : 45 :: (msg ++ crlf) = value at h
  cases h with
  | error hline =>
    rw [List.cons.injEq, List.append_cancel_right_eq] at hvalue
    rwa [hvalue.2]
  | nullBulkString => cases hvalue
  | _ => exact absurd (List.cons.inj hvalue).1 (by decide)

theorem plain_simpleString {str : Bytes} (h : Line str) : (RedisResponse.simpleString str).Plain :=
  ⟨by simp [RedisResponse.simpleString], fun _ => h⟩

theorem plain_error {msg : Bytes} (h : Line msg) : (RedisResponse.error msg).Plain :=
  ⟨by simp [RedisResponse.error], fun _ => h⟩

theorem plain_integer (value : ℤ) : (RedisResponse.integer value).Plain := by
  constructor <;> simp [RedisResponse.integer]

theorem plain_bulkString (str : Bytes) : (RedisResponse.bulkString str).Plain := by
  constructor <;> simp [RedisResponse.bulkString]

theorem plain_nullBulkString : RedisResponse.nullBulkString.Plain := by
  constructor <;> simp [RedisResponse.nullBulkString]

/-! ## Exceptions -/

/-- An exception whose text is a line. -/
def LineExn (e : Exn) : Prop := Line (ofText e.what)

instance (e : Exn) : Decidable (LineExn e) := inferInstanceAs (Decidable (Line _))

/-- A reply that is no exception, or one whose text is a line. -/
def Command.Fine : (c : Command) → c.Reply → Prop
  | get _, reply => ∀ e, reply = .error e → LineExn e
  | put _ _, reply => ∀ e, reply = .error e → LineExn e
  | remove _, reply => ∀ e, reply = .error e → LineExn e
  | iterate, _ => True
  | now, _ => True

/-- An operation whose exceptions are lines, if those of the database are. -/
def Quiet {α : Type} (p : Operation α) : Prop := Program.Ends Command.Fine LineExn (fun _ => True) p

namespace Quiet

variable {α β : Type} {p handler : Operation α} {f : α → Operation β}

theorem pure (a : α) : Quiet (Program.pure a : Operation α) := Program.Ends.pure trivial

theorem throw {e : Exn} (he : LineExn e) : Quiet (Program.throw e : Operation α) := Program.Ends.throw he

theorem bind (hp : Quiet p) (hf : ∀ a, Quiet (f a)) : Quiet (p >>= f) :=
  Program.Ends.bind hp fun a _ => hf a

theorem ite {c : Prop} [Decidable c] {q : Operation α} (hp : Quiet p) (hq : Quiet q) :
    Quiet (if c then p else q) := by
  split
  · exact hp
  · exact hq

theorem ofReply {reply : Except Exn α} (h : ∀ e, reply = .error e → LineExn e) :
    Quiet (ofReply reply) := by
  cases reply with
  | ok a => exact pure a
  | error e => exact throw (h e rfl)

theorem catchKeyNotFound (hp : Quiet p) (hhandler : Quiet handler) :
    Quiet (catchKeyNotFound p handler) :=
  Program.Ends.tryCatch hp fun _ he => ite hhandler (throw he)

theorem get (key : Bytes) : Quiet (DB.get key) :=
  Program.Ends.bind (Program.Ends.perform (Command.get key)) fun _ hreply => ofReply hreply

theorem put (key value : Bytes) : Quiet (DB.put key value) :=
  Program.Ends.bind (Program.Ends.perform (Command.put key value)) fun _ hreply => ofReply hreply

theorem remove (key : Bytes) : Quiet (DB.remove key) :=
  Program.Ends.bind (Program.Ends.perform (Command.remove key)) fun _ hreply => ofReply hreply

theorem iterate : Quiet DB.iterate := .request fun _ _ => .pure trivial

theorem currentTimestamp : Quiet currentTimestamp := .request fun _ _ => .pure trivial

theorem isExpired (expireTime : UInt64) : Quiet (isExpired expireTime) :=
  ite (currentTimestamp.bind fun _ => pure _) (pure _)

theorem newMetadata (dataType : RedisDataType) : Quiet (newMetadata dataType) :=
  currentTimestamp.bind fun _ => pure _

theorem lineExn_of_decode {data : Bytes} {e : Exn} (h : RedisMetadata.decode data = .error e) :
    LineExn e := by
  rw [RedisMetadata.decode] at h
  split at h
  · cases h
    decide
  · cases h

theorem checkMetadata (key : Bytes) (dataType : RedisDataType) (metadataBytes : Bytes) :
    Quiet (checkMetadata key dataType metadataBytes) := by
  refine (ofReply fun e h => lineExn_of_decode h).bind fun metadata => ?_
  refine ite (throw (by decide)) ((isExpired _).bind fun expired => ite ?_ (pure _))
  exact (remove key).bind fun _ => newMetadata dataType

theorem findMetadata (key : Bytes) (dataType : RedisDataType) : Quiet (findMetadata key dataType) :=
  catchKeyNotFound ((get key).bind fun bytes => checkMetadata key dataType bytes) (newMetadata dataType)

theorem putOrRemove (key : Bytes) (metadata : RedisMetadata) : Quiet (putOrRemove key metadata) :=
  ite (remove key) (put key _)

theorem stored (key : Bytes) : Quiet (stored key) :=
  catchKeyNotFound ((get key).bind fun _ => pure _) (pure _)

theorem keyNotFound : Quiet (Program.throw .keyNotFound : Operation α) := throw (by decide)

/-! ### Operations -/

theorem set (key value : Bytes) (ttl : Int64) : Quiet (Redis.set key value ttl) := by
  refine ite (pure _) (bind ?_ fun expire => put key _)
  exact ite (currentTimestamp.bind fun _ => pure _) (pure _)

theorem getString (key : Bytes) : Quiet (Redis.get key) := by
  refine (get key).bind fun bytes => ite keyNotFound (ite (throw (by decide)) ?_)
  exact (isExpired _).bind fun expired => ite keyNotFound (pure _)

theorem hset (key field value : Bytes) : Quiet (hset key field value) := by
  refine (findMetadata key _).bind fun metadata => (stored _).bind fun fieldExists =>
    (put _ _).bind fun _ => ?_
  exact ite ((put _ _).bind fun _ => pure _) (pure _)

theorem hget (key field : Bytes) : Quiet (hget key field) :=
  (findMetadata key _).bind fun _ => ite keyNotFound (get _)

theorem removeElement (key internalKeyBytes : Bytes) (metadata : RedisMetadata) :
    Quiet (removeElement key internalKeyBytes metadata) := by
  refine ite (pure _) (catchKeyNotFound ?_ (pure _))
  exact (remove _).bind fun _ => (putOrRemove _ _).bind fun _ => pure _

theorem hdel (key field : Bytes) : Quiet (hdel key field) :=
  (findMetadata key _).bind fun _ => removeElement _ _ _

theorem sadd (key member : Bytes) : Quiet (sadd key member) := by
  refine (findMetadata key _).bind fun metadata => (stored _).bind fun isMember => ite (pure _) ?_
  exact (put _ _).bind fun _ => (put _ _).bind fun _ => pure _

theorem sismember (key member : Bytes) : Quiet (sismember key member) :=
  (findMetadata key _).bind fun _ => ite (pure _) (stored _)

theorem srem (key member : Bytes) : Quiet (srem key member) :=
  (findMetadata key _).bind fun _ => removeElement _ _ _

theorem pushElement (key element : Bytes) (index : UInt64) (metadata : RedisMetadata) :
    Quiet (pushElement key element index metadata) :=
  (put _ _).bind fun _ => (put _ _).bind fun _ => pure _

theorem popElement (key : Bytes) (index : UInt64) (metadata : RedisMetadata) :
    Quiet (popElement key index metadata) :=
  (get _).bind fun _ => (remove _).bind fun _ => (putOrRemove _ _).bind fun _ => pure _

theorem lpush (key element : Bytes) : Quiet (lpush key element) :=
  (findMetadata key _).bind fun _ => pushElement _ _ _ _

theorem rpush (key element : Bytes) : Quiet (rpush key element) :=
  (findMetadata key _).bind fun _ => pushElement _ _ _ _

theorem lpop (key : Bytes) : Quiet (lpop key) :=
  (findMetadata key _).bind fun _ => ite keyNotFound (popElement _ _ _)

theorem rpop (key : Bytes) : Quiet (rpop key) :=
  (findMetadata key _).bind fun _ => ite keyNotFound (popElement _ _ _)

theorem zadd (key : Bytes) (score : UInt64) (member : Bytes) : Quiet (zadd key score member) := by
  refine (findMetadata key _).bind fun metadata => (stored _).bind fun memberExists =>
    (put _ _).bind fun _ => ?_
  exact ite ((put _ _).bind fun _ => pure _) (pure _)

theorem zscore (key member : Bytes) : Quiet (zscore key member) := by
  refine (findMetadata key _).bind fun metadata => ite keyNotFound (iterate.bind fun keys => ?_)
  split
  · exact pure _
  · exact keyNotFound

theorem del (key : Bytes) : Quiet (del key) :=
  catchKeyNotFound ((remove key).bind fun _ => pure _) (pure _)

theorem type (key : Bytes) : Quiet (type key) :=
  (get key).bind fun _ => ite keyNotFound (pure _)

end Quiet

namespace RedisServer

/-! ## Answers of the handlers -/

/-- A handler that answers with a value, and throws only what `throws` allows. -/
def Answering (throws : Exn → Prop) (p : Operation RedisResponse) : Prop :=
  Program.Ends Command.Fine throws RedisResponse.Plain p

section Answering

variable {α : Type} {throws : Exn → Prop} {p : Operation RedisResponse} {q : Operation α}
  {f : α → RedisResponse} {args : List Bytes}

theorem plain_errorOf {e : Exn} (he : LineExn e) : (errorOf e).Plain :=
  plain_error (line_append.2 ⟨by decide, he⟩)

/-- The names of the commands whose numbers of arguments are checked. -/
def checkedCommands : List String :=
  ["set", "get", "del", "exists", "type", "hset", "hget", "hdel", "sadd", "sismember", "srem", "lpush",
    "rpush", "lpop", "rpop", "zadd", "zscore", "ping"]

theorem plain_wrongNumber {command : String} (h : command ∈ checkedCommands) :
    (wrongNumber command).Plain := by
  have hname : ∀ command ∈ checkedCommands, Line (ofText command) := by decide
  refine plain_error ?_
  rw [ofText_append, ofText_append, line_append, line_append]
  exact ⟨⟨by decide, hname command h⟩, by decide⟩

theorem plain_ofBool (b : Bool) : (ofBool b).Plain := plain_integer _

theorem plain_typeStr (dataType : RedisDataType) : (RedisResponse.simpleString (typeStr dataType)).Plain := by
  refine plain_simpleString ?_
  unfold typeStr
  repeat' split
  all_goals decide

theorem Answering.pure {response : RedisResponse} (h : response.Plain) :
    Answering throws (Program.pure response) := Program.Ends.pure h

theorem Answering.error {msg : Bytes} (h : Line msg) : Answering throws (Program.pure (.error msg)) :=
  .pure (plain_error h)

/-- What an operation returns is put into a value. -/
theorem Answering.map (hq : Quiet q) (hf : ∀ a, (f a).Plain) :
    Answering LineExn (q >>= fun a => Program.pure (f a)) :=
  Program.Ends.bind hq fun a _ => .pure (hf a)

theorem Answering.catchStd (hp : Answering LineExn p) : Answering throws (catchStd p) :=
  Program.Ends.tryCatch hp fun _ he => .pure (plain_errorOf he)

theorem Answering.catchAbsent {absent : RedisResponse} (habsent : absent.Plain)
    (hp : Answering LineExn p) : Answering throws (catchAbsent absent p) := by
  refine Program.Ends.tryCatch hp fun e he => .pure ?_
  split
  · exact habsent
  · exact plain_errorOf he

theorem quiet_delAll (keys : List Bytes) : Quiet (delAll keys) := by
  induction keys with
  | nil => exact .pure _
  | cons key keys ih => exact (Quiet.del key).bind fun _ => ih.bind fun _ => .pure _

theorem quiet_hsetAll (key : Bytes) (rest : List Bytes) : Quiet (hsetAll key rest) := by
  induction rest using hsetAll.induct with
  | case1 field value rest ih => exact (Quiet.hset key field value).bind fun _ => ih.bind fun _ => .pure _
  | case2 rest h =>
    rw [hsetAll]
    · exact .pure _
    · exact h

theorem answering_handleSet (args : List Bytes) : Answering throws (handleSet args) := by
  unfold handleSet
  split
  · exact .catchStd (.map (.set _ _ _) fun _ => plain_simpleString (by decide))
  · exact .pure (plain_wrongNumber (by simp [checkedCommands]))

theorem answering_handleGet (args : List Bytes) : Answering throws (handleGet args) := by
  unfold handleGet
  split
  · exact .catchAbsent plain_nullBulkString (.map (.getString _) plain_bulkString)
  · exact .pure (plain_wrongNumber (by simp [checkedCommands]))

/-- The exceptions of this one, and of the next, get out. -/
theorem answering_handleDel (args : List Bytes) : Answering LineExn (handleDel args) := by
  unfold handleDel
  split
  · exact .map (quiet_delAll _) fun _ => plain_integer _
  · exact .pure (plain_wrongNumber (by simp [checkedCommands]))

theorem answering_handleExists (args : List Bytes) : Answering LineExn (handleExists args) := by
  unfold handleExists
  split
  · exact .map (.stored _) plain_ofBool
  · exact .pure (plain_wrongNumber (by simp [checkedCommands]))

theorem answering_handleType (args : List Bytes) : Answering throws (handleType args) := by
  unfold handleType
  split
  · exact .catchAbsent (plain_simpleString (by decide)) (.map (.type _) plain_typeStr)
  · exact .pure (plain_wrongNumber (by simp [checkedCommands]))

theorem answering_handleHset (args : List Bytes) : Answering throws (handleHset args) := by
  unfold handleHset
  split
  · split
    · exact .pure (plain_wrongNumber (by simp [checkedCommands]))
    · exact .catchStd (.map (quiet_hsetAll _ _) fun _ => plain_integer _)
  · exact .pure (plain_wrongNumber (by simp [checkedCommands]))

theorem answering_handleHget (args : List Bytes) : Answering throws (handleHget args) := by
  unfold handleHget
  split
  · exact .catchAbsent plain_nullBulkString (.map (.hget _ _) plain_bulkString)
  · exact .pure (plain_wrongNumber (by simp [checkedCommands]))

theorem answering_handleHdel (args : List Bytes) : Answering throws (handleHdel args) := by
  unfold handleHdel
  split
  · exact .catchStd (.map (.hdel _ _) plain_ofBool)
  · exact .pure (plain_wrongNumber (by simp [checkedCommands]))

theorem answering_handleSadd (args : List Bytes) : Answering throws (handleSadd args) := by
  unfold handleSadd
  split
  · exact .catchStd (.map (.sadd _ _) plain_ofBool)
  · exact .pure (plain_wrongNumber (by simp [checkedCommands]))

theorem answering_handleSismember (args : List Bytes) : Answering throws (handleSismember args) := by
  unfold handleSismember
  split
  · exact .catchStd (.map (.sismember _ _) plain_ofBool)
  · exact .pure (plain_wrongNumber (by simp [checkedCommands]))

theorem answering_handleSrem (args : List Bytes) : Answering throws (handleSrem args) := by
  unfold handleSrem
  split
  · exact .catchStd (.map (.srem _ _) plain_ofBool)
  · exact .pure (plain_wrongNumber (by simp [checkedCommands]))

theorem answering_handleLpush (args : List Bytes) : Answering throws (handleLpush args) := by
  unfold handleLpush
  split
  · exact .catchStd (.map (.lpush _ _) fun _ => plain_integer _)
  · exact .pure (plain_wrongNumber (by simp [checkedCommands]))

theorem answering_handleRpush (args : List Bytes) : Answering throws (handleRpush args) := by
  unfold handleRpush
  split
  · exact .catchStd (.map (.rpush _ _) fun _ => plain_integer _)
  · exact .pure (plain_wrongNumber (by simp [checkedCommands]))

theorem answering_handleLpop (args : List Bytes) : Answering throws (handleLpop args) := by
  unfold handleLpop
  split
  · exact .catchAbsent plain_nullBulkString (.map (.lpop _) plain_bulkString)
  · exact .pure (plain_wrongNumber (by simp [checkedCommands]))

theorem answering_handleRpop (args : List Bytes) : Answering throws (handleRpop args) := by
  unfold handleRpop
  split
  · exact .catchAbsent plain_nullBulkString (.map (.rpop _) plain_bulkString)
  · exact .pure (plain_wrongNumber (by simp [checkedCommands]))

theorem answering_handleZadd (doubles : Doubles) (args : List Bytes) :
    Answering throws (handleZadd doubles args) := by
  unfold handleZadd
  split
  · split
    · exact .catchStd (.map (.zadd _ _ _) plain_ofBool)
    · exact .error (by decide)
    · exact .error (by decide)
  · exact .pure (plain_wrongNumber (by simp [checkedCommands]))

theorem answering_handleZscore (doubles : Doubles) (args : List Bytes) :
    Answering throws (handleZscore doubles args) := by
  unfold handleZscore
  split
  · exact .catchAbsent plain_nullBulkString (.map (.zscore _ _) fun _ => plain_bulkString _)
  · exact .pure (plain_wrongNumber (by simp [checkedCommands]))

end Answering

/-! ## Answers of the server -/

section Server

variable {σ : Type} {database : Database σ} {doubles : Doubles} {state : σ} {command : RedisCommand}
  {cmd : Bytes} {handler : RedisCommandHandler σ}

/-- A handler that answers every command with a value, in every state. -/
def AlwaysAnswers (handler : RedisCommandHandler σ) : Prop :=
  ∀ args state, ∃ response, (handler args state).1 = .ok response ∧ response.Plain

theorem onDatabase_of_ok {handle : List Bytes → Operation RedisResponse} {args : List Bytes}
    {response : RedisResponse} (h : (Program.run database (handle args) state).1 = .ok response) :
    (onDatabase database handle args state).1 = .ok response := by
  rw [onDatabase, h]
  rfl

theorem alwaysAnswers_onDatabase {handle : List Bytes → Operation RedisResponse}
    (hfine : ∀ c s, Command.Fine c (database c s).1)
    (h : ∀ args, Answering (fun _ => False) (handle args)) : AlwaysAnswers (onDatabase database handle) := by
  intro args state
  have hends := (h args).run hfine state
  cases hrun : (Program.run database (handle args) state).1 with
  | error e => exact (hends.2 e hrun).elim
  | ok response => exact ⟨response, onDatabase_of_ok hrun, hends.1 response hrun⟩

theorem alwaysAnswers_handlePing : AlwaysAnswers (handlePing : RedisCommandHandler σ) := by
  intro args state
  unfold handlePing
  split
  · exact ⟨_, rfl, plain_simpleString (by decide)⟩
  · exact ⟨_, rfl, plain_bulkString _⟩
  · exact ⟨_, rfl, @plain_wrongNumber "ping" (by simp [checkedCommands])⟩

theorem alwaysAnswers_handleQuit : AlwaysAnswers (handleQuit : RedisCommandHandler σ) :=
  fun _ _ => ⟨_, rfl, plain_simpleString (by decide)⟩

theorem mem_of_foldl_registerCommand {commands : List (String × RedisCommandHandler σ)}
    {server : RedisServer σ} (h : (commands.foldl (fun server command =>
      server.registerCommand (ofText command.1) command.2) server).commandHandlers cmd = some handler) :
    (∃ name, (name, handler) ∈ commands ∧ cmd = (ofText name).map toLower) ∨
      server.commandHandlers cmd = some handler := by
  induction commands generalizing server with
  | nil => exact .inr h
  | cons command commands ih =>
    rcases ih h with ⟨name, hmem, hcmd⟩ | hserver
    · exact .inl ⟨name, List.mem_cons_of_mem _ hmem, hcmd⟩
    · simp only [registerCommand] at hserver
      split at hserver
      · next hcmd =>
        cases hserver
        exact .inl ⟨command.1, List.mem_cons_self, hcmd⟩
      · exact .inr hserver

/-- The name under which a handler is found. -/
def lowerName (command : String × RedisCommandHandler σ) : Bytes := (ofText command.1).map toLower

theorem foldl_registerCommand_of_not_mem {commands : List (String × RedisCommandHandler σ)}
    {server : RedisServer σ} (h : cmd ∉ commands.map lowerName) :
    (commands.foldl (fun server command => server.registerCommand (ofText command.1) command.2)
      server).commandHandlers cmd = server.commandHandlers cmd := by
  induction commands generalizing server with
  | nil => rfl
  | cons command commands ih =>
    rw [List.map_cons, List.mem_cons, not_or] at h
    exact (ih h.2).trans (if_neg h.1)

/-- Handlers of different names are all found. -/
theorem foldl_registerCommand_of_mem {commands : List (String × RedisCommandHandler σ)}
    {server : RedisServer σ} {command : String × RedisCommandHandler σ}
    (hnodup : (commands.map lowerName).Nodup) (h : command ∈ commands) :
    (commands.foldl (fun server command => server.registerCommand (ofText command.1) command.2)
      server).commandHandlers (lowerName command) = some command.2 := by
  induction commands generalizing server with
  | nil => cases h
  | cons command' commands ih =>
    rw [List.map_cons, List.nodup_cons] at hnodup
    rcases List.mem_cons.1 h with rfl | h
    · exact (foldl_registerCommand_of_not_mem hnodup.1).trans (if_pos rfl)
    · exact ih hnodup.2 h

/-- The names of the commands that are set up. -/
def commandNames : List String := (defaultHandlers MapDB.handle noDoubles).map Prod.fst

theorem map_lowerName (database : Database σ) (doubles : Doubles) :
    (defaultHandlers database doubles).map lowerName =
      commandNames.map fun name => (ofText name).map toLower := rfl

theorem commandHandlers_of_not_mem (h : cmd ∉ commandNames.map fun name => (ofText name).map toLower) :
    (setupDefaultHandlers database doubles).commandHandlers cmd = none := by
  rw [← map_lowerName database doubles] at h
  exact foldl_registerCommand_of_not_mem h

theorem commandHandlers_of_mem {command : String × RedisCommandHandler σ}
    (h : command ∈ defaultHandlers database doubles) :
    (setupDefaultHandlers database doubles).commandHandlers (lowerName command) = some command.2 := by
  refine foldl_registerCommand_of_mem ?_ h
  rw [map_lowerName]
  decide

/-- The handlers that are found are those that are set up. -/
theorem mem_defaultHandlers
    (h : (setupDefaultHandlers database doubles).commandHandlers cmd = some handler) :
    ∃ name, (name, handler) ∈ defaultHandlers database doubles ∧ cmd = (ofText name).map toLower := by
  rcases mem_of_foldl_registerCommand h with hmem | hnone
  · exact hmem
  · cases hnone

/-- All handlers answer, but those of DEL and EXISTS. -/
theorem alwaysAnswers_of_mem (hfine : ∀ c s, Command.Fine c (database c s).1) {name : String}
    (h : (name, handler) ∈ defaultHandlers database doubles) :
    AlwaysAnswers handler ∨ name = "DEL" ∧ handler = onDatabase database handleDel ∨
      name = "EXISTS" ∧ handler = onDatabase database handleExists := by
  simp only [defaultHandlers, List.mem_cons, Prod.mk.injEq, List.not_mem_nil, or_false] at h
  rcases h with ⟨-, rfl⟩ | ⟨-, rfl⟩ | ⟨rfl, rfl⟩ | ⟨rfl, rfl⟩ | ⟨-, rfl⟩ | ⟨-, rfl⟩ | ⟨-, rfl⟩ | ⟨-, rfl⟩ |
    ⟨-, rfl⟩ | ⟨-, rfl⟩ | ⟨-, rfl⟩ | ⟨-, rfl⟩ | ⟨-, rfl⟩ | ⟨-, rfl⟩ | ⟨-, rfl⟩ | ⟨-, rfl⟩ | ⟨-, rfl⟩ |
    ⟨-, rfl⟩ | ⟨-, rfl⟩
  · exact .inl (alwaysAnswers_onDatabase hfine answering_handleSet)
  · exact .inl (alwaysAnswers_onDatabase hfine answering_handleGet)
  · exact .inr (.inl ⟨rfl, rfl⟩)
  · exact .inr (.inr ⟨rfl, rfl⟩)
  · exact .inl (alwaysAnswers_onDatabase hfine answering_handleType)
  · exact .inl (alwaysAnswers_onDatabase hfine answering_handleHset)
  · exact .inl (alwaysAnswers_onDatabase hfine answering_handleHget)
  · exact .inl (alwaysAnswers_onDatabase hfine answering_handleHdel)
  · exact .inl (alwaysAnswers_onDatabase hfine answering_handleSadd)
  · exact .inl (alwaysAnswers_onDatabase hfine answering_handleSismember)
  · exact .inl (alwaysAnswers_onDatabase hfine answering_handleSrem)
  · exact .inl (alwaysAnswers_onDatabase hfine answering_handleLpush)
  · exact .inl (alwaysAnswers_onDatabase hfine answering_handleRpush)
  · exact .inl (alwaysAnswers_onDatabase hfine answering_handleLpop)
  · exact .inl (alwaysAnswers_onDatabase hfine answering_handleRpop)
  · exact .inl (alwaysAnswers_onDatabase hfine (answering_handleZadd doubles))
  · exact .inl (alwaysAnswers_onDatabase hfine (answering_handleZscore doubles))
  · exact .inl alwaysAnswers_handlePing
  · exact .inl alwaysAnswers_handleQuit

/-- A command, before it is handled, whose name is a line or known, and, for DEL and EXISTS,
    whose operation does not throw. -/
structure Answerable (database : Database σ) (doubles : Doubles) (state : σ) (command : RedisCommand) :
    Prop where
  known : (setupDefaultHandlers database doubles).commandHandlers command.cmd = none → Line command.cmd
  del : command.cmd = ofText "del" → ∀ name key keys, command.args = name :: key :: keys →
    ∃ count, (Program.run database (delAll (key :: keys)) state).1 = .ok count
  «exists» : command.cmd = ofText "exists" → ∀ name key, command.args = [name, key] →
    ∃ b, (Program.run database (Redis.exists key) state).1 = .ok b

/-- An operation whose result is put into a value does not throw just when the value is
    returned. -/
theorem run_map_ok_iff {α : Type} {p : Operation α} {f : α → RedisResponse} :
    (∃ response, (Program.run database (p >>= fun a => Program.pure (f a)) state).1 = .ok response) ↔
      ∃ a, (Program.run database p state).1 = .ok a := by
  rcases hrun : Program.run database p state with ⟨_ | a, s⟩
  · rw [Program.run_bind_of_error hrun]
    simp
  · rw [Program.run_bind_of_ok hrun]
    simp

theorem respond_of_answerable (hfine : ∀ c s, Command.Fine c (database c s).1)
    (h : Answerable database doubles state command) :
    ∃ response, ((setupDefaultHandlers database doubles).respond command state).1 = .ok response ∧
      response.Plain := by
  rw [respond]
  cases hhandler : (setupDefaultHandlers database doubles).commandHandlers command.cmd with
  | none =>
    refine ⟨_, rfl, plain_error (line_append.2 ⟨line_append.2 ⟨by decide, h.known hhandler⟩, ?_⟩)⟩
    decide
  | some handler =>
    obtain ⟨name, hmem, hcmd⟩ := mem_defaultHandlers hhandler
    -- DEL and EXISTS do not catch what their operations throw.
    rcases alwaysAnswers_of_mem hfine hmem with halways | ⟨rfl, rfl⟩ | ⟨rfl, rfl⟩
    · exact halways command.args state
    · have hends := (answering_handleDel command.args).run hfine state
      have hok : ∃ response, (Program.run database (handleDel command.args) state).1 = .ok response := by
        unfold handleDel
        split
        · next name key keys hargs => exact run_map_ok_iff.2 (h.del hcmd name key keys hargs)
        · exact ⟨_, rfl⟩
      obtain ⟨response, hresponse⟩ := hok
      exact ⟨response, onDatabase_of_ok hresponse, hends.1 response hresponse⟩
    · have hends := (answering_handleExists command.args).run hfine state
      have hok : ∃ response, (Program.run database (handleExists command.args) state).1 = .ok response := by
        unfold handleExists
        split
        · next name key hargs => exact run_map_ok_iff.2 (h.exists hcmd name key hargs)
        · exact ⟨_, rfl⟩
      obtain ⟨response, hresponse⟩ := hok
      exact ⟨response, onDatabase_of_ok hresponse, hends.1 response hresponse⟩

theorem exists_ok_of_onDatabase {handle : List Bytes → Operation RedisResponse} {args : List Bytes}
    {response : RedisResponse} (h : (onDatabase database handle args state).1 = .ok response) :
    ∃ response, (Program.run database (handle args) state).1 = .ok response := by
  rw [onDatabase] at h
  cases hrun : (Program.run database (handle args) state).1 with
  | error e =>
    rw [hrun] at h
    cases h
  | ok response => exact ⟨response, rfl⟩

theorem answerable_of_respond {response : RedisResponse}
    (h : ((setupDefaultHandlers database doubles).respond command state).1 = .ok response)
    (hvalue : RespValue response.serialize) : Answerable database doubles state command := by
  rw [respond] at h
  refine ⟨fun hnone => ?_, fun hcmd name key keys hargs => ?_, fun hcmd name key hargs => ?_⟩
  · rw [hnone] at h
    cases h
    exact (line_append.1 (line_append.1 hvalue.line_of_error).1).2
  · have hlower : ofText "del" = lowerName ("DEL", onDatabase database handleDel) := by
      show ofText "del" = (ofText "DEL").map toLower
      decide
    rw [hcmd, hlower, commandHandlers_of_mem (by simp [defaultHandlers]), hargs] at h
    exact run_map_ok_iff.1 (exists_ok_of_onDatabase h)
  · have hlower : ofText "exists" = lowerName ("EXISTS", onDatabase database handleExists) := by
      show ofText "exists" = (ofText "EXISTS").map toLower
      decide
    rw [hcmd, hlower, commandHandlers_of_mem (by simp [defaultHandlers]), hargs] at h
    exact run_map_ok_iff.1 (exists_ok_of_onDatabase h)

end Server

/-! ## Runs -/

section Runs

variable {σ : Type} {database : Database σ} {doubles : Doubles} {server : RedisServer σ}
  {conn : Connection σ} {commands : List RedisCommand} {responses : List RedisResponse}

/-- What the commands are answered, one after the other. -/
def answers (server : RedisServer σ) : σ → List RedisCommand → List (Except StdException RedisResponse)
  | _, [] => []
  | state, command :: commands =>
    (server.respond command state).1 :: answers server (server.respond command state).2 commands

/-- Every command of a buffer is answered with one value, in their order: these are the bytes
    sent, and the connection goes on with what is received next. -/
def OneReplyEach (server : RedisServer σ) (fuel : ℕ) (state : σ) (commands : List RedisCommand) : Prop :=
  ∃ responses : List RedisResponse, server.answers state commands = responses.map .ok ∧
    (∀ response ∈ responses, RespValue response.serialize) ∧
    ∃ conn : Connection σ, conn.sent = (responses.map RedisResponse.serialize).flatten ∧
      ∀ buffers, server.handleConnection fuel state (encodeAll commands :: buffers) =
        server.receive fuel conn [] buffers

/-- All commands of a run are answerable, in the states they are handled in. -/
def AllAnswerable (database : Database σ) (doubles : Doubles) : σ → List RedisCommand → Prop
  | _, [] => True
  | state, command :: commands =>
    Answerable database doubles state command ∧
      AllAnswerable database doubles
        ((setupDefaultHandlers database doubles).respond command state).2 commands

theorem dispatchAll_of_answers (hanswers : server.answers conn.state commands = responses.map .ok)
    (hquit : ∀ command ∈ commands, ¬command.IsQuit) :
    ∃ conn', server.dispatchAll conn commands = .ok conn' ∧
      conn'.sent = conn.sent ++ (responses.map RedisResponse.serialize).flatten := by
  induction commands generalizing conn responses with
  | nil =>
    obtain rfl := List.map_eq_nil_iff.1 hanswers.symm
    exact ⟨conn, rfl, (List.append_nil _).symm⟩
  | cons command commands ih =>
    obtain ⟨response, responses', rfl, hresponse, hrest⟩ := List.map_eq_cons_iff.1 hanswers.symm
    rw [List.forall_mem_cons] at hquit
    obtain ⟨conn₁, hd⟩ := dispatch_of_answered hresponse.symm hquit.1
    have hconn₁ : conn₁.state = (server.respond command conn.state).2 ∧
        conn₁.sent = conn.sent ++ response.serialize := by
      rw [dispatch, ← hresponse] at hd
      simp only [if_neg hquit.1] at hd
      cases hd
      exact ⟨rfl, rfl⟩
    obtain ⟨conn₂, hd₂, hsent⟩ := ih (hconn₁.1 ▸ hrest.symm) hquit.2
    refine ⟨conn₂, (dispatchAll_cons hd).trans hd₂, ?_⟩
    rw [hsent, hconn₁.2, List.append_assoc]
    rfl

/-- By induction on the commands. -/
theorem allAnswerable_iff (hfine : ∀ c s, Command.Fine c (database c s).1) (state : σ) :
    AllAnswerable database doubles state commands ↔
      ∃ responses : List RedisResponse,
        (setupDefaultHandlers database doubles).answers state commands = responses.map .ok ∧
        ∀ response ∈ responses, RespValue response.serialize := by
  induction commands generalizing state with
  | nil => exact iff_of_true trivial ⟨[], rfl, List.forall_mem_nil _⟩
  | cons command commands ih =>
    rw [AllAnswerable, ih]
    constructor
    · rintro ⟨hanswerable, responses, hanswers, hvalues⟩
      obtain ⟨response, hresponse, hplain⟩ := respond_of_answerable hfine hanswerable
      refine ⟨response :: responses, ?_, List.forall_mem_cons.2 ⟨hplain.respValue, hvalues⟩⟩
      rw [answers, hresponse, hanswers]
      rfl
    · rintro ⟨responses, hanswers, hvalues⟩
      obtain ⟨response, responses', rfl, hresponse, hrest⟩ := List.map_eq_cons_iff.1 hanswers.symm
      rw [List.forall_mem_cons] at hvalues
      exact ⟨answerable_of_respond hresponse.symm hvalues.1, responses', hrest.symm, hvalues.2⟩

/-- Commands without QUIT that come in one buffer are answered with one value each just when
    they are all answerable. -/
theorem oneReplyEach_iff (database : Database σ) (doubles : Doubles) (fuel : ℕ) (state : σ)
    (commands : List RedisCommand) (hfine : ∀ c s, Command.Fine c (database c s).1)
    (hne : commands ≠ []) (hwf : ∀ command ∈ commands, command.WellFormed)
    (hnul : ∀ command ∈ commands, command.NulFree) (hquit : ∀ command ∈ commands, ¬command.IsQuit)
    (hfuel : (encodeAll commands).length < fuel) :
    OneReplyEach (setupDefaultHandlers database doubles) fuel state commands ↔
      AllAnswerable database doubles state commands := by
  rw [allAnswerable_iff hfine]
  constructor
  · rintro ⟨responses, hanswers, hvalues, -⟩
    exact ⟨responses, hanswers, hvalues⟩
  · rintro ⟨responses, hanswers, hvalues⟩
    have hanswers' : (setupDefaultHandlers database doubles).answers
        (Connection.mk state [] []).state commands = responses.map .ok := hanswers
    obtain ⟨conn, hd, hsent⟩ := dispatchAll_of_answers hanswers' hquit
    refine ⟨responses, hanswers, hvalues, conn, hsent, fun buffers => ?_⟩
    have hbytes : encodeAll commands ≠ [] := by
      have := length_le_encodeAll commands
      have := List.length_pos_iff.2 hne
      exact List.ne_nil_of_length_pos (by omega)
    exact receive_of_ok hwf hnul hbytes hfuel hd buffers

/-- A map throws nothing but that a key is not there. -/
theorem fine_handle (c : Command) (s : MapDB) : Command.Fine c (MapDB.handle c s).1 := by
  have habsent : LineExn .keyNotFound := by decide
  cases c with
  | get key =>
    rintro e h
    cases hentry : s.entries[key]? with
    | none =>
      rw [MapDB.handle_get_of_none hentry] at h
      cases h
      exact habsent
    | some value =>
      rw [MapDB.handle_get_of_some hentry] at h
      cases h
  | put key value =>
    rintro e h
    cases h
  | remove key =>
    rintro e h
    cases h
  | iterate => trivial
  | now => trivial

def emptyMap : MapDB := ⟨∅, fun n => .ofNat n⟩

/-- A key is set and deleted. -/
def setAndDelete : List RedisCommand :=
  [⟨[ofText "SET", [107], [118]]⟩, ⟨[ofText "DEL", [107]]⟩]

theorem oneReplyEach_setAndDelete :
    OneReplyEach (setupDefaultHandlers MapDB.handle noDoubles) 100 emptyMap setAndDelete := by
  refine (oneReplyEach_iff MapDB.handle noDoubles 100 emptyMap setAndDelete fine_handle
    (List.cons_ne_nil _ _) ?_ ?_ ?_ (by decide)).2 ⟨⟨?_, ?_, ?_⟩, ⟨?_, ?_, ?_⟩, trivial⟩
  · exact List.forall_mem_cons.2 ⟨by constructor <;> decide,
      List.forall_mem_singleton.2 (by constructor <;> decide)⟩
  · unfold RedisCommand.NulFree
    decide
  · decide
  · exact fun _ => by decide
  · exact fun hcmd => absurd hcmd (by decide)
  · exact fun hcmd => absurd hcmd (by decide)
  · exact fun _ => by decide
  · rintro - name key keys hargs
    cases hargs
    exact ⟨1, rfl⟩
  · exact fun hcmd => absurd hcmd (by decide)

/-- A command whose name is a line with its end. -/
def brokenCommand : RedisCommand := ⟨[[97, 13, 10]]⟩

/-- The answer to it is no value, for the name is in it. -/
theorem not_forall_oneReplyEach : ¬∀ (doubles : Doubles) (fuel : ℕ) (state : MapDB)
    (commands : List RedisCommand), commands ≠ [] → (∀ command ∈ commands, command.WellFormed) →
    (∀ command ∈ commands, command.NulFree) → (∀ command ∈ commands, ¬command.IsQuit) →
    (encodeAll commands).length < fuel →
    OneReplyEach (setupDefaultHandlers MapDB.handle doubles) fuel state commands := by
  intro h
  obtain ⟨responses, hanswers, hvalues, -⟩ := h noDoubles 100 emptyMap [brokenCommand]
    (List.cons_ne_nil _ _) (List.forall_mem_singleton.2 (by constructor <;> decide))
    (List.forall_mem_singleton.2 (by unfold RedisCommand.NulFree; decide))
    (List.forall_mem_singleton.2 (by decide)) (by decide)
  have hanswerable := ((allAnswerable_iff fine_handle emptyMap).2 ⟨responses, hanswers, hvalues⟩).1
  exact absurd (hanswerable.known (commandHandlers_of_not_mem (by decide))) (by decide)

end Runs

end RedisServer

end Bitcask.Redis
