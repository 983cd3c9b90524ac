import Bitcask.Redis.Server
import Bitcask.Services.HttpServer
import Bitcask.Services.Rpc

/-!
# The RPC server: connections

A connection of the RPC server (`RpcServer.handleConnection`) is one request and one response.
The handler is found by the method of the request, and calls the database once at most
(`isTask_handleConnection`).
-/

namespace Bitcask.Rpc

open Redis (StdException ofText)
open Redis.RedisServer (cString)
open Services

/-! ## Handlers -/

abbrev RpcMethodHandler (σ : Type) := RpcRequest → σ → Except StdException RpcResponse × σ

/-- A server, by its handlers: they are found by the names of methods. -/
structure RpcServer (σ : Type) where
  methodHandlers : Bytes → Option (RpcMethodHandler σ)

/-- What `json_escape` writes for a byte. -/
def escapeByte (b : UInt8) : Bytes :=
  if b = 34 then [92, 34]
  else if b = 92 then [92, 92]
  else if b = 10 then [92, 110]
  else if b = 13 then [92, 114]
  else if b = 9 then [92, 116]
  else [b]

def jsonEscape (str : Bytes) : Bytes := str.flatMap escapeByte

/-- A key in quotes. -/
def quoted (key : Bytes) : Bytes := 34 :: (jsonEscape key ++ [34])

section Handlers

variable {σ : Type} (database : FullDatabase σ)

def handleListKeys (_request : RpcRequest) (state : σ) : RpcResponse × σ :=
  match database.listKeys state with
  | (.ok keys, state) => (.ofResult (91 :: (Json.writeItems quoted keys ++ [93])), state)
  | (.error e, state) => (.ofError (ofText "LIST_KEYS failed: " ++ ofText e.what), state)

def handleStat (_request : RpcRequest) (state : σ) : RpcResponse × σ :=
  match database.stat state with
  | (.ok stat, state) => (.ofResult (Http.statText stat), state)
  | (.error e, state) => (.ofError (ofText "STAT failed: " ++ ofText e.what), state)

def handleBackup (request : RpcRequest) (state : σ) : RpcResponse × σ :=
  match request.params with
  | dir :: _ =>
    match database.backup dir state with
    | (.ok _, state) => (.ofResult (ofText "OK"), state)
    | (.error e, state) => (.ofError (ofText "BACKUP failed: " ++ ofText e.what), state)
  | [] => (.ofError (ofText "BACKUP requires 1 parameter: backup_directory"), state)

def handleMerge (_request : RpcRequest) (state : σ) : RpcResponse × σ :=
  match database.merge state with
  | (.ok _, state) => (.ofResult (ofText "OK"), state)
  | (.error e, state) => (.ofError (ofText "MERGE failed: " ++ ofText e.what), state)

def handlePing (_request : RpcRequest) (state : σ) : RpcResponse × σ :=
  (.ofResult (ofText "PONG"), state)

end Handlers

/-- A handler that catches all exceptions. -/
def RpcMethodHandler.ofHandle {σ : Type} (handle : RpcRequest → σ → RpcResponse × σ) :
    RpcMethodHandler σ :=
  fun request state =>
    let r := handle request state
    (.ok r.1, r.2)

/-! ## Servers -/

namespace RpcServer

variable {σ : Type} (server : RpcServer σ)

/-- What comes of a request: its handler says, if there is one. -/
def respond (request : RpcRequest) (state : σ) : Except StdException RpcResponse × σ :=
  match server.methodHandlers request.method with
  | some handler => handler request state
  | none => (.ok (.ofError (ofText "Method not found: " ++ request.method)), state)

/-- What is sent for the bytes that have been received, and the state afterwards. They end
    with the first one that is zero. Nothing is sent if nothing has been received. -/
def handleConnection (received : Bytes) (state : σ) : Bytes × σ :=
  if received = [] then ([], state)
  else
    let request := RpcRequest.parse (cString received)
    match server.respond request state with
    | (.ok response, state) => (RpcResponse.serialize { response with id := request.id }, state)
    | (.error e, state) => ((RpcResponse.ofError (ofText "Internal server error: " ++ e.what)).serialize, state)

def registerMethod (method : Bytes) (handler : RpcMethodHandler σ) : RpcServer σ where
  methodHandlers m := if m = method then some handler else server.methodHandlers m

def defaultMethods (database : FullDatabase σ) : List (Bytes × RpcMethodHandler σ) :=
  [(ofText "put", .ofHandle (handlePut database.toDatabase)),
    (ofText "get", .ofHandle (handleGet database.toDatabase)),
    (ofText "delete", .ofHandle (handleDelete database.toDatabase)),
    (ofText "list_keys", .ofHandle (handleListKeys database)),
    (ofText "stat", .ofHandle (handleStat database)),
    (ofText "backup", .ofHandle (handleBackup database)),
    (ofText "merge", .ofHandle (handleMerge database)),
    (ofText "ping", .ofHandle handlePing)]

/-- A server with some handlers, registered one after the other. -/
def registerAll (handlers : List (Bytes × RpcMethodHandler σ)) : RpcServer σ :=
  handlers.foldl (fun server h => server.registerMethod h.1 h.2) ⟨fun _ => none⟩

def setupDefaultHandlers (database : FullDatabase σ) : RpcServer σ :=
  registerAll (defaultMethods database)

/-- The handler of a method is the one registered last for it. -/
theorem methodHandlers_registerAll (handlers : List (Bytes × RpcMethodHandler σ)) (method : Bytes) :
    (registerAll handlers).methodHandlers method = handlers.reverse.lookup method := by
  induction handlers using List.reverseRecOn with
  | nil => rfl
  | append_singleton handlers h ih =>
    have hconcat : registerAll (handlers ++ [h]) = (registerAll handlers).registerMethod h.1 h.2 :=
      List.foldl_append
    have hregister : ((registerAll handlers).registerMethod h.1 h.2).methodHandlers method =
        if method = h.1 then some h.2 else (registerAll handlers).methodHandlers method := rfl
    rw [hconcat, hregister, List.reverse_concat, ih]
    obtain ⟨name, handler⟩ := h
    by_cases hmethod : method = name
    · rw [if_pos hmethod, hmethod, List.lookup_cons_self]
    · rw [if_neg hmethod, List.lookup_cons, beq_eq_false_iff_ne.2 hmethod]

/-! ### Calls of the database -/

theorem isTask_handlePut (request : RpcRequest) :
    ∃ task, IsTask (fun database => handlePut database.toDatabase request) task := by
  unfold handlePut
  rcases request.params with _ | ⟨key, _ | ⟨value, params⟩⟩
  · exact ⟨.answer _, fun _ _ => rfl⟩
  · exact ⟨.answer _, fun _ _ => rfl⟩
  · refine ⟨.call (.put key value) fun
      | .ok _ => .ofResult (ofText "OK")
      | .error e => .ofError (ofText "PUT failed: " ++ ofText e.what), fun database s => ?_⟩
    simp only [Task.run, FullDatabase.perform]
    rcases database.put key value s with ⟨_ | _, _⟩ <;> rfl

theorem isTask_handleGet (request : RpcRequest) :
    ∃ task, IsTask (fun database => handleGet database.toDatabase request) task := by
  unfold handleGet
  rcases request.params with _ | ⟨key, params⟩
  · exact ⟨.answer _, fun _ _ => rfl⟩
  · refine ⟨.call (.get key) fun
      | .ok value => .ofResult value
      | .error e => if e = .keyNotFound then .ofError (ofText "Key not found")
        else .ofError (ofText "GET failed: " ++ ofText e.what), fun database s => ?_⟩
    simp only [Task.run, FullDatabase.perform]
    rcases database.get key s with ⟨e | _, _⟩
    · cases e <;> rfl
    · rfl

theorem isTask_handleDelete (request : RpcRequest) :
    ∃ task, IsTask (fun database => handleDelete database.toDatabase request) task := by
  unfold handleDelete
  rcases request.params with _ | ⟨key, params⟩
  · exact ⟨.answer _, fun _ _ => rfl⟩
  · refine ⟨.call (.remove key) fun
      | .ok _ => .ofResult (ofText "OK")
      | .error e => .ofError (ofText "DELETE failed: " ++ ofText e.what), fun database s => ?_⟩
    simp only [Task.run, FullDatabase.perform]
    rcases database.remove key s with ⟨_ | _, _⟩ <;> rfl

theorem isTask_handleListKeys (request : RpcRequest) :
    ∃ task, IsTask (fun database => handleListKeys database request) task := by
  refine ⟨.call .listKeys fun
    | .ok keys => .ofResult (91 :: (Json.writeItems quoted keys ++ [93]))
    | .error e => .ofError (ofText "LIST_KEYS failed: " ++ ofText e.what), fun database s => ?_⟩
  simp only [Task.run, FullDatabase.perform, handleListKeys]
  rcases database.listKeys s with ⟨_ | _, _⟩ <;> rfl

theorem isTask_handleStat (request : RpcRequest) :
    ∃ task, IsTask (fun database => handleStat database request) task := by
  refine ⟨.call .stat fun
    | .ok stat => .ofResult (Http.statText stat)
    | .error e => .ofError (ofText "STAT failed: " ++ ofText e.what), fun database s => ?_⟩
  simp only [Task.run, FullDatabase.perform, handleStat]
  rcases database.stat s with ⟨_ | _, _⟩ <;> rfl

theorem isTask_handleBackup (request : RpcRequest) :
    ∃ task, IsTask (fun database => handleBackup database request) task := by
  unfold handleBackup
  rcases request.params with _ | ⟨dir, params⟩
  · exact ⟨.answer _, fun _ _ => rfl⟩
  · refine ⟨.call (.backup dir) fun
      | .ok _ => .ofResult (ofText "OK")
      | .error e => .ofError (ofText "BACKUP failed: " ++ ofText e.what), fun database s => ?_⟩
    simp only [Task.run, FullDatabase.perform]
    rcases database.backup dir s with ⟨_ | _, _⟩ <;> rfl

theorem isTask_handleMerge (request : RpcRequest) :
    ∃ task, IsTask (fun database => handleMerge database request) task := by
  refine ⟨.call .merge fun
    | .ok _ => .ofResult (ofText "OK")
    | .error e => .ofError (ofText "MERGE failed: " ++ ofText e.what), fun database s => ?_⟩
  simp only [Task.run, FullDatabase.perform, handleMerge]
  rcases database.merge s with ⟨_ | _, _⟩ <;> rfl

/-- What comes of a request to the default handlers. -/
theorem respond_setupDefaultHandlers (database : FullDatabase σ) (request : RpcRequest) (state : σ) :
    (setupDefaultHandlers database).respond request state =
      ((defaultMethods database).reverse.lookup request.method).elim
        (.ok (.ofError (ofText "Method not found: " ++ request.method)), state)
        fun handler => handler request state := by
  rw [respond, setupDefaultHandlers, methodHandlers_registerAll]
  cases (defaultMethods database).reverse.lookup request.method <;> rfl

/-- What comes of a request to some handlers. -/
def answer (handlers : List (Bytes × RpcMethodHandler σ)) (request : RpcRequest) (state : σ) :
    Except StdException RpcResponse × σ :=
  (handlers.lookup request.method).elim
    (.ok (.ofError (ofText "Method not found: " ++ request.method)), state)
    fun handler => handler request state

theorem isTask_answer_cons {request : RpcRequest} (name : Bytes)
    {handle : {σ : Type} → FullDatabase σ → RpcRequest → σ → RpcResponse × σ}
    {handlers : {σ : Type} → FullDatabase σ → List (Bytes × RpcMethodHandler σ)}
    (h : ∃ task, IsTask (fun database => handle database request) task)
    (hrest : ∃ task, IsTask (fun database => answer (handlers database) request) task) :
    ∃ task, IsTask (fun database =>
      answer ((name, RpcMethodHandler.ofHandle (handle database)) :: handlers database) request)
      task := by
  by_cases hname : request.method = name
  · obtain ⟨task, htask⟩ := h
    refine ⟨task.map Except.ok, fun {σ} database state => ?_⟩
    have hmap := htask.map (Except.ok (ε := StdException)) database state
    rw [← hmap]
    show answer ((name, _) :: handlers database) request state = _
    rw [answer, ← hname, List.lookup_cons_self]
    rfl
  · obtain ⟨task, htask⟩ := hrest
    refine ⟨task, fun {σ} database state => ?_⟩
    rw [← htask database state]
    show answer ((name, _) :: handlers database) request state = _
    rw [answer, List.lookup_cons, beq_eq_false_iff_ne.2 hname]
    rfl

theorem isTask_respond (request : RpcRequest) : ∃ task, IsTask (fun database =>
    (setupDefaultHandlers database).respond request) task := by
  have hnone : ∃ task, IsTask (fun {σ} (_ : FullDatabase σ) =>
      answer ([] : List (Bytes × RpcMethodHandler σ)) request) task :=
    ⟨.answer _, fun _ _ => rfl⟩
  have hping : ∃ task, IsTask (fun {σ} (_ : FullDatabase σ) => handlePing request) task :=
    ⟨.answer _, fun _ _ => rfl⟩
  obtain ⟨task, htask⟩ := isTask_answer_cons (ofText "ping") hping <|
    isTask_answer_cons (ofText "merge") (isTask_handleMerge request) <|
    isTask_answer_cons (ofText "backup") (isTask_handleBackup request) <|
    isTask_answer_cons (ofText "stat") (isTask_handleStat request) <|
    isTask_answer_cons (ofText "list_keys") (isTask_handleListKeys request) <|
    isTask_answer_cons (ofText "delete") (isTask_handleDelete request) <|
    isTask_answer_cons (ofText "get") (isTask_handleGet request) <|
    isTask_answer_cons (ofText "put") (isTask_handlePut request) hnone
  refine ⟨task, fun {σ} database state => ?_⟩
  rw [← htask database state]
  exact respond_setupDefaultHandlers database request state

/-- The text that is sent for an answer. -/
def sentFor (request : RpcRequest) : Except StdException RpcResponse → Bytes
  | .ok response => RpcResponse.serialize { response with id := request.id }
  | .error e => (RpcResponse.ofError (ofText "Internal server error: " ++ e.what)).serialize

theorem handleConnection_of_ne {received : Bytes} (h : received ≠ []) (state : σ) :
    server.handleConnection received state =
      let request := RpcRequest.parse (cString received)
      (sentFor request (server.respond request state).1, (server.respond request state).2) := by
  rw [handleConnection, if_neg h]
  dsimp only
  rcases server.respond (RpcRequest.parse (cString received)) state with ⟨_ | _, _⟩ <;> rfl

/-- A connection calls the database once at most, whatever is received. -/
theorem isTask_handleConnection (received : Bytes) : ∃ task, IsTask (fun database state =>
    (setupDefaultHandlers database).handleConnection received state) task := by
  by_cases hreceived : received = []
  · exact ⟨.answer [], fun _ _ => if_pos hreceived⟩
  · obtain ⟨task, htask⟩ := isTask_respond (RpcRequest.parse (cString received))
    refine ⟨task.map (sentFor (RpcRequest.parse (cString received))), fun {σ} database state => ?_⟩
    have hmap := htask.map (sentFor (RpcRequest.parse (cString received))) database state
    rw [← hmap]
    exact handleConnection_of_ne _ hreceived state

end RpcServer

/-- The RPC server. -/
def server : Server where
  handleConnection database received := (RpcServer.setupDefaultHandlers database).handleConnection received
  isTask := RpcServer.isTask_handleConnection

end Bitcask.Rpc
