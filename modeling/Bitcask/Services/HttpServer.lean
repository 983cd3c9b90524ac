import Bitcask.Redis.Server
import Bitcask.Services.Bodies
import Bitcask.Services.Messages

/-!
# The HTTP server: connections

A connection of the HTTP server (`HttpServer.handleConnection`) is one request and one
response. The handler is found by the method and the path of the request
(`HttpServer.respond`).

* `readResponse_handleConnection`: whatever is received, a client reads one response, with one of
  five status codes, and nothing behind it.
-/

namespace Bitcask.Http

open MessageHead (Field)
open Redis (Entries StdException ofText)
open Redis.RedisServer (cString)
open Services Transaction

/-! ## Handlers -/

abbrev HttpHandler (σ : Type) := Received → σ → Except StdException HttpResponse × σ

/-- A server, by its handlers: they are found by the method of a request, and its path. -/
structure HttpServer (σ : Type) where
  routes : Bytes → Option (Bytes → Option (HttpHandler σ))

/-- A handler that catches all exceptions. -/
def HttpHandler.ofHandle {σ : Type} (handle : HttpRequest → σ → HttpResponse × σ) : HttpHandler σ :=
  fun request state =>
    let r := handle request.toHttpRequest state
    (.ok r.1, r.2)

/-- The statistics of a database, as JSON. -/
def statText (stat : Stat) : Bytes :=
  ofText "\x7b\"key_num\":" ++ Decimal.digits stat.keyNum ++
    ofText ",\"data_file_num\":" ++ Decimal.digits stat.dataFileNum ++
    ofText ",\"reclaimable_size\":" ++ Redis.printInt stat.reclaimableSize ++
    ofText ",\"disk_size\":" ++ Decimal.digits stat.diskSize ++ ofText "\x7d"

variable {σ : Type}

def handleStat (database : FullDatabase σ) (_request : HttpRequest) (state : σ) : HttpResponse × σ :=
  match database.stat state with
  | (.ok stat, state) => (.ok (statText stat), state)
  | (.error _, state) => (.error 500 "Failed to get statistics", state)

/-! ## Servers -/

namespace HttpServer

variable (server : HttpServer σ)

/-- What comes of a request: its handler says, if there is one. -/
def respond (request : Received) (state : σ) : Except StdException HttpResponse × σ :=
  match server.routes request.method with
  | some paths =>
    match paths request.path with
    | some handler => handler request state
    | none => (.ok (.error 404 "Not found"), state)
  | none => (.ok (.error 405 "Method not allowed"), state)

/-- What is sent for the bytes that have been received, and the state afterwards. They end
    with the first one that is zero. Nothing is sent if nothing has been received. -/
def handleConnection (unset : Bytes → ℤ) (received : Bytes) (state : σ) : Bytes × σ :=
  if received = [] then ([], state)
  else
    match server.respond (parseRequest unset (cString received)) state with
    | (.ok response, state) => (buildResponse response, state)
    | (.error _, state) => (buildResponse (.error 500 "Internal server error"), state)

def registerHandler (method path : Bytes) (handler : HttpHandler σ) : HttpServer σ where
  routes m :=
    if m = method then
      some fun p =>
        if p = path then some handler else (server.routes m).bind fun paths => paths p
    else server.routes m

/-- A method, a path and their handler. -/
abbrev Route (σ : Type) := Bytes × Bytes × HttpHandler σ

/-- A server with some handlers, registered one after the other. -/
def registerAll (handlers : List (Route σ)) : HttpServer σ :=
  handlers.foldl (fun server h => server.registerHandler h.1 h.2.1 h.2.2) ⟨fun _ => none⟩

def defaultHandlers (database : FullDatabase σ) : List (Route σ) :=
  [(ofText "POST", ofText "/bitcask/put", .ofHandle (handlePut database.toDatabase)),
    (ofText "GET", ofText "/bitcask/get", .ofHandle (handleGet database.toDatabase)),
    (ofText "DELETE", ofText "/bitcask/delete", .ofHandle (handleDelete database.toDatabase)),
    (ofText "GET", ofText "/bitcask/listkeys", .ofHandle (handleListKeys database.toDatabase)),
    (ofText "GET", ofText "/bitcask/stat", .ofHandle (handleStat database))]

def setupDefaultHandlers (database : FullDatabase σ) : HttpServer σ :=
  registerAll (defaultHandlers database)

/-! ### Which handler is found -/

/-- The handler of a method and a path is the one registered last for them. -/
def findHandler (handlers : List (Route σ)) (method path : Bytes) : Option (HttpHandler σ) :=
  (handlers.reverse.find? fun h => h.1 = method ∧ h.2.1 = path).map fun h => h.2.2

theorem registerAll_concat (handlers : List (Route σ)) (h : Route σ) :
    registerAll (handlers ++ [h]) = (registerAll handlers).registerHandler h.1 h.2.1 h.2.2 :=
  List.foldl_append

theorem findHandler_concat (handlers : List (Route σ)) (h : Route σ) (method path : Bytes) :
    findHandler (handlers ++ [h]) method path =
      if h.1 = method ∧ h.2.1 = path then some h.2.2 else findHandler handlers method path := by
  rw [findHandler, List.reverse_concat, List.find?_cons]
  by_cases hfor : h.1 = method ∧ h.2.1 = path <;> simp [hfor, findHandler]

theorem findHandler_eq_none {handlers : List (Route σ)} {method : Bytes}
    (h : ∀ h ∈ handlers, h.1 ≠ method) (path : Bytes) : findHandler handlers method path = none := by
  rw [findHandler, Option.map_eq_none_iff, List.find?_eq_none]
  intro handler hmem
  simp [h handler (List.mem_reverse.1 hmem)]

theorem routes_registerHandler (method path : Bytes) (handler : HttpHandler σ) (m : Bytes) :
    (server.registerHandler method path handler).routes m =
      if m = method then
        some fun p =>
          if p = path then some handler else (server.routes m).bind fun paths => paths p
      else server.routes m := rfl

theorem routes_registerAll (handlers : List (Route σ)) (method : Bytes) :
    (registerAll handlers).routes method =
      if ∃ h ∈ handlers, h.1 = method then some (findHandler handlers method) else none := by
  induction handlers using List.reverseRecOn with
  | nil => simp [registerAll]
  | append_singleton handlers h ih =>
    rw [registerAll_concat, routes_registerHandler, ih]
    by_cases hmethod : method = h.1
    · have hregistered : ∃ h' ∈ handlers ++ [h], h'.1 = method := ⟨h, by simp, hmethod.symm⟩
      rw [if_pos hmethod, if_pos hregistered]
      refine congrArg some (funext fun path => ?_)
      rw [findHandler_concat]
      by_cases hpath : path = h.2.1
      · rw [if_pos hpath, if_pos ⟨hmethod.symm, hpath.symm⟩]
      · have hother : ¬(h.1 = method ∧ h.2.1 = path) := fun hfor => hpath hfor.2.symm
        rw [if_neg hpath, if_neg hother]
        split_ifs with hany
        · rfl
        · push Not at hany
          exact (findHandler_eq_none hany path).symm
    · have hiff : (∃ h' ∈ handlers ++ [h], h'.1 = method) ↔ ∃ h' ∈ handlers, h'.1 = method := by
        simp [Ne.symm hmethod]
      rw [if_neg hmethod, if_congr hiff rfl rfl]
      split_ifs
      · refine congrArg some (funext fun path => ?_)
        rw [findHandler_concat, if_neg fun hfor => hmethod hfor.1.symm]
      · rfl

/-- The answer to a request that there is no handler for. -/
def unhandled (handlers : List (Route σ)) (request : Received) : HttpResponse :=
  if ∃ h ∈ handlers, h.1 = request.method then .error 404 "Not found"
  else .error 405 "Method not allowed"

/-- What comes of a request to a server with some handlers. -/
theorem respond_registerAll (handlers : List (Route σ)) (request : Received) (state : σ) :
    (registerAll handlers).respond request state =
      (findHandler handlers request.method request.path).elim
        (.ok (unhandled handlers request), state) fun handler => handler request state := by
  rw [respond, routes_registerAll, unhandled]
  split_ifs with hany
  · dsimp only
    cases findHandler handlers request.method request.path <;> rfl
  · push Not at hany
    rw [findHandler_eq_none hany]
    rfl

/-- What comes of a request to the default handlers. -/
theorem respond_setupDefaultHandlers (database : FullDatabase σ) (request : Received) (state : σ) :
    (setupDefaultHandlers database).respond request state =
      if ofText "GET" = request.method ∧ ofText "/bitcask/stat" = request.path then
        HttpHandler.ofHandle (handleStat database) request state
      else if ofText "GET" = request.method ∧ ofText "/bitcask/listkeys" = request.path then
        HttpHandler.ofHandle (handleListKeys database.toDatabase) request state
      else if ofText "DELETE" = request.method ∧ ofText "/bitcask/delete" = request.path then
        HttpHandler.ofHandle (handleDelete database.toDatabase) request state
      else if ofText "GET" = request.method ∧ ofText "/bitcask/get" = request.path then
        HttpHandler.ofHandle (handleGet database.toDatabase) request state
      else if ofText "POST" = request.method ∧ ofText "/bitcask/put" = request.path then
        HttpHandler.ofHandle (handlePut database.toDatabase) request state
      else (.ok (unhandled (defaultHandlers database) request), state) := by
  have hfind (handlers : List (Route σ)) (h : Route σ) {α : Type}
      (none : α) (some : HttpHandler σ → α) :
      (findHandler (handlers ++ [h]) request.method request.path).elim none some =
        if h.1 = request.method ∧ h.2.1 = request.path then some h.2.2
        else (findHandler handlers request.method request.path).elim none some := by
    rw [findHandler_concat]
    split_ifs <;> rfl
  rw [setupDefaultHandlers, respond_registerAll]
  refine (hfind [_, _, _, _] _ _ _).trans (if_congr Iff.rfl rfl ?_)
  refine (hfind [_, _, _] _ _ _).trans (if_congr Iff.rfl rfl ?_)
  refine (hfind [_, _] _ _ _).trans (if_congr Iff.rfl rfl ?_)
  refine (hfind [_] _ _ _).trans (if_congr Iff.rfl rfl ?_)
  exact hfind [] _ _ _

/-! ### What is sent -/

/-- The status codes of the responses. -/
def statusCodes : List ℕ := [200, 400, 404, 405, 500]

theorem statusCode_field {body : Bytes} {name noName noColon noText : String}
    {response : HttpResponse} (h : field body name noName noColon noText = .error response) :
    response.statusCode = 400 := by
  unfold field at h
  repeat' split at h
  all_goals first
    | cases h; rfl
    | dsimp only at h
      split at h <;> cases h
      rfl

theorem statusCode_handlePut (database : Database σ) (request : HttpRequest) (state : σ) :
    (handlePut database request state).1.statusCode ∈ statusCodes := by
  unfold handlePut
  split_ifs
  · simp [statusCodes, HttpResponse.error]
  · split
    · next hkey => simp [statusCodes, statusCode_field hkey]
    · split
      · next hvalue => simp [statusCodes, statusCode_field hvalue]
      · split <;> simp [statusCodes, HttpResponse.error, HttpResponse.ok]

theorem statusCode_handleGet (database : Database σ) (request : HttpRequest) (state : σ) :
    (handleGet database request state).1.statusCode ∈ statusCodes := by
  unfold handleGet
  split
  · simp [statusCodes, HttpResponse.error]
  · split <;> simp [statusCodes, HttpResponse.error, HttpResponse.ok]

theorem statusCode_handleDelete (database : Database σ) (request : HttpRequest) (state : σ) :
    (handleDelete database request state).1.statusCode ∈ statusCodes := by
  unfold handleDelete
  split
  · simp [statusCodes, HttpResponse.error]
  · split <;> simp [statusCodes, HttpResponse.error, HttpResponse.ok]

theorem statusCode_handleListKeys (database : Database σ) (request : HttpRequest) (state : σ) :
    (handleListKeys database request state).1.statusCode ∈ statusCodes := by
  unfold handleListKeys
  split <;> simp [statusCodes, HttpResponse.error, HttpResponse.ok]

theorem statusCode_handleStat (database : FullDatabase σ) (request : HttpRequest) (state : σ) :
    (handleStat database request state).1.statusCode ∈ statusCodes := by
  unfold handleStat
  split <;> simp [statusCodes, HttpResponse.error, HttpResponse.ok]

/-- The default handlers catch all exceptions. -/
theorem respond_eq_ok (database : FullDatabase σ) (request : Received) (state : σ) :
    ∃ response, ((setupDefaultHandlers database).respond request state).1 = .ok response ∧
      response.statusCode ∈ statusCodes := by
  rw [respond_setupDefaultHandlers]
  split_ifs
  · exact ⟨_, rfl, statusCode_handleStat _ _ _⟩
  · exact ⟨_, rfl, statusCode_handleListKeys _ _ _⟩
  · exact ⟨_, rfl, statusCode_handleDelete _ _ _⟩
  · exact ⟨_, rfl, statusCode_handleGet _ _ _⟩
  · exact ⟨_, rfl, statusCode_handlePut _ _ _⟩
  · refine ⟨_, rfl, ?_⟩
    unfold unhandled
    split_ifs <;> simp [statusCodes, HttpResponse.error]

theorem handleConnection_eq (database : FullDatabase σ) (unset : Bytes → ℤ) {received : Bytes}
    (hreceived : received ≠ []) (state : σ) :
    ∃ response, response.statusCode ∈ statusCodes ∧
      (setupDefaultHandlers database).respond
          (parseRequest unset (cString received)) state =
        (.ok response, ((setupDefaultHandlers database).handleConnection unset received state).2) ∧
      ((setupDefaultHandlers database).handleConnection unset received state).1 =
        buildResponse response := by
  obtain ⟨response, hresponse, hstatus⟩ := respond_eq_ok database
    (parseRequest unset (cString received)) state
  rw [handleConnection, if_neg hreceived]
  generalize (setupDefaultHandlers database).respond
    (parseRequest unset (cString received)) state = r at hresponse
  obtain ⟨_, state'⟩ := r
  obtain rfl := hresponse
  exact ⟨response, hstatus, rfl, rfl⟩

/-- Whatever is received, a client reads one response in what is sent, and what is behind it. -/
theorem readResponse_handleConnection (database : FullDatabase σ) (unset : Bytes → ℤ)
    {received : Bytes} (hreceived : received ≠ []) (state : σ) :
    ∃ response : HttpResponse, response.statusCode ∈ statusCodes ∧ ∀ rest, readResponse
      (((setupDefaultHandlers database).handleConnection unset received state).1 ++ rest) =
        some (response.statusCode, response.fields, response.body, rest) := by
  obtain ⟨response, hstatus, -, hsent⟩ := handleConnection_eq database unset hreceived state
  refine ⟨response, hstatus, fun rest => ?_⟩
  rw [hsent, readResponse_buildResponse]

/-- A line break is a request, too. -/
theorem readResponse_handleConnection_newline :
    ∃ response : HttpResponse, response.statusCode ∈ statusCodes ∧ ∀ rest, readResponse
      (((setupDefaultHandlers (FullDatabase.ofEntries ⟨⟨0, 0, 0, 0⟩, .ok (), .ok ()⟩)).handleConnection
        (fun _ => 0) [10] ∅).1 ++ rest) =
        some (response.statusCode, response.fields, response.body, rest) :=
  readResponse_handleConnection _ _ (by decide : ([10] : Bytes) ≠ []) _

/-! ### Calls of the database -/

theorem isTask_handlePut (request : HttpRequest) :
    ∃ task, IsTask (fun database => handlePut database.toDatabase request) task := by
  unfold handlePut
  split_ifs
  · exact ⟨.answer _, fun _ _ => rfl⟩
  · cases keyField request.body with
    | error response => exact ⟨.answer _, fun _ _ => rfl⟩
    | ok key =>
      cases valueField request.body with
      | error response => exact ⟨.answer _, fun _ _ => rfl⟩
      | ok value =>
        refine ⟨.call (.put key value) fun
          | .ok _ => .ok (ofText "\x7b\"status\": \"OK\"\x7d")
          | .error _ => .error 500 "Failed to put data", fun database s => ?_⟩
        simp only [Task.run, FullDatabase.perform]
        rcases database.put key value s with ⟨_ | _, _⟩ <;> rfl

theorem isTask_handleGet (request : HttpRequest) :
    ∃ task, IsTask (fun database => handleGet database.toDatabase request) task := by
  unfold handleGet
  cases request.queryParams[ofText "key"]? with
  | none => exact ⟨.answer _, fun _ _ => rfl⟩
  | some key =>
    refine ⟨.call (.get key) fun
      | .ok value => .ok (ofText "\x7b\"key\": \"" ++ jsonEscape key ++ ofText "\", \"value\": \"" ++
        jsonEscape value ++ ofText "\"\x7d")
      | .error e => if e = .keyNotFound then .error 404 "Key not found"
        else .error 500 "Failed to get data", fun database s => ?_⟩
    simp only [Task.run, FullDatabase.perform]
    rcases database.get key s with ⟨e | _, _⟩
    · cases e <;> rfl
    · rfl

theorem isTask_handleDelete (request : HttpRequest) :
    ∃ task, IsTask (fun database => handleDelete database.toDatabase request) task := by
  unfold handleDelete
  cases request.queryParams[ofText "key"]? with
  | none => exact ⟨.answer _, fun _ _ => rfl⟩
  | some key =>
    refine ⟨.call (.remove key) fun
      | .ok _ => .ok (ofText "\x7b\"status\": \"OK\"\x7d")
      | .error _ => .error 500 "Failed to delete data", fun database s => ?_⟩
    simp only [Task.run, FullDatabase.perform]
    rcases database.remove key s with ⟨_ | _, _⟩ <;> rfl

theorem isTask_handleListKeys (request : HttpRequest) :
    ∃ task, IsTask (fun database => handleListKeys database.toDatabase request) task := by
  refine ⟨.call .listKeys fun
    | .ok keys => .ok (91 :: (Json.writeItems quoted keys ++ [93]))
    | .error _ => .error 500 "Failed to list keys", fun database s => ?_⟩
  simp only [Task.run, FullDatabase.perform, handleListKeys]
  rcases database.listKeys s with ⟨_ | _, _⟩ <;> rfl

theorem isTask_handleStat (request : HttpRequest) :
    ∃ task, IsTask (fun database => handleStat database request) task := by
  refine ⟨.call .stat fun
    | .ok stat => .ok (statText stat)
    | .error _ => .error 500 "Failed to get statistics", fun database s => ?_⟩
  simp only [Task.run, FullDatabase.perform, handleStat]
  rcases database.stat s with ⟨_ | _, _⟩ <;> rfl

/-- A request that there is no default handler for. -/
theorem unhandled_defaultHandlers (database : FullDatabase σ) (request : Received) :
    unhandled (defaultHandlers database) request =
      if request.method = ofText "POST" ∨ request.method = ofText "GET" ∨
          request.method = ofText "DELETE" then .error 404 "Not found"
      else .error 405 "Method not allowed" := by
  refine if_congr ?_ rfl rfl
  simp [defaultHandlers, eq_comm]
  tauto

theorem isTask_respond (request : Received) : ∃ task, IsTask (fun database state =>
    (setupDefaultHandlers database).respond request state) task := by
  have hok {handle : {σ : Type} → FullDatabase σ → HttpRequest → σ → HttpResponse × σ}
      (h : ∃ task, IsTask (fun database => handle database request.toHttpRequest) task) :
      ∃ task, IsTask (fun database state =>
        HttpHandler.ofHandle (handle database) request state) task := by
    obtain ⟨task, htask⟩ := h
    exact ⟨task.map Except.ok, htask.map Except.ok⟩
  simp only [respond_setupDefaultHandlers, unhandled_defaultHandlers]
  split_ifs
  · exact hok (isTask_handleStat _)
  · exact hok (isTask_handleListKeys _)
  · exact hok (isTask_handleDelete _)
  · exact hok (isTask_handleGet _)
  · exact hok (isTask_handlePut _)
  · exact ⟨.answer _, fun _ _ => rfl⟩
  · exact ⟨.answer _, fun _ _ => rfl⟩

/-- The text that is sent for an answer. -/
def sentFor : Except StdException HttpResponse → Bytes
  | .ok response => buildResponse response
  | .error _ => buildResponse (.error 500 "Internal server error")

theorem handleConnection_of_ne (unset : Bytes → ℤ) {received : Bytes} (h : received ≠ [])
    (state : σ) : server.handleConnection unset received state =
      (sentFor (server.respond (parseRequest unset (cString received)) state).1,
        (server.respond (parseRequest unset (cString received)) state).2) := by
  rw [handleConnection, if_neg h]
  rcases server.respond (parseRequest unset (cString received)) state with ⟨_ | _, _⟩ <;> rfl

/-- A connection calls the database once at most, whatever is received. -/
theorem isTask_handleConnection (unset : Bytes → ℤ) (received : Bytes) :
    ∃ task, IsTask (fun database state =>
      (setupDefaultHandlers database).handleConnection unset received state) task := by
  by_cases hreceived : received = []
  · exact ⟨.answer [], fun _ _ => if_pos hreceived⟩
  · obtain ⟨task, htask⟩ := isTask_respond (parseRequest unset (cString received))
    refine ⟨task.map sentFor, fun {σ} database state => ?_⟩
    have hmap := htask.map sentFor database state
    rw [← hmap]
    exact handleConnection_of_ne _ unset hreceived state

end HttpServer

/-- The HTTP server. -/
def server (unset : Bytes → ℤ) : Server where
  handleConnection database received :=
    (HttpServer.setupDefaultHandlers database).handleConnection unset received
  isTask := HttpServer.isTask_handleConnection unset

end Bitcask.Http
