import Bitcask.DBIterator
import Bitcask.Library.Interleaving
import Bitcask.LiveIterators
import Bitcask.ReadYourWrites
import Bitcask.Redis.Handlers
import Bitcask.Redis.Interference

/-!
# The Redis layer over the store

The operations of the Redis layer are studied over a map. Here they run over the store
(`Backend`): what they put is appended to the data file, and their iterators go through the
index. The backend notes whether every request so far has been one that may be made
(`Backend.Admits`): its key is not empty, and its record is neither too large nor lost to a
rotation. Only a client that is alone may go through the keys.

As long as this is so, the backend replies as a map does, with any type of index
(`Backend.simulates`). So clients whose requests are interleaved in any way cannot tell the
store from a map (`Backend.threads_run`), and the bytes a server sends are those of a server
over a map, whatever it receives (`Backend.handleConnection`).
-/

namespace Bitcask.Redis

open Framing Transaction DataFile Guarantee FuelLoop

/-! ## The backend -/

/-- The store behind the Redis layer: the process that has it open, and the clock. -/
structure Backend (ι : Type) where
  proc : Proc ι
  clock : Clock
  /-- Several clients take turns at it. -/
  shared : Bool := false
  /-- Every request has been one that may be made. -/
  admitted : Bool := true

/-! ## Servers over related states -/

/-- Both are values, or both are exceptions, and they are related. -/
inductive ExceptRel {ε ε' α α' : Type} (Q : ε → ε' → Prop) (R : α → α' → Prop) :
    Except ε α → Except ε' α' → Prop
  | ok {a : α} {a' : α'} (h : R a a') : ExceptRel Q R (.ok a) (.ok a')
  | error {e : ε} {e' : ε'} (h : Q e e') : ExceptRel Q R (.error e) (.error e')

section Servers

variable {σ τ : Type} {fine : σ → Prop} {Related : σ → τ → Prop}

/-- Connections that have been dispatched and have sent the same, with related states. -/
structure Connection.Alike (Related : σ → τ → Prop) (conn : Connection σ) (conn' : Connection τ) :
    Prop where
  state : Related conn.state conn'.state
  dispatched : conn.dispatched = conn'.dispatched
  sent : conn.sent = conn'.sent

theorem Connection.Alike.send {conn : Connection σ} {conn' : Connection τ}
    (h : conn.Alike Related conn') (response : RedisResponse) :
    (conn.send response).Alike Related (conn'.send response) :=
  ⟨h.state, h.dispatched, congrArg (· ++ response.serialize) h.sent⟩

namespace RedisServer

/-- The answers of a server are those of another one on related states, as long as its own
    states are fine: a state that is not fine stays so. -/
structure Simulates (server : RedisServer σ) (server' : RedisServer τ) (fine : σ → Prop)
    (Related : σ → τ → Prop) : Prop where
  fine_of_respond : ∀ command s, fine (server.respond command s).2 → fine s
  respond : ∀ command s t, Related s t → fine (server.respond command s).2 →
    (server.respond command s).1 = (server'.respond command t).1 ∧
      Related (server.respond command s).2 (server'.respond command t).2

/-- The connection of a loop that has ended. -/
def ended : Except (Connection σ) (ℕ × Connection σ) → Connection σ
  | .error conn => conn
  | .ok s => s.2

/-- The loops have got as far, with connections that are alike. -/
def At (Related : σ → τ → Prop) (s : ℕ × Connection σ) (s' : ℕ × Connection τ) : Prop :=
  s.1 = s'.1 ∧ s.2.Alike Related s'.2

namespace Simulates

variable {server : RedisServer σ} {server' : RedisServer τ} {conn : Connection σ}
  {conn' : Connection τ}

theorem state_last_dispatch (conn : Connection σ) (command : RedisCommand) :
    (last (server.dispatch conn command)).state = (server.respond command conn.state).2 := by
  simp only [RedisServer.dispatch]
  split
  · rfl
  · split <;> rfl

theorem dispatch (h : Simulates server server' fine Related) (hconn : conn.Alike Related conn')
    (command : RedisCommand) (hfine : fine (last (server.dispatch conn command)).state) :
    ExceptRel (Connection.Alike Related) (Connection.Alike Related) (server.dispatch conn command)
      (server'.dispatch conn' command) := by
  rw [state_last_dispatch] at hfine
  obtain ⟨hanswer, hstate⟩ := h.respond command _ _ hconn.state hfine
  have hnext : Connection.Alike Related
      { conn with
        state := (server.respond command conn.state).2
        dispatched := conn.dispatched ++ [command] }
      { conn' with
        state := (server'.respond command conn'.state).2
        dispatched := conn'.dispatched ++ [command] } :=
    ⟨hstate, congrArg (· ++ [command]) hconn.dispatched, hconn.sent⟩
  simp only [RedisServer.dispatch, ← hanswer]
  cases (server.respond command conn.state).1 with
  | error e => exact .error (hnext.send _)
  | ok response =>
    by_cases hquit : command.IsQuit
    · simp only [if_pos hquit]
      exact .error (hnext.send _)
    · simp only [if_neg hquit]
      exact .ok (hnext.send _)

theorem pass (h : Simulates server server' fine Related) {data : Bytes} {s : ℕ × Connection σ}
    {s' : ℕ × Connection τ} (hs : At Related s s')
    (hfine : (server.pass data s).All (fun s => fine s.2.state) fun r => fine (ended r).state) :
    Pass.Rel (At Related) (ExceptRel (Connection.Alike Related) (At Related))
      (server.pass data s) (server'.pass data s') := by
  obtain ⟨processed, conn⟩ := s
  obtain ⟨_, conn'⟩ := s'
  obtain ⟨rfl, hconn⟩ := hs
  simp only [RedisServer.pass] at hfine ⊢
  by_cases hlt : processed < data.length
  · by_cases hstar : data[processed]? = some 42
    · simp only [if_pos hlt, if_pos hstar] at hfine ⊢
      cases hparse : parseSingleCommand data processed with
      | error e => exact .done (.error (hconn.send _))
      | ok parsed =>
        obtain ⟨command, next⟩ := parsed
        simp only [hparse] at hfine ⊢
        by_cases hargs : command.args = []
        · simp only [if_pos hargs]
          exact .done (.ok ⟨rfl, hconn⟩)
        · simp only [if_neg hargs] at hfine ⊢
          have hstate : fine (last (server.dispatch conn command)).state := by
            cases hd : server.dispatch conn command with
            | error conn₁ =>
              rw [hd] at hfine
              exact hfine
            | ok conn₁ =>
              rw [hd] at hfine
              by_cases hnext : next = processed
              · simp only [if_pos hnext] at hfine
                exact hfine
              · simp only [if_neg hnext] at hfine
                exact hfine
          have hrel := h.dispatch hconn command hstate
          generalize server.dispatch conn command = x, server'.dispatch conn' command = y at hrel
          cases hrel with
          | error hconn => exact .done (.error hconn)
          | ok hconn =>
            by_cases hnext : next = processed
            · simp only [if_pos hnext]
              exact .done (.ok ⟨rfl, hconn⟩)
            · simp only [if_neg hnext]
              exact .again ⟨rfl, hconn⟩
    · simp only [if_pos hlt, if_neg hstar]
      exact .again ⟨rfl, hconn⟩
  · simp only [if_neg hlt]
    exact .done (.ok ⟨rfl, hconn⟩)

theorem fine_of_pass (h : Simulates server server' fine Related) {data : Bytes}
    {s : ℕ × Connection σ}
    (hfine : (server.pass data s).All (fun s => fine s.2.state) fun r => fine (ended r).state) :
    fine s.2.state := by
  cases hpass : server.pass data s with
  | again t =>
    rw [hpass] at hfine
    obtain ⟨-, rfl | ⟨-, command, -, -, hd⟩⟩ := pass_again hpass
    · exact hfine
    · refine h.fine_of_respond command _ ?_
      rw [← state_last_dispatch, hd]
      exact hfine
  | done r =>
    rw [hpass] at hfine
    obtain ⟨-, rfl⟩ | ⟨-, ⟨e, rfl⟩ | ⟨command, n, -, ⟨-, rfl⟩ | ⟨-, hd⟩⟩⟩ := pass_done hpass
    · exact hfine
    · exact hfine
    · exact hfine
    · refine h.fine_of_respond command _ ?_
      rw [← state_last_dispatch]
      obtain ⟨conn, hd, rfl⟩ | ⟨conn, hd, -, rfl⟩ := hd <;> exact hd ▸ hfine

theorem fine_of_end (h : Simulates server server' fine Related) {data : Bytes} {fuel : ℕ}
    {s : ℕ × Connection σ} {r : Except (Connection σ) (ℕ × Connection σ)}
    (hloop : loop (server.pass data) fuel s = some r) (hfine : fine (ended r).state) :
    fine s.2.state :=
  fine_of_loop (fun s => fine s.2.state) (fun r => fine (ended r).state) (fun _ => h.fine_of_pass)
    hloop hfine

theorem fine_of_receive (h : Simulates server server' fine Related) {fuel : ℕ} {data : Bytes}
    {buffers : List Bytes} {conn₁ : Connection σ}
    (hrun : server.receive fuel conn data buffers = some conn₁) (hfine : fine conn₁.state) :
    fine conn.state := by
  induction buffers generalizing conn data with
  | nil =>
    cases hrun
    exact hfine
  | cons buffer buffers ih =>
    rw [receive] at hrun
    split at hrun
    · cases hrun
      exact hfine
    · dsimp only at hrun
      split at hrun
      · cases hrun
      · next hloop =>
        cases hrun
        exact h.fine_of_end hloop hfine
      · next hloop => exact h.fine_of_end hloop (ih hrun)

/-- Servers that answer alike leave connections alike, whatever they receive. -/
theorem receive (h : Simulates server server' fine Related) {fuel : ℕ} {data : Bytes}
    {buffers : List Bytes} {conn₁ : Connection σ} (hconn : conn.Alike Related conn')
    (hrun : server.receive fuel conn data buffers = some conn₁) (hfine : fine conn₁.state) :
    ∃ conn₁', server'.receive fuel conn' data buffers = some conn₁' ∧
      conn₁.Alike Related conn₁' := by
  induction buffers generalizing conn conn' data with
  | nil =>
    cases hrun
    exact ⟨conn', rfl, hconn⟩
  | cons buffer buffers ih =>
    rw [RedisServer.receive] at hrun ⊢
    by_cases hempty : buffer = []
    · rw [if_pos hempty] at hrun ⊢
      cases hrun
      exact ⟨conn', rfl, hconn⟩
    · simp only [if_neg hempty] at hrun ⊢
      have hrelated {r : Except (Connection σ) (ℕ × Connection σ)}
          (hloop : loop (server.pass (data ++ cString buffer)) fuel (0, conn) = some r)
          (hr : fine (ended r).state) :=
        loop_related (fun _ => h.fine_of_pass) (fun _ _ => h.pass)
          (show At Related (0, conn) (0, conn') from ⟨rfl, hconn⟩) hloop hr
      cases hloop : loop (server.pass (data ++ cString buffer)) fuel (0, conn) with
      | none =>
        rw [hloop] at hrun
        cases hrun
      | some r =>
        rw [hloop] at hrun
        cases r with
        | error conn₂ =>
          cases hrun
          obtain ⟨_, hloop', hend⟩ := hrelated hloop hfine
          cases hend with
          | error hend =>
            rw [hloop']
            exact ⟨_, rfl, hend⟩
        | ok s =>
          obtain ⟨_, hloop', hend⟩ := hrelated hloop (h.fine_of_receive hrun hfine)
          cases hend with
          | ok hend =>
            obtain ⟨hprocessed, hend⟩ := hend
            rw [hloop']
            exact ih hend (hprocessed ▸ hrun)

end Simulates

/-! ### Handlers -/

/-- Handlers that answer alike. -/
structure HandlesAlike (fine : σ → Prop) (Related : σ → τ → Prop) (handler : RedisCommandHandler σ)
    (handler' : RedisCommandHandler τ) : Prop where
  fine_of : ∀ args s, fine (handler args s).2 → fine s
  answer : ∀ args s t, Related s t → fine (handler args s).2 →
    (handler args s).1 = (handler' args t).1 ∧ Related (handler args s).2 (handler' args t).2

theorem handlesAlike_onDatabase {database : Database σ} {database' : Database τ}
    (h : Program.Simulates database database' fine Related)
    (handle : List Bytes → Operation RedisResponse) :
    HandlesAlike fine Related (onDatabase database handle) (onDatabase database' handle) where
  fine_of args s := h.fine_of_run (handle args)
  answer args s t hst hfine := by
    obtain ⟨hresult, hstate⟩ := h.run (handle args) hst hfine
    exact ⟨congrArg (Except.mapError fun e : Exn => (⟨ofText e.what⟩ : StdException)) hresult, hstate⟩

/-- Handlers that do not look at the state. -/
theorem handlesAlike_of_stateless {answer : List Bytes → Except StdException RedisResponse}
    {handler : RedisCommandHandler σ} {handler' : RedisCommandHandler τ}
    (h : ∀ args s, handler args s = (answer args, s))
    (h' : ∀ args s, handler' args s = (answer args, s)) :
    HandlesAlike fine Related handler handler' where
  fine_of args s hfine := by
    rwa [h] at hfine
  answer args s t hst _ := by
    rw [h, h']
    exact ⟨rfl, hst⟩

/-- Servers whose handlers answer alike answer alike. -/
theorem simulates_of_handlers {server : RedisServer σ} {server' : RedisServer τ}
    (h : ∀ cmd, Option.Rel (HandlesAlike fine Related) (server.commandHandlers cmd)
      (server'.commandHandlers cmd)) : Simulates server server' fine Related := by
  constructor
  · intro command s hfine
    have hcmd := h command.cmd
    rw [RedisServer.respond] at hfine
    generalize server.commandHandlers command.cmd = handler,
      server'.commandHandlers command.cmd = handler' at hcmd hfine
    cases hcmd with
    | none => exact hfine
    | some halike => exact halike.fine_of _ _ hfine
  · intro command s t hst hfine
    have hcmd := h command.cmd
    rw [RedisServer.respond] at hfine ⊢
    rw [RedisServer.respond]
    generalize server.commandHandlers command.cmd = handler,
      server'.commandHandlers command.cmd = handler' at hcmd hfine
    cases hcmd with
    | none => exact ⟨rfl, hst⟩
    | some halike => exact halike.answer _ _ _ hst hfine

theorem foldl_registerCommand_alike {commands : List (String × RedisCommandHandler σ)}
    {commands' : List (String × RedisCommandHandler τ)}
    (h : List.Forall₂ (fun c c' => c.1 = c'.1 ∧ HandlesAlike fine Related c.2 c'.2) commands commands')
    {server : RedisServer σ} {server' : RedisServer τ}
    (hserver : ∀ cmd, Option.Rel (HandlesAlike fine Related) (server.commandHandlers cmd)
      (server'.commandHandlers cmd)) (cmd : Bytes) :
    Option.Rel (HandlesAlike fine Related)
      ((commands.foldl (fun server command => server.registerCommand (ofText command.1) command.2)
        server).commandHandlers cmd)
      ((commands'.foldl (fun server command => server.registerCommand (ofText command.1) command.2)
        server').commandHandlers cmd) := by
  induction h generalizing server server' with
  | nil => exact hserver cmd
  | cons hc _ ih =>
    refine ih fun cmd => ?_
    simp only [registerCommand, ← hc.1]
    split
    · exact .some hc.2
    · exact hserver cmd

/-- A server over one database answers as over another one that it cannot tell from the first. -/
theorem setupDefaultHandlers_simulates {database : Database σ} {database' : Database τ}
    (h : Program.Simulates database database' fine Related) (doubles : Doubles) :
    Simulates (setupDefaultHandlers database doubles) (setupDefaultHandlers database' doubles) fine
      Related := by
  refine simulates_of_handlers (foldl_registerCommand_alike ?_ fun _ => .none)
  have hon := handlesAlike_onDatabase h
  have hpinged {σ : Type} (args : List Bytes) (s : σ) :
      handlePing args s = ((handlePing args ()).1, s) := by
    unfold handlePing
    split <;> rfl
  have hping : HandlesAlike fine Related handlePing handlePing :=
    handlesAlike_of_stateless hpinged hpinged
  have hquit : HandlesAlike fine Related handleQuit handleQuit :=
    handlesAlike_of_stateless (fun _ _ => rfl) fun _ _ => rfl
  unfold defaultHandlers
  repeat' first | exact .nil | refine List.Forall₂.cons ⟨rfl, ?_⟩ ?_
  all_goals first | exact hon _ | exact hping | exact hquit

end RedisServer

end Servers

namespace Backend

section Handle

variable {ι It : Type} [Indexer ι] [Cursor It Bytes Item] [OrderedIndex ι It]

/-- Requests that may be made of a store. Going through the keys is one request only if no
    other client writes between the steps of the iterator. -/
def Admits (s : Backend ι) : Command → Prop
  | .get key => key ≠ []
  | .put key value => key ≠ [] ∧ (⟨s.proc, []⟩ : Session ι).InPlace (.put key value)
  | .remove key => key ≠ [] ∧ (⟨s.proc, []⟩ : Session ι).InPlace (.remove key)
  | .iterate => s.shared = false
  | .now => True

instance (s : Backend ι) : (c : Command) → Decidable (Admits s c)
  | .get key => inferInstanceAs (Decidable (key ≠ []))
  | .put _ _ => inferInstanceAs (Decidable (_ ∧ _))
  | .remove _ => inferInstanceAs (Decidable (_ ∧ _))
  | .iterate => inferInstanceAs (Decidable (_ = _))
  | .now => .isTrue trivial

/-- Notes whether a request may be made. -/
def note (c : Command) (s : Backend ι) : Backend ι :=
  { s with admitted := s.admitted && decide (Admits s c) }

/-- What a request returns or throws, and the backend after it. -/
def perform (m : DBM ι Unit) (s : Backend ι) : Except Exn Unit × Backend ι :=
  let r := m.run s.proc
  ((exn? r).elim (.ok ()) .error, { s with proc := finalState r })

/-- The keys an iterator without a prefix goes through. -/
def iterated (p : Proc ι) : List Bytes :=
  (p.db.visited {} [.rewind]).elim [] (List.map Prod.fst)

/-- The reply of the store, and the backend after it. An iterator that is stepped to the end
    without another request in between goes through the keys there are when it is made. -/
def handle (c : Command) (s : Backend ι) : c.Reply × Backend ι :=
  match c with
  | .get key => (s.proc.db.get s.proc.world.fs key, s.note (.get key))
  | .put key value => (s.note (.put key value)).perform (Bitcask.DB.put key value)
  | .remove key => (s.note (.remove key)).perform (Bitcask.DB.remove key)
  | .iterate => (iterated s.proc, s.note .iterate)
  | .now => (s.clock 0, { s.note .now with clock := fun n => s.clock (n + 1) })

theorem admitted_note {c : Command} {s : Backend ι} (h : (s.note c).admitted = true) :
    s.admitted = true ∧ Admits s c := by
  simpa [note] using h

theorem admitted_handle {c : Command} {s : Backend ι} (h : (handle c s).2.admitted = true) :
    s.admitted = true ∧ Admits s c := by
  cases c <;> exact admitted_note h

end Handle

/-! ## The backend and the map -/

section Holds

variable {ι It : Type} [Cursor It Bytes Item] [OrderedIndex ι It] {p₀ p : Proc (ModelledIndex ι)}
  {entries : Entries}

/-- The entries are what is read of a process, which goes on from an earlier one. -/
def Holds (p₀ p : Proc (ModelledIndex ι)) (entries : Entries) : Prop :=
  ∃ records zeros, Session.Ongoing true p₀ ⟨p, []⟩ records zeros ∧ (∀ r ∈ records, r.Readable) ∧
    ∀ k, Option.Rel (HasValue records) (Indexer.get p.db.index k) entries[k]?

/-- A backend and a map with the same entries, at the same time. -/
def Related (p₀ : Proc (ModelledIndex ι)) (s : Backend (ModelledIndex ι)) (t : MapDB) : Prop :=
  s.clock = t.clock ∧ Holds p₀ s.proc t.entries

theorem Holds.get_eq (h : Holds p₀ p entries) {key : Bytes} (hkey : key ≠ []) :
    p.db.get p.world.fs key = entries[key]?.elim (.error .keyNotFound) .ok := by
  obtain ⟨records, zeros, hongoing, hreadable, hindex⟩ := h
  rw [Session.get_of_hasValue hongoing.stored hreadable hindex hkey]
  cases entries[key]? <;> rfl

/-- An iterator goes through the keys of the entries. -/
theorem Holds.iterated_eq (h : Holds p₀ p entries) : iterated p = entries.keys := by
  obtain ⟨records, zeros, -, -, hindex⟩ := h
  obtain ⟨items, hitems, hvisited⟩ := p.db.visited_all p.db.index.models_get false
  rw [iterated, hvisited]
  refine hitems.sorted.eq_of_mem_iff Std.TreeMap.ordered_keys fun k => ?_
  have hk := hindex k
  rw [hitems.isSome_iff, Std.TreeMap.mem_keys, Std.TreeMap.mem_iff_isSome_getElem?]
  show (Indexer.get p.db.index k).isSome ↔ _
  generalize Indexer.get p.db.index k = pos, entries[k]? = value at hk
  cases hk <;> simp

/-- A request whose write is acknowledged has returned. -/
theorem run_of_acknowledged {m : DBM (ModelledIndex ι) Unit} {write : Write}
    (h : ((⟨p, []⟩ : Session _).request m [write]).2 = [write]) :
    m.run p = .ok () ((⟨p, []⟩ : Session _).request m [write]).1.proc := by
  unfold Session.request at h ⊢
  split at h
  · rename_i hrun
    exact hrun
  · cases h

/-- A write changes the entries. -/
theorem Holds.write (h : Holds p₀ p entries) (hnil : p₀.writeOutcomes = []) {op : Op}
    {m : DBM (ModelledIndex ι) Unit} {write : Write}
    (hstep : (⟨p, []⟩ : Session _).step op = (⟨p, []⟩ : Session _).request m [write])
    (hrequested : (⟨p, []⟩ : Session _).requested op = [write])
    (hop : (⟨p, []⟩ : Session _).InPlace op) {entries' : Entries}
    (hentries : ∀ k, entries'[k]? = overlay [write] (fun k => entries[k]?) k) :
    ∃ q, m.run p = .ok () q ∧ Holds p₀ q entries' := by
  obtain ⟨records, zeros, hongoing, hreadable, hindex⟩ := h
  obtain ⟨⟨appended, hpre, hstored, heffect⟩, hrest, hack⟩ := hongoing.performed hop.1
  have hacks := hack (hongoing.rest.writes_nil hnil)
  rw [hrequested] at hacks
  have hrun : m.run p = .ok () ((⟨p, []⟩ : Session _).step op).1.proc := by
    rw [hstep]
    exact run_of_acknowledged (hstep ▸ hacks)
  refine ⟨_, hrun, records ++ appended, _, ⟨hstored, hongoing.rest.trans hrest,
    hrest.noShortWrites hongoing.noShortWrites⟩,
    List.forall_mem_append.2 ⟨hreadable, heffect.readable hop.2 hpre⟩, fun k => ?_⟩
  rw [hentries, ← hacks]
  exact Session.hasValue_overlay hindex heffect k

theorem Holds.put (h : Holds p₀ p entries) (hnil : p₀.writeOutcomes = []) {key value : Bytes}
    (hkey : key ≠ []) (hplace : (⟨p, []⟩ : Session _).InPlace (.put key value)) :
    ∃ q, (Bitcask.DB.put key value : DBM _ Unit).run p = .ok () q ∧
      Holds p₀ q (entries.insert key value) := by
  have hrequested : (⟨p, []⟩ : Session _).requested (.put key value) = [(key, some value)] :=
    if_neg hkey
  refine h.write hnil rfl hrequested hplace fun k => ?_
  rw [Entries.getElem?_insert, overlay_cons, overlay_nil, Function.update_apply]

theorem Holds.remove (h : Holds p₀ p entries) (hnil : p₀.writeOutcomes = []) {key : Bytes}
    (hkey : key ≠ []) (hplace : (⟨p, []⟩ : Session _).InPlace (.remove key)) :
    ∃ q, (Bitcask.DB.remove key : DBM _ Unit).run p = .ok () q ∧
      Holds p₀ q (entries.erase key) := by
  have hrequested : (⟨p, []⟩ : Session _).requested (.remove key) = [(key, none)] := if_neg hkey
  refine h.write hnil rfl hrequested hplace fun k => ?_
  rw [Entries.getElem?_erase, overlay_cons, overlay_nil, Function.update_apply]

theorem perform_ok {m : DBM (ModelledIndex ι) Unit} {s : Backend (ModelledIndex ι)}
    {q : Proc (ModelledIndex ι)} (h : m.run s.proc = .ok () q) :
    perform m s = (.ok (), { s with proc := q }) := by
  rw [perform, h]
  rfl

theorem handle_get (key : Bytes) (t : MapDB) :
    MapDB.handle (.get key) t = (t.entries[key]?.elim (.error .keyNotFound) .ok, t) := by
  cases h : t.entries[key]? with
  | none => exact MapDB.handle_get_of_none h
  | some value => exact MapDB.handle_get_of_some h

/-- The backend replies as a map, as long as its requests may be made. -/
theorem simulates (hnil : p₀.writeOutcomes = []) :
    Program.Simulates (handle (ι := ModelledIndex ι)) MapDB.handle (fun s => s.admitted = true)
      (Related p₀) where
  fine_of_next _ _ h := (admitted_handle h).1
  next c s t := by
    rintro ⟨hclock, h⟩ hadmitted
    have hadmits := (admitted_handle hadmitted).2
    cases c with
    | get key =>
      rw [handle_get]
      exact ⟨h.get_eq hadmits, hclock, h⟩
    | put key value =>
      obtain ⟨q, hrun, hq⟩ := h.put hnil hadmits.1 hadmits.2
      have hperform : handle (.put key value) s = _ := perform_ok (s := s.note (.put key value)) hrun
      rw [hperform]
      exact ⟨rfl, hclock, hq⟩
    | remove key =>
      obtain ⟨q, hrun, hq⟩ := h.remove hnil hadmits.1 hadmits.2
      have hperform : handle (.remove key) s = _ := perform_ok (s := s.note (.remove key)) hrun
      rw [hperform]
      exact ⟨rfl, hclock, hq⟩
    | iterate => exact ⟨h.iterated_eq, hclock, h⟩
    | now => exact ⟨congrFun hclock 0, congrArg (fun clock n => clock (n + 1)) hclock, h⟩

/-- A new store holds nothing. -/
theorem holds_of_made {options : Options} {w w' : World} {db : DB (ModelledIndex ι)}
    (hmade : Made options w db w') (hio : ∀ c, w.outcomes c = []) :
    (⟨db, w'⟩ : Proc _).writeOutcomes = [] ∧ Holds ⟨db, w'⟩ ⟨db, w'⟩ ∅ := by
  have hnone (c : Bitcask.Call) : w'.outcomes c = [] := by rw [hmade.outcomes, hio]
  have hwrites : (⟨db, w'⟩ : Proc _).writeOutcomes = [] := hnone _
  refine ⟨hwrites, [], 0, ⟨hmade.stored, .refl _, hnone _, ?_⟩, nofun, fun k => ?_⟩
  · rw [hwrites]
    exact nofun
  · rw [hmade.index, Std.TreeMap.getElem?_emptyc]
    exact .none

/-! ## Clients -/

/-- Clients whose requests to a new store are interleaved in any way get what they get from a
    map, and the values stored are those of the map, as long as no request is made that may
    not be made. None of them may go through the keys. -/
theorem threads_run {κ α : Type} [DecidableEq κ] {options : Options} {w : World} (hfresh : Fresh options w)
    (hio : ∀ c, w.outcomes c = []) :
    ∃ (db : DB (ModelledIndex ι)) (w' : World),
      (Bitcask.DB.open options : Sys (DB (ModelledIndex ι))).run w = .ok db w' ∧
      ∀ (programs : κ → Operation α) (clock : Clock) (schedule : List κ),
        let t := Threads.run handle
          ⟨{ proc := ⟨db, w'⟩, clock := clock, shared := true }, programs⟩ schedule
        let t' := Threads.run MapDB.handle ⟨⟨∅, clock⟩, programs⟩ schedule
        t.state.admitted = true →
          t.program = t'.program ∧ ∀ key ≠ [],
            t.state.proc.db.get t.state.proc.world.fs key =
              t'.state.entries[key]?.elim (.error .keyNotFound) .ok := by
  obtain ⟨db, w', hopen, hmade⟩ := hfresh.open (ι := ModelledIndex ι)
  obtain ⟨hwrites, hholds⟩ := holds_of_made hmade hio
  refine ⟨db, w', hopen, fun programs clock schedule hadmitted => ?_⟩
  obtain ⟨hprogram, -, hend⟩ := Threads.run_simulates (simulates hwrites)
    (t := ⟨{ proc := ⟨db, w'⟩, clock := clock, shared := true }, programs⟩)
    (show _ = Threads.program ⟨(⟨∅, clock⟩ : MapDB), programs⟩ from rfl) ⟨rfl, hholds⟩ hadmitted
  exact ⟨hprogram, fun key hkey => hend.get_eq hkey⟩

/-- An element is pushed and a field is set, of different keys. -/
def pushAndSet : Bool → Operation Reply
  | false => (Request.lpush [108] [97]).operation
  | true => (Request.hset [104] [102] [118]).operation

/-- The turns of the clients alternate. -/
theorem threads_run_pushAndSet : ∃ (db : DB (ModelledIndex BTreeIndex)) (w' : World),
    (Bitcask.DB.open ⟨['d'], 1000, false⟩ : Sys (DB (ModelledIndex BTreeIndex))).run { fs := ∅ } =
        .ok db w' ∧
      let t := Threads.run handle
        ⟨{ proc := ⟨db, w'⟩, clock := fun n => .ofNat n, shared := true }, pushAndSet⟩
        [false, true, false, true, false, true, false, true, true]
      let t' := Threads.run MapDB.handle ⟨⟨∅, fun n => .ofNat n⟩, pushAndSet⟩
        [false, true, false, true, false, true, false, true, true]
      t.program = t'.program ∧ t.state.proc.db.get t.state.proc.world.fs [108] =
        t'.state.entries[([108] : Bytes)]?.elim (.error .keyNotFound) .ok := by
  obtain ⟨db, w', hopen, h⟩ := threads_run (κ := Bool) (α := Reply) (ι := BTreeIndex)
    (Session.fresh_empty (by decide : 1000 ≠ 0) false) fun _ => rfl
  have hadmitted : (value? ((Bitcask.DB.open ⟨['d'], 1000, false⟩ :
      Sys (DB (ModelledIndex BTreeIndex))).run { fs := ∅ })).any (fun db => (Threads.run handle
        ⟨{ proc := ⟨db, finalState ((Bitcask.DB.open ⟨['d'], 1000, false⟩ :
          Sys (DB (ModelledIndex BTreeIndex))).run { fs := ∅ })⟩
           clock := fun n => .ofNat n
           shared := true }, pushAndSet⟩
        [false, true, false, true, false, true, false, true, true]).state.admitted) = true := by
    decide +kernel
  simp only [hopen, value?, Option.any_some, finalState_ok] at hadmitted
  obtain ⟨hprogram, hget⟩ := h pushAndSet (fun n => .ofNat n) _ hadmitted
  exact ⟨db, w', hopen, hprogram, hget [108] (by decide)⟩

/-! ## Servers -/

/-- Whatever bytes a server receives, it sends what it sends over a map, and the values
    stored are those of the map, as long as no request is made that may not be made. -/
theorem handleConnection {options : Options} {w : World} (hfresh : Fresh options w)
    (hio : ∀ c, w.outcomes c = []) :
    ∃ (db : DB (ModelledIndex ι)) (w' : World),
      (Bitcask.DB.open options : Sys (DB (ModelledIndex ι))).run w = .ok db w' ∧
      ∀ (doubles : Doubles) (clock : Clock) (fuel : ℕ) (buffers : List Bytes)
        (conn : Connection (Backend (ModelledIndex ι))),
        (RedisServer.setupDefaultHandlers handle doubles).handleConnection fuel
          { proc := ⟨db, w'⟩, clock := clock } buffers = some conn →
        conn.state.admitted = true →
          ∃ conn', (RedisServer.setupDefaultHandlers MapDB.handle doubles).handleConnection fuel
              ⟨∅, clock⟩ buffers = some conn' ∧
            conn.sent = conn'.sent ∧ conn.dispatched = conn'.dispatched ∧ ∀ key ≠ [],
              conn.state.proc.db.get conn.state.proc.world.fs key =
                conn'.state.entries[key]?.elim (.error .keyNotFound) .ok := by
  obtain ⟨db, w', hopen, hmade⟩ := hfresh.open (ι := ModelledIndex ι)
  obtain ⟨hwrites, hholds⟩ := holds_of_made hmade hio
  refine ⟨db, w', hopen, fun doubles clock fuel buffers conn hrun hadmitted => ?_⟩
  have hstart : Connection.Alike (Related ⟨db, w'⟩)
      ⟨{ proc := ⟨db, w'⟩, clock := clock }, [], []⟩ ⟨⟨∅, clock⟩, [], []⟩ :=
    ⟨⟨rfl, hholds⟩, rfl, rfl⟩
  obtain ⟨conn', hrun', hend⟩ :=
    (RedisServer.setupDefaultHandlers_simulates (simulates hwrites) doubles).receive hstart hrun
      hadmitted
  exact ⟨conn', hrun', hend.sent, hend.dispatched, fun key hkey => hend.state.2.get_eq hkey⟩

/-- A field is set and read. -/
def setAndRead : List RedisCommand :=
  [⟨[ofText "HSET", [104], [102], [118]]⟩, ⟨[ofText "HGET", [104], [102]]⟩]

/-- The field is new, and its value is read. -/
theorem handleConnection_setAndRead : ∃ (db : DB (ModelledIndex BTreeIndex)) (w' : World),
    (Bitcask.DB.open ⟨['d'], 1000, false⟩ : Sys (DB (ModelledIndex BTreeIndex))).run { fs := ∅ } =
        .ok db w' ∧
      ∃ conn', (RedisServer.setupDefaultHandlers MapDB.handle noDoubles).handleConnection 100
          ⟨∅, fun n => .ofNat n⟩ [Redis.encodeAll setAndRead] = some conn' ∧
        ofText ":1\r\n$1\r\nv\r\n" = conn'.sent := by
  obtain ⟨db, w', hopen, h⟩ := handleConnection (ι := BTreeIndex)
    (Session.fresh_empty (by decide : 1000 ≠ 0) false) fun _ => rfl
  have hrun : (value? ((Bitcask.DB.open ⟨['d'], 1000, false⟩ :
      Sys (DB (ModelledIndex BTreeIndex))).run { fs := ∅ })).any (fun db =>
        ((RedisServer.setupDefaultHandlers handle noDoubles).handleConnection 100
          { proc := ⟨db, finalState ((Bitcask.DB.open ⟨['d'], 1000, false⟩ :
            Sys (DB (ModelledIndex BTreeIndex))).run { fs := ∅ })⟩
            clock := fun n => .ofNat n } [Redis.encodeAll setAndRead]).any fun conn =>
          conn.state.admitted && conn.sent == ofText ":1\r\n$1\r\nv\r\n") = true := by
    decide +kernel
  simp only [hopen, value?, Option.any_some, finalState_ok] at hrun
  obtain ⟨conn, hconn, hboth⟩ := (Option.any_eq_true _ _).1 hrun
  obtain ⟨hadmitted, hsent⟩ := Bool.and_eq_true_iff.1 hboth
  obtain ⟨conn', hconn', hsame, -⟩ := h _ _ _ _ conn hconn hadmitted
  exact ⟨db, w', hopen, conn', hconn', (eq_of_beq hsent).symm.trans hsame⟩

end Holds

end Backend

end Bitcask.Redis
