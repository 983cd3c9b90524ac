import Bitcask.Library.Loop
import Bitcask.Redis.Resp

/-!
# Connections of the Redis server

A connection takes the bytes received, buffer by buffer, and dispatches the commands it
finds in them (`RedisServer.handleConnection`). What a handler answers, when it throws
and what it leaves behind is left open: the state of the server is any type.

What a client means by the commands it sends is that they are dispatched one after the
other, up to the first QUIT (`RedisServer.dispatchAll`, `throughQuit`).

* `receive_eq_dispatchAll`: so they are, if none of them has a NUL byte and no buffer
  ends in the middle of one;
* `Dispatches.whole`: and if all of them are dispatched, with nothing sent behind them and
  no length that may be negative, no buffer has ended in the middle of one: the parser
  takes the `*` of a command that is not all there, and its bytes are lost.
-/

namespace Bitcask.Redis

open FuelLoop

/-! ## Dispatching commands -/

/-- What a handler answers, or throws, and the state it leaves. -/
abbrev RedisCommandHandler (σ : Type) := List Bytes → σ → Except StdException RedisResponse × σ

/-- A server, by its handlers: they are found by the names of commands in lower case. -/
structure RedisServer (σ : Type) where
  commandHandlers : Bytes → Option (RedisCommandHandler σ)

/-- `::tolower`. -/
def toLower (b : UInt8) : UInt8 := if 65 ≤ b ∧ b ≤ 90 then b + 32 else b

/-- The name of a command, in lower case. -/
def RedisCommand.cmd (command : RedisCommand) : Bytes := (command.args.headD []).map toLower

def RedisCommand.IsQuit (command : RedisCommand) : Prop := command.cmd = ofText "quit"

instance (command : RedisCommand) : Decidable command.IsQuit := inferInstanceAs (Decidable (_ = _))

/-- The commands up to the first QUIT. -/
def throughQuit : List RedisCommand → List RedisCommand
  | [] => []
  | command :: commands => if command.IsQuit then [command] else command :: throughQuit commands

/-- No byte of a command is NUL. -/
def RedisCommand.NulFree (command : RedisCommand) : Prop := ∀ arg ∈ command.args, 0 ∉ arg

/-- As long as the buffers are those of the commands, each ends where a command does. -/
def Whole (commands : List RedisCommand) (buffers : List Bytes) : Prop :=
  ∀ k, (buffers.take k).flatten.length ≤ (encodeAll commands).length →
    ∃ j, (buffers.take k).flatten.length = (encodeAll (commands.take j)).length

/-- A connection to a client: the state of the server, the commands that have been
    dispatched and the bytes sent back. -/
structure Connection (σ : Type) where
  state : σ
  dispatched : List RedisCommand
  sent : Bytes

variable {σ : Type}

/-- The bytes the commands dispatched take when they are sent. -/
def Connection.extent (conn : Connection σ) : ℕ := (encodeAll conn.dispatched).length

def Connection.send (conn : Connection σ) (response : RedisResponse) : Connection σ :=
  { conn with sent := conn.sent ++ response.serialize }

/-- The answer to an exception, which ends the connection. -/
def Connection.fail (conn : Connection σ) (e : StdException) : Connection σ :=
  conn.send (.error (ofText "ERR " ++ e.what))

namespace RedisServer

variable (server : RedisServer σ)

/-- The answer of the handler of a command, if it has one. -/
def respond (command : RedisCommand) (state : σ) : Except StdException RedisResponse × σ :=
  match server.commandHandlers command.cmd with
  | some handler => handler command.args state
  | none => (.ok (.error (ofText "ERR unknown command '" ++ command.cmd ++ ofText "'")), state)

/-- A command is dispatched. It ends the connection when it is QUIT or its handler
    throws (`error`). -/
def dispatch (conn : Connection σ) (command : RedisCommand) :
    Except (Connection σ) (Connection σ) :=
  let result := server.respond command conn.state
  let conn := { conn with state := result.2, dispatched := conn.dispatched ++ [command] }
  match result.1 with
  | .error e => .error (conn.fail e)
  | .ok response => if command.IsQuit then .error (conn.send response) else .ok (conn.send response)

/-- Commands dispatched one after the other, until the connection ends. -/
def dispatchAll (conn : Connection σ) (commands : List RedisCommand) :
    Except (Connection σ) (Connection σ) :=
  commands.foldlM server.dispatch conn

/-- The connection, ended or not. -/
def last : Except (Connection σ) (Connection σ) → Connection σ
  | .error conn => conn
  | .ok conn => conn

/-- No handler throws, unless on the last of the commands. -/
def Answers : σ → List RedisCommand → Prop
  | _, [] => True
  | state, command :: commands =>
    (commands ≠ [] → ∃ response, (server.respond command state).1 = .ok response) ∧
      Answers (server.respond command state).2 commands

/-! ## Handlers -/

/-- `register_command`: the name is put in lower case. -/
def registerCommand (command : Bytes) (handler : RedisCommandHandler σ) : RedisServer σ where
  commandHandlers cmd := if cmd = command.map toLower then some handler else server.commandHandlers cmd

def handlePing : RedisCommandHandler σ := fun args state =>
  match args with
  | [_] => (.ok (.simpleString (ofText "PONG")), state)
  | [_, arg] => (.ok (.bulkString arg), state)
  | _ => (.ok (.error (ofText "ERR wrong number of arguments for 'ping' command")), state)

def handleQuit : RedisCommandHandler σ := fun _ state => (.ok (.simpleString (ofText "OK")), state)

/-! ## Connections -/

/-- A round of the loop over the data, with the number of bytes processed. -/
def pass (data : Bytes) (s : ℕ × Connection σ) :
    Pass (ℕ × Connection σ) (Except (Connection σ) (ℕ × Connection σ)) :=
  if s.1 < data.length then
    if data[s.1]? = some 42 then
      match parseSingleCommand data s.1 with
      | .error e => .done (.error (s.2.fail e))
      | .ok (command, processed) =>
        if command.args = [] then .done (.ok (processed, s.2))
        else
          match server.dispatch s.2 command with
          | .error conn => .done (.error conn)
          | .ok conn =>
            if processed = s.1 then .done (.ok (processed, conn)) else .again (processed, conn)
    else .again (s.1 + 1, s.2)
  else .done (.ok s)

/-- What `std::string(buffer)` has of the buffer: the bytes up to the first NUL. -/
def cString (buffer : Bytes) : Bytes := buffer.takeWhile (· ≠ 0)

/-- The loop over the buffers received: an empty one says that there are no more. It is
    `none` if the loop over some data is still running after `fuel` rounds. -/
def receive (fuel : ℕ) : Connection σ → Bytes → List Bytes → Option (Connection σ)
  | conn, _, [] => some conn
  | conn, accumulatedData, buffer :: buffers =>
    if buffer = [] then some conn
    else
      let data := accumulatedData ++ cString buffer
      match loop (server.pass data) fuel (0, conn) with
      | none => none
      | some (.error conn) => some conn
      | some (.ok (processed, conn)) => receive fuel conn (data.drop processed) buffers

/-- A connection of a client, from the state `state`, as the loop leaves it. -/
def handleConnection (fuel : ℕ) (state : σ) (buffers : List Bytes) : Option (Connection σ) :=
  server.receive fuel ⟨state, [], []⟩ [] buffers

/-! ## Encoded commands -/

variable {server} {data rest : Bytes} {processed fuel : ℕ} {conn conn' : Connection σ}
  {command : RedisCommand} {commands : List RedisCommand}

theorem pass_of_ok (hc : command.WellFormed) (h : data.drop processed = command.encode ++ rest)
    (hd : server.dispatch conn command = .ok conn') :
    server.pass data (processed, conn) = .again (processed + command.encode.length, conn') := by
  have hle := le_length_of_drop h (List.cons_ne_nil _ _)
  have hpos : 0 < command.encode.length := List.length_pos_iff.2 (List.cons_ne_nil _ _)
  rw [pass, if_pos (by simp only; omega), if_pos (getElem?_of_drop h), parseSingleCommand_encode hc h]
  simp only [if_neg hc.args_ne_nil, hd]
  rw [if_neg (by omega)]

theorem pass_of_error (hc : command.WellFormed) (h : data.drop processed = command.encode ++ rest)
    (hd : server.dispatch conn command = .error conn') :
    server.pass data (processed, conn) = .done (.error conn') := by
  have hle := le_length_of_drop h (List.cons_ne_nil _ _)
  have hpos : 0 < command.encode.length := List.length_pos_iff.2 (List.cons_ne_nil _ _)
  rw [pass, if_pos (by simp only; omega), if_pos (getElem?_of_drop h), parseSingleCommand_encode hc h]
  simp only [if_neg hc.args_ne_nil, hd]

/-- The loop gets behind commands that leave the connection open. -/
theorem loop_of_ok (hwf : ∀ command ∈ commands, command.WellFormed)
    (h : data.drop processed = encodeAll commands ++ rest)
    (hd : server.dispatchAll conn commands = .ok conn') :
    loop (server.pass data) (fuel + commands.length) (processed, conn) =
      loop (server.pass data) fuel (processed + (encodeAll commands).length, conn') := by
  induction commands generalizing processed conn with
  | nil =>
    cases hd
    rfl
  | cons command commands ih =>
    rw [dispatchAll, List.foldlM_cons] at hd
    cases hc : server.dispatch conn command with
    | error conn₁ =>
      rw [hc] at hd
      cases hd
    | ok conn₁ =>
      rw [hc] at hd
      rw [encodeAll, List.flatMap_cons, List.append_assoc] at h
      rw [List.length_cons, ← Nat.add_assoc,
        loop_again (pass_of_ok (hwf _ List.mem_cons_self) h hc),
        ih (fun c h => hwf c (List.mem_cons_of_mem _ h)) (drop_of_drop h) hd, Nat.add_assoc,
        encodeAll, encodeAll, List.flatMap_cons, List.length_append]

/-- The loop ends with the command that ends the connection. -/
theorem loop_of_error (hwf : ∀ command ∈ commands, command.WellFormed)
    (h : data.drop processed = encodeAll commands ++ rest)
    (hd : server.dispatchAll conn commands = .error conn') :
    loop (server.pass data) (fuel + commands.length) (processed, conn) = some (.error conn') := by
  induction commands generalizing processed conn with
  | nil => cases hd
  | cons command commands ih =>
    rw [dispatchAll, List.foldlM_cons] at hd
    rw [encodeAll, List.flatMap_cons, List.append_assoc] at h
    rw [List.length_cons, ← Nat.add_assoc]
    cases hc : server.dispatch conn command with
    | error conn₁ =>
      rw [hc] at hd
      cases hd
      rw [loop_done (pass_of_error (hwf _ List.mem_cons_self) h hc)]
    | ok conn₁ =>
      rw [hc] at hd
      rw [loop_again (pass_of_ok (hwf _ List.mem_cons_self) h hc)]
      exact ih (fun c h => hwf c (List.mem_cons_of_mem _ h)) (drop_of_drop h) hd

/-! ## Whole commands -/

theorem dispatch_ok (h : server.dispatch conn command = .ok conn') :
    (∃ response, (server.respond command conn.state).1 = .ok response) ∧ ¬command.IsQuit ∧
      conn'.state = (server.respond command conn.state).2 ∧
      conn'.dispatched = conn.dispatched ++ [command] := by
  simp only [dispatch] at h
  split at h
  · cases h
  · next response hresponse =>
    split at h
    · cases h
    · next hquit =>
      cases h
      exact ⟨⟨response, hresponse⟩, hquit, rfl, rfl⟩

theorem extent_append (h : conn'.dispatched = conn.dispatched ++ [command]) :
    conn'.extent = conn.extent + command.encode.length := by
  rw [Connection.extent, Connection.extent, h, encodeAll, encodeAll, List.flatMap_append,
    List.length_append, List.flatMap_singleton]

theorem dispatch_error (h : server.dispatch conn command = .error conn') :
    conn'.dispatched = conn.dispatched ++ [command] := by
  simp only [dispatch] at h
  split at h
  · cases h
    rfl
  · split at h
    · cases h
      rfl
    · cases h

/-- A command that is answered, and not QUIT, leaves the connection open. -/
theorem dispatch_of_answered {response : RedisResponse}
    (h : (server.respond command conn.state).1 = .ok response) (hquit : ¬command.IsQuit) :
    ∃ conn', server.dispatch conn command = .ok conn' := by
  simp only [dispatch, h, if_neg hquit]
  exact ⟨_, rfl⟩

theorem dispatchAll_cons (h : server.dispatch conn command = .ok conn') :
    server.dispatchAll conn (command :: commands) = server.dispatchAll conn' commands := by
  rw [dispatchAll, List.foldlM_cons, h]
  rfl

theorem dispatchAll_cons_error (h : server.dispatch conn command = .error conn') :
    server.dispatchAll conn (command :: commands) = .error conn' := by
  rw [dispatchAll, List.foldlM_cons, h]
  rfl

theorem dispatchAll_append {commands' : List RedisCommand}
    (h : server.dispatchAll conn commands = .ok conn') :
    server.dispatchAll conn (commands ++ commands') = server.dispatchAll conn' commands' := by
  rw [dispatchAll, List.foldlM_append]
  exact congrArg (· >>= _) h

theorem dispatchAll_append_error {commands' : List RedisCommand}
    (h : server.dispatchAll conn commands = .error conn') :
    server.dispatchAll conn (commands ++ commands') = .error conn' := by
  rw [dispatchAll, List.foldlM_append]
  exact congrArg (· >>= _) h

/-- After commands that are all dispatched, none of them was QUIT. -/
theorem not_isQuit_of_dispatchAll (h : server.dispatchAll conn commands = .ok conn') :
    ∀ command ∈ commands, ¬command.IsQuit := by
  induction commands generalizing conn with
  | nil => exact List.forall_mem_nil _
  | cons command commands ih =>
    cases hd : server.dispatch conn command with
    | error conn₁ =>
      rw [dispatchAll_cons_error hd] at h
      cases h
    | ok conn₁ =>
      rw [dispatchAll_cons hd] at h
      exact List.forall_mem_cons.2 ⟨(dispatch_ok hd).2.1, ih h⟩

/-- The commands up to the first QUIT are dispatched, if the handlers answer. -/
theorem dispatched_throughQuit (h : server.Answers conn.state (throughQuit commands)) :
    (last (server.dispatchAll conn (throughQuit commands))).dispatched =
      conn.dispatched ++ throughQuit commands := by
  induction commands generalizing conn with
  | nil => exact (List.append_nil _).symm
  | cons command commands ih =>
    rw [throughQuit] at h ⊢
    cases hd : server.dispatch conn command with
    | error conn₁ =>
      -- Only the last command ends the connection.
      have hnil : command.IsQuit ∨ throughQuit commands = [] := by
        by_contra! hne
        rw [if_neg hne.1] at h
        obtain ⟨response, hresponse⟩ := h.1 hne.2
        obtain ⟨conn₂, hd₂⟩ := dispatch_of_answered hresponse hne.1
        rw [hd] at hd₂
        cases hd₂
      have hone : (if command.IsQuit then [command] else command :: throughQuit commands) = [command] := by
        split
        · rfl
        · next hquit => rw [hnil.resolve_left hquit]
      rw [hone, dispatchAll_cons_error hd]
      exact dispatch_error hd
    | ok conn₁ =>
      obtain ⟨-, hquit, hstate, hdispatched⟩ := dispatch_ok hd
      rw [if_neg hquit] at h ⊢
      rw [dispatchAll_cons hd, ih (hstate ▸ h.2), hdispatched, List.append_assoc]
      rfl

end RedisServer

theorem throughQuit_append (commands : List RedisCommand) :
    ∃ behind, commands = throughQuit commands ++ behind ∧
      (behind ≠ [] → ∃ command ∈ throughQuit commands, command.IsQuit) := by
  induction commands with
  | nil => exact ⟨[], rfl, fun h => absurd rfl h⟩
  | cons command commands ih =>
    rw [throughQuit]
    split
    · next hquit => exact ⟨commands, rfl, fun _ => ⟨command, List.mem_cons_self, hquit⟩⟩
    · obtain ⟨behind, heq, hbehind⟩ := ih
      refine ⟨behind, congrArg (command :: ·) heq, fun h => ?_⟩
      obtain ⟨c, hc, hquit⟩ := hbehind h
      exact ⟨c, List.mem_cons_of_mem _ hc, hquit⟩

theorem RedisCommand.NulFree.encode {command : RedisCommand} (h : command.NulFree) :
    0 ∉ command.encode := by
  have hdigits (n : ℕ) : 0 ∉ Decimal.digits n := fun h =>
    absurd (Decimal.isDigit_of_mem_digits h) (by decide)
  have hcrlf : 0 ∉ crlf := by decide
  have hargs : 0 ∉ command.args.flatMap encodeBulk := by
    intro hmem
    obtain ⟨arg, harg, hmem⟩ := List.mem_flatMap.1 hmem
    simp [encodeBulk, hdigits, hcrlf, h arg harg] at hmem
  simp [RedisCommand.encode, hdigits, hcrlf, hargs]

theorem nul_not_mem_encodeAll {commands : List RedisCommand} (h : ∀ command ∈ commands, command.NulFree) :
    0 ∉ encodeAll commands := by
  intro hmem
  obtain ⟨command, hcommand, hmem⟩ := List.mem_flatMap.1 hmem
  exact (h command hcommand).encode hmem

theorem length_le_encodeAll (commands : List RedisCommand) :
    commands.length ≤ (encodeAll commands).length := by
  induction commands with
  | nil => exact Nat.le_refl _
  | cons command commands ih =>
    rw [encodeAll, List.flatMap_cons, List.length_append, List.length_cons, length_encode]
    rw [encodeAll] at ih
    omega

theorem encodeAll_append (commands commands' : List RedisCommand) :
    encodeAll (commands ++ commands') = encodeAll commands ++ encodeAll commands' :=
  List.flatMap_append

theorem length_encodeAll_take_le {i j : ℕ} (h : i ≤ j) (commands : List RedisCommand) :
    (encodeAll (commands.take i)).length ≤ (encodeAll (commands.take j)).length := by
  obtain ⟨k, rfl⟩ := Nat.exists_eq_add_of_le h
  rw [List.take_add, encodeAll_append, List.length_append]
  exact Nat.le_add_right _ _

/-- A buffer that is one of the commands' holds some of them, and the buffers behind it
    are whole for the others. -/
theorem Whole.of_cons {commands : List RedisCommand} {buffer : Bytes} {buffers : List Bytes}
    (h : Whole commands (buffer :: buffers)) (hle : buffer.length ≤ (encodeAll commands).length) :
    ∃ j, buffer.length = (encodeAll (commands.take j)).length ∧ Whole (commands.drop j) buffers := by
  obtain ⟨j, hj⟩ := h 1 (by simpa using hle)
  rw [List.take_succ_cons, List.take_zero, List.flatten_singleton] at hj
  refine ⟨j, hj, fun k hk => ?_⟩
  have hsplit : (encodeAll commands).length =
      (encodeAll (commands.take j)).length + (encodeAll (commands.drop j)).length := by
    rw [← List.length_append, ← encodeAll_append, List.take_append_drop]
  obtain ⟨i, hi⟩ := h (k + 1) (by
    rw [List.take_succ_cons, List.flatten_cons, List.length_append]
    omega)
  rw [List.take_succ_cons, List.flatten_cons, List.length_append] at hi
  rcases Nat.le_total j i with hji | hij
  · obtain ⟨d, rfl⟩ := Nat.exists_eq_add_of_le hji
    refine ⟨d, ?_⟩
    rw [List.take_add, encodeAll_append, List.length_append] at hi
    omega
  · have := length_encodeAll_take_le hij commands
    refine ⟨0, ?_⟩
    rw [List.take_zero]
    show _ = 0
    omega

namespace RedisServer

variable {σ : Type} {server : RedisServer σ} {conn conn' : Connection σ} {fuel : ℕ}

theorem cString_append {bytes : Bytes} (h : 0 ∉ bytes) (bytes' : Bytes) :
    cString (bytes ++ bytes') = bytes ++ cString bytes' :=
  List.takeWhile_append_of_pos fun _ hb => decide_eq_true fun h0 => h (h0 ▸ hb)

theorem cString_of_not_mem {bytes : Bytes} (h : 0 ∉ bytes) : cString bytes = bytes := by
  simpa [cString] using cString_append h []

/-- A buffer of commands that leave the connection open is taken whole. -/
theorem receive_of_ok {commands : List RedisCommand} (hwf : ∀ command ∈ commands, command.WellFormed)
    (hnul : ∀ command ∈ commands, command.NulFree) (hne : encodeAll commands ≠ [])
    (hfuel : (encodeAll commands).length < fuel) (hd : server.dispatchAll conn commands = .ok conn')
    (buffers : List Bytes) :
    server.receive fuel conn [] (encodeAll commands :: buffers) = server.receive fuel conn' [] buffers := by
  have hlen := length_le_encodeAll commands
  obtain ⟨n, rfl⟩ : ∃ n, fuel = n + 1 + commands.length := ⟨fuel - 1 - commands.length, by omega⟩
  have hend : server.pass (encodeAll commands ++ []) (0 + (encodeAll commands).length, conn') =
      .done (.ok (_, conn')) := if_neg (by simp)
  have hrest : (encodeAll commands ++ []).drop (0 + (encodeAll commands).length) = [] := by simp
  have hdata : [] ++ cString (encodeAll commands) = encodeAll commands ++ [] := by
    rw [cString_of_not_mem (nul_not_mem_encodeAll hnul), List.nil_append, List.append_nil]
  rw [receive, if_neg hne]
  simp only [hdata]
  rw [loop_of_ok hwf List.drop_zero hd, loop_done hend]
  simp only [hrest]

/-- A buffer with the command that ends the connection, and maybe more. -/
theorem receive_of_error {commands : List RedisCommand} {behind : Bytes}
    (hwf : ∀ command ∈ commands, command.WellFormed) (hnul : ∀ command ∈ commands, command.NulFree)
    (hne : encodeAll commands ++ behind ≠ []) (hfuel : (encodeAll commands).length < fuel)
    (hd : server.dispatchAll conn commands = .error conn') (buffers : List Bytes) :
    server.receive fuel conn [] ((encodeAll commands ++ behind) :: buffers) = some conn' := by
  have hlen := length_le_encodeAll commands
  obtain ⟨n, rfl⟩ : ∃ n, fuel = n + commands.length := ⟨fuel - commands.length, by omega⟩
  rw [receive, if_neg hne]
  simp only [List.nil_append, cString_append (nul_not_mem_encodeAll hnul)]
  rw [loop_of_error hwf List.drop_zero hd]

/-- Buffers that are whole, for commands without NUL bytes, have them dispatched one
    after the other. -/
theorem receive_eq_dispatchAll {commands : List RedisCommand} {buffers : List Bytes} {behind : Bytes}
    (hwf : ∀ command ∈ commands, command.WellFormed) (hnul : ∀ command ∈ commands, command.NulFree)
    (hbuffers : ∀ buffer ∈ buffers, buffer ≠ []) (hwhole : Whole commands buffers)
    (hstream : buffers.flatten = encodeAll commands ++ behind)
    (hbehind : behind ≠ [] → ∃ command ∈ commands, command.IsQuit)
    (hfuel : buffers.flatten.length < fuel) :
    server.receive fuel conn [] buffers = some (last (server.dispatchAll conn commands)) := by
  induction buffers generalizing commands conn with
  | nil =>
    have hnil : commands = [] := by
      have := length_le_encodeAll commands
      have := congrArg List.length hstream
      rw [List.flatten_nil, List.length_append, List.length_nil] at this
      exact List.eq_nil_of_length_eq_zero (by omega)
    subst hnil
    rfl
  | cons buffer buffers ih =>
    rw [List.flatten_cons] at hstream hfuel
    rcases Nat.lt_or_ge (encodeAll commands).length buffer.length with hlt | hle
    · -- The buffer goes on behind the commands: the last of them is QUIT.
      rcases List.append_eq_append_iff.1 hstream with ⟨extra, heq, -⟩ | ⟨extra, rfl, rfl⟩
      · rw [heq, List.length_append] at hlt
        omega
      · have hne : extra ++ buffers.flatten ≠ [] := by
          rw [List.length_append] at hlt
          exact fun h => by simp [(List.append_eq_nil_iff.1 h).1] at hlt
        obtain ⟨command, hcommand, hquit⟩ := hbehind hne
        cases hd : server.dispatchAll conn commands with
        | ok conn' => exact absurd hquit (not_isQuit_of_dispatchAll hd command hcommand)
        | error conn' =>
          rw [List.length_append, List.length_append] at hfuel
          exact receive_of_error hwf hnul (hbuffers _ List.mem_cons_self) (by omega) hd _
    · obtain ⟨j, hj, hwhole'⟩ := hwhole.of_cons hle
      rw [← List.take_append_drop j commands, encodeAll_append, List.append_assoc] at hstream
      obtain ⟨rfl, hstream'⟩ := List.append_inj hstream hj
      have htake : ∀ command ∈ commands.take j, command ∈ commands := fun _ => List.mem_of_mem_take
      have hdrop : ∀ command ∈ commands.drop j, command ∈ commands := fun _ => List.mem_of_mem_drop
      have hbuffer := hbuffers _ List.mem_cons_self
      rw [List.length_append] at hfuel
      have hlt : (encodeAll (commands.take j)).length < fuel := by omega
      cases hd : server.dispatchAll conn (commands.take j) with
      | error conn' =>
        have hbuffer' : encodeAll (commands.take j) ++ [] ≠ [] := by rwa [List.append_nil]
        have hended := receive_of_error (fun c hc => hwf c (htake c hc)) (fun c hc => hnul c (htake c hc))
          hbuffer' hlt hd buffers
        rw [List.append_nil] at hended
        rw [hended, ← List.take_append_drop j commands, dispatchAll_append_error hd]
        rfl
      | ok conn' =>
        have hquit (hne : behind ≠ []) : ∃ command ∈ commands.drop j, command.IsQuit := by
          obtain ⟨command, hcommand, hquit⟩ := hbehind hne
          rw [← List.take_append_drop j commands] at hcommand
          rcases List.mem_append.1 hcommand with htake | hdrop
          · exact absurd hquit (not_isQuit_of_dispatchAll hd command htake)
          · exact ⟨command, hdrop, hquit⟩
        rw [receive_of_ok (fun c hc => hwf c (htake c hc)) (fun c hc => hnul c (htake c hc)) hbuffer
          hlt hd]
        rw [ih (fun c hc => hwf c (hdrop c hc)) (fun c hc => hnul c (hdrop c hc))
          (fun b hb => hbuffers b (List.mem_cons_of_mem _ hb)) hwhole' hstream' hquit (by omega),
          ← dispatchAll_append hd, List.take_append_drop]

/-! ## What a run dispatches -/

section Pass

variable {data : Bytes} {s s' : ℕ × Connection σ}

/-- The loop goes on behind a byte that begins no command, or a command dispatched. -/
theorem pass_again (h : server.pass data s = .again s') :
    s.1 < data.length ∧ (s' = (s.1 + 1, s.2) ∨
      data[s.1]? = some 42 ∧ ∃ command, parseSingleCommand data s.1 = .ok (command, s'.1) ∧
        command.args ≠ [] ∧ server.dispatch s.2 command = .ok s'.2) := by
  rw [pass] at h
  split at h
  · next hlt =>
    refine ⟨hlt, ?_⟩
    split at h
    · next hstar =>
      split at h
      · cases h
      · next command processed hparse =>
        split at h
        · cases h
        · next hargs =>
          split at h
          · cases h
          · next hd =>
            split at h
            · cases h
            · cases h
              exact .inr ⟨hstar, command, hparse, hargs, hd⟩
    · cases h
      exact .inl rfl
  · cases h

/-- The loop stops at the end of the data, at what is not a command, at one that is not
    all there, with a command that ends the connection, or with one taking no bytes. -/
theorem pass_done {r : Except (Connection σ) (ℕ × Connection σ)} (h : server.pass data s = .done r) :
    data.length ≤ s.1 ∧ r = .ok s ∨ data[s.1]? = some 42 ∧ ((∃ e, r = .error (s.2.fail e)) ∨
      ∃ command processed, parseSingleCommand data s.1 = .ok (command, processed) ∧
        (command.args = [] ∧ r = .ok (processed, s.2) ∨
          command.args ≠ [] ∧ ((∃ conn, server.dispatch s.2 command = .error conn ∧ r = .error conn) ∨
            ∃ conn, server.dispatch s.2 command = .ok conn ∧ processed = s.1 ∧
              r = .ok (processed, conn)))) := by
  rw [pass] at h
  split at h
  · split at h
    · next hstar =>
      refine .inr ⟨hstar, ?_⟩
      split at h
      · next e _ =>
        cases h
        exact .inl ⟨e, rfl⟩
      · next command processed hparse =>
        refine .inr ⟨command, processed, hparse, ?_⟩
        split at h
        · next hargs =>
          cases h
          exact .inl ⟨hargs, rfl⟩
        · next hargs =>
          refine .inr ⟨hargs, ?_⟩
          split at h
          · next conn hd =>
            cases h
            exact .inl ⟨conn, hd, rfl⟩
          · next conn hd =>
            split at h
            · next heq =>
              cases h
              exact .inr ⟨conn, hd, heq, rfl⟩
            · cases h
    · cases h
  · next hle =>
    cases h
    exact .inl ⟨not_lt.1 hle, rfl⟩

end Pass

/-- What a loop comes to: `Q` holds of a connection that has ended, `I` of one that is open
    and of the bytes processed. -/
def Leaves (I : ℕ × Connection σ → Prop) (Q : Connection σ → Prop) :
    Except (Connection σ) (ℕ × Connection σ) → Prop
  | .error conn => Q conn
  | .ok s => I s

theorem nul_not_mem_cString (buffer : Bytes) : 0 ∉ cString buffer := fun h => by
  simpa using List.mem_takeWhile_imp h

theorem nulFree_of_parse {data : Bytes} {offset offset' : ℕ} {command : RedisCommand} (hdata : 0 ∉ data)
    (h : parseSingleCommand data offset = .ok (command, offset')) : command.NulFree :=
  fun arg harg h0 => hdata (parseSingleCommand_subset h arg harg h0)

section Invariant

variable {I Q : Connection σ → Prop}
  (hok : ∀ conn command conn', I conn → command.NulFree → server.dispatch conn command = .ok conn' →
    I conn')
  (herror : ∀ conn command conn', I conn → command.NulFree →
    server.dispatch conn command = .error conn' → Q conn')
  (hfail : ∀ conn e, I conn → Q (conn.fail e)) (hend : ∀ conn, I conn → Q conn)

include hok herror hfail in
/-- What commands without NUL bytes preserve holds of what the loop over some data
    comes to. -/
theorem loop_pass_inv {data : Bytes} {r : Except (Connection σ) (ℕ × Connection σ)} (hconn : I conn)
    (hdata : 0 ∉ data) (h : loop (server.pass data) fuel (0, conn) = some r) :
    Leaves (fun s => I s.2) Q r := by
  refine loop_inv (I := fun s : ℕ × Connection σ => I s.2) (Q := Leaves (fun s => I s.2) Q)
    (fun s s' hs hpass => ?_) (fun s r hs hpass => ?_) hconn h
  · obtain ⟨-, rfl | ⟨-, command, hparse, -, hd⟩⟩ := pass_again hpass
    · exact hs
    · exact hok _ _ _ hs (nulFree_of_parse hdata hparse) hd
  · rcases pass_done hpass with ⟨-, rfl⟩ | ⟨-, ⟨e, rfl⟩ | ⟨command, processed, hparse, hr⟩⟩
    · exact hs
    · exact hfail _ e hs
    · rcases hr with ⟨-, rfl⟩ | ⟨-, ⟨conn₁, hd, rfl⟩ | ⟨conn₁, hd, -, rfl⟩⟩
      · exact hs
      · exact herror _ _ _ hs (nulFree_of_parse hdata hparse) hd
      · exact hok _ _ _ hs (nulFree_of_parse hdata hparse) hd

include hok herror hfail hend in
/-- What commands without NUL bytes preserve holds when a connection is over: no other
    command is ever dispatched. -/
theorem receive_inv {acc : Bytes} {buffers : List Bytes} (hconn : I conn) (hacc : 0 ∉ acc)
    (h : server.receive fuel conn acc buffers = some conn') : Q conn' := by
  induction buffers generalizing conn acc with
  | nil =>
    cases h
    exact hend _ hconn
  | cons buffer buffers ih =>
    rw [receive] at h
    split at h
    · cases h
      exact hend _ hconn
    · have hdata : 0 ∉ acc ++ cString buffer := fun h0 =>
        (List.mem_append.1 h0).elim hacc (nul_not_mem_cString buffer)
      simp only at h
      split at h
      · cases h
      · next hloop =>
        cases h
        exact loop_pass_inv hok herror hfail hconn hdata hloop
      · next processed conn₁ hloop =>
        exact ih (loop_pass_inv hok herror hfail hconn hdata hloop)
          (fun h0 => hdata (List.mem_of_mem_drop h0)) h

end Invariant

/-- The commands dispatched have no NUL byte, and only the last one's handler may have
    thrown. -/
theorem dispatched_of_handleConnection {state : σ} {buffers : List Bytes}
    (h : server.handleConnection fuel state buffers = some conn') :
    (∀ command ∈ conn'.dispatched, command.NulFree) ∧ server.Answers state conn'.dispatched := by
  refine receive_inv (I := fun conn => (∀ command ∈ conn.dispatched, command.NulFree) ∧
      ∀ commands, server.Answers conn.state commands →
        server.Answers state (conn.dispatched ++ commands))
    (Q := fun conn => (∀ command ∈ conn.dispatched, command.NulFree) ∧
      server.Answers state conn.dispatched) ?_ ?_ ?_ ?_ ?_ (List.not_mem_nil) h
  · rintro conn command conn' ⟨hnul, hanswers⟩ hcommand hd
    obtain ⟨hresponse, -, hstate, hdispatched⟩ := dispatch_ok hd
    rw [hstate, hdispatched]
    refine ⟨List.forall_mem_append.2 ⟨hnul, List.forall_mem_singleton.2 hcommand⟩,
      fun commands h => ?_⟩
    rw [List.append_assoc]
    exact hanswers _ ⟨fun _ => hresponse, h⟩
  · rintro conn command conn' ⟨hnul, hanswers⟩ hcommand hd
    rw [dispatch_error hd]
    exact ⟨List.forall_mem_append.2 ⟨hnul, List.forall_mem_singleton.2 hcommand⟩,
      hanswers _ ⟨fun h => absurd rfl h, trivial⟩⟩
  · rintro conn e ⟨hnul, hanswers⟩
    exact ⟨hnul, List.append_nil conn.dispatched ▸ hanswers [] trivial⟩
  · rintro conn ⟨hnul, hanswers⟩
    exact ⟨hnul, List.append_nil conn.dispatched ▸ hanswers [] trivial⟩
  · exact ⟨List.forall_mem_nil _, fun _ h => h⟩

/-! ## What a run loses -/

/-- The commands dispatched by a loop take no more bytes than are processed, and less when
    the loop stops within the data: the bytes of what is not all there are processed. -/
theorem loop_pass_extent {data : Bytes} {r : Except (Connection σ) (ℕ × Connection σ)}
    (hdata : NonnegativeLengths data) (h : loop (server.pass data) fuel (0, conn) = some r) :
    Leaves
      (fun s => conn.dispatched <+: s.2.dispatched ∧ s.1 ≤ data.length ∧
        s.2.extent ≤ conn.extent + s.1 ∧ (s.1 < data.length → s.2.extent < conn.extent + s.1))
      (fun conn' => conn.dispatched <+: conn'.dispatched ∧
        conn'.extent ≤ conn.extent + data.length) r := by
  refine loop_inv (I := fun s : ℕ × Connection σ => conn.dispatched <+: s.2.dispatched ∧
      s.1 ≤ data.length ∧ s.2.extent ≤ conn.extent + s.1) (Q := Leaves _ _) ?_ ?_
    ⟨List.prefix_refl _, Nat.zero_le _, Nat.le_refl _⟩ h
  · rintro s s' ⟨hpre, hle, hextent⟩ hpass
    obtain ⟨hlt, rfl | ⟨hstar, command, hparse, hargs, hd⟩⟩ := pass_again hpass
    · exact ⟨hpre, hlt, Nat.le_succ_of_le hextent⟩
    · obtain ⟨-, hle', hencode⟩ := parseSingleCommand_consumed hdata hparse hstar
      have hdispatched := (dispatch_ok hd).2.2.2
      have := extent_append hdispatched
      have := hencode hargs
      exact ⟨hpre.trans ⟨_, hdispatched.symm⟩, hle', by omega⟩
  · rintro s r ⟨hpre, hle, hextent⟩ hpass
    rcases pass_done hpass with ⟨hge, rfl⟩ | ⟨hstar, ⟨e, rfl⟩ | ⟨command, processed, hparse, hr⟩⟩
    · exact ⟨hpre, hle, hextent, fun hlt => by omega⟩
    · exact ⟨hpre, Nat.le_trans hextent (Nat.add_le_add_left hle _)⟩
    · obtain ⟨hlt, hle', hencode⟩ := parseSingleCommand_consumed hdata hparse hstar
      rcases hr with ⟨hnil, rfl⟩ | ⟨hargs, ⟨conn₁, hd, rfl⟩ | ⟨conn₁, hd, rfl, rfl⟩⟩
      · -- The `*` has been taken, and no command is dispatched for it.
        exact ⟨hpre, hle', by simp only; omega, fun _ => by simp only; omega⟩
      · have hdispatched := dispatch_error hd
        have := extent_append hdispatched
        have := hencode hargs
        exact ⟨hpre.trans ⟨_, hdispatched.symm⟩, by omega⟩
      · exact absurd hlt (Nat.lt_irrefl _)

/-- A buffer either ends the connection or leaves bytes for the next one, some having been
    lost if it leaves any. -/
theorem receive_cons {acc buffer : Bytes} {buffers : List Bytes} (hnul : 0 ∉ buffer)
    (hbuffer : buffer ≠ []) (hdata : NonnegativeLengths (acc ++ (buffer :: buffers).flatten))
    (h : server.receive fuel conn acc (buffer :: buffers) = some conn') :
    conn.dispatched <+: conn'.dispatched ∧
        conn'.extent ≤ conn.extent + (acc.length + buffer.length) ∨
      ∃ conn₁ rest, server.receive fuel conn₁ rest buffers = some conn' ∧
        NonnegativeLengths (rest ++ buffers.flatten) ∧ conn.dispatched <+: conn₁.dispatched ∧
        conn₁.extent + rest.length ≤ conn.extent + (acc.length + buffer.length) ∧
        (rest ≠ [] → conn₁.extent + rest.length < conn.extent + (acc.length + buffer.length)) := by
  rw [receive, if_neg hbuffer, cString_of_not_mem hnul] at h
  rw [List.flatten_cons, ← List.append_assoc] at hdata
  have hfront := NonnegativeLengths.of_append [] _ hdata
  rw [← List.length_append]
  simp only at h
  split at h
  · cases h
  · next hloop =>
    cases h
    exact .inl (loop_pass_extent hfront hloop)
  · next processed conn₁ hloop =>
    obtain ⟨hpre, hle, hextent, hlt⟩ := loop_pass_extent hfront hloop
    have hrest : NonnegativeLengths ((acc ++ buffer).drop processed ++ buffers.flatten) := by
      refine NonnegativeLengths.of_append ((acc ++ buffer).take processed) [] ?_
      rwa [← List.append_assoc, List.take_append_drop, List.append_nil]
    have hlength : ((acc ++ buffer).drop processed).length + processed = (acc ++ buffer).length := by
      rw [List.length_drop]
      exact Nat.sub_add_cancel hle
    refine .inr ⟨conn₁, _, h, hrest, hpre, ?_, fun hne => ?_⟩
    · simp only at hextent
      omega
    · have hprocessed : processed < (acc ++ buffer).length := by
        by_contra hge
        exact hne (List.drop_eq_nil_of_le (not_lt.1 hge))
      have := hlt hprocessed
      simp only at this
      omega

/-- The commands dispatched take no more bytes than are received. -/
theorem receive_extent {acc : Bytes} {buffers : List Bytes} (hnul : ∀ buffer ∈ buffers, 0 ∉ buffer)
    (hbuffers : ∀ buffer ∈ buffers, buffer ≠ []) (hdata : NonnegativeLengths (acc ++ buffers.flatten))
    (h : server.receive fuel conn acc buffers = some conn') :
    conn.dispatched <+: conn'.dispatched ∧
      conn'.extent ≤ conn.extent + (acc.length + buffers.flatten.length) := by
  induction buffers generalizing conn acc with
  | nil =>
    cases h
    exact ⟨List.prefix_refl _, Nat.le_add_right _ _⟩
  | cons buffer buffers ih =>
    rw [List.forall_mem_cons] at hnul hbuffers
    rw [List.flatten_cons, List.length_append]
    rcases receive_cons hnul.1 hbuffers.1 hdata h with
      ⟨hpre, hextent⟩ | ⟨conn₁, rest, h, hdata, hpre, hextent, -⟩
    · exact ⟨hpre, by omega⟩
    · obtain ⟨hpre', hextent'⟩ := ih hnul.2 hbuffers.2 hdata h
      exact ⟨hpre.trans hpre', by omega⟩

theorem exists_take_extent (h : conn.dispatched <+: conn'.dispatched) :
    ∃ j, conn.extent = (encodeAll (conn'.dispatched.take j)).length :=
  ⟨_, by rw [← List.prefix_iff_eq_take.1 h, Connection.extent]⟩

/-- When the commands dispatched take all the bytes received, every buffer has ended
    with a command. -/
theorem receive_whole {buffers : List Bytes} (hnul : ∀ buffer ∈ buffers, 0 ∉ buffer)
    (hbuffers : ∀ buffer ∈ buffers, buffer ≠ []) (hdata : NonnegativeLengths buffers.flatten)
    (h : server.receive fuel conn [] buffers = some conn')
    (hextent : conn'.extent = conn.extent + buffers.flatten.length) (k : ℕ) :
    ∃ j, conn.extent + (buffers.take k).flatten.length =
      (encodeAll (conn'.dispatched.take j)).length := by
  obtain ⟨hpre, -⟩ := receive_extent hnul hbuffers hdata h
  induction buffers generalizing conn k with
  | nil => simpa using exists_take_extent hpre
  | cons buffer buffers ih =>
    cases k with
    | zero => simpa using exists_take_extent hpre
    | succ k =>
      rw [List.forall_mem_cons] at hnul hbuffers
      rw [List.flatten_cons, List.length_append] at hextent
      rw [List.take_succ_cons, List.flatten_cons, List.length_append]
      rcases receive_cons hnul.1 hbuffers.1 hdata h with
        ⟨-, hle⟩ | ⟨conn₁, rest, h, hdata, -, hle, hlt⟩
      · -- The connection has ended, so there is no other buffer.
        have hflatten : buffers.flatten = [] := List.eq_nil_of_length_eq_zero (by
          rw [List.length_nil] at hle
          omega)
        have htake : (buffers.take k).flatten.length = 0 := by
          have := congrArg (List.length ∘ List.flatten) (List.take_append_drop k buffers)
          simp only [Function.comp, List.flatten_append, List.length_append, hflatten,
            List.length_nil] at this
          omega
        obtain ⟨j, hj⟩ := exists_take_extent (List.prefix_refl conn'.dispatched)
        rw [hflatten, List.length_nil] at hextent
        exact ⟨j, by rw [htake, ← hj]; omega⟩
      · -- No byte has been lost, so the next buffer begins afresh.
        obtain ⟨hpre₁, hle₁⟩ := receive_extent hnul.2 hbuffers.2 hdata h
        have hnil : rest = [] := by
          by_contra hne
          have := hlt hne
          rw [List.length_nil] at this
          omega
        subst hnil
        rw [List.length_nil] at hle hle₁
        obtain ⟨j, hj⟩ := ih hnul.2 hbuffers.2 hdata h (by omega) k hpre₁
        exact ⟨j, by omega⟩

/-! ## Streams of commands -/

/-- The commands dispatched are those sent, up to the first QUIT. -/
def Dispatches (server : RedisServer σ) (fuel : ℕ) (state : σ) (buffers : List Bytes)
    (commands : List RedisCommand) : Prop :=
  (server.handleConnection fuel state buffers).map Connection.dispatched = some (throughQuit commands)

/-- What the commands up to the first QUIT have to be, and the buffers that have them, for
    them to be dispatched. -/
structure Intact (server : RedisServer σ) (state : σ) (buffers : List Bytes)
    (commands : List RedisCommand) : Prop where
  nulFree : ∀ command ∈ throughQuit commands, command.NulFree
  answers : server.Answers state (throughQuit commands)
  whole : Whole (throughQuit commands) buffers

variable {state : σ} {commands : List RedisCommand} {buffers : List Bytes}

theorem Intact.dispatches (h : server.Intact state buffers commands)
    (hwf : ∀ command ∈ commands, command.WellFormed) (hbuffers : ∀ buffer ∈ buffers, buffer ≠ [])
    (hstream : buffers.flatten = encodeAll commands) (hfuel : (encodeAll commands).length < fuel) :
    server.Dispatches fuel state buffers commands := by
  obtain ⟨behind, hcommands, hquit⟩ := throughQuit_append commands
  have hmem : ∀ command ∈ throughQuit commands, command ∈ commands := fun command hcommand => by
    rw [hcommands]
    exact List.mem_append_left _ hcommand
  have hflatten : buffers.flatten = encodeAll (throughQuit commands) ++ encodeAll behind := by
    rw [hstream, ← encodeAll_append, ← hcommands]
  have hbehind (hne : encodeAll behind ≠ []) : behind ≠ [] := fun hnil => hne (by rw [hnil]; rfl)
  rw [Dispatches, handleConnection,
    receive_eq_dispatchAll (fun c hc => hwf c (hmem c hc)) h.nulFree hbuffers h.whole hflatten
      (fun hne => hquit (hbehind hne)) (hstream ▸ hfuel), Option.map_some,
    dispatched_throughQuit h.answers]
  rfl

theorem Dispatches.nulFree_answers (h : server.Dispatches fuel state buffers commands) :
    (∀ command ∈ throughQuit commands, command.NulFree) ∧
      server.Answers state (throughQuit commands) := by
  obtain ⟨conn, hconn, hdispatched⟩ := Option.map_eq_some_iff.1 h
  exact hdispatched ▸ dispatched_of_handleConnection hconn

/-- Without anything behind the commands and without negative lengths, the buffers are
    whole when the commands are dispatched: they take all the bytes received. -/
theorem Dispatches.whole (h : server.Dispatches fuel state buffers commands)
    (hbuffers : ∀ buffer ∈ buffers, buffer ≠ []) (hstream : buffers.flatten = encodeAll commands)
    (hquit : throughQuit commands = commands) (hdata : NonnegativeLengths buffers.flatten) :
    Whole (throughQuit commands) buffers := by
  have hnul : ∀ buffer ∈ buffers, 0 ∉ buffer := fun buffer hbuffer h0 => by
    have hmem : 0 ∈ buffers.flatten := List.mem_flatten.2 ⟨buffer, hbuffer, h0⟩
    rw [hstream, ← hquit] at hmem
    exact nul_not_mem_encodeAll h.nulFree_answers.1 hmem
  obtain ⟨conn, hconn, hdispatched⟩ := Option.map_eq_some_iff.1 h
  have hextent : conn.extent = 0 + buffers.flatten.length := by
    rw [Connection.extent, hdispatched, hquit, hstream, Nat.zero_add]
  intro k _
  obtain ⟨j, hj⟩ := receive_whole hnul hbuffers hdata hconn hextent k
  exact ⟨j, by rw [← hdispatched, ← hj]; exact (Nat.zero_add _).symm⟩

/-- The commands of a stream, up to the first QUIT, are dispatched if they have no NUL
    byte, their handlers answer and no buffer ends within one of them. The first two are
    needed, and so is the last if nothing follows the QUIT and no length may be negative. -/
theorem dispatches_iff (server : RedisServer σ) (state : σ)
    (hwf : ∀ command ∈ commands, command.WellFormed) (hbuffers : ∀ buffer ∈ buffers, buffer ≠ [])
    (hstream : buffers.flatten = encodeAll commands) (hfuel : (encodeAll commands).length < fuel) :
    (server.Intact state buffers commands → server.Dispatches fuel state buffers commands) ∧
      (server.Dispatches fuel state buffers commands →
        (∀ command ∈ throughQuit commands, command.NulFree) ∧
          server.Answers state (throughQuit commands)) ∧
      (throughQuit commands = commands → NonnegativeLengths buffers.flatten →
        (server.Dispatches fuel state buffers commands ↔ server.Intact state buffers commands)) := by
  have hsufficient (h : server.Intact state buffers commands) :
      server.Dispatches fuel state buffers commands := h.dispatches hwf hbuffers hstream hfuel
  refine ⟨hsufficient, Dispatches.nulFree_answers, fun hquit hdata => ⟨fun h => ?_, hsufficient⟩⟩
  exact ⟨h.nulFree_answers.1, h.nulFree_answers.2, h.whole hbuffers hstream hquit hdata⟩

/-- A server of the commands that need no data. -/
def pingServer : RedisServer Unit :=
  (registerCommand ⟨fun _ => none⟩ (ofText "PING") handlePing).registerCommand (ofText "QUIT") handleQuit

def pingCommand : RedisCommand := ⟨[ofText "PING"]⟩

theorem wellFormed_pingCommand : pingCommand.WellFormed := by
  constructor <;> decide

theorem dispatches_ping : pingServer.Dispatches 15 () [pingCommand.encode] [pingCommand] := by
  have hquit : throughQuit [pingCommand] = [pingCommand] := by decide
  refine (dispatches_iff pingServer () (List.forall_mem_singleton.2 wellFormed_pingCommand)
    (List.forall_mem_singleton.2 (List.cons_ne_nil _ _)) ?_ ?_).1 ⟨?_, ?_, ?_⟩
  · rfl
  · decide
  · rw [hquit]
    exact List.forall_mem_singleton.2 (by unfold RedisCommand.NulFree; decide)
  · rw [hquit]
    exact ⟨fun h => absurd rfl h, trivial⟩
  · rw [hquit]
    intro k _
    refine ⟨k, ?_⟩
    cases k with
    | zero => rfl
    | succ k => rw [List.take_succ_cons, List.take_succ_cons, List.take_nil, List.take_nil]; rfl

/-- A command sent in two packets, the first of which has its first byte only, is lost. -/
theorem not_forall_dispatches : ¬∀ (server : RedisServer Unit) (state : Unit)
    (commands : List RedisCommand) (buffers : List Bytes) (fuel : ℕ),
    (∀ command ∈ commands, command.WellFormed) →
    (∀ buffer ∈ buffers, buffer ≠ [] ∧ buffer.length ≤ 8191) →
    buffers.flatten = encodeAll commands → (encodeAll commands).length < fuel →
    server.Dispatches fuel state buffers commands := by
  intro h
  have := h pingServer () [pingCommand] [pingCommand.encode.take 1, pingCommand.encode.drop 1] 15
    (List.forall_mem_singleton.2 wellFormed_pingCommand) (by decide) (by decide)
    (by decide)
  revert this
  unfold Dispatches
  decide

end RedisServer

end Bitcask.Redis
