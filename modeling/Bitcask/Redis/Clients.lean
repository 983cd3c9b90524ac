import Bitcask.Library.Interleaving
import Bitcask.Redis.Crashes

/-!
# Two clients

Two clients are served at the same time, each by a thread of its own. Every
request to the database is one step, and a schedule says whose step is next.

An operation that adds an element reads the metadata first and stores it last,
with one element more. Nothing makes the two steps one: unless one operation is over
before the other starts (`Serial`), both read the same metadata, and what is left
counts one of the two elements (`Overlapped`).
-/

namespace Bitcask.Redis

/-! ## Servers -/

/-- The database and the operations of two clients. -/
abbrev Server := Threads Command Command.Reply Exn Reply MapDB Bool

namespace Server

/-- The operations of both clients are to start. -/
def start (db : MapDB) (request : Bool → Request) : Server :=
  ⟨db, fun client => (request client).operation⟩

abbrev run (t : Server) (schedule : List Bool) : Server := Threads.run MapDB.handle t schedule

/-- Both operations have returned. -/
def Returned (t : Server) : Prop := ∀ client, ∃ reply, t.program client = .pure reply

instance (p : Operation Reply) : Decidable (∃ reply, p = .pure reply) :=
  match p with
  | .pure reply => .isTrue ⟨reply, rfl⟩
  | .throw _ => .isFalse nofun
  | .request _ _ => .isFalse nofun

instance (t : Server) : Decidable t.Returned :=
  inferInstanceAs (Decidable (∀ client, ∃ reply, t.program client = .pure reply))

/-- The entries of the database. -/
abbrev entries (t : Server) : Entries := t.state.entries

end Server

/-- The first `n` steps are all of one client. -/
def Serial (n : ℕ) (schedule : List Bool) : Prop := ∃ client, List.replicate n client <+: schedule

instance (n : ℕ) (schedule : List Bool) : Decidable (Serial n schedule) :=
  inferInstanceAs (Decidable (∃ client : Bool, List.replicate n client <+: schedule))

/-- A client that has taken `n` steps before the other has taken one. -/
theorem Serial.of_count {n : ℕ} {p schedule : List Bool} {client : Bool} (hp : p <+: schedule)
    (hn : n ≤ p.count client) (hother : p.count (!client) = 0) : Serial n schedule := by
  have hall : ∀ turn ∈ p, turn = client := by
    intro turn hturn
    by_contra hne
    exact List.count_eq_zero.1 hother (Bool.eq_not.2 hne ▸ hturn)
  refine ⟨client, .trans ?_ hp⟩
  rw [List.eq_replicate_of_mem hall, List.count_replicate_self] at hn
  rw [List.eq_replicate_of_mem hall]
  exact List.prefix_replicate_iff.2 ⟨by simpa using hn, by simp⟩

/-- Operations one after the other are served as two calls. -/
theorem Server.entries_run_of_serial {db : MapDB} {request : Bool → Request} {n : ℕ}
    {schedule : List Bool} {client : Bool} (hserial : List.replicate n client <+: schedule)
    (hcost : (request client).operation.cost MapDB.handle db ≤ n)
    (hreturned : ((start db request).run schedule).Returned) :
    ∃ clock, ((start db request).run schedule).entries =
      (serve (serve db.entries ⟨request client, db.clock⟩).1 ⟨request !client, clock⟩).1 := by
  obtain ⟨reply, hreply⟩ := hreturned (!client)
  have hstate := Threads.state_run_of_isPrefix (r := .ok reply) hserial hcost hreply
  exact ⟨(Operation.run (request client).operation db).2.clock, congrArg MapDB.entries hstate⟩

/-! ## Overlapping additions -/

/-- What a client stores that adds an element. -/
structure Addition where
  entry : Bytes
  value : Bytes
  metadata : RedisMetadata

/-- The number of requests of an operation that adds an element, which may have to
    check that it is new. -/
def turns (checks : Bool) : ℕ := if checks then 4 else 3

/-- The requests of an operation that adds an element, and the replies it gets if no
    other client has stored metadata or the same element. -/
def Addition.script (a : Addition) (key bytes : Bytes) (checks : Bool) :
    List ((c : Command) × c.Reply) :=
  ⟨.get key, .ok bytes⟩ :: (if checks then [⟨.get a.entry, .error .keyNotFound⟩] else []) ++
    [⟨.put a.entry a.value, .ok ()⟩, ⟨.put key a.metadata.encode, .ok ()⟩]

/-- What an operation does after `k` requests. -/
theorem Addition.drop_script (a : Addition) (key bytes : Bytes) (checks : Bool) (k : ℕ) :
    (k = 0 ∧ ∃ rest, (a.script key bytes checks).drop k = ⟨.get key, .ok bytes⟩ :: rest) ∨
    (checks ∧ k = 1 ∧
      ∃ rest, (a.script key bytes checks).drop k = ⟨.get a.entry, .error .keyNotFound⟩ :: rest) ∨
    (k + 2 = turns checks ∧
      ∃ rest, (a.script key bytes checks).drop k = ⟨.put a.entry a.value, .ok ()⟩ :: rest) ∨
    (k + 1 = turns checks ∧
      ∃ rest, (a.script key bytes checks).drop k = ⟨.put key a.metadata.encode, .ok ()⟩ :: rest) ∨
    (turns checks ≤ k ∧ (a.script key bytes checks).drop k = []) := by
  cases checks with
  | false =>
    match k with
    | 0 | 1 | 2 | k + 3 => simp [script, turns]
  | true =>
    match k with
    | 0 | 1 | 2 | 3 | k + 4 => simp [script, turns]

/-- The entries after each client has made some of the `n` requests of its script. -/
structure Overlapped (entries₀ : Entries) (key bytes : Bytes) (a : Bool → Addition) (n : ℕ)
    (made : Bool → ℕ) (entries : Entries) : Prop where
  untouched : (∀ client, made client < n) → entries[key]? = some bytes
  counted : (∃ client, n ≤ made client) →
    ∃ client, entries[key]? = some (a client).metadata.encode
  stored : ∀ client, n ≤ made client + 1 → entries[(a client).entry]?.isSome
  others : ∀ x ≠ key, (∀ client, n ≤ made client + 1 → x ≠ (a client).entry) →
    entries[x]? = entries₀[x]?

section Overlapped

variable {entries₀ entries : Entries} {key bytes : Bytes} {a : Bool → Addition} {n : ℕ}
  {made made' : Bool → ℕ} {i : Bool}

theorem Overlapped.congr (h : Overlapped entries₀ key bytes a n made entries)
    (hlast : ∀ client, n ≤ made' client ↔ n ≤ made client)
    (hstore : ∀ client, n ≤ made' client + 1 ↔ n ≤ made client + 1) :
    Overlapped entries₀ key bytes a n made' entries := by
  constructor
  · intro hnone
    exact h.untouched fun client => not_le.1 ((hlast client).not.1 (not_le.2 (hnone client)))
  · simp only [hlast]
    exact h.counted
  · simp only [hstore]
    exact h.stored
  · simp only [hstore]
    exact h.others

/-- A request that writes nothing. -/
theorem Overlapped.read (h : Overlapped entries₀ key bytes a n made entries)
    (hmade : ∀ client, made' client = made client ∨
      made client + 2 < n ∧ made' client = made client + 1) :
    Overlapped entries₀ key bytes a n made' entries := by
  refine h.congr (fun client => ?_) fun client => ?_
  all_goals
    have := hmade client
    omega

/-- The request that stores the element. -/
theorem Overlapped.store (h : Overlapped entries₀ key bytes a n made entries)
    (hentry : (a i).entry ≠ key) (hi : made i + 2 = n) (hmade : made' i = made i + 1)
    (hother : made' (!i) = made (!i)) :
    Overlapped entries₀ key bytes a n made' (entries.insert (a i).entry (a i).value) := by
  have hlast client : n ≤ made' client ↔ n ≤ made client := by
    rcases Bool.eq_or_eq_not client i with rfl | rfl <;> omega
  constructor
  · intro hnone
    rw [Entries.getElem?_insert, if_neg hentry.symm]
    exact h.untouched fun client => not_le.1 ((hlast client).not.1 (not_le.2 (hnone client)))
  · simp only [hlast]
    intro hsome
    rw [Entries.getElem?_insert, if_neg hentry.symm]
    exact h.counted hsome
  · intro client hclient
    rw [Entries.getElem?_insert]
    split
    · rfl
    · rename_i hne
      refine h.stored client ?_
      rcases Bool.eq_or_eq_not client i with rfl | rfl
      · exact absurd rfl hne
      · omega
  · intro x hx hnone
    rw [Entries.getElem?_insert, if_neg (hnone i (by omega))]
    refine h.others x hx fun client hclient => hnone client ?_
    rcases Bool.eq_or_eq_not client i with rfl | rfl <;> omega

/-- The request that stores the metadata. -/
theorem Overlapped.count (h : Overlapped entries₀ key bytes a n made entries)
    (hentry : ∀ client, (a client).entry ≠ key) (hi : made i + 1 = n)
    (hmade : made' i = made i + 1) (hother : made' (!i) = made (!i)) :
    Overlapped entries₀ key bytes a n made' (entries.insert key (a i).metadata.encode) := by
  have hstore client : n ≤ made' client + 1 ↔ n ≤ made client + 1 := by
    rcases Bool.eq_or_eq_not client i with rfl | rfl <;> omega
  constructor
  · intro hnone
    have := hnone i
    omega
  · intro _
    exact ⟨i, by rw [Entries.getElem?_insert, if_pos rfl]⟩
  · intro client hclient
    rw [Entries.getElem?_insert, if_neg (hentry client)]
    exact h.stored client ((hstore client).1 hclient)
  · intro x hx hnone
    rw [Entries.getElem?_insert, if_neg hx]
    exact h.others x hx fun client hclient => hnone client ((hstore client).2 hclient)

/-- A turn of a client that is done. -/
theorem Overlapped.done (h : Overlapped entries₀ key bytes a n made entries) (hi : n ≤ made i)
    (hmade : made' i = made i + 1) (hother : made' (!i) = made (!i)) :
    Overlapped entries₀ key bytes a n made' entries := by
  have hlast client : n ≤ made' client ↔ n ≤ made client := by
    rcases Bool.eq_or_eq_not client i with rfl | rfl <;> omega
  have hstore client : n ≤ made' client + 1 ↔ n ≤ made client + 1 := by
    rcases Bool.eq_or_eq_not client i with rfl | rfl <;> omega
  exact h.congr hlast hstore

/-- The step of a client that, if it is its first one, comes before the other is done. -/
theorem Overlapped.step {checks : Bool} {result : Bool → Except Exn Reply} {t : Server}
    {p : List Bool} (h : Overlapped entries₀ key bytes a (turns checks) p.count t.entries)
    (hscript : Threads.Following (fun client => (a client).script key bytes checks) result p t)
    (hentry : ∀ client, (a client).entry ≠ key)
    (hnew : checks → ∀ client, entries₀[(a client).entry]? = none ∧
      (a client).entry ≠ (a (!client)).entry)
    (hfirst : p.count i = 0 → p.count (!i) < turns checks) :
    Threads.Following (fun client => (a client).script key bytes checks) result (p ++ [i])
        (t.step MapDB.handle i) ∧
      Overlapped entries₀ key bytes a (turns checks) (p ++ [i]).count
        (Server.entries (t.step MapDB.handle i)) := by
  have hi : (p ++ [i]).count i = p.count i + 1 := by simp
  have hother : (p ++ [i]).count (!i) = p.count (!i) := by simp
  have hturns : 3 ≤ turns checks := by
    unfold turns
    split <;> omega
  rcases (a i).drop_script key bytes checks (p.count i) with ⟨hk, rest, hnext⟩ |
    ⟨hchecks, hk, rest, hnext⟩ | ⟨hk, rest, hnext⟩ | ⟨hk, rest, hnext⟩ | ⟨hk, hnext⟩
  · -- the metadata is read
    have hbytes : t.state.entries[key]? = some bytes := h.untouched fun client => by
      rcases Bool.eq_or_eq_not client i with rfl | rfl
      · omega
      · exact hfirst hk
    have hreply := MapDB.handle_get_of_some hbytes
    obtain ⟨hstate, hscript⟩ := hscript.step hnext (congrArg Prod.fst hreply)
    rw [hreply] at hstate
    refine ⟨hscript, ?_⟩
    rw [Server.entries, hstate]
    refine h.read fun client => ?_
    rcases Bool.eq_or_eq_not client i with rfl | rfl <;> omega
  · -- the element is new to both
    have hnone : t.state.entries[(a i).entry]? = none := by
      obtain ⟨hnone, hne⟩ := hnew hchecks i
      rw [← hnone]
      refine h.others _ (hentry i) fun client hclient => ?_
      rcases Bool.eq_or_eq_not client i with rfl | rfl
      · simp only [turns, hchecks, if_true] at hclient
        omega
      · exact hne
    have hreply := MapDB.handle_get_of_none hnone
    obtain ⟨hstate, hscript⟩ := hscript.step hnext (congrArg Prod.fst hreply)
    rw [hreply] at hstate
    refine ⟨hscript, ?_⟩
    rw [Server.entries, hstate]
    refine h.read fun client => ?_
    rcases Bool.eq_or_eq_not client i with rfl | rfl
    · simp only [turns, hchecks, if_true]
      omega
    · omega
  · -- the element is stored
    obtain ⟨hstate, hscript⟩ := hscript.step (h := MapDB.handle) hnext rfl
    refine ⟨hscript, ?_⟩
    rw [Server.entries, hstate]
    exact h.store (hentry i) hk hi hother
  · -- the metadata is stored
    obtain ⟨hstate, hscript⟩ := hscript.step (h := MapDB.handle) hnext rfl
    refine ⟨hscript, ?_⟩
    rw [Server.entries, hstate]
    exact h.count hentry hk hi hother
  · -- the operation is over
    obtain ⟨hstate, hscript⟩ := hscript.step_of_done hnext
    rw [hstate]
    refine ⟨hscript, h.done hk hi hother⟩

/-- What two operations that add elements have done, neither being over before the
    other has started. -/
theorem overlapped_run {request : Bool → Request} {db : MapDB} {checks : Bool}
    {result : Bool → Except Exn Reply} {schedule : List Bool}
    (hfollows : ∀ client, (request client).operation.Follows ((a client).script key bytes checks)
      (result client))
    (hbytes : db.entries[key]? = some bytes) (hentry : ∀ client, (a client).entry ≠ key)
    (hnew : checks → ∀ client, db.entries[(a client).entry]? = none ∧
      (a client).entry ≠ (a (!client)).entry)
    (hserial : ¬Serial (turns checks) schedule) {p : List Bool} (hp : p <+: schedule) :
    Threads.Following (fun client => (a client).script key bytes checks) result p
        ((Server.start db request).run p) ∧
      Overlapped db.entries key bytes a (turns checks) p.count
        ((Server.start db request).run p).entries := by
  induction p using List.reverseRecOn with
  | nil =>
    have hturns : ¬turns checks ≤ 0 + 1 := by
      unfold turns
      split <;> omega
    refine ⟨hfollows, fun _ => hbytes, ?_, fun _ hturn => absurd hturn hturns, fun _ _ _ => rfl⟩
    rintro ⟨client, hclient⟩
    exact absurd (Nat.le_succ_of_le hclient) hturns
  | append_singleton p i ih =>
    have hp' := (List.prefix_append p [i]).trans hp
    obtain ⟨hscript, h⟩ := ih hp'
    have hrun : (Server.start db request).run (p ++ [i]) =
        Threads.step MapDB.handle ((Server.start db request).run p) i :=
      Threads.run_append _ _ _
    rw [hrun]
    refine h.step hscript hentry hnew fun hi => ?_
    by_contra hn
    exact hserial (.of_count hp' (not_lt.1 hn) (by simpa using hi))

/-- What they have done when both have returned. -/
theorem overlapped_of_returned {request : Bool → Request} {db : MapDB} {checks : Bool}
    {result : Bool → Except Exn Reply} {schedule : List Bool}
    (hfollows : ∀ client, (request client).operation.Follows ((a client).script key bytes checks)
      (result client))
    (hbytes : db.entries[key]? = some bytes) (hentry : ∀ client, (a client).entry ≠ key)
    (hnew : checks → ∀ client, db.entries[(a client).entry]? = none ∧
      (a client).entry ≠ (a (!client)).entry)
    (hserial : ¬Serial (turns checks) schedule)
    (hreturned : ((Server.start db request).run schedule).Returned) :
    Overlapped db.entries key bytes a (turns checks) (fun _ => turns checks)
      ((Server.start db request).run schedule).entries := by
  obtain ⟨hscript, h⟩ := overlapped_run hfollows hbytes hentry hnew hserial List.prefix_rfl
  have hdone client : turns checks ≤ schedule.count client := by
    obtain ⟨reply, hreply⟩ := hreturned client
    have hclient := hscript client
    rw [hreply] at hclient
    -- a script that goes on makes a request
    rcases (a client).drop_script key bytes checks (schedule.count client) with ⟨-, rest, hnext⟩ |
      ⟨-, -, rest, hnext⟩ | ⟨-, rest, hnext⟩ | ⟨-, rest, hnext⟩ | ⟨hk, -⟩
    any_goals
      rw [hnext] at hclient
      obtain ⟨_, hp, -⟩ := hclient
      cases hp
    exact hk
  constructor
  · intro hnone
    exact absurd (hnone true) (lt_irrefl _)
  · intro _
    exact h.counted ⟨true, hdone true⟩
  · intro client _
    exact h.stored client (Nat.le_succ_of_le (hdone client))
  · intro x hx hne
    exact h.others x hx fun client _ => hne client (Nat.le_succ _)

end Overlapped

end Bitcask.Redis
