import Bitcask.Enumeration
import Bitcask.Redis.MapDatabase

/-!
# The database behind a service

What the handlers for keys and values use of the database (`Services.Database`), over any
states, and the database that is a map (`Database.ofEntries`). A whole server also asks for
statistics, backups and merges (`FullDatabase`). A map that is told what to say of these is a
database for it, too (`FullDatabase.ofEntries`).

A handler makes one call of the database at most (`IsTask`), whatever the database is. So what
it does is known from what the database replies to this call, and which one it is can be seen
on a database that only notes what it is asked for (`FullDatabase.notes`).
-/

namespace Bitcask.Services

open Redis (Entries)

/-- A database, by what its operations return or throw and the state they leave. -/
structure Database (σ : Type) where
  put : Bytes → Bytes → σ → Except Exn Unit × σ
  get : Bytes → σ → Except Exn Bytes × σ
  remove : Bytes → σ → Except Exn Unit × σ
  listKeys : σ → Except Exn (List Bytes) × σ

/-- A map: no operation fails, and there is no exception but that of a key that is not there. -/
def Database.ofEntries : Database Entries where
  put key value entries := (.ok (), entries.insert key value)
  get key entries :=
    match entries[key]? with
    | some value => (.ok value, entries)
    | none => (.error .keyNotFound, entries)
  remove key entries := (.ok (), entries.erase key)
  listKeys entries := (.ok entries.keys, entries)

namespace Database

variable {key value : Bytes} {entries : Entries}

theorem get_insert (key value : Bytes) (entries : Entries) :
    ofEntries.get key (entries.insert key value) = (.ok value, entries.insert key value) := by
  simp [ofEntries]

theorem get_of_none (h : entries[key]? = none) :
    ofEntries.get key entries = (.error .keyNotFound, entries) := by
  simp [ofEntries, h]

/-- An entry put is told from its key and value. -/
theorem insert_inj {key' value' : Bytes}
    (h : (∅ : Entries).insert key value = (∅ : Entries).insert key' value') :
    key = key' ∧ value = value' := by
  have hget := congrArg (fun entries : Entries => entries[key]?) h
  by_cases hkey : key = key'
  · subst hkey
    exact ⟨rfl, by simpa using hget⟩
  · simp [hkey] at hget

end Database

/-! ## All operations -/

/-- A database with the operations that a map has nothing to say of. -/
structure FullDatabase (σ : Type) extends Database σ where
  stat : σ → Except Exn Stat × σ
  backup : Bytes → σ → Except Exn Unit × σ
  merge : σ → Except Exn Unit × σ

/-- What a map is told to say of statistics, backups and merges. -/
structure Told where
  stat : Stat
  backedUp : Except Exn Unit
  merged : Except Exn Unit

namespace FullDatabase

/-- A map of keys that are not empty. -/
def ofEntries (told : Told) : FullDatabase Entries where
  put key value entries :=
    if key = [] then (.error .keyEmpty, entries) else (.ok (), entries.insert key value)
  get key entries :=
    if key = [] then (.error .keyEmpty, entries)
    else (entries[key]?.elim (.error .keyNotFound) .ok, entries)
  remove key entries :=
    if key = [] then (.error .keyEmpty, entries) else (.ok (), entries.erase key)
  listKeys entries := (.ok entries.keys, entries)
  stat entries := (.ok told.stat, entries)
  backup _ entries := (told.backedUp, entries)
  merge entries := (told.merged, entries)

end FullDatabase

/-! ## Calls -/

/-- A call of a database. -/
inductive DatabaseCall
  | put (key value : Bytes)
  | get (key : Bytes)
  | remove (key : Bytes)
  | listKeys
  | stat
  | backup (dir : Bytes)
  | merge
deriving DecidableEq, Repr

/-- What a call returns or throws. -/
@[reducible]
def DatabaseCall.Reply : DatabaseCall → Type
  | put _ _ => Except Exn Unit
  | get _ => Except Exn Bytes
  | remove _ => Except Exn Unit
  | listKeys => Except Exn (List Bytes)
  | stat => Except Exn Stat
  | backup _ => Except Exn Unit
  | merge => Except Exn Unit

def FullDatabase.perform {σ : Type} (database : FullDatabase σ) (s : σ) : (c : DatabaseCall) → c.Reply × σ
  | .put key value => database.put key value s
  | .get key => database.get key s
  | .remove key => database.remove key s
  | .listKeys => database.listKeys s
  | .stat => database.stat s
  | .backup dir => database.backup dir s
  | .merge => database.merge s

/-- The writes that a call makes if it returns: none of a key that is empty. -/
def DatabaseCall.writes : DatabaseCall → List Write
  | put key value => if key = [] then [] else [(key, some value)]
  | remove key => if key = [] then [] else [(key, none)]
  | _ => []

/-- Notes what it is asked for, and throws. -/
def FullDatabase.notes : FullDatabase (Option DatabaseCall) where
  put key value _ := (.error (.bitcask ""), some (.put key value))
  get key _ := (.error (.bitcask ""), some (.get key))
  remove key _ := (.error (.bitcask ""), some (.remove key))
  listKeys _ := (.error (.bitcask ""), some .listKeys)
  stat _ := (.error (.bitcask ""), some .stat)
  backup dir _ := (.error (.bitcask ""), some (.backup dir))
  merge _ := (.error (.bitcask ""), some .merge)

/-- An answer that is known, or that is given by the reply to one call. -/
inductive Task (ρ : Type)
  | answer (a : ρ)
  | call (c : DatabaseCall) (rest : c.Reply → ρ)

namespace Task

variable {σ ρ ρ' : Type} (database : FullDatabase σ)

def run (s : σ) : Task ρ → ρ × σ
  | answer a => (a, s)
  | call c rest => (rest (database.perform s c).1, (database.perform s c).2)

def map (f : ρ → ρ') : Task ρ → Task ρ'
  | answer a => answer (f a)
  | call c rest => call c fun r => f (rest r)

/-- The call that is made, if any. -/
def call? : Task ρ → Option DatabaseCall
  | answer _ => none
  | call c _ => some c

variable {database} in
theorem run_map (f : ρ → ρ') (s : σ) (task : Task ρ) :
    (task.map f).run database s = (f (task.run database s).1, (task.run database s).2) := by
  cases task <;> rfl

end Task

/-- What is done with a database is a task, whatever the database is. -/
def IsTask {ρ : Type} (handle : {σ : Type} → FullDatabase σ → σ → ρ × σ) (task : Task ρ) : Prop :=
  ∀ {σ : Type} (database : FullDatabase σ) (s : σ), handle database s = task.run database s

section IsTask

variable {ρ ρ' : Type} {handle : {σ : Type} → FullDatabase σ → σ → ρ × σ} {task : Task ρ}

theorem IsTask.map (h : IsTask handle task) (f : ρ → ρ') :
    IsTask (fun database s => (f (handle database s).1, (handle database s).2)) (task.map f) := by
  intro σ database s
  have hrun : handle database s = task.run database s := h database s
  rw [Task.run_map, ← hrun]

/-- The call that is made is the one that is noted. -/
theorem IsTask.notes_eq (h : IsTask handle task) : (handle .notes none).2 = task.call? := by
  have hrun : handle .notes none = task.run .notes none := h .notes none
  rw [hrun]
  cases task with
  | answer a => rfl
  | call c rest => cases c <;> rfl

end IsTask

/-! ## Servers -/

/-- A server over any database: what it sends for the bytes that a connection receives. Each
    connection is a task. -/
structure Server where
  handleConnection : {σ : Type} → FullDatabase σ → Bytes → σ → Bytes × σ
  isTask : ∀ received, ∃ task, IsTask (fun database => handleConnection database received) task

/-- A connection to a server, by the bytes that it receives. -/
structure Incoming where
  server : Server
  received : Bytes

namespace Incoming

variable {σ : Type}

/-- A connection is served: the state afterwards, and what is sent. -/
def serve (database : FullDatabase σ) (s : σ) (incoming : Incoming) : σ × List Bytes :=
  let r := incoming.server.handleConnection database incoming.received s
  (r.2, [r.1])

/-- The call that is made of the database, if any. -/
def call? (incoming : Incoming) : Option DatabaseCall := (incoming.serve .notes none).1

/-- The writes that are asked for. -/
def writes (incoming : Incoming) : List Write := incoming.call?.elim [] DatabaseCall.writes

/-- The call is all that a connection does with a database. -/
theorem exists_task (incoming : Incoming) : ∃ task : Task Bytes, task.call? = incoming.call? ∧
    ∀ {σ : Type} (database : FullDatabase σ) (s : σ), incoming.serve database s =
      ((task.run database s).2, [(task.run database s).1]) := by
  obtain ⟨task, htask⟩ := incoming.server.isTask incoming.received
  refine ⟨task, htask.notes_eq.symm, fun {σ} database s => ?_⟩
  have hrun : incoming.server.handleConnection database incoming.received s = _ := htask database s
  rw [serve, hrun]

end Incoming

/-! ## The map -/

section Map

variable (entries : Entries) (key value k : Bytes)

/-- A map after a put is what it was before, with the write. -/
theorem getElem?_insert_eq : (entries.insert key value)[k]? =
    Transaction.overlay [(key, some value)] (fun k => entries[k]?) k := by
  rw [Redis.Entries.getElem?_insert, Transaction.overlay_cons, Transaction.overlay_nil,
    Function.update_apply]

theorem getElem?_erase_eq : (entries.erase key)[k]? =
    Transaction.overlay [(key, none)] (fun k => entries[k]?) k := by
  rw [Redis.Entries.getElem?_erase, Transaction.overlay_cons, Transaction.overlay_nil,
    Function.update_apply]

end Map

/-- What a map holds after a call is what it held before, with the writes of the call. -/
theorem getElem?_perform (told : Told) (entries : Entries) (c : DatabaseCall) (k : Bytes) :
    ((FullDatabase.ofEntries told).perform entries c).2[k]? =
      Transaction.overlay c.writes (fun k => entries[k]?) k := by
  cases c with
  | put key value =>
    simp only [FullDatabase.perform, FullDatabase.ofEntries, DatabaseCall.writes]
    split_ifs with hkey
    · rfl
    · exact getElem?_insert_eq entries key value k
  | remove key =>
    simp only [FullDatabase.perform, FullDatabase.ofEntries, DatabaseCall.writes]
    split_ifs with hkey
    · rfl
    · exact getElem?_erase_eq entries key k
  | get key =>
    simp only [FullDatabase.perform, FullDatabase.ofEntries]
    split_ifs <;> rfl
  | listKeys => rfl
  | stat => rfl
  | backup dir => rfl
  | merge => rfl

/-- A connection leaves the writes that it asks for. -/
theorem Incoming.getElem?_serve (told : Told) (entries : Entries) (incoming : Incoming)
    (k : Bytes) : (incoming.serve (.ofEntries told) entries).1[k]? =
      Transaction.overlay incoming.writes (fun k => entries[k]?) k := by
  obtain ⟨task, hcall, hserve⟩ := incoming.exists_task
  rw [hserve, writes, ← hcall]
  cases task with
  | answer a => rfl
  | call c rest => exact getElem?_perform told entries c k

end Bitcask.Services
