import Bitcask.DB
import Bitcask.Library.Machine

/-!
# Sessions

A database in use: the process and the batches created in it, and the requests
made of them, in any order and any number. A step makes one request and tells
the writes it has acknowledged, which are those of a request that returns. A
request that throws acknowledges nothing, and its effects are kept.
-/

namespace Bitcask

open DB

/-- A process and the batches that have been created in it. -/
structure Session (ι : Type) where
  proc : Proc ι
  batches : List WriteBatch := []

/-- What may be asked of a database and its batches, which are numbered as created. -/
inductive Op
  | put (key value : Bytes)
  | remove (key : Bytes)
  | newWriteBatch (options : WriteBatchOptions)
  | batchPut (batch : ℕ) (key value : Bytes)
  | batchRemove (batch : ℕ) (key : Bytes)
  | commit (batch : ℕ)
deriving DecidableEq, Repr

/-- A write: the new value of a key, or `none` if it is removed. -/
abbrev Write := Bytes × Option Bytes

/-- The write a record of a batch stands for. -/
def LogRecord.toWrite (record : LogRecord) : Write :=
  (record.key, if record.type = .deleted then none else some record.value)

namespace Session

variable {ι : Type}

/-- Runs a request of the database itself. -/
def request (s : Session ι) (m : DBM ι Unit) (writes : List Write) : Session ι × List Write :=
  match m.run s.proc with
  | .ok _ p => ({ s with proc := p }, writes)
  | .error _ p => ({ s with proc := p }, [])

/-- Changes a batch, unless that throws. -/
def editBatch (s : Session ι) (i : ℕ) (edit : WriteBatch → Except Exn WriteBatch) : Session ι :=
  match s.batches[i]? with
  | none => s
  | some batch =>
    match edit batch with
    | .ok batch => { s with batches := s.batches.set i batch }
    | .error _ => s

theorem editBatch_proc (s : Session ι) (i : ℕ) (edit : WriteBatch → Except Exn WriteBatch) :
    (s.editBatch i edit).proc = s.proc := by
  unfold editBatch
  split
  · rfl
  · split <;> rfl

variable [Indexer ι]

/-- Commits a batch. -/
def commitBatch (s : Session ι) (i : ℕ) : Session ι × List Write :=
  match s.batches[i]? with
  | none => (s, [])
  | some batch =>
    match batch.commit.run s.proc with
    | .ok batch' p =>
      ({ proc := p, batches := s.batches.set i batch' }, batch.pendingWrites.map LogRecord.toWrite)
    | .error _ p => ({ s with proc := p }, [])

/-- Makes a request. -/
def step (s : Session ι) : Op → Session ι × List Write
  | .put key value => s.request (DB.put key value) [(key, some value)]
  | .remove key => s.request (DB.remove key) [(key, none)]
  | .newWriteBatch options =>
    ({ s with batches := s.batches ++ [WriteBatch.new s.proc.db options] }, [])
  | .batchPut i key value => (s.editBatch i fun batch => batch.put key value, [])
  | .batchRemove i key => (s.editBatch i fun batch => batch.remove key, [])
  | .commit i => s.commitBatch i

/-- The session after some requests, and the writes acknowledged. -/
def run (s : Session ι) (ops : List Op) : Session ι × List Write := Machine.run step s ops

end Session

end Bitcask
