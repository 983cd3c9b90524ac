import Bitcask.Library.Transaction

/-!
# Stores with batches

What a store is for whose writes are made one by one or, those of a batch, at once. A
write gives a key a value or, for `none`, removes it. A batch takes writes, up to a
number of them, until it is committed; then it is empty again.

A store that is restarted has its values, but no batches. What a request writes is said
once, by `Store.requested`: the values afterwards are the values before with these writes
on top (`Store.values_request`).
-/

namespace BatchStore

open Transaction

variable {κ ν : Type*}

/-- Writes that are to be made at once, no more than a number of them. -/
structure Batch (κ ν : Type*) where
  maxWrites : ℕ
  writes : List (κ × Option ν) := []

/-- The values of keys, and the batches that are being filled, numbered as created. -/
structure Store (κ ν : Type*) where
  values : κ → Option ν
  batches : List (Batch κ ν) := []

/-- What may be asked of a store. -/
inductive Request (κ ν : Type*)
  | write (write : κ × Option ν)
  | newBatch (maxWrites : ℕ)
  | addToBatch (batch : ℕ) (write : κ × Option ν)
  | commit (batch : ℕ)

namespace Batch

/-- A batch with one more write, if it is `admitted` and there is room for it. -/
def add (batch : Batch κ ν) (admitted : Bool) (write : κ × Option ν) : Batch κ ν :=
  if admitted ∧ batch.writes.length < batch.maxWrites then
    { batch with writes := batch.writes ++ [write] }
  else batch

end Batch

namespace Store

variable (admits : κ → Bool)

/-- The writes a request makes, of keys that may be written. -/
def requested (s : Store κ ν) : Request κ ν → List (κ × Option ν)
  | .write w => if admits w.1 then [w] else []
  | .commit i => s.batches[i]?.elim [] Batch.writes
  | _ => []

variable [DecidableEq κ]

/-- The store after a request. -/
def request (s : Store κ ν) (r : Request κ ν) : Store κ ν where
  values := overlay (s.requested admits r) s.values
  batches := match r with
    | .write _ => s.batches
    | .newBatch maxWrites => s.batches ++ [{ maxWrites := maxWrites }]
    | .addToBatch i w => s.batches.modify i fun batch => batch.add (admits w.1) w
    | .commit i => s.batches.modify i fun batch => { batch with writes := [] }

/-- The store after it has been restarted. -/
def restart (s : Store κ ν) : Store κ ν := { values := s.values }

theorem values_request (s : Store κ ν) (r : Request κ ν) :
    (s.request admits r).values = overlay (s.requested admits r) s.values := rfl

end Store

end BatchStore
