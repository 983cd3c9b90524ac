import Bitcask.Redis.Consistency
import Bitcask.Redis.Interference

/-!
# Operations that are cut short

An operation on a collection writes twice, first the element, then the metadata
that counts it, and nothing makes the two writes one. When the process stops
between them, or the second one throws, the collection is left inconsistent, and
in no other case (`Request.Updates`).

Which writes fail is any function of their number (`Faults`): a process that has
stopped is one whose writes all fail from some point on.
-/

namespace Bitcask.Redis

/-! ## Writes that fail -/

/-- The exceptions thrown by the writes of an operation, in the order they are tried. -/
abbrev Faults := ℕ → Option Exn

/-- A database that is a map, and the number of writes tried so far. -/
structure FaultyDB where
  db : MapDB
  writes : ℕ

namespace FaultyDB

def write (fails : Faults) (s : FaultyDB) (db : MapDB) : Except Exn Unit × FaultyDB :=
  match fails s.writes with
  | some e => (.error e, { s with writes := s.writes + 1 })
  | none => (.ok (), { db, writes := s.writes + 1 })

def handle (fails : Faults) (c : Command) (s : FaultyDB) : c.Reply × FaultyDB :=
  match c with
  | .put key value => s.write fails (s.db.insert key value)
  | .remove key => s.write fails (s.db.erase key)
  | .get key => ((MapDB.handle (.get key) s.db).1, s)
  | .iterate => (s.db.entries.keys, s)
  | .now => (s.db.clock 0, { s with db := s.db.tick })

end FaultyDB

/-- The result of an operation whose writes may fail, and the map after it. -/
def Operation.runFaulty {α : Type} (fails : Faults) (p : Operation α) (s : FaultyDB) :
    Except Exn α × FaultyDB :=
  Program.run (FaultyDB.handle fails) p s

/-- The entries after a call whose writes may fail. -/
def entriesAfter (fails : Faults) (entries : Entries) (call : Call) : Entries :=
  (Operation.runFaulty fails call.request.operation ⟨⟨entries, call.clock⟩, 0⟩).2.db.entries

/-- The entries after two writes: the first is not made, or the second is not, or both are. -/
def afterTwo (fails : Faults) (n : ℕ) (entries₀ entries₁ entries₂ : Entries) : Entries :=
  if (fails n).isSome then entries₀ else if (fails (n + 1)).isSome then entries₁ else entries₂

section Runs

variable {fails : Faults} {α β : Type} {key value : Bytes}

theorem runFaulty_bind_of_ok {p : Operation α} {f : α → Operation β} {s s' : FaultyDB} {a : α}
    (hp : Operation.runFaulty fails p s = (.ok a, s')) :
    Operation.runFaulty fails (p >>= f) s = Operation.runFaulty fails (f a) s' :=
  Program.run_bind_of_ok hp

theorem runFaulty_bind_of_error {p : Operation α} {f : α → Operation β} {s s' : FaultyDB} {e : Exn}
    (hp : Operation.runFaulty fails p s = (.error e, s')) :
    Operation.runFaulty fails (p >>= f) s = (.error e, s') :=
  Program.run_bind_of_error hp

/-- Naming the result changes nothing in the database. -/
theorem runFaulty_map_snd (p : Operation α) (f : α → β) (s : FaultyDB) :
    (Operation.runFaulty fails (do return f (← p)) s).2 = (Operation.runFaulty fails p s).2 := by
  rcases hp : Operation.runFaulty fails p s with ⟨result, s'⟩
  cases result with
  | ok a => rw [runFaulty_bind_of_ok hp]; rfl
  | error e => rw [runFaulty_bind_of_error hp]

/-- An operation that is one write, which changes the entries by `f`. -/
def IsWrite (fails : Faults) (p : Operation Unit) (f : Entries → Entries) : Prop :=
  ∀ s, Operation.runFaulty fails p s = s.write fails { s.db with entries := f s.db.entries }

theorem isWrite_put (fails : Faults) (key value : Bytes) :
    IsWrite fails (DB.put key value) (·.insert key value) := by
  intro s
  show Program.run _ (ofReply (s.write fails _).1) (s.write fails _).2 = _
  unfold FaultyDB.write
  split <;> rfl

theorem isWrite_remove (fails : Faults) (key : Bytes) :
    IsWrite fails (DB.remove key) (·.erase key) := by
  intro s
  show Program.run _ (ofReply (s.write fails _).1) (s.write fails _).2 = _
  unfold FaultyDB.write
  split <;> rfl

/-- The entries once metadata is stored, or the key of an empty collection removed. -/
def storeOrErase (key : Bytes) (m : RedisMetadata) (entries : Entries) : Entries :=
  if m.size = 0 then entries.erase key else entries.insert key m.encode

theorem isWrite_putOrRemove (fails : Faults) (key : Bytes) (m : RedisMetadata) :
    IsWrite fails (putOrRemove key m) (storeOrErase key m) := by
  unfold putOrRemove storeOrErase
  by_cases hsize : m.size = 0
  · simp only [if_pos hsize]
    exact isWrite_remove fails key
  · simp only [if_neg hsize]
    exact isWrite_put fails key _

/-- Two writes, of which the second is tried only after the first is made. -/
theorem runFaulty_two {p q : Operation Unit} {f g : Entries → Entries} (hp : IsWrite fails p f)
    (hq : IsWrite fails q g) (a : α) (s : FaultyDB) :
    (Operation.runFaulty fails (do p; q; return a) s).2.db.entries =
      afterTwo fails s.writes s.db.entries (f s.db.entries) (g (f s.db.entries)) := by
  have hp := hp s
  unfold FaultyDB.write at hp
  unfold afterTwo
  cases hfirst : fails s.writes with
  | some e =>
    rw [hfirst] at hp
    rw [runFaulty_bind_of_error hp]
    rfl
  | none =>
    rw [hfirst] at hp
    have hq := hq ⟨{ s.db with entries := f s.db.entries }, s.writes + 1⟩
    unfold FaultyDB.write at hq
    rw [runFaulty_bind_of_ok hp]
    cases hsecond : fails (s.writes + 1) with
    | some e =>
      simp only [hsecond] at hq
      rw [runFaulty_bind_of_error hq]
      rfl
    | none =>
      simp only [hsecond] at hq
      rw [runFaulty_bind_of_ok hq]
      rfl

/-- A handler that only returns changes nothing in the database. -/
theorem runFaulty_catchKeyNotFound_snd (fails : Faults) (p : Operation α) (a : α) (s : FaultyDB) :
    (Operation.runFaulty fails (catchKeyNotFound p (pure a)) s).2 =
      (Operation.runFaulty fails p s).2 := by
  induction p generalizing s with
  | pure a => rfl
  | throw e =>
    show (Program.run _ (ite _ _ _) s).2 = _
    split <;> rfl
  | request c rest ih => exact ih _ _

end Runs

/-! ## Metadata -/

/-- The metadata stored under a key, which has not expired. -/
def Present (entries : Entries) (key : Bytes) (dataType : RedisDataType) (clock : Clock)
    (m : RedisMetadata) : Prop :=
  ∃ bytes, entries[key]? = some bytes ∧ RedisMetadata.decode bytes = .ok m ∧
    m.dataType = dataType ∧ (m.expire = 0 ∨ clock 0 < m.expire)

section FindMetadata

variable {fails : Faults} {key : Bytes} {dataType : RedisDataType} {s : FaultyDB}

theorem handle_get_of_some {bytes : Bytes} (h : s.db.entries[key]? = some bytes) :
    FaultyDB.handle fails (.get key) s = (.ok bytes, s) := by
  simp [FaultyDB.handle, MapDB.handle, h]

theorem handle_get_of_none (h : s.db.entries[key]? = none) :
    FaultyDB.handle fails (.get key) s = (.error .keyNotFound, s) := by
  simp [FaultyDB.handle, MapDB.handle, h]

/-- Metadata that is present is found, and nothing is written. -/
theorem Present.runFaulty {m : RedisMetadata} (fails : Faults)
    (h : Present s.db.entries key dataType s.db.clock m) :
    ∃ clock, Operation.runFaulty fails (findMetadata key dataType) s =
      (.ok m, { s with db := ⟨s.db.entries, clock⟩ }) := by
  obtain ⟨bytes, hbytes, hm, htype, hexpire⟩ := h
  rw [findMetadata_eq]
  show ∃ clock, Program.run _ (onReply key dataType (FaultyDB.handle fails (.get key) s).1)
    (FaultyDB.handle fails (.get key) s).2 = _
  rw [handle_get_of_some hbytes]
  rcases hexpire with hexpire | hclock
  · rw [onReply_lasting hm htype hexpire]
    exact ⟨_, rfl⟩
  · rw [onReply_expiring hm htype (UInt64.lt_of_le_of_lt UInt64.zero_le hclock)]
    show ∃ clock, Program.run _ (if _ ≤ s.db.clock 0 then _ else _) { s with db := s.db.tick } = _
    rw [if_neg (UInt64.not_le.2 hclock)]
    exact ⟨_, rfl⟩

/-- The old collection is removed first: if that throws, nothing is made. -/
theorem runFaulty_renewMetadata (key : Bytes) (dataType : RedisDataType) (s : FaultyDB)
    (hfails : ∀ n, fails n ≠ some .keyNotFound) :
    (∃ e s', Operation.runFaulty fails (renewMetadata key dataType) s = (.error e, s') ∧
        s'.db.entries = s.db.entries) ∨
      ∃ n, Operation.runFaulty fails (renewMetadata key dataType) s =
        (.ok (.create dataType (s.db.clock 0)), ⟨(s.db.erase key).tick, n⟩) := by
  have hrun : Operation.runFaulty fails (renewMetadata key dataType) s =
      Program.run (FaultyDB.handle fails)
        (catchKeyNotFound (do let _ ← ofReply (s.write fails (s.db.erase key)).1
                              newMetadata dataType) (newMetadata dataType))
        (s.write fails (s.db.erase key)).2 :=
    rfl
  rw [hrun]
  unfold FaultyDB.write
  cases hfail : fails s.writes with
  | some e =>
    have he : e ≠ .keyNotFound := by
      rintro rfl
      exact hfails _ hfail
    refine .inl ⟨e, { s with writes := s.writes + 1 }, ?_, rfl⟩
    show Program.run _ (ite _ _ _) _ = _
    rw [if_neg he]
    rfl
  | none => exact .inr ⟨_, rfl⟩

/-- Otherwise a collection is made, whose key is not there, or an exception thrown
    that has changed nothing. -/
theorem runFaulty_findMetadata_of_not_present (hfails : ∀ n, fails n ≠ some .keyNotFound)
    (h : ∀ m, ¬Present s.db.entries key dataType s.db.clock m) :
    (∃ v s', Operation.runFaulty fails (findMetadata key dataType) s =
        (.ok (.create dataType v), s') ∧ s'.db.entries[key]? = none ∧
        Finds key dataType s.db (.ok (.create dataType v)) s'.db) ∨
      ∃ e s', Operation.runFaulty fails (findMetadata key dataType) s = (.error e, s') ∧
        s'.db.entries = s.db.entries := by
  have hrun : Operation.runFaulty fails (findMetadata key dataType) s =
      Program.run (FaultyDB.handle fails) (onReply key dataType (FaultyDB.handle fails (.get key) s).1)
        (FaultyDB.handle fails (.get key) s).2 := by
    rw [findMetadata_eq]
    rfl
  obtain ⟨result, s', hfinds⟩ := exists_finds key dataType s.db
  cases hfinds with
  | absent hbytes =>
    rw [handle_get_of_none hbytes, onReply_absent] at hrun
    exact .inl ⟨_, _, hrun, hbytes, .absent hbytes⟩
  | invalid hbytes hm =>
    rw [handle_get_of_some hbytes, onReply_invalid hm] at hrun
    exact .inr ⟨_, _, hrun, rfl⟩
  | wrongType hbytes hm htype =>
    rw [handle_get_of_some hbytes, onReply_wrongType hm htype] at hrun
    exact .inr ⟨_, _, hrun, rfl⟩
  | lasting hbytes hm htype hexpire => exact absurd ⟨_, hbytes, hm, htype, .inl hexpire⟩ (h _)
  | current hbytes hm htype hclock => exact absurd ⟨_, hbytes, hm, htype, .inr hclock⟩ (h _)
  | expired hbytes hm htype hexpire hclock =>
    rw [handle_get_of_some hbytes, onReply_expiring hm htype hexpire] at hrun
    replace hrun : _ = Program.run (FaultyDB.handle fails)
      (if _ ≤ s.db.clock 0 then _ else _) { s with db := s.db.tick } := hrun
    rw [if_pos hclock] at hrun
    rcases runFaulty_renewMetadata key dataType { s with db := s.db.tick } hfails with
      ⟨e, s', he, hs'⟩ | ⟨n, hok⟩
    · exact .inr ⟨e, s', hrun.trans he, hs'⟩
    · refine .inl ⟨_, _, hrun.trans hok, ?_, .expired hbytes hm htype hexpire hclock⟩
      exact (Entries.getElem?_erase ..).trans (if_pos rfl)

end FindMetadata

/-! ## Updates -/

namespace Request

/-- The requests that add or remove an element of a hash, a set or a list. -/
def changesElements : Request → Bool
  | hset .. | hdel .. | sadd .. | srem .. | lpush .. | rpush .. | lpop .. | rpop .. => true
  | _ => false

/-- The request adds or removes an element of the collection found. -/
def Updates (m : RedisMetadata) (entries : Entries) : Request → Prop
  | hset key field _ => entries[internalKey key m.version field]? = none
  | sadd key member => entries[internalKey key m.version member]? = none
  | lpush .. | rpush .. => True
  | hdel .. | srem .. | lpop .. | rpop .. => m.size ≠ 0
  | _ => False

/-- The collection has room for the element that is added. -/
def HasRoom (m : RedisMetadata) : Request → Prop
  | hset .. | sadd .. | lpush .. | rpush .. => m.size.toNat + 1 < 2 ^ 32
  | _ => True

/-- The element that is removed from a hash or a set is there. -/
def RemovesStored (m : RedisMetadata) (entries : Entries) : Request → Prop
  | hdel key field => m.size ≠ 0 → entries[internalKey key m.version field]?.isSome
  | srem key member => m.size ≠ 0 → entries[internalKey key m.version member]?.isSome
  | _ => True

end Request

/-- What is left of a collection: what it was, or what two writes make of it. -/
inductive Outcome (fails : Faults) (n : ℕ) (entries : Entries) (key : Bytes) (m : RedisMetadata)
    (updates : Prop) (final : Entries) : Prop
  | kept : ¬updates → final[key]? = entries[key]? → Counts final key m →
      Outcome fails n entries key m updates final
  | updated (entries₁ entries₂ : Entries) : updates →
      final = afterTwo fails n entries entries₁ entries₂ → entries₁[key]? = entries[key]? →
      ¬Counts entries₁ key m → Consistent entries₂ key →
      Outcome fails n entries key m updates final

section Outcome

variable {fails : Faults} {key e value : Bytes} {m m' : RedisMetadata} {s : FaultyDB}
  {entries : Entries}

theorem consistent_insert_encode (htype : m.dataType ∈ collectionTypes)
    (h : Counts entries key m) : Consistent (entries.insert key m.encode) key := by
  refine (consistent_iff (m := m.stored) ((Entries.getElem?_insert ..).trans (if_pos rfl))
    m.decode_encode (by rwa [m.dataType_stored])).2 ?_
  rwa [counts_insert_key, counts_stored]

theorem consistent_storeOrErase (htype : m.dataType ∈ collectionTypes)
    (h : Counts entries key m) : Consistent (storeOrErase key m entries) key := by
  unfold storeOrErase
  split
  · exact .of_absent ((Entries.getElem?_erase ..).trans (if_pos rfl))
  · exact consistent_insert_encode htype h

theorem getElem?_insert_internalKey (entries : Entries) (key value : Bytes) (v : UInt64) (e : Bytes) :
    (entries.insert (internalKey key v e) value)[key]? = entries[key]? := by
  rw [Entries.getElem?_insert, if_neg (internalKey_ne key v e).symm]

theorem getElem?_erase_internalKey (entries : Entries) (key : Bytes) (v : UInt64) (e : Bytes) :
    (entries.erase (internalKey key v e))[key]? = entries[key]? := by
  rw [Entries.getElem?_erase, if_neg (internalKey_ne key v e).symm]

theorem runFaulty_get (x : Bytes) (hx : entries = s.db.entries) :
    Operation.runFaulty fails (DB.get x) s =
      (match entries[x]? with
        | some value => .ok value
        | none => .error .keyNotFound, s) := by
  subst hx
  show Program.run _ (ofReply (FaultyDB.handle fails (.get x) s).1)
    (FaultyDB.handle fails (.get x) s).2 = _
  cases h : s.db.entries[x]? with
  | none => rw [handle_get_of_none h]; rfl
  | some value => rw [handle_get_of_some h]; rfl

theorem runFaulty_stored (x : Bytes) (s : FaultyDB) :
    Operation.runFaulty fails (stored x) s = (.ok s.db.entries[x]?.isSome, s) := by
  show Program.run _ (catchKeyNotFound (do
    let _ ← ofReply (FaultyDB.handle fails (.get x) s).1; return true) (return false))
    (FaultyDB.handle fails (.get x) s).2 = _
  cases h : s.db.entries[x]? with
  | none => rw [handle_get_of_none h]; rfl
  | some value => rw [handle_get_of_some h]; rfl

/-- Adding an element to a hash or a set, if it is new. -/
theorem outcome_add (hcounts : Counts s.db.entries key m) (hlist : m.dataType ≠ .list)
    (htype : m.dataType ∈ collectionTypes) (hroom : m.size.toNat + 1 < 2 ^ 32)
    (hnew : s.db.entries[internalKey key m.version e]? = none) {updates : Prop} (hupdates : updates) :
    Outcome fails s.writes s.db.entries key m updates
      (Operation.runFaulty fails (do
        DB.put (internalKey key m.version e) value
        DB.put key { m with size := m.size + 1 }.encode
        return true) s).2.db.entries := by
  refine .updated _ _ hupdates (runFaulty_two (isWrite_put _ _ _) (isWrite_put _ _ _) true s)
    (getElem?_insert_internalKey ..) (hcounts.not_insert (fun h => absurd h hlist) hnew) ?_
  exact consistent_insert_encode htype (hcounts.insert_element hlist hroom hnew)

/-- Removing an element of a hash or a set, if there are any. -/
theorem outcome_remove (hcounts : Counts s.db.entries key m) (hlist : m.dataType ≠ .list)
    (htype : m.dataType ∈ collectionTypes)
    (hstored : m.size ≠ 0 → s.db.entries[internalKey key m.version e]?.isSome) :
    Outcome fails s.writes s.db.entries key m (m.size ≠ 0)
      (Operation.runFaulty fails (removeElement key (internalKey key m.version e) m) s).2.db.entries := by
  unfold removeElement
  split
  · rename_i hsize
    exact .kept (not_not.2 hsize) rfl hcounts
  · rename_i hsize
    have hcatch := runFaulty_catchKeyNotFound_snd fails (do
      DB.remove (internalKey key m.version e)
      putOrRemove key { m with size := m.size - 1 }
      return true) false s
    refine .updated _ _ hsize ((congrArg (·.db.entries) hcatch).trans
      (runFaulty_two (isWrite_remove _ _) (isWrite_putOrRemove _ _ _) true s))
      (getElem?_erase_internalKey ..)
      (hcounts.not_erase (fun h => absurd h hlist) (hstored hsize)) ?_
    exact consistent_storeOrErase htype (hcounts.erase_element hlist (hstored hsize))

/-- Pushing an element next to those of a list. -/
theorem outcome_push {index : UInt64} (hversion : m'.version = m.version)
    (htype : m'.dataType ∈ collectionTypes)
    (hnot : ¬Counts (s.db.entries.insert (elementKey key m.version index) e) key m)
    (hcounts : Counts (s.db.entries.insert (elementKey key m.version index) e) key m') :
    Outcome fails s.writes s.db.entries key m True
      (Operation.runFaulty fails (pushElement key e index m') s).2.db.entries := by
  have hrun := runFaulty_two (isWrite_put fails (elementKey key m'.version index) e)
    (isWrite_put _ key m'.encode) m'.size s
  rw [hversion] at hrun
  refine .updated (s.db.entries.insert (elementKey key m.version index) e) _ trivial ?_
    (getElem?_insert_internalKey ..) hnot (consistent_insert_encode htype hcounts)
  rw [← hrun, ← hversion]
  rfl

/-- Popping an element of a list. -/
theorem outcome_pop {index : UInt64} (hversion : m'.version = m.version)
    (htype : m'.dataType ∈ collectionTypes) (hsize : m.size ≠ 0)
    (hstored : s.db.entries[elementKey key m.version index]?.isSome)
    (hnot : ¬Counts (s.db.entries.erase (elementKey key m.version index)) key m)
    (hcounts : Counts (s.db.entries.erase (elementKey key m.version index)) key m') :
    Outcome fails s.writes s.db.entries key m (m.size ≠ 0)
      (Operation.runFaulty fails (popElement key index m') s).2.db.entries := by
  obtain ⟨value, hvalue⟩ := Option.isSome_iff_exists.1 hstored
  have hget : Operation.runFaulty fails (DB.get (elementKey key m'.version index)) s =
      (.ok value, s) := by
    rw [runFaulty_get _ rfl, hversion, hvalue]
  have hrun := runFaulty_two (isWrite_remove fails (elementKey key m'.version index))
    (isWrite_putOrRemove _ key m') value s
  rw [hversion] at hrun
  refine .updated (s.db.entries.erase (elementKey key m.version index)) _ hsize ?_
    (getElem?_erase_internalKey ..) hnot (consistent_storeOrErase htype hcounts)
  rw [← hrun, ← hversion]
  exact congrArg (fun r : _ × FaultyDB => r.2.db.entries) (runFaulty_bind_of_ok hget)

/-- Storing an element that is there already, and no metadata. -/
theorem outcome_replace {α : Type} (a : α) (hcounts : Counts s.db.entries key m)
    (hstored : s.db.entries[internalKey key m.version e]?.isSome) {updates : Prop}
    (hupdates : ¬updates) :
    Outcome fails s.writes s.db.entries key m updates
      (Operation.runFaulty fails (do
        DB.put (internalKey key m.version e) value
        return a) s).2.db.entries := by
  have hput := isWrite_put fails (internalKey key m.version e) value s
  unfold FaultyDB.write at hput
  cases hfail : fails s.writes with
  | some e' =>
    rw [hfail] at hput
    rw [runFaulty_bind_of_error hput]
    exact .kept hupdates rfl hcounts
  | none =>
    rw [hfail] at hput
    rw [runFaulty_bind_of_ok hput]
    exact .kept hupdates (getElem?_insert_internalKey ..)
      ((counts_insert_of_isSome hstored).2 hcounts)

/-- Once its metadata is found, a request goes on with it. -/
theorem runFaulty_find_snd {α β : Type} {p : Operation RedisMetadata}
    {g : RedisMetadata → Operation α} (f : α → β) {s₀ : FaultyDB}
    (hfind : Operation.runFaulty fails p s₀ = (.ok m, s)) :
    (Operation.runFaulty fails (do return f (← p >>= g)) s₀).2 =
      (Operation.runFaulty fails (g m) s).2 := by
  rw [runFaulty_map_snd, runFaulty_bind_of_ok hfind]

/-- What is left of the collection that a request has found. -/
theorem Request.outcome {r : Request} {dataType : RedisDataType} {s₀ : FaultyDB}
    (hr : r.changesElements = true) (htype : r.dataType? = some dataType)
    (hfind : Operation.runFaulty fails (findMetadata r.key dataType) s₀ = (.ok m, s))
    (hm : m.dataType = dataType) (hcounts : Counts s.db.entries r.key m)
    (hroom : r.HasRoom m) (hremoves : r.RemovesStored m s.db.entries) :
    Outcome fails s.writes s.db.entries r.key m (r.Updates m s.db.entries)
      (Operation.runFaulty fails r.operation s₀).2.db.entries := by
  have hcollection : m.dataType ∈ collectionTypes := by
    rw [hm]
    cases r <;> cases htype <;> decide
  cases r <;> simp only [Request.changesElements, reduceCtorEq] at hr <;> cases htype
  case hset key field value =>
    have hlist : m.dataType ≠ .list := by rw [hm]; decide
    have hrun : (Operation.runFaulty fails (Request.hset key field value).operation s₀).2 = _ :=
      runFaulty_find_snd Reply.flag hfind
    rw [hrun, runFaulty_bind_of_ok (runFaulty_stored _ s)]
    cases hstored : s.db.entries[HashInternalKey.encode ⟨key, m.version, field⟩]? with
    | none => exact outcome_add hcounts hlist hcollection hroom hstored hstored
    | some value' =>
      refine outcome_replace false hcounts (Option.isSome_of_eq_some hstored) ?_
      exact fun h => nomatch h.symm.trans hstored
  case hdel key field =>
    have hlist : m.dataType ≠ .list := by rw [hm]; decide
    have hrun : (Operation.runFaulty fails (Request.hdel key field).operation s₀).2 = _ :=
      runFaulty_find_snd Reply.flag hfind
    rw [hrun]
    exact outcome_remove hcounts hlist hcollection hremoves
  case sadd key member =>
    have hlist : m.dataType ≠ .list := by rw [hm]; decide
    have hrun : (Operation.runFaulty fails (Request.sadd key member).operation s₀).2 = _ :=
      runFaulty_find_snd Reply.flag hfind
    rw [hrun, runFaulty_bind_of_ok (runFaulty_stored _ s)]
    cases hstored : s.db.entries[SetInternalKey.encode ⟨key, m.version, member⟩]? with
    | none => exact outcome_add hcounts hlist hcollection hroom hstored hstored
    | some value' => exact .kept (fun h => nomatch h.symm.trans hstored) rfl hcounts
  case srem key member =>
    have hlist : m.dataType ≠ .list := by rw [hm]; decide
    have hrun : (Operation.runFaulty fails (Request.srem key member).operation s₀).2 = _ :=
      runFaulty_find_snd Reply.flag hfind
    rw [hrun]
    exact outcome_remove hcounts hlist hcollection hremoves
  case lpush key element =>
    have hrun : (Operation.runFaulty fails (Request.lpush key element).operation s₀).2 = _ :=
      runFaulty_find_snd Reply.number hfind
    have hmarked := hcounts.marked hm
    have hlist : m.marked.dataType = .list := m.dataType_marked.trans hm
    have hnew := hmarked.not_isSome_head hlist
    have hpush : Counts (s.db.entries.insert _ element) _ _ :=
      hmarked.pushFront hlist (by rw [m.size_marked]; exact hroom)
    rw [m.version_marked] at hnew hpush
    rw [hrun]
    exact outcome_push m.version_marked (by rwa [← m.dataType_marked] at hcollection)
      (hcounts.not_insert (fun _ => ⟨_, rfl⟩) hnew) hpush
  case rpush key element =>
    have hrun : (Operation.runFaulty fails (Request.rpush key element).operation s₀).2 = _ :=
      runFaulty_find_snd Reply.number hfind
    have hmarked := hcounts.marked hm
    have hlist : m.marked.dataType = .list := m.dataType_marked.trans hm
    have hnew := hmarked.not_isSome_tail hlist
    have hpush : Counts (s.db.entries.insert _ element) _ _ :=
      hmarked.pushBack hlist (by rw [m.size_marked]; exact hroom)
    rw [m.version_marked] at hnew hpush
    rw [hrun]
    exact outcome_push m.version_marked (by rwa [← m.dataType_marked] at hcollection)
      (hcounts.not_insert (fun _ => ⟨_, rfl⟩) hnew) hpush
  case lpop key =>
    have hrun : (Operation.runFaulty fails (Request.lpop key).operation s₀).2 = _ :=
      runFaulty_find_snd Reply.text hfind
    rw [hrun]
    split
    · rename_i hsize
      exact .kept (not_not.2 hsize) rfl hcounts
    · rename_i hsize
      have hstored := hcounts.isSome_head hm hsize
      exact outcome_pop rfl hcollection hsize hstored
        (hcounts.not_erase (fun _ => ⟨_, rfl⟩) hstored) (hcounts.popFront hm hsize)
  case rpop key =>
    have hrun : (Operation.runFaulty fails (Request.rpop key).operation s₀).2 = _ :=
      runFaulty_find_snd Reply.text hfind
    rw [hrun]
    split
    · rename_i hsize
      exact .kept (not_not.2 hsize) rfl hcounts
    · rename_i hsize
      have hstored := hcounts.isSome_tail hm hsize
      exact outcome_pop rfl hcollection hsize hstored
        (hcounts.not_erase (fun _ => ⟨_, rfl⟩) hstored) (hcounts.popBack hm hsize)

end Outcome

/-! ## Calls that are cut short -/

/-- The collection a call finds has room for an element to add, an element to remove
    is there, and a collection that is made finds no entry of its version. -/
structure Ready (entries : Entries) (call : Call) : Prop where
  room : ∀ dataType m s, call.request.dataType? = some dataType →
    Finds call.request.key dataType ⟨entries, call.clock⟩ (.ok m) s → call.request.HasRoom m
  stored : ∀ dataType m s, call.request.dataType? = some dataType →
    Finds call.request.key dataType ⟨entries, call.clock⟩ (.ok m) s →
    call.request.RemovesStored m entries
  fresh : ∀ dataType v s, call.request.dataType? = some dataType →
    (∀ m, ¬Present entries call.request.key dataType call.clock m) →
    Finds call.request.key dataType ⟨entries, call.clock⟩ (.ok (.create dataType v)) s →
    elementKeys entries call.request.key v = []

/-- The call adds an element to a collection that is there, or removes one. -/
def UpdatesPresent (entries : Entries) (call : Call) : Prop :=
  ∃ dataType m, call.request.dataType? = some dataType ∧
    Present entries call.request.key dataType call.clock m ∧ call.request.Updates m entries

theorem Present.unique {entries : Entries} {key : Bytes} {dataType : RedisDataType} {clock : Clock}
    {m m' : RedisMetadata} (h : Present entries key dataType clock m)
    (h' : Present entries key dataType clock m') : m = m' := by
  obtain ⟨bytes, hbytes, hm, -⟩ := h
  obtain ⟨bytes', hbytes', hm', -⟩ := h'
  obtain rfl := Option.some.inj (hbytes.symm.trans hbytes')
  exact Except.ok.inj (hm.symm.trans hm')

theorem Present.finds {s : MapDB} {key : Bytes} {dataType : RedisDataType} {m : RedisMetadata}
    (h : Present s.entries key dataType s.clock m) : ∃ s', Finds key dataType s (.ok m) s' := by
  obtain ⟨bytes, hbytes, hm, htype, hexpire | hclock⟩ := h
  · exact ⟨_, .lasting hbytes hm htype hexpire⟩
  · exact ⟨_, .current hbytes hm htype hclock⟩

/-- A call on a collection that is there finds nothing else. -/
theorem Ready.of_present {entries : Entries} {r : Request} {clock : Clock}
    {dataType : RedisDataType} {m : RedisMetadata} (htype : r.dataType? = some dataType)
    (hm : Present entries r.key dataType clock m) (hroom : r.HasRoom m)
    (hstored : r.RemovesStored m entries) : Ready entries ⟨r, clock⟩ := by
  obtain ⟨s', hfinds⟩ := hm.finds (s := ⟨entries, clock⟩)
  have hunique {dataType' m' s''} (htype' : r.dataType? = some dataType')
      (hfinds' : Finds r.key dataType' ⟨entries, clock⟩ (.ok m') s'') : m' = m := by
    obtain rfl := Option.some.inj (htype.symm.trans htype')
    have heq := hfinds'.run.symm.trans hfinds.run
    cases heq
    rfl
  constructor
  · intro dataType' m' s'' htype' hfinds'
    rwa [hunique htype' hfinds']
  · intro dataType' m' s'' htype' hfinds'
    rwa [hunique htype' hfinds']
  · intro dataType' v s'' htype' habsent
    obtain rfl := Option.some.inj (htype.symm.trans htype')
    exact absurd hm (habsent m)

theorem updatesPresent_iff {entries : Entries} {r : Request} {clock : Clock}
    {dataType : RedisDataType} {m : RedisMetadata} (htype : r.dataType? = some dataType)
    (hm : Present entries r.key dataType clock m) :
    UpdatesPresent entries ⟨r, clock⟩ ↔ r.Updates m entries := by
  constructor
  · rintro ⟨dataType', m', htype', hm', hupdates⟩
    obtain rfl := Option.some.inj (htype.symm.trans htype')
    rwa [hm.unique hm']
  · intro hupdates
    exact ⟨dataType, m, htype, hm, hupdates⟩

theorem Request.hasRoom_of_size_eq_zero (r : Request) {m : RedisMetadata} (h : m.size = 0) :
    r.HasRoom m := by
  cases r <;> simp [Request.HasRoom, h]

theorem Request.removesStored_of_size_eq_zero (r : Request) {m : RedisMetadata}
    {entries : Entries} (h : m.size = 0) : r.RemovesStored m entries := by
  cases r <;> simp [Request.RemovesStored, h]

/-- A collection that is there is left consistent unless just the first of two
    writes is made. -/
theorem Outcome.consistent_iff {fails : Faults} {entries final : Entries} {key bytes : Bytes}
    {m : RedisMetadata} {updates : Prop} (h : Outcome fails 0 entries key m updates final)
    (hbytes : entries[key]? = some bytes) (hm : RedisMetadata.decode bytes = .ok m)
    (htype : m.dataType ∈ collectionTypes) (hcounts : Counts entries key m) :
    Consistent final key ↔ ¬(fails 0 = none ∧ (fails 1).isSome ∧ updates) := by
  cases h with
  | kept hupdates hfinal hkept =>
    refine iff_of_true ?_ fun h => hupdates h.2.2
    exact (Redis.consistent_iff (hfinal.trans hbytes) hm htype).2 hkept
  | updated entries₁ entries₂ hupdates hfinal hkey hnot hconsistent =>
    rw [hfinal, afterTwo]
    cases hfirst : fails 0 with
    | some e =>
      refine iff_of_true ?_ fun h => nomatch h.1
      exact (Redis.consistent_iff hbytes hm htype).2 hcounts
    | none =>
      cases hsecond : fails 1 with
      | some e =>
        refine iff_of_false (fun h => hnot ?_) (not_not.2 ⟨rfl, rfl, hupdates⟩)
        simp only [Option.isSome_none, Option.isSome_some] at h
        exact (Redis.consistent_iff (hkey.trans hbytes) hm htype).1 h
      | none =>
        refine iff_of_true ?_ fun h => nomatch h.2.1
        simpa [hsecond] using hconsistent

/-- A collection that was not there is left consistent, or not there. -/
theorem Outcome.consistent {fails : Faults} {n : ℕ} {entries final : Entries} {key : Bytes}
    {m : RedisMetadata} {updates : Prop} (h : Outcome fails n entries key m updates final)
    (habsent : entries[key]? = none) : Consistent final key := by
  cases h with
  | kept _ hfinal _ => exact .of_absent (hfinal.trans habsent)
  | updated entries₁ entries₂ _ hfinal hkey _ hconsistent =>
    rw [hfinal, afterTwo]
    split
    · exact .of_absent habsent
    · split
      · exact .of_absent (hkey.trans habsent)
      · exact hconsistent

/-- An operation that is cut short leaves its collection inconsistent when it updates
    one that is there, has made its first write and does not make the second, and in
    no other case. -/
theorem consistent_entriesAfter_iff {fails : Faults} {entries : Entries} {call : Call}
    (hr : call.request.changesElements = true) (hconsistent : Consistent entries call.request.key)
    (hready : Ready entries call) (hfails : ∀ n, fails n ≠ some .keyNotFound) :
    Consistent (entriesAfter fails entries call) call.request.key ↔
      ¬(fails 0 = none ∧ (fails 1).isSome ∧ UpdatesPresent entries call) := by
  obtain ⟨r, clock⟩ := call
  obtain ⟨dataType, htype⟩ : ∃ dataType, r.dataType? = some dataType := by
    cases r <;> first | exact ⟨_, rfl⟩ | cases hr
  have hcollection : dataType ∈ collectionTypes := by
    cases r <;> cases htype <;> decide
  by_cases hpresent : ∃ m, Present entries r.key dataType clock m
  · obtain ⟨m, hm⟩ := hpresent
    obtain ⟨clock', hfind⟩ := hm.runFaulty (s := ⟨⟨entries, clock⟩, 0⟩) fails
    obtain ⟨s', hfinds⟩ := hm.finds (s := ⟨entries, clock⟩)
    obtain ⟨bytes, hbytes, hdecode, rfl, -⟩ := id hm
    have hcounts := (Redis.consistent_iff hbytes hdecode hcollection).1 hconsistent
    have houtcome := Request.outcome hr htype hfind rfl hcounts
      (hready.room _ m _ htype hfinds) (hready.stored _ m _ htype hfinds)
    rw [updatesPresent_iff htype hm]
    exact houtcome.consistent_iff hbytes hdecode hcollection hcounts
  · have hpresent : ∀ m, ¬Present entries r.key dataType clock m := fun m hm => hpresent ⟨m, hm⟩
    refine iff_of_true ?_ ?_
    · rcases runFaulty_findMetadata_of_not_present (s := ⟨⟨entries, clock⟩, 0⟩) hfails hpresent with
        ⟨v, s', hfind, habsent, hfinds⟩ | ⟨e, s', hfind, hs'⟩
      · have hfresh := hready.fresh _ v _ htype hpresent hfinds
        have hnone : elementKeys s'.db.entries r.key v = [] := by
          rw [← List.length_eq_zero_iff, elementKeys_congr, hfresh, List.length_nil]
          intro x hx
          rw [hfinds.getElem?_entries]
          rintro rfl
          exact not_isPrefix_self _ _ hx
        exact (Request.outcome hr htype hfind rfl (counts_create dataType hnone)
          (r.hasRoom_of_size_eq_zero rfl) (r.removesStored_of_size_eq_zero rfl)).consistent habsent
      · obtain ⟨rest, hoperation, -⟩ := Request.exists_rest htype
        rw [entriesAfter, hoperation, runFaulty_bind_of_error hfind, hs']
        exact hconsistent
    · rintro ⟨-, -, dataType', m, htype', hm, -⟩
      obtain rfl := Option.some.inj (htype.symm.trans htype')
      exact hpresent m hm

/-! A hash of one field: a second one is stored, and then counted or not. -/

def oneField : RedisMetadata := { dataType := .hash, version := 7, size := 1 }

def oneFieldHash : Entries :=
  Std.TreeMap.insert (Std.TreeMap.insert ∅ [104] oneField.encode) (internalKey [104] 7 [102]) [49]

theorem getElem?_oneFieldHash : oneFieldHash[([104] : Bytes)]? = some oneField.encode := by
  decide

theorem consistent_oneFieldHash : Consistent oneFieldHash [104] := by
  refine (consistent_iff getElem?_oneFieldHash oneField.decode_encode (by decide)).2 ?_
  rw [counts_stored, Counts, if_neg (by decide)]
  decide

theorem consistent_entriesAfter_hset :
    Consistent (entriesAfter (fun _ => none) oneFieldHash
      ⟨.hset [104] [103] [50], fun n => .ofNat n⟩) [104] := by
  have hpresent : Present oneFieldHash [104] .hash (fun n => .ofNat n) oneField.stored :=
    ⟨_, getElem?_oneFieldHash, oneField.decode_encode, rfl, .inl rfl⟩
  have hroom : oneField.stored.size.toNat + 1 < 2 ^ 32 := by decide
  have hready : Ready oneFieldHash ⟨.hset [104] [103] [50], fun n => .ofNat n⟩ :=
    .of_present rfl hpresent hroom trivial
  have hfails : ∀ n, (fun _ => none : Faults) n ≠ some .keyNotFound := nofun
  refine (consistent_entriesAfter_iff rfl consistent_oneFieldHash hready hfails).2 ?_
  rintro ⟨-, hsecond, -⟩
  cases hsecond

theorem not_forall_consistent_entriesAfter :
    ¬∀ (fails : Faults) (entries : Entries) (call : Call), call.request.changesElements = true →
      Consistent entries call.request.key → (∀ n, fails n ≠ some .keyNotFound) →
      Consistent (entriesAfter fails entries call) call.request.key := by
  intro h
  let fails : Faults := fun n => if n = 1 then some (.runtimeError "write failed") else none
  let call : Call := ⟨.hset [104] [103] [50], fun n => .ofNat n⟩
  have hfails : ∀ n, fails n ≠ some .keyNotFound := by
    intro n
    simp only [fails]
    split <;> simp
  have hconsistent := h fails oneFieldHash call rfl consistent_oneFieldHash hfails
  have hbytes : (entriesAfter fails oneFieldHash call)[([104] : Bytes)]? = some oneField.encode := by
    decide
  have hcounts := (consistent_iff hbytes oneField.decode_encode (by decide)).1 hconsistent
  rw [counts_stored, Counts, if_neg (by decide)] at hcounts
  revert hcounts
  decide

end Bitcask.Redis
