import Bitcask.Batches
import Bitcask.DBIterator
import Bitcask.LiveIterators
import Bitcask.Lives

/-!
# Going through a database

`DB.fold` calls a function with every key and its value, until the function says to stop.
`DB.stat` counts keys and files. Both rest on the index, and `DB.fold` on the data file, too.

After every life of a database, with any type of index, they tell of the values of the store:
the keys are listed in ascending order, each once, and `DB.fold` goes through them with their
values, as far as the function wants (`Life.tells_of_values`).
-/

namespace Bitcask

open Framing Transaction DataFile

/-! ## Operations -/

section Operations

variable {ι It : Type} [Cursor It Bytes Item] [OrderedIndex ι It] {τ : Type}

/-- Goes through the keys and values. The function is given the state it has left, and says
    whether to go on. -/
def DB.fold (db : DB ι) (fs : FS) (func : Bytes → Bytes → τ → Bool × τ) (state : τ) :
    Option (Except Exn τ) := do
  let iter ← Cursor.rewind (← OrderedIndex.iterator db.index false)
  Cursor.loop (fun item state => do
    let value ← db.getValueByPosition fs item.2
    return func item.1 value state) (← OrderedIndex.size db.index) iter state

/-- What `stat` tells of a database. -/
structure Stat where
  keyNum : ℕ
  dataFileNum : ℕ
  reclaimableSize : ℤ
  diskSize : ℕ
deriving DecidableEq, Repr

def DB.stat [Indexer ι] (db : DB ι) (fs : FS) : Stat where
  keyNum := db.keyNum
  dataFileNum := (db.olderFiles.entries.length + if db.activeFile.isSome then 1 else 0) % 2 ^ 32
  reclaimableSize := db.reclaimSize
  diskSize := fs.dirSize db.options.dirPath

end Operations

/-- Goes through pairs as far as a function wants. -/
def foldPairs {τ : Type} (func : Bytes → Bytes → τ → Bool × τ) : List (Bytes × Bytes) → τ → τ
  | [], state => state
  | (key, value) :: pairs, state =>
    if (func key value state).1 then foldPairs func pairs (func key value state).2
    else (func key value state).2

theorem loopList_eq_foldPairs {τ : Type} (func : Bytes → Bytes → τ → Bool × τ)
    (pairs : List (Bytes × Bytes)) (state : τ) :
    Cursor.loopList (fun pair state => (.ok (func pair.1 pair.2 state) : Except Exn (Bool × τ)))
      pairs state = .ok (foldPairs func pairs state) := by
  induction pairs generalizing state with
  | nil => rfl
  | cons pair pairs ih =>
    rw [Cursor.loopList, foldPairs]
    rcases func pair.1 pair.2 state with ⟨_ | _, state'⟩
    · rfl
    · exact ih state'

/-- The pairs are the values, in ascending order of keys. -/
structure Lists (pairs : List (Bytes × Bytes)) (values : Bytes → Option Bytes) : Prop where
  sorted : SortedKeys (pairs.map Prod.fst)
  mem_iff : ∀ key value, (key, value) ∈ pairs ↔ values key = some value

/-- The database tells of the pairs when it is gone through. -/
structure DB.Enumerates {ι It : Type} [Indexer ι] [Cursor It Bytes Item] [OrderedIndex ι It]
    (db : DB ι) (fs : FS) (pairs : List (Bytes × Bytes)) : Prop where
  listKeys_eq : db.listKeys = pairs.map Prod.fst
  keyNum_eq : (db.stat fs).keyNum = pairs.length % 2 ^ 32
  dataFileNum_eq : (db.stat fs).dataFileNum = 1
  fold_eq : ∀ (τ : Type) (func : Bytes → Bytes → τ → Bool × τ) (state : τ),
    db.fold fs func state = some (.ok (foldPairs func pairs state))

namespace Life

variable {ι It : Type} [Cursor It Bytes Item] [OrderedIndex ι It] {options : Options}
  {records : List LogRecord} {base : ℕ} {s : Session (ModelledIndex ι)}
  {store : BatchStore.Store Bytes Bytes}

/-- A key of the index with the value that the store has of it. -/
def valuePair (store : BatchStore.Store Bytes Bytes) (item : Item) : Bytes × Bytes :=
  (item.1, (store.values item.1).getD [])

theorem map_fst_valuePair (store : BatchStore.Store Bytes Bytes) (items : List Item) :
    (items.map (valuePair store)).map Prod.fst = items.map Prod.fst := by
  rw [List.map_map]
  rfl

theorem Alive.getValueByPosition_item (h : Alive options records base s store)
    {items : List Item} (hitems : Enumerates items (Indexer.get s.proc.db.index))
    {item : Item} (hitem : item ∈ items) :
    store.values item.1 = some (valuePair store item).2 ∧
      s.proc.db.getValueByPosition s.proc.world.fs item.2 = .ok (valuePair store item).2 := by
  obtain ⟨value, hstore, hread⟩ := h.getValueByPosition_eq ((hitems.mem_iff _ _).1 hitem)
  have hpair : (valuePair store item).2 = value := by
    rw [valuePair, hstore, Option.getD_some]
  rw [hpair]
  exact ⟨hstore, hread⟩

theorem Alive.lists (h : Alive options records base s store) {items : List Item}
    (hitems : Enumerates items (Indexer.get s.proc.db.index)) :
    Lists (items.map (valuePair store)) store.values := by
  refine ⟨map_fst_valuePair store items ▸ hitems.sorted, fun key value => ⟨fun hmem => ?_,
    fun hstore => ?_⟩⟩
  · obtain ⟨item, hitem, heq⟩ := List.mem_map.1 hmem
    cases heq
    exact (h.getValueByPosition_item hitems hitem).1
  · obtain ⟨pos, hpos⟩ := h.exists_pos hstore
    refine List.mem_map.2 ⟨(key, pos), (hitems.mem_iff key pos).2 hpos, ?_⟩
    rw [valuePair]
    simp only [hstore, Option.getD_some]

theorem Alive.fold_eq (h : Alive options records base s store) {items : List Item}
    (hitems : Enumerates items (Indexer.get s.proc.db.index))
    (hsize : OrderedIndex.size s.proc.db.index = some items.length)
    {At : It → List Item → Prop} {c : It}
    (hc : OrderedIndex.iterator s.proc.db.index false = some c) (hat : At c (ordered false items))
    (hrepresents : Cursor.Represents At (ordered false items)
      (OrderedIndex.land ι false (ordered false items)))
    {τ : Type} (func : Bytes → Bytes → τ → Bool × τ) (state : τ) :
    s.proc.db.fold s.proc.world.fs func state =
      some (.ok (foldPairs func (items.map (valuePair store)) state)) := by
  obtain ⟨c', hrewind, hat'⟩ := hrepresents.rewind c _ hat
  have hbody : ∀ item ∈ items, ∀ state, (do
      let value ← s.proc.db.getValueByPosition s.proc.world.fs item.2
      return func item.1 value state) =
        (.ok (func (valuePair store item).1 (valuePair store item).2 state) :
          Except Exn (Bool × τ)) := by
    intro item hitem state
    rw [(h.getValueByPosition_item hitems hitem).2]
    rfl
  have hfuel : (ordered false items).length ≤ items.length := le_rfl
  simp only [DB.fold, hc, hrewind, hsize, Option.bind_eq_bind, Option.bind_some]
  rw [hrepresents.loop_eq hat' _ hfuel state]
  exact congrArg some
    ((Cursor.loopList_map hbody state).trans (loopList_eq_foldPairs func _ state))

theorem Alive.tells (h : Alive options records base s store) :
    ∃ pairs, Lists pairs store.values ∧ s.proc.db.Enumerates s.proc.world.fs pairs := by
  obtain ⟨items, hitems, hsize, hkeys, hiterator⟩ :=
    OrderedIndex.items_eq (ModelledIndex.models_get s.proc.db.index)
  obtain ⟨At, c, hc, hat, hrepresents⟩ := hiterator false
  refine ⟨items.map (valuePair store), h.lists hitems, ?_, ?_, ?_,
    fun τ func state => h.fold_eq hitems hsize hc hat hrepresents func state⟩
  · rw [map_fst_valuePair]
    exact Option.get_of_eq_some _ hkeys
  · have hkeyNum : Indexer.size s.proc.db.index = items.length := Option.get_of_eq_some _ hsize
    rw [DB.stat, DB.keyNum, hkeyNum, List.length_map]
  · rw [DB.stat, h.olderFiles_eq, h.stored.active]
    rfl

/-- After every life of a new database that is permitted, its keys are those of the values of
    the store in ascending order, each once, and going through it gives each with its value. -/
theorem tells_of_values {w : World} (hfresh : Fresh options w) (hio : ∀ c, w.outcomes c = [])
    (hfs : w.fs.Hierarchical (DB.getMergePath options.dirPath)) :
    ∃ (db : DB (ModelledIndex ι)) (w' : World),
      (DB.open options : Sys (DB (ModelledIndex ι))).run w = .ok db w' ∧
      ∀ events, Machine.AllSteps step Permits ⟨⟨db, w'⟩, []⟩ events →
        let x := Machine.run step ⟨⟨db, w'⟩, []⟩ events
        ∃ store, Machine.SpecRun Spec { values := fun _ => none } events x.2 store ∧
          ∃ pairs, Lists pairs store.values ∧ x.1.proc.db.Enumerates x.1.proc.world.fs pairs := by
  obtain ⟨db, w', hopen, hlives⟩ := alive_run (ι := ModelledIndex ι) hfresh hio hfs
  refine ⟨db, w', hopen, fun events hevents => ?_⟩
  obtain ⟨store, hspec, records, base, hend⟩ := hlives events hevents
  exact ⟨store, hspec, hend.tells⟩

/-- Two keys are put in descending order, one is put again, and the process dies before the
    removal of the other one. -/
def putAndDie : List Event :=
  [.request (.put [98] [49]), .request (.put [97] [50]), .request (.put [98] [51]),
    .crash (.remove [97]) 0]

/-- The function stops at the second key. -/
theorem tells_of_values_putAndDie : ∃ (db : DB (ModelledIndex BTreeIndex)) (w' : World),
    (DB.open ⟨['d'], 100, false⟩ : Sys (DB (ModelledIndex BTreeIndex))).run { fs := ∅ } =
        .ok db w' ∧
      let x := Machine.run step ⟨⟨db, w'⟩, []⟩ putAndDie
      (∃ pairs, x.1.proc.db.Enumerates x.1.proc.world.fs pairs) ∧
        x.1.proc.db.fold x.1.proc.world.fs (fun key value state =>
          (key == [97], state ++ [(key, value)])) [] = some (.ok [([97], [50]), ([98], [51])]) := by
  obtain ⟨db, w', hopen, h⟩ := tells_of_values (ι := BTreeIndex)
    (Session.fresh_empty (by decide : 100 ≠ 0) false) (fun _ => rfl) (fun _ _ _ => rfl)
  have hsteps : (Guarantee.value? ((DB.open ⟨['d'], 100, false⟩ :
      Sys (DB (ModelledIndex BTreeIndex))).run { fs := ∅ })).any (fun db' =>
        let w'' := Guarantee.finalState ((DB.open ⟨['d'], 100, false⟩ :
          Sys (DB (ModelledIndex BTreeIndex))).run { fs := ∅ })
        let x := Machine.run step ⟨⟨db', w''⟩, []⟩ putAndDie
        decide (Machine.AllSteps step Permits ⟨⟨db', w''⟩, []⟩ putAndDie ∧
          x.1.proc.db.fold x.1.proc.world.fs (fun key value state =>
            (key == [97], state ++ [(key, value)])) [] =
              some (.ok [([97], [50]), ([98], [51])]))) = true := by
    decide +kernel
  simp only [hopen, Guarantee.value?, Option.any_some, Guarantee.finalState_ok,
    decide_eq_true_eq] at hsteps
  obtain ⟨hpermits, hfold⟩ := hsteps
  obtain ⟨store, -, pairs, -, hpairs⟩ := h putAndDie hpermits
  exact ⟨db, w', hopen, ⟨pairs, hpairs⟩, hfold⟩

end Life

end Bitcask
