import Bitcask.Redis.MapDatabase

/-!
# Lists are double-ended queues

The pushes and pops on one key, over a database that is a map (`ListRequest`),
return what a double-ended queue returns (`Deque.step`), as long as the queue has
fewer than `2 ^ 32` elements.

The queue is in the map when the metadata has its length, and the indices from
the head on have its elements, one after the other (`Holds`); no metadata is an
empty queue. Indices wrap around: no run of pushes is too long for them.
-/

namespace Bitcask.Redis

/-! ## Queues -/

/-- The operations on one list. -/
inductive ListRequest
  | lpush (element : Bytes)
  | rpush (element : Bytes)
  | lpop
  | rpop
deriving DecidableEq, Repr

def ListRequest.toRequest (key : Bytes) : ListRequest → Request
  | lpush element => .lpush key element
  | rpush element => .rpush key element
  | lpop => .lpop key
  | rpop => .rpop key

/-- A double-ended queue: pushes return its new length, pops return and remove an
    element, or throw if there is none. -/
def Deque.step (q : List Bytes) : ListRequest → List Bytes × List (Except Exn Reply)
  | .lpush element => (element :: q, [.ok (.number (.ofNat (q.length + 1)))])
  | .rpush element => (q ++ [element], [.ok (.number (.ofNat (q.length + 1)))])
  | .lpop =>
    match q with
    | [] => ([], [.error .keyNotFound])
    | element :: q => (q, [.ok (.text element)])
  | .rpop =>
    match q.getLast? with
    | none => ([], [.error .keyNotFound])
    | some element => (q.dropLast, [.ok (.text element)])

/-! ## Queues in a map -/

/-- The metadata of a list of `n` elements from the index `head` on. -/
def listMetadata (version head : UInt64) (n : ℕ) : RedisMetadata where
  dataType := .list
  version := version
  size := .ofNat n
  head := head
  tail := head + .ofNat n

theorem size_listMetadata_ne_zero {version head : UInt64} {n : ℕ} (hn : n < 2 ^ 32)
    (hne : n ≠ 0) : (listMetadata version head n).size ≠ 0 := by
  intro h
  have := congrArg UInt32.toNat h
  rw [listMetadata, UInt32.toNat_ofNat_of_lt' hn] at this
  exact hne this

theorem marked_listMetadata {version head : UInt64} {n : ℕ} (hn : n < 2 ^ 32)
    (hempty : n = 0 → head = initialListMark) :
    (listMetadata version head n).marked = listMetadata version head n := by
  unfold RedisMetadata.marked
  by_cases h0 : n = 0
  · subst h0
    simp [listMetadata, hempty rfl]
  · rw [if_neg (size_listMetadata_ne_zero hn h0)]

/-- The key of the element at an index. -/
def elementKey (key : Bytes) (version index : UInt64) : Bytes :=
  ListInternalKey.encode ⟨key, version, index⟩

@[simp]
theorem elementKey_inj {key : Bytes} {v i j : UInt64} :
    elementKey key v i = elementKey key v j ↔ i = j := by
  refine internalKey_inj.trans ⟨fun h => littleEndian64_injective h.2, ?_⟩
  rintro rfl
  exact ⟨rfl, rfl⟩

@[simp]
theorem elementKey_ne (key : Bytes) (v i : UInt64) : elementKey key v i ≠ key :=
  internalKey_ne key v _

/-- The indices from `head` on have the elements of `q`. -/
def Elements (entries : Entries) (key : Bytes) (version head : UInt64) (q : List Bytes) : Prop :=
  ∀ i, (hi : i < q.length) → entries[elementKey key version (head + .ofNat i)]? = some q[i]

/-- The entries of the map are those of the queue `q` at `key`. -/
def Holds (entries : Entries) (key : Bytes) (q : List Bytes) : Prop :=
  match q with
  | [] => entries[key]? = none
  | _ :: _ => ∃ version head,
    entries[key]? = some (listMetadata version head q.length).encode ∧
      Elements entries key version head q

/-- What an operation on a list starts from: the metadata of its queue, be it
    stored or made. -/
theorem Holds.run_findMetadata {s : MapDB} {key : Bytes} {q : List Bytes}
    (h : Holds s.entries key q) :
    ∃ version head clock, Elements s.entries key version head q ∧
      (q.length = 0 → head = initialListMark) ∧
      Operation.run (findMetadata key .list) s =
        (.ok (listMetadata version head q.length), ⟨s.entries, clock⟩) := by
  cases q with
  | nil =>
    refine ⟨s.clock 0, initialListMark, fun n => s.clock (n + 1), ?_, fun _ => rfl, ?_⟩
    · intro i hi
      cases hi
    · exact Finds.run (.absent h)
  | cons a q =>
    obtain ⟨version, head, hmetadata, helements⟩ := h
    refine ⟨version, head, s.clock, helements, nofun, ?_⟩
    exact (Finds.lasting hmetadata (RedisMetadata.decode_encode _) rfl rfl).run

/-! ## Pushes and pops -/

section Elements

variable {entries entries' : Entries} {key : Bytes} {version head : UInt64} {a : Bytes}
  {q : List Bytes}

/-- Fewer than `2 ^ 32` consecutive indices differ, wrapped around or not. -/
theorem index_inj {i j : ℕ} (hi : i < 2 ^ 32) (hj : j < 2 ^ 32) :
    head + .ofNat i = head + .ofNat j ↔ i = j := by
  constructor
  · intro h
    have hij : UInt64.ofNat i = .ofNat j := by grind
    have := congrArg UInt64.toNat hij
    rwa [UInt64.toNat_ofNat_of_lt' (Nat.lt_trans hi (by decide)),
      UInt64.toNat_ofNat_of_lt' (Nat.lt_trans hj (by decide))] at this
  · rintro rfl
    rfl

theorem index_eq_first {i : ℕ} (hi : i < 2 ^ 32) : head + .ofNat i = head ↔ i = 0 := by
  have h : head + .ofNat i = head + .ofNat 0 ↔ i = 0 := index_inj hi (by decide)
  simpa using h

theorem index_succ (head : UInt64) (i : ℕ) : head + .ofNat (i + 1) = head + 1 + .ofNat i := by
  rw [UInt64.ofNat_add]
  grind

section Metadata

variable {version head : UInt64} {n : ℕ}

theorem pushFront_listMetadata :
    (listMetadata version head n).pushFront = listMetadata version (head - 1) (n + 1) := by
  have htail : head + .ofNat n = head - 1 + .ofNat (n + 1) := by
    rw [index_succ, UInt64.sub_add_cancel]
  have hsize : UInt32.ofNat n + 1 = .ofNat (n + 1) := (UInt32.ofNat_add n 1).symm
  simp only [listMetadata, RedisMetadata.pushFront, htail, hsize]

theorem pushBack_listMetadata :
    (listMetadata version head n).pushBack = listMetadata version head (n + 1) := by
  have htail : head + .ofNat n + 1 = head + .ofNat (n + 1) := by
    rw [index_succ]
    grind
  have hsize : UInt32.ofNat n + 1 = .ofNat (n + 1) := (UInt32.ofNat_add n 1).symm
  simp only [listMetadata, RedisMetadata.pushBack, htail, hsize]

theorem popFront_listMetadata :
    (listMetadata version head (n + 1)).popFront = listMetadata version (head + 1) n := by
  have hsize : UInt32.ofNat (n + 1) - 1 = .ofNat n := by
    rw [UInt32.ofNat_add]
    exact UInt32.add_sub_cancel _ 1
  simp only [listMetadata, RedisMetadata.popFront, index_succ, hsize]

theorem tail_listMetadata_sub_one :
    (listMetadata version head (n + 1)).tail - 1 = head + .ofNat n := by
  show head + .ofNat (n + 1) - 1 = head + .ofNat n
  rw [index_succ]
  grind

theorem popBack_listMetadata :
    (listMetadata version head (n + 1)).popBack = listMetadata version head n := by
  have hsize : UInt32.ofNat (n + 1) - 1 = .ofNat n := by
    rw [UInt32.ofNat_add]
    exact UInt32.add_sub_cancel _ 1
  rw [RedisMetadata.popBack, tail_listMetadata_sub_one]
  simp only [listMetadata, hsize]

end Metadata

theorem Elements.congr (h : Elements entries key version head q)
    (hsame : ∀ i < q.length, entries'[elementKey key version (head + .ofNat i)]? =
      entries[elementKey key version (head + .ofNat i)]?) :
    Elements entries' key version head q :=
  fun i hi => (hsame i hi).trans (h i hi)

theorem Elements.insert_key (h : Elements entries key version head q) (bytes : Bytes) :
    Elements (entries.insert key bytes) key version head q :=
  h.congr fun i _ => by simp

/-- Storing an element before the first one. -/
theorem Elements.cons (h : Elements entries key version head q) (hq : q.length + 1 < 2 ^ 32) :
    Elements (entries.insert (elementKey key version (head - 1)) a) key version (head - 1)
      (a :: q) := by
  intro i hi
  simp only [Entries.getElem?_insert, elementKey_inj, index_eq_first (Nat.lt_trans hi hq)]
  cases i with
  | zero => rfl
  | succ i =>
    have hindex : head - 1 + .ofNat (i + 1) = head + .ofNat i := by
      rw [index_succ, UInt64.sub_add_cancel]
    rw [if_neg (Nat.succ_ne_zero i), hindex]
    exact h i (Nat.lt_of_succ_lt_succ hi)

/-- Storing an element after the last one. -/
theorem Elements.concat (h : Elements entries key version head q) (hq : q.length + 1 < 2 ^ 32) :
    Elements (entries.insert (elementKey key version (head + .ofNat q.length)) a) key version head
      (q ++ [a]) := by
  intro i hi
  rw [List.length_append, List.length_singleton] at hi
  simp only [Entries.getElem?_insert, elementKey_inj,
    index_inj (show i < 2 ^ 32 by omega) (show q.length < 2 ^ 32 by omega)]
  split
  · rename_i hlast
    subst hlast
    rw [List.getElem_concat_length rfl]
  · rename_i hlast
    have hi : i < q.length := by omega
    rw [h i hi, List.getElem_append_left hi]

/-- Removing the first element. -/
theorem Elements.tail (h : Elements entries key version head (a :: q))
    (hq : q.length + 1 < 2 ^ 32) :
    Elements (entries.erase (elementKey key version head)) key version (head + 1) q := by
  intro i hi
  have hi' : i + 1 < 2 ^ 32 := by omega
  rw [← index_succ]
  simp only [Entries.getElem?_erase, elementKey_inj, index_eq_first hi']
  rw [if_neg (Nat.succ_ne_zero i)]
  exact h (i + 1) (Nat.succ_lt_succ hi)

/-- Removing the last element. -/
theorem Elements.dropLast (h : Elements entries key version head (q ++ [a]))
    (hq : q.length + 1 < 2 ^ 32) :
    Elements (entries.erase (elementKey key version (head + .ofNat q.length))) key version head
      q := by
  intro i hi
  simp only [Entries.getElem?_erase, elementKey_inj,
    index_inj (show i < 2 ^ 32 by omega) (show q.length < 2 ^ 32 by omega)]
  have hi' : i < (q ++ [a]).length := by
    rw [List.length_append]
    exact Nat.lt_add_right _ hi
  rw [if_neg (Nat.ne_of_lt hi), h i hi', List.getElem_append_left hi]

end Elements

section Operations

variable {s : MapDB} {key a : Bytes} {q : List Bytes}

/-- A map with the metadata and the elements of a queue that is not empty. -/
theorem Holds.mk {entries : Entries} {version head : UInt64} {n : ℕ} (hn : q.length = n + 1)
    (hmetadata : entries[key]? = some (listMetadata version head (n + 1)).encode)
    (h : Elements entries key version head q) : Holds entries key q := by
  cases q with
  | nil => cases hn
  | cons a q =>
    rw [← hn] at hmetadata
    exact ⟨version, head, hmetadata, h⟩

theorem run_pushElement (key element : Bytes) (index : UInt64) (m : RedisMetadata) (s : MapDB) :
    Operation.run (pushElement key element index m) s = (.ok m.size,
      { s with
        entries := (s.entries.insert (elementKey key m.version index) element).insert key m.encode }) :=
  rfl

theorem Holds.run_lpush (h : Holds s.entries key q) (hq : q.length + 1 < 2 ^ 32) :
    ∃ s', Operation.run (lpush key a) s = (.ok (.ofNat (q.length + 1)), s') ∧
      Holds s'.entries key (a :: q) := by
  obtain ⟨version, head, clock, helements, hempty, hfind⟩ := h.run_findMetadata
  rw [lpush, Operation.run_bind_of_ok hfind, marked_listMetadata (Nat.lt_of_succ_lt hq) hempty,
    pushFront_listMetadata, run_pushElement]
  refine ⟨_, rfl, .mk rfl ?_ (helements.cons hq |>.insert_key _)⟩
  rw [Entries.getElem?_insert, if_pos rfl]

theorem Holds.run_rpush (h : Holds s.entries key q) (hq : q.length + 1 < 2 ^ 32) :
    ∃ s', Operation.run (rpush key a) s = (.ok (.ofNat (q.length + 1)), s') ∧
      Holds s'.entries key (q ++ [a]) := by
  obtain ⟨version, head, clock, helements, hempty, hfind⟩ := h.run_findMetadata
  rw [rpush, Operation.run_bind_of_ok hfind, marked_listMetadata (Nat.lt_of_succ_lt hq) hempty,
    pushBack_listMetadata, run_pushElement]
  refine ⟨_, rfl, .mk List.length_append ?_ (helements.concat hq |>.insert_key _)⟩
  rw [Entries.getElem?_insert, if_pos rfl]

/-- Storing the metadata of what is left of a queue, or removing its key. -/
theorem Holds.run_putOrRemove {version head : UInt64} (hq : q.length < 2 ^ 32)
    (h : Elements s.entries key version head q) :
    ∃ s', Operation.run (putOrRemove key (listMetadata version head q.length)) s = (.ok (), s') ∧
      Holds s'.entries key q := by
  unfold putOrRemove
  cases q with
  | nil =>
    rw [if_pos (by rfl)]
    refine ⟨_, run_remove key s, ?_⟩
    show (s.entries.erase key)[key]? = none
    rw [Entries.getElem?_erase, if_pos rfl]
  | cons a q =>
    rw [if_neg (size_listMetadata_ne_zero hq (Nat.succ_ne_zero _))]
    refine ⟨_, run_put key _ s, .mk rfl ?_ (h.insert_key _)⟩
    exact (Entries.getElem?_insert ..).trans (if_pos rfl)

/-- A pop reads the element, and leaves the rest of the queue. -/
theorem Holds.run_popElement {version head index : UInt64} (hq : q.length < 2 ^ 32)
    (ha : s.entries[elementKey key version index]? = some a)
    (h : Elements (s.entries.erase (elementKey key version index)) key version head q) :
    ∃ s', Operation.run (popElement key index (listMetadata version head q.length)) s = (.ok a, s') ∧
      Holds s'.entries key q := by
  obtain ⟨s', hrun, hs'⟩ := Holds.run_putOrRemove
    (s := { s with entries := s.entries.erase (elementKey key version index) }) hq h
  refine ⟨s', ?_, hs'⟩
  have ha' : s.entries[ListInternalKey.encode
      ⟨key, (listMetadata version head q.length).version, index⟩]? = some a := ha
  rw [popElement, Operation.run_bind_of_ok (run_get_of_some ha'),
    Operation.run_bind_of_ok (run_remove _ s)]
  exact Operation.run_bind_of_ok hrun

theorem Holds.run_lpop (h : Holds s.entries key (a :: q)) (hq : q.length + 1 < 2 ^ 32) :
    ∃ s', Operation.run (lpop key) s = (.ok a, s') ∧ Holds s'.entries key q := by
  obtain ⟨version, head, clock, helements, -, hfind⟩ := h.run_findMetadata
  have hfirst : s.entries[elementKey key version head]? = some a := by
    simpa using helements 0 (Nat.succ_pos _)
  rw [List.length_cons] at hfind
  rw [lpop, Operation.run_bind_of_ok hfind,
    if_neg (size_listMetadata_ne_zero hq (Nat.succ_ne_zero _)), popFront_listMetadata]
  exact Holds.run_popElement (Nat.lt_of_succ_lt hq) hfirst (helements.tail hq)

theorem Holds.run_rpop (h : Holds s.entries key (q ++ [a])) (hq : q.length + 1 < 2 ^ 32) :
    ∃ s', Operation.run (rpop key) s = (.ok a, s') ∧ Holds s'.entries key q := by
  obtain ⟨version, head, clock, helements, -, hfind⟩ := h.run_findMetadata
  rw [List.length_append, List.length_singleton] at hfind
  have hlast : s.entries[elementKey key version (head + .ofNat q.length)]? = some a := by
    rw [helements q.length (by simp), List.getElem_concat_length rfl]
  rw [rpop, Operation.run_bind_of_ok hfind,
    if_neg (size_listMetadata_ne_zero hq (Nat.succ_ne_zero _)), tail_listMetadata_sub_one,
    popBack_listMetadata]
  exact Holds.run_popElement (Nat.lt_of_succ_lt hq) hlast (helements.dropLast hq)

/-- A pop of an empty queue throws. -/
theorem Holds.run_findMetadata_nil (h : Holds s.entries key []) (f : RedisMetadata → Operation Bytes) :
    ∃ s', Operation.run (do
        let metadata ← findMetadata key .list
        if metadata.size = 0 then throw .keyNotFound else f metadata) s =
      (.error .keyNotFound, s') ∧ Holds s'.entries key [] := by
  obtain ⟨version, head, clock, -, -, hfind⟩ := h.run_findMetadata
  rw [Operation.run_bind_of_ok hfind]
  exact ⟨_, rfl, h⟩

end Operations

/-! ## Runs -/

/-- A call on a list is served as by the queue it holds. -/
theorem Holds.serve {entries : Entries} {key : Bytes} {q : List Bytes} (h : Holds entries key q)
    (r : ListRequest) (clock : Clock) (hq : q.length < 2 ^ 32)
    (hq' : (Deque.step q r).1.length < 2 ^ 32) :
    (serve entries ⟨r.toRequest key, clock⟩).2 = (Deque.step q r).2 ∧
      Holds (Redis.serve entries ⟨r.toRequest key, clock⟩).1 key (Deque.step q r).1 := by
  have h : Holds (MapDB.mk entries clock).entries key q := h
  cases r with
  | lpush a =>
    obtain ⟨s', hrun, hs'⟩ := h.run_lpush (a := a) hq'
    rw [serve_of_run (r := ListRequest.toRequest key (.lpush a)) (Operation.run_bind_of_ok hrun)]
    exact ⟨rfl, hs'⟩
  | rpush a =>
    obtain ⟨s', hrun, hs'⟩ := h.run_rpush (a := a) (by simpa [Deque.step] using hq')
    rw [serve_of_run (r := ListRequest.toRequest key (.rpush a)) (Operation.run_bind_of_ok hrun)]
    exact ⟨rfl, hs'⟩
  | lpop =>
    cases q with
    | nil =>
      obtain ⟨s', hrun, hs'⟩ := h.run_findMetadata_nil fun m => popElement key m.head m.popFront
      rw [serve_of_run (r := ListRequest.toRequest key .lpop) (Operation.run_bind_of_error hrun)]
      exact ⟨rfl, hs'⟩
    | cons a q =>
      obtain ⟨s', hrun, hs'⟩ := h.run_lpop hq
      rw [serve_of_run (r := ListRequest.toRequest key .lpop) (Operation.run_bind_of_ok hrun)]
      exact ⟨rfl, hs'⟩
  | rpop =>
    rcases List.eq_nil_or_concat q with rfl | ⟨q, a, rfl⟩
    · obtain ⟨s', hrun, hs'⟩ := h.run_findMetadata_nil
        fun m => popElement key (m.tail - 1) m.popBack
      rw [serve_of_run (r := ListRequest.toRequest key .rpop) (Operation.run_bind_of_error hrun)]
      exact ⟨rfl, hs'⟩
    · rw [List.concat_eq_append] at *
      obtain ⟨s', hrun, hs'⟩ := h.run_rpop (by simpa using hq)
      rw [serve_of_run (r := ListRequest.toRequest key .rpop) (Operation.run_bind_of_ok hrun)]
      simpa [Deque.step] using hs'

/-- The calls on one list, with the readings of the clock during each. -/
def listCalls (key : Bytes) (calls : List (ListRequest × Clock)) : List Call :=
  calls.map fun call => ⟨call.1.toRequest key, call.2⟩

/-- A queue that always has fewer than `2 ^ 32` elements. -/
def Deque.Bounded (q : List Bytes) (requests : List ListRequest) : Prop :=
  Machine.AllSteps Deque.step (fun q r => (Deque.step q r).1.length < 2 ^ 32) q requests

instance (q : List Bytes) (requests : List ListRequest) : Decidable (Deque.Bounded q requests) :=
  inferInstanceAs (Decidable (Machine.AllSteps ..))

theorem Holds.run_calls {entries : Entries} {key : Bytes} {q : List Bytes}
    (h : Holds entries key q) {calls : List (ListRequest × Clock)} (hq : q.length < 2 ^ 32)
    (hbounded : Deque.Bounded q (calls.map Prod.fst)) :
    (Machine.run Redis.serve entries (listCalls key calls)).2 =
      (Machine.run Deque.step q (calls.map Prod.fst)).2 := by
  induction calls generalizing entries q with
  | nil => rfl
  | cons call calls ih =>
    obtain ⟨hreply, hs⟩ := h.serve call.1 call.2 hq hbounded.1
    have := ih hs hbounded.1 hbounded.2
    simp only [listCalls, List.map_cons, Machine.run] at this ⊢
    rw [hreply, this]

/-- The calls on a list that is not there return what a queue returns that is
    empty at first. -/
theorem run_listCalls {entries : Entries} {key : Bytes} (habsent : entries[key]? = none)
    {calls : List (ListRequest × Clock)} (hbounded : Deque.Bounded [] (calls.map Prod.fst)) :
    (Machine.run serve entries (listCalls key calls)).2 =
      (Machine.run Deque.step [] (calls.map Prod.fst)).2 :=
  Holds.run_calls (q := []) habsent (by decide) hbounded

/-- The last pop finds the list emptied. -/
theorem run_listCalls_lpush_rpush :
    (Machine.run serve ∅ (listCalls [107]
      ([.lpush [97], .rpush [98], .lpop, .rpop, .lpop].map fun r => (r, fun n => .ofNat n)))).2 =
      [.ok (.number 1), .ok (.number 2), .ok (.text [97]), .ok (.text [98]),
        .error .keyNotFound] :=
  run_listCalls Std.TreeMap.getElem?_emptyc (by decide)

end Bitcask.Redis
