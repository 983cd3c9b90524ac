import Bitcask.DBIterator
import Bitcask.Library.Machine
import Bitcask.LiveIterators
import Bitcask.Writes

/-!
# Iterations

A loop over the keys of a database while keys are put and removed. Each call of the loop and
each request is a step, in any order. With an index of type `BTREE`, `ART` or `SKIPLIST` a
key that is in the index all the time is visited exactly once. With one of type `BPTREE`
it may be missed, or visited twice, when a key goes away or comes in at or in front of the
place of the iterator (`not_visitOnce_bPlusTree`), and only then (`visitOnce`).
-/

namespace Bitcask

open DB DBM Guarantee

/-- The iterator when the index has become another one. -/
def DBIterator.follow {ι It : Type} [Cursor It Bytes Item] [OrderedIndex ι It] [LiveIndex ι It]
    (it : DBIterator It) (i : ι) : DBIterator It :=
  { it with indexIter := it.indexIter.map (LiveIndex.follow i) }

/-- A loop over a database, which has ended when the iterator is not valid any more. -/
structure Iteration (ι : Type) {It : Type} [Cursor It Bytes Item] [OrderedIndex ι It] where
  proc : Proc (ModelledIndex ι)
  iterator : DBIterator It
  ended : Bool

/-- The loop goes on, or the database is used. -/
inductive IterationCall
  | next
  | put (key value : Bytes)
  | remove (key : Bytes)

namespace Iteration

variable {ι It : Type} [Cursor It Bytes Item] [OrderedIndex ι It]

/-- Visits the key the iterator is at, or ends the loop. -/
def visit (proc : Proc (ModelledIndex ι)) (it : DBIterator It) :
    Option (Iteration ι) × List Bytes :=
  match it.item with
  | none => (none, [])
  | some none => (some ⟨proc, it, true⟩, [])
  | some (some item) => (some ⟨proc, it, false⟩, [item.1])

/-- A new loop is at the first key. -/
def start (proc : Proc (ModelledIndex ι)) : Option (Iteration ι) × List Bytes :=
  match proc.db.iterator {} with
  | none => (none, [])
  | some it => visit proc it

variable [LiveIndex ι It]

/-- A request, which the iterator sees the effect of. -/
def write (s : Iteration ι) (m : DBM (ModelledIndex ι) Unit) : Iteration ι :=
  let proc := finalState (m.run s.proc)
  { s with proc := proc, iterator := s.iterator.follow proc.db.index.index }

/-- A step of the loop or a request, and the key that is visited. -/
def step : Option (Iteration ι) → IterationCall → Option (Iteration ι) × List Bytes
  | none, _ => (none, [])
  | some s, .next =>
    if s.ended then (some s, [])
    else match s.iterator.next with
      | none => (none, [])
      | some it => visit s.proc it
  | some s, .put key value => (some (s.write (DB.put key value)), [])
  | some s, .remove key => (some (s.write (DB.remove key)), [])

/-- The keys that are visited while some calls are made. -/
def visited (proc : Proc (ModelledIndex ι)) (calls : List IterationCall) : List Bytes :=
  (start proc).2 ++ (Machine.run step (start proc).1 calls).2

/-- A key is in the index, unless the loop has ended. -/
def Present (k : Bytes) (s : Option (Iteration ι)) (_ : IterationCall) : Prop :=
  ∀ it ∈ s, it.ended = true ∨ (Indexer.get it.proc.db.index k).isSome

instance (k : Bytes) (s : Option (Iteration ι)) (call : IterationCall) :
    Decidable (Present k s call) :=
  inferInstanceAs (Decidable (∀ it ∈ s, it.ended = true ∨
    (Indexer.get it.proc.db.index k).isSome))

/-- If the calls meet a condition, then a key that is in the index as long as the loop goes on
    has been visited exactly once when it has ended. -/
def VisitOnce (ι : Type) {It : Type} [Cursor It Bytes Item] [OrderedIndex ι It] [LiveIndex ι It]
    (C : Option (Iteration ι) → IterationCall → Prop) : Prop :=
  ∀ (proc : Proc (ModelledIndex ι)) (k : Bytes) (calls : List IterationCall),
    (Indexer.get proc.db.index k).isSome →
    Machine.AllSteps step (Present k) (start proc).1 calls →
    Machine.AllSteps step C (start proc).1 calls →
    ∃ s, (Machine.run step (start proc).1 calls).1 = some s ∧
      (s.ended = true → (visited proc calls).count k = 1)

end Iteration

/-! ## What requests change -/

/-- The change that a call makes to the index. -/
inductive Changes {ι : Type} [Indexer ι] (p : Proc ι) : IterationCall → IndexChange → Prop
  | put {key value : Bytes} {pos : LogRecordPos} {q : Proc ι} : key ≠ [] →
      (appendLogRecordInternal ⟨logRecordKeyWithSeq key nonTransactionSeqNo, value, .normal⟩ :
        DBM ι _).run p = .ok pos q → Changes p (.put key value) (.put key pos)
  | remove {key : Bytes} {pos : LogRecordPos} {q : Proc ι} : key ≠ [] →
      (Indexer.get p.db.index key).isSome →
      (appendLogRecordInternal
        { key := logRecordKeyWithSeq key nonTransactionSeqNo, type := .deleted } :
        DBM ι _).run p = .ok pos q → Changes p (.remove key) (.remove key)

namespace Changes

variable {ι It : Type} [Cursor It Bytes Item] [OrderedIndex ι It] {p : Proc (ModelledIndex ι)}

/-- A put leaves the index as it is, or makes its change. -/
theorem of_put (key value : Bytes) :
    (finalState ((DB.put key value : DBM _ Unit).run p)).db.index = p.db.index ∨
      ∃ x, Changes p (.put key value) x ∧
        (finalState ((DB.put key value : DBM _ Unit).run p)).db.index = p.db.index.apply x := by
  by_cases hkey : key = []
  · rw [DB.put_nil hkey]
    exact .inl rfl
  · rw [DB.put, if_neg hkey]
    have hsame := SameIndex.appendLogRecordInternal
      ⟨logRecordKeyWithSeq key nonTransactionSeqNo, value, .normal⟩ p
    rcases hrun : (appendLogRecordInternal
      ⟨logRecordKeyWithSeq key nonTransactionSeqNo, value, .normal⟩ :
        DBM (ModelledIndex ι) _).run p with ⟨pos, q⟩ | ⟨e, q⟩
    · rw [hrun] at hsame
      refine .inr ⟨_, .put hkey hrun, ?_⟩
      rw [bind_ok hrun, ModelledIndex.apply, ← hsame.index]
      rfl
    · rw [hrun] at hsame
      rw [bind_error hrun]
      exact .inl hsame.index

/-- A removal leaves the index as it is, or makes its change. -/
theorem of_remove (key : Bytes) :
    (finalState ((DB.remove key : DBM _ Unit).run p)).db.index = p.db.index ∨
      ∃ x, Changes p (.remove key) x ∧
        (finalState ((DB.remove key : DBM _ Unit).run p)).db.index = p.db.index.apply x := by
  by_cases hkey : key = []
  · rw [DB.remove_nil hkey]
    exact .inl rfl
  · rw [DB.remove, if_neg hkey]
    show (finalState ((proc >>= fun _ => _).run p)).db.index = _ ∨ _
    rw [bind_ok (proc_run p)]
    rcases hget : Indexer.get p.db.index key with _ | old
    · exact .inl rfl
    · rw [if_neg (by simp)]
      have hsame := SameIndex.appendLogRecordInternal
        { key := logRecordKeyWithSeq key nonTransactionSeqNo, type := .deleted } p
      rcases hrun : (appendLogRecordInternal
        { key := logRecordKeyWithSeq key nonTransactionSeqNo, type := .deleted } :
          DBM (ModelledIndex ι) _).run p with ⟨pos, q⟩ | ⟨e, q⟩
      · rw [hrun] at hsame
        refine .inr ⟨_, .remove hkey (by rw [hget]; rfl) hrun, ?_⟩
        rw [bind_ok hrun, bind_ok (modifyDB_run _ q), bind_ok (indexRemove_eq _ key),
          ModelledIndex.apply, ← hsame.index]
        split <;> rfl
      · rw [hrun] at hsame
        rw [bind_error hrun]
        exact .inl hsame.index

end Changes

/-! ## Visiting each key once -/

namespace Iteration

variable {ι It : Type} [Cursor It Bytes Item] [OrderedIndex ι It]
  {Ahead : ModelledIndex ι → It → Bytes → List Bytes → Prop}
  {Keeps : ModelledIndex ι → It → IndexChange → Prop} {k : Bytes} {passed : List Bytes}

/-- As long as the loop goes on, the iterator keeps its place in the changes that calls make. -/
def KeepsPlace (Keeps : ModelledIndex ι → It → IndexChange → Prop) (s : Option (Iteration ι))
    (call : IterationCall) : Prop :=
  ∀ it ∈ s, it.ended = false → ∀ x, Changes it.proc call x → ∀ c ∈ it.iterator.indexIter,
    Keeps it.proc.db.index c x

theorem keepsPlace_of_forall (s : Option (Iteration ι)) (call : IterationCall) :
    KeepsPlace (fun _ _ _ => True) s call :=
  fun _ _ _ _ _ _ _ => trivial

/-- A loop has some keys ahead, and with those it has visited they are a sweep for a key if that
    is in the index. -/
structure Sweeping (Ahead : ModelledIndex ι → It → Bytes → List Bytes → Prop) (k : Bytes)
    (s : Iteration ι) (passed : List Bytes) (c : It) (last : Bytes) (rest : List Bytes) : Prop where
  ended : s.ended = false
  iterator : s.iterator = ⟨{}, some c⟩
  ahead : Ahead s.proc.db.index c last rest
  sweep : (Indexer.get s.proc.db.index k).isSome → Sweep KeyLt k passed last rest

/-- A loop goes on, or has ended and visited a key once. -/
def Swept (Ahead : ModelledIndex ι → It → Bytes → List Bytes → Prop) (k : Bytes)
    (s : Option (Iteration ι)) (passed : List Bytes) : Prop :=
  ∃ it, s = some it ∧ (it.ended = true ∧ passed.count k = 1 ∨
    ∃ c last rest, Sweeping Ahead k it passed c last rest)

/-- Visiting the first of the keys that are ahead. -/
theorem Swept.visit {proc : Proc (ModelledIndex ι)} {c : It} {item : Option Item}
    {keys : List Bytes} (hread : Cursor.read c = some item) (hkeys : item.map Prod.fst = keys.head?)
    (hnil : keys = [] → passed.count k = 1)
    (hcons : ∀ key rest, keys = key :: rest →
      Ahead proc.db.index c key rest ∧ Sweep KeyLt k (passed ++ [key]) key rest) :
    Swept Ahead k (visit proc ⟨{}, some c⟩).1 (passed ++ (visit proc ⟨{}, some c⟩).2) := by
  have hitem : (⟨{}, some c⟩ : DBIterator It).item = some item := by
    cases item <;>
      simp [DBIterator.item, hread, IteratorOptions.keyMatchesPrefix_of_empty, Option.filter]
  rw [Iteration.visit, hitem]
  rcases item with _ | item
  · obtain rfl : keys = [] := List.head?_eq_none_iff.1 hkeys.symm
    refine ⟨_, rfl, .inl ⟨rfl, ?_⟩⟩
    rw [List.append_nil]
    exact hnil rfl
  · obtain ⟨rest, rfl⟩ := List.head?_eq_some_iff.1 hkeys.symm
    obtain ⟨hahead, hsweep⟩ := hcons _ _ rfl
    exact ⟨_, rfl, .inr ⟨c, item.1, rest, rfl, rfl, hahead, fun _ => hsweep⟩⟩

variable [LiveIndex ι It]

theorem Swept.start (h : Tracks Ahead Keeps) {proc : Proc (ModelledIndex ι)}
    (hk : (Indexer.get proc.db.index k).isSome) :
    Swept Ahead k (start proc).1 (start proc).2 := by
  obtain ⟨c, items, hiterator, hitems, hread, hahead⟩ := h.start proc.db.index
  have hit : proc.db.iterator {} = some ⟨{}, some c⟩ := by
    rw [DB.iterator]
    exact Option.bind_eq_some_iff.2 ⟨c, hiterator, rfl⟩
  have hmem : k ∈ items.map Prod.fst := (hitems.isSome_iff k).2 hk
  rw [Iteration.start, hit]
  show Swept Ahead k (Iteration.visit proc _).1 ([] ++ (Iteration.visit proc _).2)
  refine Swept.visit hread (by rw [List.head?_map]) (fun hnil => ?_) fun key rest hcons => ?_
  · rw [hnil] at hmem
    cases hmem
  · obtain ⟨item, rest, rfl, rfl, rfl⟩ := List.map_eq_cons_iff.1 hcons
    have hfirst := hahead item rest rfl
    exact ⟨hfirst, .start (h.ascending hfirst) hmem⟩

/-- A request that changes the index as the iterator expects. -/
theorem Sweeping.write (h : Tracks Ahead Keeps) {s : Iteration ι} {c : It} {last : Bytes}
    {rest : List Bytes} (hs : Sweeping Ahead k s passed c last rest)
    (hk : (Indexer.get s.proc.db.index k).isSome) {m : DBM (ModelledIndex ι) Unit}
    (hm : (finalState (m.run s.proc)).db.index = s.proc.db.index ∨
      ∃ x, Keeps s.proc.db.index c x ∧
        (finalState (m.run s.proc)).db.index = s.proc.db.index.apply x) :
    Swept Ahead k (some (s.write m)) passed := by
  rcases hm with hindex | ⟨x, hkeeps, hindex⟩
  · have hfollow : s.iterator.follow s.proc.db.index.index = ⟨{}, some c⟩ := by
      rw [hs.iterator, DBIterator.follow, Option.map_some, h.follow hs.ahead]
    refine ⟨_, rfl, .inr ⟨c, last, rest, hs.ended, ?_, ?_, fun _ => hs.sweep hk⟩⟩
    · rw [Iteration.write]
      simp only [hindex, hfollow]
    · exact hindex ▸ hs.ahead
  · obtain ⟨rest', hahead, hmem⟩ := h.change x hs.ahead hkeeps
    refine ⟨_, rfl, .inr ⟨LiveIndex.follow (s.proc.db.index.apply x).index c, last, rest', hs.ended,
      ?_, ?_, fun hk' => ?_⟩⟩
    · rw [Iteration.write]
      simp only [hindex, hs.iterator]
      rfl
    · exact hindex ▸ hahead
    · exact (hs.sweep hk).change (h.ascending hahead) fun hrest => hmem k hrest (hindex ▸ hk')

/-- Every step keeps the sweep, as long as the key is in the index. -/
theorem Swept.step (h : Tracks Ahead Keeps) {s : Option (Iteration ι)} {call : IterationCall}
    (hs : Swept Ahead k s passed) (hk : Present k s call) (hkeeps : KeepsPlace Keeps s call) :
    Swept Ahead k (step s call).1 (passed ++ (step s call).2) := by
  obtain ⟨it, rfl, ⟨hended, hcount⟩ | ⟨c, last, rest, hs⟩⟩ := hs
  · -- Nothing is visited any more.
    rcases call with _ | ⟨key, value⟩ | ⟨key⟩
    · rw [Iteration.step, if_pos hended, List.append_nil]
      exact ⟨it, rfl, .inl ⟨hended, hcount⟩⟩
    all_goals
      rw [Iteration.step, List.append_nil]
      exact ⟨_, rfl, .inl ⟨hended, hcount⟩⟩
  · have hsome : (Indexer.get it.proc.db.index k).isSome :=
      (hk it rfl).resolve_left (by simp [hs.ended])
    have hplace (x : IndexChange) (hx : Changes it.proc call x) : Keeps it.proc.db.index c x :=
      hkeeps it rfl hs.ended x hx c (by rw [hs.iterator]; rfl)
    rcases call with _ | ⟨key, value⟩ | ⟨key⟩
    · obtain ⟨c', item, hnext, hread, hitem, hahead⟩ := h.next hs.ahead
      have hit : it.iterator.next = some ⟨{}, some c'⟩ := by
        rw [hs.iterator]
        exact Option.bind_eq_some_iff.2 ⟨c', hnext, rfl⟩
      have hsweep := hs.sweep hsome
      rw [Iteration.step, if_neg (by simp [hs.ended]), hit]
      refine Swept.visit hread hitem (fun hnil => ?_) fun key rest' hcons => ?_
      · subst hnil
        exact hsweep.count_eq_one
      · subst hcons
        exact ⟨hahead key rest' rfl, hsweep.next⟩
    · rw [Iteration.step, List.append_nil]
      refine hs.write h hsome ((Changes.of_put key value).imp_right ?_)
      rintro ⟨x, hx, hindex⟩
      exact ⟨x, hplace x hx, hindex⟩
    · rw [Iteration.step, List.append_nil]
      refine hs.write h hsome ((Changes.of_remove key).imp_right ?_)
      rintro ⟨x, hx, hindex⟩
      exact ⟨x, hplace x hx, hindex⟩

/-- Iterators that track an index visit each key once. -/
theorem visitOnce_of_tracks (h : Tracks Ahead Keeps) : VisitOnce ι (KeepsPlace Keeps) := by
  intro proc k calls hk hpresent hkeeps
  obtain ⟨s, hs, hswept⟩ := Machine.run_inv (I := Swept Ahead k)
    (fun s call passed hs hC => hs.step h hC.1 hC.2) (Swept.start h hk)
      (hpresent.and hkeeps)
  refine ⟨s, hs, fun hended => ?_⟩
  rcases hswept with ⟨-, hcount⟩ | ⟨c, last, rest, hsweeping⟩
  · exact hcount
  · rw [hsweeping.ended] at hended
    cases hended

theorem VisitOnce.mono {C C' : Option (Iteration ι) → IterationCall → Prop}
    (h : ∀ s call, C' s call → C s call) (hvisit : VisitOnce ι C) : VisitOnce ι C' :=
  fun proc k calls hk hpresent hC => hvisit proc k calls hk hpresent (hC.mono h)

/-- With an index of type `BTREE`, `ART` or `SKIPLIST` each key is visited once, whatever is
    called; with one of type `BPTREE`, if the iterator keeps its place. -/
theorem visitOnce (levels : ℕ → ℕ → ℕ) :
    VisitOnce BTreeIndex (fun _ _ => True) ∧ VisitOnce ARTIndex (fun _ _ => True) ∧
      VisitOnce (SkipListMemory levels) (fun _ _ => True) ∧
      VisitOnce BPlusTreeIndex (KeepsPlace BPlusTreeIterator.KeepsPlace) :=
  ⟨(visitOnce_of_tracks (tracks_copy fun _ _ => rfl)).mono fun s call _ =>
      keepsPlace_of_forall s call,
    (visitOnce_of_tracks (tracks_copy fun _ _ => rfl)).mono fun s call _ =>
      keepsPlace_of_forall s call,
    (visitOnce_of_tracks SkipListIterator.tracks_skipList).mono fun s call _ =>
      keepsPlace_of_forall s call,
    visitOnce_of_tracks BPlusTreeIterator.tracks_bPlusTree⟩

/-- A new database into which some keys have been put. -/
def withKeys (keys : List Bytes) : Proc (ModelledIndex BPlusTreeIndex) :=
  match (DB.open ⟨['d'], 100, false⟩ : Sys (DB (ModelledIndex BPlusTreeIndex))).run { fs := ∅ } with
  | .ok db w => finalState ((keys.forM fun key => DB.put key []).run ⟨db, w⟩)
  | .error _ w => ⟨{ options := ⟨['d'], 100, false⟩, index := Indexer.create 0 }, w⟩

/-- A key is removed behind the place of the iterator. -/
theorem visitOnce_removing_last :
    ∃ s, (Machine.run step (start (withKeys [[1], [2], [3]])).1 [.remove [3], .next, .next]).1 =
        some s ∧
      (s.ended = true →
        (visited (withKeys [[1], [2], [3]]) [.remove [3], .next, .next]).count [2] = 1) := by
  refine (visitOnce fun _ _ => 0).2.2.2 _ [2] _ (by decide +kernel) (by decide +kernel) ⟨?_, ?_, ?_, trivial⟩
  · rintro it hit - x hx c hc
    cases hx
    have hkey : (start (withKeys [[1], [2], [3]])).1.bind (fun it =>
        it.iterator.indexIter.bind BPlusTreeIterator.currentKey) = some [1] := by decide +kernel
    rw [hit, Option.bind_some, hc, Option.bind_some] at hkey
    exact fun _ => .inl (.inr ⟨[1], hkey, rfl⟩)
  all_goals
    rintro it - - x hx
    cases hx

/-- When the first of three keys is removed as soon as it has been visited, the second one is
    missed. -/
theorem not_visitOnce_bPlusTree : ¬VisitOnce BPlusTreeIndex fun _ _ => True := by
  intro h
  have hvisited : visited (withKeys [[1], [2], [3]]) [.remove [1], .next, .next] = [[1], [3]] := by
    decide +kernel
  have hended : (Machine.run step (start (withKeys [[1], [2], [3]])).1
      [.remove [1], .next, .next]).1.map Iteration.ended = some true := by decide +kernel
  obtain ⟨s, hs, hcount⟩ := h (withKeys [[1], [2], [3]]) [2] [.remove [1], .next, .next]
    (by decide +kernel) (by decide +kernel) (by decide +kernel)
  rw [hs] at hended
  have hone := hcount (Option.some.inj hended)
  rw [hvisited] at hone
  cases hone

end Iteration

end Bitcask
