import Bitcask.LiveBackups
import Bitcask.Redis.Storage
import Bitcask.Services.RpcServer

/-!
# The services over the store

A connection of a service makes one call of the database at most. Over the store
(`FullDatabase.ofStore`), what a call that may be made replies is what a map replies that has
been told of the statistics and the merges of the store, and afterwards the map has the values
of the store again (`Holds.perform`).

So connections of the HTTP server and of the RPC server that come one after the other to a new
store are sent what they are sent over a map, whatever they ask for, and leave the writes that
they ask for (`visits_run`).
-/

namespace Bitcask.Services

open Redis (Entries ofText)
open Transaction Guarantee

/-! ## The store -/

section Store

variable {ι : Type}

/-- What is returned or thrown, and the process afterwards. -/
def performed (m : DBM ι Unit) (p : Proc ι) : Except Exn Unit × Proc ι :=
  let r := m.run p
  ((exn? r).elim (.ok ()) .error, finalState r)

theorem performed_ok {m : DBM ι Unit} {p q : Proc ι} (h : m.run p = .ok () q) :
    performed m p = (.ok (), q) := by
  rw [performed, h]
  rfl

theorem performed_error {m : DBM ι Unit} {e : Exn} {p q : Proc ι} (h : m.run p = .error e q) :
    performed m p = (.error e, q) := by
  rw [performed, h]
  rfl

/-- The path that a text names. -/
def pathOf (text : Bytes) : Path := text.map fun b => Char.ofNat b.toNat

variable [Indexer ι]

/-- The store as a database. It is given what a merge finds. -/
def FullDatabase.ofStore (shouldMerge : Bool) (availableSize : ℕ) : FullDatabase (Proc ι) where
  put key value := performed (DB.put key value)
  get key p := (p.db.get p.world.fs key, p)
  remove key := performed (DB.remove key)
  listKeys p := (.ok p.db.listKeys, p)
  stat p := (.ok (p.db.stat p.world.fs), p)
  backup dir := performed (DB.backup (pathOf dir))
  merge := performed (DB.merge shouldMerge availableSize)

/-- A call that may be made: a request that may be made, a merge when every key stands for
    itself, a backup into a directory that the database spares, and whatever reads. -/
def MayCall (p : Proc ι) : DatabaseCall → Prop
  | .put key value => Life.Admits ⟨p, []⟩ (.put key value)
  | .remove key => Life.Admits ⟨p, []⟩ (.remove key)
  | .backup dir => DB.SparedBy p.db.options.dirPath (pathOf dir)
  | .merge => Life.Mergeable ⟨p, []⟩
  | _ => True

instance (p : Proc ι) : DecidablePred (MayCall p)
  | .put _ _ => inferInstanceAs (Decidable (Life.Admits _ _))
  | .get _ => .isTrue trivial
  | .remove _ => inferInstanceAs (Decidable (Life.Admits _ _))
  | .listKeys => .isTrue trivial
  | .stat => .isTrue trivial
  | .backup _ => inferInstanceAs (Decidable (DB.SparedBy _ _))
  | .merge => inferInstanceAs (Decidable (Life.Mergeable _))

/-- A connection, and what a merge finds while it lasts. -/
structure Visit extends Incoming where
  shouldMerge : Bool
  availableSize : ℕ

namespace Visit

/-- The process afterwards, and what is sent. -/
def serve (p : Proc ι) (visit : Visit) : Proc ι × List Bytes :=
  visit.toIncoming.serve (.ofStore visit.shouldMerge visit.availableSize) p

/-- The call that is made, if any, may be made. -/
def Permits (p : Proc ι) (visit : Visit) : Prop := ∀ c ∈ visit.call?, MayCall p c

instance (p : Proc ι) (visit : Visit) : Decidable (visit.Permits p) :=
  inferInstanceAs (Decidable (∀ c ∈ visit.call?, _))

end Visit

end Store

/-! ## The store and the map -/

/-- What a map may be told by a store with its entries. -/
structure Told.Fits (told : Told) (entries : Entries) : Prop where
  keyNum : told.stat.keyNum = entries.size % 2 ^ 32
  dataFileNum : told.stat.dataFileNum = 1
  merged : told.merged = .ok () ∨ told.merged = .error .mergeRatioUnreached ∨
    told.merged = .error .noEnoughSpaceForMerge

/-- What may be sent over a map, and the entries afterwards. -/
def Visit.Spec (entries : Entries) (visit : Visit) (sent : List Bytes) (entries' : Entries) : Prop :=
  ∃ told : Told, told.Fits entries ∧
    visit.toIncoming.serve (.ofEntries told) entries = (entries', sent)

section Spec

variable {entries entries' : Entries} {sent : List Bytes}

/-- A visit leaves the writes that it asks for. -/
theorem Visit.Spec.getElem?_eq {visit : Visit} (h : Visit.Spec entries visit sent entries')
    (k : Bytes) : entries'[k]? = overlay visit.writes (fun k => entries[k]?) k := by
  obtain ⟨told, -, hserve⟩ := h
  have hwritten := visit.getElem?_serve told entries k
  rwa [hserve] at hwritten

/-- So do visits that come one after the other. -/
theorem getElem?_of_specRun {visits : List Visit}
    (h : Machine.SpecRun Visit.Spec entries visits sent entries') (k : Bytes) :
    entries'[k]? = overlay (visits.flatMap fun visit => visit.writes) (fun k => entries[k]?) k := by
  induction h with
  | nil => rfl
  | cons head tail ih => rw [ih, List.flatMap_cons, overlay_append, funext head.getElem?_eq]

end Spec

section Holds

variable {ι It : Type} [Cursor It Bytes Item] [OrderedIndex ι It] {options : Options}
  {p : Proc (ModelledIndex ι)} {entries : Entries}

/-- A process has the entries as its values. -/
def Holds (options : Options) (p : Proc (ModelledIndex ι)) (entries : Entries) : Prop :=
  ∃ records base store, Life.Alive options records base ⟨p, []⟩ store ∧
    ∀ k, entries[k]? = store.values k

namespace Holds

theorem get_eq (h : Holds options p entries) (key : Bytes) : p.db.get p.world.fs key =
    if key = [] then .error .keyEmpty else entries[key]?.elim (.error .keyNotFound) .ok := by
  obtain ⟨records, base, store, halive, hvalues⟩ := h
  split_ifs with hkey
  · exact if_pos hkey
  · rw [hvalues]
    exact halive.get_eq hkey

theorem tells (h : Holds options p entries) : p.db.listKeys = entries.keys ∧
    ∀ backedUp, Told.Fits ⟨p.db.stat p.world.fs, backedUp, .ok ()⟩ entries := by
  obtain ⟨records, base, store, halive, hvalues⟩ := h
  obtain ⟨pairs, hlists, henumerates⟩ := halive.tells
  have hkeys : pairs.map Prod.fst = entries.keys := by
    refine hlists.sorted.eq_of_mem_iff Std.TreeMap.ordered_keys fun k => ?_
    rw [Std.TreeMap.mem_keys, Std.TreeMap.mem_iff_isSome_getElem?, hvalues]
    simp [hlists.mem_iff, Option.isSome_iff_exists]
  have hsize : pairs.length = entries.size := by
    rw [← Std.TreeMap.length_keys, ← hkeys, List.length_map]
  exact ⟨henumerates.listKeys_eq.trans hkeys, fun _ =>
    ⟨hsize ▸ henumerates.keyNum_eq, henumerates.dataFileNum_eq, .inl rfl⟩⟩

/-- A write changes the entries. -/
theorem write (h : Holds options p entries) {op : Op} {m : DBM (ModelledIndex ι) Unit}
    {write : Write}
    (hstep : (⟨p, []⟩ : Session _).step op = (⟨p, []⟩ : Session _).request m [write])
    (hrequested : (⟨p, []⟩ : Session _).requested op = [write])
    (hop : Life.Admits ⟨p, []⟩ op) {entries' : Entries}
    (hentries : ∀ k, entries'[k]? = overlay [write] (fun k => entries[k]?) k) :
    ∃ q, performed m p = (.ok (), q) ∧ Holds options q entries' := by
  obtain ⟨records, base, store, halive, hvalues⟩ := h
  obtain ⟨hafter, hacks⟩ := halive.afterRequest hop
  have hstore := (Life.requested_eq halive.batches op).symm.trans hrequested
  rw [hstore] at hacks
  have hrun := Redis.Backend.run_of_acknowledged (hstep ▸ hacks)
  have hend : ((⟨p, []⟩ : Session _).step op).1 =
      ⟨((⟨p, []⟩ : Session _).request m [write]).1.proc, []⟩ := by
    rw [hstep, Session.request_ok hrun]
  rw [hend] at hafter
  refine ⟨_, performed_ok hrun, _, _, _, hafter, fun k => ?_⟩
  have hsame : (fun k => entries[k]?) = store.values := funext hvalues
  rw [hentries, BatchStore.Store.values_request, hstore, hsame]

/-- A merge changes no entry. -/
theorem merge (h : Holds options p entries) (shouldMerge : Bool) (availableSize : ℕ)
    (hmergeable : Life.Mergeable ⟨p, []⟩) : ∃ merged q,
      performed (DB.merge shouldMerge availableSize) p = (merged, q) ∧ Holds options q entries ∧
      (merged = .ok () ∨ merged = .error .mergeRatioUnreached ∨
        merged = .error .noEnoughSpaceForMerge) := by
  obtain ⟨records, base, store, halive, hvalues⟩ := h
  obtain ⟨⟨records', hafter⟩, hanswer⟩ := halive.afterMerge shouldMerge availableSize hmergeable
  refine ⟨_, _, rfl, ⟨records', base, store, hafter, hvalues⟩, ?_⟩
  simp only [Life.step, Life.thrown] at hanswer
  generalize exn? ((DB.merge shouldMerge availableSize : DBM (ModelledIndex ι) Unit).run p) = thrown
    at hanswer ⊢
  cases thrown with
  | none => exact .inl rfl
  | some e =>
    rcases hanswer with hnil | ⟨e', he, hreason⟩
    · cases hnil
    · cases he
      rcases hreason with rfl | rfl
      · exact .inr (.inl rfl)
      · exact .inr (.inr rfl)

/-- The store replies as a map that has been told what fits. -/
theorem perform (h : Holds options p entries) (shouldMerge : Bool) (availableSize : ℕ)
    {c : DatabaseCall} (hc : MayCall p c) : ∃ told : Told, told.Fits entries ∧
      let r := (FullDatabase.ofStore shouldMerge availableSize).perform p c
      let r' := (FullDatabase.ofEntries told).perform entries c
      r.1 = r'.1 ∧ Holds options r.2 r'.2 := by
  obtain ⟨hkeys, hfits⟩ := h.tells
  cases c with
  | put key value =>
    refine ⟨_, hfits (.ok ()), ?_⟩
    simp only [FullDatabase.perform, FullDatabase.ofStore, FullDatabase.ofEntries]
    split_ifs with hkey
    · rw [performed_error (DB.put_nil hkey value p)]
      exact ⟨rfl, h⟩
    · have hrequested : (⟨p, []⟩ : Session _).requested (.put key value) = [(key, some value)] :=
        if_neg hkey
      obtain ⟨q, hrun, hq⟩ := h.write rfl hrequested hc (getElem?_insert_eq entries key value)
      rw [hrun]
      exact ⟨rfl, hq⟩
  | get key =>
    refine ⟨_, hfits (.ok ()), ?_⟩
    simp only [FullDatabase.perform, FullDatabase.ofStore, FullDatabase.ofEntries, h.get_eq key]
    split_ifs <;> exact ⟨rfl, h⟩
  | remove key =>
    refine ⟨_, hfits (.ok ()), ?_⟩
    simp only [FullDatabase.perform, FullDatabase.ofStore, FullDatabase.ofEntries]
    split_ifs with hkey
    · rw [performed_error (DB.remove_nil hkey p)]
      exact ⟨rfl, h⟩
    · have hrequested : (⟨p, []⟩ : Session _).requested (.remove key) = [(key, none)] :=
        if_neg hkey
      obtain ⟨q, hrun, hq⟩ := h.write rfl hrequested hc (getElem?_erase_eq entries key)
      rw [hrun]
      exact ⟨rfl, hq⟩
  | listKeys => exact ⟨_, hfits (.ok ()), congrArg Except.ok hkeys, h⟩
  | stat => exact ⟨_, hfits (.ok ()), rfl, h⟩
  | backup dir =>
    obtain ⟨records, base, store, halive, hvalues⟩ := h
    have hspared : DB.SparedBy options.dirPath (pathOf dir) := halive.options_eq ▸ hc
    exact ⟨_, hfits (performed (DB.backup (pathOf dir)) p).1, rfl, records, base, store,
      halive.afterBackup hspared, hvalues⟩
  | merge =>
    obtain ⟨merged, q, hrun, hq, hmerged⟩ := h.merge shouldMerge availableSize hc
    refine ⟨⟨p.db.stat p.world.fs, .ok (), merged⟩, { hfits (.ok ()) with merged := hmerged }, ?_⟩
    simpa only [FullDatabase.perform, FullDatabase.ofStore, FullDatabase.ofEntries, hrun, true_and]
      using hq

/-- A visit is sent what it is sent over a map. -/
theorem serve (h : Holds options p entries) {visit : Visit} (hvisit : visit.Permits p) :
    ∃ entries', visit.Spec entries (visit.serve p).2 entries' ∧
      Holds options (visit.serve p).1 entries' := by
  obtain ⟨task, hcall, hserve⟩ := visit.exists_task
  rw [Visit.serve, hserve]
  cases task with
  | answer a => exact ⟨entries, ⟨_, h.tells.2 (.ok ()), hserve _ _⟩, h⟩
  | call c rest =>
    obtain ⟨told, hfits, hreply, hholds⟩ :=
      h.perform visit.shouldMerge visit.availableSize (hvisit c hcall.symm)
    refine ⟨_, ⟨told, hfits, ?_⟩, hholds⟩
    rw [hserve, Task.run, Task.run, hreply]

end Holds

/-- Nothing is held where no key has a value. -/
theorem holds_empty {records : List LogRecord} {base : ℕ}
    (h : Life.Alive options records base ⟨p, []⟩ { values := fun _ => none }) :
    Holds options p ∅ :=
  ⟨records, base, _, h, fun _ => Std.TreeMap.getElem?_emptyc⟩

/-- Whatever connections come to a process, what is sent is what is sent over a map. -/
theorem Holds.run (h : Holds options p entries) {visits : List Visit}
    (hvisits : Machine.AllSteps Visit.serve (fun p visit => visit.Permits p) p visits) :
    ∃ entries', Machine.SpecRun Visit.Spec entries visits (Machine.run Visit.serve p visits).2
        entries' ∧ Holds options (Machine.run Visit.serve p visits).1 entries' :=
  Machine.run_refines (fun _ _ _ h hvisit => h.serve hvisit) h hvisits

/-- Connections that come one after the other to a new store, of any of the services, are sent
    what they are sent over a map, and the values read are those that the writes asked for have
    left, as long as no call is made that may not be made. -/
theorem visits_run {w : World} (hfresh : Fresh options w) (hio : ∀ c, w.outcomes c = [])
    (hfs : w.fs.Hierarchical (DB.getMergePath options.dirPath)) :
    ∃ (db : DB (ModelledIndex ι)) (w' : World),
      (DB.open options : Sys (DB (ModelledIndex ι))).run w = .ok db w' ∧
      ∀ visits, Machine.AllSteps Visit.serve (fun p visit => visit.Permits p) ⟨db, w'⟩ visits →
        let x := Machine.run Visit.serve ⟨db, w'⟩ visits
        (∃ entries, Machine.SpecRun Visit.Spec ∅ visits x.2 entries) ∧
          ∀ key ≠ [], x.1.db.get x.1.world.fs key =
            (overlay (visits.flatMap fun visit => visit.writes) (fun _ => none) key).elim
              (.error .keyNotFound) .ok := by
  obtain ⟨db, w', hopen, halive⟩ := Life.alive_open_fresh (ι := ModelledIndex ι) hfresh hio hfs
  refine ⟨db, w', hopen, fun visits hvisits => ?_⟩
  obtain ⟨entries, hspec, hend⟩ := (holds_empty halive).run hvisits
  refine ⟨⟨entries, hspec⟩, fun key hkey => ?_⟩
  have hnone : (fun k => (∅ : Entries)[k]?) = fun _ => none :=
    funext fun _ => Std.TreeMap.getElem?_emptyc
  rw [hend.get_eq, if_neg hkey, getElem?_of_specRun hspec, hnone]

/-- A value is put and a backup is made through the RPC server, the files are merged, and the
    value is read through the HTTP server. -/
def putAndGet : List Visit :=
  [⟨⟨Rpc.server, Rpc.putRequest [107] [118]⟩, false, 0⟩,
    ⟨⟨Rpc.server, ofText "\x7b\"method\": \"backup\", \"params\": [\"b\"]\x7d"⟩, false, 0⟩,
    ⟨⟨Rpc.server, ofText "\x7b\"method\": \"merge\", \"params\": []\x7d"⟩, true, DB.minAvailableSize⟩,
    ⟨⟨Http.server fun _ => 0, ofText "GET /bitcask/get?key=k HTTP/1.1\r\n\r\n"⟩, false, 0⟩]

/-- The value is in the store. -/
theorem visits_run_putAndGet : ∃ (db : DB (ModelledIndex BTreeIndex)) (w' : World),
    (DB.open ⟨['d'], 100, false⟩ : Sys (DB (ModelledIndex BTreeIndex))).run { fs := ∅ } =
        .ok db w' ∧
      let x := Machine.run Visit.serve ⟨db, w'⟩ putAndGet
      (∃ entries, Machine.SpecRun Visit.Spec ∅ putAndGet x.2 entries) ∧
        x.1.db.get x.1.world.fs [107] = .ok [118] := by
  obtain ⟨db, w', hopen, h⟩ := visits_run (ι := BTreeIndex)
    (Session.fresh_empty (by decide : 100 ≠ 0) false) (fun _ => rfl) (fun _ _ _ => rfl)
  have hpermits : (value? ((DB.open ⟨['d'], 100, false⟩ :
      Sys (DB (ModelledIndex BTreeIndex))).run { fs := ∅ })).any (fun db' =>
        let w'' := finalState ((DB.open ⟨['d'], 100, false⟩ :
          Sys (DB (ModelledIndex BTreeIndex))).run { fs := ∅ })
        decide (Machine.AllSteps Visit.serve (fun p visit => visit.Permits p)
          ⟨db', w''⟩ putAndGet)) = true := by
    decide +kernel
  have hget : (value? ((DB.open ⟨['d'], 100, false⟩ :
      Sys (DB (ModelledIndex BTreeIndex))).run { fs := ∅ })).any (fun db' =>
        let w'' := finalState ((DB.open ⟨['d'], 100, false⟩ :
          Sys (DB (ModelledIndex BTreeIndex))).run { fs := ∅ })
        let x := Machine.run Visit.serve ⟨db', w''⟩ putAndGet
        decide (x.1.db.get x.1.world.fs [107] = .ok [118])) = true := by
    decide +kernel
  simp only [hopen, value?, Option.any_some, finalState_ok, decide_eq_true_eq] at hpermits hget
  obtain ⟨hsent, -⟩ := h putAndGet hpermits
  exact ⟨db, w', hopen, hsent, hget⟩

end Holds

end Bitcask.Services
