import Bitcask.Redis.Expiry
import Bitcask.Redis.Fields
import Bitcask.Redis.Interference

/-!
# Incarnations of a collection

Deleting a collection removes its metadata only, and the entries of its fields stay for
ever. The next collection under the key has the time for its version, and so finds none of
them, if the clock never tells the same time again: all versions so far are behind the
readings to come (`Follows`).

So what is found of a field is what was added last, since the key was deleted last
(`FindsLast`), just when no collection begins at a time for which the database has had
entries from the start (`findsLast_iff`): keys of any kind share one key space.
-/

namespace Bitcask.Redis

/-! ## What is to be found -/

/-- Looking for a field finds what the map has. -/
def TellsFields (type : FieldsType) (entries : Entries) (key : Bytes) (m : Entries) : Prop :=
  ∀ field clock, (serve entries ⟨(FieldRequest.find field).toRequest key type, clock⟩).2 =
    [Fields.found type m[field]?]

/-- Before, between and after the calls, what is found is what was added last since the
    key was deleted. -/
def FindsLast (type : FieldsType) (key : Bytes) :
    Entries → Entries → List (FieldRequest × Clock) → Prop
  | entries, m, [] => TellsFields type entries key m
  | entries, m, (r, clock) :: calls =>
    TellsFields type entries key m ∧
      FindsLast type key (serve entries ⟨r.toRequest key type, clock⟩).1 (Fields.step type m r).1 calls

/-- There are never more fields than 32 bits can count. -/
def HasRoom (type : FieldsType) : Entries → List (FieldRequest × Clock) → Prop
  | m, [] => m.size < 2 ^ 32
  | m, (r, _) :: calls => m.size < 2 ^ 32 ∧ HasRoom type (Fields.step type m r).1 calls

instance HasRoom.decidable (type : FieldsType) : (m : Entries) →
    (calls : List (FieldRequest × Clock)) → Decidable (HasRoom type m calls)
  | m, [] => inferInstanceAs (Decidable (m.size < 2 ^ 32))
  | m, (r, _) :: calls =>
    have := HasRoom.decidable type (Fields.step type m r).1 calls
    inferInstanceAs (Decidable (m.size < 2 ^ 32 ∧ HasRoom type (Fields.step type m r).1 calls))

/-- Where the first field is added, the database `entries₀` has no entry of the version. -/
def BeginsUnused (type : FieldsType) (entries₀ : Entries) (key : Bytes) :
    Entries → List (FieldRequest × Clock) → Prop
  | _, [] => True
  | m, (r, clock) :: calls =>
    ((∃ field value, r = .add field value) → m.size = 0 → Unused entries₀ key (clock 0)) ∧
      BeginsUnused type entries₀ key (Fields.step type m r).1 calls

section Serve

variable {type : FieldsType} {entries m : Entries} {key field value : Bytes} {version : UInt64}
  {n : ℕ} {clock clock' : Clock}

/-! ## Serving calls -/

theorem serve_find_of_absent (h : entries[key]? = none) (field : Bytes) (clock : Clock) :
    (serve entries ⟨(FieldRequest.find field).toRequest key type, clock⟩).2 =
      [Fields.found type none] := by
  cases type
  · have hkey : entries[(Call.mk (.hget key field) clock).request.key]? = none := h
    exact serve_of_absent hkey
  · have hkey : entries[(Call.mk (.sismember key field) clock).request.key]? = none := h
    exact serve_of_absent hkey

theorem run_findMetadata_of_fieldsMetadata
    (hkey : entries[key]? = some (fieldsMetadata type version n).encode) (clock : Clock) :
    Operation.run (findMetadata key type.dataType) ⟨entries, clock⟩ =
      (.ok (fieldsMetadata type version n), ⟨entries, clock⟩) := by
  have hkey : (MapDB.mk entries clock).entries[key]? = some (fieldsMetadata type version n).encode :=
    hkey
  have hdecode := RedisMetadata.decode_encode (fieldsMetadata type version n)
  rw [stored_fieldsMetadata] at hdecode
  exact (Finds.lasting hkey hdecode rfl rfl).run

theorem serve_find_of_present (hkey : entries[key]? = some (fieldsMetadata type version n).encode)
    (hn : n < 2 ^ 32) (h0 : n ≠ 0) (field : Bytes) (clock : Clock) :
    (serve entries ⟨(FieldRequest.find field).toRequest key type, clock⟩).2 =
      [Fields.found type entries[internalKey key version field]?] := by
  have hfind := run_findMetadata_of_fieldsMetadata hkey clock
  have hsize : (fieldsMetadata type version n).size ≠ 0 := mt (size_fieldsMetadata_eq_zero_iff hn).1 h0
  cases type with
  | hash =>
    have hrun : Operation.run (hget key field) ⟨entries, clock⟩ =
        Operation.run (DB.get (internalKey key version field)) ⟨entries, clock⟩ := by
      refine (Operation.run_bind_of_ok hfind).trans ?_
      rw [if_neg hsize]
      rfl
    rw [FieldRequest.toRequest, serve_snd, List.singleton_inj, Request.operation, run_reply_fst, hrun]
    cases hvalue : entries[internalKey key version field]? with
    | none => exact congrArg (Except.map Reply.text ∘ Prod.fst) (run_get_of_none hvalue)
    | some value => exact congrArg (Except.map Reply.text ∘ Prod.fst) (run_get_of_some hvalue)
  | set =>
    have hrun : Operation.run (sismember key field) ⟨entries, clock⟩ =
        Operation.run (stored (internalKey key version field)) ⟨entries, clock⟩ := by
      refine (Operation.run_bind_of_ok hfind).trans ?_
      rw [if_neg hsize]
      rfl
    rw [FieldRequest.toRequest, serve_snd, List.singleton_inj, Request.operation, run_reply_fst, hrun,
      run_stored]
    rfl

/-- Adding a field leaves the metadata as it is if there is an entry for the field. -/
theorem getElem?_key_serve_add
    (hfind : Operation.run (findMetadata key type.dataType) ⟨entries, clock⟩ =
      (.ok (fieldsMetadata type version n), ⟨entries, clock'⟩)) (field value : Bytes) :
    (serve entries ⟨(FieldRequest.add field value).toRequest key type, clock⟩).1[key]? =
      if (entries[internalKey key version field]?).isSome then entries[key]?
      else some (fieldsMetadata type version (n + 1)).encode := by
  have hstored := run_stored (internalKey key version field) ⟨entries, clock'⟩
  have hkey (entries : Entries) (bytes : Bytes) :
      (entries.insert (internalKey key version field) bytes)[key]? = entries[key]? :=
    (Entries.getElem?_insert ..).trans (if_neg (internalKey_ne key version field).symm)
  have hnew (entries : Entries) (bytes : Bytes) : (entries.insert key bytes)[key]? = some bytes :=
    (Entries.getElem?_insert ..).trans (if_pos rfl)
  rw [← fieldsMetadata_add_one]
  -- The metadata is stored only if the entry was not there.
  cases hexists : (entries[internalKey key version field]?).isSome <;> rw [hexists] at hstored
  · cases type with
    | hash =>
      have hrun : Operation.run (hset key field value) ⟨entries, clock⟩ = (.ok true, _) :=
        (Operation.run_bind_of_ok hfind).trans (Operation.run_bind_of_ok hstored)
      rw [FieldRequest.toRequest, serve_of_run (Operation.run_bind_of_ok hrun)]
      exact hnew _ _
    | set =>
      have hrun : Operation.run (sadd key field) ⟨entries, clock⟩ = (.ok true, _) :=
        (Operation.run_bind_of_ok hfind).trans (Operation.run_bind_of_ok hstored)
      rw [FieldRequest.toRequest, serve_of_run (Operation.run_bind_of_ok hrun)]
      exact hnew _ _
  · cases type with
    | hash =>
      have hrun : Operation.run (hset key field value) ⟨entries, clock⟩ = (.ok false, _) :=
        (Operation.run_bind_of_ok hfind).trans (Operation.run_bind_of_ok hstored)
      rw [FieldRequest.toRequest, serve_of_run (Operation.run_bind_of_ok hrun)]
      exact hkey _ _
    | set =>
      have hrun : Operation.run (sadd key field) ⟨entries, clock⟩ = (.ok false, _) :=
        (Operation.run_bind_of_ok hfind).trans (Operation.run_bind_of_ok hstored)
      rw [FieldRequest.toRequest, serve_of_run (Operation.run_bind_of_ok hrun)]
      rfl

theorem FieldRequest.dataType?_toRequest {r : FieldRequest} {dataType : RedisDataType}
    (h : (r.toRequest key type).dataType? = some dataType) : dataType = type.dataType := by
  cases type <;> cases r <;> first | exact (Option.some.inj h).symm | cases h

theorem FieldRequest.key_toRequest (r : FieldRequest) : (r.toRequest key type).key = key := by
  cases type <;> cases r <;> rfl

theorem fieldsMetadata_version_inj {version' : UInt64} {n' : ℕ}
    (h : (fieldsMetadata type version n).encode = (fieldsMetadata type version' n').encode) :
    version = version' := by
  have hdecode := RedisMetadata.decode_encode (fieldsMetadata type version n)
  rw [h, RedisMetadata.decode_encode, stored_fieldsMetadata, stored_fieldsMetadata] at hdecode
  exact (congrArg RedisMetadata.version (Except.ok.inj hdecode)).symm

/-- A call changes no entries of another version than that stored and the time. -/
theorem HoldsFields.getElem?_serve (h : HoldsFields type entries key m) (r : FieldRequest)
    {v : UInt64} (hclock : clock 0 ≠ v)
    (hstored : ∀ version n, entries[key]? = some (fieldsMetadata type version n).encode → version ≠ v)
    (f : Bytes) :
    (Redis.serve entries ⟨r.toRequest key type, clock⟩).1[internalKey key v f]? =
      entries[internalKey key v f]? := by
  refine Redis.getElem?_serve fun hwrites => ?_
  generalize hx : internalKey key v f = x at hwrites
  cases hwrites with
  | key =>
    rw [FieldRequest.key_toRequest] at hx
    exact internalKey_ne key v f hx
  | element htype hfinds =>
    have hrun := hfinds.run
    rw [FieldRequest.dataType?_toRequest htype, FieldRequest.key_toRequest] at hrun
    rw [FieldRequest.key_toRequest, internalKey_inj] at hx
    have h : HoldsFields type (MapDB.mk entries clock).entries key m := h
    obtain ⟨version, clock', hfind, hversion, hpresent⟩ := h.run_findMetadata
    cases hfind.symm.trans hrun
    -- A collection without fields gets its version from the clock, others have the stored one.
    by_cases h0 : m.size = 0
    · exact hclock ((hversion h0).symm.trans hx.1.symm)
    · exact hstored _ _ (hpresent h0).1 hx.1.symm

theorem HoldsFields.entries_serve_find (h : HoldsFields type entries key m) (field : Bytes)
    (clock : Clock) :
    (Redis.serve entries ⟨(FieldRequest.find field).toRequest key type, clock⟩).1 = entries := by
  have h : HoldsFields type (MapDB.mk entries clock).entries key m := h
  cases type with
  | hash =>
    obtain ⟨clock', hrun⟩ := h.run_hget field
    cases hfield : m[field]? <;> rw [hfield] at hrun
    · rw [FieldRequest.toRequest, serve_of_run (Operation.run_bind_of_error hrun)]
    · rw [FieldRequest.toRequest, serve_of_run (Operation.run_bind_of_ok hrun)]
  | set =>
    obtain ⟨clock', hrun⟩ := h.run_sismember field
    rw [FieldRequest.toRequest, serve_of_run (Operation.run_bind_of_ok hrun)]

theorem HoldsFields.tellsFields (h : HoldsFields type entries key m) : TellsFields type entries key m :=
  fun field clock =>
    have hcounted : Counted entries key m clock (.find field) := trivial
    (h.serve hcounted).1

theorem serve_del : Redis.serve entries ⟨FieldRequest.del.toRequest key type, clock⟩ =
    (entries.erase key, [.ok (.flag true)]) := by
  cases type <;> rfl

theorem found_some_ne (type : FieldsType) (value : Bytes) :
    Fields.found type (some value) ≠ Fields.found type none := by
  cases type <;> simp [Fields.found]

/-- A field that is added to none is the only one. -/
theorem getElem?_step_add (h0 : m.size = 0) (field value : Bytes) :
    ∃ value', ∀ f, (Fields.step type m (.add field value)).1[f]? =
      if f = field then some value' else none := by
  have hcontains : ¬m.contains field = true := fun h => size_ne_zero_of_contains h h0
  cases type with
  | hash =>
    refine ⟨value, fun f => ?_⟩
    rw [Fields.step, Entries.getElem?_insert, getElem?_of_size h0]
  | set =>
    refine ⟨[], fun f => ?_⟩
    simp only [Fields.step, if_neg hcontains]
    rw [Entries.getElem?_insert, getElem?_of_size h0]

/-- A collection that begins with entries of its version tells more than has been added, or
    less: it is not stored at all if there is one for the field added. -/
theorem not_tellsFields_of_used (habsent : entries[key]? = none) (h0 : m.size = 0)
    (hused : ¬Unused entries key (clock 0)) (field value : Bytes) :
    ¬TellsFields type (serve entries ⟨(FieldRequest.add field value).toRequest key type, clock⟩).1 key
      (Fields.step type m (.add field value)).1 := by
  intro htells
  have hholds : HoldsFields type (MapDB.mk entries clock).entries key ∅ :=
    holdsFields_of_absent type habsent
  obtain ⟨version, clock', hfind, hversion, -⟩ := hholds.run_findMetadata
  obtain rfl : version = clock 0 := hversion Std.TreeMap.size_emptyc
  have hkey := getElem?_key_serve_add hfind field value
  obtain ⟨value', hstep⟩ := @getElem?_step_add type m h0 field value
  cases hexists : (entries[internalKey key (clock 0) field]?).isSome with
  | true =>
    rw [hexists, if_pos rfl, habsent] at hkey
    have htold := htells field clock
    rw [serve_find_of_absent hkey, hstep, if_pos rfl, List.singleton_inj] at htold
    exact found_some_ne type value' htold.symm
  | false =>
    obtain ⟨g, hg⟩ := not_forall.1 hused
    obtain ⟨leftover, hleftover⟩ := Option.ne_none_iff_exists'.1 hg
    have hne : g ≠ field := by
      rintro rfl
      rw [hleftover] at hexists
      cases hexists
    -- The entry left of the field `g` is not written, and `g` has not been added.
    have hframe : (serve entries ⟨(FieldRequest.add field value).toRequest key type, clock⟩).1[
        internalKey key (clock 0) g]? = some leftover := by
      rw [← hleftover]
      refine getElem?_serve fun hwrites => ?_
      generalize hx : internalKey key (clock 0) g = x at hwrites
      cases hwrites with
      | key =>
        rw [FieldRequest.key_toRequest] at hx
        exact internalKey_ne key _ g hx
      | element htype hfinds helement =>
        rw [FieldRequest.key_toRequest, internalKey_inj] at hx
        cases type <;> exact hne (hx.2.trans (Option.some.inj helement).symm)
    rw [hexists] at hkey
    have htold := htells g clock
    rw [serve_find_of_present hkey (by decide) (Nat.succ_ne_zero _), hframe, hstep, if_neg hne,
      List.singleton_inj] at htold
    exact found_some_ne type leftover htold

end Serve

/-! ## Runs -/

/-- What carries over from call to call: the database holds the map, no version stored is
    one of a call to come, and the entries of those have been the same all along. -/
structure Follows (type : FieldsType) (entries₀ entries : Entries) (key : Bytes) (m : Entries)
    (calls : List (FieldRequest × Clock)) : Prop where
  holds : HoldsFields type entries key m
  later : ∀ call ∈ calls, ∀ version n,
    entries[key]? = some (fieldsMetadata type version n).encode → version < call.2 0
  unchanged : ∀ call ∈ calls, ∀ f,
    entries[internalKey key (call.2 0) f]? = entries₀[internalKey key (call.2 0) f]?

section Runs

variable {type : FieldsType} {entries₀ entries m : Entries} {key : Bytes} {r : FieldRequest}
  {clock : Clock} {calls : List (FieldRequest × Clock)}

theorem Follows.next (h : Follows type entries₀ entries key m ((r, clock) :: calls))
    (hclock : ∀ call ∈ calls, clock 0 < call.2 0)
    (hholds : HoldsFields type (serve entries ⟨r.toRequest key type, clock⟩).1 key
      (Fields.step type m r).1)
    (hversion : ∀ version n, (serve entries ⟨r.toRequest key type, clock⟩).1[key]? =
        some (fieldsMetadata type version n).encode →
      version = clock 0 ∨ ∃ n, entries[key]? = some (fieldsMetadata type version n).encode) :
    Follows type entries₀ (serve entries ⟨r.toRequest key type, clock⟩).1 key
      (Fields.step type m r).1 calls := by
  refine ⟨hholds, fun call hcall version n hkey => ?_, fun call hcall f => ?_⟩
  · rcases hversion version n hkey with rfl | ⟨n, hkey⟩
    · exact hclock call hcall
    · exact h.later call (List.mem_cons_of_mem _ hcall) version n hkey
  · rw [h.holds.getElem?_serve r (UInt64.ne_of_lt (hclock call hcall)) (fun version n hkey =>
      UInt64.ne_of_lt (h.later call (List.mem_cons_of_mem _ hcall) version n hkey)) f]
    exact h.unchanged call (List.mem_cons_of_mem _ hcall) f

theorem size_step_add {field : Bytes} (hcontains : m.contains field = false) (type : FieldsType)
    (value : Bytes) : (Fields.step type m (.add field value)).1.size = m.size + 1 := by
  cases type with
  | hash =>
    rw [Fields.step, Std.TreeMap.size_insert, hcontains]
    rfl
  | set =>
    simp only [Fields.step, hcontains, Bool.false_eq_true, if_false]
    rw [Std.TreeMap.size_insert, hcontains]
    rfl

/-- A call is served as by the map, and what carries over does, unless a collection begins
    with entries of its version. -/
theorem Follows.step (h : Follows type entries₀ entries key m ((r, clock) :: calls))
    (hclock : ∀ call ∈ calls, clock 0 < call.2 0) (hremove : ∀ f, r ≠ .remove f)
    (hroom : (Fields.step type m r).1.size < 2 ^ 32)
    (hbegin : (∃ field value, r = .add field value) → m.size = 0 → Unused entries₀ key (clock 0)) :
    Follows type entries₀ (serve entries ⟨r.toRequest key type, clock⟩).1 key
      (Fields.step type m r).1 calls := by
  cases r with
  | add field value =>
    -- Under a version from the clock nothing has been written since the start.
    have hcounted : Counted entries key m clock (.add field value) := by
      refine ⟨fun h0 f => ?_, fun hcontains => ?_⟩
      · rw [h.unchanged _ List.mem_cons_self f]
        exact hbegin ⟨field, value, rfl⟩ h0 f
      · rwa [size_step_add hcontains] at hroom
    refine h.next hclock (h.holds.serve hcounted).2 fun version n hkey => ?_
    have hholds : HoldsFields type (MapDB.mk entries clock).entries key m := h.holds
    obtain ⟨version', clock', hfind, hversion, hpresent⟩ := hholds.run_findMetadata
    rw [getElem?_key_serve_add hfind] at hkey
    split at hkey
    · exact .inr ⟨n, hkey⟩
    · obtain rfl := fieldsMetadata_version_inj (Option.some.inj hkey)
      by_cases h0 : m.size = 0
      · exact .inl (hversion h0)
      · exact .inr ⟨_, (hpresent h0).1⟩
  | find field =>
    refine h.next hclock (h.holds.serve (r := .find field) trivial).2 fun version n hkey => ?_
    rw [h.holds.entries_serve_find] at hkey
    exact .inr ⟨n, hkey⟩
  | remove field => exact absurd rfl (hremove field)
  | del =>
    have hgone : (entries.erase key)[key]? = none := (Entries.getElem?_erase ..).trans (if_pos rfl)
    refine h.next hclock ?_ fun version n hkey => ?_
    · rw [serve_del]
      exact holdsFields_of_absent type hgone
    · rw [serve_del, hgone] at hkey
      cases hkey

theorem HasRoom.size_lt (h : HasRoom type m calls) : m.size < 2 ^ 32 := by
  cases calls with
  | nil => exact h
  | cons => exact h.1

theorem FindsLast.tellsFields (h : FindsLast type key entries m calls) :
    TellsFields type entries key m := by
  cases calls with
  | nil => exact h
  | cons => exact h.1

/-- By induction on the calls. -/
theorem Follows.findsLast_iff_beginsUnused (h : Follows type entries₀ entries key m calls)
    (hclock : calls.Pairwise fun a b => a.2 0 < b.2 0) (hremove : ∀ call ∈ calls, ∀ f, call.1 ≠ .remove f)
    (hroom : HasRoom type m calls) :
    FindsLast type key entries m calls ↔ BeginsUnused type entries₀ key m calls := by
  induction calls generalizing entries m with
  | nil => exact iff_of_true h.holds.tellsFields trivial
  | cons call calls ih =>
    obtain ⟨r, clock⟩ := call
    rw [List.pairwise_cons] at hclock
    rw [List.forall_mem_cons] at hremove
    rw [FindsLast, BeginsUnused, and_iff_right h.holds.tellsFields]
    by_cases hbegin : (∃ field value, r = .add field value) → m.size = 0 → Unused entries₀ key (clock 0)
    · rw [and_iff_right hbegin]
      exact ih (h.step hclock.1 hremove.1 hroom.2.size_lt hbegin) hclock.2 hremove.2 hroom.2
    · refine iff_of_false (fun hfinds => ?_) fun hunused => hbegin hunused.1
      simp only [Classical.not_imp] at hbegin
      obtain ⟨⟨field, value, rfl⟩, h0, hused⟩ := hbegin
      refine not_tellsFields_of_used (h.holds.absent h0) h0 (fun hunused => hused fun f => ?_) field value
        hfinds.tellsFields
      rw [← h.unchanged _ List.mem_cons_self f]
      exact hunused f

/-- Through any number of deletions and new collections, a field is found with what was
    added last since the key was deleted, just when no collection begins with a version for
    which there were entries at first. -/
theorem findsLast_iff (type : FieldsType) (entries : Entries) (key : Bytes)
    (calls : List (FieldRequest × Clock)) (habsent : entries[key]? = none)
    (hclock : calls.Pairwise fun a b => a.2 0 < b.2 0) (hremove : ∀ call ∈ calls, ∀ f, call.1 ≠ .remove f)
    (hroom : HasRoom type ∅ calls) :
    FindsLast type key entries ∅ calls ↔ BeginsUnused type entries key ∅ calls := by
  refine Follows.findsLast_iff_beginsUnused ⟨holdsFields_of_absent type habsent, ?_, fun _ _ _ => rfl⟩
    hclock hremove hroom
  intro call _ version n hkey
  rw [habsent] at hkey
  cases hkey

/-- A collection is deleted and begins again, at times that increase. -/
def addAndDelete : List (FieldRequest × Clock) :=
  [(.add [102] [118], fun _ => 1), (.del, fun _ => 2), (.add [103] [119], fun _ => 3)]

/-- The field added before the deletion is not found again. -/
theorem findsLast_addAndDelete : FindsLast .hash [107] ∅ ∅ addAndDelete :=
  (findsLast_iff .hash ∅ [107] addAndDelete Std.TreeMap.getElem?_emptyc (by simp [addAndDelete])
    (by simp [addAndDelete]) (by decide)).2
    ⟨fun _ _ _ => Std.TreeMap.getElem?_emptyc, fun _ _ _ => Std.TreeMap.getElem?_emptyc,
      fun _ _ _ => Std.TreeMap.getElem?_emptyc, trivial⟩

/-- A string whose key is the internal key of a field to be added at the time 5. -/
def stringInArea : Entries :=
  (serve ∅ ⟨.set (internalKey [107] 5 [102]) [120] 0, fun _ => 4⟩).1

/-- The field is not found after it has been added. -/
theorem not_forall_findsLast : ¬∀ (type : FieldsType) (entries : Entries) (key : Bytes)
    (calls : List (FieldRequest × Clock)), entries[key]? = none →
    calls.Pairwise (fun a b => a.2 0 < b.2 0) → (∀ call ∈ calls, ∀ f, call.1 ≠ .remove f) →
    HasRoom type ∅ calls → FindsLast type key entries ∅ calls := by
  intro h
  have hfinds := h .hash stringInArea [107] [(.add [102] [118], fun _ => 5)] (by decide)
    (List.pairwise_singleton _ _) (by simp) (by decide)
  exact absurd (hfinds.2 [102] fun _ => 6) (by decide)

end Runs

end Bitcask.Redis
