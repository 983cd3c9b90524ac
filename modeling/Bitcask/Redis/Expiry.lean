import Bitcask.Redis.Lists

/-!
# Expired keys

What the operations answer on a key that is not there (`Request.onAbsent`), and on one
whose expiry is over. A collection that has expired is taken for a new one by the
operations of its own type; the others see that it is there before they look at the
expiry, or do not look at it (`serve_expired_iff`).
-/

namespace Bitcask.Redis

/-! ## Keys that are absent -/

namespace Request

/-- What a request answers if its key is absent, or holds a new collection of a version:
    there may be entries of elements of that version. -/
def onAbsent (entries : Entries) (version : UInt64) : Request → Except Exn Reply
  | set .. => .ok .nothing
  | hset key field _ =>
    .ok (.flag !(entries[HashInternalKey.encode ⟨key, version, field⟩]?).isSome)
  | sadd key member =>
    .ok (.flag !(entries[SetInternalKey.encode ⟨key, version, member⟩]?).isSome)
  | zadd key score member =>
    .ok (.flag !(entries[ZSetInternalKey.encode ⟨key, version, score, member⟩]?).isSome)
  | lpush .. | rpush .. => .ok (.number 1)
  | hdel .. | sismember .. | srem .. | «exists» .. => .ok (.flag false)
  | del .. => .ok (.flag true)
  | get .. | hget .. | lpop .. | rpop .. | zscore .. | type .. => .error .keyNotFound

/-- The entry a request adds to a collection unless it is there. -/
def adds (version : UInt64) : Request → Option Bytes
  | hset key field _ => some (HashInternalKey.encode ⟨key, version, field⟩)
  | sadd key member => some (SetInternalKey.encode ⟨key, version, member⟩)
  | zadd key score member => some (ZSetInternalKey.encode ⟨key, version, score, member⟩)
  | _ => none

/-- What is answered on a new collection depends on the entry that is to be added. -/
theorem onAbsent_eq_iff {r : Request} {entries entries' : Entries} {version version' : UInt64}
    (h : ∀ x, r.adds version' = some x → entries'[x]? = none) :
    r.onAbsent entries version = r.onAbsent entries' version' ↔
      ∀ x, r.adds version = some x → entries[x]? = none := by
  cases r with
  | hset | sadd | zadd =>
    have h' := h _ rfl
    simp only [onAbsent, adds, h', Except.ok.injEq, Reply.flag.injEq, Option.some.injEq,
      forall_eq', Option.isSome_none, Bool.not_false, Bool.not_eq_true', Option.isSome_eq_false_iff,
      Option.isNone_iff_eq_none]
  | _ => simp [onAbsent, adds]

theorem onAbsent_ne_bitcask (r : Request) (entries : Entries) (version : UInt64) (text : String) :
    r.onAbsent entries version ≠ .error (.bitcask text) := by
  cases r <;> simp [onAbsent]

end Request

section Run

variable {r : Request} {dataType : RedisDataType} {s t : MapDB} {version : UInt64}

/-- What a request answers that finds a new collection. -/
theorem run_of_create (htype : r.dataType? = some dataType)
    (hfind : Operation.run (findMetadata r.key dataType) s = (.ok (.create dataType version), t)) :
    (Operation.run r.operation s).1 = r.onAbsent t.entries version := by
  cases r with
  | hset key field value =>
    cases htype
    have hstored := run_stored (HashInternalKey.encode ⟨key, version, field⟩) t
    rw [Request.operation, run_reply_fst, Request.onAbsent]
    cases hb : (t.entries[HashInternalKey.encode ⟨key, version, field⟩]?).isSome <;> rw [hb] at hstored
    all_goals
      refine (congrArg (fun x => Except.map Reply.flag x.1) (Operation.run_bind_of_ok hfind)).trans ?_
      exact congrArg (fun x => Except.map Reply.flag x.1) (Operation.run_bind_of_ok hstored)
  | sadd key member =>
    cases htype
    have hstored := run_stored (SetInternalKey.encode ⟨key, version, member⟩) t
    rw [Request.operation, run_reply_fst, Request.onAbsent]
    cases hb : (t.entries[SetInternalKey.encode ⟨key, version, member⟩]?).isSome <;> rw [hb] at hstored
    all_goals
      refine (congrArg (fun x => Except.map Reply.flag x.1) (Operation.run_bind_of_ok hfind)).trans ?_
      exact congrArg (fun x => Except.map Reply.flag x.1) (Operation.run_bind_of_ok hstored)
  | zadd key score member =>
    cases htype
    have hstored := run_stored (ZSetInternalKey.encode ⟨key, version, score, member⟩) t
    rw [Request.operation, run_reply_fst, Request.onAbsent]
    cases hb : (t.entries[ZSetInternalKey.encode ⟨key, version, score, member⟩]?).isSome <;> rw [hb] at hstored
    all_goals
      refine (congrArg (fun x => Except.map Reply.flag x.1) (Operation.run_bind_of_ok hfind)).trans ?_
      exact congrArg (fun x => Except.map Reply.flag x.1) (Operation.run_bind_of_ok hstored)
  | set | get | del | «exists» | type => cases htype
  | _ =>
    cases htype
    rw [Request.operation, run_reply_fst]
    exact congrArg (Except.map _ ∘ Prod.fst) (Operation.run_bind_of_ok hfind)

/-- A request throws what finding its metadata throws. -/
theorem run_of_error (htype : r.dataType? = some dataType) {e : Exn}
    (hfind : Operation.run (findMetadata r.key dataType) s = (.error e, t)) :
    (Operation.run r.operation s).1 = .error e := by
  cases r with
  | set | get | del | «exists» | type => cases htype
  | _ =>
    cases htype
    rw [Request.operation, run_reply_fst]
    exact congrArg (Except.map _ ∘ Prod.fst) (Operation.run_bind_of_error hfind)

theorem run_set_fst (key value : Bytes) (ttl : Int64) (s : MapDB) :
    (Operation.run (Redis.set key value ttl) s).1 = .ok () := by
  unfold Redis.set expireAfter
  split
  · rfl
  · split <;> rfl

theorem run_isExpired {expireTime : UInt64} (h0 : 0 < expireTime) (s : MapDB) :
    Operation.run (isExpired expireTime) s = (.ok (decide (expireTime ≤ s.clock 0)), s.tick) := by
  rw [isExpired, if_pos h0]
  rfl

end Run

section Serve

variable {entries entries' : Entries} {call : Call} {bytes : Bytes}

/-- What is answered on a key that is absent. -/
theorem serve_of_absent (h : entries[call.request.key]? = none) :
    (serve entries call).2 = [call.request.onAbsent entries (call.clock 0)] := by
  obtain ⟨r, clock⟩ := call
  rw [serve_snd, List.singleton_inj]
  cases htype : r.dataType? with
  | some dataType => exact run_of_create htype (Finds.absent h).run
  | none =>
    have hget : Operation.run (DB.get r.key) ⟨entries, clock⟩ = (.error .keyNotFound, _) :=
      run_get_of_none h
    cases r with
    | set key value ttl =>
      rw [Request.operation, run_reply_fst, run_set_fst]
      rfl
    | get key =>
      rw [Request.operation, run_reply_fst]
      exact congrArg (fun x => Except.map Reply.text x.1) (Operation.run_bind_of_error hget)
    | del key => rfl
    | «exists» key =>
      rw [Request.operation, run_reply_fst, Redis.exists, run_stored]
      show Except.ok (Reply.flag (entries[key]?).isSome) = _
      rw [show entries[key]? = none from h]
      rfl
    | type key =>
      rw [Request.operation, run_reply_fst]
      exact congrArg (fun x => Except.map Reply.type x.1) (Operation.run_bind_of_error hget)
    | _ => cases htype

/-! ## Keys that have expired -/

/-- A key has expired: its value has an expiry, which is over when the clock is first read. -/
structure Expired (entries : Entries) (call : Call) (bytes : Bytes) : Prop where
  stored : entries[call.request.key]? = some bytes
  length_le : 9 ≤ bytes.length
  expire_pos : 0 < read64 bytes 1
  expire_le : read64 bytes 1 ≤ call.clock 0

/-- A key has never been stored: there is no entry of it or of an element of it. -/
def NeverStored (entries : Entries) (key : Bytes) : Prop :=
  entries[key]? = none ∧ ∀ version element, entries[internalKey key version element]? = none

/-- When a request takes an expired key for an absent one: to get a string, or to work on
    a collection of its own type, if it does not find the element it adds under the
    version of the new collection. -/
def AsAbsent (entries : Entries) (call : Call) (bytes : Bytes) : Prop :=
  match call.request with
  | .set .. | .del .. => True
  | .get .. => RedisDataType.mk (bytes.getD 0 0) = .string
  | .exists .. | .type .. => False
  | r => 21 ≤ bytes.length ∧ r.dataType? = some ⟨bytes.getD 0 0⟩ ∧
      ∀ x, r.adds (call.clock 1) = some x → entries[x]? = none

theorem RedisMetadata.decode_of_length_le (h : 21 ≤ bytes.length) :
    ∃ m, decode bytes = .ok m ∧ m.dataType = ⟨bytes.getD 0 0⟩ ∧ m.expire = read64 bytes 1 := by
  rw [decode, if_neg (Nat.not_lt.2 h)]
  exact ⟨_, rfl, rfl, rfl⟩

/-- What is answered by an operation on a collection if the key has expired: what it is
    on a new collection, unless the value is not one of its own type. -/
theorem Expired.serve_collection {dataType : RedisDataType} (h : Expired entries call bytes)
    (htype : call.request.dataType? = some dataType) :
    (serve entries call).2 =
      if bytes.length < 21 then [.error (.bitcask "Invalid metadata size")]
      else if dataType = ⟨bytes.getD 0 0⟩ then
        [call.request.onAbsent (entries.erase call.request.key) (call.clock 1)]
      else [.error (.bitcask "Wrong type operation")] := by
  obtain ⟨r, clock⟩ := call
  rw [serve_snd]
  by_cases hlen : bytes.length < 21
  · have hm : RedisMetadata.decode bytes = .error (.bitcask "Invalid metadata size") := if_pos hlen
    rw [if_pos hlen]
    exact congrArg (fun x => [x]) (run_of_error htype (Finds.invalid h.stored hm).run)
  · obtain ⟨m, hm, hmtype, hexpire⟩ := RedisMetadata.decode_of_length_le (Nat.not_lt.1 hlen)
    rw [if_neg hlen]
    by_cases hsame : dataType = ⟨bytes.getD 0 0⟩
    · rw [if_pos hsame]
      have hfind := (Finds.expired (s := ⟨entries, clock⟩) h.stored hm (hmtype.trans hsame.symm)
        (by rw [hexpire]; exact h.expire_pos) (by rw [hexpire]; exact h.expire_le)).run
      exact congrArg (fun x => [x]) (run_of_create htype hfind)
    · rw [if_neg hsame]
      exact congrArg (fun x => [x])
        (run_of_error htype (Finds.wrongType h.stored hm fun heq => hsame (heq.symm.trans hmtype)).run)

/-- What an operation adds is not stored under the key itself. -/
theorem Request.adds_ne {r : Request} {version : UInt64} {x : Bytes} (h : r.adds version = some x) :
    x ≠ r.key := by
  cases r with
  | hset | sadd | zadd =>
    obtain rfl := Option.some.inj h
    exact internalKey_ne _ _ _
  | _ => cases h

theorem NeverStored.adds {key : Bytes} (h : NeverStored entries key) {r : Request}
    (hkey : r.key = key) {version : UInt64} {x : Bytes} (hx : r.adds version = some x) :
    entries[x]? = none := by
  cases r with
  | hset | sadd | zadd =>
    obtain rfl := Option.some.inj hx
    obtain rfl := hkey
    exact h.2 _ _
  | _ => cases hx

/-- An expired key is an absent key for the operations that take it for one, and for no
    other. -/
theorem serve_expired_iff (h : Expired entries call bytes)
    (hnever : NeverStored entries' call.request.key) :
    (serve entries call).2 = (serve entries' call).2 ↔ AsAbsent entries call bytes := by
  rw [serve_of_absent hnever.1]
  have hiff (entries₁ : Entries) (version : UInt64) : [call.request.onAbsent entries₁ version] =
        [call.request.onAbsent entries' (call.clock 0)] ↔
      ∀ x, call.request.adds version = some x → entries₁[x]? = none := by
    rw [List.singleton_inj]
    exact Request.onAbsent_eq_iff fun x hx => hnever.adds rfl hx
  obtain ⟨r, clock⟩ := call
  have hstored : entries[r.key]? = some bytes := h.stored
  cases htype : r.dataType? with
  | some dataType =>
    have hasAbsent : AsAbsent entries ⟨r, clock⟩ bytes ↔ 21 ≤ bytes.length ∧
        r.dataType? = some ⟨bytes.getD 0 0⟩ ∧
        ∀ x, r.adds (clock 1) = some x → entries[x]? = none := by
      cases r with
      | set | get | del | «exists» | type => cases htype
      | _ => exact Iff.rfl
    rw [h.serve_collection htype, hasAbsent]
    by_cases hlen : bytes.length < 21
    · rw [if_pos hlen, List.singleton_inj]
      exact iff_of_false (Ne.symm (r.onAbsent_ne_bitcask _ _ _)) fun hle => by omega
    · rw [if_neg hlen]
      by_cases hsame : dataType = ⟨bytes.getD 0 0⟩
      · rw [if_pos hsame, hiff, htype]
        constructor
        · refine fun hadds => ⟨Nat.not_lt.1 hlen, congrArg some hsame, fun x hx => ?_⟩
          have hx' := hadds x hx
          rwa [Entries.getElem?_erase, if_neg (Request.adds_ne hx)] at hx'
        · rintro ⟨-, -, hadds⟩ x hx
          rw [Entries.getElem?_erase, if_neg (Request.adds_ne hx)]
          exact hadds x hx
      · rw [if_neg hsame, List.singleton_inj]
        exact iff_of_false (Ne.symm (r.onAbsent_ne_bitcask _ _ _))
          fun hle => hsame (Option.some.inj (htype.symm.trans hle.2.1))
  | none =>
    have hget : Operation.run (DB.get r.key) ⟨entries, clock⟩ = (.ok bytes, ⟨entries, clock⟩) :=
      run_get_of_some hstored
    rw [serve_snd, List.singleton_inj]
    show (Operation.run r.operation ⟨entries, clock⟩).1 = r.onAbsent entries' (clock 0) ↔ _
    cases r with
    | set key value ttl =>
      rw [Request.operation, run_reply_fst, run_set_fst]
      exact iff_of_true rfl trivial
    | get key =>
      have hget : Operation.run (DB.get key) ⟨entries, clock⟩ = (.ok bytes, _) := hget
      rw [Request.operation, run_reply_fst, Redis.get, Operation.run_bind_of_ok hget,
        if_neg (Nat.not_lt.2 h.length_le)]
      by_cases htype : RedisDataType.mk (bytes.getD 0 0) = .string
      · rw [if_neg (not_not.2 htype),
          Operation.run_bind_of_ok (run_isExpired h.expire_pos ⟨entries, clock⟩),
          if_pos (decide_eq_true h.expire_le)]
        exact iff_of_true rfl htype
      · rw [if_pos htype]
        exact iff_of_false (fun heq => by cases heq) htype
    | del key => exact iff_of_true rfl trivial
    | «exists» key =>
      rw [Request.operation, run_reply_fst, Redis.exists, run_stored]
      show Except.ok (Reply.flag (entries[key]?).isSome) = _ ↔ _
      rw [show entries[key]? = some bytes from hstored]
      exact iff_of_false (fun heq => by cases heq) id
    | type key =>
      have hget : Operation.run (DB.get key) ⟨entries, clock⟩ = (.ok bytes, _) := hget
      have hne : bytes ≠ [] := List.ne_nil_of_length_pos (Nat.zero_lt_of_lt h.length_le)
      rw [Request.operation, run_reply_fst, Redis.type, Operation.run_bind_of_ok hget, if_neg hne]
      exact iff_of_false (fun heq => by cases heq) id
    | _ => cases htype

end Serve

theorem neverStored_empty (key : Bytes) : NeverStored ∅ key :=
  ⟨Std.TreeMap.getElem?_emptyc, fun _ _ => Std.TreeMap.getElem?_emptyc⟩

/-- A string set for a millisecond at the time 0. -/
def stringOfOneMillisecond : Entries := (serve ∅ ⟨.set [107] [118] 1, fun _ => 0⟩).1

theorem expired_stringOfOneMillisecond {request : Request} (hkey : request.key = [107]) :
    Expired stringOfOneMillisecond ⟨request, fun _ => 1000000⟩ (encodeString 1000000 [118]) := by
  have hover : read64 (encodeString 1000000 [118]) 1 ≤ 1000000 := by decide +kernel
  refine ⟨?_, by decide, by decide +kernel, hover⟩
  rw [hkey]
  decide +kernel

/-- A millisecond later, it is not found. -/
theorem serve_expired_get :
    (serve stringOfOneMillisecond ⟨.get [107], fun _ => 1000000⟩).2 =
      (serve ∅ ⟨.get [107], fun _ => 1000000⟩).2 :=
  (serve_expired_iff (expired_stringOfOneMillisecond rfl) (neverStored_empty [107])).2 rfl

/-- It is still said to be there. -/
theorem not_forall_serve_expired :
    ¬∀ (entries entries' : Entries) (call : Call) (bytes : Bytes), Expired entries call bytes →
      NeverStored entries' call.request.key →
      (∀ key value ttl, call.request ≠ .set key value ttl) → (∀ key, call.request ≠ .del key) →
      (serve entries call).2 = (serve entries' call).2 := by
  intro h
  have hsame := h stringOfOneMillisecond ∅ ⟨.exists [107], fun _ => 1000000⟩ _
    (expired_stringOfOneMillisecond rfl) (neverStored_empty [107])
    (by rintro _ _ _ ⟨⟩) (by rintro _ ⟨⟩)
  exact absurd hsame (by decide +kernel)

end Bitcask.Redis
