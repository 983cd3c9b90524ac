import Bitcask.Redis.Expiry

/-!
# Strings that are set

What `get` finds under a key at a time (`found`), and what it is to find of a string
that has been set with a time to live: the string until that is over, and nothing from
then on (`SetThenGet`). There is only one entry that is found so (`found_iff`).

It is not stored when the string is empty, since an empty string is not stored at
all, or when the end of the time to live has more than 64 bits (`setThenGet_iff`).
-/

namespace Bitcask.Redis

/-! ## What is found -/

/-- What `get` returns, or throws, on the entry of its key. -/
def found (entry : Option Bytes) (now : UInt64) : Except Exn Bytes :=
  match entry with
  | none => .error .keyNotFound
  | some bytes =>
    if bytes.length < 9 then .error .keyNotFound
    else if RedisDataType.mk (bytes.getD 0 0) ≠ .string then
      .error (.bitcask "Wrong type operation")
    else if read64 bytes 1 = 0 ∨ now < read64 bytes 1 then .ok (bytes.drop 9)
    else .error .keyNotFound

theorem run_get_fst (key : Bytes) (s : MapDB) :
    (Operation.run (get key) s).1 = found s.entries[key]? (s.clock 0) := by
  cases hentry : s.entries[key]? with
  | none => exact congrArg Prod.fst (Operation.run_bind_of_error (run_get_of_none hentry))
  | some bytes =>
    rw [Redis.get, Operation.run_bind_of_ok (run_get_of_some hentry), found]
    split
    · rfl
    · split
      · rfl
      · -- Without an expiry the clock is not read.
        rcases eq_or_ne (read64 bytes 1) 0 with h0 | hne
        · rw [isExpired, h0, if_neg (by decide), if_pos (.inl rfl)]
          rfl
        · have hiff : (read64 bytes 1 = 0 ∨ s.clock 0 < read64 bytes 1) ↔
              ¬read64 bytes 1 ≤ s.clock 0 := by
            rw [UInt64.not_le]
            exact or_iff_right hne
          rw [Operation.run_bind_of_ok (run_isExpired (UInt64.pos_iff_ne_zero.2 hne) s),
            if_congr hiff rfl rfl, ite_not]
          by_cases hle : read64 bytes 1 ≤ s.clock 0
          · rw [if_pos hle, if_pos (decide_eq_true hle)]
            rfl
          · rw [if_neg hle, if_neg (by simpa using hle)]
            rfl

section Strings

variable {bytes value : Bytes} {entry : Option Bytes} {now t e : UInt64} {ttl : Int64}

theorem read64_encodeString (e : UInt64) (value : Bytes) : read64 (encodeString e value) 1 = e :=
  read64_append [_] value e rfl

theorem drop_encodeString (e : UInt64) (value : Bytes) : (encodeString e value).drop 9 = value := by
  rw [encodeString, List.cons_append, List.drop_succ_cons, List.drop_left' (length_littleEndian64 e)]

theorem found_encodeString (e : UInt64) (value : Bytes) (now : UInt64) :
    found (some (encodeString e value)) now =
      if e = 0 ∨ now < e then .ok value else .error .keyNotFound := by
  have hlength : ¬(encodeString e value).length < 9 := by simp [encodeString]
  have htype : RedisDataType.mk ((encodeString e value).getD 0 0) = .string := rfl
  rw [found]
  simp only [if_neg hlength, htype, ne_eq, not_true_eq_false, if_false, read64_encodeString,
    drop_encodeString]

/-- Only a string is found. -/
theorem eq_encodeString_of_found (h : found entry now = .ok value) :
    ∃ e, entry = some (encodeString e value) := by
  cases entry with
  | none => cases h
  | some bytes =>
    rw [found] at h
    split at h
    · cases h
    · next hlength =>
      split at h
      · cases h
      · next htype =>
        split at h
        · cases h
          obtain ⟨b, rest, rfl⟩ := List.exists_cons_of_length_pos (by omega : 0 < bytes.length)
          have hb : b = RedisDataType.string.toByte := congrArg RedisDataType.toByte (not_not.1 htype)
          refine ⟨read64 (b :: rest) 1, ?_⟩
          rw [encodeString, littleEndian64_read64 (by omega), hb, List.drop_succ_cons, List.drop_zero,
            List.drop_succ_cons, List.cons_append, List.take_append_drop]
        · cases h

theorem encodeString_injective {e' : UInt64} (h : encodeString e value = encodeString e' value) :
    e = e' := by
  rw [← read64_encodeString e value, h, read64_encodeString]

/-! ## What is to be found -/

/-- The end of a time to live in milliseconds, that begins at `t`, in nanoseconds. -/
def deadline (t : UInt64) (ttl : Int64) : ℕ := t.toNat + ttl.toNatClampNeg * 1000000

/-- What is to be found of a string that has been set at `t`. -/
def toBeFound (t : UInt64) (ttl : Int64) (value : Bytes) (now : UInt64) : Except Exn Bytes :=
  if ttl = 0 ∨ now.toNat < deadline t ttl then .ok value else .error .keyNotFound

/-- The expiry to store for a time to live: none if it does not end before the clock does. -/
def expiry (t : UInt64) (ttl : Int64) : UInt64 :=
  if ttl = 0 ∨ 2 ^ 64 ≤ deadline t ttl then 0 else .ofNat (deadline t ttl)

theorem lt_deadline (t : UInt64) (h0 : 0 ≤ ttl) (hne : ttl ≠ 0) : t.toNat < deadline t ttl := by
  have hpos : 0 < ttl.toInt := by
    have hle := Int64.le_iff_toInt_le.1 h0
    have hne' : ttl.toInt ≠ 0 := fun h => hne (Int64.toInt_inj.1 h)
    simp only [Int64.toInt_zero] at hle
    omega
  rw [deadline, Int64.toNatClampNeg]
  omega

/-- The expiry is told by the times at which the string is to be found. -/
theorem eq_expiry_iff (h0 : 0 ≤ ttl) :
    (∀ now, t ≤ now → ((e = 0 ∨ now < e) ↔ (ttl = 0 ∨ now.toNat < deadline t ttl))) ↔
      e = expiry t ttl := by
  rw [expiry]
  by_cases hnever : ttl = 0 ∨ 2 ^ 64 ≤ deadline t ttl
  · have halways (now : UInt64) : ttl = 0 ∨ now.toNat < deadline t ttl :=
      hnever.imp_right (Nat.lt_of_lt_of_le now.toNat_lt)
    rw [if_pos hnever]
    refine ⟨fun h => ?_, fun he now _ => iff_of_true (.inl he) (halways now)⟩
    -- The last reading of the clock is after any other expiry.
    have hlast : t ≤ .ofNat (2 ^ 64 - 1) :=
      UInt64.le_iff_toNat_le.2 (Nat.le_sub_one_of_lt t.toNat_lt)
    rcases (h _ hlast).2 (halways _) with he | hlt
    · exact he
    · rw [UInt64.lt_iff_toNat_lt, UInt64.toNat_ofNat_of_lt' (by decide)] at hlt
      have := e.toNat_lt
      omega
  · rw [if_neg hnever]
    rw [not_or, not_le] at hnever
    obtain ⟨hne, hlt⟩ := hnever
    have htime := lt_deadline t h0 hne
    have hdeadline : (UInt64.ofNat (deadline t ttl)).toNat = deadline t ttl :=
      UInt64.toNat_ofNat_of_lt' hlt
    have hbefore : (UInt64.ofNat (deadline t ttl - 1)).toNat = deadline t ttl - 1 :=
      UInt64.toNat_ofNat_of_lt' (by show _ < 2 ^ 64; omega)
    simp only [UInt64.le_iff_toNat_le, UInt64.lt_iff_toNat_lt, ← UInt64.toNat_inj, UInt64.toNat_zero,
      hdeadline]
    refine ⟨fun h => ?_, fun he now _ => by rw [he]; simp only [hne, false_or]; omega⟩
    -- It is over at the deadline, and not just before.
    have hover := h (.ofNat (deadline t ttl)) (by omega)
    have hlast := h (.ofNat (deadline t ttl - 1)) (by omega)
    rw [hdeadline] at hover
    rw [hbefore] at hlast
    have hnot : ¬(e.toNat = 0 ∨ deadline t ttl < e.toNat) := fun he =>
      (hover.1 he).elim hne (Nat.lt_irrefl _)
    have hyes := hlast.2 (.inr (by omega))
    omega

/-- One entry is found as a string is to be found. -/
theorem found_iff (h0 : 0 ≤ ttl) :
    (∀ now, t ≤ now → found entry now = toBeFound t ttl value now) ↔
      entry = some (encodeString (expiry t ttl) value) := by
  have hsame (e now : UInt64) :
      found (some (encodeString e value)) now = toBeFound t ttl value now ↔
        ((e = 0 ∨ now < e) ↔ (ttl = 0 ∨ now.toNat < deadline t ttl)) := by
    rw [found_encodeString, toBeFound]
    split <;> split <;> simp [*]
  constructor
  · intro h
    have hlive : toBeFound t ttl value t = .ok value :=
      if_pos (or_iff_not_imp_left.2 (lt_deadline t h0))
    obtain ⟨e, rfl⟩ := eq_encodeString_of_found ((h t UInt64.le_rfl).trans hlive)
    rw [(eq_expiry_iff h0).1 fun now hnow => (hsame e now).1 (h now hnow)]
  · rintro rfl now hnow
    exact (hsame _ now).2 ((eq_expiry_iff h0).2 rfl now hnow)

/-! ## Setting a string -/

/-- The expiry that is stored: it is a number of 64 bits. -/
theorem run_set (key value : Bytes) (ttl : Int64) (s : MapDB) :
    ∃ clock, Operation.run (set key value ttl) s = (.ok (),
      ⟨if value = [] then s.entries else s.entries.insert key
        (encodeString (if ttl > 0 then s.clock 0 + ttl.toUInt64 * 1000000 else 0) value), clock⟩) := by
  unfold Redis.set expireAfter
  split
  · exact ⟨_, rfl⟩
  · split <;> exact ⟨_, rfl⟩

/-- The expiry stored is the one to store, unless its 64 bits are too few. -/
theorem add_eq_expiry_iff (h0 : 0 ≤ ttl) :
    (if ttl > 0 then t + ttl.toUInt64 * 1000000 else 0) = expiry t ttl ↔
      ttl = 0 ∨ deadline t ttl < 2 ^ 64 ∨ 2 ^ 64 ∣ deadline t ttl := by
  rw [expiry]
  rcases eq_or_ne ttl 0 with rfl | hne
  · exact iff_of_true rfl (.inl rfl)
  have hpos : ttl > 0 := Int64.lt_of_le_of_ne h0 hne.symm
  have hsum : (t + ttl.toUInt64 * 1000000).toNat = deadline t ttl % 2 ^ 64 := by
    rw [UInt64.toNat_add, UInt64.toNat_mul, Int64.toNat_toUInt64_of_le h0, Nat.add_mod_mod]
    rfl
  simp only [if_pos hpos, ← UInt64.toNat_inj, hsum, hne, false_or]
  split
  · next hle => rw [UInt64.toNat_zero, or_iff_right (not_lt.2 hle), Nat.dvd_iff_mod_eq_zero]
  · next hlt =>
    rw [not_le] at hlt
    rw [UInt64.toNat_ofNat_of_lt' hlt, Nat.mod_eq_of_lt hlt]
    exact iff_of_true rfl (.inl hlt)

/-- A string that has been set is found at any time from then on as it is to be found,
    whatever is stored under other keys. -/
def SetThenGet (s : MapDB) (key value : Bytes) (ttl : Int64) : Prop :=
  ∀ after, Operation.run (set key value ttl) s = (.ok (), after) →
    ∀ later : MapDB, later.entries[key]? = after.entries[key]? → s.clock 0 ≤ later.clock 0 →
      (Operation.run (get key) later).1 = toBeFound (s.clock 0) ttl value (later.clock 0)

theorem setThenGet_iff_found {s after : MapDB} {key : Bytes}
    (hafter : Operation.run (set key value ttl) s = (.ok (), after)) :
    SetThenGet s key value ttl ↔ ∀ now, s.clock 0 ≤ now →
      found after.entries[key]? now = toBeFound (s.clock 0) ttl value now := by
  constructor
  · intro h now hnow
    have := h after hafter ⟨after.entries, fun _ => now⟩ rfl hnow
    rwa [run_get_fst] at this
  · intro h after' hafter' later hentry hnow
    obtain rfl : after = after' := congrArg Prod.snd (hafter.symm.trans hafter')
    rw [run_get_fst, hentry, h _ hnow]

/-- A string is found again if it is not empty and the end of its time to live has 64 bits,
    or wraps to no expiry at all; an empty one only if it was there already, with that
    expiry. -/
theorem setThenGet_iff (s : MapDB) (key value : Bytes) (ttl : Int64) (h0 : 0 ≤ ttl) :
    SetThenGet s key value ttl ↔
      value ≠ [] ∧ (ttl = 0 ∨ deadline (s.clock 0) ttl < 2 ^ 64 ∨ 2 ^ 64 ∣ deadline (s.clock 0) ttl) ∨
      value = [] ∧ s.entries[key]? = some (encodeString (expiry (s.clock 0) ttl) []) := by
  obtain ⟨clock, hafter⟩ := run_set key value ttl s
  rw [setThenGet_iff_found hafter, found_iff h0]
  by_cases hvalue : value = []
  · subst hvalue
    simp
  · have hsame (e e' : UInt64) : some (encodeString e value) = some (encodeString e' value) ↔ e = e' :=
      ⟨fun h => encodeString_injective (Option.some.inj h), fun h => by rw [h]⟩
    rw [if_neg hvalue, Entries.getElem?_insert, if_pos rfl, hsame, add_eq_expiry_iff h0]
    simp [hvalue]

/-- So it is with a string that is set for a millisecond. -/
theorem setThenGet_one_millisecond : SetThenGet ⟨∅, fun _ => 0⟩ [107] [118] 1 :=
  (setThenGet_iff ⟨∅, fun _ => 0⟩ [107] [118] 1 (by decide)).2
    (.inl ⟨by decide, .inr (.inl (by decide))⟩)

/-- An empty string is not found after it has been set. -/
theorem not_forall_setThenGet :
    ¬∀ (s : MapDB) (key value : Bytes) (ttl : Int64), 0 ≤ ttl → SetThenGet s key value ttl := by
  intro h
  have hfound := h ⟨∅, fun _ => 0⟩ [107] [] 0 (by decide) _ rfl ⟨∅, fun _ => 0⟩ rfl (by decide)
  rw [run_get_fst] at hfound
  exact absurd hfound (by decide)

end Strings

end Bitcask.Redis
