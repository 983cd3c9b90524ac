import Bitcask.Redis.MapDatabase

/-!
# Scores of sorted sets

What a sorted set is to tell of its members: the score each was last added with
(`OneScore`). The entry of a member has its score in its key, so that a member that is
added with another score gets another entry, and is counted twice. As long as that does
not happen, there is one entry for each member (`HoldsScores`), and its score is found
(`oneScore_iff`).
-/

namespace Bitcask.Redis

/-! ## Maps of scores -/

/-- The scores of the members. -/
abbrev Scores := Std.TreeMap Bytes UInt64

theorem Scores.getElem?_insert (m : Scores) (member member' : Bytes) (score : UInt64) :
    (m.insert member score)[member']? = if member' = member then some score else m[member']? := by
  rw [Std.TreeMap.getElem?_insert]
  exact if_congr (Std.LawfulEqCmp.compare_eq_iff_eq.trans eq_comm) rfl rfl

/-- A member that is added, with the readings of the clock meanwhile. -/
structure Zadd where
  score : UInt64
  member : Bytes
  clock : Clock

def Zadd.call (key : Bytes) (z : Zadd) : Call := ⟨.zadd key z.score z.member, z.clock⟩

/-- What is to be returned for a member that is looked for. -/
def Scores.reply (m : Scores) (member : Bytes) : Except Exn Reply :=
  match m[member]? with
  | some score => .ok (.score score)
  | none => .error .keyNotFound

/-- The database tells the scores of the members of `key`, and their number. -/
structure TellsScores (entries : Entries) (key : Bytes) (m : Scores) : Prop where
  zscore (member : Bytes) (clock : Clock) :
    (serve entries ⟨.zscore key member, clock⟩).2 = [m.reply member]
  size (clock : Clock) : ∃ metadata s,
    Operation.run (findMetadata key .zset) ⟨entries, clock⟩ = (.ok metadata, s) ∧
      metadata.size.toNat = m.size

/-- Before, between and after the members are added, the scores are told that were added
    last, and so is whether a member is new. -/
def OneScore (key : Bytes) : Entries → Scores → List Zadd → Prop
  | entries, m, [] => TellsScores entries key m
  | entries, m, z :: zs =>
    TellsScores entries key m ∧
      (serve entries (z.call key)).2 = [.ok (.flag (!m.contains z.member))] ∧
      OneScore key (serve entries (z.call key)).1 (m.insert z.member z.score) zs

/-- A member that is there is added with the score it has only, and there is room to count
    those that are not. -/
def NeverRescored : Scores → List Zadd → Prop
  | _, [] => True
  | m, z :: zs =>
    (∀ score, m[z.member]? = some score → score = z.score) ∧
      (m.contains z.member = false → m.size + 1 < 2 ^ 32) ∧
      NeverRescored (m.insert z.member z.score) zs

/-! ## Entries of members -/

/-- The metadata of a sorted set of `n` members. -/
def zsetMetadata (version : UInt64) (n : ℕ) : RedisMetadata where
  dataType := .zset
  version := version
  size := .ofNat n

/-- There is an entry for each member and its score, and for no other. -/
def ScoreEntries (entries : Entries) (key : Bytes) (version : UInt64) (m : Scores) : Prop :=
  ∀ score member, (entries[ZSetInternalKey.encode ⟨key, version, score, member⟩]?).isSome ↔
    m[member]? = some score

/-- The entries of the database are those of the scores `m` at `key`: the key is there
    unless there are no members, and the metadata has their number. -/
structure HoldsScores (entries : Entries) (key : Bytes) (m : Scores) : Prop where
  size_lt : m.size < 2 ^ 32
  absent : m.size = 0 → entries[key]? = none
  present : m.size ≠ 0 → ∃ version,
    entries[key]? = some (zsetMetadata version m.size).encode ∧ ScoreEntries entries key version m

section Entries

variable {entries : Entries} {m : Scores} {key member x : Bytes} {version score : UInt64} {n : ℕ}

theorem toNat_size_zsetMetadata (hn : n < 2 ^ 32) : (zsetMetadata version n).size.toNat = n :=
  UInt32.toNat_ofNat_of_lt' hn

theorem size_zsetMetadata_ne_zero (hn : n < 2 ^ 32) (hne : n ≠ 0) : (zsetMetadata version n).size ≠ 0 := by
  intro h0
  have : (zsetMetadata version n).size.toNat = n := toNat_size_zsetMetadata hn
  rw [h0] at this
  exact hne this.symm

theorem zsetMetadata_add_one :
    { zsetMetadata version n with size := (zsetMetadata version n).size + 1 } =
      zsetMetadata version (n + 1) := by
  have : (zsetMetadata version n).size + 1 = .ofNat (n + 1) := by
    rw [UInt32.ofNat_add]
    rfl
  rw [this]
  rfl

/-- The entries of a member are those with a score and the member behind the version. -/
theorem isEntryOf_iff :
    isEntryOf key version member x = true ↔
      ∃ score, x = ZSetInternalKey.encode ⟨key, version, score, member⟩ := by
  simp only [isEntryOf, Bool.and_eq_true, decide_eq_true_eq, List.isPrefixOf_iff_prefix, beq_iff_eq,
    ZSetInternalKey.encode, internalKey, List.append_assoc]
  constructor
  · rintro ⟨⟨⟨hlength, rest, rfl⟩, hread⟩, rfl⟩
    -- Behind the key there are at least sixteen bytes: the version and the score.
    rw [List.length_append] at hlength
    have hbehind : key.length + 8 ≤ (key ++ rest).length := by
      rw [List.length_append]
      omega
    have hversion := littleEndian64_read64 hbehind
    rw [hread, List.drop_left] at hversion
    have hwhole : 8 + 8 ≤ rest.length := by omega
    have hscore := littleEndian64_read64 hwhole
    have hmember : (key ++ rest).drop (key.length + 16) = (rest.drop 8).drop 8 := by
      rw [List.drop_length_add_append, List.drop_drop]
    refine ⟨read64 rest 8, ?_⟩
    rw [hversion, hscore, hmember, List.take_append_drop, List.take_append_drop]
  · rintro ⟨score, rfl⟩
    have hread := read64_append key (littleEndian64 score ++ member) version rfl
    have hdrop : (key ++ (littleEndian64 version ++ (littleEndian64 score ++ member))).drop
        (key.length + 16) = member := by
      rw [List.drop_length_add_append, ← List.append_assoc]
      exact List.drop_left' (by simp)
    rw [List.append_assoc] at hread
    refine ⟨⟨⟨?_, List.prefix_append _ _⟩, hread⟩, hdrop⟩
    simp only [List.length_append, length_littleEndian64]
    omega

theorem read64_zsetInternalKey :
    read64 (ZSetInternalKey.encode ⟨key, version, score, member⟩) (key.length + 8) = score := by
  have h : (key ++ littleEndian64 version).length = key.length + 8 := by simp
  rw [ZSetInternalKey.encode, internalKey, ← List.append_assoc]
  exact read64_append _ member score h

theorem zsetInternalKey_inj {score' : UInt64} {member' : Bytes} :
    ZSetInternalKey.encode ⟨key, version, score, member⟩ =
        ZSetInternalKey.encode ⟨key, version, score', member'⟩ ↔
      score = score' ∧ member = member' := by
  rw [ZSetInternalKey.encode, ZSetInternalKey.encode, internalKey_inj]
  constructor
  · rintro ⟨-, h⟩
    obtain ⟨hscore, hmember⟩ := List.append_inj h (by simp)
    exact ⟨littleEndian64_injective hscore, hmember⟩
  · rintro ⟨rfl, rfl⟩
    exact ⟨rfl, rfl⟩

theorem zsetInternalKey_ne : ZSetInternalKey.encode ⟨key, version, score, member⟩ ≠ key :=
  internalKey_ne key version _

/-- The entry found for a member is the one with its score. -/
theorem ScoreEntries.find?_keys (h : ScoreEntries entries key version m) (member : Bytes) :
    entries.keys.find? (isEntryOf key version member) =
      m[member]?.map fun score => ZSetInternalKey.encode ⟨key, version, score, member⟩ := by
  have hmem (score : UInt64) : ZSetInternalKey.encode ⟨key, version, score, member⟩ ∈ entries.keys ↔
      m[member]? = some score := by
    rw [Std.TreeMap.mem_keys, Std.TreeMap.mem_iff_isSome_getElem?]
    exact h score member
  cases hscore : m[member]? with
  | none =>
    refine List.find?_eq_none.2 fun x hx hentry => ?_
    obtain ⟨score, rfl⟩ := isEntryOf_iff.1 hentry
    rw [hmem, hscore] at hx
    cases hx
  | some score =>
    have hfound : (entries.keys.find? (isEntryOf key version member)).isSome :=
      List.find?_isSome.2 ⟨_, (hmem score).2 hscore, isEntryOf_iff.2 ⟨score, rfl⟩⟩
    obtain ⟨x, hx⟩ := Option.isSome_iff_exists.1 hfound
    obtain ⟨score', rfl⟩ := isEntryOf_iff.1 (List.find?_some hx)
    have hscore' := (hmem score').1 (List.mem_of_find?_eq_some hx)
    rw [hscore, Option.some.injEq] at hscore'
    rw [hx, hscore']
    rfl

theorem ScoreEntries.insert (h : ScoreEntries entries key version m)
    (hscore : ∀ s, m[member]? = some s → s = score) :
    ScoreEntries (entries.insert (ZSetInternalKey.encode ⟨key, version, score, member⟩) []) key version
      (m.insert member score) := by
  intro score' member'
  rw [Entries.getElem?_insert, Scores.getElem?_insert]
  by_cases hmember : member' = member
  · subst hmember
    by_cases heq : score' = score
    · subst heq
      simp
    · have hold : m[member']? ≠ some score' := fun h => heq (hscore _ h)
      rw [if_neg fun h => heq (zsetInternalKey_inj.1 h).1, if_pos rfl, h score' member']
      simp [hold, Ne.symm heq]
  · rw [if_neg fun h => hmember (zsetInternalKey_inj.1 h).2, if_neg hmember, h score' member']

theorem ScoreEntries.insert_key (h : ScoreEntries entries key version m) (bytes : Bytes) :
    ScoreEntries (entries.insert key bytes) key version m := by
  intro score member
  rw [Entries.getElem?_insert, if_neg zsetInternalKey_ne, h score member]

theorem getElem?_scores_of_size (h0 : m.size = 0) : m[member]? = none := by
  have hempty : m.isEmpty = true := by rw [Std.TreeMap.isEmpty_eq_size_eq_zero, h0, beq_self_eq_true]
  exact Std.TreeMap.getElem?_of_isEmpty hempty

end Entries

/-! ## What is told -/

section Tells

variable {s : MapDB} {entries : Entries} {m : Scores} {key : Bytes}

theorem run_findMetadata_zset {version : UInt64} {n : ℕ}
    (hkey : entries[key]? = some (zsetMetadata version n).encode) (clock : Clock) :
    Operation.run (findMetadata key .zset) ⟨entries, clock⟩ =
      (.ok (zsetMetadata version n), ⟨entries, clock⟩) := by
  have hkey : (MapDB.mk entries clock).entries[key]? = some (zsetMetadata version n).encode := hkey
  exact (Finds.lasting hkey (RedisMetadata.decode_encode (zsetMetadata version n)) rfl rfl).run

/-- What an operation on scores starts from. -/
theorem HoldsScores.run_findMetadata (h : HoldsScores entries key m) (clock : Clock) :
    ∃ version clock', Operation.run (findMetadata key .zset) ⟨entries, clock⟩ =
        (.ok (zsetMetadata version m.size), ⟨entries, clock'⟩) ∧
      (m.size = 0 → version = clock 0) ∧
      (m.size ≠ 0 → entries[key]? = some (zsetMetadata version m.size).encode ∧
        ScoreEntries entries key version m) := by
  by_cases h0 : m.size = 0
  · refine ⟨clock 0, fun n => clock (n + 1), ?_, fun _ => rfl, fun hne => absurd h0 hne⟩
    have hcreate : RedisMetadata.create .zset (clock 0) = zsetMetadata (clock 0) m.size := by
      rw [h0]
      rfl
    rw [← hcreate]
    exact (Finds.absent (h.absent h0)).run
  · obtain ⟨version, hkey, hentries⟩ := h.present h0
    exact ⟨version, clock, run_findMetadata_zset hkey clock, fun heq => absurd heq h0, fun _ =>
      ⟨hkey, hentries⟩⟩

theorem HoldsScores.serve_zscore (h : HoldsScores entries key m) (member : Bytes) (clock : Clock) :
    (serve entries ⟨.zscore key member, clock⟩).2 = [m.reply member] := by
  obtain ⟨version, clock', hfind, -, hpresent⟩ := h.run_findMetadata clock
  rw [serve_snd, List.singleton_inj, Request.operation, run_reply_fst, zscore,
    Operation.run_bind_of_ok hfind]
  by_cases h0 : m.size = 0
  · have hnone : (zsetMetadata version 0).size = 0 := rfl
    rw [h0, if_pos hnone, Scores.reply, getElem?_scores_of_size h0]
    rfl
  · have hkeys : Operation.run DB.iterate ⟨entries, clock'⟩ = (.ok entries.keys, ⟨entries, clock'⟩) := rfl
    rw [if_neg (size_zsetMetadata_ne_zero h.size_lt h0), Operation.run_bind_of_ok hkeys]
    rw [show (zsetMetadata version m.size).version = version from rfl,
      (hpresent h0).2.find?_keys, Scores.reply]
    cases hscore : m[member]? with
    | none => rfl
    | some score =>
      show Except.ok (Reply.score (read64 _ _)) = _
      rw [read64_zsetInternalKey]

theorem HoldsScores.tellsScores (h : HoldsScores entries key m) : TellsScores entries key m := by
  refine ⟨h.serve_zscore, fun clock => ?_⟩
  obtain ⟨version, clock', hfind, -⟩ := h.run_findMetadata clock
  exact ⟨_, _, hfind, toNat_size_zsetMetadata h.size_lt⟩

/-! ## Adding members -/

/-- What adding a member does: its entry with the score is written, and the member counted
    if there was none. -/
theorem HoldsScores.serve_zadd (h : HoldsScores entries key m) (z : Zadd)
    (hunused : m.size = 0 → Unused entries key (z.clock 0)) :
    ∃ version, ScoreEntries entries key version m ∧
      (m.size ≠ 0 → entries[key]? = some (zsetMetadata version m.size).encode) ∧
      serve entries (z.call key) =
        let added := entries.insert (ZSetInternalKey.encode ⟨key, version, z.score, z.member⟩) []
        if m[z.member]? = some z.score then (added, [.ok (.flag false)])
        else (added.insert key (zsetMetadata version (m.size + 1)).encode, [.ok (.flag true)]) := by
  obtain ⟨version, clock', hfind, hversion, hpresent⟩ := h.run_findMetadata z.clock
  have hentries : ScoreEntries entries key version m := by
    by_cases h0 : m.size = 0
    · intro score member
      have hnone : entries[ZSetInternalKey.encode ⟨key, version, score, member⟩]? = none := by
        rw [hversion h0]
        exact hunused h0 _
      rw [hnone, getElem?_scores_of_size h0]
      simp
    · exact (hpresent h0).2
  refine ⟨version, hentries, fun h0 => (hpresent h0).1, ?_⟩
  have hstored := run_stored (ZSetInternalKey.encode ⟨key, version, z.score, z.member⟩) ⟨entries, clock'⟩
  -- The entry looked for has the score in its key, so it is there only with this very score.
  have hiff := hentries z.score z.member
  by_cases hscore : m[z.member]? = some z.score
  · rw [hiff.2 hscore] at hstored
    have hrun : Operation.run (zadd key z.score z.member) ⟨entries, z.clock⟩ = (.ok false, _) :=
      (Operation.run_bind_of_ok hfind).trans (Operation.run_bind_of_ok hstored)
    rw [Zadd.call, serve_of_run (Operation.run_bind_of_ok hrun)]
    exact (if_pos hscore).symm
  · rw [Bool.eq_false_iff.2 (mt hiff.1 hscore)] at hstored
    have hrun : Operation.run (zadd key z.score z.member) ⟨entries, z.clock⟩ = (.ok true, _) :=
      (Operation.run_bind_of_ok hfind).trans (Operation.run_bind_of_ok hstored)
    rw [Zadd.call, serve_of_run (Operation.run_bind_of_ok hrun), ← zsetMetadata_add_one]
    exact (if_neg hscore).symm

/-- A member that is added again with its score changes nothing. -/
theorem HoldsScores.serve_zadd_again (h : HoldsScores entries key m) {z : Zadd}
    (hscore : m[z.member]? = some z.score) :
    (serve entries (z.call key)).2 = [.ok (.flag (!m.contains z.member))] ∧
      HoldsScores (serve entries (z.call key)).1 key (m.insert z.member z.score) := by
  have hne : m.size ≠ 0 := fun h0 => by
    rw [getElem?_scores_of_size h0] at hscore
    cases hscore
  have hcontains : m.contains z.member = true := by
    rw [Std.TreeMap.contains_eq_isSome_getElem?, hscore]
    rfl
  have hsize : (m.insert z.member z.score).size = m.size := by
    rw [Std.TreeMap.size_insert, if_pos hcontains]
  obtain ⟨version, hentries, hkey, hserve⟩ := h.serve_zadd z fun h0 => absurd h0 hne
  simp only [if_pos hscore] at hserve
  rw [hserve, hcontains]
  refine ⟨rfl, by rw [hsize]; exact h.size_lt, fun h0 => absurd (hsize.symm.trans h0) hne, fun _ =>
    ⟨version, ?_, hentries.insert fun s hs => Option.some.inj (hs.symm.trans hscore)⟩⟩
  rw [Entries.getElem?_insert, if_neg zsetInternalKey_ne.symm, hsize, hkey hne]

/-- A new member is added, and counted if there is room. -/
theorem HoldsScores.serve_zadd_new (h : HoldsScores entries key m) {z : Zadd}
    (hunused : m.size = 0 → Unused entries key (z.clock 0)) (hnone : m[z.member]? = none) :
    (serve entries (z.call key)).2 = [.ok (.flag (!m.contains z.member))] ∧
      (m.size + 1 < 2 ^ 32 →
        HoldsScores (serve entries (z.call key)).1 key (m.insert z.member z.score)) ∧
      (¬m.size + 1 < 2 ^ 32 →
        ¬TellsScores (serve entries (z.call key)).1 key (m.insert z.member z.score)) := by
  have hscore : m[z.member]? ≠ some z.score := by
    rw [hnone]
    simp
  have hcontains : m.contains z.member = false := by
    rw [Std.TreeMap.contains_eq_isSome_getElem?, hnone]
    rfl
  have hsize : (m.insert z.member z.score).size = m.size + 1 := by
    rw [Std.TreeMap.size_insert, hcontains]
    rfl
  obtain ⟨version, hentries, hkey, hserve⟩ := h.serve_zadd z hunused
  simp only [if_neg hscore] at hserve
  rw [hserve, hcontains]
  have hfound (entries : Entries) (bytes : Bytes) : (entries.insert key bytes)[key]? = some bytes :=
    (Entries.getElem?_insert ..).trans (if_pos rfl)
  refine ⟨rfl, fun hroom => ⟨by rw [hsize]; exact hroom, fun h0 => by omega, fun _ =>
    ⟨version, by rw [hsize, hfound], ?_⟩⟩, fun hfull htells => ?_⟩
  · refine (hentries.insert fun s hs => ?_).insert_key _
    rw [hnone] at hs
    cases hs
  · -- The number of the members has wrapped to zero.
    obtain ⟨metadata, s, hfind, hmetadata⟩ := htells.size z.clock
    rw [run_findMetadata_zset (hfound _ _) z.clock] at hfind
    cases hfind
    have := h.size_lt
    have hwrapped : m.size + 1 = 2 ^ 32 := by omega
    rw [hsize, hwrapped] at hmetadata
    cases hmetadata

/-- A member that is added with another score is said to be new. -/
theorem HoldsScores.serve_zadd_rescored (h : HoldsScores entries key m) {z : Zadd} {score : UInt64}
    (hscore : m[z.member]? = some score) (hne : score ≠ z.score) :
    (serve entries (z.call key)).2 ≠ [.ok (.flag (!m.contains z.member))] := by
  have hsize : m.size ≠ 0 := fun h0 => by
    rw [getElem?_scores_of_size h0] at hscore
    cases hscore
  have hother : m[z.member]? ≠ some z.score := by
    rw [hscore]
    exact fun heq => hne (Option.some.inj heq)
  obtain ⟨version, -, -, hserve⟩ := h.serve_zadd z fun h0 => absurd h0 hsize
  simp only [if_neg hother] at hserve
  rw [hserve, Std.TreeMap.contains_eq_isSome_getElem?, hscore]
  simp

theorem OneScore.tellsScores {zs : List Zadd} (h : OneScore key entries m zs) :
    TellsScores entries key m := by
  cases zs with
  | nil => exact h
  | cons => exact h.1

/-- By induction on the members added. -/
theorem HoldsScores.oneScore_iff_neverRescored (h : HoldsScores entries key m) {zs : List Zadd}
    (hunused : m.size = 0 → ∀ z ∈ zs.head?, Unused entries key (z.clock 0)) :
    OneScore key entries m zs ↔ NeverRescored m zs := by
  induction zs generalizing entries m with
  | nil => exact iff_of_true h.tellsScores trivial
  | cons z zs ih =>
    have hunused : m.size = 0 → Unused entries key (z.clock 0) := fun h0 => hunused h0 z rfl
    have hsize : (m.insert z.member z.score).size ≠ 0 := by
      rw [Std.TreeMap.size_insert]
      split
      · next hcontains =>
        intro h0
        rw [Std.TreeMap.contains_eq_isSome_getElem?, getElem?_scores_of_size h0] at hcontains
        cases hcontains
      · exact Nat.succ_ne_zero _
    rw [OneScore, NeverRescored, and_iff_right h.tellsScores]
    -- A member is new, added again with its score, or added with another.
    cases hscore : m[z.member]? with
    | none =>
      obtain ⟨hreply, hroom, hfull⟩ := h.serve_zadd_new hunused hscore
      have hcontains : m.contains z.member = false := by
        rw [Std.TreeMap.contains_eq_isSome_getElem?, hscore]
        rfl
      by_cases hlt : m.size + 1 < 2 ^ 32
      · rw [and_iff_right hreply, ih (hroom hlt) fun h0 => absurd h0 hsize]
        refine ⟨fun hnever => ⟨fun score hnone => ?_, fun _ => hlt, hnever⟩, fun hnever => hnever.2.2⟩
        cases hnone
      · exact iff_of_false (fun hone => hfull hlt hone.2.tellsScores) fun hnever =>
          hlt (hnever.2.1 hcontains)
    | some score =>
      by_cases heq : score = z.score
      · subst heq
        obtain ⟨hreply, hnext⟩ := h.serve_zadd_again hscore
        have hcontains : m.contains z.member = true := by
          rw [Std.TreeMap.contains_eq_isSome_getElem?, hscore]
          rfl
        rw [and_iff_right hreply, ih hnext fun h0 => absurd h0 hsize]
        simp [hcontains]
      · exact iff_of_false (fun hone => h.serve_zadd_rescored hscore heq hone.1) fun hnever =>
          heq (hnever.1 score rfl)

theorem holdsScores_of_absent (habsent : entries[key]? = none) : HoldsScores entries key ∅ :=
  ⟨by decide, fun _ => habsent, fun hne => absurd Std.TreeMap.size_emptyc hne⟩

/-- The scores of a sorted set that is absent at first are told right just when none is ever
    changed, and the members are fewer than `2 ^ 32`. -/
theorem oneScore_iff (entries : Entries) (key : Bytes) (zs : List Zadd)
    (habsent : entries[key]? = none) (hunused : ∀ z ∈ zs.head?, Unused entries key (z.clock 0)) :
    OneScore key entries ∅ zs ↔ NeverRescored ∅ zs :=
  (holdsScores_of_absent habsent).oneScore_iff_neverRescored fun _ => hunused

/-- Members that are added with the scores 1 and 2, as the bits of their doubles. -/
def twoMembers : List Zadd :=
  [⟨0x3FF0000000000000, [97], fun n => .ofNat n⟩, ⟨0x4000000000000000, [98], fun n => .ofNat n⟩]

theorem oneScore_twoMembers : OneScore [107] ∅ ∅ twoMembers :=
  (oneScore_iff ∅ [107] twoMembers Std.TreeMap.getElem?_emptyc fun _ _ _ =>
    Std.TreeMap.getElem?_emptyc).2 (by
      refine ⟨fun score h => ?_, fun _ => by decide, fun score h => ?_, fun _ =>
        by decide, trivial⟩
      · exact absurd h (by simp)
      · have hnone : ((∅ : Scores).insert [97] 0x3FF0000000000000)[([98] : Bytes)]? = none := by
          decide
        cases hnone.symm.trans h)

/-- A member whose score is changed from 1 to 2 is said to be new again. -/
theorem not_forall_oneScore : ¬∀ (entries : Entries) (key : Bytes) (zs : List Zadd),
    entries[key]? = none → OneScore key entries ∅ zs := by
  intro h
  have hone := h ∅ [107]
    [⟨0x3FF0000000000000, [97], fun n => .ofNat n⟩, ⟨0x4000000000000000, [97], fun n => .ofNat n⟩]
    Std.TreeMap.getElem?_emptyc
  exact absurd hone.2.2.2.1 (by decide)

end Tells

end Bitcask.Redis
