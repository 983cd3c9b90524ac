import Mathlib.Data.List.TakeWhile
import Bitcask.DB
import Bitcask.Iterators

/-!
# Iterators of the database

The iterator of a database moves that of its index, and is valid only where the key
starts with a prefix. So a loop over it ends at the first key that does not, even
when some that do are still ahead: it uses all of them if and only if no other key
is met before them (`Enumerates.takeWhile_eq_iff`).
-/

namespace Bitcask

/-- The iterator of a database, until it is closed. -/
structure DBIterator (It : Type) where
  options : IteratorOptions
  indexIter : Option It

/-- A new iterator of a database. -/
def DB.iterator {ι It : Type} [Cursor It Bytes Item] [OrderedIndex ι It] (db : DB ι)
    (options : IteratorOptions) : Option (DBIterator It) := do
  return ⟨options, some (← OrderedIndex.iterator db.index options.reverse)⟩

namespace DBIterator

variable {It : Type} [Cursor It Bytes Item] (it : DBIterator It)

def rewind : Option (DBIterator It) :=
  match it.indexIter with
  | none => some it
  | some c => do
    let c ← Cursor.rewind c
    let c ← if it.options.keyPrefix.isEmpty then some c else Cursor.seek c it.options.keyPrefix
    return { it with indexIter := some c }

def seek (key : Bytes) : Option (DBIterator It) :=
  match it.indexIter with
  | none => some it
  | some c => do return { it with indexIter := some (← Cursor.seek c key) }

def next : Option (DBIterator It) :=
  match it.indexIter with
  | none => some it
  | some c => do return { it with indexIter := some (← Cursor.next c) }

/-- The item the iterator is at, if it is valid. -/
def item : Option (Option Item) :=
  match it.indexIter with
  | none => some none
  | some c => do return (← Cursor.read c).filter fun item => it.options.keyMatchesPrefix item.1

def valid : Option Bool := do return (← it.item).isSome

def key : Option (Except Exn Bytes) := do
  match ← it.item with
  | some item => return .ok item.1
  | none => return .error (.bitcask "Iterator is not valid")

def value {ι : Type} (db : DB ι) (fs : FS) : Option (Except Exn Bytes) := do
  match ← it.item with
  | some item => return db.getValueByPosition fs item.2
  | none => return .error (.bitcask "Iterator is not valid")

def close : DBIterator It := { it with indexIter := none }

instance : Cursor (DBIterator It) Bytes Item where
  rewind := rewind
  seek := seek
  next := next
  read := item

/-! ## The loop -/

section Loop

variable {At : It → List Item → Prop} {all rest : List Item} {land : Bytes → List Item}
  {options : IteratorOptions}

/-- An open iterator with some items ahead in the index. -/
def Ahead (At : It → List Item → Prop) (options : IteratorOptions) (it : DBIterator It)
    (rest : List Item) : Prop :=
  ∃ c, it = ⟨options, some c⟩ ∧ At c rest

/-- The items ahead after a call. -/
def ahead (all : List Item) (land : Bytes → List Item) (options : IteratorOptions)
    (rest : List Item) : Cursor.Call Bytes → List Item
  | .rewind => if options.keyPrefix.isEmpty then all else land options.keyPrefix
  | .seek key => land key
  | .next => rest.tail

variable {it}

theorem Ahead.apply (hat : Ahead At options it rest) (h : Cursor.Represents At all land)
    (call : Cursor.Call Bytes) : ∃ it', Cursor.apply it call = some it' ∧
      Ahead At options it' (ahead all land options rest call) := by
  obtain ⟨c, rfl, hc⟩ := hat
  cases call with
  | rewind =>
    obtain ⟨c₁, hrewind, hc₁⟩ := h.rewind c rest hc
    obtain ⟨c₂, hseek, hc₂⟩ := h.seek c₁ all options.keyPrefix hc₁
    by_cases hempty : options.keyPrefix.isEmpty
    · refine ⟨⟨options, some c₁⟩, ?_, c₁, rfl, ?_⟩
      · show rewind (⟨options, some c⟩ : DBIterator It) = _
        simp [rewind, hrewind, hempty]
      · rwa [ahead, if_pos hempty]
    · refine ⟨⟨options, some c₂⟩, ?_, c₂, rfl, ?_⟩
      · show rewind (⟨options, some c⟩ : DBIterator It) = _
        simp [rewind, hrewind, hempty, hseek]
      · rwa [ahead, if_neg hempty]
  | seek key =>
    obtain ⟨c₁, hseek, hc₁⟩ := h.seek c rest key hc
    refine ⟨⟨options, some c₁⟩, ?_, c₁, rfl, hc₁⟩
    show seek (⟨options, some c⟩ : DBIterator It) key = _
    simp [seek, hseek]
  | next =>
    obtain ⟨c₁, hnext, hc₁⟩ := h.next c rest hc
    refine ⟨⟨options, some c₁⟩, ?_, c₁, rfl, hc₁⟩
    show next (⟨options, some c⟩ : DBIterator It) = _
    simp [next, hnext]

theorem length_ahead_le (hland : ∀ key, (land key).length ≤ all.length)
    (hrest : rest.length ≤ all.length) (call : Cursor.Call Bytes) :
    (ahead all land options rest call).length ≤ all.length := by
  cases call with
  | rewind =>
    rw [ahead]
    split
    · exact le_rfl
    · exact hland _
  | seek key => exact hland key
  | next => exact (List.tail_sublist rest).length_le.trans hrest

theorem Ahead.applyAll (hat : Ahead At options it rest) (h : Cursor.Represents At all land)
    (hland : ∀ key, (land key).length ≤ all.length) (hrest : rest.length ≤ all.length)
    (calls : List (Cursor.Call Bytes)) : ∃ it' rest', calls.foldlM Cursor.apply it = some it' ∧
      Ahead At options it' rest' ∧ rest'.length ≤ all.length := by
  induction calls generalizing it rest with
  | nil => exact ⟨it, rest, rfl, hat, hrest⟩
  | cons call calls ih =>
    obtain ⟨it₁, happly, hat₁⟩ := hat.apply h call
    obtain ⟨it', rest', hcalls, hat'⟩ := ih hat₁ (length_ahead_le hland hrest call)
    exact ⟨it', rest', by simp [happly, hcalls], hat'⟩

/-- The loop uses the items up to the first one that does not match. -/
theorem Ahead.visit_eq (hat : Ahead At options it rest) (h : Cursor.Represents At all land)
    {fuel : ℕ} (hfuel : rest.length ≤ fuel) : Cursor.visit fuel it =
      some (rest.takeWhile fun item => options.keyMatchesPrefix item.1) := by
  induction rest generalizing it fuel with
  | nil =>
    obtain ⟨c, rfl, hc⟩ := hat
    have hitem : Cursor.read (⟨options, some c⟩ : DBIterator It) = some none := by
      show item _ = _
      simp [item, h.read c [] hc]
    unfold Cursor.visit
    simp [hitem]
  | cons first rest ih =>
    obtain ⟨fuel, rfl⟩ := Nat.exists_eq_succ_of_ne_zero (Nat.ne_zero_of_lt hfuel)
    obtain ⟨it', hnext, hat'⟩ := hat.apply h .next
    obtain ⟨c, rfl, hc⟩ := hat
    have hitem : Cursor.read (⟨options, some c⟩ : DBIterator It) =
        some (if options.keyMatchesPrefix first.1 then some first else none) := by
      show item _ = _
      simp [item, h.read c _ hc, Option.filter]
    have hvisit := ih hat' (Nat.le_of_succ_le_succ hfuel)
    unfold Cursor.visit
    by_cases hmatches : options.keyMatchesPrefix first.1
    · rw [Cursor.apply] at hnext
      simp [hitem, hmatches, hnext, hvisit]
    · simp [hitem, hmatches]

end Loop

end DBIterator

/-! ## Keys that start with a prefix -/

theorem compareKeys_of_isPrefix {p key : Bytes} (h : p <+: key) : compareKeys p key ≠ .gt := by
  induction p generalizing key with
  | nil => cases key <;> nofun
  | cons a p ih =>
    obtain ⟨rest, rfl⟩ := h
    have := ih (List.prefix_append p rest)
    simpa [compareKeys] using this

/-- Between a prefix and a key that starts with it all keys do. -/
theorem isPrefix_of_between {p key key' : Bytes} (hp : compareKeys p key ≠ .gt)
    (hle : compareKeys key key' ≠ .gt) (h : p <+: key') : p <+: key := by
  induction p generalizing key key' with
  | nil => exact List.nil_prefix
  | cons a p ih =>
    obtain ⟨rest, rfl⟩ := h
    cases key with
    | nil => exact absurd rfl hp
    | cons b key =>
      rw [List.cons_append, compareKeys] at hle
      rw [compareKeys] at hp
      split at hp
      · rename_i hlt
        simp [UInt8.not_lt.2 (UInt8.le_of_lt hlt), hlt] at hle
      · split at hp
        · exact absurd rfl hp
        · rename_i hab hba
          obtain rfl := UInt8.le_antisymm (UInt8.not_lt.1 hba) (UInt8.not_lt.1 hab)
          rw [if_neg hab, if_neg hab] at hle
          exact (List.cons_prefix_cons).2 ⟨rfl, ih hp hle (List.prefix_append p rest)⟩

theorem IteratorOptions.keyMatchesPrefix_iff (options : IteratorOptions) (key : Bytes) :
    options.keyMatchesPrefix key = true ↔ options.keyPrefix <+: key := by
  unfold keyMatchesPrefix
  rw [List.prefix_iff_eq_take]
  split
  · rename_i hempty
    simp [List.isEmpty_iff.1 hempty]
  · split
    · rename_i hlt
      refine iff_of_false nofun fun heq => ?_
      have := congrArg List.length heq
      simp only [List.length_take] at this
      omega
    · simp

/-! ## Lists -/

/-- What is used up to the first item of which a condition does not hold are all items
    of which it holds if and only if these are the first ones. -/
theorem takeWhile_eq_filter_iff {α : Type} {p : α → Bool} {xs : List α} :
    xs.takeWhile p = xs.filter p ↔ xs.Pairwise fun x y => p y → p x := by
  induction xs with
  | nil => simp
  | cons x xs ih =>
    rw [List.pairwise_cons]
    by_cases hx : p x
    · simp [hx, ih]
    · -- nothing is used, so the condition must hold of nothing
      rw [List.takeWhile_cons_of_neg hx, List.filter_cons_of_neg hx, eq_comm,
        List.filter_eq_nil_iff]
      refine ⟨fun h => ⟨fun y hy hpy => absurd hpy (h y hy), ?_⟩, fun h y hy hpy => hx (h.1 y hy hpy)⟩
      exact (List.pairwise_of_forall_mem_list fun y hy z hz hpz => absurd hpz (h z hz))

/-- What is left from the first item on of which a condition holds, when it holds of
    all behind one of which it does. -/
theorem dropWhile_not_eq_filter {α : Type} {p : α → Bool} {xs : List α}
    (h : xs.Pairwise fun x y => p x → p y) : xs.dropWhile (fun x => !p x) = xs.filter p := by
  induction xs with
  | nil => rfl
  | cons x xs ih =>
    rw [List.pairwise_cons] at h
    by_cases hx : p x
    · rw [List.dropWhile_cons_of_neg (by simp [hx]), List.filter_cons_of_pos hx,
        List.filter_eq_self.2 fun y hy => h.1 y hy hx]
    · rw [List.dropWhile_cons_of_pos (by simp [hx]), List.filter_cons_of_neg hx, ih h.2]

/-- What holds of any two items of a list in this order holds of those that are in the
    order the list is sorted by. -/
theorem forall_of_pairwise {α : Type} {R P : α → α → Prop} {xs : List α}
    (hasymm : ∀ a b, R a b → ¬ R b a) (hsorted : xs.Pairwise R) (h : xs.Pairwise P) {a b : α}
    (ha : a ∈ xs) (hb : b ∈ xs) (hab : R a b) : P a b := by
  have hall : ∀ ⦃a⦄, a ∈ xs → ∀ ⦃b⦄, b ∈ xs → R a b → P a b := by
    refine List.Pairwise.forall_of_forall_of_flip (fun a _ haa => absurd haa (hasymm a a haa)) ?_ ?_
    · exact h.imp fun {a b} hP (_ : R a b) => hP
    · exact hsorted.imp fun {a b} hR hR' => absurd hR' (hasymm a b hR)
  exact hall ha hb hab

/-! ## The items used -/

/-- Whether an iterator meets a key before another one. -/
def Comes (reverse : Bool) (key key' : Bytes) : Prop :=
  if reverse then compareKeys key' key = .lt else compareKeys key key' = .lt

/-- Whether an iterator meets a key before those that start with a prefix. -/
def PrecedesBlock (reverse : Bool) (keyPrefix key : Bytes) : Prop :=
  ¬ keyPrefix <+: key ∧ compareKeys key keyPrefix = if reverse then .gt else .lt

theorem Comes.asymm {reverse : Bool} {key key' : Bytes} (h : Comes reverse key key') :
    ¬ Comes reverse key' key := by
  intro h'
  have hself (k : Bytes) : compareKeys k k ≠ .lt := by
    rw [compareKeys_eq_iff.2 rfl]
    nofun
  cases reverse with
  | false => exact hself _ (compareKeys_trans h h')
  | true => exact hself _ (compareKeys_trans h h')

/-- An iterator that stops at an item would stop at all behind it. -/
theorem Comes.reaches {reverse : Bool} {key : Bytes} {a b : Item} (hab : Comes reverse a.1 b.1)
    (ha : reaches reverse key a) : reaches reverse key b := by
  cases reverse with
  | false =>
    simp only [Bitcask.reaches, Bool.false_eq_true, if_false, ← compareKeys_eq_compare,
      decide_eq_true_eq] at ha ⊢
    exact fun hb => ha (compareKeys_trans hab hb)
  | true =>
    simp only [Bitcask.reaches, if_true, ← compareKeys_eq_compare, decide_eq_true_eq, ne_eq,
      compareKeys_gt_iff] at ha ⊢
    exact fun hb => ha (compareKeys_trans hb hab)

section PrecedesBlock

variable {reverse : Bool} {keyPrefix key key' : Bytes}

/-- What is met before a key that starts with the prefix does, too, or is met before all
    that do. -/
theorem Comes.isPrefix_or (h : Comes reverse key key') (hkey' : keyPrefix <+: key') :
    keyPrefix <+: key ∨ PrecedesBlock reverse keyPrefix key := by
  by_cases hkey : keyPrefix <+: key
  · exact .inl hkey
  · refine .inr ⟨hkey, ?_⟩
    have hle := compareKeys_of_isPrefix hkey'
    cases reverse with
    | false =>
      have hlt : compareKeys key key' = .lt := h
      have hgt : compareKeys keyPrefix key = .gt := by
        by_contra hne
        exact hkey (isPrefix_of_between hne (by simp [hlt]) hkey')
      exact compareKeys_gt_iff.1 hgt
    | true =>
      have hlt : compareKeys key' key = .lt := h
      refine compareKeys_gt_iff.2 ?_
      cases hcmp : compareKeys keyPrefix key with
      | lt => rfl
      | eq => exact absurd (compareKeys_eq_iff.1 hcmp ▸ List.prefix_rfl) hkey
      | gt =>
        exact absurd (compareKeys_gt_iff.2 (compareKeys_trans hlt (compareKeys_gt_iff.1 hcmp))) hle

theorem PrecedesBlock.comes (h : PrecedesBlock reverse keyPrefix key) (hkey' : keyPrefix <+: key') :
    Comes reverse key key' := by
  obtain ⟨hkey, hcmp⟩ := h
  have hle := compareKeys_of_isPrefix hkey'
  cases reverse with
  | false =>
    have hlt : compareKeys key keyPrefix = .lt := hcmp
    cases hle' : compareKeys keyPrefix key' with
    | lt => exact compareKeys_trans hlt hle'
    | eq => exact compareKeys_eq_iff.1 hle' ▸ hlt
    | gt => exact absurd hle' hle
  | true =>
    have hgt : compareKeys key keyPrefix = .gt := hcmp
    have hne : compareKeys key key' = .gt := by
      by_contra hne
      refine hkey (isPrefix_of_between ?_ hne hkey')
      rw [compareKeys_gt_iff.1 hgt]
      nofun
    exact compareKeys_gt_iff.1 hne

end PrecedesBlock

namespace Enumerates

variable {items : List Item} {m : Positions} (h : Enumerates items m) (reverse : Bool)
include h

theorem mem_ordered_iff (k : Bytes) (pos : LogRecordPos) :
    (k, pos) ∈ ordered reverse items ↔ m k = some pos := by
  rw [← h.mem_iff]
  cases reverse <;> simp [ordered]

theorem pairwise_ordered : (ordered reverse items).Pairwise fun a b => Comes reverse a.1 b.1 := by
  have hsorted := List.pairwise_map.1 h.sorted
  simp only [← compareKeys_eq_compare] at hsorted
  cases reverse with
  | false => exact hsorted
  | true => exact List.pairwise_reverse.2 hsorted

/-- An iterator that looks for a key has exactly the items ahead on whose side of the
    key it stops. -/
theorem landing_eq (key : Bytes) : landing reverse (ordered reverse items) key =
    (ordered reverse items).filter (reaches reverse key) := by
  exact dropWhile_not_eq_filter ((h.pairwise_ordered reverse).imp Comes.reaches)

/-- The loop uses all items from a key on that start with a prefix if and only if there
    are none, or no other one is met before them. -/
theorem takeWhile_eq_iff (options : IteratorOptions) (key : Bytes) :
    (landing reverse (ordered reverse items) key).takeWhile
        (fun item => options.keyMatchesPrefix item.1) =
      (ordered reverse items).filter
        (fun item => options.keyMatchesPrefix item.1 && reaches reverse key item) ↔
      ∀ item ∈ ordered reverse items, options.keyPrefix <+: item.1 →
        ∀ other ∈ ordered reverse items, reaches reverse key other →
          ¬ PrecedesBlock reverse options.keyPrefix other.1 := by
  have hsorted := h.pairwise_ordered reverse
  rw [h.landing_eq, ← List.filter_filter, takeWhile_eq_filter_iff, List.pairwise_filter]
  simp only [options.keyMatchesPrefix_iff]
  constructor
  · intro hpairwise item hitem hstarts other hother hreaches hprecedes
    -- the other item is met first, so it must start with the prefix
    have hcomes := hprecedes.comes hstarts
    have hother' := forall_of_pairwise (fun _ _ hab => hab.asymm) hsorted hpairwise hother hitem hcomes
    exact hprecedes.1 (hother' hreaches (hcomes.reaches hreaches) hstarts)
  · intro hnot
    refine hsorted.imp_of_mem fun ha hb hcomes hreaches _ hstarts => ?_
    exact (hcomes.isPrefix_or hstarts).resolve_right (hnot _ hb hstarts _ ha hreaches)

end Enumerates

theorem filter_and_eq_iff {α : Type} {p q : α → Bool} {xs : List α} :
    xs.filter (fun x => p x && q x) = xs.filter p ↔ ∀ x ∈ xs, p x → q x := by
  constructor
  · intro h x hx hp
    have hmem : x ∈ xs.filter fun x => p x && q x := by
      rw [h, List.mem_filter]
      exact ⟨hx, hp⟩
    rw [List.mem_filter, Bool.and_eq_true] at hmem
    exact hmem.2.2
  · intro h
    refine List.filter_congr fun x hx => ?_
    cases hp : p x with
    | false => rfl
    | true => exact h x hx hp

/-- No key is met before those that start with a prefix from the prefix itself on. -/
theorem not_precedesBlock {reverse : Bool} {keyPrefix : Bytes} {item : Item}
    (h : reaches reverse keyPrefix item) : ¬ PrecedesBlock reverse keyPrefix item.1 := by
  rintro ⟨-, hcmp⟩
  cases reverse <;> simp_all [reaches, compareKeys_eq_compare]

/-- Backwards a key that starts with a prefix is behind it, unless it is the prefix. -/
theorem reaches_of_isPrefix_iff {reverse : Bool} {keyPrefix : Bytes} {item : Item}
    (h : keyPrefix <+: item.1) :
    reaches reverse keyPrefix item ↔ (reverse = true → item.1 = keyPrefix) := by
  have hle := compareKeys_of_isPrefix h
  rw [compareKeys_eq_compare] at hle
  cases reverse with
  | false =>
    refine iff_of_true (decide_eq_true fun hlt => hle ?_) nofun
    rwa [Std.OrientedCmp.gt_iff_lt]
  | true =>
    have hiff : reaches true keyPrefix item ↔ compare item.1 keyPrefix ≠ .gt := decide_eq_true_iff
    rw [hiff]
    constructor
    · intro hne _
      cases hcmp : compare item.1 keyPrefix with
      | lt => exact absurd (Std.OrientedCmp.gt_iff_lt.2 hcmp) hle
      | eq => exact Std.LawfulEqCmp.compare_eq_iff_eq.1 hcmp
      | gt => exact absurd hcmp hne
    · intro heq
      rw [heq rfl]
      simp

/-! ## Loops over a database -/

/-- The items a loop over an iterator of the database uses after some calls. -/
def DB.visited {ι It : Type} [Cursor It Bytes Item] [OrderedIndex ι It] (db : DB ι)
    (options : IteratorOptions) (calls : List (Cursor.Call Bytes)) : Option (List Item) := do
  let it ← calls.foldlM Cursor.apply (← db.iterator options)
  Cursor.visit (← OrderedIndex.size db.index) it

/-- Without a prefix the loop uses all items of the index. -/
theorem DB.visited_all {ι It : Type} [Cursor It Bytes Item] [OrderedIndex ι It] (db : DB ι)
    {m : Positions} (hmodels : OrderedIndex.Models db.index m) (reverse : Bool) :
    ∃ items, Enumerates items m ∧
      db.visited { reverse := reverse } [.rewind] = some (ordered reverse items) := by
  obtain ⟨items, hitems, hsize, -, hiterator⟩ := OrderedIndex.items_eq hmodels
  obtain ⟨At, c, hc, hat, hrepresents⟩ := hiterator reverse
  have hnew : DBIterator.Ahead At { reverse := reverse } ⟨{ reverse := reverse }, some c⟩
    (ordered reverse items) := ⟨c, rfl, hat⟩
  obtain ⟨it, hrewind, hat'⟩ := hnew.apply hrepresents .rewind
  have hlength : (ordered reverse items).length = items.length := by
    unfold ordered
    split <;> simp
  have hvisit := hat'.visit_eq hrepresents hlength.le
  refine ⟨items, hitems, ?_⟩
  simp only [visited, DB.iterator, hc, Option.bind_eq_bind, Option.bind_some, List.foldlM_cons,
    List.foldlM_nil, hrewind, Option.pure_def, hsize, hvisit]
  exact congrArg some (List.takeWhile_eq_self_iff.2 fun item _ =>
    IteratorOptions.keyMatchesPrefix_of_empty rfl item.1)

/-- What the loop uses after the last call. -/
theorem DB.visited_eq (db : DB BTreeIndex) (options : IteratorOptions)
    (earlier : List (Cursor.Call Bytes)) (call : Cursor.Call Bytes) {items : List Item}
    (hitems : Enumerates items (Indexer.toMap db.index)) :
    ∃ rest, db.visited options (earlier ++ [call]) = some ((DBIterator.ahead
      (ordered options.reverse items) (landing options.reverse (ordered options.reverse items))
      options rest call).takeWhile fun item => options.keyMatchesPrefix item.1) := by
  have hmodels : OrderedIndex.Models db.index (Indexer.toMap db.index) := rfl
  obtain ⟨items', hitems', hsize, -, hiterator⟩ := OrderedIndex.items_eq hmodels
  obtain rfl := hitems.unique hitems'
  obtain ⟨At, c, hc, hat, hrepresents⟩ := hiterator options.reverse
  have h : Cursor.Represents At (ordered options.reverse items)
    (landing options.reverse (ordered options.reverse items)) := hrepresents
  have hnew : DBIterator.Ahead At options ⟨options, some c⟩ (ordered options.reverse items) :=
    ⟨c, rfl, hat⟩
  have hland (key : Bytes) : (landing options.reverse (ordered options.reverse items) key).length ≤
      (ordered options.reverse items).length := (List.dropWhile_sublist _).length_le
  obtain ⟨it, rest, hearlier, hat, hrest⟩ := hnew.applyAll h hland le_rfl earlier
  obtain ⟨it', hcall, hat'⟩ := hat.apply h call
  have hlength : (ordered options.reverse items).length = items.length := by
    unfold ordered
    split <;> simp
  have hvisit := hat'.visit_eq h (hlength ▸ DBIterator.length_ahead_le hland hrest call)
  refine ⟨rest, ?_⟩
  simp [visited, DB.iterator, hc, List.foldlM_append, hearlier, hcall, hsize, hvisit]

section Exact

variable {db : DB BTreeIndex} {options : IteratorOptions} {items : List Item}
  (hitems : Enumerates items (Indexer.toMap db.index)) (earlier : List (Cursor.Call Bytes))
include hitems

/-- After `rewind` the loop uses all items that start with the prefix if and only if it
    does not go backwards from the prefix to others. -/
theorem DB.visited_rewind_iff : db.visited options (earlier ++ [.rewind]) =
      some ((ordered options.reverse items).filter fun item =>
        options.keyMatchesPrefix item.1) ↔
    (options.reverse = true → options.keyPrefix ≠ [] → ∀ k, (Indexer.get db.index k).isSome →
      options.keyPrefix <+: k → k = options.keyPrefix) := by
  obtain ⟨rest, hvisited⟩ := db.visited_eq options earlier .rewind hitems
  rw [hvisited, Option.some_inj, DBIterator.ahead]
  split
  · -- without a prefix all items are used
    rename_i hempty
    have hnil := List.isEmpty_iff.1 hempty
    refine iff_of_true (takeWhile_eq_filter_iff.2 ?_) fun _ hne => absurd hnil hne
    exact List.pairwise_of_forall fun item _ _ =>
      IteratorOptions.keyMatchesPrefix_of_empty hnil item.1
  · rename_i hempty
    have hlanding := (hitems.takeWhile_eq_iff options.reverse options options.keyPrefix).2
      fun _ _ _ _ _ hreaches => not_precedesBlock hreaches
    rw [hlanding, filter_and_eq_iff]
    constructor
    · intro h hreverse _ k hk hstarts
      obtain ⟨pos, hpos⟩ := Option.isSome_iff_exists.1 hk
      refine (@reaches_of_isPrefix_iff _ _ (k, pos) hstarts).1 (h (k, pos) ?_ ?_) hreverse
      · exact (hitems.mem_ordered_iff _ k pos).2 hpos
      · exact (options.keyMatchesPrefix_iff k).2 hstarts
    · rintro h ⟨k, pos⟩ hmem hmatches
      have hpos := (hitems.mem_ordered_iff _ k pos).1 hmem
      have hstarts := (options.keyMatchesPrefix_iff k).1 hmatches
      refine (reaches_of_isPrefix_iff hstarts).2 fun hreverse => ?_
      exact h hreverse (fun hnil => hempty (List.isEmpty_iff.2 hnil)) k
        (Option.isSome_iff_exists.2 ⟨pos, hpos⟩) hstarts

/-- After `seek` the loop uses the items on the right side of the key that start with the
    prefix if and only if there are none, or it meets no others before them. -/
theorem DB.visited_seek_iff (key : Bytes) : db.visited options (earlier ++ [.seek key]) =
      some ((ordered options.reverse items).filter fun item =>
        options.keyMatchesPrefix item.1 && reaches options.reverse key item) ↔
    ((∃ k, (Indexer.get db.index k).isSome ∧ options.keyPrefix <+: k) →
      ∀ k pos, Indexer.get db.index k = some pos → reaches options.reverse key (k, pos) →
        ¬ PrecedesBlock options.reverse options.keyPrefix k) := by
  obtain ⟨rest, hvisited⟩ := db.visited_eq options earlier (.seek key) hitems
  rw [hvisited, Option.some_inj, DBIterator.ahead, hitems.takeWhile_eq_iff]
  constructor
  · rintro h ⟨k', hk', hstarts⟩ k pos hpos hreaches
    obtain ⟨pos', hpos'⟩ := Option.isSome_iff_exists.1 hk'
    exact h (k', pos') ((hitems.mem_ordered_iff _ k' pos').2 hpos') hstarts (k, pos)
      ((hitems.mem_ordered_iff _ k pos).2 hpos) hreaches
  · rintro h ⟨k', pos'⟩ hmem' hstarts ⟨k, pos⟩ hmem hreaches
    have hpos' := (hitems.mem_ordered_iff _ k' pos').1 hmem'
    exact h ⟨k', Option.isSome_iff_exists.2 ⟨pos', hpos'⟩, hstarts⟩ k pos
      ((hitems.mem_ordered_iff _ k pos).1 hmem) hreaches

end Exact

/-- The loops over an iterator of the database use the items that start with the prefix,
    after `rewind` all of them, and after `seek` those on the right side of the key. -/
def PrefixExact (db : DB BTreeIndex) (options : IteratorOptions)
    (earlier : List (Cursor.Call Bytes)) (key : Bytes) : Prop :=
  ∃ items, Enumerates items (Indexer.toMap db.index) ∧
    db.visited options (earlier ++ [.rewind]) = some ((ordered options.reverse items).filter
      fun item => options.keyPrefix.isPrefixOf item.1) ∧
    db.visited options (earlier ++ [.seek key]) = some ((ordered options.reverse items).filter
      fun item => options.keyPrefix.isPrefixOf item.1 && reaches options.reverse key item)

/-- Both loops are exact if and only if no key is met before those that start with the
    prefix: backwards from the prefix only the prefix does, and what there is on the
    right side of the key begins with keys that do. -/
theorem prefixExact_iff (db : DB BTreeIndex) (options : IteratorOptions)
    (earlier : List (Cursor.Call Bytes)) (key : Bytes) :
    PrefixExact db options earlier key ↔
      (options.reverse = true → options.keyPrefix ≠ [] → ∀ k, (Indexer.get db.index k).isSome →
        options.keyPrefix <+: k → k = options.keyPrefix) ∧
      ((∃ k, (Indexer.get db.index k).isSome ∧ options.keyPrefix <+: k) →
        ∀ k pos, Indexer.get db.index k = some pos → reaches options.reverse key (k, pos) →
          ¬ PrecedesBlock options.reverse options.keyPrefix k) := by
  have hmatches (item : Item) : options.keyPrefix.isPrefixOf item.1 =
      options.keyMatchesPrefix item.1 := by
    rw [Bool.eq_iff_iff, options.keyMatchesPrefix_iff, List.isPrefixOf_iff_prefix]
  have hitems : Enumerates db.index.tree.toList (Indexer.toMap db.index) :=
    db.index.tree.enumerates
  rw [← DB.visited_rewind_iff hitems earlier, ← DB.visited_seek_iff hitems earlier, PrefixExact]
  simp only [hmatches]
  constructor
  · rintro ⟨items, hitems', h⟩
    rwa [hitems.unique hitems']
  · exact fun h => ⟨_, hitems, h⟩

/-- Backwards from the prefix a longer key that starts with it is not used. -/
theorem not_forall_prefixExact : ¬ ∀ (db : DB BTreeIndex) (options : IteratorOptions)
    (earlier : List (Cursor.Call Bytes)) (key : Bytes), PrefixExact db options earlier key := by
  intro h
  let db : DB BTreeIndex :=
    { options := ⟨[], 0, false⟩, index := (Indexer.put (Indexer.create 0) [97, 49] ⟨0, 0, 0⟩).2 }
  obtain ⟨items, hitems, hrewind, -⟩ := h db { keyPrefix := [97], reverse := true } [] []
  have hvisited : db.visited { keyPrefix := [97], reverse := true } [.rewind] = some [] := by
    decide +kernel
  rw [List.nil_append, hvisited, Option.some_inj, eq_comm, List.filter_eq_nil_iff] at hrewind
  have hget : Indexer.toMap db.index [97, 49] = some ⟨0, 0, 0⟩ := by
    decide +kernel
  exact hrewind _ (((hitems.mem_ordered_iff true) _ _).2 hget) (by decide)

end Bitcask
