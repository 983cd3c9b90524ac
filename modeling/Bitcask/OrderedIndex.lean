import Mathlib.Logic.Function.Basic
import Bitcask.Library.Cursor
import Bitcask.Index

/-!
# Indexes in order

What all indexes offer besides being maps: their keys in order, and iterators over
them (`OrderedIndex`). The operations are as the code computes them, with pointers
that may not be there; the laws say that they are, and that the results are those of
a map whose keys are listed in ascending order. So the replies to any requests are
determined by the requests alone (`MapReplies.unique`), whatever the index.
-/

namespace Bitcask

/-! ## The contents of an index -/

/-- A key and its position. -/
abbrev Item := Bytes × LogRecordPos

/-- The map of an index. -/
abbrev Positions := Bytes → Option LogRecordPos

/-- A map that has no key. -/
def Positions.empty : Positions := fun _ => none

theorem Indexer.toMap_create {ι : Type} [Indexer ι] (seed : ℕ) :
    toMap (create seed : ι) = Positions.empty :=
  funext fun k => get_create seed k

theorem Indexer.toMap_put {ι : Type} [Indexer ι] (i : ι) (k : Bytes) (pos : LogRecordPos) :
    toMap (put i k pos).2 = Function.update (toMap i) k (some pos) := by
  funext k'
  rw [toMap, get_put, Function.update_apply]
  rfl

theorem Indexer.toMap_remove {ι : Type} [Indexer ι] (i : ι) (k : Bytes) :
    toMap (remove i k).2 = Function.update (toMap i) k none := by
  funext k'
  rw [toMap, get_remove, Function.update_apply]
  rfl

/-- The items of a map in the order of their keys. -/
structure Enumerates (items : List Item) (m : Positions) : Prop where
  sorted : SortedKeys (items.map Prod.fst)
  mem_iff : ∀ k pos, (k, pos) ∈ items ↔ m k = some pos

/-- The items in the order an iterator goes through them. -/
def ordered (reverse : Bool) (items : List Item) : List Item :=
  if reverse then items.reverse else items

/-- Whether an iterator that looks for a key stops at an item. -/
def reaches (reverse : Bool) (key : Bytes) (item : Item) : Bool :=
  if reverse then compare item.1 key ≠ .gt else compare item.1 key ≠ .lt

/-- The items from the first one on at which an iterator stops that looks for a key. -/
def landing (reverse : Bool) (all : List Item) (key : Bytes) : List Item :=
  all.dropWhile fun item => !reaches reverse key item

section Enumerates

variable {items items' : List Item} {m : Positions}

theorem Enumerates.nodup (h : Enumerates items m) : (items.map Prod.fst).Nodup :=
  h.sorted.imp fun hlt heq => by simp [heq] at hlt

theorem Enumerates.isSome_iff (h : Enumerates items m) (k : Bytes) :
    k ∈ items.map Prod.fst ↔ (m k).isSome := by
  rw [List.mem_map, Option.isSome_iff_exists]
  constructor
  · rintro ⟨⟨k, pos⟩, hmem, rfl⟩
    exact ⟨pos, (h.mem_iff k pos).1 hmem⟩
  · rintro ⟨pos, hpos⟩
    exact ⟨(k, pos), (h.mem_iff k pos).2 hpos, rfl⟩

/-- The items without one of them. -/
theorem Enumerates.erase {before after : List Item} {key : Bytes} {pos : LogRecordPos}
    (h : Enumerates (before ++ (key, pos) :: after) m) :
    Enumerates (before ++ after) (Function.update m key none) where
  sorted := h.sorted.sublist (((List.sublist_cons_self _ after).append_left before).map _)
  mem_iff k pos' := by
    have hnodup := h.nodup
    rw [List.map_append, List.map_cons, List.nodup_middle, List.nodup_cons, ← List.map_append]
      at hnodup
    rw [Function.update_apply]
    split
    · rename_i heq
      exact iff_of_false (fun hmem => hnodup.1 (List.mem_map.2 ⟨_, hmem, heq⟩)) nofun
    · rename_i hne
      rw [← h.mem_iff]
      simp [hne]

/-- The items with another one at its place. -/
theorem Enumerates.insert {before after : List Item} {key : Bytes} (pos : LogRecordPos)
    (h : Enumerates (before ++ after) m) (hbefore : ∀ item ∈ before, compare item.1 key = .lt)
    (hafter : ∀ item ∈ after, compare key item.1 = .lt) :
    Enumerates (before ++ (key, pos) :: after) (Function.update m key (some pos)) where
  sorted := by
    have hsorted := List.pairwise_map.1 h.sorted
    obtain ⟨hsorted₁, hsorted₂, hsorted₃⟩ := List.pairwise_append.1 hsorted
    refine List.pairwise_map.2 (List.pairwise_append.2 ⟨hsorted₁, ?_, fun item hitem => ?_⟩)
    · exact List.pairwise_cons.2 ⟨hafter, hsorted₂⟩
    · exact List.forall_mem_cons.2 ⟨hbefore item hitem, hsorted₃ item hitem⟩
  mem_iff k pos' := by
    rw [Function.update_apply]
    split
    · rename_i heq
      subst heq
      -- the key is neither before its place nor after it
      have hnot : (k, pos') ∉ before ++ after := by
        intro hmem
        rcases List.mem_append.1 hmem with hmem | hmem
        · simpa using hbefore _ hmem
        · simpa using hafter _ hmem
      rw [List.mem_append, not_or] at hnot
      simp [hnot.1, hnot.2, eq_comm]
    · rename_i hne
      rw [← h.mem_iff]
      simp [hne]

/-- The items with another position at one of the keys. -/
theorem Enumerates.set {before after : List Item} {key : Bytes} {old : LogRecordPos}
    (h : Enumerates (before ++ (key, old) :: after) m) (pos : LogRecordPos) :
    Enumerates (before ++ (key, pos) :: after) (Function.update m key (some pos)) := by
  have hsorted := List.pairwise_append.1 (List.pairwise_map.1 h.sorted)
  have herase := h.erase.insert pos
    (fun item hitem => hsorted.2.2 item hitem _ List.mem_cons_self)
    (List.pairwise_cons.1 hsorted.2.1).1
  rwa [Function.update_idem] at herase

/-- There is only one list of the items in order. -/
theorem Enumerates.unique (h : Enumerates items m) (h' : Enumerates items' m) : items = items' := by
  have : Std.Irrefl fun a b : Item => compare a.1 b.1 = .lt := ⟨fun a h => by simp at h⟩
  have : Std.Antisymm fun a b : Item => compare a.1 b.1 = .lt := by
    refine ⟨fun a b hab hba => ?_⟩
    rw [← Std.OrientedCmp.gt_iff_lt, hab] at hba
    cases hba
  refine (List.pairwise_map.1 h.sorted).eq_of_mem_iff (List.pairwise_map.1 h'.sorted) ?_
  rintro ⟨k, pos⟩
  rw [h.mem_iff, h'.mem_iff]

end Enumerates

/-- The items are split at a key. -/
structure ItemsSplitAt (key : Bytes) (before after : List Item) : Prop where
  before_lt : ∀ item ∈ before, compare item.1 key = .lt
  after_not_lt : ∀ item ∈ after, compare item.1 key ≠ .lt

/-- Items in order are split at any key. -/
theorem Enumerates.exists_split {items : List Item} {m : Positions} (h : Enumerates items m)
    (key : Bytes) : ∃ before after, items = before ++ after ∧ ItemsSplitAt key before after := by
  have hsorted := List.pairwise_map.1 h.sorted
  clear h
  induction items with
  | nil => exact ⟨[], [], rfl, nofun, nofun⟩
  | cons item items ih =>
    rw [List.pairwise_cons] at hsorted
    by_cases hlt : compare item.1 key = .lt
    · obtain ⟨before, after, rfl, hsplit⟩ := ih hsorted.2
      exact ⟨item :: before, after, rfl, List.forall_mem_cons.2 ⟨hlt, hsplit.before_lt⟩,
        hsplit.after_not_lt⟩
    · refine ⟨[], item :: items, rfl, nofun, List.forall_mem_cons.2 ⟨hlt, fun x hx hxlt => ?_⟩⟩
      exact hlt (Std.TransCmp.lt_trans (hsorted.1 x hx) hxlt)

/-- Looking for a key in items in order lands where they are split. -/
theorem ItemsSplitAt.landing_eq {before after : List Item} {key : Bytes}
    (h : ItemsSplitAt key before after) : landing false (before ++ after) key = after := by
  unfold landing reaches
  rw [List.dropWhile_append_of_pos fun item hitem => by simp [h.before_lt item hitem]]
  cases after with
  | nil => rfl
  | cons item rest =>
    have hhead := h.after_not_lt item List.mem_cons_self
    simp [hhead]

/-! ## Requests -/

/-- The operations of an index; a loop uses the items of a new iterator, from the
    first one to the end. -/
inductive IndexRequest
  | put (key : Bytes) (pos : LogRecordPos)
  | get (key : Bytes)
  | remove (key : Bytes)
  | size
  | listKeys
  | loop (reverse : Bool)
deriving DecidableEq, Repr

inductive IndexReply
  | position (pos : Option LogRecordPos)
  | removed (pos : Option LogRecordPos) (found : Bool)
  | number (n : ℕ)
  | keys (keys : List Bytes)
  | items (items : List Item)
deriving DecidableEq, Repr

/-- The map after a request. -/
def IndexRequest.update (m : Positions) : IndexRequest → Positions
  | put key pos => Function.update m key (some pos)
  | remove key => Function.update m key none
  | _ => m

/-- The map that some requests make. -/
def contents (requests : List IndexRequest) : Positions :=
  requests.foldl IndexRequest.update Positions.empty

/-- What an ordered map replies to a request. -/
inductive MapReply (m : Positions) : IndexRequest → IndexReply → Prop
  | put (key : Bytes) (pos : LogRecordPos) : MapReply m (.put key pos) (.position (m key))
  | get (key : Bytes) : MapReply m (.get key) (.position (m key))
  | remove (key : Bytes) : MapReply m (.remove key) (.removed (m key) (m key).isSome)
  | size {items : List Item} : Enumerates items m → MapReply m .size (.number items.length)
  | listKeys {items : List Item} :
      Enumerates items m → MapReply m .listKeys (.keys (items.map Prod.fst))
  | loop (reverse : Bool) {items : List Item} :
      Enumerates items m → MapReply m (.loop reverse) (.items (ordered reverse items))

/-- What an ordered map replies to one request after the other. -/
def MapReplies : Positions → List IndexRequest → List IndexReply → Prop
  | _, [], [] => True
  | m, r :: rs, reply :: replies => MapReply m r reply ∧ MapReplies (r.update m) rs replies
  | _, _, _ => False

theorem MapReply.unique {m : Positions} {r : IndexRequest} {reply reply' : IndexReply}
    (h : MapReply m r reply) (h' : MapReply m r reply') : reply = reply' := by
  cases h with
  | put | get | remove =>
    cases h'
    rfl
  | size h =>
    cases h' with
    | size h' => rw [h.unique h']
  | listKeys h =>
    cases h' with
    | listKeys h' => rw [h.unique h']
  | loop _ h =>
    cases h' with
    | loop _ h' => rw [h.unique h']

theorem MapReplies.unique {m : Positions} {requests : List IndexRequest}
    {replies replies' : List IndexReply} (h : MapReplies m requests replies)
    (h' : MapReplies m requests replies') : replies = replies' := by
  induction requests generalizing m replies replies' with
  | nil =>
    cases replies with
    | nil => cases replies' with
      | nil => rfl
      | cons => exact h'.elim
    | cons => exact h.elim
  | cons r rs ih =>
    cases replies with
    | nil => exact h.elim
    | cons reply replies =>
      cases replies' with
      | nil => exact h'.elim
      | cons reply' replies' => rw [h.1.unique h'.1, ih h.2 h'.2]

/-! ## Indexes -/

/-- An index and its iterators, as they are computed: `none` is a pointer that is not
    there. `Models` relates an index to its map, and the laws say what the operations
    do; `land` is where an iterator goes that looks for a key. -/
class OrderedIndex (ι : Type) (It : outParam Type) [Cursor It Bytes Item] where
  create : ℕ → ι
  put : ι → Bytes → LogRecordPos → Option (Option LogRecordPos × ι)
  get : ι → Bytes → Option (Option LogRecordPos)
  remove : ι → Bytes → Option ((Option LogRecordPos × Bool) × ι)
  size : ι → Option ℕ
  listKeys : ι → Option (List Bytes)
  iterator : ι → Bool → Option It
  Models : ι → Positions → Prop
  land : Bool → List Item → Bytes → List Item
  models_create (seed : ℕ) : Models (create seed) Positions.empty
  put_eq {i : ι} {m : Positions} (h : Models i m) (k : Bytes) (pos : LogRecordPos) :
    ∃ i', put i k pos = some (m k, i') ∧ Models i' (Function.update m k (some pos))
  get_eq {i : ι} {m : Positions} (h : Models i m) (k : Bytes) : get i k = some (m k)
  remove_eq {i : ι} {m : Positions} (h : Models i m) (k : Bytes) :
    ∃ i', remove i k = some ((m k, (m k).isSome), i') ∧ Models i' (Function.update m k none)
  items_eq {i : ι} {m : Positions} (h : Models i m) :
    ∃ items, Enumerates items m ∧ size i = some items.length ∧
      listKeys i = some (items.map Prod.fst) ∧ ∀ reverse, ∃ (At : It → List Item → Prop) (c : It),
        iterator i reverse = some c ∧ At c (ordered reverse items) ∧
        Cursor.Represents At (ordered reverse items) (land reverse (ordered reverse items))

namespace OrderedIndex

variable {ι It : Type} [Cursor It Bytes Item] [OrderedIndex ι It] {i : ι} {m : Positions}

def step (i : ι) : IndexRequest → Option (IndexReply × ι)
  | .put key pos => do
    let (old, i) ← put i key pos
    return (.position old, i)
  | .get key => do return (.position (← get i key), i)
  | .remove key => do
    let ((old, found), i) ← remove i key
    return (.removed old found, i)
  | .size => do return (.number (← size i), i)
  | .listKeys => do return (.keys (← listKeys i), i)
  | .loop reverse => do
    let c ← Cursor.rewind (← iterator i reverse)
    return (.items (← Cursor.visit (← size i) c), i)

/-- The replies to some requests, and the index after them. -/
def run : ι → List IndexRequest → Option (List IndexReply × ι)
  | i, [] => some ([], i)
  | i, r :: rs => do
    let (reply, i) ← step i r
    let (replies, i) ← run i rs
    return (reply :: replies, i)

/-- A request is replied to as by the map. -/
theorem step_eq (h : Models i m) (r : IndexRequest) :
    ∃ reply i', step i r = some (reply, i') ∧ MapReply m r reply ∧ Models i' (r.update m) := by
  cases r with
  | put key pos =>
    obtain ⟨i', hput, h'⟩ := put_eq h key pos
    exact ⟨_, i', by simp [step, hput], .put key pos, h'⟩
  | get key => exact ⟨_, i, by simp [step, get_eq h], .get key, h⟩
  | remove key =>
    obtain ⟨i', hremove, h'⟩ := remove_eq h key
    exact ⟨_, i', by simp [step, hremove], .remove key, h'⟩
  | size =>
    obtain ⟨items, hitems, hsize, -, -⟩ := items_eq h
    exact ⟨_, i, by simp [step, hsize], .size hitems, h⟩
  | listKeys =>
    obtain ⟨items, hitems, -, hkeys, -⟩ := items_eq h
    exact ⟨_, i, by simp [step, hkeys], .listKeys hitems, h⟩
  | loop reverse =>
    obtain ⟨items, hitems, hsize, -, hiterator⟩ := items_eq h
    obtain ⟨At, c, hc, hat, hrepresents⟩ := hiterator reverse
    obtain ⟨c', hrewind, hat'⟩ := hrepresents.rewind c _ hat
    have hlength : (ordered reverse items).length ≤ items.length := by
      unfold ordered
      split <;> simp
    have hvisit := hrepresents.visit_eq hat' hlength
    exact ⟨_, i, by simp [step, hc, hrewind, hsize, hvisit], .loop reverse hitems, h⟩

theorem run_eq (h : Models i m) (requests : List IndexRequest) :
    ∃ replies i', run i requests = some (replies, i') ∧ MapReplies m requests replies ∧
      Models i' (requests.foldl IndexRequest.update m) := by
  induction requests generalizing i m with
  | nil => exact ⟨[], i, rfl, trivial, h⟩
  | cons r rs ih =>
    obtain ⟨reply, i', hstep, hreply, h'⟩ := step_eq h r
    obtain ⟨replies, i'', hrun, hreplies, h''⟩ := ih h'
    exact ⟨reply :: replies, i'', by simp [run, hstep, hrun], ⟨hreply, hreplies⟩, h''⟩

/-- What an iterator over the index reads that some requests have made, when it is new
    and after every call. -/
def readAfter (ι : Type) {It : Type} [Cursor It Bytes Item] [OrderedIndex ι It] (seed : ℕ)
    (requests : List IndexRequest) (reverse : Bool) (calls : List (Cursor.Call Bytes)) :
    Option (List (Option Item)) := do
  let (_, i) ← run (create seed : ι) requests
  Cursor.trace (← iterator i reverse) calls

/-- The items an iterator has ahead depend only on where the index lets it land. -/
theorem readAfter_eq (ι : Type) {It : Type} [Cursor It Bytes Item] [OrderedIndex ι It] (seed : ℕ)
    {requests : List IndexRequest} {items : List Item}
    (hitems : Enumerates items (contents requests)) (reverse : Bool)
    (calls : List (Cursor.Call Bytes)) :
    readAfter ι seed requests reverse calls = some (Cursor.readings (ordered reverse items)
      (land ι reverse (ordered reverse items)) (ordered reverse items) calls) := by
  obtain ⟨replies, i, hrun, -, h⟩ := run_eq (models_create (ι := ι) seed) requests
  obtain ⟨items', hitems', -, -, hiterator⟩ := items_eq h
  obtain rfl := hitems.unique hitems'
  obtain ⟨At, c, hc, hat, hrepresents⟩ := hiterator reverse
  simp [readAfter, hrun, hc, hrepresents.trace_eq hat]

end OrderedIndex

end Bitcask
