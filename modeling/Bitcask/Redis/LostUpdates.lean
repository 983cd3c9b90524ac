import Bitcask.Redis.Clients

/-!
# Lost updates

Of two clients that add elements to one collection, one loses its element when both
are new and neither operation is over before the other starts, and in no other case:
a list cannot be popped as often as it has been pushed to, and
a hash or a set has more fields or members than its metadata counts.
-/

namespace Bitcask.Redis

/-! ## Pushes -/

/-- An element pushed to the front or to the back of a list. -/
inductive Push
  | front (element : Bytes)
  | back (element : Bytes)
deriving DecidableEq, Repr

namespace Push

def element : Push → Bytes
  | front element => element
  | back element => element

def listRequest : Push → ListRequest
  | front element => .lpush element
  | back element => .rpush element

def request (key : Bytes) (push : Push) : Request := push.listRequest.toRequest key

/-- What a push stores that finds `n` elements from the index `head` on. -/
def addition (key : Bytes) (version head : UInt64) (n : ℕ) : Push → Addition
  | front element => ⟨elementKey key version (head - 1), element,
      listMetadata version (head - 1) (n + 1)⟩
  | back element => ⟨elementKey key version (head + .ofNat n), element,
      listMetadata version head (n + 1)⟩

variable {key : Bytes} {version head : UInt64} {n : ℕ}

theorem entry_addition_ne (push : Push) : (push.addition key version head n).entry ≠ key := by
  cases push <;> exact elementKey_ne _ _ _

theorem follows_pushElement (key element : Bytes) (index : UInt64) (m : RedisMetadata) :
    (pushElement key element index m >>= fun size => pure (Reply.number size)).Follows
      [⟨.put (elementKey key m.version index) element, .ok ()⟩, ⟨.put key m.encode, .ok ()⟩]
      (.ok (.number m.size)) :=
  ⟨_, rfl, _, rfl, rfl⟩

theorem follows (push : Push) (hn : n < 2 ^ 32) (hne : n ≠ 0) :
    (push.request key).operation.Follows ((push.addition key version head n).script key
      (listMetadata version head n).encode false) (.ok (.number (.ofNat (n + 1)))) := by
  have hmarked : (listMetadata version head n).marked = listMetadata version head n :=
    marked_listMetadata hn (absurd · hne)
  have hreply : onReply key .list (.ok (listMetadata version head n).encode) =
      .pure (listMetadata version head n) :=
    onReply_lasting (RedisMetadata.decode_encode (listMetadata version head n)) rfl rfl
  cases push with
  | front element =>
    refine ⟨_, rfl, ?_⟩
    show ((onReply key .list (.ok _) >>= _) >>= _).Follows _ _
    rw [hreply, Program.pure_bind, hmarked, pushFront_listMetadata]
    exact follows_pushElement key element (head - 1) (listMetadata version (head - 1) (n + 1))
  | back element =>
    refine ⟨_, rfl, ?_⟩
    show ((onReply key .list (.ok _) >>= _) >>= _).Follows _ _
    rw [hreply, Program.pure_bind, hmarked, pushBack_listMetadata]
    exact follows_pushElement key element (head + .ofNat n) (listMetadata version head (n + 1))

/-- A push to a list that is there makes three requests. -/
theorem cost_le (push : Push) {s : MapDB}
    (hbytes : s.entries[key]? = some (listMetadata version head n).encode) :
    (push.request key).operation.cost MapDB.handle s ≤ turns false := by
  have hreply : onReply key .list (.ok (listMetadata version head n).encode) =
      .pure (listMetadata version head n) :=
    onReply_lasting (RedisMetadata.decode_encode (listMetadata version head n)) rfl rfl
  have hcost (f : RedisMetadata → Operation UInt32) :
      (findMetadata key .list >>= f >>= fun size => pure (Reply.number size)).cost MapDB.handle s =
        (f (listMetadata version head n) >>= fun size => pure (Reply.number size)).cost
          MapDB.handle s + 1 := by
    show Program.cost _ ((onReply key .list (MapDB.handle (.get key) s).1 >>= f) >>= _)
      (MapDB.handle (.get key) s).2 + 1 = _
    rw [MapDB.handle_get_of_some hbytes, hreply]
    rfl
  cases push with
  | front element =>
    refine (hcost _).le.trans ?_
    exact le_rfl
  | back element =>
    refine (hcost _).le.trans ?_
    exact le_rfl

/-- Storing the element of a push gives a queue with one element more. -/
theorem elements_addition {entries : Entries} {q : List Bytes} (push : Push)
    (h : Elements entries key version head q) (hq : q.length + 1 < 2 ^ 32) (value : Bytes) :
    ∃ head' q', q'.length = q.length + 1 ∧
      (push.addition key version head q.length).metadata =
        listMetadata version head' (q.length + 1) ∧
      Elements (entries.insert (push.addition key version head q.length).entry value) key version
        head' q' := by
  cases push with
  | front element => exact ⟨_, value :: q, rfl, rfl, h.cons hq⟩
  | back element => exact ⟨_, q ++ [value], List.length_append, rfl, h.concat hq⟩

/-- The indices of a queue with one element more are not those of other pushes. -/
theorem entry_addition_ne_elementKey {head' : UInt64} {i n : ℕ} (push push' : Push)
    (hmetadata : (push.addition key version head n).metadata = listMetadata version head' (n + 1))
    (hi : i < n + 1) (hn : n + 2 < 2 ^ 32)
    (hne : (push'.addition key version head n).entry ≠ (push.addition key version head n).entry) :
    elementKey key version (head' + .ofNat i) ≠ (push'.addition key version head n).entry := by
  have hhead := congrArg RedisMetadata.head hmetadata
  cases push <;> cases push' <;> simp only [addition, ne_eq, not_true_eq_false] at hne <;>
    simp only [addition, listMetadata] at hhead <;> subst hhead <;>
    simp only [addition, ne_eq, elementKey_inj]
  · have hlast : head + .ofNat n = head - 1 + .ofNat (n + 1) := by
      rw [index_succ, UInt64.sub_add_cancel]
    rw [hlast, index_inj (by omega) (by omega)]
    omega
  · have hindex : head + .ofNat i = head - 1 + .ofNat (i + 1) := by
      rw [index_succ, UInt64.sub_add_cancel]
    rw [hindex, index_eq_first (by omega)]
    exact Nat.succ_ne_zero i

end Push

/-- Overlapping pushes leave a queue with only one element more. -/
theorem Overlapped.exists_holds {db : MapDB} {q : List Bytes} {version head : UInt64}
    {push : Bool → Push} {bytes : Bytes} {entries : Entries} {n : ℕ}
    (h : Overlapped db.entries key bytes
      (fun client => (push client).addition key version head q.length) n (fun _ => n) entries)
    (helements : Elements db.entries key version head q) (hq : q.length + 2 < 2 ^ 32) :
    ∃ q', q'.length = q.length + 1 ∧ Holds entries key q' := by
  obtain ⟨client, hmetadata⟩ := h.counted ⟨true, le_rfl⟩
  obtain ⟨value, hvalue⟩ := Option.isSome_iff_exists.1 (h.stored client (Nat.le_succ _))
  obtain ⟨head', q', hlength, hm, helements⟩ := (push client).elements_addition helements
    (by omega) value
  simp only [hm] at hmetadata
  refine ⟨q', hlength, .mk hlength hmetadata (helements.congr fun i hi => ?_)⟩
  rw [Entries.getElem?_insert]
  split
  · rename_i heq
    rw [heq, hvalue]
  · rename_i hne
    refine h.others _ (elementKey_ne _ _ _) fun client' _ => ?_
    rcases Bool.eq_or_eq_not client' client with rfl | rfl
    · exact hne
    · by_cases heq : ((push (!client)).addition key version head q.length).entry =
          ((push client).addition key version head q.length).entry
      · rw [heq]
        exact hne
      · exact Push.entry_addition_ne_elementKey _ _ hm (by omega) hq heq

/-! ## What is left -/

/-- What `n` pops of a list return. -/
def popAll (entries : Entries) (key : Bytes) (n : ℕ) (clock : Clock) : List (Except Exn Reply) :=
  (Machine.run serve entries (listCalls key (List.replicate n (.lpop, clock)))).2

/-- The results of pops that return all of some elements. -/
def popped (q : List Bytes) : List (Except Exn Reply) := q.map fun a => .ok (.text a)

theorem Deque.run_lpop (q : List Bytes) (n : ℕ) :
    (Machine.run Deque.step q (List.replicate n .lpop)).2 =
      popped (q.take n) ++ List.replicate (n - q.length) (.error .keyNotFound) := by
  induction n generalizing q with
  | zero => simp [Machine.run, popped]
  | succ n ih =>
    cases q with
    | nil => simpa [List.replicate_succ, Machine.run, Deque.step, popped] using ih []
    | cons a q => simpa [List.replicate_succ, Machine.run, Deque.step, popped] using ih q

theorem Deque.bounded_lpop {q : List Bytes} (hq : q.length < 2 ^ 32) (n : ℕ) :
    Deque.Bounded q (List.replicate n .lpop) := by
  induction n generalizing q with
  | zero => trivial
  | succ n ih =>
    cases q with
    | nil => exact ⟨hq, ih hq⟩
    | cons a q => exact ⟨Nat.lt_of_succ_lt hq, ih (Nat.lt_of_succ_lt hq)⟩

/-- Pops return the elements of the queue that is held. -/
theorem Holds.popAll {entries : Entries} {key : Bytes} {q : List Bytes} (h : Holds entries key q)
    (hq : q.length < 2 ^ 32) (n : ℕ) (clock : Clock) :
    popAll entries key n clock =
      popped (q.take n) ++ List.replicate (n - q.length) (.error .keyNotFound) := by
  have hbounded := Deque.bounded_lpop hq n
  rw [Redis.popAll, h.run_calls hq (by rwa [List.map_replicate]), List.map_replicate,
    Deque.run_lpop]

/-- As many pops as a queue has elements return all of them, and one more throws. -/
theorem Holds.popAll_perm_iff {entries : Entries} {key : Bytes} {q q' : List Bytes} {n : ℕ}
    (h : Holds entries key q) (hq : q.length < 2 ^ 32) (clock : Clock)
    (hperm : n = q.length → q.Perm q') (hle : q.length ≤ n) :
    (Redis.popAll entries key n clock).Perm (popped q') ↔ n = q.length := by
  rw [h.popAll hq]
  constructor
  · intro hall
    -- a pop that throws is none that returns an element
    by_contra hne
    have hmem : (.error .keyNotFound : Except Exn Reply) ∈
        popped (q.take n) ++ List.replicate (n - q.length) (.error .keyNotFound) :=
      List.mem_append_right _ (List.mem_replicate.2 ⟨by omega, rfl⟩)
    obtain ⟨a, -, ha⟩ := List.mem_map.1 (hall.mem_iff.1 hmem)
    cases ha
  · intro hlength
    rw [hlength, Nat.sub_self, List.take_length, List.replicate_zero, List.append_nil]
    exact (hperm hlength).map _

/-- Pushes one after the other leave a queue with both elements. -/
theorem Push.holds_step {entries : Entries} {key : Bytes} {q : List Bytes} (push : Push)
    (h : Holds entries key q) (hq : q.length + 1 < 2 ^ 32) (clock : Clock) :
    ∃ q', q'.Perm (push.element :: q) ∧
      Holds (serve entries ⟨push.request key, clock⟩).1 key q' := by
  have hpush : (Deque.step q push.listRequest).1.Perm (push.element :: q) := by
    cases push with
    | front element => exact .refl _
    | back element => exact List.perm_append_comm
  refine ⟨_, hpush, (h.serve push.listRequest clock (Nat.lt_of_succ_lt hq) ?_).2⟩
  rw [hpush.length_eq]
  exact hq

/-- All elements can be popped if and only if one push is over before the other starts. -/
theorem popAll_perm_iff {db : MapDB} {key : Bytes} {q : List Bytes} (hne : q ≠ [])
    (h : Holds db.entries key q) (hq : q.length + 2 < 2 ^ 32) {push : Bool → Push}
    {schedule : List Bool}
    (hreturned : ((Server.start db fun client => (push client).request key).run
      schedule).Returned) (clock : Clock) :
    (popAll ((Server.start db fun client => (push client).request key).run schedule).entries key
        (q.length + 2) clock).Perm
      (popped ((push false).element :: (push true).element :: q)) ↔ Serial (turns false) schedule := by
  obtain ⟨version, head, hmetadata, helements⟩ : ∃ version head,
      db.entries[key]? = some (listMetadata version head q.length).encode ∧
        Elements db.entries key version head q := by
    cases q with
    | nil => exact absurd rfl hne
    | cons a q => exact h
  have hlength : q.length ≠ 0 := fun h0 => hne (List.length_eq_zero_iff.1 h0)
  by_cases hserial : Serial (turns false) schedule
  · -- The list holds both elements, so it can be popped twice more.
    obtain ⟨client, hclient⟩ := hserial
    obtain ⟨clock', hentries⟩ := Server.entries_run_of_serial hclient
      ((push client).cost_le hmetadata) hreturned
    obtain ⟨q₁, hperm₁, h₁⟩ := (push client).holds_step h (by omega) db.clock
    obtain ⟨q₂, hperm₂, h₂⟩ := (push (!client)).holds_step h₁
      (by rw [hperm₁.length_eq, List.length_cons]; omega) clock'
    have hperm : q₂.Perm ((push false).element :: (push true).element :: q) := by
      refine hperm₂.trans ((hperm₁.cons _).trans ?_)
      cases client with
      | false => exact .swap _ _ _
      | true => exact .refl _
    have hlength : q₂.length = q.length + 2 := hperm.length_eq
    rw [hentries]
    refine (h₂.popAll_perm_iff (by omega) clock (fun _ => hperm) hlength.le).trans ?_
    exact iff_of_true hlength.symm ⟨client, hclient⟩
  · -- Both have read the metadata before either writes it: the size grows by one only.
    have hfollows client : ((push client).request key).operation.Follows
        (((push client).addition key version head q.length).script key
          (listMetadata version head q.length).encode false)
        (.ok (.number (.ofNat (q.length + 1)))) :=
      (push client).follows (by omega) hlength
    have hoverlapped := overlapped_of_returned hfollows hmetadata (fun client => (push client).entry_addition_ne) nofun hserial hreturned
    obtain ⟨q', hlength', hq'⟩ := hoverlapped.exists_holds helements hq
    have hshort : q.length + 2 ≠ q'.length := by omega
    refine (hq'.popAll_perm_iff (by omega) clock (absurd · hshort) (by omega)).trans ?_
    exact iff_of_false hshort hserial

/-! ## Fields and members -/

/-- The field or member a request adds to a hash or a set. -/
def Request.field? : Request → Option Bytes
  | hset _ field _ => some field
  | sadd _ member => some member
  | _ => none

/-- An operation that finds a collection, looks for an element of it, and goes on
    with the reply: the element is stored, and counted if it was not there. -/
structure AddsField (key field value : Bytes) (dataType : RedisDataType) (p : Operation Reply)
    (rest : RedisMetadata → Except Exn Bytes → Operation Reply) : Prop where
  operation_eq : p = findMetadata key dataType >>= fun m =>
    .request (.get (internalKey key m.version field)) (rest m)
  rest_absent : ∀ m, rest m (.error .keyNotFound) = do
    DB.put (internalKey key m.version field) value
    DB.put key { m with size := m.size + 1 }.encode
    return .flag true
  rest_stored : ∀ m old, rest m (.ok old) = pure (.flag false) ∨
    rest m (.ok old) = do
      DB.put (internalKey key m.version field) value
      return .flag false

/-- Whether an element is there, by the reply to a request for it. -/
def isStored (reply : Except Exn Bytes) : Operation Bool :=
  catchKeyNotFound (do let _ ← ofReply reply; return true) (return false)

theorem Request.exists_addsField {r : Request} {field : Bytes} {dataType : RedisDataType}
    (hfield : r.field? = some field) (htype : r.dataType? = some dataType) :
    ∃ value rest, AddsField r.key field value dataType r.operation rest := by
  cases r <;> simp only [field?, Option.some.injEq, reduceCtorEq] at hfield <;> cases htype <;>
    subst hfield
  case hset key field value =>
    let rest (m : RedisMetadata) (reply : Except Exn Bytes) : Operation Bool := do
      let fieldExists ← isStored reply
      DB.put (internalKey key m.version field) value
      if !fieldExists then
        DB.put key { m with size := m.size + 1 }.encode
      return !fieldExists
    refine ⟨value, fun m reply => do return .flag (← rest m reply), ?_, ?_, ?_⟩
    · exact Program.bind_assoc (findMetadata key .hash) _ _
    · intro m
      show (DB.put _ value >>= fun _ => DB.put key _ >>= fun _ => pure true) >>= _ = _
      simp only [Program.bind_assoc]
      rfl
    · intro m old
      exact .inr (Program.bind_assoc (DB.put _ value) (fun _ => pure false) _)
  case sadd key member =>
    let rest (m : RedisMetadata) (reply : Except Exn Bytes) : Operation Bool := do
      if ← isStored reply then
        return false
      else
        DB.put (internalKey key m.version member) []
        DB.put key { m with size := m.size + 1 }.encode
        return true
    refine ⟨[], fun m reply => do return .flag (← rest m reply), ?_, ?_, ?_⟩
    · exact Program.bind_assoc (findMetadata key .set) _ _
    · intro m
      show (DB.put _ [] >>= fun _ => DB.put key _ >>= fun _ => pure true) >>= _ = _
      simp only [Program.bind_assoc]
      rfl
    · intro m old
      exact .inl rfl

/-- The metadata that counts one element more. -/
def RedisMetadata.grown (m : RedisMetadata) : RedisMetadata := { m with size := m.size + 1 }

/-- An operation that has only to count the element it has stored. -/
def counting (key : Bytes) (m : RedisMetadata) : Operation Reply := do
  DB.put key m.grown.encode
  return .flag true

/-- An element that was stored, or is the one that has been added. -/
def InPlace (entries₀ : Entries) (x : Bytes) (added : Prop) (e : Bytes) : Prop :=
  entries₀[e]?.isSome ∨ e = x ∧ added

/-- What is left of the operation `p`, which adds the element `e`: no element but `x`
    is new, and `added` says that it has been stored. -/
inductive Adding (entries₀ : Entries) (key x e value : Bytes) (m : RedisMetadata)
    (p : Operation Reply) (rest : RedisMetadata → Except Exn Bytes → Operation Reply)
    (added : Prop) : Operation Reply → Prop
  | start : Adding entries₀ key x e value m p rest added p
  | check : Adding entries₀ key x e value m p rest added (.request (.get e) (rest m))
  | recheck : added →
      Adding entries₀ key x e value m p rest added (.request (.get e) (rest m.grown.stored))
  | store : e = x → entries₀[x]? = none → Adding entries₀ key x e value m p rest added (do
      DB.put e value
      counting key m)
  | count : e = x → added → Adding entries₀ key x e value m p rest added (counting key m)
  | replace : InPlace entries₀ x added e → Adding entries₀ key x e value m p rest added (do
      DB.put e value
      return .flag false)
  | done (reply : Reply) : InPlace entries₀ x added e →
      Adding entries₀ key x e value m p rest added (.pure reply)

theorem InPlace.mono {entries₀ : Entries} {x e : Bytes} {added added' : Prop}
    (h : InPlace entries₀ x added e) (hadded : added → added') : InPlace entries₀ x added' e :=
  h.imp_right (And.imp_right hadded)

theorem Adding.mono {entries₀ : Entries} {key x e value : Bytes} {m : RedisMetadata}
    {p q : Operation Reply} {rest : RedisMetadata → Except Exn Bytes → Operation Reply}
    {added added' : Prop} (h : Adding entries₀ key x e value m p rest added q)
    (hadded : added → added') : Adding entries₀ key x e value m p rest added' q := by
  cases h with
  | start => exact .start
  | check => exact .check
  | recheck h => exact .recheck (hadded h)
  | store he hx => exact .store he hx
  | count he h => exact .count he (hadded h)
  | replace h => exact .replace (h.mono hadded)
  | done reply h => exact .done reply (h.mono hadded)

/-- Two operations that add elements of which at most one, `x`, is new: it is counted,
    or one of them is about to count it. -/
structure OneNew (entries₀ : Entries) (key bytes x : Bytes) (field value : Bool → Bytes)
    (m : RedisMetadata) (p : Bool → Operation Reply)
    (rest : Bool → RedisMetadata → Except Exn Bytes → Operation Reply) (added : Prop) (t : Server) :
    Prop where
  stored : ∀ y ≠ key, t.entries[y]?.isSome ↔ InPlace entries₀ x added y
  new : added → entries₀[x]? = none
  metadata : t.entries[key]? = some bytes ∧ (added → ∃ client, t.program client = counting key m) ∨
    t.entries[key]? = some m.grown.encode ∧ added
  programs : ∀ client, Adding entries₀ key x (internalKey key m.version (field client))
    (value client) m (p client) (rest client) added (t.program client)

section OneNew

variable {entries₀ : Entries} {key bytes x : Bytes} {field value : Bool → Bytes}
  {m : RedisMetadata} {p : Bool → Operation Reply} {dataType : RedisDataType}
  {rest : Bool → RedisMetadata → Except Exn Bytes → Operation Reply} {added added' : Prop}
  {t : Server} {i : Bool}

/-- A client that has made a request goes on. -/
theorem OneNew.programs_step (h : OneNew entries₀ key bytes x field value m p rest added t)
    {c : Command} {f : c.Reply → Operation Reply} (hp : t.program i = .request c f)
    (hadded : added → added')
    (hf : Adding entries₀ key x (internalKey key m.version (field i)) (value i) m (p i) (rest i)
      added' (f (MapDB.handle c t.state).1)) (client : Bool) :
    Adding entries₀ key x (internalKey key m.version (field client)) (value client) m (p client)
      (rest client) added' ((t.step MapDB.handle i).program client) := by
  rcases eq_or_ne client i with rfl | hne
  · rw [Threads.program_step_self hp]
    exact hf
  · rw [Threads.program_step_of_ne hne]
    exact (h.programs client).mono hadded

/-- A client that is not about to count the new element leaves that to the other. -/
theorem OneNew.metadata_step (h : OneNew entries₀ key bytes x field value m p rest added t)
    (hp : t.program i ≠ counting key m)
    (hkey : (t.step MapDB.handle i).state.entries[key]? = t.state.entries[key]?) :
    (t.step MapDB.handle i).state.entries[key]? = some bytes ∧
        (added → ∃ client, (t.step MapDB.handle i).program client = counting key m) ∨
      (t.step MapDB.handle i).state.entries[key]? = some m.grown.encode ∧ added := by
  rw [hkey]
  refine h.metadata.imp_left (And.imp_right fun hpending hadded => ?_)
  obtain ⟨client, hclient⟩ := hpending hadded
  refine ⟨client, ?_⟩
  rw [Threads.program_step_of_ne, hclient]
  rintro rfl
  exact hp hclient

/-- A request that writes nothing. -/
theorem OneNew.read (h : OneNew entries₀ key bytes x field value m p rest added t)
    {y : Bytes} {f : Except Exn Bytes → Operation Reply} (hp : t.program i = .request (.get y) f)
    (hf : Adding entries₀ key x (internalKey key m.version (field i)) (value i) m (p i) (rest i)
      added (f (MapDB.handle (.get y) t.state).1)) :
    OneNew entries₀ key bytes x field value m p rest added (t.step MapDB.handle i) := by
  have hstate : (t.step MapDB.handle i).state = t.state := by
    rw [Threads.step_of_request hp]
    cases hy : t.state.entries[y]? with
    | none => rw [MapDB.handle_get_of_none hy]
    | some old => rw [MapDB.handle_get_of_some hy]
  refine ⟨?_, h.new, h.metadata_step ?_ (by rw [hstate]), h.programs_step hp id hf⟩
  · rw [Server.entries, hstate]
    exact h.stored
  · rw [hp]
    intro heq
    cases (Program.request.inj heq).1

/-- A request that stores an element. -/
theorem OneNew.write (h : OneNew entries₀ key bytes x field value m p rest added t) {e v : Bytes}
    {q : Operation Reply} (hp : t.program i = (do DB.put e v; q)) (he : e ≠ key)
    (hplace : InPlace entries₀ x added' e) (hadded : added → added')
    (hnew : added' → added ∨ e = x ∧ entries₀[x]? = none)
    (hpending : added' → added ∨ q = counting key m)
    (hq : Adding entries₀ key x (internalKey key m.version (field i)) (value i) m (p i) (rest i)
      added' q) :
    OneNew entries₀ key bytes x field value m p rest added' (t.step MapDB.handle i) := by
  have hstate : (t.step MapDB.handle i).state.entries = t.state.entries.insert e v := by
    rw [Threads.step_of_request hp]
    rfl
  have hself : (t.step MapDB.handle i).program i = q := Threads.program_step_self hp
  have hother : t.program i ≠ counting key m := by
    rw [hp]
    intro heq
    exact he (Command.put.inj (Program.request.inj heq).1).1
  have hkey : (t.step MapDB.handle i).state.entries[key]? = t.state.entries[key]? := by
    rw [hstate, Entries.getElem?_insert, if_neg he.symm]
  constructor
  · intro y hy
    rw [Server.entries, hstate, Entries.getElem?_insert]
    split
    · rename_i hye
      exact iff_of_true rfl (hye ▸ hplace)
    · rename_i hye
      refine (h.stored y hy).trans ⟨fun h => h.mono hadded, Or.imp_right ?_⟩
      rintro ⟨rfl, ha⟩
      rcases hnew ha with ha | ⟨hex, -⟩
      · exact ⟨rfl, ha⟩
      · exact absurd hex.symm hye
  · intro ha
    exact (hnew ha).elim h.new And.right
  · rcases h.metadata_step hother hkey with ⟨hbytes, hleft⟩ | ⟨hgrown, ha⟩
    · refine .inl ⟨hbytes, fun ha => ?_⟩
      rcases hpending ha with ha | rfl
      · exact hleft ha
      · exact ⟨i, hself⟩
    · exact .inr ⟨hgrown, hadded ha⟩
  · exact h.programs_step hp hadded hq

/-- The request that stores the metadata. -/
theorem OneNew.count (h : OneNew entries₀ key bytes x field value m p rest added t) (ha : added)
    (hp : t.program i = counting key m) (hx : internalKey key m.version (field i) = x) :
    OneNew entries₀ key bytes x field value m p rest added (t.step MapDB.handle i) := by
  have hstate : (t.step MapDB.handle i).state.entries =
      t.state.entries.insert key m.grown.encode := by
    rw [Threads.step_of_request hp]
    rfl
  refine ⟨?_, h.new, .inr ⟨?_, ha⟩, h.programs_step hp id (.done _ (.inr ⟨hx, ha⟩))⟩
  · intro y hy
    rw [Server.entries, hstate, Entries.getElem?_insert, if_neg hy]
    exact h.stored y hy
  · rw [Server.entries, hstate, Entries.getElem?_insert, if_pos rfl]

theorem toNat_size_grown (hroom : m.size.toNat + 1 < 2 ^ 32) :
    m.grown.size.toNat = m.size.toNat + 1 := by
  rw [RedisMetadata.grown, UInt32.toNat_add]
  exact Nat.mod_eq_of_lt hroom

theorem dataType_grown_stored : m.grown.stored.dataType = m.dataType := m.grown.dataType_stored

theorem version_grown_stored : m.grown.stored.version = m.version := m.grown.version_stored

/-- What is left of an operation that has found its element. -/
theorem Adding.of_rest_stored (hadds : AddsField key (field i) (value i) dataType (p i) (rest i))
    {m' : RedisMetadata} {old : Bytes} (hversion : m'.version = m.version)
    (hplace : InPlace entries₀ x added (internalKey key m.version (field i))) :
    Adding entries₀ key x (internalKey key m.version (field i)) (value i) m (p i) (rest i) added
      (rest i m' (.ok old)) := by
  rcases hadds.rest_stored m' old with hrest | hrest
  · rw [hrest]
    exact .done _ hplace
  · rw [hrest, hversion]
    exact .replace hplace

theorem OneNew.inPlace (h : OneNew entries₀ key bytes x field value m p rest added t) {old : Bytes}
    (hold : t.state.entries[internalKey key m.version (field i)]? = some old) :
    InPlace entries₀ x added (internalKey key m.version (field i)) :=
  (h.stored _ (internalKey_ne _ _ _)).1 (Option.isSome_of_eq_some hold)

/-- Every step leaves at most one element new, counted or about to be. -/
theorem OneNew.step (hadds : ∀ client, AddsField key (field client) (value client) m.dataType
      (p client) (rest client)) (hm : RedisMetadata.decode bytes = .ok m) (hexpire : m.expire = 0)
    (hx : ∀ client, entries₀[internalKey key m.version (field client)]?.isSome ∨
      internalKey key m.version (field client) = x)
    (h : OneNew entries₀ key bytes x field value m p rest added t) (i : Bool) :
    ∃ added' : Prop, OneNew entries₀ key bytes x field value m p rest added'
      (t.step MapDB.handle i) := by
  have hne := internalKey_ne key m.version (field i)
  generalize hq : t.program i = q
  have hi := h.programs i
  rw [hq] at hi
  -- Where the program is decides what its next request can do.
  cases hi with
  | start =>
    refine ⟨added, h.read (hq.trans (hadds i).operation_eq) ?_⟩
    show Adding _ _ _ _ _ _ _ _ _ (onReply key m.dataType _ >>= _)
    rcases h.metadata with ⟨hbytes, -⟩ | ⟨hgrown, ha⟩
    · rw [MapDB.handle_get_of_some hbytes, onReply_lasting hm rfl hexpire]
      exact .check
    · rw [MapDB.handle_get_of_some hgrown, onReply_lasting m.grown.decode_encode
        dataType_grown_stored (m.grown.expire_stored.trans hexpire)]
      show Adding _ _ _ _ _ _ _ _ _
        (.request (.get (internalKey key m.grown.stored.version (field i))) _)
      rw [version_grown_stored]
      exact .recheck ha
  | check =>
    refine ⟨added, h.read hq ?_⟩
    cases hold : t.state.entries[internalKey key m.version (field i)]? with
    | some old =>
      rw [MapDB.handle_get_of_some hold]
      exact .of_rest_stored (hadds i) rfl (h.inPlace hold)
    | none =>
      rw [MapDB.handle_get_of_none hold, (hadds i).rest_absent]
      have hplace : ¬InPlace entries₀ x added (internalKey key m.version (field i)) := by
        rw [← h.stored _ hne, Server.entries, hold]
        exact Bool.false_ne_true
      -- It was not there at first either, so it is the element that is new.
      have hex := (hx i).resolve_left fun h => hplace (.inl h)
      exact .store hex (by simpa [hex] using fun h => hplace (.inl h))
  | recheck ha =>
    refine ⟨added, h.read hq ?_⟩
    have hplace : InPlace entries₀ x added (internalKey key m.version (field i)) :=
      (hx i).imp_right fun hex => ⟨hex, ha⟩
    obtain ⟨old, hold⟩ := Option.isSome_iff_exists.1 ((h.stored _ hne).2 hplace)
    rw [MapDB.handle_get_of_some hold]
    exact .of_rest_stored (hadds i) version_grown_stored hplace
  | store hex hnew =>
    refine ⟨True, h.write hq hne (.inr ⟨hex, trivial⟩) (fun _ => trivial)
      (fun _ => .inr ⟨hex, hnew⟩) (fun _ => .inr rfl) (.count hex trivial)⟩
  | count hex ha => exact ⟨added, h.count ha hq hex⟩
  | replace hplace =>
    exact ⟨added, h.write hq hne hplace id .inl .inl (.done _ hplace)⟩
  | done reply hplace =>
    rw [Threads.step_of_done (r := .ok reply) hq]
    exact ⟨added, h⟩

/-- Two operations that start together. -/
theorem OneNew.start {request : Bool → Request} {db : MapDB}
    (hbytes : db.entries[key]? = some bytes) :
    OneNew db.entries key bytes x field value m (fun client => (request client).operation) rest
      False (Server.start db request) := by
  refine ⟨fun y _ => ?_, False.elim, .inl ⟨hbytes, False.elim⟩, fun client => .start⟩
  simp [InPlace, Server.start]

theorem OneNew.run (hadds : ∀ client, AddsField key (field client) (value client) m.dataType
      (p client) (rest client)) (hm : RedisMetadata.decode bytes = .ok m) (hexpire : m.expire = 0)
    (hx : ∀ client, entries₀[internalKey key m.version (field client)]?.isSome ∨
      internalKey key m.version (field client) = x)
    (h : OneNew entries₀ key bytes x field value m p rest added t) (schedule : List Bool) :
    ∃ added' : Prop, OneNew entries₀ key bytes x field value m p rest added' (t.run schedule) := by
  refine Threads.run_inv (I := fun t => ∃ added' : Prop,
    OneNew entries₀ key bytes x field value m p rest added' t) ?_ ⟨added, h⟩ schedule
  rintro t i ⟨added, h⟩
  exact h.step hadds hm hexpire hx i

/-- When both have returned, the element is counted. -/
theorem OneNew.consistent (h : OneNew entries₀ key bytes x field value m p rest added t)
    (hreturned : t.Returned) (hm : RedisMetadata.decode bytes = .ok m)
    (htype : m.dataType ∈ collectionTypes) (hlist : m.dataType ≠ .list)
    (hroom : m.size.toNat + 1 < 2 ^ 32) (hcounts : Counts entries₀ key m)
    (hx : x = internalKey key m.version (field i)) : Consistent t.entries key := by
  have hstored (y : Bytes) (hy : key ++ littleEndian64 m.version <+: y) :
      t.entries[y]?.isSome ↔ InPlace entries₀ x added y := by
    refine h.stored y ?_
    rintro rfl
    exact not_isPrefix_self _ _ hy
  rcases h.metadata with ⟨hbytes, hpending⟩ | ⟨hgrown, ha⟩
  · have hadded : ¬added := by
      intro ha
      obtain ⟨client, hclient⟩ := hpending ha
      obtain ⟨reply, hreply⟩ := hreturned client
      cases hreply.symm.trans hclient
    refine (consistent_iff hbytes hm htype).2 ((counts_congr fun y hy => ?_).2 hcounts)
    rw [Bool.eq_iff_iff, hstored y hy, InPlace, or_iff_left fun h => hadded h.2]
  · have hgrown_counts : Counts (entries₀.insert x []) key m.grown := by
      have hnew := h.new ha
      subst hx
      exact hcounts.insert_element hlist hroom hnew
    refine (consistent_iff hgrown m.grown.decode_encode (by rwa [dataType_grown_stored])).2 ?_
    rw [counts_stored]
    refine (counts_congr fun y hy => ?_).2 hgrown_counts
    rw [Bool.eq_iff_iff, hstored y hy, InPlace, Entries.getElem?_insert]
    by_cases hyx : y = x <;> simp [hyx, ha]

/-- When both have returned, both elements are stored. -/
theorem OneNew.isSome (h : OneNew entries₀ key bytes x field value m p rest added t)
    (hadds : ∀ client, AddsField key (field client) (value client) m.dataType (p client)
      (rest client)) (hreturned : t.Returned) (client : Bool) :
    t.entries[internalKey key m.version (field client)]?.isSome := by
  obtain ⟨reply, hreply⟩ := hreturned client
  have hi := h.programs client
  rw [hreply] at hi
  rw [h.stored _ (internalKey_ne _ _ _)]
  generalize hq : Program.pure reply = q at hi
  cases hi with
  | start => cases hq.trans (hadds client).operation_eq
  | done reply hplace => exact hplace
  | _ => cases hq

end OneNew

/-! ### One after the other -/

/-- A collection that is stored, does not expire and is consistent. -/
structure Collection (entries : Entries) (key : Bytes) (m : RedisMetadata) : Prop where
  stored : ∃ bytes, entries[key]? = some bytes ∧ RedisMetadata.decode bytes = .ok m
  lasting : m.expire = 0
  counts : Counts entries key m

section Serial

variable {key field value : Bytes} {m : RedisMetadata} {p : Operation Reply} {s : MapDB}
  {rest : RedisMetadata → Except Exn Bytes → Operation Reply}

/-- An operation that finds its collection goes on with the reply for its element. -/
theorem AddsField.run (h : AddsField key field value m.dataType p rest)
    (hm : Collection s.entries key m) :
    Operation.run p s = Operation.run
      (rest m (MapDB.handle (.get (internalKey key m.version field)) s).1) s := by
  obtain ⟨bytes, hbytes, hdecode⟩ := hm.stored
  rw [h.operation_eq, Operation.run_bind_of_ok (Finds.lasting hbytes hdecode rfl hm.lasting).run]
  cases hold : s.entries[internalKey key m.version field]? with
  | none =>
    show Operation.run (rest m (MapDB.handle (.get _) s).1) (MapDB.handle (.get _) s).2 = _
    rw [MapDB.handle_get_of_none hold]
  | some old =>
    show Operation.run (rest m (MapDB.handle (.get _) s).1) (MapDB.handle (.get _) s).2 = _
    rw [MapDB.handle_get_of_some hold]

/-- Finding metadata that does not expire is one request. -/
theorem cost_findMetadata {bytes : Bytes} (hbytes : s.entries[key]? = some bytes)
    (hm : RedisMetadata.decode bytes = .ok m) (hexpire : m.expire = 0) :
    (findMetadata key m.dataType).cost MapDB.handle s = 1 := by
  show Program.cost _ (onReply key m.dataType (MapDB.handle (.get key) s).1) _ + 1 = 1
  rw [MapDB.handle_get_of_some hbytes, onReply_lasting hm rfl hexpire]
  rfl

/-- An operation that adds an element makes four requests at most. -/
theorem AddsField.cost_le (h : AddsField key field value m.dataType p rest)
    (hm : Collection s.entries key m) : p.cost MapDB.handle s ≤ turns true := by
  obtain ⟨bytes, hbytes, hdecode⟩ := hm.stored
  rw [h.operation_eq, Program.cost_bind_of_ok (Finds.lasting hbytes hdecode rfl hm.lasting).run,
    cost_findMetadata hbytes hdecode hm.lasting]
  show 1 + (Program.cost _ (rest m (MapDB.handle (.get _) s).1) _ + 1) ≤ 4
  cases hold : s.entries[internalKey key m.version field]? with
  | none =>
    rw [MapDB.handle_get_of_none hold, h.rest_absent]
    exact le_rfl
  | some old =>
    rw [MapDB.handle_get_of_some hold]
    rcases h.rest_stored m old with hrest | hrest
    · rw [hrest]
      exact Nat.le_add_left 2 2
    · rw [hrest]
      exact Nat.le_add_left 3 1

/-- It leaves the collection consistent, with the element and those there were. -/
theorem AddsField.collection (h : AddsField key field value m.dataType p rest)
    (hm : Collection s.entries key m) (hlist : m.dataType ≠ .list)
    (hroom : m.size.toNat + 1 < 2 ^ 32) :
    ∃ m', Collection (Operation.run p s).2.entries key m' ∧ m'.dataType = m.dataType ∧
      m'.version = m.version ∧ m'.size.toNat ≤ m.size.toNat + 1 ∧
      (Operation.run p s).2.entries[internalKey key m.version field]?.isSome ∧
      ∀ y : Bytes, s.entries[y]?.isSome → (Operation.run p s).2.entries[y]?.isSome := by
  have hrun := h.run hm
  obtain ⟨bytes, hbytes, hdecode⟩ := hm.stored
  cases hold : s.entries[internalKey key m.version field]? with
  | none =>
    -- the element is stored, and counted
    rw [MapDB.handle_get_of_none hold, h.rest_absent] at hrun
    have hentries : (Operation.run p s).2.entries =
        (s.entries.insert (internalKey key m.version field) value).insert key m.grown.encode :=
      congrArg (fun r => r.2.entries) hrun
    have hcounts : Counts (s.entries.insert (internalKey key m.version field) value) key m.grown :=
      hm.counts.insert_element hlist hroom hold
    refine ⟨m.grown.stored, ⟨⟨_, ?_, m.grown.decode_encode⟩, ?_, ?_⟩, dataType_grown_stored,
      version_grown_stored, ?_, ?_, ?_⟩
    · rw [hentries, Entries.getElem?_insert, if_pos rfl]
    · exact m.grown.expire_stored.trans hm.lasting
    · rw [hentries, counts_insert_key, counts_stored]
      exact hcounts
    · rw [m.grown.size_stored, toNat_size_grown hroom]
    · rw [hentries, Entries.getElem?_insert, if_neg (internalKey_ne _ _ _), Entries.getElem?_insert,
        if_pos rfl]
      rfl
    · intro y hy
      rw [hentries, Entries.getElem?_insert, Entries.getElem?_insert]
      split
      · rfl
      · split
        · rfl
        · exact hy
  | some old =>
    rw [MapDB.handle_get_of_some hold] at hrun
    have hstored := Option.isSome_of_eq_some hold
    rcases h.rest_stored m old with hrest | hrest
    · -- nothing is written
      rw [hrest] at hrun
      rw [hrun]
      exact ⟨m, hm, rfl, rfl, Nat.le_succ _, hstored, fun _ => id⟩
    · -- the value is replaced
      rw [hrest] at hrun
      have hentries : (Operation.run p s).2.entries =
          s.entries.insert (internalKey key m.version field) value :=
        congrArg (fun r => r.2.entries) hrun
      refine ⟨m, ⟨⟨bytes, ?_, hdecode⟩, hm.lasting, ?_⟩, rfl, rfl, Nat.le_succ _, ?_, ?_⟩
      · rw [hentries, getElem?_insert_internalKey, hbytes]
      · rw [hentries]
        exact (counts_insert_of_isSome hstored).2 hm.counts
      · rw [hentries, Entries.getElem?_insert, if_pos rfl]
        rfl
      · intro y hy
        rw [hentries, Entries.getElem?_insert]
        split
        · rfl
        · exact hy

theorem Collection.consistent {entries : Entries} {key : Bytes} {m : RedisMetadata}
    (h : Collection entries key m) (htype : m.dataType ∈ collectionTypes) :
    Consistent entries key := by
  obtain ⟨bytes, hbytes, hdecode⟩ := h.stored
  exact (consistent_iff hbytes hdecode htype).2 h.counts

end Serial

/-! ### Both new -/

/-- What an operation stores that finds its element new. -/
def fieldAddition (key field value : Bytes) (m : RedisMetadata) : Addition :=
  ⟨internalKey key m.version field, value, m.grown⟩

theorem AddsField.follows {key field value bytes : Bytes} {m : RedisMetadata} {p : Operation Reply}
    {rest : RedisMetadata → Except Exn Bytes → Operation Reply}
    (h : AddsField key field value m.dataType p rest) (hm : RedisMetadata.decode bytes = .ok m)
    (hexpire : m.expire = 0) :
    p.Follows ((fieldAddition key field value m).script key bytes true) (.ok (.flag true)) := by
  rw [h.operation_eq]
  refine ⟨_, rfl, ?_⟩
  show (onReply key m.dataType (.ok bytes) >>= _).Follows _ _
  rw [onReply_lasting hm rfl hexpire]
  refine ⟨_, rfl, ?_⟩
  rw [h.rest_absent]
  exact ⟨_, rfl, _, rfl, rfl⟩

/-- Overlapping operations have stored two elements and counted one. -/
theorem Overlapped.not_consistent {entries₀ entries : Entries} {key bytes : Bytes}
    {field value : Bool → Bytes} {m : RedisMetadata} {n : ℕ}
    (h : Overlapped entries₀ key bytes
      (fun client => fieldAddition key (field client) (value client) m) n (fun _ => n) entries)
    (hcounts : Counts entries₀ key m) (htype : m.dataType ∈ collectionTypes)
    (hlist : m.dataType ≠ .list) (hroom : m.size.toNat + 2 < 2 ^ 32)
    (hnew : ∀ client, entries₀[internalKey key m.version (field client)]? = none)
    (hne : field false ≠ field true) : ¬Consistent entries key := by
  -- The metadata counts one element more, but there are two.
  intro hconsistent
  obtain ⟨client, hmetadata⟩ := h.counted ⟨true, le_rfl⟩
  have hone : Counts entries key m.grown := by
    rw [← counts_stored]
    exact (consistent_iff hmetadata m.grown.decode_encode (by rwa [dataType_grown_stored])).1
      hconsistent
  have hsize : m.grown.size.toNat = m.size.toNat + 1 := toNat_size_grown (by omega)
  have hfirst : Counts (entries₀.insert (internalKey key m.version (field false)) []) key m.grown :=
    hcounts.insert_element hlist (by omega) (hnew false)
  have hsecond : Counts ((entries₀.insert (internalKey key m.version (field false)) []).insert
      (internalKey key m.version (field true)) []) key m.grown.grown := by
    refine hfirst.insert_element hlist (by omega) ?_
    show (entries₀.insert _ _)[internalKey key m.version (field true)]? = none
    rw [Entries.getElem?_insert, if_neg, hnew true]
    exact fun heq => hne (internalKey_inj.1 heq).2.symm
  have htwo : Counts entries key m.grown.grown := by
    refine (counts_congr fun y hy => ?_).2 hsecond
    rw [Entries.getElem?_insert, Entries.getElem?_insert]
    split
    · rename_i hy
      rw [hy]
      exact h.stored true (Nat.le_succ _)
    · rename_i htrue
      split
      · rename_i hy
        rw [hy]
        exact h.stored false (Nat.le_succ _)
      · rename_i hfalse
        refine congrArg Option.isSome (h.others y ?_ fun client _ => ?_)
        · rintro rfl
          exact not_isPrefix_self _ _ hy
        · cases client with
          | false => exact hfalse
          | true => exact htrue
  have hsize' : m.grown.grown.size.toNat = m.grown.size.toNat + 1 := toNat_size_grown (by omega)
  have hlength := (counts_of_ne_list (m := m.grown) hlist).1 hone
  have hlength' := (counts_of_ne_list (m := m.grown.grown) hlist).1 htwo
  exact absurd (hlength'.trans hlength.symm) (by omega)

/-! ## What is lost -/

/-- The types with fields or members to add. -/
theorem Request.dataType_of_field? {r : Request} {field : Bytes} {dataType : RedisDataType}
    (hfield : r.field? = some field) (htype : r.dataType? = some dataType) :
    dataType ∈ collectionTypes ∧ dataType ≠ .list := by
  cases r <;> simp only [field?, reduceCtorEq] at hfield <;> cases htype <;> decide

/-- If one operation is over before the other starts, both elements are there, and counted. -/
theorem consistent_of_serial {db : MapDB} {key : Bytes} {m : RedisMetadata}
    {request : Bool → Request} {field value : Bool → Bytes} {schedule : List Bool}
    {rest : Bool → RedisMetadata → Except Exn Bytes → Operation Reply}
    (hm : Collection db.entries key m)
    (hcollection : m.dataType ∈ collectionTypes) (hlist : m.dataType ≠ .list)
    (hroom : m.size.toNat + 2 < 2 ^ 32)
    (hadds : ∀ client, AddsField key (field client) (value client) m.dataType
      (request client).operation (rest client)) (hserial : Serial (turns true) schedule)
    (hreturned : ((Server.start db request).run schedule).Returned) :
    Consistent ((Server.start db request).run schedule).entries key ∧
      ∀ client, ((Server.start db request).run schedule).entries[internalKey key m.version
        (field client)]?.isSome := by
  obtain ⟨client, hclient⟩ := hserial
  obtain ⟨clock, hentries⟩ := Server.entries_run_of_serial hclient
    ((hadds client).cost_le hm) hreturned
  -- The second operation starts from what the first one has left.
  obtain ⟨m₁, hm₁, htype₁, hversion₁, hsize₁, hstored₁, -⟩ :=
    (hadds client).collection hm hlist (by omega)
  have hadds₁ : AddsField key (field !client) (value !client) m₁.dataType
      (request !client).operation (rest !client) := by
    rw [htype₁]
    exact hadds !client
  obtain ⟨m₂, hm₂, htype₂, -, -, hstored₂, hkeeps⟩ := hadds₁.collection
    (s := ⟨(Operation.run (request client).operation db).2.entries, clock⟩) hm₁
    (by rwa [htype₁]) (by omega)
  rw [hversion₁] at hstored₂
  rw [hentries]
  refine ⟨hm₂.consistent (by rwa [htype₂, htype₁]), fun client' => ?_⟩
  rcases Bool.eq_or_eq_not client' client with rfl | rfl
  · exact hkeeps _ hstored₁
  · exact hstored₂

/-- All elements are counted if and only if they are one, or one of them was there,
    or one operation is over before the other starts. -/
theorem consistent_iff_of_fields {db : MapDB} {key : Bytes} {m : RedisMetadata}
    {request : Bool → Request} {field : Bool → Bytes} {schedule : List Bool}
    (hm : Collection db.entries key m) (hkey : ∀ client, (request client).key = key)
    (htype : ∀ client, (request client).dataType? = some m.dataType)
    (hfield : ∀ client, (request client).field? = some (field client))
    (hroom : m.size.toNat + 2 < 2 ^ 32)
    (hreturned : ((Server.start db request).run schedule).Returned) :
    (Consistent ((Server.start db request).run schedule).entries key ∧
      ∀ client, ((Server.start db request).run schedule).entries[internalKey key m.version
        (field client)]?.isSome) ↔
      field false = field true ∨
      (∃ client, db.entries[internalKey key m.version (field client)]?.isSome) ∨
      Serial (turns true) schedule := by
  obtain ⟨hcollection, hlist⟩ := Request.dataType_of_field? (hfield true) (htype true)
  obtain ⟨bytes, hbytes, hdecode⟩ := hm.stored
  have hadds client : ∃ value rest, AddsField key (field client) value m.dataType
      (request client).operation rest := by
    rw [← hkey client]
    exact Request.exists_addsField (hfield client) (htype client)
  choose value rest hadds using hadds
  by_cases hone : ∃ j, ∀ client, db.entries[internalKey key m.version (field client)]?.isSome ∨
      internalKey key m.version (field client) = internalKey key m.version (field j)
  · -- At most one of the elements is new, and any schedule counts it once.
    obtain ⟨j, hx⟩ := hone
    obtain ⟨added, h⟩ := (OneNew.start hbytes).run hadds hdecode hm.lasting hx schedule
    refine iff_of_true ⟨?_, h.isSome hadds hreturned⟩ ?_
    · exact h.consistent hreturned hdecode hcollection hlist (by omega) hm.counts rfl
    · rcases hx (!j) with hstored | heq
      · exact .inr (.inl ⟨_, hstored⟩)
      · have heq := (internalKey_inj.1 heq).2
        cases j with
        | false => exact .inl heq.symm
        | true => exact .inl heq
  · -- Both are new: what is read before the other's writes is written back over them.
    have hnew client : db.entries[internalKey key m.version (field client)]? = none := by
      by_contra hsome
      refine hone ⟨!client, fun client' => ?_⟩
      rcases Bool.eq_or_eq_not client' client with rfl | rfl
      · exact .inl (Option.isSome_iff_ne_none.2 hsome)
      · exact .inr rfl
    have hne : field false ≠ field true := by
      intro heq
      refine hone ⟨true, fun client => .inr ?_⟩
      cases client with
      | false => rw [heq]
      | true => rfl
    have hcond : (field false = field true ∨
        (∃ client, db.entries[internalKey key m.version (field client)]?.isSome) ∨
        Serial (turns true) schedule) ↔ Serial (turns true) schedule := by
      simp [hne, hnew]
    rw [hcond]
    by_cases hserial : Serial (turns true) schedule
    · exact iff_of_true (consistent_of_serial hm hcollection hlist hroom hadds hserial hreturned) hserial
    · refine iff_of_false (fun h => ?_) hserial
      have hoverlapped := overlapped_of_returned
        (fun client => (hadds client).follows hdecode hm.lasting) hbytes
        (fun client => internalKey_ne _ _ _) (fun _ client => ⟨hnew client, fun heq => ?_⟩)
        hserial hreturned
      · exact hoverlapped.not_consistent hm.counts hcollection hlist hroom hnew hne h.1
      · have heq := (internalKey_inj.1 heq).2
        cases client with
        | false => exact hne heq
        | true => exact hne heq.symm

/-- What two clients add to one collection is all there, to be popped or counted, if
    and only if one operation is over before the other starts or, for a hash or a set,
    at most one of the elements is new. -/
theorem nothing_lost_iff (db : MapDB) (key : Bytes) (schedule : List Bool) :
    (∀ (q : List Bytes) (push : Bool → Push) (clock : Clock), q ≠ [] → Holds db.entries key q →
      q.length + 2 < 2 ^ 32 →
      let t := (Server.start db fun client => (push client).request key).run schedule
      t.Returned →
      ((popAll t.entries key (q.length + 2) clock).Perm
        (popped ((push false).element :: (push true).element :: q)) ↔ Serial 3 schedule)) ∧
    ∀ (m : RedisMetadata) (request : Bool → Request) (field : Bool → Bytes),
      Collection db.entries key m → (∀ client, (request client).key = key) →
      (∀ client, (request client).dataType? = some m.dataType) →
      (∀ client, (request client).field? = some (field client)) → m.size.toNat + 2 < 2 ^ 32 →
      let t := (Server.start db request).run schedule
      t.Returned →
      ((Consistent t.entries key ∧
        ∀ client, t.entries[internalKey key m.version (field client)]?.isSome) ↔
        field false = field true ∨
        (∃ client, db.entries[internalKey key m.version (field client)]?.isSome) ∨
        Serial 4 schedule) := by
  refine ⟨?_, ?_⟩
  · intro q push clock hne h hq t hreturned
    exact popAll_perm_iff hne h hq hreturned clock
  · intro m request field hm hkey htype hfield hroom t hreturned
    exact consistent_iff_of_fields hm hkey htype hfield hroom hreturned

/-! A list of one element, and two elements pushed to its back at the same time. -/

def oneElementList : MapDB := ⟨(serve ∅ ⟨.rpush [108] [97], fun _ => 7⟩).1, fun _ => 8⟩

theorem holds_oneElementList : Holds oneElementList.entries [108] [[97]] :=
  (Holds.serve (q := []) Std.TreeMap.getElem?_emptyc (.rpush [97]) (fun _ => 7) (by decide)
    (by decide)).2

def twoPushes (client : Bool) : Push := .back [if client then 99 else 98]

/-- Both clients read the metadata first. -/
def overlapping : List Bool := [false, true, false, true, false, true]

theorem returned_twoPushes : ((Server.start oneElementList fun client =>
    (twoPushes client).request [108]).run overlapping).Returned := by
  decide

/-! A hash of one field, and another one set by both at the same time. -/

def oneFieldDB : MapDB := ⟨oneFieldHash, fun _ => 8⟩

def oneHset (client : Bool) : Request := .hset [104] [103] [if client then 51 else 50]

theorem collection_oneFieldDB : Collection oneFieldDB.entries [104] oneField.stored :=
  ⟨⟨_, getElem?_oneFieldHash, oneField.decode_encode⟩, rfl, (consistent_iff getElem?_oneFieldHash
    oneField.decode_encode (by decide)).1 consistent_oneFieldHash⟩

theorem nothing_lost_iff_twoPushes_oneHset :
    ¬(popAll ((Server.start oneElementList fun client => (twoPushes client).request [108]).run
        overlapping).entries [108] 3 fun _ => 9).Perm (popped [[98], [99], [97]]) ∧
      Consistent ((Server.start oneFieldDB oneHset).run (overlapping ++ overlapping)).entries
        [104] := by
  constructor
  · have h := (nothing_lost_iff oneElementList [108] overlapping).1 [[97]] twoPushes (fun _ => 9)
      (by decide) holds_oneElementList (by decide) returned_twoPushes
    exact h.not.2 (by decide)
  · have h := (nothing_lost_iff oneFieldDB [104] (overlapping ++ overlapping)).2 oneField.stored
      oneHset (fun _ => [103]) collection_oneFieldDB (fun _ => rfl) (fun _ => rfl) (fun _ => rfl)
      (by decide) (by decide)
    exact (h.2 (.inl rfl)).1

theorem not_forall_nothing_lost :
    ¬∀ (db : MapDB) (key : Bytes) (q : List Bytes) (push : Bool → Push) (schedule : List Bool)
        (clock : Clock), q ≠ [] → Holds db.entries key q → q.length + 2 < 2 ^ 32 →
      ((Server.start db fun client => (push client).request key).run schedule).Returned →
      (popAll ((Server.start db fun client => (push client).request key).run schedule).entries key
        (q.length + 2) clock).Perm (popped ((push false).element :: (push true).element :: q)) := by
  intro h
  have hperm := h oneElementList [108] [[97]] twoPushes overlapping (fun _ => 9) (by decide)
    holds_oneElementList (by decide) returned_twoPushes
  have hpops : popAll ((Server.start oneElementList fun client =>
      (twoPushes client).request [108]).run overlapping).entries [108] 3 (fun _ => 9) =
      [.ok (.text [97]), .ok (.text [99]), .error .keyNotFound] := by
    decide
  rw [List.length_singleton, hpops] at hperm
  have hmem := hperm.mem_iff.1 (List.mem_cons_of_mem _ (List.mem_cons_of_mem _ List.mem_cons_self))
  revert hmem
  decide

end Bitcask.Redis
