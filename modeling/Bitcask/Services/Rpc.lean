import Bitcask.Services.Bodies

/-!
# The RPC server

How the RPC server reads a request (`RpcRequest.parse`), what its handlers do with the
parameters (`handlePut`, `handleGet`, `handleDelete`) and how a response is
written (`RpcResponse.serialize`). Parameters are not read as JSON: what is in
brackets is split at commas, and quotes and blanks are left out.

* `putThenGet_iff`: a value put under a key comes back only if it has no blank, comma or
  bracket and the key is one word, but for a key of several words that has the value for
  its second.
-/

namespace Bitcask.Rpc

open Redis (Entries ofText)
open Services

/-! ## Requests -/

structure RpcRequest where
  method : Bytes
  params : List Bytes
  id : Bytes
deriving DecidableEq, Repr

/-- The text behind a name of `length` characters, quotes included: between the next two quotes,
    if there are any. -/
def textField (data : Bytes) (name : String) (length : ℕ) : Bytes :=
  match Substring.find data (ofText name) 0 with
  | none => []
  | some pos =>
    match Substring.find data [34] (pos + length) with
    | none => []
    | some quote =>
      let start := quote + 1
      match Substring.find data [34] start with
      | none => []
      | some stop => (data.drop start).take (stop - start)

/-- `remove_if`: a parameter without quotes, blanks and tabs. -/
def strip (param : Bytes) : Bytes := param.filter fun c => ¬(c = 34 ∨ c = 32 ∨ c = 9)

/-- The parameters in the text between the brackets: none is empty. -/
def splitParams (paramsStr : Bytes) : List Bytes :=
  ((Substring.lines 44 paramsStr).map strip).filter (· ≠ [])

def paramsField (data : Bytes) : List Bytes :=
  match Substring.find data (ofText "\"params\"") 0 with
  | none => []
  | some pos =>
    match Substring.find data [91] pos with
    | none => []
    | some arrayStart =>
      match Substring.find data [93] arrayStart with
      | none => []
      | some arrayEnd =>
        splitParams ((data.drop (arrayStart + 1)).take (arrayEnd - arrayStart - 1))

def RpcRequest.parse (data : Bytes) : RpcRequest where
  method := textField data "\"method\"" 8
  params := paramsField data
  id := textField data "\"id\"" 4

/-! ## Responses -/

structure RpcResponse where
  result : Bytes
  error : Bytes
  id : Bytes
deriving DecidableEq, Repr

namespace RpcResponse

def ofResult (result : Bytes) : RpcResponse := ⟨result, [], []⟩

def ofError (error : Bytes) : RpcResponse := ⟨[], error, []⟩

/-- A text in quotes, or `null` if it is empty. -/
def orNull (text : Bytes) : Bytes :=
  if text ≠ [] then 34 :: (text ++ [34]) else ofText "null"

def serialize (response : RpcResponse) : Bytes :=
  ofText "\x7b\"result\": " ++ orNull response.result ++
    ofText ", \"error\": " ++ orNull response.error ++
    ofText ", \"id\": \"" ++ response.id ++ ofText "\"\x7d"

end RpcResponse

/-! ## Handlers -/

section Handlers

variable {σ : Type} (database : Database σ)

def handlePut (request : RpcRequest) (state : σ) : RpcResponse × σ :=
  match request.params with
  | key :: value :: _ =>
    match database.put key value state with
    | (.ok _, state) => (.ofResult (ofText "OK"), state)
    | (.error e, state) => (.ofError (ofText "PUT failed: " ++ ofText e.what), state)
  | _ => (.ofError (ofText "PUT requires 2 parameters: key and value"), state)

def handleGet (request : RpcRequest) (state : σ) : RpcResponse × σ :=
  match request.params with
  | key :: _ =>
    match database.get key state with
    | (.ok value, state) => (.ofResult value, state)
    | (.error .keyNotFound, state) => (.ofError (ofText "Key not found"), state)
    | (.error e, state) => (.ofError (ofText "GET failed: " ++ ofText e.what), state)
  | [] => (.ofError (ofText "GET requires 1 parameter: key"), state)

def handleDelete (request : RpcRequest) (state : σ) : RpcResponse × σ :=
  match request.params with
  | key :: _ =>
    match database.remove key state with
    | (.ok _, state) => (.ofResult (ofText "OK"), state)
    | (.error e, state) => (.ofError (ofText "DELETE failed: " ++ ofText e.what), state)
  | [] => (.ofError (ofText "DELETE requires 1 parameter: key"), state)

end Handlers

/-! ## Putting and getting -/

/-- `{"method": "put", "params": ["KEY", "VALUE"], "id": "1"}`. -/
def putRequest (key value : Bytes) : Bytes :=
  ofText "\x7b\"method\": \"put\", \"params\": [\"" ++ key ++ ofText "\", \"" ++ value ++
    ofText "\"], \"id\": \"1\"\x7d"

/-- `{"method": "get", "params": ["KEY"], "id": "1"}`. -/
def getRequest (key : Bytes) : Bytes :=
  ofText "\x7b\"method\": \"get\", \"params\": [\"" ++ key ++ ofText "\"], \"id\": \"1\"\x7d"

/-- The result a get is answered with after a put is the value. -/
def PutThenGet (key value : Bytes) : Prop :=
  ∀ entries : Entries,
    let stored := (handlePut Database.ofEntries (.parse (putRequest key value)) entries).2
    let response := (handleGet Database.ofEntries (.parse (getRequest key)) stored).1
    ∃ members, Json.parse (Json.objectOf Json.readNullable) response.serialize = some members ∧
      members.lookup (ofText "result") = some (some value)

/-- A printable character that is neither a quote nor a backslash. -/
def Printable (b : UInt8) : Prop := 32 ≤ b ∧ b ≤ 126 ∧ b ≠ 34 ∧ b ≠ 92

instance : DecidablePred Printable := fun _ => inferInstanceAs (Decidable (_ ∧ _))

/-- Whether all of a text is printable. -/
theorem printable_of_all {text : Bytes} (h : text.all fun b => Printable b) : ∀ b ∈ text, Printable b :=
  fun b hb => of_decide_eq_true (List.all_eq_true.1 h b hb)

/-- The words of a text: what is before the first `]`, split at commas, without blanks. -/
def words (text : Bytes) : List Bytes :=
  (((text.takeWhile (· ≠ 93)).splitOn 44).map (·.filter (· ≠ 32))).filter (· ≠ [])

section Parsing

variable {text inside before rest key value : Bytes}

theorem strip_append (a b : Bytes) : strip (a ++ b) = strip a ++ strip b := List.filter_append _ _

/-- The parameters in a text are told from what it is without quotes and blanks. -/
theorem splitParams_eq (text : Bytes) :
    splitParams text = ((strip text).splitOn 44).filter (· ≠ []) := by
  have hstrip : (text.splitOn 44).map strip = (strip text).splitOn 44 :=
    Substring.map_filter_splitOn (by decide) text
  rw [splitParams, ← hstrip]
  rcases Substring.splitOn_eq_lines 44 text with h | h
  · rw [h]
  · rw [h, List.map_append, List.filter_append]
    exact (List.append_nil _).symm

/-- What is left out may be left out first. -/
theorem splitParams_cons {b : UInt8} (h : strip [b] = []) (text : Bytes) :
    splitParams (b :: text) = splitParams text := by
  rw [splitParams_eq, splitParams_eq, ← List.singleton_append, strip_append, h, List.nil_append]

theorem splitParams_comma (text rest : Bytes) :
    splitParams (text ++ 44 :: rest) = splitParams text ++ splitParams rest := by
  have hcomma : strip (44 :: rest) = 44 :: strip rest := rfl
  simp only [splitParams_eq, strip_append, hcomma, List.splitOn_append_cons_self,
    List.filter_append]

/-- The parameters are those between the first bracket behind their name and the first one that
    closes. -/
theorem paramsField_of {pos : ℕ} (hbefore : Substring.index (ofText "\"params\"") before = some pos)
    (hbracket : 91 ∉ before.drop pos) (hinside : 93 ∉ inside) :
    paramsField (before ++ 91 :: (inside ++ 93 :: rest)) = splitParams inside := by
  set data := before ++ 91 :: (inside ++ 93 :: rest) with hdata
  have hpos : pos ≤ before.length :=
    Nat.le_trans (Nat.le_add_right _ _) (Substring.add_length_le_of_index hbefore)
  have hname : Substring.find data (ofText "\"params\"") 0 = some pos := by
    rw [Substring.find, List.drop_zero, Substring.index_append_right hbefore]
    simp
  have hdrop : data.drop pos = before.drop pos ++ 91 :: (inside ++ 93 :: rest) :=
    List.drop_append_of_le_length hpos
  have hstart : Substring.find data [91] pos = some before.length := by
    have hfind : Substring.find data [91] pos = some (pos + (before.drop pos).length) :=
      Substring.find_of_drop hdrop hbracket
    rw [hfind, List.length_drop, Nat.add_sub_cancel' hpos]
  have hdrop' : data.drop before.length = (91 :: inside) ++ 93 :: rest := List.drop_left
  have hend : Substring.find data [93] before.length = some (before.length + (91 :: inside).length) :=
    Substring.find_of_drop hdrop' (by simp [hinside])
  have hdrop'' : data.drop (before.length + 1) = inside ++ 93 :: rest := by
    rw [← List.drop_drop, hdrop']
    rfl
  rw [paramsField, hname]
  simp only [hstart, hend, hdrop'', List.length_cons, Nat.add_sub_cancel_left, Nat.add_sub_cancel,
    List.take_left]

/-- What is up to the first `]`. -/
theorem paramsField_takeWhile {pos : ℕ}
    (hbefore : Substring.index (ofText "\"params\"") before = some pos)
    (hbracket : 91 ∉ before.drop pos) (text rest : Bytes) :
    paramsField (before ++ 91 :: (text ++ 93 :: rest)) = splitParams (text.takeWhile (· ≠ 93)) := by
  by_cases htext : 93 ∈ text
  · obtain ⟨inside, behind, rfl, hinside⟩ := List.eq_append_cons_of_mem htext
    rw [Substring.takeWhile_append_cons hinside, List.append_assoc, List.cons_append]
    exact paramsField_of hbefore hbracket hinside
  · rw [Substring.takeWhile_of_notMem htext]
    exact paramsField_of hbefore hbracket htext

end Parsing

/-! ## Words -/

section Words

variable {key value text : Bytes}

/-- On printable characters, only blanks are left out. -/
theorem strip_eq (h : ∀ b ∈ text, Printable b) : strip text = text.filter (· ≠ 32) := by
  refine List.filter_congr fun b hb => ?_
  have h9 : b ≠ 9 := by
    rintro rfl
    exact absurd (h 9 hb).1 (by decide)
  simp [(h b hb).2.2.1, h9]

theorem words_eq (h : ∀ b ∈ text, Printable b) :
    words text = splitParams (text.takeWhile (· ≠ 93)) := by
  have htake : ∀ b ∈ text.takeWhile (· ≠ 93), Printable b := fun b hb =>
    h b (List.takeWhile_subset _ hb)
  rw [splitParams_eq, strip_eq htake, words, Substring.map_filter_splitOn (by decide)]

theorem mem_word {word : Bytes} {b : UInt8} (hword : word ∈ words text) (hb : b ∈ word) :
    b ∈ text ∧ b ≠ 32 ∧ b ≠ 44 ∧ b ≠ 93 := by
  obtain ⟨piece, hpiece, rfl⟩ := List.mem_map.1 (List.mem_of_mem_filter hword)
  obtain ⟨hmem, hblank⟩ := List.mem_filter.1 hb
  obtain ⟨htake, hcomma⟩ := Substring.mem_of_mem_splitOn hpiece hmem
  exact ⟨List.takeWhile_subset _ htake, by simpa using hblank, hcomma,
    by simpa using List.mem_takeWhile_imp htake⟩

theorem word_ne_nil {word : Bytes} (hword : word ∈ words text) : word ≠ [] := by
  simpa using List.of_mem_filter hword

/-- A text is its own first word. -/
theorem head?_words (text : Bytes) :
    (words text).head? = some text ↔ text ≠ [] ∧ 32 ∉ text ∧ 44 ∉ text ∧ 93 ∉ text := by
  constructor
  · intro h
    have hword : text ∈ words text := List.mem_of_mem_head? h
    exact ⟨word_ne_nil hword, fun hb => (mem_word hword hb).2.1 rfl,
      fun hb => (mem_word hword hb).2.2.1 rfl, fun hb => (mem_word hword hb).2.2.2 rfl⟩
  · rintro ⟨hne, hblank, hcomma, hbracket⟩
    have hfilter : text.filter (· ≠ 32) = text :=
      List.filter_eq_self.2 fun b hb => decide_eq_true (ne_of_mem_of_not_mem hb hblank)
    rw [words, Substring.takeWhile_of_notMem hbracket, List.splitOn_eq_singleton hcomma, List.map_singleton, hfilter]
    simp [hne]

/-- The parameters in a text behind a quote that goes on behind it. -/
theorem splitParams_quoted (h : ∀ b ∈ text, Printable b) (rest : Bytes) :
    splitParams ((34 :: (text ++ 34 :: rest)).takeWhile (· ≠ 93)) =
      if 93 ∈ text then words text else splitParams (text ++ 34 :: rest.takeWhile (· ≠ 93)) := by
  rw [List.takeWhile_cons_of_pos (by decide), splitParams_cons (by decide)]
  split_ifs with hbracket
  · rw [Substring.takeWhile_append_of_mem hbracket, words_eq h]
  · rw [Substring.takeWhile_append_of_notMem hbracket, List.takeWhile_cons_of_pos (by decide)]

theorem splitParams_text (h : ∀ b ∈ text, Printable b) (hbracket : 93 ∉ text) :
    splitParams (text ++ [34]) = words text := by
  rw [words_eq h, Substring.takeWhile_of_notMem hbracket, splitParams_eq, splitParams_eq, strip_append]
  exact congrArg (fun stripped : Bytes => (stripped.splitOn 44).filter _) (List.append_nil _)

theorem params_getRequest (hkey : ∀ b ∈ key, Printable b) :
    (RpcRequest.parse (getRequest key)).params = words key := by
  set before := ofText "\x7b\"method\": \"get\", \"params\": " with hbefore
  have hrequest : getRequest key =
      before ++ 91 :: (34 :: (key ++ [34]) ++ 93 :: ofText ", \"id\": \"1\"\x7d") := by
    simp [getRequest, hbefore, ofText]
  have hname : Substring.index (ofText "\"params\"") before = some 18 := by decide
  show paramsField (getRequest key) = _
  rw [hrequest, paramsField_takeWhile hname (by decide), splitParams_quoted hkey]
  split_ifs with hbracket
  · rfl
  · exact splitParams_text hkey hbracket

theorem params_putRequest (hkey : ∀ b ∈ key, Printable b) (hvalue : ∀ b ∈ value, Printable b) :
    (RpcRequest.parse (putRequest key value)).params =
      words key ++ if 93 ∈ key then [] else words value := by
  set before := ofText "\x7b\"method\": \"put\", \"params\": " with hbefore
  have hrequest : putRequest key value = before ++ 91 ::
      (34 :: (key ++ 34 :: 44 :: 32 :: 34 :: (value ++ [34])) ++ 93 :: ofText ", \"id\": \"1\"\x7d") := by
    simp [putRequest, hbefore, ofText]
  have hname : Substring.index (ofText "\"params\"") before = some 18 := by decide
  show paramsField (putRequest key value) = _
  rw [hrequest, paramsField_takeWhile hname (by decide), splitParams_quoted hkey]
  split_ifs with hbracket
  · exact (List.append_nil _).symm
  · -- The comma between the strings is where they are split.
    have hcomma : key ++ 34 :: (44 :: 32 :: 34 :: (value ++ [34])).takeWhile (· ≠ 93) =
        (key ++ [34]) ++ 44 :: 32 :: (34 :: (value ++ [34])).takeWhile (· ≠ 93) := by
      rw [List.takeWhile_cons_of_pos (by decide), List.takeWhile_cons_of_pos (by decide)]
      simp
    rw [hcomma, splitParams_comma, splitParams_text hkey hbracket, splitParams_cons (by decide),
      splitParams_quoted hvalue]
    congr 1
    split_ifs with hbracket'
    · rfl
    · exact splitParams_text hvalue hbracket'

end Words

/-! ## Responses -/

section Responses

variable {text : Bytes} {response : RpcResponse}

/-- What the text of a response is as JSON. -/
def nullable (text : Bytes) : Option Bytes := if text = [] then none else some text

theorem readString_printable (h : ∀ b ∈ text, Printable b) (rest : Bytes) :
    Json.readString (34 :: (text ++ 34 :: rest)) = some (text, rest) := by
  have hplain : ∀ b ∈ text, Http.Plain b := fun b hb => ⟨(h b hb).1, (h b hb).2.2⟩
  have hreadable : Http.Readable text := fun b hb => (Http.plain_iff.1 (hplain b hb)).1
  have hread := Http.readString_jsonEscape text rest
  rwa [Http.jsonEscape_eq_self.2 fun b hb => (Http.plain_iff.1 (hplain b hb)).2,
    if_pos hreadable] at hread

theorem readNullable_quoted (h : ∀ b ∈ text, Printable b) (rest : Bytes) :
    Json.readNullable (34 :: (text ++ 34 :: rest)) = some (some text, rest) := by
  have hnull : (34 :: (text ++ 34 :: rest)).take 4 ≠ [110, 117, 108, 108] := by simp
  rw [Json.readNullable, if_neg hnull, readString_printable h]
  rfl

theorem readNullable_orNull (h : ∀ b ∈ text, Printable b) (rest : Bytes) :
    Json.readNullable (Json.skipWhitespace (RpcResponse.orNull text ++ rest)) =
      some (nullable text, rest) := by
  rw [RpcResponse.orNull, nullable]
  rcases eq_or_ne text [] with rfl | hne
  · rfl
  · have hquoted : 34 :: (text ++ [34]) ++ rest = 34 :: (text ++ 34 :: rest) := by simp
    rw [if_pos hne, if_neg hne, hquoted, Json.skipWhitespace_cons rfl, readNullable_quoted h]

/-- A member, by what is read of its value. -/
theorem readMember_of_readNullable {name written rest : Bytes} {value : Option Bytes}
    (hname : ∀ b ∈ name, Printable b)
    (hvalue : Json.readNullable (Json.skipWhitespace written) = some (value, rest)) :
    Json.readMember Json.readNullable (34 :: (name ++ 34 :: 58 :: 32 :: written)) =
      some ((name, value), rest) := by
  have hcolon : Json.expect 58 (58 :: 32 :: written) = some (32 :: written) := rfl
  have hblank : Json.skipWhitespace (32 :: written) = Json.skipWhitespace written := rfl
  rw [Json.readMember_of_readString (readString_printable hname _) hcolon, hblank, hvalue]
  rfl

/-- A response is JSON, and its result is the text of it, or `null`. -/
theorem parse_serialize (hresult : ∀ b ∈ response.result, Printable b)
    (herror : ∀ b ∈ response.error, Printable b) (hid : ∀ b ∈ response.id, Printable b) :
    Json.parse (Json.objectOf Json.readNullable) response.serialize =
      some [(ofText "result", nullable response.result), (ofText "error", nullable response.error),
        (ofText "id", some response.id)] := by
  set third : Bytes := 34 :: (ofText "id" ++ 34 :: 58 :: 32 :: (34 :: (response.id ++ 34 :: [125])))
    with hthird
  set second : Bytes := 34 :: (ofText "error" ++ 34 :: 58 :: 32 ::
    (RpcResponse.orNull response.error ++ 44 :: 32 :: third)) with hsecond
  set first : Bytes := 34 :: (ofText "result" ++ 34 :: 58 :: 32 ::
    (RpcResponse.orNull response.result ++ 44 :: 32 :: second)) with hfirst
  have htext : response.serialize = 123 :: first := by
    simp [RpcResponse.serialize, hfirst, hsecond, hthird, ofText]
  have hlength : 3 ≤ first.length := by
    simp only [hfirst, hsecond, List.length_cons, List.length_append]
    omega
  obtain ⟨n, hn⟩ := Nat.exists_eq_add_of_le' hlength
  have hread : Json.readMember Json.readNullable (Json.skipWhitespace first) =
      some ((ofText "result", nullable response.result), 44 :: 32 :: second) :=
    readMember_of_readNullable (printable_of_all (by decide)) (readNullable_orNull hresult _)
  have hread' : Json.readMember Json.readNullable (Json.skipWhitespace (32 :: second)) =
      some ((ofText "error", nullable response.error), 44 :: 32 :: third) :=
    readMember_of_readNullable (printable_of_all (by decide)) (readNullable_orNull herror _)
  have hread'' : Json.readMember Json.readNullable (Json.skipWhitespace (32 :: third)) =
      some ((ofText "id", some response.id), [125]) :=
    readMember_of_readNullable (printable_of_all (by decide)) (readNullable_quoted hid _)
  have hopen : (Json.skipWhitespace first).head? ≠ some 125 := by
    rw [hfirst, Json.skipWhitespace_cons rfl, List.head?_cons]
    decide
  rw [htext, Json.parse_objectOf hopen, hn, Json.readItems_of_comma hread,
    Json.readItems_of_comma hread', Json.readItems_of_closing hread'' (by decide) rfl]
  rfl

end Responses

/-! ## What comes back -/

section PutThenGet

variable {key value : Bytes} {request : RpcRequest} {entries : Entries}

theorem handlePut_of_params {k v : Bytes} {rest : List Bytes} (h : request.params = k :: v :: rest) :
    (handlePut Database.ofEntries request entries).2 = entries.insert k v := by
  rw [handlePut, h]
  rfl

theorem handlePut_of_length (h : request.params.length < 2) :
    (handlePut Database.ofEntries request entries).2 = entries := by
  rw [handlePut]
  split
  · next heq =>
    rw [heq, List.length_cons, List.length_cons] at h
    omega
  · rfl

theorem handleGet_insert {k v : Bytes} {rest : List Bytes} (h : request.params = k :: rest) :
    (handleGet Database.ofEntries request (entries.insert k v)).1 = .ofResult v := by
  rw [handleGet, h]
  simp only [Database.get_insert]

theorem handleGet_of_none {k : Bytes} {rest : List Bytes} (h : request.params = k :: rest)
    (hnone : entries[k]? = none) :
    (handleGet Database.ofEntries request entries).1 = .ofError (ofText "Key not found") := by
  rw [handleGet, h]
  simp only [Database.get_of_none hnone]

theorem lookup_ofResult {v : Bytes} (h : ∀ b ∈ v, Printable b) (hne : v ≠ []) :
    ∃ members, Json.parse (Json.objectOf Json.readNullable) (RpcResponse.ofResult v).serialize =
        some members ∧ members.lookup (ofText "result") = some (some v) := by
  refine ⟨_, parse_serialize h (List.forall_mem_nil _) (List.forall_mem_nil _), ?_⟩
  rw [List.lookup_cons_self, nullable, RpcResponse.ofResult, if_neg hne]

/-- An error has no result. -/
theorem lookup_ofError {error : Bytes} (h : ∀ b ∈ error, Printable b) {members}
    (hmembers : Json.parse (Json.objectOf Json.readNullable) (RpcResponse.ofError error).serialize =
      some members) : members.lookup (ofText "result") = some none := by
  rw [parse_serialize (List.forall_mem_nil _) h (List.forall_mem_nil _)] at hmembers
  obtain rfl := Option.some.inj hmembers
  rfl

theorem word_printable {text word : Bytes} (h : ∀ b ∈ text, Printable b) (hword : word ∈ words text) :
    ∀ b ∈ word, Printable b :=
  fun b hb => h b (mem_word hword hb).1

/-- The parameters of a put have the value behind the first word of the key. -/
def SecondIs (key value : Bytes) : Prop :=
  ∃ word rest, words key ++ (if 93 ∈ key then [] else words value) = word :: value :: rest ∧
    (words key).head? = some word

/-- The second parameter of a put is a word. -/
theorem mem_words {word v : Bytes} {ws rest : List Bytes} (hwords : words key = word :: ws)
    (hrest : ws ++ (if 93 ∈ key then [] else words value) = v :: rest) :
    v ∈ words key ∨ v ∈ words value := by
  have hmem : v ∈ ws ++ (if 93 ∈ key then [] else words value) := by
    rw [hrest]
    exact List.mem_cons_self
  rcases List.mem_append.1 hmem with hmem | hmem
  · left
    rw [hwords]
    exact List.mem_cons_of_mem _ hmem
  · split_ifs at hmem
    · cases hmem
    · exact .inr hmem

theorem PutThenGet.secondIs (hkey : ∀ b ∈ key, Printable b) (hvalue : ∀ b ∈ value, Printable b)
    (h : PutThenGet key value) : SecondIs key value := by
  obtain ⟨members, hmembers, hlookup⟩ := h ∅
  have hget := params_getRequest hkey
  have hput := params_putRequest hkey hvalue
  rcases hwords : words key with _ | ⟨word, ws⟩
  · -- Without a word the get has no parameter.
    rw [hwords] at hget
    have hresponse : ∀ entries, (handleGet Database.ofEntries (.parse (getRequest key)) entries).1 =
        .ofError (ofText "GET requires 1 parameter: key") := by
      intro entries
      rw [handleGet, hget]
    rw [hresponse] at hmembers
    have := lookup_ofError (printable_of_all (by decide)) hmembers
    simp [this] at hlookup
  · rw [hwords] at hget hput
    rcases hrest : ws ++ (if 93 ∈ key then [] else words value) with _ | ⟨v, rest⟩
    · -- With one word in all the put has no value and stores nothing.
      rw [List.cons_append, hrest] at hput
      have hlength : (RpcRequest.parse (putRequest key value)).params.length < 2 := by
        rw [hput, List.length_singleton]
        decide
      rw [handlePut_of_length hlength, handleGet_of_none hget rfl] at hmembers
      have := lookup_ofError (printable_of_all (by decide)) hmembers
      simp [this] at hlookup
    · -- What is stored and comes back is the second parameter.
      rw [List.cons_append, hrest] at hput
      have hword := mem_words hwords hrest
      have hprintable : ∀ b ∈ v, Printable b :=
        hword.elim (word_printable hkey) (word_printable hvalue)
      have hne : v ≠ [] := hword.elim word_ne_nil word_ne_nil
      obtain ⟨members', hmembers', hlookup'⟩ := lookup_ofResult hprintable hne
      rw [handlePut_of_params hput, handleGet_insert hget, hmembers'] at hmembers
      obtain rfl := Option.some.inj hmembers
      rw [hlookup'] at hlookup
      obtain rfl := Option.some.inj (Option.some.inj hlookup)
      exact ⟨word, rest, by rw [hwords, List.cons_append, hrest], by rw [hwords, List.head?_cons]⟩

theorem putThenGet_of_secondIs (hkey : ∀ b ∈ key, Printable b) (hvalue : ∀ b ∈ value, Printable b)
    (h : SecondIs key value) : PutThenGet key value := by
  intro entries
  obtain ⟨word, rest, hparams, hhead⟩ := h
  obtain ⟨ws, hwords⟩ := List.head?_eq_some_iff.1 hhead
  have hget := params_getRequest hkey
  have hput := params_putRequest hkey hvalue
  rw [hparams] at hput
  rw [hwords] at hget
  have hne : value ≠ [] := by
    rw [hwords, List.cons_append] at hparams
    exact (mem_words hwords (List.cons.inj hparams).2).elim word_ne_nil word_ne_nil
  simp only [handlePut_of_params hput, handleGet_insert hget]
  exact lookup_ofResult hvalue hne

theorem secondIs_iff (key value : Bytes) : SecondIs key value ↔
    (∃ word, words key = [word] ∧ 93 ∉ key ∧
      value ≠ [] ∧ 32 ∉ value ∧ 44 ∉ value ∧ 93 ∉ value) ∨
    ∃ word rest, words key = word :: value :: rest := by
  rw [← head?_words]
  constructor
  · rintro ⟨word, rest, hparams, hhead⟩
    obtain ⟨ws, hwords⟩ := List.head?_eq_some_iff.1 hhead
    rw [hwords, List.cons_append] at hparams
    have hrest := (List.cons.inj hparams).2
    rcases ws with _ | ⟨v, ws⟩
    · rw [List.nil_append] at hrest
      split_ifs at hrest with hbracket
      exact .inl ⟨word, hwords, hbracket, by rw [hrest, List.head?_cons]⟩
    · obtain ⟨rfl, -⟩ := List.cons.inj hrest
      exact .inr ⟨word, ws, hwords⟩
  · rintro (⟨word, hwords, hbracket, hvalue⟩ | ⟨word, rest, hwords⟩)
    · obtain ⟨ws, hws⟩ := List.head?_eq_some_iff.1 hvalue
      exact ⟨word, ws, by rw [hwords, if_neg hbracket, hws]; rfl, by rw [hwords, List.head?_cons]⟩
    · exact ⟨word, _, by rw [hwords]; rfl, by rw [hwords, List.head?_cons]⟩

/-- A value comes back if and only if the parameters of the put have it behind the first word of
    the key: the key is one word and the value another, or the key has the value for its
    second word. -/
theorem putThenGet_iff (hkey : ∀ b ∈ key, Printable b) (hvalue : ∀ b ∈ value, Printable b) :
    PutThenGet key value ↔
      (∃ word, words key = [word] ∧ 93 ∉ key ∧
        value ≠ [] ∧ 32 ∉ value ∧ 44 ∉ value ∧ 93 ∉ value) ∨
      ∃ word rest, words key = word :: value :: rest := by
  rw [← secondIs_iff]
  exact ⟨PutThenGet.secondIs hkey hvalue, putThenGet_of_secondIs hkey hvalue⟩

/-- A value of one word under a key of one word. -/
theorem putThenGet_words : PutThenGet (ofText "key") (ofText "value") ↔
    (∃ word, words (ofText "key") = [word] ∧ 93 ∉ ofText "key" ∧ ofText "value" ≠ [] ∧
      32 ∉ ofText "value" ∧ 44 ∉ ofText "value" ∧ 93 ∉ ofText "value") ∨
    ∃ word rest, words (ofText "key") = word :: ofText "value" :: rest :=
  putThenGet_iff (printable_of_all (by decide)) (printable_of_all (by decide))

/-- The blank in a value is lost. -/
theorem not_forall_putThenGet : ¬∀ key value : Bytes, key ≠ [] → (∀ b ∈ key, Printable b) →
    (∀ b ∈ value, Printable b) → PutThenGet key value := by
  intro h
  have hkey : ∀ b ∈ ofText "k", Printable b := printable_of_all (by decide)
  have hvalue : ∀ b ∈ ofText "a b", Printable b := printable_of_all (by decide)
  obtain ⟨word, rest, hparams, -⟩ := (h _ _ (by decide) hkey hvalue).secondIs hkey hvalue
  have hword : words (ofText "k") ++ (if 93 ∈ ofText "k" then [] else words (ofText "a b")) =
      [ofText "k", ofText "ab"] := by decide
  rw [hword] at hparams
  have := (List.cons.inj (List.cons.inj hparams).2).1
  exact absurd this (by decide)

end PutThenGet

end Bitcask.Rpc
