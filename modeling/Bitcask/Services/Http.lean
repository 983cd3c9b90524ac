import Bitcask.Library.Json
import Bitcask.Library.Substring
import Bitcask.Redis.Resp
import Bitcask.Services.Database

/-!
# The HTTP server

The handlers of the HTTP server over any database (`Http.handlePut` to
`Http.handleListKeys`), and how they write JSON (`Http.jsonEscape`). The body of a put is not
parsed but searched for the names of its fields (`Http.field`).

* `handleListKeys_parse_iff`: the keys listed are a JSON array of strings that stands for them, if
  and only if none of them has a control character without an escape of its own.
-/

namespace Bitcask.Http

open Redis (Entries ofText)
open Services

/-! ## Requests and responses -/

/-- A request, by what the handlers read of it. -/
structure HttpRequest where
  queryParams : Entries
  body : Bytes

structure HttpResponse where
  statusCode : ℕ
  body : Bytes
deriving DecidableEq, Repr

def HttpResponse.ok (body : Bytes) : HttpResponse := ⟨200, body⟩

/-- A response that is an error, with its text. -/
def HttpResponse.error (statusCode : ℕ) (text : String) : HttpResponse :=
  ⟨statusCode, ofText "\x7b\"error\": \"" ++ ofText text ++ ofText "\"\x7d"⟩

/-! ## Escaping -/

/-- What `json_escape` writes for a byte. -/
def escapeByte (b : UInt8) : Bytes :=
  if b = 34 then [92, 34]
  else if b = 92 then [92, 92]
  else if b = 8 then [92, 98]
  else if b = 12 then [92, 102]
  else if b = 10 then [92, 110]
  else if b = 13 then [92, 114]
  else if b = 9 then [92, 116]
  else [b]

def jsonEscape (str : Bytes) : Bytes := str.flatMap escapeByte

/-- A byte that is no control character, or one with an escape of its own. -/
def Escapable (b : UInt8) : Prop := 32 ≤ b ∨ b = 8 ∨ b = 9 ∨ b = 10 ∨ b = 12 ∨ b = 13

instance : DecidablePred Escapable := fun _ => inferInstanceAs (Decidable (_ ∨ _))

/-- All bytes of a text are read again when it has been escaped. -/
def Readable (str : Bytes) : Prop := ∀ b ∈ str, Escapable b

instance : DecidablePred Readable := List.decidableBAll Escapable

theorem escaping : Json.Escaping escapeByte Escapable where
  head_ne b := by
    unfold escapeByte
    split_ifs with h
    all_goals first
      | exact ⟨92, _, rfl, by decide⟩
      | exact ⟨b, [], rfl, h⟩
  readChar_good {b} h rest := by
    unfold escapeByte
    split_ifs with h34 h92 h8 h12 h10 h13 h9
    case neg =>
      -- The bytes left are written as they are.
      have hb : 32 ≤ b := by simpa [Escapable, h8, h12, h10, h13, h9] using h
      simp [Json.readChar, h92, h34, UInt8.not_lt.2 hb]
    all_goals
      subst b
      rfl
  readChar_bad {b} h rest := by
    simp only [Escapable, not_or] at h
    obtain ⟨h32, h8, h9, h10, h12, h13⟩ := h
    have h34 : b ≠ 34 := by
      rintro rfl
      exact h32 (by decide)
    have h92 : b ≠ 92 := by
      rintro rfl
      exact h32 (by decide)
    simp [escapeByte, Json.readChar, h34, h92, h8, h9, h10, h12, h13, UInt8.not_le.1 h32]

/-- What is escaped is read again if all of it has an escape. -/
theorem readString_jsonEscape (str rest : Bytes) :
    Json.readString (34 :: (jsonEscape str ++ 34 :: rest)) =
      if Readable str then some (str, rest) else none := by
  split_ifs with h
  · exact escaping.readString_of_good h rest
  · exact escaping.readString_of_bad h rest

/-! ## Handlers -/

/-- The text of a field: behind its name, a colon and a quote, up to the next quote. What is
    not found makes a bad request. -/
def field (body : Bytes) (name noName noColon noText : String) : Except HttpResponse Bytes :=
  match Substring.find body (34 :: (ofText name ++ [34])) 0 with
  | none => .error (.error 400 noName)
  | some pos =>
    match Substring.find body [58] pos with
    | none => .error (.error 400 noColon)
    | some colon =>
      match Substring.find body [34] colon with
      | none => .error (.error 400 noText)
      | some quote =>
        let start := quote + 1
        match Substring.find body [34] start with
        | none => .error (.error 400 noText)
        | some stop => .ok ((body.drop start).take (stop - start))

def keyField (body : Bytes) : Except HttpResponse Bytes :=
  field body "key" "Missing key field" "Invalid key format" "Invalid key value format"

def valueField (body : Bytes) : Except HttpResponse Bytes :=
  field body "value" "Missing value field" "Invalid value format" "Invalid value format"

variable {σ : Type} (database : Database σ)

def handlePut (request : HttpRequest) (state : σ) : HttpResponse × σ :=
  if request.body = [] then (.error 400 "Empty request body", state)
  else
    match keyField request.body with
    | .error response => (response, state)
    | .ok key =>
      match valueField request.body with
      | .error response => (response, state)
      | .ok value =>
        match database.put key value state with
        | (.ok _, state) => (.ok (ofText "\x7b\"status\": \"OK\"\x7d"), state)
        | (.error _, state) => (.error 500 "Failed to put data", state)

def handleGet (request : HttpRequest) (state : σ) : HttpResponse × σ :=
  match request.queryParams[ofText "key"]? with
  | none => (.error 400 "Missing key parameter", state)
  | some key =>
    match database.get key state with
    | (.ok value, state) =>
      (.ok (ofText "\x7b\"key\": \"" ++ jsonEscape key ++ ofText "\", \"value\": \"" ++
        jsonEscape value ++ ofText "\"\x7d"), state)
    | (.error .keyNotFound, state) => (.error 404 "Key not found", state)
    | (.error _, state) => (.error 500 "Failed to get data", state)

def handleDelete (request : HttpRequest) (state : σ) : HttpResponse × σ :=
  match request.queryParams[ofText "key"]? with
  | none => (.error 400 "Missing key parameter", state)
  | some key =>
    match database.remove key state with
    | (.ok _, state) => (.ok (ofText "\x7b\"status\": \"OK\"\x7d"), state)
    | (.error _, state) => (.error 500 "Failed to delete data", state)

/-- A key in quotes. -/
def quoted (key : Bytes) : Bytes := 34 :: (jsonEscape key ++ [34])

def handleListKeys (_request : HttpRequest) (state : σ) : HttpResponse × σ :=
  match database.listKeys state with
  | (.ok keys, state) => (.ok (91 :: (Json.writeItems quoted keys ++ [93])), state)
  | (.error _, state) => (.error 500 "Failed to list keys", state)

/-! ## The keys listed -/

theorem writing_quoted : Json.Writing Json.readString quoted Readable where
  head_ne key := ⟨34, _, rfl, rfl, by decide⟩
  item_good {key} h rest := by
    have hread := readString_jsonEscape key rest
    rw [if_pos h] at hread
    simpa [quoted] using hread
  item_bad {key} h rest := by
    have hread := readString_jsonEscape key rest
    rw [if_neg h] at hread
    simpa [quoted] using hread

/-- The keys listed are a JSON array of strings, and it stands for them, if and only if
    each control character among their bytes has an escape of its own. -/
theorem handleListKeys_parse_iff {keys : List Bytes} {state : σ}
    (hkeys : (database.listKeys state).1 = .ok keys) (request : HttpRequest) :
    Json.parse (Json.arrayOf Json.readString) (handleListKeys database request state).1.body =
      some keys ↔ ∀ key ∈ keys, Readable key := by
  have hbody : (handleListKeys database request state).1.body =
      91 :: (Json.writeItems quoted keys ++ [93]) := by
    rcases hlist : database.listKeys state with ⟨result, state'⟩
    rw [hlist] at hkeys
    subst hkeys
    rw [handleListKeys, hlist]
    rfl
  rw [hbody, writing_quoted.parse_arrayOf]
  constructor
  · intro h
    by_contra hkeys
    rw [if_neg hkeys] at h
    cases h
  · exact fun h => if_pos h

/-- A line break has an escape. -/
theorem handleListKeys_parse_newline :
    Json.parse (Json.arrayOf Json.readString)
      (handleListKeys Database.ofEntries ⟨∅, []⟩ ((∅ : Entries).insert [97, 10] [1])).1.body =
        some [[97, 10]] ↔ ∀ key ∈ [[97, 10]], Readable key :=
  handleListKeys_parse_iff Database.ofEntries rfl _

/-- The byte 1 is listed as it is, which no JSON string may have. -/
theorem not_forall_handleListKeys_parse : ¬∀ (entries : Entries) (request : HttpRequest),
    (∀ key ∈ entries.keys, ∀ b ∈ key, b < 128) →
    Json.parse (Json.arrayOf Json.readString)
      (handleListKeys Database.ofEntries request entries).1.body = some entries.keys := by
  intro h
  have hbytes : ∀ key ∈ ((∅ : Entries).insert [1] [1]).keys, ∀ b ∈ key, b < 128 :=
    List.forall_mem_singleton.2 (List.forall_mem_singleton.2 (by decide))
  exact absurd (h _ ⟨∅, []⟩ hbytes) (by decide)

end Bitcask.Http
