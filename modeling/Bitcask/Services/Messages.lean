import Bitcask.Library.MessageHead
import Bitcask.Services.Queries

/-!
# Requests and responses of the HTTP server

How the HTTP server reads a request (`Http.parseRequest`) and writes a response
(`Http.buildResponse`). A request is read line by line, whatever ends the lines. So its body
is not what has been sent when it begins or ends with a line break.

* `parseRequest_requestText`: what is read is what a client sends, but for line breaks at
  the ends of the body;
* `readResponse_buildResponse`: a response is one whatever is in its body, and a client knows
  where it ends.
-/

namespace Bitcask.Http

open MessageHead (Field Trimmed trim)
open Redis (Entries isSpace ofText)

/-! ## Requests -/

/-- A request as it has been received. -/
structure Received extends HttpRequest where
  method : Bytes
  path : Bytes
  headers : Entries

/-- `stream >> word`: the next word, and what is behind it. -/
def nextWord (text : Bytes) : Bytes × Bytes :=
  let text := text.dropWhile isSpace
  (text.takeWhile (!isSpace ·), text.dropWhile (!isSpace ·))

/-- What is left out at the ends of the names and values of headers. -/
def isBlank (b : UInt8) : Bool := b == 32 || b == 9 || b == 13

/-- A header, if there is a colon. -/
def addHeader (headers : Entries) (line : Bytes) : Entries :=
  match Substring.find line [58] 0 with
  | none => headers
  | some colonPos =>
    headers.insert ((line.take colonPos).rdropWhile isBlank)
      (trim isBlank (line.drop (colonPos + 1)))

/-- Whether a line is before the end of the headers. -/
def isHeaderLine (line : Bytes) : Bool := line ≠ [13] && line ≠ []

/-- A line of the body, behind a line break unless there is nothing before it. -/
def addLine (remainingData line : Bytes) : Bytes :=
  (if remainingData ≠ [] then remainingData ++ [10] else remainingData) ++ line

/-- The path and the parameters of a URL. -/
def splitUrl (unset : Bytes → ℤ) (url : Bytes) : Bytes × Entries :=
  match Substring.find url [63] 0 with
  | some queryPos => (url.take queryPos, parseQueryParams unset (url.drop (queryPos + 1)))
  | none => (url, ∅)

def parseRequest (unset : Bytes → ℤ) (requestData : Bytes) : Received :=
  let lines := Substring.lines 10 requestData
  let (method, rest) := nextWord (lines.headD [])
  let (path, queryParams) := splitUrl unset (nextWord rest).1
  { method
    path
    queryParams
    headers := (lines.tail.takeWhile isHeaderLine).foldl addHeader ∅
    body := (lines.tail.dropWhile isHeaderLine).tail.foldl addLine [] }

/-! ### As a client sends them -/

/-- A path, and parameters that are encoded. -/
def requestUrl (path : Bytes) (params : List (Bytes × Bytes)) : Bytes :=
  path ++ if params = [] then [] else 63 :: joinPairs params

/-- `POST /bitcask/put HTTP/1.1`. -/
def requestLine (method url : Bytes) : Bytes := method ++ 32 :: (url ++ 32 :: ofText "HTTP/1.1")

def requestText (method path : Bytes) (params : List (Bytes × Bytes)) (headers : List Field)
    (body : Bytes) : Bytes :=
  MessageHead.write (requestLine method (requestUrl path params)) headers ++ body

/-- What is left of a body when it has been read in lines. -/
def keptBody (body : Bytes) : Bytes :=
  (if body.getLast? = some 10 then body.dropLast else body).dropWhile (· == 10)

/-- A word: a text without white space, that is not empty. -/
def IsWord (text : Bytes) : Prop := text ≠ [] ∧ ∀ b ∈ text, isSpace b = false

theorem isWord_of_all {text : Bytes} (hne : text ≠ []) (h : text.all (!isSpace ·) = true) :
    IsWord text :=
  ⟨hne, by simpa using h⟩

/-- A header is read as it is sent. -/
structure IsHeader (field : Field) : Prop where
  name : 58 ∉ field.1 ∧ 10 ∉ field.1
  name_last : ∀ b ∈ field.1.getLast?, isBlank b = false
  value : 10 ∉ field.2
  trimmed : Trimmed isBlank field.2

section Parsing

variable {unset : Bytes → ℤ} {method path line body : Bytes} {field : Field}
  {headers : List Field} {texts params : List (Bytes × Bytes)}

theorem nextWord_append {word : Bytes} (h : IsWord word) {rest : Bytes}
    (hrest : ∀ b ∈ rest.head?, isSpace b = true) : nextWord (word ++ rest) = (word, rest) := by
  obtain ⟨hne, hword⟩ := h
  have hskip : (word ++ rest).dropWhile isSpace = word ++ rest := by
    obtain ⟨b, word, rfl⟩ := List.exists_cons_of_ne_nil hne
    rw [List.cons_append, List.dropWhile_cons_of_neg]
    simp [hword b List.mem_cons_self]
  have hall : ∀ b ∈ word, (!isSpace b) = true := fun b hb => by simp [hword b hb]
  have hstop : rest.takeWhile (!isSpace ·) = [] ∧ rest.dropWhile (!isSpace ·) = rest := by
    cases rest with
    | nil => exact ⟨rfl, rfl⟩
    | cons b rest => simp [hrest b rfl]
  rw [nextWord]
  simp only [hskip, List.takeWhile_append_of_pos hall, List.dropWhile_append_of_pos hall,
    hstop.1, hstop.2, List.append_nil]

theorem nextWord_cons {b : UInt8} (h : isSpace b = true) (text : Bytes) :
    nextWord (b :: text) = nextWord text := by
  simp only [nextWord, List.dropWhile_cons_of_pos h]

/-! ### Lines -/

/-- The lines of a head, each with the CR at its end. -/
theorem lines_write (hline : 10 ∉ line) (h : ∀ field ∈ headers, 10 ∉ MessageHead.fieldLine field)
    (body : Bytes) : Substring.lines 10 (MessageHead.write line headers ++ body) =
      (line ++ [13]) :: (headers.map fun field => MessageHead.fieldLine field ++ [13]) ++
        [13] :: Substring.lines 10 body := by
  have hfields : Substring.lines 10 (MessageHead.writeFields headers ++ ([13] ++ 10 :: body)) =
      (headers.map fun field => MessageHead.fieldLine field ++ [13]) ++
        [13] :: Substring.lines 10 body := by
    induction headers with
    | nil => exact Substring.lines_append_cons (by decide) body
    | cons field headers ih =>
      obtain ⟨hfield, hheaders⟩ := List.forall_mem_cons.1 h
      have htext : MessageHead.writeFields (field :: headers) ++ ([13] ++ 10 :: body) =
          (MessageHead.fieldLine field ++ [13]) ++
            10 :: (MessageHead.writeFields headers ++ ([13] ++ 10 :: body)) := by
        simp [MessageHead.writeFields, MessageHead.crlf]
      rw [htext, Substring.lines_append_cons (by simp [hfield]), ih hheaders]
      rfl
  have htext : MessageHead.write line headers ++ body =
      (line ++ [13]) ++ 10 :: (MessageHead.writeFields headers ++ ([13] ++ 10 :: body)) := by
    simp [MessageHead.write, MessageHead.crlf]
  rw [htext, Substring.lines_append_cons (by simp [hline]), hfields]
  rfl

theorem foldl_addLine {remainingData : Bytes} (h : remainingData ≠ []) (pieces : List Bytes) :
    pieces.foldl addLine remainingData = remainingData ++ pieces.flatMap (10 :: ·) := by
  induction pieces generalizing remainingData with
  | nil => exact (List.append_nil _).symm
  | cons piece pieces ih =>
    have hline : addLine remainingData piece = remainingData ++ 10 :: piece := by
      rw [addLine, if_pos h, List.append_assoc, List.singleton_append]
    rw [List.foldl_cons, hline, ih (by simp), List.flatMap_cons, List.append_assoc]

theorem intercalate_cons (first : Bytes) (pieces : List Bytes) :
    [10].intercalate (first :: pieces) = first ++ pieces.flatMap (10 :: ·) := by
  induction pieces generalizing first with
  | nil => simp
  | cons piece pieces ih =>
    rw [List.intercalate_cons_cons, ih, List.flatMap_cons, List.append_assoc]
    rfl

/-- Only line breaks in front are lost when the pieces between them are put together again. -/
theorem foldl_addLine_splitOn (text : Bytes) :
    (text.splitOn 10).foldl addLine [] = text.dropWhile (· == 10) := by
  induction text with
  | nil => rfl
  | cons b text ih =>
    by_cases hb : b = 10
    · rw [hb, List.splitOn_cons_eq_if_modifyHead, if_pos (beq_self_eq_true _), List.foldl_cons,
        List.dropWhile_cons_of_pos rfl]
      exact ih
    · rcases hsplit : text.splitOn 10 with _ | ⟨first, pieces⟩
      · exact absurd hsplit (List.splitOn_ne_nil _ _)
      have htext : b :: text = (b :: first) ++ pieces.flatMap (10 :: ·) := by
        rw [List.cons_append, ← intercalate_cons, ← hsplit, List.intercalate_splitOn]
      rw [List.splitOn_cons_eq_if_modifyHead, if_neg (by simp [hb]), hsplit, List.modifyHead_cons,
        List.foldl_cons, List.dropWhile_cons_of_neg (by simp [hb]), htext]
      exact foldl_addLine (List.cons_ne_nil _ _) pieces

theorem foldl_addLine_lines (body : Bytes) :
    (Substring.lines 10 body).foldl addLine [] = keptBody body := by
  rcases eq_or_ne body [] with rfl | hbody
  · rfl
  · rw [Substring.lines_eq_splitOn hbody, foldl_addLine_splitOn, keptBody]

/-- A body is kept if there is no line break at its ends. -/
theorem keptBody_eq_iff (body : Bytes) :
    keptBody body = body ↔ body.head? ≠ some 10 ∧ body.getLast? ≠ some 10 := by
  constructor
  · intro h
    have hlast : body.getLast? ≠ some 10 := by
      intro hlast
      have hne : body ≠ [] := by
        rintro rfl
        cases hlast
      have hlength : (keptBody body).length ≤ body.length - 1 := by
        rw [keptBody, if_pos hlast, ← List.length_dropLast]
        exact (List.dropWhile_sublist _).length_le
      have := List.length_pos_iff.2 hne
      rw [h] at hlength
      omega
    refine ⟨fun hhead => ?_, hlast⟩
    obtain ⟨body, rfl⟩ := List.head?_eq_some_iff.1 hhead
    have hlength : (keptBody (10 :: body)).length ≤ body.length := by
      rw [keptBody, if_neg hlast, List.dropWhile_cons_of_pos rfl]
      exact (List.dropWhile_sublist _).length_le
    rw [h, List.length_cons] at hlength
    omega
  · rintro ⟨hhead, hlast⟩
    rw [keptBody, if_neg hlast]
    cases body with
    | nil => rfl
    | cons b body =>
      refine List.dropWhile_cons_of_neg fun hb => hhead ?_
      rw [List.head?_cons, eq_of_beq hb]

/-! ### What is read -/

theorem IsHeader.fieldLine (h : IsHeader field) : 10 ∉ MessageHead.fieldLine field := by
  simp [MessageHead.fieldLine, h.name.2, h.value]

theorem IsHeader.addHeader (h : IsHeader field) (headers : Entries) :
    addHeader headers (MessageHead.fieldLine field ++ [13]) = headers.insert field.1 field.2 := by
  have htext : MessageHead.fieldLine field ++ [13] = field.1 ++ 58 :: (32 :: (field.2 ++ [13])) := by
    simp [MessageHead.fieldLine]
  have hfind : Substring.find (field.1 ++ 58 :: (32 :: (field.2 ++ [13]))) [58] 0 =
      some (0 + field.1.length) :=
    Substring.find_of_drop (by rfl) h.name.1
  have hname : field.1.rdropWhile isBlank = field.1 := by
    rw [List.rdropWhile_eq_self_iff]
    intro hne
    simp [h.name_last _ (List.getLast?_eq_some_getLast hne)]
  have hvalue : trim isBlank (32 :: (field.2 ++ [13])) = field.2 := by
    rw [MessageHead.trim_cons rfl, MessageHead.trim_concat rfl, h.trimmed.trim_eq]
  rw [Http.addHeader, htext, hfind, Nat.zero_add]
  simp only [List.take_left, ← List.drop_drop, List.drop_left, List.drop_one, List.tail_cons,
    hname, hvalue]

theorem IsHeader.isHeaderLine (field : Field) :
    isHeaderLine (MessageHead.fieldLine field ++ [13]) = true := by
  have hline : MessageHead.fieldLine field ++ [13] ≠ [13] := by
    intro h
    have := congrArg List.length h
    simp only [MessageHead.fieldLine, List.length_append, List.length_cons, List.length_nil] at this
    omega
  simp [Http.isHeaderLine, hline]

theorem foldl_addHeader (h : ∀ field ∈ headers, IsHeader field) (entries : Entries) :
    (headers.map fun field => MessageHead.fieldLine field ++ [13]).foldl addHeader entries =
      headers.foldl (fun entries field => entries.insert field.1 field.2) entries := by
  induction headers generalizing entries with
  | nil => rfl
  | cons field headers ih =>
    obtain ⟨hfield, hheaders⟩ := List.forall_mem_cons.1 h
    rw [List.map_cons, List.foldl_cons, hfield.addHeader, ih hheaders, List.foldl_cons]

theorem splitUrl_requestUrl (hpath : 63 ∉ path) (texts : List (Bytes × Bytes)) :
    splitUrl unset (requestUrl path texts) = (path, parseQueryParams unset (joinPairs texts)) := by
  rcases eq_or_ne texts [] with rfl | hne
  · have hnone : Substring.find path [63] 0 = none := by
      rw [Substring.find, List.drop_zero, ← List.append_nil path, Substring.index_append hpath]
      rfl
    rw [splitUrl, requestUrl, if_pos rfl, List.append_nil, hnone]
    rfl
  · have hfind : Substring.find (path ++ 63 :: joinPairs texts) [63] 0 = some (0 + path.length) :=
      Substring.find_of_drop (by rfl) hpath
    rw [splitUrl, requestUrl, if_neg hne, hfind, Nat.zero_add]
    simp only [List.take_left, ← List.drop_drop, List.drop_left, List.drop_one, List.tail_cons]

theorem PercentEncodes.isSpace_eq {text bytes : Bytes} (h : PercentEncodes text bytes) :
    ∀ b ∈ text, isSpace b = false := by
  induction h with
  | nil => exact nofun
  | cons hhi hlo _ ih =>
    exact List.forall_mem_cons.2 ⟨rfl, List.forall_mem_cons.2 ⟨(ne_of_hexDigit hhi).1,
      List.forall_mem_cons.2 ⟨(ne_of_hexDigit hlo).1, ih⟩⟩⟩
  | plain hb _ ih => exact List.forall_mem_cons.2 ⟨hb.2, ih⟩

theorem isSpace_joinPairs (h : List.Forall₂ PairEncodes texts params) :
    ∀ b ∈ joinPairs texts, isSpace b = false := by
  have hjoin {text pair : Bytes × Bytes} (hpair : PairEncodes text pair) :
      ∀ b ∈ joinPair text, isSpace b = false :=
    List.forall_mem_append.2 ⟨hpair.1.isSpace_eq, List.forall_mem_cons.2 ⟨rfl, hpair.2.isSpace_eq⟩⟩
  induction h with
  | nil => exact nofun
  | @cons text pair texts params hpair hrest ih =>
    cases texts with
    | nil =>
      intro b hb
      rw [joinPairs, List.map_singleton, List.intercalate_singleton] at hb
      exact hjoin hpair b hb
    | cons text' texts =>
      have htext : joinPairs (text :: text' :: texts) =
          joinPair text ++ 38 :: joinPairs (text' :: texts) := by
        simp [joinPairs, List.intercalate_cons_cons]
      rw [htext]
      exact List.forall_mem_append.2 ⟨hjoin hpair, List.forall_mem_cons.2 ⟨rfl, ih⟩⟩

theorem isWord_requestUrl (hpath : IsWord path) (h : List.Forall₂ PairEncodes texts params) :
    IsWord (requestUrl path texts) := by
  refine ⟨by simp [requestUrl, hpath.1], List.forall_mem_append.2 ⟨hpath.2, ?_⟩⟩
  split_ifs
  · exact nofun
  · exact List.forall_mem_cons.2 ⟨rfl, isSpace_joinPairs h⟩

theorem IsWord.notMem {word : Bytes} (h : IsWord word) : 10 ∉ word := fun hmem =>
  absurd (h.2 10 hmem) (by decide)

/-- What is read of a request. -/
structure Reads (request : Received) (method path : Bytes) (params : List (Bytes × Bytes))
    (headers : List Field) (body : Bytes) : Prop where
  method_eq : request.method = method
  path_eq : request.path = path
  param_eq : ∀ key, request.queryParams[key]? = params.reverse.lookup key
  header_eq : ∀ name, request.headers[name]? = headers.reverse.lookup name
  body_eq : request.body = body

theorem reads_requestText (hmethod : IsWord method) (hpath : IsWord path) (hquery : 63 ∉ path)
    (hparams : List.Forall₂ PairEncodes texts params) (hheaders : ∀ field ∈ headers, IsHeader field)
    (body : Bytes) :
    Reads (parseRequest unset (requestText method path texts headers body)) method path params
      headers (keptBody body) := by
  have hurl := isWord_requestUrl hpath hparams
  have hline : 10 ∉ requestLine method (requestUrl path texts) := by
    simp [requestLine, hmethod.notMem, hurl.notMem, ofText]
  have hlines : Substring.lines 10 (requestText method path texts headers body) = _ :=
    lines_write hline (fun field hfield => (hheaders field hfield).fieldLine) body
  have hfirst : nextWord (requestLine method (requestUrl path texts) ++ [13]) =
      (method, 32 :: (requestUrl path texts ++ 32 :: (ofText "HTTP/1.1" ++ [13]))) := by
    have hspace : ∀ b ∈ (32 :: (requestUrl path texts ++
        32 :: (ofText "HTTP/1.1" ++ [13]))).head?, isSpace b = true := by
      rintro b ⟨⟩
      rfl
    have := nextWord_append hmethod hspace
    simpa [requestLine] using this
  have hsecond : nextWord (32 :: (requestUrl path texts ++ 32 :: (ofText "HTTP/1.1" ++ [13]))) =
      (requestUrl path texts, 32 :: (ofText "HTTP/1.1" ++ [13])) := by
    rw [nextWord_cons rfl]
    exact nextWord_append hurl (by rintro b ⟨⟩; rfl)
  have hall : ∀ line ∈ headers.map fun field => MessageHead.fieldLine field ++ [13],
      isHeaderLine line = true :=
    List.forall_mem_map.2 fun field _ => IsHeader.isHeaderLine field
  have htake : ((headers.map fun field => MessageHead.fieldLine field ++ [13]) ++
      [13] :: Substring.lines 10 body).takeWhile isHeaderLine =
        headers.map fun field => MessageHead.fieldLine field ++ [13] := by
    rw [List.takeWhile_append_of_pos hall]
    exact List.append_nil _
  have hdrop : ((headers.map fun field => MessageHead.fieldLine field ++ [13]) ++
      [13] :: Substring.lines 10 body).dropWhile isHeaderLine = [13] :: Substring.lines 10 body := by
    rw [List.dropWhile_append_of_pos hall]
    rfl
  have hparse : parseRequest unset (requestText method path texts headers body) =
      { method, path
        queryParams := parseQueryParams unset (joinPairs texts)
        headers := headers.foldl (fun entries field => entries.insert field.1 field.2) ∅
        body := keptBody body } := by
    simp only [parseRequest, hlines, List.cons_append, List.headD_cons, List.tail_cons, hfirst,
      hsecond, splitUrl_requestUrl hquery, htake, hdrop, foldl_addHeader hheaders,
      foldl_addLine_lines]
  rw [hparse]
  refine ⟨rfl, rfl, getElem?_parseQueryParams hparams, fun name => ?_, rfl⟩
  rw [getElem?_foldl_insert]
  simp

/-- What is read of a request is what a client sends, but its body is so if and only if it neither
    begins nor ends with a line break. -/
theorem parseRequest_requestText (hmethod : IsWord method) (hpath : IsWord path)
    (hquery : 63 ∉ path) (hparams : List.Forall₂ PairEncodes texts params)
    (hheaders : ∀ field ∈ headers, IsHeader field) (body : Bytes) :
    let request := parseRequest unset (requestText method path texts headers body)
    Reads request method path params headers request.body ∧
      (request.body = body ↔ body.head? ≠ some 10 ∧ body.getLast? ≠ some 10) := by
  have hreads : Reads (parseRequest unset (requestText method path texts headers body)) method path
      params headers (keptBody body) := reads_requestText hmethod hpath hquery hparams hheaders body
  refine ⟨{ hreads with body_eq := rfl }, ?_⟩
  rw [hreads.body_eq]
  exact keptBody_eq_iff body

/-- A request with a parameter and a header, and a line break behind its body. -/
theorem parseRequest_requestText_newline :
    (parseRequest (fun _ => 0) (requestText (ofText "POST") (ofText "/p") [([37, 54, 66], [])]
      [(ofText "Host", ofText "a:1")] [97, 10])).body ≠ [97, 10] := by
  have hkey : PairEncodes ([37, 54, 66], []) (([107] : Bytes), ([] : Bytes)) :=
    ⟨.cons (by decide) (by decide) .nil, .nil⟩
  have hheader : ∀ field ∈ [(ofText "Host", ofText "a:1")], IsHeader field :=
    List.forall_mem_singleton.2 ⟨by decide, (MessageHead.trimmed_of_all (by decide)).last, by decide,
      MessageHead.trimmed_of_all (by decide)⟩
  have hmethod : IsWord (ofText "POST") := isWord_of_all (by decide) (by decide)
  have hpath : IsWord (ofText "/p") := isWord_of_all (by decide) (by decide)
  intro h
  have hends := (parseRequest_requestText hmethod hpath (by decide) (.cons hkey .nil) hheader
    [97, 10]).2.1 h
  exact absurd hends.2 (by decide)

end Parsing

/-! ## Responses -/

/-- What the constructor of a response puts there, and no handler changes. -/
def HttpResponse.headers (_response : HttpResponse) : Entries :=
  (∅ : Entries).insert (ofText "Content-Type") (ofText "application/json")

/-- The text for a status code. -/
def reasonPhrase (statusCode : ℕ) : String :=
  match statusCode with
  | 200 => "OK"
  | 400 => "Bad Request"
  | 404 => "Not Found"
  | 405 => "Method Not Allowed"
  | 500 => "Internal Server Error"
  | _ => "Unknown"

def statusLine (statusCode : ℕ) : Bytes :=
  ofText "HTTP/1.1 " ++ Decimal.digits statusCode ++ 32 :: ofText (reasonPhrase statusCode)

/-- The headers of a response as they are sent: the length of the body comes last. -/
def HttpResponse.fields (response : HttpResponse) : List Field :=
  response.headers.toList ++ [(ofText "Content-Length", Decimal.digits response.body.length)]

def buildResponse (response : HttpResponse) : Bytes :=
  MessageHead.write (statusLine response.statusCode) response.fields ++ response.body

/-! ### As a client reads them -/

/-- The number that a text of digits stands for. -/
def readNumber (text : Bytes) : Option ℕ :=
  if text ≠ [] ∧ text.all Decimal.isDigit then some (Decimal.value text) else none

/-- The status code is between the version and the next space. -/
def readStatusLine (line : Bytes) : Option ℕ :=
  if ofText "HTTP/1.1 " <+: line then readNumber ((line.drop 9).takeWhile (· ≠ 32)) else none

/-- The status code, the headers and the body of a response, and what is behind it. -/
def readResponse (text : Bytes) : Option (ℕ × List Field × Bytes × Bytes) := do
  let (line, fields, rest) ← MessageHead.read text
  let statusCode ← readStatusLine line
  let length ← readNumber (← fields.lookup (ofText "Content-Length"))
  if length ≤ rest.length then
    some (statusCode, fields, rest.take length, rest.drop length)
  else none

theorem readNumber_digits (n : ℕ) : readNumber (Decimal.digits n) = some n := by
  have hall : (Decimal.digits n).all Decimal.isDigit = true :=
    List.all_eq_true.2 fun _ => Decimal.isDigit_of_mem_digits
  rw [readNumber, if_pos ⟨Decimal.digits_ne_nil n, hall⟩, Decimal.value_digits]

/-- There are only digits in a number. -/
theorem notMem_digits {b : UInt8} (h : Decimal.isDigit b = false) (n : ℕ) :
    b ∉ Decimal.digits n := fun hmem => by
  rw [Decimal.isDigit_of_mem_digits hmem] at h
  cases h

theorem trimmed_digits (n : ℕ) : Trimmed MessageHead.isBlank (Decimal.digits n) := by
  refine MessageHead.trimmed_of_all (List.all_eq_true.2 fun b hb => ?_)
  rw [Bool.not_eq_true', MessageHead.isBlank, Bool.or_eq_false_iff, beq_eq_false_iff_ne,
    beq_eq_false_iff_ne]
  exact ⟨fun h => notMem_digits rfl n (h ▸ hb), fun h => notMem_digits rfl n (h ▸ hb)⟩

theorem readStatusLine_statusLine (statusCode : ℕ) :
    readStatusLine (statusLine statusCode) = some statusCode := by
  have hline : statusLine statusCode = ofText "HTTP/1.1 " ++
      (Decimal.digits statusCode ++ 32 :: ofText (reasonPhrase statusCode)) := by
    rw [statusLine, List.append_assoc]
  have hdrop : (statusLine statusCode).drop 9 =
      Decimal.digits statusCode ++ 32 :: ofText (reasonPhrase statusCode) := by
    rw [hline]
    rfl
  rw [readStatusLine, if_pos ⟨_, hline.symm⟩, hdrop,
    Substring.takeWhile_append_cons (notMem_digits rfl statusCode), readNumber_digits]

theorem notMem_statusLine (statusCode : ℕ) : 13 ∉ statusLine statusCode := by
  have hphrase : 13 ∉ ofText (reasonPhrase statusCode) := by
    unfold reasonPhrase
    split <;> decide
  rw [statusLine, List.mem_append, List.mem_append, List.mem_cons]
  rintro ((h | h) | h | h)
  · exact absurd h (by decide)
  · exact notMem_digits rfl statusCode h
  · exact absurd h (by decide)
  · exact hphrase h

section Responses

variable (response : HttpResponse)

theorem HttpResponse.fields_eq : response.fields =
    [(ofText "Content-Type", ofText "application/json"),
      (ofText "Content-Length", Decimal.digits response.body.length)] := rfl

theorem HttpResponse.plain_fields : ∀ field ∈ response.fields, MessageHead.Plain field := by
  have hname : 58 ∉ ofText "Content-Length" ∧ 13 ∉ ofText "Content-Length" := by decide
  rw [response.fields_eq, List.forall_mem_cons, List.forall_mem_singleton]
  exact ⟨⟨by decide, by decide, MessageHead.trimmed_of_all (by decide)⟩,
    ⟨hname, notMem_digits rfl _, trimmed_digits _⟩⟩

/-- A client reads what is in a response, whatever it is, and what is behind it. -/
theorem readResponse_buildResponse (rest : Bytes) :
    readResponse (buildResponse response ++ rest) =
      some (response.statusCode, response.fields, response.body, rest) := by
  have hlookup : response.fields.lookup (ofText "Content-Length") =
      some (Decimal.digits response.body.length) := rfl
  rw [readResponse, buildResponse, List.append_assoc,
    MessageHead.read_write (notMem_statusLine _) response.plain_fields]
  simp only [Option.bind_eq_bind, Option.bind_some, readStatusLine_statusLine, hlookup,
    readNumber_digits, List.length_append, Nat.le_add_right, if_true, List.take_left,
    List.drop_left]

end Responses

end Bitcask.Http
