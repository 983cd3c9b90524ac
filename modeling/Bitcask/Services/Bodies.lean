import Bitcask.Services.Http

/-!
# Putting and getting over HTTP

A client puts a value by a body in which key and value are escaped (`putBody`). The server
takes the texts between quotes as they are, so that what it stores is not what was
escaped.

* `roundTrips_iff`: a value put under a key comes back if and only if neither has a quote, a
  backslash or a control character.
-/

namespace Bitcask.Http

open Redis (Entries ofText)
open Services

/-! ## Requests -/

/-- `{"key": "K", "value": "V"}`, with the key and the value escaped. -/
def putBody (key value : Bytes) : Bytes :=
  ofText "\x7b\"key\": \"" ++ jsonEscape key ++ ofText "\", \"value\": \"" ++ jsonEscape value ++
    ofText "\"\x7d"

def putRequest (key value : Bytes) : HttpRequest := ⟨∅, putBody key value⟩

def getRequest (key : Bytes) : HttpRequest := ⟨(∅ : Entries).insert (ofText "key") key, []⟩

/-- The map after a put is the one with the key and the value, and the value that a get
    answers stands for the value. -/
def RoundTrips (key value : Bytes) : Prop :=
  ∀ entries : Entries,
    let stored := (handlePut Database.ofEntries (putRequest key value) entries).2
    stored = entries.insert key value ∧
      ∃ members, Json.parse (Json.objectOf Json.readString)
          (handleGet Database.ofEntries (getRequest key) stored).1.body = some members ∧
        members.lookup (ofText "value") = some value

/-- A byte that is no control character, no quote and no backslash. -/
def Plain (b : UInt8) : Prop := 32 ≤ b ∧ b ≠ 34 ∧ b ≠ 92

instance : DecidablePred Plain := fun _ => inferInstanceAs (Decidable (_ ∧ _))

/-! ## Texts that are escaped -/

section Escaped

variable {b : UInt8} {str rest : Bytes}

theorem escapeByte_eq_self : escapeByte b = [b] ↔
    b ≠ 34 ∧ b ≠ 92 ∧ b ≠ 8 ∧ b ≠ 12 ∧ b ≠ 10 ∧ b ≠ 13 ∧ b ≠ 9 := by
  unfold escapeByte
  split_ifs <;> simp [*]

theorem plain_iff : Plain b ↔ Escapable b ∧ escapeByte b = [b] := by
  rw [escapeByte_eq_self]
  simp only [Plain, Escapable, UInt8.le_iff_toNat_le, ne_eq, ← UInt8.toNat_inj, UInt8.reduceToNat]
  omega

theorem jsonEscape_eq_self : jsonEscape str = str ↔ ∀ b ∈ str, escapeByte b = [b] := by
  induction str with
  | nil => simp [jsonEscape]
  | cons b str ih =>
    rw [List.forall_mem_cons, ← ih]
    show escapeByte b ++ jsonEscape str = b :: str ↔ _
    constructor
    · intro h
      have hlength : str.length ≤ (jsonEscape str).length := escaping.length_le str
      obtain ⟨c, text, hb, -⟩ := escaping.head_ne b
      rw [hb, List.cons_append] at h
      obtain ⟨rfl, htext⟩ := List.cons.inj h
      -- There is no room for anything behind the first byte.
      have hnil : text = [] := by
        have := congrArg List.length htext
        rw [List.length_append] at this
        exact List.length_eq_zero_iff.1 (by omega)
      subst hnil
      exact ⟨hb, htext⟩
    · rintro ⟨hb, hstr⟩
      rw [hb, hstr]
      rfl

theorem mem_jsonEscape (h : 34 ∈ jsonEscape str) : 34 ∈ str := by
  obtain ⟨b, hb, hmem⟩ := List.mem_flatMap.1 h
  unfold escapeByte at hmem
  split_ifs at hmem with h34
  all_goals simp at hmem
  · exact h34 ▸ hb
  · exact hmem ▸ hb

/-- What is found up to the next quote is the text itself only if nothing in it is escaped. -/
theorem exists_upToQuote (str tail : Bytes) : ∃ text rest,
    jsonEscape str ++ 34 :: tail = text ++ 34 :: rest ∧ 34 ∉ text ∧
      (text = str ↔ ∀ b ∈ str, escapeByte b = [b]) := by
  by_cases hquote : 34 ∈ str
  · obtain ⟨text, rest, heq, htext⟩ :=
      List.eq_append_cons_of_mem (List.mem_append_right (jsonEscape str) (List.mem_cons_self (l := tail)))
    refine ⟨text, rest, heq, htext, ?_, fun h => ?_⟩
    · rintro rfl
      exact absurd hquote htext
    · exact absurd (h 34 hquote) (by decide)
  · exact ⟨jsonEscape str, tail, rfl, mt mem_jsonEscape hquote, jsonEscape_eq_self⟩

end Escaped

/-! ## What is found in a body -/

/-- A field is what is behind its name, a colon and a quote, up to the next quote. -/
theorem field_of_found {body before between text rest : Bytes} {name noName noColon noText : String}
    (hfound : Substring.Found (34 :: (ofText name ++ [34])) body
      (before ++ 58 :: (between ++ 34 :: (text ++ 34 :: rest))))
    (hbefore : 58 ∉ before) (hbetween : 34 ∉ between) (htext : 34 ∉ text) :
    field body name noName noColon noText = .ok text := by
  obtain ⟨pos, hpos, hdrop⟩ := hfound
  have hname : Substring.find body (34 :: (ofText name ++ [34])) 0 = some pos := by
    simp [Substring.find, hpos]
  have hcolon : Substring.find body [58] pos = some (pos + before.length) :=
    Substring.find_of_drop hdrop hbefore
  have hdrop' : body.drop (pos + before.length) =
      (58 :: between) ++ 34 :: (text ++ 34 :: rest) := by
    rw [← List.drop_drop, hdrop, List.drop_left]
    rfl
  have hquote : Substring.find body [34] (pos + before.length) =
      some (pos + before.length + (58 :: between).length) :=
    Substring.find_of_drop hdrop' (by simp [hbetween])
  have hdrop'' : body.drop (pos + before.length + (58 :: between).length + 1) =
      text ++ 34 :: rest := by
    rw [← List.drop_drop, ← List.drop_drop, hdrop', List.drop_left]
    rfl
  have hstop : Substring.find body [34] (pos + before.length + (58 :: between).length + 1) =
      some (pos + before.length + (58 :: between).length + 1 + text.length) :=
    Substring.find_of_drop hdrop'' htext
  rw [field, hname]
  simp only [hcolon, hquote, hstop, hdrop'', Nat.add_sub_cancel_left, List.take_left]

section Body

variable {key value text rest : Bytes}

/-- What follows the key in a body. -/
def behindKey (value : Bytes) : Bytes :=
  ofText ", \"value\": \"" ++ jsonEscape value ++ ofText "\"\x7d"

theorem keyField_putBody (h : jsonEscape key ++ 34 :: behindKey value = text ++ 34 :: rest)
    (htext : 34 ∉ text) : keyField (putBody key value) = .ok text := by
  have hbody : putBody key value =
      [123] ++ (ofText "\"key\"" ++ 58 :: ([32] ++ 34 :: (text ++ 34 :: rest))) := by
    rw [← h]
    simp [putBody, behindKey, ofText]
  have hfound : Substring.Found (34 :: (ofText "key" ++ [34])) (putBody key value)
      (ofText "\"key\"" ++ 58 :: ([32] ++ 34 :: (text ++ 34 :: rest))) := by
    rw [hbody]
    exact (Substring.found_of_isPrefix ⟨_, rfl⟩).append (by decide)
  exact field_of_found hfound (by decide) (by decide) htext

/-- The name of the second field is found, unless the key is taken for it: then what is found
    has no colon but that of the field. -/
theorem valueField_putBody (hkey : 34 ∉ jsonEscape key)
    (h : jsonEscape value ++ 34 :: [125] = text ++ 34 :: rest) (htext : 34 ∉ text) :
    valueField (putBody key value) = .ok text := by
  set name : Bytes := 34 :: (ofText "value" ++ [34]) with hname
  set fieldText : Bytes := 58 :: ([32] ++ 34 :: (text ++ 34 :: rest)) with hfield
  have hbody : putBody key value = [123] ++ (34 :: (ofText "key" ++ (34 :: ([58, 32] ++
      (34 :: (jsonEscape key ++ (34 :: ([44, 32] ++ (name ++ fieldText))))))))) := by
    rw [hfield, ← h, hname]
    simp [putBody, ofText]
  have hsecond : Substring.Found name (34 :: ([44, 32] ++ (name ++ fieldText))) (name ++ fieldText) := by
    refine .cons (.append (Substring.found_of_isPrefix ⟨_, rfl⟩) (by decide)) ?_
    simp [hname, ofText]
  -- The key is taken for the name if it is `value`. The colon found is that of the field even so.
  obtain ⟨before, hbefore, hfound⟩ : ∃ before, 58 ∉ before ∧
      Substring.Found name (34 :: (jsonEscape key ++ (34 :: ([44, 32] ++ (name ++ fieldText)))))
        (before ++ fieldText) := by
    by_cases hbegins : name <+: 34 :: (jsonEscape key ++ (34 :: ([44, 32] ++ (name ++ fieldText))))
    · have hkeyName : jsonEscape key = ofText "value" := by
        obtain ⟨t, ht⟩ := (List.cons_prefix_cons.1 hbegins).2
        rw [List.append_assoc, List.singleton_append] at ht
        exact (Substring.eq_of_append_cons ht (by decide) hkey).symm
      rw [hkeyName] at hbegins ⊢
      refine ⟨34 :: (ofText "value" ++ (34 :: ([44, 32] ++ name))), by rw [hname]; decide, ?_⟩
      simpa using Substring.found_of_isPrefix hbegins
    · exact ⟨name, by rw [hname]; decide, (hsecond.append hkey).cons hbegins⟩
  have hbodyFound : Substring.Found name (putBody key value) (before ++ fieldText) := by
    rw [hbody]
    refine .append (.cons (.append (.cons (.append hfound (by decide)) ?_) (by decide)) ?_) (by decide)
    · simp [hname, ofText]
    · simp [hname, ofText]
  exact field_of_found hbodyFound hbefore (by decide) htext

end Body

/-! ## Round trips -/

section RoundTrip

variable {key value : Bytes}

theorem handlePut_of_fields {k v : Bytes} (entries : Entries) (hk : keyField (putBody key value) = .ok k)
    (hv : valueField (putBody key value) = .ok v) :
    (handlePut Database.ofEntries (putRequest key value) entries).2 = entries.insert k v := by
  have hbody : (putRequest key value).body ≠ [] := by simp [putRequest, putBody, ofText]
  rw [handlePut, if_neg hbody]
  simp only [putRequest, hk, hv]
  rfl

/-- A put stores nothing but what is found in the body. -/
theorem handlePut_of_keyField {k : Bytes} (entries : Entries) (hk : keyField (putBody key value) = .ok k) :
    (handlePut Database.ofEntries (putRequest key value) entries).2 = entries ∨
      ∃ v, (handlePut Database.ofEntries (putRequest key value) entries).2 = entries.insert k v := by
  rcases hv : valueField (putBody key value) with response | v
  · left
    have hbody : (putRequest key value).body ≠ [] := by simp [putRequest, putBody, ofText]
    rw [handlePut, if_neg hbody]
    simp only [putRequest, hk, hv]
  · exact .inr ⟨v, handlePut_of_fields entries hk hv⟩

/-- What a get answers is the body that puts the entry. -/
theorem handleGet_insert (key value : Bytes) (entries : Entries) :
    (handleGet Database.ofEntries (getRequest key) (entries.insert key value)).1.body =
      putBody key value := by
  have hparam : (getRequest key).queryParams[ofText "key"]? = some key := by simp [getRequest]
  rw [handleGet, hparam]
  simp only [Database.get_insert]
  rfl

/-- A member as it is written in the bodies. -/
def member (name str rest : Bytes) : Bytes :=
  34 :: (jsonEscape name ++ 34 :: 58 :: 32 :: 34 :: (jsonEscape str ++ 34 :: rest))

theorem readMember_member {name : Bytes} (hname : Readable name) (str rest : Bytes) :
    Json.readMember Json.readString (member name str rest) =
      if Readable str then some ((name, str), rest) else none := by
  have hread := readString_jsonEscape name (58 :: 32 :: 34 :: (jsonEscape str ++ 34 :: rest))
  rw [if_pos hname] at hread
  have hcolon : Json.expect 58 (58 :: 32 :: 34 :: (jsonEscape str ++ 34 :: rest)) =
      some (32 :: 34 :: (jsonEscape str ++ 34 :: rest)) := rfl
  have hspace : Json.skipWhitespace (32 :: 34 :: (jsonEscape str ++ 34 :: rest)) =
      34 :: (jsonEscape str ++ 34 :: rest) := rfl
  rw [member, Json.readMember_of_readString hread hcolon, hspace, readString_jsonEscape]
  by_cases hstr : Readable str <;> simp [hstr]

/-- A body is JSON for the key and the value, if it is JSON at all. -/
theorem parse_putBody (key value : Bytes) :
    Json.parse (Json.objectOf Json.readString) (putBody key value) =
      if Readable key ∧ Readable value then
        some [(ofText "key", key), (ofText "value", value)]
      else none := by
  set second : Bytes := 32 :: member (ofText "value") value [125] with hsecond
  have hbody : putBody key value = 123 :: member (ofText "key") key (44 :: second) := by
    simp [putBody, member, hsecond, ofText, jsonEscape, escapeByte]
  have hlength : 2 ≤ (member (ofText "key") key (44 :: second)).length := by
    simp [member]
    omega
  obtain ⟨n, hn⟩ := Nat.exists_eq_add_of_le' hlength
  have hkey : Json.readMember Json.readString
      (Json.skipWhitespace (member (ofText "key") key (44 :: second))) =
        if Readable key then some ((ofText "key", key), 44 :: second) else none :=
    readMember_member (by decide) _ _
  have hvalue : Json.readMember Json.readString (Json.skipWhitespace second) =
      if Readable value then some ((ofText "value", value), [125]) else none :=
    readMember_member (by decide) _ _
  -- The object is not empty.
  have hopen : (Json.skipWhitespace (member (ofText "key") key (44 :: second))).head? ≠ some 125 := by
    rw [member, Json.skipWhitespace_cons rfl, List.head?_cons]
    decide
  rw [hbody, Json.parse_objectOf hopen, hn]
  by_cases hk : Readable key
  · rw [if_pos hk] at hkey
    rw [Json.readItems_of_comma hkey]
    by_cases hv : Readable value
    · rw [if_pos hv] at hvalue
      rw [Json.readItems_of_closing hvalue (by decide) rfl, if_pos ⟨hk, hv⟩]
      rfl
    · rw [if_neg hv] at hvalue
      rw [Json.readItems_of_none hvalue, if_neg fun h => hv h.2]
      rfl
  · rw [if_neg hk] at hkey
    rw [Json.readItems_of_none hkey, if_neg fun h => hk h.1]
    rfl

theorem RoundTrips.plain (h : RoundTrips key value) :
    (∀ b ∈ key, Plain b) ∧ ∀ b ∈ value, Plain b := by
  obtain ⟨k, rest, hkey, hquote, hk⟩ := exists_upToQuote key (behindKey value)
  obtain ⟨v, rest', hvalue, hquote', hv⟩ := exists_upToQuote value [125]
  have hkeyField := keyField_putBody hkey hquote
  -- What has been stored in an empty map tells what has been found in the body.
  obtain ⟨hstored, members, hmembers, -⟩ := h ∅
  have hkkey : k = key := by
    rcases handlePut_of_keyField ∅ hkeyField with hput | ⟨v', hput⟩
    · rw [hput] at hstored
      have := congrArg (fun entries : Entries => entries[key]?) hstored
      simp at this
    · exact (Database.insert_inj (hput.symm.trans hstored)).1
  subst hkkey
  have hvalueField : valueField (putBody k value) = .ok v := by
    refine valueField_putBody ?_ hvalue hquote'
    rw [jsonEscape_eq_self.2 (hk.1 rfl)]
    exact hquote
  have hvvalue : v = value :=
    (Database.insert_inj ((handlePut_of_fields ∅ hkeyField hvalueField).symm.trans hstored)).2
  subst hvvalue
  rw [hstored, handleGet_insert, parse_putBody] at hmembers
  split_ifs at hmembers with hreadable
  exact ⟨fun b hb => plain_iff.2 ⟨hreadable.1 b hb, hk.1 rfl b hb⟩,
    fun b hb => plain_iff.2 ⟨hreadable.2 b hb, hv.1 rfl b hb⟩⟩

theorem roundTrips_of_plain (hkey : ∀ b ∈ key, Plain b) (hvalue : ∀ b ∈ value, Plain b) :
    RoundTrips key value := by
  intro entries
  have hkeyEscape : jsonEscape key = key :=
    jsonEscape_eq_self.2 fun b hb => (plain_iff.1 (hkey b hb)).2
  have hvalueEscape : jsonEscape value = value :=
    jsonEscape_eq_self.2 fun b hb => (plain_iff.1 (hvalue b hb)).2
  have hkeyQuote : 34 ∉ key := fun h => (hkey 34 h).2.1 rfl
  have hvalueQuote : 34 ∉ value := fun h => (hvalue 34 h).2.1 rfl
  have hkeyField : keyField (putBody key value) = .ok key :=
    keyField_putBody (by rw [hkeyEscape]) hkeyQuote
  have hvalueField : valueField (putBody key value) = .ok value :=
    valueField_putBody (by rwa [hkeyEscape]) (by rw [hvalueEscape]) hvalueQuote
  have hstored := handlePut_of_fields entries hkeyField hvalueField
  refine ⟨hstored, [(ofText "key", key), (ofText "value", value)], ?_, rfl⟩
  rw [hstored, handleGet_insert, parse_putBody, if_pos]
  exact ⟨fun b hb => (plain_iff.1 (hkey b hb)).1, fun b hb => (plain_iff.1 (hvalue b hb)).1⟩

/-- A value that is put comes back if and only if it and its key are plain. -/
theorem roundTrips_iff (key value : Bytes) :
    RoundTrips key value ↔ (∀ b ∈ key, Plain b) ∧ ∀ b ∈ value, Plain b := by
  constructor
  · exact RoundTrips.plain
  · rintro ⟨hkey, hvalue⟩
    exact roundTrips_of_plain hkey hvalue

/-- A quote in a value: what is stored is the backslash of its escape. -/
theorem not_forall_roundTrips : ¬∀ key value : Bytes, key ≠ [] → RoundTrips key value := by
  intro h
  exact (((h [107] [34] (by decide)).plain.2 34 List.mem_cons_self).2.1) rfl

end RoundTrip

end Bitcask.Http
