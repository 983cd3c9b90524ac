import Mathlib.Data.List.Basic
import Mathlib.Tactic.Common

/-!
# JSON texts

Reading JSON (RFC 8259): strings with their escapes, `null`, and arrays and objects
whose items all have one form, which is a parameter (`arrayOf`, `objectOf`). A reader takes
what it finds at the beginning of a text, and the text is refused (`none`) when
that is not of the form; a whole text may be followed by white space only (`parse`).

A string is read as bytes. The bytes from 0x80 on are taken as they are, escaped
code points in UTF-8; control characters and surrogates without the other half are refused.
-/

namespace Json

abbrev Text := List UInt8

/-- Reads a value at the beginning of a text: the value, and what is behind it. -/
abbrev Read (α : Type) := Text → Option (α × Text)

def isWhitespace (b : UInt8) : Bool := b == 32 || b == 9 || b == 10 || b == 13

def skipWhitespace (text : Text) : Text := text.dropWhile isWhitespace

@[simp]
theorem skipWhitespace_cons {b : UInt8} {text : Text} (h : isWhitespace b = false) :
    skipWhitespace (b :: text) = b :: text :=
  List.dropWhile_cons_of_neg (by simp [h])

/-! ## Strings -/

/-- The value of a hexadecimal digit, of either case. -/
def hexDigit (b : UInt8) : Option ℕ :=
  if 48 ≤ b ∧ b ≤ 57 then some (b.toNat - 48)
  else if 65 ≤ b ∧ b ≤ 70 then some (b.toNat - 55)
  else if 97 ≤ b ∧ b ≤ 102 then some (b.toNat - 87)
  else none

/-- A number of four hexadecimal digits. -/
def readHex : Read ℕ
  | a :: b :: c :: d :: text => do
    some (4096 * (← hexDigit a) + 256 * (← hexDigit b) + 16 * (← hexDigit c) + (← hexDigit d), text)
  | _ => none

/-- A code point in UTF-8. -/
def utf8 (c : ℕ) : Text :=
  if c < 0x80 then [.ofNat c]
  else if c < 0x800 then [.ofNat (0xC0 + c / 64), .ofNat (0x80 + c % 64)]
  else if c < 0x10000 then
    [.ofNat (0xE0 + c / 4096), .ofNat (0x80 + c / 64 % 64), .ofNat (0x80 + c % 64)]
  else
    [.ofNat (0xF0 + c / 262144), .ofNat (0x80 + c / 4096 % 64), .ofNat (0x80 + c / 64 % 64),
      .ofNat (0x80 + c % 64)]

/-- What is behind `\u`: one code point, or the two halves of a surrogate pair. -/
def readUnicode : Read Text := fun text => do
  let (c, rest) ← readHex text
  if c < 0xD800 ∨ 0xE000 ≤ c then some (utf8 c, rest)
  else if c < 0xDC00 ∧ rest.take 2 = [92, 117] then
    let (d, rest) ← readHex (rest.drop 2)
    if 0xDC00 ≤ d ∧ d < 0xE000 then
      some (utf8 (0x10000 + 1024 * (c - 0xD800) + (d - 0xDC00)), rest)
    else none
  else none

/-- The byte that an escape of two characters stands for, by the second one. -/
def unescape (b : UInt8) : Option UInt8 :=
  if b = 34 ∨ b = 92 ∨ b = 47 then some b
  else if b = 98 then some 8
  else if b = 102 then some 12
  else if b = 110 then some 10
  else if b = 114 then some 13
  else if b = 116 then some 9
  else none

/-- One character of a string. -/
def readChar : Read Text
  | [] => none
  | b :: text =>
    if b = 92 then
      match text with
      | [] => none
      | c :: rest => if c = 117 then readUnicode rest else (unescape c).map fun d => ([d], rest)
    else if b < 32 ∨ b = 34 then none
    else some ([b], text)

/-- The characters of a string, up to the quote behind it. There are at most as many as
    there are bytes. -/
def readChars : ℕ → Read Text
  | 0, _ => none
  | n + 1, text =>
    if text.head? = some 34 then some ([], text.tail)
    else do
      let (bytes, rest) ← readChar text
      let (more, rest) ← readChars n rest
      some (bytes ++ more, rest)

def readString : Read Text
  | [] => none
  | b :: text => if b = 34 then readChars text.length text else none

/-- A way to write bytes into a string, by what is read of each: only the `good` ones are
    read again. -/
structure Escaping (escape : UInt8 → Text) (good : UInt8 → Prop) : Prop where
  head_ne (b : UInt8) : ∃ c text, escape b = c :: text ∧ c ≠ 34
  readChar_good {b : UInt8} (h : good b) (rest : Text) : readChar (escape b ++ rest) = some ([b], rest)
  readChar_bad {b : UInt8} (h : ¬good b) (rest : Text) : readChar (escape b ++ rest) = none

theorem readChars_of_char {n : ℕ} {text bytes rest : Text} (hquote : text.head? ≠ some 34)
    (h : readChar text = some (bytes, rest)) :
    readChars (n + 1) text = (readChars n rest).map fun r => (bytes ++ r.1, r.2) := by
  rw [readChars, if_neg hquote, h]
  show (readChars n rest >>= _) = _
  cases readChars n rest <;> rfl

section Escaping

variable {escape : UInt8 → Text} {good : UInt8 → Prop}

theorem Escaping.length_le (h : Escaping escape good) (s : Text) :
    s.length ≤ (s.flatMap escape).length := by
  induction s with
  | nil => exact Nat.le_refl 0
  | cons b s ih =>
    obtain ⟨c, text, hb, -⟩ := h.head_ne b
    rw [List.flatMap_cons, List.length_append, hb, List.length_cons, List.length_cons]
    omega

theorem Escaping.head?_append_ne (h : Escaping escape good) (b : UInt8) (rest : Text) :
    (escape b ++ rest).head? ≠ some 34 := by
  obtain ⟨c, text, hb, hc⟩ := h.head_ne b
  rw [hb, List.cons_append, List.head?_cons]
  exact fun heq => hc (Option.some.inj heq)

theorem Escaping.readChars_of_good (h : Escaping escape good) {s : Text} {n : ℕ}
    (hn : s.length < n) (hgood : ∀ b ∈ s, good b) (rest : Text) :
    readChars n (s.flatMap escape ++ 34 :: rest) = some (s, rest) := by
  induction s generalizing n with
  | nil =>
    obtain ⟨n, rfl⟩ := Nat.exists_eq_add_one_of_ne_zero (Nat.ne_zero_of_lt hn)
    simp [readChars]
  | cons b s ih =>
    obtain ⟨n, rfl⟩ := Nat.exists_eq_add_one_of_ne_zero (Nat.ne_zero_of_lt hn)
    rw [List.forall_mem_cons] at hgood
    rw [List.flatMap_cons, List.append_assoc,
      readChars_of_char (h.head?_append_ne b _) (h.readChar_good hgood.1 _),
      ih (Nat.lt_of_succ_lt_succ hn) hgood.2]
    rfl

theorem Escaping.readChars_of_bad (h : Escaping escape good) {s : Text} {n : ℕ}
    (hn : s.length < n) (hbad : ¬∀ b ∈ s, good b) (rest : Text) :
    readChars n (s.flatMap escape ++ 34 :: rest) = none := by
  induction s generalizing n with
  | nil => exact absurd (List.forall_mem_nil _) hbad
  | cons b s ih =>
    obtain ⟨n, rfl⟩ := Nat.exists_eq_add_one_of_ne_zero (Nat.ne_zero_of_lt hn)
    rw [List.flatMap_cons, List.append_assoc]
    by_cases hb : good b
    · -- The bad byte is behind this one.
      have hs : ¬∀ b ∈ s, good b := fun hs => hbad (List.forall_mem_cons.2 ⟨hb, hs⟩)
      rw [readChars_of_char (h.head?_append_ne b _) (h.readChar_good hb _),
        ih (Nat.lt_of_succ_lt_succ hn) hs]
      rfl
    · rw [readChars, if_neg (h.head?_append_ne b _), h.readChar_bad hb]
      rfl

theorem Escaping.lt_length (h : Escaping escape good) (s rest : Text) :
    s.length < (s.flatMap escape ++ 34 :: rest).length := by
  have := h.length_le s
  rw [List.length_append, List.length_cons]
  omega

theorem Escaping.readString_of_good (h : Escaping escape good) {s : Text}
    (hgood : ∀ b ∈ s, good b) (rest : Text) :
    readString (34 :: (s.flatMap escape ++ 34 :: rest)) = some (s, rest) :=
  h.readChars_of_good (h.lt_length s rest) hgood rest

theorem Escaping.readString_of_bad (h : Escaping escape good) {s : Text}
    (hbad : ¬∀ b ∈ s, good b) (rest : Text) :
    readString (34 :: (s.flatMap escape ++ 34 :: rest)) = none :=
  h.readChars_of_bad (h.lt_length s rest) hbad rest

end Escaping

/-- A string, or `null`. -/
def readNullable : Read (Option Text) := fun text =>
  if text.take 4 = [110, 117, 108, 108] then some (none, text.drop 4)
  else (readString text).map fun r => (some r.1, r.2)

/-! ## Arrays and objects -/

section Items

variable {α : Type} (item : Read α)

/-- Items separated by commas, up to the byte that closes them. -/
def readItems (closing : UInt8) : ℕ → Read (List α)
  | 0, _ => none
  | n + 1, text => do
    let (a, rest) ← item (skipWhitespace text)
    match skipWhitespace rest with
    | [] => none
    | b :: rest =>
      if b = 44 then do
        let (items, rest) ← readItems closing n rest
        some (a :: items, rest)
      else if b = closing then some ([a], rest)
      else none

section Steps

variable {item} {a : α} {closing : UInt8} {n : ℕ} {text rest : Text}

theorem readItems_of_none (h : item (skipWhitespace text) = none) :
    readItems item closing (n + 1) text = none := by
  simp [readItems, h]

/-- The first of several items. -/
theorem readItems_of_comma (h : item (skipWhitespace text) = some (a, 44 :: rest)) :
    readItems item closing (n + 1) text =
      (readItems item closing n rest).map fun r => (a :: r.1, r.2) := by
  rw [readItems, h]
  show (readItems item closing n rest >>= _) = _
  cases readItems item closing n rest <;> rfl

/-- The last item. -/
theorem readItems_of_closing (h : item (skipWhitespace text) = some (a, closing :: rest))
    (hcomma : closing ≠ 44) (hspace : isWhitespace closing = false) :
    readItems item closing (n + 1) text = some ([a], rest) := by
  simp [readItems, h, skipWhitespace_cons hspace, hcomma]

end Steps

def readBetween (opening closing : UInt8) : Read (List α)
  | [] => none
  | b :: text =>
    if b = opening then
      if (skipWhitespace text).head? = some closing then some ([], (skipWhitespace text).tail)
      else readItems item closing text.length text
    else none

def arrayOf : Read (List α) := readBetween item 91 93

/-- What a whole text stands for. -/
def parse (text : Text) : Option α := do
  let (a, rest) ← item (skipWhitespace text)
  if skipWhitespace rest = [] then some a else none

/-- A way to write items, by what is read of each: only the `good` ones are read again. -/
structure Writing (write : α → Text) (good : α → Prop) : Prop where
  head_ne (a : α) : ∃ c text, write a = c :: text ∧ isWhitespace c = false ∧ c ≠ 93
  item_good {a : α} (h : good a) (rest : Text) : item (write a ++ rest) = some (a, rest)
  item_bad {a : α} (h : ¬good a) (rest : Text) : item (write a ++ rest) = none

/-- Items written one after the other, all but the first behind a comma. -/
def writeItems (write : α → Text) : List α → Text
  | [] => []
  | a :: items => write a ++ items.flatMap fun a => 44 :: write a

section Writing

variable {item} {write : α → Text} {good : α → Prop}

theorem Writing.skipWhitespace_append (h : Writing item write good) (a : α) (rest : Text) :
    skipWhitespace (write a ++ rest) = write a ++ rest := by
  obtain ⟨c, text, ha, hspace, -⟩ := h.head_ne a
  rw [ha, List.cons_append, skipWhitespace_cons hspace]

theorem Writing.length_le (h : Writing item write good) (items : List α) :
    items.length ≤ (writeItems write items).length := by
  cases items with
  | nil => exact Nat.le_refl 0
  | cons a items =>
    obtain ⟨c, text, ha, -, -⟩ := h.head_ne a
    have hitems : items.length ≤ (items.flatMap fun a => 44 :: write a).length := by
      induction items with
      | nil => exact Nat.le_refl 0
      | cons a' items ih =>
        rw [List.flatMap_cons, List.length_append, List.length_cons, List.length_cons]
        omega
    rw [writeItems, ha, List.length_append, List.length_cons, List.length_cons]
    omega

variable [DecidablePred good]

theorem Writing.readItems_eq (h : Writing item write good) (a : α) {items : List α} {n : ℕ}
    (hn : items.length < n) (rest : Text) :
    readItems item 93 n (writeItems write (a :: items) ++ 93 :: rest) =
      if ∀ a' ∈ a :: items, good a' then some (a :: items, rest) else none := by
  induction items generalizing a n with
  | nil =>
    obtain ⟨n, rfl⟩ := Nat.exists_eq_add_one_of_ne_zero (Nat.ne_zero_of_lt hn)
    rw [writeItems, List.flatMap_nil, List.append_nil]
    by_cases ha : good a
    · have hread := h.item_good ha (93 :: rest)
      rw [← h.skipWhitespace_append] at hread
      rw [readItems_of_closing hread (by decide) rfl]
      simp [ha]
    · have hread := h.item_bad ha (93 :: rest)
      rw [← h.skipWhitespace_append] at hread
      rw [readItems_of_none hread]
      simp [ha]
  | cons a' items ih =>
    obtain ⟨n, rfl⟩ := Nat.exists_eq_add_one_of_ne_zero (Nat.ne_zero_of_lt hn)
    have hsplit : writeItems write (a :: a' :: items) ++ 93 :: rest =
        write a ++ 44 :: (writeItems write (a' :: items) ++ 93 :: rest) := by
      simp [writeItems]
    rw [hsplit]
    -- The first item that is not read ends it all.
    by_cases ha : good a
    · have hread := h.item_good ha (44 :: (writeItems write (a' :: items) ++ 93 :: rest))
      rw [← h.skipWhitespace_append] at hread
      rw [readItems_of_comma hread, ih a' (Nat.lt_of_succ_lt_succ hn)]
      by_cases hall : ∀ a ∈ a' :: items, good a
      · rw [if_pos hall, if_pos (List.forall_mem_cons.2 ⟨ha, hall⟩)]
        rfl
      · rw [if_neg hall, if_neg fun h => hall (List.forall_mem_cons.1 h).2]
        rfl
    · have hread := h.item_bad ha (44 :: (writeItems write (a' :: items) ++ 93 :: rest))
      rw [← h.skipWhitespace_append] at hread
      rw [readItems_of_none hread, if_neg fun h => ha (h a List.mem_cons_self)]

/-- An array of items written stands for them if all of them are read again, and is refused
    otherwise. -/
theorem Writing.parse_arrayOf (h : Writing item write good) (items : List α) :
    parse (arrayOf item) (91 :: (writeItems write items ++ [93])) =
      if ∀ a ∈ items, good a then some items else none := by
  cases items with
  | nil => rfl
  | cons a items =>
    obtain ⟨c, text, ha, hspace, hclosing⟩ := h.head_ne a
    have hn : items.length < (writeItems write (a :: items) ++ [93]).length := by
      have := h.length_le (a :: items)
      rw [List.length_cons] at this
      rw [List.length_append, List.length_singleton]
      omega
    -- An item does not begin as the end of the array.
    have hhead : (skipWhitespace (writeItems write (a :: items) ++ [93])).head? ≠ some 93 := by
      rw [writeItems, ha, List.cons_append, List.cons_append, skipWhitespace_cons hspace,
        List.head?_cons]
      exact fun heq => hclosing (Option.some.inj heq)
    have hread : arrayOf item (91 :: (writeItems write (a :: items) ++ [93])) =
        if ∀ a' ∈ a :: items, good a' then some (a :: items, []) else none := by
      rw [arrayOf, readBetween, if_pos rfl, if_neg hhead, h.readItems_eq a hn []]
    rw [parse, skipWhitespace_cons rfl, hread]
    by_cases hall : ∀ a' ∈ a :: items, good a'
    · rw [if_pos hall, if_pos hall]
      rfl
    · rw [if_neg hall, if_neg hall]
      rfl

end Writing

/-- What is behind a byte that has to come next. -/
def expect (b : UInt8) (text : Text) : Option Text :=
  if (skipWhitespace text).head? = some b then some (skipWhitespace text).tail else none

/-- A member of an object: its name, and its value. -/
def readMember : Read (Text × α) := fun text => do
  let (name, rest) ← readString text
  let rest ← expect 58 rest
  let (a, rest) ← item (skipWhitespace rest)
  some ((name, a), rest)

def objectOf : Read (List (Text × α)) := readBetween (readMember item) 123 125

variable {item} in
theorem readMember_of_readString {text name rest rest' : Text}
    (hname : readString text = some (name, rest)) (hrest : expect 58 rest = some rest') :
    readMember item text = (item (skipWhitespace rest')).map fun r => ((name, r.1), r.2) := by
  rw [readMember, hname]
  show (expect 58 rest >>= _) = _
  rw [hrest]
  show (item (skipWhitespace rest') >>= _) = _
  cases item (skipWhitespace rest') <;> rfl

variable {item} in
/-- An object that is not empty, with nothing behind it. -/
theorem parse_objectOf {text : Text} (h : (skipWhitespace text).head? ≠ some 125) :
    parse (objectOf item) (123 :: text) =
      (readItems (readMember item) 125 text.length text).bind fun r =>
        if skipWhitespace r.2 = [] then some r.1 else none := by
  rw [parse, skipWhitespace_cons rfl, objectOf, readBetween, if_pos rfl, if_neg h]
  cases readItems (readMember item) 125 text.length text <;> rfl

end Items

end Json
