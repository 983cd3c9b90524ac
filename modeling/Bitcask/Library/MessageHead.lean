import Bitcask.Library.Substring
import Mathlib.Data.List.DropRight

/-!
# Heads of messages

The head of a message is a line and fields, each a line of its own, ended by CR LF, and an empty
line (`MessageHead.write`). A strict reader (`MessageHead.read`) takes a field apart at its first
colon and leaves out the blanks around its value.

* `read_write`: what is read is what has been written, and what is behind it.
-/

namespace MessageHead

abbrev Bytes := List UInt8

/-- A name and a value. -/
abbrev Field := Bytes × Bytes

/-! ## Trimming -/

section Trim

variable {α : Type} {blank : α → Bool} {text : List α}

/-- A text without the characters that are blank at its ends. -/
def trim (blank : α → Bool) (text : List α) : List α := (text.dropWhile blank).rdropWhile blank

/-- Neither the first character nor the last one is blank. -/
structure Trimmed (blank : α → Bool) (text : List α) : Prop where
  head : ∀ a ∈ text.head?, blank a = false
  last : ∀ a ∈ text.getLast?, blank a = false

/-- A text without blanks. -/
theorem trimmed_of_all (h : text.all (!blank ·) = true) : Trimmed blank text := by
  have hblank : ∀ a ∈ text, blank a = false := by simpa using h
  exact ⟨fun a ha => hblank a (List.mem_of_mem_head? ha), fun a ha => hblank a (List.mem_of_getLast? ha)⟩

theorem Trimmed.dropWhile_eq (h : Trimmed blank text) : text.dropWhile blank = text := by
  cases text with
  | nil => rfl
  | cons a text =>
    rw [List.dropWhile_cons_of_neg]
    simp [h.head a rfl]

theorem Trimmed.rdropWhile_eq (h : Trimmed blank text) : text.rdropWhile blank = text := by
  rw [List.rdropWhile_eq_self_iff]
  intro hne
  simp [h.last _ (List.getLast?_eq_some_getLast hne)]

theorem Trimmed.trim_eq (h : Trimmed blank text) : trim blank text = text := by
  rw [trim, h.dropWhile_eq, h.rdropWhile_eq]

/-- A blank in front is left out. -/
theorem trim_cons {a : α} (h : blank a = true) (text : List α) :
    trim blank (a :: text) = trim blank text := by
  rw [trim, List.dropWhile_cons_of_pos h, trim]

/-- A blank behind is left out. -/
theorem trim_concat {a : α} (h : blank a = true) (text : List α) :
    trim blank (text ++ [a]) = trim blank text := by
  rw [trim, List.dropWhile_append, trim]
  split_ifs with hblank
  · rw [List.isEmpty_iff.1 hblank, List.dropWhile_cons_of_pos h]
    rfl
  · exact List.rdropWhile_concat_pos blank _ a h

end Trim

/-! ## Writing -/

def crlf : Bytes := [13, 10]

/-- `name: value`. -/
def fieldLine (field : Field) : Bytes := field.1 ++ 58 :: 32 :: field.2

def writeFields (fields : List Field) : Bytes := fields.flatMap fun field => fieldLine field ++ crlf

/-- A head: its first line, its fields and an empty line. -/
def write (line : Bytes) (fields : List Field) : Bytes := line ++ crlf ++ writeFields fields ++ crlf

/-! ## Reading -/

/-- The first line, and what is behind its end. -/
def readLine : Bytes → Option (Bytes × Bytes)
  | [] => none
  | b :: text =>
    if b = 13 ∧ text.head? = some 10 then some ([], text.tail)
    else (readLine text).map fun r => (b :: r.1, r.2)

def isBlank (b : UInt8) : Bool := b == 32 || b == 9

def readField (line : Bytes) : Option Field :=
  (Substring.find line [58] 0).map fun colon =>
    (line.take colon, trim isBlank (line.drop (colon + 1)))

/-- The fields up to an empty line, and what is behind it: at most `fuel` lines. -/
def readFields : ℕ → Bytes → Option (List Field × Bytes)
  | 0, _ => none
  | fuel + 1, text => do
    let (line, rest) ← readLine text
    if line = [] then return ([], rest)
    let field ← readField line
    let (fields, rest) ← readFields fuel rest
    return (field :: fields, rest)

/-- The first line, the fields, and what is behind the head. -/
def read (text : Bytes) : Option (Bytes × List Field × Bytes) := do
  let (line, rest) ← readLine text
  let (fields, rest) ← readFields rest.length rest
  return (line, fields, rest)

/-! ## Round trips -/

/-- A field that is read as it is written. -/
structure Plain (field : Field) : Prop where
  name : 58 ∉ field.1 ∧ 13 ∉ field.1
  value : 13 ∉ field.2
  trimmed : Trimmed isBlank field.2

variable {line : Bytes} {field : Field} {fields : List Field}

theorem readLine_append (h : 13 ∉ line) (rest : Bytes) :
    readLine (line ++ crlf ++ rest) = some (line, rest) := by
  induction line with
  | nil => rfl
  | cons b line ih =>
    rw [List.mem_cons, not_or] at h
    rw [List.cons_append, List.cons_append, readLine, if_neg fun hb => h.1 hb.1.symm, ih h.2]
    rfl

theorem Plain.fieldLine (h : Plain field) : 13 ∉ fieldLine field ∧ fieldLine field ≠ [] := by
  simp [MessageHead.fieldLine, h.name.2, h.value]

theorem Plain.readField (h : Plain field) : readField (MessageHead.fieldLine field) = some field := by
  have hfind : Substring.find (MessageHead.fieldLine field) [58] 0 = some (0 + field.1.length) :=
    Substring.find_of_drop (by rfl) h.name.1
  rw [MessageHead.readField, hfind, Option.map_some, Nat.zero_add, MessageHead.fieldLine,
    List.take_left, ← List.drop_drop, List.drop_left, List.drop_one, List.tail_cons,
    trim_cons rfl, h.trimmed.trim_eq]

theorem readFields_writeFields (h : ∀ field ∈ fields, Plain field) (rest : Bytes) {fuel : ℕ}
    (hfuel : fields.length < fuel) :
    readFields fuel (writeFields fields ++ crlf ++ rest) = some (fields, rest) := by
  induction fields generalizing fuel with
  | nil =>
    obtain ⟨fuel, rfl⟩ := Nat.exists_eq_add_of_lt hfuel
    rw [readFields]
    rfl
  | cons field fields ih =>
    obtain ⟨hfield, hfields⟩ := List.forall_mem_cons.1 h
    obtain _ | fuel := fuel
    · exact absurd hfuel (Nat.not_lt_zero _)
    have htext : writeFields (field :: fields) ++ crlf ++ rest =
        fieldLine field ++ crlf ++ (writeFields fields ++ crlf ++ rest) := by
      simp [writeFields]
    rw [readFields, htext, readLine_append hfield.fieldLine.1]
    simp only [Option.bind_eq_bind, Option.bind_some, if_neg hfield.fieldLine.2, hfield.readField,
      ih hfields (Nat.lt_of_succ_lt_succ hfuel)]
    rfl

theorem length_lt_writeFields (fields : List Field) :
    fields.length < (writeFields fields ++ crlf).length := by
  induction fields with
  | nil => exact Nat.zero_lt_two
  | cons field fields ih =>
    simp only [writeFields, List.flatMap_cons, List.length_append, List.length_cons, crlf] at ih ⊢
    omega

/-- Reading gives back the line and the fields, and what is behind the head. -/
theorem read_write (hline : 13 ∉ line) (h : ∀ field ∈ fields, Plain field) (rest : Bytes) :
    read (write line fields ++ rest) = some (line, fields, rest) := by
  have htext : write line fields ++ rest = line ++ crlf ++ (writeFields fields ++ crlf ++ rest) := by
    simp [write]
  have hfuel : fields.length < (writeFields fields ++ crlf ++ rest).length := by
    have := length_lt_writeFields fields
    rw [List.length_append]
    omega
  rw [read, htext, readLine_append hline]
  simp only [Option.bind_eq_bind, Option.bind_some, readFields_writeFields h rest hfuel]
  rfl

end MessageHead
