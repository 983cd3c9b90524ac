import Mathlib.Data.List.TakeWhile
import Bitcask.Common
import Bitcask.Library.Decimal

/-!
# The Redis protocol

How a command is sent (`RedisCommand.encode`): `*` and the number of arguments, then
`$`, the length and the bytes of each, every line ended by CR LF. What the server
makes of the bytes it has (`parseSingleCommand`), and how it answers
(`RedisResponse.serialize`).

* `parseSingleCommand_encode`: an encoded command is parsed, wherever it is, and so are the
  arguments of an array (`parseSingleCommand_serialize`);
* `parseSingleCommand_consumed`: a command parsed has taken at least the bytes of its
  encoding, if no length is negative, and a command that is not all there has taken
  its `*` all the same.
-/

namespace Bitcask.Redis

/-- The bytes of an ASCII text. -/
def ofText (text : String) : Bytes := text.toList.map fun c => .ofNat c.toNat

def crlf : Bytes := [13, 10]

@[simp]
theorem length_crlf : crlf.length = 2 := rfl

/-! ## Commands -/

structure RedisCommand where
  args : List Bytes
deriving DecidableEq, Repr

/-- An argument as it is sent. -/
def encodeBulk (arg : Bytes) : Bytes := 36 :: (Decimal.digits arg.length ++ crlf ++ arg ++ crlf)

/-- A command as it is sent. -/
def RedisCommand.encode (command : RedisCommand) : Bytes :=
  42 :: (Decimal.digits command.args.length ++ crlf ++ command.args.flatMap encodeBulk)

/-- The commands sent one after the other. -/
def encodeAll (commands : List RedisCommand) : Bytes := commands.flatMap RedisCommand.encode

/-- A command with its name, and with numbers and lengths of arguments that an `int`
    can hold, the two bytes behind an argument included. -/
structure RedisCommand.WellFormed (command : RedisCommand) : Prop where
  args_ne_nil : command.args ≠ []
  length_lt : command.args.length < 2 ^ 31
  arg_lt : ∀ arg ∈ command.args, arg.length + 2 < 2 ^ 31

/-! ## Responses -/

inductive RedisResponseType
  | simpleString
  | error
  | integer
  | bulkString
  | array
deriving DecidableEq, Repr

structure RedisResponse where
  type : RedisResponseType
  value : Bytes
  integerValue : ℤ
  arrayValue : List RedisResponse

namespace RedisResponse

def simpleString (str : Bytes) : RedisResponse where
  type := .simpleString
  value := str
  integerValue := 0
  arrayValue := []

def error (msg : Bytes) : RedisResponse where
  type := .error
  value := msg
  integerValue := 0
  arrayValue := []

def integer (value : ℤ) : RedisResponse where
  type := .integer
  value := []
  integerValue := value
  arrayValue := []

def bulkString (str : Bytes) : RedisResponse where
  type := .bulkString
  value := str
  integerValue := 0
  arrayValue := []

def nullBulkString : RedisResponse where
  type := .bulkString
  value := []
  integerValue := -1
  arrayValue := []

def array (arr : List RedisResponse) : RedisResponse where
  type := .array
  value := []
  integerValue := 0
  arrayValue := arr

end RedisResponse

/-- A number as it is printed. -/
def printInt (n : ℤ) : Bytes :=
  if n < 0 then 45 :: Decimal.digits n.natAbs else Decimal.digits n.natAbs

mutual

def RedisResponse.serialize : RedisResponse → Bytes
  | ⟨type, value, integerValue, arrayValue⟩ =>
    match type with
    | .simpleString => 43 :: (value ++ crlf)
    | .error => 45 :: (value ++ crlf)
    | .integer => 58 :: (printInt integerValue ++ crlf)
    | .bulkString =>
      -- Null is told by its number.
      if integerValue = -1 then ofText "$-1" ++ crlf
      else 36 :: (Decimal.digits value.length ++ crlf ++ value ++ crlf)
    | .array => 42 :: (Decimal.digits arrayValue.length ++ crlf ++ serializeItems arrayValue)
termination_by structural response => response

/-- The items of an array, one after the other. -/
def serializeItems : List RedisResponse → Bytes
  | [] => []
  | item :: items => item.serialize ++ serializeItems items
termination_by structural items => items

end

/-! ## Parsing -/

/-- A standard exception, by its text. -/
structure StdException where
  what : Bytes
deriving DecidableEq, Repr

/-- `isspace`. -/
def isSpace (b : UInt8) : Bool := b == 32 || (9 ≤ b && b ≤ 13)

/-- The digits at the beginning of a text, behind white space and a sign. -/
def leadingDigits (text : Bytes) : Bytes :=
  let text := text.dropWhile isSpace
  (if text.head? = some 43 ∨ text.head? = some 45 then text.tail else text).takeWhile Decimal.isDigit

/-- The number those digits stand for, with the sign before them. -/
def leadingInt (text : Bytes) : ℤ :=
  if (text.dropWhile isSpace).head? = some 45 then -Decimal.value (leadingDigits text)
  else Decimal.value (leadingDigits text)

/-- `std::stoi`: what follows the digits is left alone. -/
def stoi (text : Bytes) : Except StdException ℤ :=
  if leadingDigits text = [] ∨ leadingInt text < -2 ^ 31 ∨ 2 ^ 31 ≤ leadingInt text then
    .error ⟨ofText "stoi"⟩
  else .ok (leadingInt text)

/-- Where CR LF first is. -/
def crlfIndex : Bytes → Option ℕ
  | [] => none
  | b :: bytes => if b = 13 ∧ bytes.head? = some 10 then some 0 else (crlfIndex bytes).map (· + 1)

/-- `data.find("\r\n", offset)`. -/
def findCrlf (data : Bytes) (offset : ℕ) : Option ℕ := (crlfIndex (data.drop offset)).map (offset + ·)

/-- `data.substr(offset, count)`: a negative count is, without its sign, more than there
    can be. -/
def substr (data : Bytes) (offset : ℕ) (count : ℤ) : Bytes :=
  if count < 0 then data.drop offset else (data.drop offset).take count.toNat

/-- The number in the line beginning at `offset`, and where the next line begins. -/
def readNumber (data : Bytes) (offset : ℕ) : Except StdException (Option (ℤ × ℕ)) :=
  match findCrlf data offset with
  | none => .ok none
  | some newlinePos => do
    let n ← stoi (substr data offset (newlinePos - offset))
    .ok (some (n, newlinePos + 2))

/-- The loop over the arguments: there are `n` more to come. What is returned empty is a
    command that is not all there. -/
def parseArgs (data : Bytes) : ℕ → RedisCommand → ℕ → Except StdException (RedisCommand × ℕ)
  | 0, command, offset => .ok (command, offset)
  | n + 1, command, offset =>
    if data[offset]? = some 36 then do
      match ← readNumber data (offset + 1) with
      | none => .ok (⟨[]⟩, offset + 1)
      | some (strLength, offset) =>
        -- The sum is one of 64 bits without sign: below zero it is past the end.
        let next : ℤ := offset + strLength + 2
        if next < 0 ∨ data.length < next then .ok (⟨[]⟩, offset)
        else parseArgs data n ⟨command.args ++ [substr data offset strLength]⟩ next.toNat
    else .ok (⟨[]⟩, offset)

/-- The command at `offset`, and where the parser has got. -/
def parseSingleCommand (data : Bytes) (offset : ℕ) : Except StdException (RedisCommand × ℕ) :=
  if data[offset]? = some 42 then do
    match ← readNumber data (offset + 1) with
    | none => .ok (⟨[]⟩, offset + 1)
    | some (argCount, offset) => parseArgs data argCount.toNat ⟨[]⟩ offset
  else .ok (⟨[]⟩, offset)

/-! ## Encoded commands are parsed -/

variable {data rest text : Bytes} {offset n : ℕ}

theorem getElem?_of_drop {b : UInt8} (h : data.drop offset = b :: rest) : data[offset]? = some b := by
  rw [← List.head?_drop, h, List.head?_cons]

theorem drop_of_drop {bytes : Bytes} (h : data.drop offset = bytes ++ rest) :
    data.drop (offset + bytes.length) = rest := by
  rw [← List.drop_drop, h, List.drop_left]

theorem drop_succ_of_drop {b : UInt8} (h : data.drop offset = b :: rest) :
    data.drop (offset + 1) = rest := by
  rw [← List.drop_drop, h, List.drop_one, List.tail_cons]

theorem le_length_of_drop {bytes : Bytes} (h : data.drop offset = bytes ++ rest) (hne : bytes ≠ []) :
    offset + bytes.length ≤ data.length := by
  have hlen := congrArg List.length h
  have := List.length_pos_iff.2 hne
  rw [List.length_drop, List.length_append] at hlen
  omega

theorem crlfIndex_append (h : 13 ∉ text) : crlfIndex (text ++ (crlf ++ rest)) = some text.length := by
  induction text with
  | nil => rfl
  | cons b text ih =>
    rw [List.mem_cons, not_or] at h
    rw [List.cons_append, crlfIndex, if_neg fun hb => h.1 hb.1.symm, ih h.2]
    rfl

theorem not_isDigit_cr : ¬Decimal.isDigit 13 := by decide

theorem not_isSpace_of_isDigit {b : UInt8} (h : Decimal.isDigit b) : ¬isSpace b := by
  simp only [isSpace, Decimal.isDigit, Bool.and_eq_true, Bool.or_eq_true, decide_eq_true_eq,
    beq_iff_eq, UInt8.le_iff_toNat_le, ← UInt8.toNat_inj] at h ⊢
  have : (48 : UInt8).toNat = 48 := rfl
  have : (13 : UInt8).toNat = 13 := rfl
  have : (32 : UInt8).toNat = 32 := rfl
  omega

theorem stoi_digits (h : n < 2 ^ 31) : stoi (Decimal.digits n) = .ok n := by
  obtain ⟨d, ds, hds⟩ := List.exists_cons_of_ne_nil (Decimal.digits_ne_nil n)
  have hdigit : ∀ b ∈ d :: ds, Decimal.isDigit b := hds ▸ fun _ => Decimal.isDigit_of_mem_digits
  have hd := hdigit d List.mem_cons_self
  have hvalue : Decimal.value (d :: ds) = n := hds ▸ Decimal.value_digits n
  have hspace : (d :: ds).dropWhile isSpace = d :: ds :=
    List.dropWhile_cons_of_neg (not_isSpace_of_isDigit hd)
  have h43 : d ≠ 43 := fun h => absurd (h ▸ hd) (by decide)
  have h45 : d ≠ 45 := fun h => absurd (h ▸ hd) (by decide)
  have hleading : leadingDigits (d :: ds) = d :: ds := by
    simp only [leadingDigits, hspace, List.head?_cons, Option.some.injEq, h43, h45, or_self, if_false]
    exact List.takeWhile_eq_self_iff.2 hdigit
  have hint : leadingInt (d :: ds) = n := by
    simp only [leadingInt, hleading, hspace, List.head?_cons, Option.some.injEq, h45, if_false, hvalue]
  rw [stoi, hds, hleading, hint, if_neg]
  simp only [reduceCtorEq, false_or]
  omega

theorem readNumber_of_crlfIndex {i : ℕ} (hi : crlfIndex (data.drop offset) = some i) :
    readNumber data offset =
      (stoi ((data.drop offset).take i)).map fun n => some (n, offset + i + 2) := by
  have hfind : findCrlf data offset = some (offset + i) := by
    rw [findCrlf, hi]
    rfl
  have hsub : substr data offset ((offset + i : ℕ) - offset) = (data.drop offset).take i := by
    rw [substr, if_neg (by omega)]
    congr 1
    omega
  rw [readNumber, hfind]
  simp only [hsub]
  cases stoi ((data.drop offset).take i) <;> rfl

theorem readNumber_digits (h : data.drop offset = Decimal.digits n ++ (crlf ++ rest))
    (hn : n < 2 ^ 31) :
    readNumber data offset = .ok (some (n, offset + (Decimal.digits n).length + 2)) := by
  have hcr : 13 ∉ Decimal.digits n := fun h => not_isDigit_cr (Decimal.isDigit_of_mem_digits h)
  rw [readNumber_of_crlfIndex (by rw [h, crlfIndex_append hcr]), h, List.take_left, stoi_digits hn]
  rfl

theorem substr_left (h : data.drop offset = text ++ rest) : substr data offset text.length = text := by
  rw [substr, if_neg (by omega), h, Int.toNat_natCast, List.take_left]

theorem encodeBulk_append (arg : Bytes) : encodeBulk arg ++ rest =
    36 :: (Decimal.digits arg.length ++ (crlf ++ (arg ++ (crlf ++ rest)))) := by
  simp [encodeBulk]

theorem length_encodeBulk (arg : Bytes) :
    (encodeBulk arg).length = (Decimal.digits arg.length).length + arg.length + 5 := by
  simp only [encodeBulk, length_crlf, List.length_cons, List.length_append]
  omega

theorem parseArgs_encode {args done : List Bytes} (hargs : ∀ arg ∈ args, arg.length + 2 < 2 ^ 31)
    (h : data.drop offset = args.flatMap encodeBulk ++ rest) :
    parseArgs data args.length ⟨done⟩ offset =
      .ok (⟨done ++ args⟩, offset + (args.flatMap encodeBulk).length) := by
  induction args generalizing done offset with
  | nil => simp [parseArgs]
  | cons arg args ih =>
    have hlen := hargs arg List.mem_cons_self
    rw [List.flatMap_cons, List.append_assoc] at h
    have hrest := drop_of_drop h
    rw [encodeBulk_append] at h
    have hdigits := drop_succ_of_drop h
    have harg := drop_of_drop (drop_of_drop hdigits)
    have hle := le_length_of_drop (drop_of_drop harg) (List.cons_ne_nil _ _)
    have hread : readNumber data (offset + 1) = .ok (some (arg.length, _)) :=
      readNumber_digits hdigits (by omega)
    rw [List.length_cons, parseArgs, if_pos (getElem?_of_drop h), hread]
    rw [length_crlf] at harg hle
    -- The argument begins behind the line with its length.
    set next := offset + 1 + (Decimal.digits arg.length).length + 2 with hnext
    have hbehind : ((next : ℤ) + arg.length + 2).toNat = offset + (encodeBulk arg).length := by
      rw [length_encodeBulk]
      omega
    have hend : ¬((next : ℤ) + arg.length + 2 < 0 ∨ data.length < (next : ℤ) + arg.length + 2) := by
      omega
    simp only [bind, Except.bind, if_neg hend, hbehind, substr_left harg]
    rw [ih (fun arg h => hargs arg (List.mem_cons_of_mem _ h)) hrest]
    simp [Nat.add_assoc]

theorem encode_append (command : RedisCommand) : command.encode ++ rest =
    42 :: (Decimal.digits command.args.length ++ (crlf ++ (command.args.flatMap encodeBulk ++ rest))) := by
  simp [RedisCommand.encode]

theorem length_encode (command : RedisCommand) : command.encode.length =
    (Decimal.digits command.args.length).length + (command.args.flatMap encodeBulk).length + 3 := by
  simp only [RedisCommand.encode, length_crlf, List.length_cons, List.length_append]
  omega

/-- An encoded command is parsed, whatever is before and behind it. -/
theorem parseSingleCommand_encode {command : RedisCommand} (hc : command.WellFormed)
    (h : data.drop offset = command.encode ++ rest) :
    parseSingleCommand data offset = .ok (command, offset + command.encode.length) := by
  rw [encode_append] at h
  have hdigits := drop_succ_of_drop h
  have hargs := drop_of_drop (drop_of_drop hdigits)
  rw [length_crlf] at hargs
  have hread : readNumber data (offset + 1) = .ok (some (command.args.length, _)) :=
    readNumber_digits hdigits hc.length_lt
  rw [parseSingleCommand, if_pos (getElem?_of_drop h), hread]
  simp only [bind, Except.bind, Int.toNat_natCast]
  rw [parseArgs_encode hc.arg_lt hargs, List.nil_append, length_encode]
  simp only [Except.ok.injEq, Prod.mk.injEq, true_and]
  omega

theorem serializeItems_bulkString (args : List Bytes) :
    serializeItems (args.map .bulkString) = args.flatMap encodeBulk := by
  induction args with
  | nil => rfl
  | cons arg args ih =>
    rw [List.map_cons, serializeItems, ih, List.flatMap_cons]
    rfl

/-- A command is sent as an array of bulk strings. -/
theorem serialize_array_bulkString (args : List Bytes) :
    (RedisResponse.array (args.map .bulkString)).serialize = (RedisCommand.mk args).encode := by
  rw [RedisResponse.array, RedisResponse.serialize, serializeItems_bulkString, List.length_map]
  rfl

/-- Arguments sent as an array are returned, and the offset gets behind it. -/
theorem parseSingleCommand_serialize (args : List Bytes) (hne : args ≠ [])
    (hlength : args.length < 2 ^ 31) (harg : ∀ arg ∈ args, arg.length ≤ 2 ^ 31 - 3)
    (front behind : Bytes) :
    let encoding := (RedisResponse.array (args.map .bulkString)).serialize
    parseSingleCommand (front ++ encoding ++ behind) front.length =
      .ok (⟨args⟩, (front ++ encoding).length) := by
  have hc : (RedisCommand.mk args).WellFormed := ⟨hne, hlength, fun arg h => by
    have := harg arg h
    omega⟩
  have hdrop : (front ++ (RedisCommand.mk args).encode ++ behind).drop front.length =
      (RedisCommand.mk args).encode ++ behind := by
    rw [List.append_assoc, List.drop_left]
  rw [serialize_array_bulkString]
  simp only [parseSingleCommand_encode hc hdrop, List.length_append]

/-- One argument of CR, LF and NUL, between two bytes that begin other lines. -/
theorem parseSingleCommand_serialize_crlf :
    parseSingleCommand ([36] ++ (RedisResponse.array [.bulkString [13, 10, 0]]).serialize ++ [42]) 1 =
      .ok (⟨[[13, 10, 0]]⟩, 14) :=
  parseSingleCommand_serialize [[13, 10, 0]] (by decide) (by decide) (by decide) [36] [42]

/-! ## What is parsed has been sent -/

variable {number : ℤ} {next : ℕ} {command command' : RedisCommand} {offset' : ℕ}

theorem crlfIndex_le {bytes : Bytes} {i : ℕ} (h : crlfIndex bytes = some i) : i + 2 ≤ bytes.length := by
  induction bytes generalizing i with
  | nil => cases h
  | cons b bytes ih =>
    rw [crlfIndex] at h
    split at h
    · next hb =>
      obtain ⟨b', bytes', rfl⟩ := List.exists_cons_of_ne_nil fun hnil : bytes = [] => by
        simp [hnil] at hb
      cases h
      simp
    · obtain ⟨j, hj, rfl⟩ := Option.map_eq_some_iff.1 h
      have := ih hj
      rw [List.length_cons]
      omega

theorem crlfIndex_append_right {bytes : Bytes} {i : ℕ} (h : crlfIndex bytes = some i) :
    crlfIndex (bytes ++ rest) = some i := by
  induction bytes generalizing i with
  | nil => cases h
  | cons b bytes ih =>
    rw [crlfIndex] at h
    rw [List.cons_append, crlfIndex]
    split at h
    · next hb =>
      rw [if_pos ⟨hb.1, by rw [List.head?_append, hb.2]; rfl⟩, h]
    · next hb =>
      obtain ⟨j, hj, rfl⟩ := Option.map_eq_some_iff.1 h
      obtain ⟨b', bytes', rfl⟩ := List.exists_cons_of_ne_nil fun hnil : bytes = [] => by
        simp [hnil, crlfIndex] at hj
      rw [if_neg (by rwa [List.cons_append, List.head?_cons]), ih hj]
      rfl

theorem length_leadingDigits_le (text : Bytes) : (leadingDigits text).length ≤ text.length := by
  refine Nat.le_trans (List.takeWhile_sublist _).length_le ?_
  refine Nat.le_trans ?_ (List.dropWhile_sublist isSpace).length_le
  split
  · exact (List.tail_sublist _).length_le
  · exact Nat.le_refl _

/-- A number has no more digits than the text it is read from. -/
theorem length_digits_of_stoi (h : stoi text = .ok number) :
    (Decimal.digits number.natAbs).length ≤ text.length := by
  rw [stoi] at h
  split at h
  · cases h
  · next hds =>
    rw [not_or] at hds
    have habs : number.natAbs = Decimal.value (leadingDigits text) := by
      cases h
      rw [leadingInt]
      split <;> simp
    rw [habs]
    exact Nat.le_trans (Decimal.length_digits_value_le (fun d hd => List.mem_takeWhile_imp hd) hds.1)
      (length_leadingDigits_le text)

theorem readNumber_ok (h : readNumber data offset = .ok (some (number, next))) :
    ∃ i, crlfIndex (data.drop offset) = some i ∧ next = offset + i + 2 ∧
      stoi ((data.drop offset).take i) = .ok number := by
  cases hi : crlfIndex (data.drop offset) with
  | none =>
    rw [readNumber, findCrlf, hi] at h
    cases h
  | some i =>
    rw [readNumber_of_crlfIndex hi] at h
    cases hn : stoi ((data.drop offset).take i) with
    | error e =>
      rw [hn] at h
      cases h
    | ok n =>
      rw [hn] at h
      cases h
      exact ⟨i, rfl, rfl, hn⟩

/-- The line of a number has its digits and its end. -/
theorem readNumber_length (h : readNumber data offset = .ok (some (number, next))) :
    offset + (Decimal.digits number.natAbs).length + 2 ≤ next ∧ next ≤ data.length := by
  obtain ⟨i, hi, rfl, hn⟩ := readNumber_ok h
  have hle := crlfIndex_le hi
  have hdigits := length_digits_of_stoi hn
  rw [List.length_drop] at hle
  rw [List.length_take, List.length_drop] at hdigits
  omega

/-- What a round of the loop over the arguments does: it stops, the command not being all
    there, or takes an argument. -/
theorem parseArgs_succ (h : parseArgs data (n + 1) command offset = .ok (command', offset'))
    (hoffset : offset ≤ data.length) :
    command'.args = [] ∧ offset ≤ offset' ∧ offset' ≤ data.length ∨
      ∃ strLength pos, data[offset]? = some 36 ∧
        readNumber data (offset + 1) = .ok (some (strLength, pos)) ∧
        0 ≤ pos + strLength + 2 ∧ pos + strLength + 2 ≤ data.length ∧
        parseArgs data n ⟨command.args ++ [substr data pos strLength]⟩ (pos + strLength + 2).toNat =
          .ok (command', offset') := by
  rw [parseArgs] at h
  split at h
  · next hdollar =>
    have hlt : offset < data.length := (List.getElem?_eq_some_iff.1 hdollar).1
    rcases hread : readNumber data (offset + 1) with e | _ | ⟨strLength, pos⟩
    · rw [hread] at h
      cases h
    · rw [hread] at h
      cases h
      exact .inl ⟨rfl, Nat.le_succ _, hlt⟩
    · have hpos := readNumber_length hread
      rw [hread] at h
      simp only [bind, Except.bind] at h
      split at h
      · cases h
        exact .inl ⟨rfl, by omega, hpos.2⟩
      · next hend =>
        rw [not_or, not_lt, not_lt] at hend
        exact .inr ⟨strLength, pos, hdollar, rfl, hend.1, hend.2, h⟩
  · cases h
    exact .inl ⟨rfl, Nat.le_refl _, hoffset⟩

/-- No `$` is followed by a negative number. -/
def NonnegativeLengths (data : Bytes) : Prop :=
  ∀ offset number next, data[offset]? = some 36 →
    readNumber data (offset + 1) = .ok (some (number, next)) → 0 ≤ number

/-- What is part of such data is such data. -/
theorem NonnegativeLengths.of_append (front behind : Bytes)
    (h : NonnegativeLengths (front ++ data ++ behind)) : NonnegativeLengths data := by
  intro offset number next hdollar hread
  have hlt : offset < data.length := (List.getElem?_eq_some_iff.1 hdollar).1
  obtain ⟨i, hi, -, hn⟩ := readNumber_ok hread
  have hle := crlfIndex_le hi
  have hdrop : (front ++ data ++ behind).drop (front.length + offset + 1) =
      data.drop (offset + 1) ++ behind := by
    rw [List.append_assoc, Nat.add_assoc, List.drop_length_add_append,
      List.drop_append_of_le_length (by omega)]
  refine h (front.length + offset) number (front.length + offset + 1 + i + 2) ?_ ?_
  · rw [List.append_assoc, List.getElem?_append_right (by omega), Nat.add_sub_cancel_left,
      List.getElem?_append_left hlt, hdollar]
  · rw [readNumber_of_crlfIndex (by rw [hdrop]; exact crlfIndex_append_right hi), hdrop,
      List.take_append_of_le_length (by omega), hn]
    rfl

/-- The bytes the arguments of a command take when they are sent. -/
def argsExtent (command : RedisCommand) : ℕ := (command.args.flatMap encodeBulk).length

/-- The loop goes forward, at least as far as the arguments it returns take. -/
theorem parseArgs_consumed (hdata : NonnegativeLengths data)
    (h : parseArgs data n command offset = .ok (command', offset')) (hoffset : offset ≤ data.length) :
    offset ≤ offset' ∧ offset' ≤ data.length ∧
      (command'.args ≠ [] → command'.args.length = command.args.length + n ∧
        offset + argsExtent command' ≤ offset' + argsExtent command) := by
  induction n generalizing command offset with
  | zero =>
    cases h
    exact ⟨Nat.le_refl _, hoffset, fun _ => ⟨rfl, Nat.le_refl _⟩⟩
  | succ n ih =>
    rcases parseArgs_succ h hoffset with ⟨hnil, hle, hle'⟩ | ⟨strLength, pos, hdollar, hread, h0, hend, h⟩
    · exact ⟨hle, hle', fun hne => absurd hnil hne⟩
    · obtain ⟨k, rfl⟩ := Int.eq_ofNat_of_zero_le (hdata _ _ _ hdollar hread)
      obtain ⟨hpos, _⟩ := readNumber_length hread
      obtain ⟨hle, hle', hargs⟩ := ih h (by omega)
      refine ⟨by omega, hle', fun hne => ?_⟩
      obtain ⟨hlength, hextent⟩ := hargs hne
      -- A length that is not negative and has passed the check is that of the argument.
      have harg : (substr data pos k).length = k := by
        rw [substr, if_neg (by omega), List.length_take, List.length_drop]
        omega
      simp only [argsExtent, List.flatMap_append, List.flatMap_cons, List.flatMap_nil, List.append_nil,
        List.length_append, length_encodeBulk, harg, List.length_cons, List.length_nil,
        Int.natAbs_natCast] at hlength hextent hpos ⊢
      omega

/-- The parser takes the `*`, and at least the bytes of the command it returns. -/
theorem parseSingleCommand_consumed (hdata : NonnegativeLengths data)
    (h : parseSingleCommand data offset = .ok (command, offset')) (hstar : data[offset]? = some 42) :
    offset < offset' ∧ offset' ≤ data.length ∧
      (command.args ≠ [] → offset + command.encode.length ≤ offset') := by
  have hlt : offset < data.length := (List.getElem?_eq_some_iff.1 hstar).1
  rw [parseSingleCommand, if_pos hstar] at h
  rcases hread : readNumber data (offset + 1) with e | _ | ⟨argCount, pos⟩
  · rw [hread] at h
    cases h
  · rw [hread] at h
    cases h
    exact ⟨Nat.lt_succ_self _, hlt, fun hne => absurd rfl hne⟩
  · obtain ⟨hpos, hle⟩ := readNumber_length hread
    rw [hread] at h
    obtain ⟨hpos', hle', hargs⟩ := parseArgs_consumed hdata h hle
    refine ⟨by omega, hle', fun hne => ?_⟩
    obtain ⟨hlength, hextent⟩ := hargs hne
    -- The number announced is not negative, as there are arguments.
    have hcount : command.args.length = argCount.natAbs := by
      have := List.length_pos_iff.2 hne
      simp only [List.length_nil, Nat.zero_add] at hlength
      omega
    rw [length_encode, hcount]
    simp only [argsExtent, List.flatMap_nil, List.length_nil] at hextent
    omega

theorem substr_subset (data : Bytes) (offset : ℕ) (count : ℤ) : substr data offset count ⊆ data := by
  rw [substr]
  split
  · exact (List.drop_sublist _ _).subset
  · exact ((List.take_sublist _ _).trans (List.drop_sublist _ _)).subset

theorem parseArgs_subset (h : parseArgs data n command offset = .ok (command', offset'))
    (hoffset : offset ≤ data.length) (hargs : ∀ arg ∈ command.args, arg ⊆ data) :
    ∀ arg ∈ command'.args, arg ⊆ data := by
  induction n generalizing command offset with
  | zero =>
    cases h
    exact hargs
  | succ n ih =>
    rcases parseArgs_succ h hoffset with ⟨hnil, _⟩ | ⟨strLength, pos, _, _, _, _, h⟩
    · rw [hnil]
      exact List.forall_mem_nil _
    · refine ih h (by omega) fun arg harg => ?_
      rcases List.mem_append.1 harg with harg | harg
      · exact hargs arg harg
      · rw [List.mem_singleton.1 harg]
        exact substr_subset _ _ _

/-- The arguments of a command are bytes of the data it is parsed from. -/
theorem parseSingleCommand_subset (h : parseSingleCommand data offset = .ok (command, offset')) :
    ∀ arg ∈ command.args, arg ⊆ data := by
  rw [parseSingleCommand] at h
  split at h
  · rcases hread : readNumber data (offset + 1) with e | _ | ⟨argCount, pos⟩
    · rw [hread] at h
      cases h
    · rw [hread] at h
      cases h
      exact List.forall_mem_nil _
    · rw [hread] at h
      exact parseArgs_subset h (readNumber_length hread).2 (List.forall_mem_nil _)
  · cases h
    exact List.forall_mem_nil _

end Bitcask.Redis
