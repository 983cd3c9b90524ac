import Bitcask.Services.Http

/-!
# Query strings

What the HTTP server makes of the parameters in a URL (`Http.parseQueryParams`), and how
a client writes them: each byte in two hexadecimal digits behind a `%`, or as it is if it has
no meaning of its own (`PercentEncodes`), `=` between a key and its value and `&` between pairs
(`joinPairs`).

* `getElem?_parseQueryParams`: every key is bound to its last value.
-/

namespace Bitcask.Http

open Redis (Entries isSpace)

/-! ## Decoding -/

/-- The number the hexadecimal digits at the beginning of a text stand for. -/
def leadingHex (text : Bytes) : ℕ :=
  (text.takeWhile fun b => (Json.hexDigit b).isSome).foldl
    (fun n b => 16 * n + (Json.hexDigit b).getD 0) 0

/-- `hex_stream >> std::hex >> hex_value`: zero without digits. When there is nothing but white
    space, the variable is left as it is. -/
def readHexValue (unset : ℤ) (text : Bytes) : ℤ :=
  match text.dropWhile isSpace with
  | [] => unset
  | b :: rest =>
    if b = 45 then -leadingHex rest
    else if b = 43 then leadingHex rest
    else leadingHex (b :: rest)

/-- What the variable for a number holds before it is read is `unset`, by the text behind
    the number. -/
def urlDecode (unset : Bytes → ℤ) : Bytes → Bytes
  | [] => []
  | b :: hi :: lo :: rest =>
    if b = 37 then .ofInt (readHexValue (unset rest) [hi, lo]) :: urlDecode unset rest
    else (if b = 43 then 32 else b) :: urlDecode unset (hi :: lo :: rest)
  | b :: rest => (if b = 43 then 32 else b) :: urlDecode unset rest

/-- A parameter, if there is a `=`. -/
def addParam (unset : Bytes → ℤ) (params : Entries) (pair : Bytes) : Entries :=
  match Substring.find pair [61] 0 with
  | none => params
  | some eqPos =>
    params.insert (urlDecode unset (pair.take eqPos)) (urlDecode unset (pair.drop (eqPos + 1)))

def parseQueryParams (unset : Bytes → ℤ) (query : Bytes) : Entries :=
  (Substring.lines 38 query).foldl (addParam unset) ∅

/-! ## Encoding -/

/-- A byte that may be sent as it is: it neither encodes nor separates anything. -/
def IsPlain (b : UInt8) : Prop := b ∉ [37, 38, 43, 61] ∧ isSpace b = false

instance : DecidablePred IsPlain := fun _ => inferInstanceAs (Decidable (_ ∧ _))

theorem IsPlain.ne {b : UInt8} (h : IsPlain b) : b ≠ 37 ∧ b ≠ 38 ∧ b ≠ 43 ∧ b ≠ 61 := by
  simpa using h.1

/-- A text has every byte in two hexadecimal digits, of either case, behind a `%`, or as it is. -/
inductive PercentEncodes : Bytes → Bytes → Prop
  | nil : PercentEncodes [] []
  | cons {hi lo b : UInt8} {text bytes : Bytes} :
      Json.hexDigit hi = some (b.toNat / 16) → Json.hexDigit lo = some (b.toNat % 16) →
      PercentEncodes text bytes → PercentEncodes (37 :: hi :: lo :: text) (b :: bytes)
  | plain {b : UInt8} {text bytes : Bytes} :
      IsPlain b → PercentEncodes text bytes → PercentEncodes (b :: text) (b :: bytes)

/-- A pair as it is sent. -/
def joinPair (pair : Bytes × Bytes) : Bytes := pair.1 ++ 61 :: pair.2

def joinPairs (pairs : List (Bytes × Bytes)) : Bytes := [38].intercalate (pairs.map joinPair)

/-- The key and the value of a pair are encoded. -/
def PairEncodes (text pair : Bytes × Bytes) : Prop :=
  PercentEncodes text.1 pair.1 ∧ PercentEncodes text.2 pair.2

section Decoding

variable {unset : Bytes → ℤ} {text bytes : Bytes} {b : UInt8}

/-- What is in a digit's place is neither white space nor a separator nor a sign. -/
theorem ne_of_hexDigit {d : ℕ} (h : Json.hexDigit b = some d) :
    isSpace b = false ∧ b ≠ 38 ∧ b ≠ 43 ∧ b ≠ 45 ∧ b ≠ 61 := by
  have hrange : 48 ≤ b.toNat ∧ b.toNat ≤ 57 ∨ 65 ≤ b.toNat := by
    unfold Json.hexDigit at h
    split_ifs at h with hdigit hupper hlower
    · exact .inl hdigit
    · exact .inr hupper.1
    · exact .inr (Nat.le_trans (by decide) (UInt8.le_iff_toNat_le.1 hlower.1))
  simp only [isSpace, Bool.or_eq_false_iff, beq_eq_false_iff_ne, Bool.and_eq_false_imp,
    decide_eq_true_eq, decide_eq_false_iff_not, UInt8.le_iff_toNat_le, ne_eq, ← UInt8.toNat_inj,
    UInt8.reduceToNat]
  omega

theorem readHexValue_digits {hi lo : UInt8} {m n : ℕ} (hhi : Json.hexDigit hi = some m)
    (hlo : Json.hexDigit lo = some n) (unset : ℤ) :
    readHexValue unset [hi, lo] = 16 * m + n := by
  obtain ⟨hspace, -, hplus, hminus, -⟩ := ne_of_hexDigit hhi
  simp [readHexValue, hspace, hplus, hminus, leadingHex, hhi, hlo]

theorem urlDecode_plain (h : IsPlain b) (text : Bytes) :
    urlDecode unset (b :: text) = b :: urlDecode unset text := by
  obtain ⟨hpercent, -, hplus, -⟩ := h.ne
  match text with
  | [] => simp [urlDecode, hplus]
  | [_] => simp [urlDecode, hplus]
  | _ :: _ :: _ => rw [urlDecode, if_neg hpercent, if_neg hplus]

theorem PercentEncodes.urlDecode (h : PercentEncodes text bytes) : urlDecode unset text = bytes := by
  induction h with
  | nil => rfl
  | @cons hi lo b text bytes hhi hlo _ ih =>
    have hvalue : 16 * (b.toNat / 16 : ℕ) + (b.toNat % 16 : ℕ) = (b.toNat : ℤ) := by omega
    have hbyte : UInt8.ofInt b.toNat = b := by
      rw [UInt8.ofInt]
      simp [Int.emod_eq_of_lt, b.toNat_lt]
    rw [Http.urlDecode, if_pos rfl, readHexValue_digits hhi hlo, hvalue, hbyte, ih]
  | plain hb _ ih => rw [urlDecode_plain hb, ih]

theorem PercentEncodes.notMem (h : PercentEncodes text bytes) : 38 ∉ text ∧ 61 ∉ text := by
  induction h with
  | nil => exact ⟨List.not_mem_nil, List.not_mem_nil⟩
  | cons hhi hlo _ ih =>
    obtain ⟨-, hhi38, -, -, hhi61⟩ := ne_of_hexDigit hhi
    obtain ⟨-, hlo38, -, -, hlo61⟩ := ne_of_hexDigit hlo
    simp [ih.1, ih.2, hhi38.symm, hhi61.symm, hlo38.symm, hlo61.symm]
  | plain hb _ ih =>
    obtain ⟨-, h38, -, h61⟩ := hb.ne
    simp [ih.1, ih.2, h38.symm, h61.symm]

theorem PairEncodes.addParam {text pair : Bytes × Bytes} (h : PairEncodes text pair)
    (params : Entries) : addParam unset params (joinPair text) = params.insert pair.1 pair.2 := by
  have hfind : Substring.find (joinPair text) [61] 0 = some (0 + text.1.length) :=
    Substring.find_of_drop (by rfl) h.1.notMem.2
  rw [Http.addParam, hfind]
  simp [joinPair, h.1.urlDecode, h.2.urlDecode]

end Decoding

/-! ## Parameters -/

/-- Each line is a pair, as there is a `=` in the last one. -/
theorem lines_joinPairs {texts : List (Bytes × Bytes)} (h : ∀ text ∈ texts, 38 ∉ joinPair text) :
    Substring.lines 38 (joinPairs texts) = texts.map joinPair := by
  rcases eq_or_ne texts [] with rfl | hne
  · rfl
  have hsplit : (joinPairs texts).splitOn 38 = texts.map joinPair :=
    List.splitOn_intercalate 38 (List.forall_mem_map.2 h) (mt List.map_eq_nil_iff.1 hne)
  have hlast : (texts.map joinPair).getLast? ≠ some [] := by
    intro hlast
    obtain ⟨text, -, htext⟩ := List.mem_map.1 (List.mem_of_getLast? hlast)
    simp [joinPair] at htext
  rw [Substring.lines, hsplit, if_neg hlast]

theorem getElem?_foldl_insert (pairs : List (Bytes × Bytes)) (params : Entries) (key : Bytes) :
    (pairs.foldl (fun params pair => params.insert pair.1 pair.2) params)[key]? =
      (pairs.reverse.lookup key).or params[key]? := by
  induction pairs generalizing params with
  | nil => rfl
  | cons pair pairs ih =>
    obtain ⟨k, v⟩ := pair
    rw [List.foldl_cons, ih, List.reverse_cons, List.lookup_append, Option.or_assoc]
    congr 1
    rw [Redis.Entries.getElem?_insert, List.lookup_singleton]
    by_cases hkey : key = k
    · simp [hkey]
    · simp [hkey]

section Encoded

variable {unset : Bytes → ℤ} {texts pairs : List (Bytes × Bytes)}

theorem notMem_joinPair (h : List.Forall₂ PairEncodes texts pairs) :
    ∀ text ∈ texts, 38 ∉ joinPair text := by
  induction h with
  | nil => simp
  | cons hpair _ ih =>
    refine List.forall_mem_cons.2 ⟨?_, ih⟩
    simp [joinPair, hpair.1.notMem.1, hpair.2.notMem.1]

theorem foldl_addParam (h : List.Forall₂ PairEncodes texts pairs) (params : Entries) :
    (texts.map joinPair).foldl (addParam unset) params =
      pairs.foldl (fun params pair => params.insert pair.1 pair.2) params := by
  induction h generalizing params with
  | nil => rfl
  | cons hpair _ ih => rw [List.map_cons, List.foldl_cons, hpair.addParam, ih, List.foldl_cons]

/-- Every key is bound to the last value it is sent with. -/
theorem getElem?_parseQueryParams (h : List.Forall₂ PairEncodes texts pairs) (key : Bytes) :
    (parseQueryParams unset (joinPairs texts))[key]? = pairs.reverse.lookup key := by
  rw [parseQueryParams, lines_joinPairs (notMem_joinPair h), foldl_addParam h,
    getElem?_foldl_insert]
  simp

/-- A key sent twice, in digits of either case, the second time without a value. -/
theorem getElem?_parseQueryParams_twice :
    (parseQueryParams (fun _ => 0)
      (joinPairs [([37, 54, 66], [37, 70, 70]), ([37, 54, 98], [])]))[([107] : Bytes)]? =
        [(([107] : Bytes), ([255] : Bytes)), ([107], [])].reverse.lookup [107] :=
  have hk : PercentEncodes [37, 54, 66] [107] := .cons (by decide) (by decide) .nil
  have hk' : PercentEncodes [37, 54, 98] [107] := .cons (by decide) (by decide) .nil
  have hv : PercentEncodes [37, 70, 70] [255] := .cons (by decide) (by decide) .nil
  getElem?_parseQueryParams (.cons ⟨hk, hv⟩ (.cons ⟨hk', .nil⟩ .nil)) _

end Encoded

end Bitcask.Http
