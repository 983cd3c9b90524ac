import Bitcask.Redis.Resp

/-!
# The rounds of the parser

A round of the loop over the arguments takes one argument, if all of it is there
(`ArgIteration`). What is to be expected of them is that each goes forward, and that the
arguments are pieces of the data that do not overlap, in their order (`Bounded`).

The length of an argument is any number that an `int` holds. A negative one is allowed
as long as what is behind the argument is not before the beginning of the data: the rest of
the data is taken then, and the loop goes on further back, maybe to the same argument
(`bounded_iff`).
-/

namespace Bitcask.Redis

/-! ## Rounds -/

/-- A round in which an argument is taken: where its `$` is, where it begins, and the length
    that is read. -/
structure ArgIteration where
  offset : ℕ
  pos : ℕ
  strLength : ℤ
deriving DecidableEq, Repr

namespace ArgIteration

/-- Where the loop goes on. -/
def next (it : ArgIteration) : ℕ := (it.pos + it.strLength + 2).toNat

def arg (data : Bytes) (it : ArgIteration) : Bytes := substr data it.pos it.strLength

/-- The number of bytes that the length takes in its line. -/
def digits (it : ArgIteration) : ℕ := it.pos - it.offset - 3

end ArgIteration

/-- The rounds of `parseArgs`. -/
def argIterations (data : Bytes) : ℕ → ℕ → List ArgIteration
  | 0, _ => []
  | n + 1, offset =>
    if data[offset]? = some 36 then
      match readNumber data (offset + 1) with
      | .ok (some (strLength, pos)) =>
        let next : ℤ := pos + strLength + 2
        if next < 0 ∨ data.length < next then []
        else ⟨offset, pos, strLength⟩ :: argIterations data n next.toNat
      | _ => []
    else []

/-- The number of arguments announced, and where the first is. -/
def announced (data : Bytes) (offset : ℕ) : ℕ × ℕ :=
  if data[offset]? = some 42 then
    match readNumber data (offset + 1) with
    | .ok (some (argCount, pos)) => (argCount.toNat, pos)
    | _ => (0, offset)
  else (0, offset)

/-- The rounds of `parseSingleCommand`. -/
def iterations (data : Bytes) (offset : ℕ) : List ArgIteration :=
  argIterations data (announced data offset).1 (announced data offset).2

/-- The arguments announced are all there. -/
def Complete (data : Bytes) (offset : ℕ) : Prop :=
  (iterations data offset).length = (announced data offset).1

/-- The parser goes forward, and takes nothing twice. The sum of the length and 2 is one of an
    `int`, and only meant if it is one. -/
structure Bounded (data : Bytes) (offset : ℕ) (command : RedisCommand) (offset' : ℕ) : Prop where
  offset_le : offset ≤ offset'
  forward : ∀ it ∈ iterations data offset, it.strLength + 2 < 2 ^ 31 ∧ it.offset < it.next
  args_eq : command.args ≠ [] → command.args = (iterations data offset).map (·.arg data)
  disjoint : command.args ≠ [] →
    (iterations data offset).IsChain fun it it' => it.pos + (it.arg data).length ≤ it'.pos
  count_le : command.args.length ≤ data.length
  total_le : (command.args.map List.length).sum ≤ data.length

/-- The lengths are not so far below zero that the loop does not get behind the line, and where
    the arguments are all there, what follows one of negative length is at the end of the
    data. -/
structure Advances (data : Bytes) (offset : ℕ) : Prop where
  length_lt : ∀ it ∈ iterations data offset,
    -(it.digits + 5) < it.strLength ∧ it.strLength + 2 < 2 ^ 31
  negative : Complete data offset →
    (iterations data offset).IsChain fun it it' => 0 ≤ it.strLength ∨ it'.pos = data.length

/-! ## What rounds do -/

/-- Rounds that follow each other from an offset on. -/
inductive Iterates (data : Bytes) : ℕ → List ArgIteration → Prop
  | nil (offset : ℕ) : Iterates data offset []
  | cons {it : ArgIteration} {its : List ArgIteration} : it.offset + 3 ≤ it.pos →
      it.pos ≤ data.length → 0 ≤ it.pos + it.strLength + 2 →
      it.pos + it.strLength + 2 ≤ data.length → Iterates data it.next its →
      Iterates data it.offset (it :: its)

section Rounds

variable {data : Bytes} {offset offset' n : ℕ} {command command' : RedisCommand}
  {its : List ArgIteration} {it it' : ArgIteration}

theorem iterates_argIterations (hoffset : offset ≤ data.length) :
    Iterates data offset (argIterations data n offset) := by
  induction n generalizing offset with
  | zero => exact .nil offset
  | succ n ih =>
    rw [argIterations]
    split
    · split
      · next strLength pos hread =>
        obtain ⟨i, -, rfl, -⟩ := readNumber_ok hread
        have hpos := (readNumber_length hread).2
        simp only
        split
        · exact .nil offset
        · next hnext =>
          rw [not_or, not_lt, not_lt] at hnext
          exact @Iterates.cons data ⟨offset, _, strLength⟩ _ (by simp only; omega) hpos hnext.1
            hnext.2 (ih (Int.toNat_le.2 hnext.2))
      · exact .nil offset
    · exact .nil offset

/-- Where the loop has got after rounds from an offset on. -/
def endOf : ℕ → List ArgIteration → ℕ
  | offset, [] => offset
  | _, it :: its => endOf it.next its

/-- What the loop returns: the arguments of all rounds, or nothing if it stops early. -/
theorem parseArgs_ok (h : parseArgs data n command offset = .ok (command', offset'))
    (hoffset : offset ≤ data.length) :
    ((argIterations data n offset).length = n ∧
        command'.args = command.args ++ (argIterations data n offset).map (·.arg data) ∧
        offset' = endOf offset (argIterations data n offset)) ∨
      (argIterations data n offset).length < n ∧ command'.args = [] ∧
        endOf offset (argIterations data n offset) ≤ offset' := by
  induction n generalizing command offset with
  | zero =>
    cases h
    exact .inl ⟨rfl, (List.append_nil _).symm, rfl⟩
  | succ n ih =>
    rw [parseArgs] at h
    by_cases hdollar : data[offset]? = some 36
    · simp only [argIterations, if_pos hdollar] at h ⊢
      rcases hread : readNumber data (offset + 1) with e | _ | ⟨strLength, pos⟩
      · rw [hread] at h
        cases h
      · rw [hread] at h
        cases h
        exact .inr ⟨Nat.succ_pos n, rfl, Nat.le_succ offset⟩
      · have hpos := readNumber_length hread
        rw [hread] at h
        simp only [bind, Except.bind] at h ⊢
        by_cases hend : (pos : ℤ) + strLength + 2 < 0 ∨ data.length < (pos : ℤ) + strLength + 2
        · rw [if_pos hend] at h
          simp only [if_pos hend]
          cases h
          exact .inr ⟨Nat.succ_pos n, rfl, by simp only [endOf]; omega⟩
        · rw [if_neg hend] at h
          simp only [if_neg hend]
          rw [not_or, not_lt, not_lt] at hend
          rcases ih h (Int.toNat_le.2 hend.2) with ⟨hlength, hargs, rfl⟩ | ⟨hlength, hargs, hle⟩
          · refine .inl ⟨congrArg Nat.succ hlength, ?_, rfl⟩
            rw [hargs, List.append_assoc]
            rfl
          · exact .inr ⟨Nat.succ_lt_succ hlength, hargs, hle⟩
    · simp only [argIterations, if_neg hdollar] at h ⊢
      cases h
      exact .inr ⟨Nat.succ_pos n, rfl, Nat.le_refl _⟩

/-- What the parser returns: the arguments of all rounds, or nothing. -/
theorem parseSingleCommand_ok (h : parseSingleCommand data offset = .ok (command, offset')) :
    Iterates data (announced data offset).2 (iterations data offset) ∧
      offset ≤ (announced data offset).2 ∧
      endOf (announced data offset).2 (iterations data offset) ≤ offset' ∧
      (command.args ≠ [] → Complete data offset) ∧
      (Complete data offset → command.args = (iterations data offset).map (·.arg data)) := by
  rw [parseSingleCommand] at h
  by_cases hstar : data[offset]? = some 42
  · have hlt : offset < data.length := (List.getElem?_eq_some_iff.1 hstar).1
    simp only [iterations, Complete, announced, if_pos hstar] at h ⊢
    rcases hread : readNumber data (offset + 1) with e | _ | ⟨argCount, pos⟩
    · rw [hread] at h
      cases h
    · rw [hread] at h
      cases h
      exact ⟨.nil _, Nat.le_refl _, Nat.le_succ _, fun hne => absurd rfl hne, fun _ => rfl⟩
    · have hpos := readNumber_length hread
      rw [hread] at h
      refine ⟨iterates_argIterations hpos.2, show offset ≤ pos by omega, ?_⟩
      rcases parseArgs_ok h hpos.2 with ⟨hlength, hargs, rfl⟩ | ⟨hlength, hargs, hle⟩
      · exact ⟨Nat.le_refl _, fun _ => hlength, fun _ => hargs⟩
      · exact ⟨hle, fun hne => absurd hargs hne, fun heq => absurd heq (Nat.ne_of_lt hlength)⟩
  · simp only [iterations, Complete, announced, if_neg hstar] at h ⊢
    cases h
    exact ⟨.nil _, Nat.le_refl _, Nat.le_refl _, fun hne => absurd rfl hne, fun _ => rfl⟩

/-! ## Rounds that go forward -/

theorem Iterates.forward_iff (h : Iterates data offset its) :
    ∀ it ∈ its, it.offset < it.next ↔ -((it.digits : ℤ) + 5) < it.strLength := by
  induction h with
  | nil => exact List.forall_mem_nil _
  | cons hpos _ h0 _ _ ih =>
    refine List.forall_mem_cons.2 ⟨?_, ih⟩
    rw [ArgIteration.next, ArgIteration.digits]
    omega

theorem Iterates.le_endOf (h : Iterates data offset its)
    (hforward : ∀ it ∈ its, it.offset < it.next) : offset ≤ endOf offset its := by
  induction h with
  | nil => exact Nat.le_refl _
  | cons _ _ _ _ _ ih =>
    rw [List.forall_mem_cons] at hforward
    exact Nat.le_trans (Nat.le_of_lt hforward.1) (ih hforward.2)

/-- Rounds that go forward are no more than the bytes. -/
theorem Iterates.length_le (h : Iterates data offset its)
    (hforward : ∀ it ∈ its, it.offset < it.next) : its = [] ∨ offset + its.length ≤ data.length := by
  induction h with
  | nil => exact .inl rfl
  | cons hpos hle _ _ _ ih =>
    rw [List.forall_mem_cons] at hforward
    refine .inr ?_
    rw [List.length_cons]
    rcases ih hforward.2 with rfl | hlength
    · rw [List.length_nil]
      omega
    · have := hforward.1
      omega

theorem length_arg_of_nonneg (h0 : 0 ≤ it.strLength)
    (hnext : it.pos + it.strLength + 2 ≤ data.length) : ((it.arg data).length : ℤ) = it.strLength := by
  rw [ArgIteration.arg, substr, if_neg (not_lt.2 h0), List.length_take, List.length_drop]
  omega

/-- A negative length takes all there is. -/
theorem length_arg_of_neg (h0 : it.strLength < 0) : (it.arg data).length = data.length - it.pos := by
  rw [ArgIteration.arg, substr, if_pos h0, List.length_drop]

theorem Iterates.isChain_iff (h : Iterates data offset its) :
    its.IsChain (fun it it' => it.pos + (it.arg data).length ≤ it'.pos) ↔
      its.IsChain fun it it' => 0 ≤ it.strLength ∨ it'.pos = data.length := by
  induction h with
  | nil => exact iff_of_true .nil .nil
  | @cons it its _ hle h0 hnext hits ih =>
    cases its with
    | nil => exact iff_of_true (.singleton _) (.singleton _)
    | cons it' its =>
      rw [List.isChain_cons_cons, List.isChain_cons_cons, ih]
      refine and_congr_left fun _ => ?_
      -- With a negative length the argument goes on to the end of the data.
      generalize hoffset : it.next = offset at hits
      cases hits with
      | cons hpos' hle' =>
        rw [ArgIteration.next] at hoffset
        rcases lt_or_ge it.strLength 0 with hneg | hnonneg
        · rw [length_arg_of_neg hneg]
          omega
        · have := length_arg_of_nonneg hnonneg hnext
          omega

/-- Arguments that do not overlap have no more bytes than the data. -/
theorem Iterates.sum_length_le (h : Iterates data offset (it :: its))
    (hdisjoint : (it :: its).IsChain fun it it' => it.pos + (it.arg data).length ≤ it'.pos) :
    it.pos + (((it :: its).map (·.arg data)).map List.length).sum ≤ data.length := by
  induction its generalizing offset it with
  | nil =>
    cases h with
    | cons _ hle _ hnext _ =>
      rcases lt_or_ge it.strLength 0 with hneg | hnonneg
      · simp only [List.map_cons, List.map_nil, List.sum_cons, List.sum_nil, length_arg_of_neg hneg]
        omega
      · have := length_arg_of_nonneg hnonneg hnext
        simp only [List.map_cons, List.map_nil, List.sum_cons, List.sum_nil]
        omega
  | cons it' its ih =>
    rw [List.isChain_cons_cons] at hdisjoint
    cases h with
    | cons _ _ _ _ hits =>
      have := ih hits hdisjoint.2
      rw [List.map_cons, List.map_cons, List.sum_cons]
      omega

/-- The parser is bounded just when the lengths let it advance. -/
theorem bounded_iff (data : Bytes) (offset : ℕ) (command : RedisCommand) (offset' : ℕ)
    (h : parseSingleCommand data offset = .ok (command, offset')) :
    Bounded data offset command offset' ↔ Advances data offset := by
  obtain ⟨hits, hle, hend, hcomplete, hargs⟩ := parseSingleCommand_ok h
  have hforward := hits.forward_iff
  constructor
  · rintro ⟨-, hlengths, -, hdisjoint, -, -⟩
    refine ⟨fun it hit => ⟨(hforward it hit).1 (hlengths it hit).2, (hlengths it hit).1⟩, fun hall => ?_⟩
    rw [← hits.isChain_iff]
    cases hnil : iterations data offset with
    | nil => exact .nil
    | cons it its =>
      rw [← hnil]
      refine hdisjoint ?_
      rw [hargs hall, hnil]
      exact List.cons_ne_nil _ _
  · rintro ⟨hlengths, hnegative⟩
    have hforward : ∀ it ∈ iterations data offset, it.offset < it.next := fun it hit =>
      (hforward it hit).2 (hlengths it hit).1
    have hdisjoint : command.args ≠ [] → (iterations data offset).IsChain
        fun it it' => it.pos + (it.arg data).length ≤ it'.pos := fun hne =>
      hits.isChain_iff.2 (hnegative (hcomplete hne))
    refine ⟨?_, fun it hit => ⟨(hlengths it hit).2, hforward it hit⟩, fun hne => hargs (hcomplete hne),
      hdisjoint, ?_, ?_⟩
    · exact Nat.le_trans hle (Nat.le_trans (hits.le_endOf hforward) hend)
    · rcases eq_or_ne command.args [] with hnil | hne
      · rw [hnil]
        exact Nat.zero_le _
      · have hmap := hargs (hcomplete hne)
        rw [hmap, List.length_map]
        rcases hits.length_le hforward with hnil | hlength
        · rw [hnil]
          exact Nat.zero_le _
        · omega
    · rcases eq_or_ne command.args [] with hnil | hne
      · rw [hnil]
        exact Nat.zero_le _
      · have hmap := hargs (hcomplete hne)
        -- Arguments that do not overlap lie one behind the other.
        have hchain := hdisjoint hne
        rw [hmap]
        cases hlist : iterations data offset with
        | nil => exact Nat.zero_le _
        | cons it its =>
          rw [hlist] at hits hchain
          exact Nat.le_trans (Nat.le_add_left _ _) (hits.sum_length_le hchain)

/-- Two arguments, the second of which is empty, in a command that is all there. -/
def twoArguments : Bytes := (RedisCommand.mk [[71], []]).encode

theorem bounded_twoArguments : Bounded twoArguments 0 ⟨[[71], []]⟩ 17 :=
  (bounded_iff twoArguments 0 ⟨[[71], []]⟩ 17 (by decide +kernel)).2
    ⟨by decide +kernel, fun _ => by decide +kernel⟩

/-- A command of ten bytes whose 99 arguments are all at the same place. -/
def manyArguments : Bytes := ofText "*99\r\n$-7\r\n"

theorem not_forall_bounded : ¬∀ (data : Bytes) (offset : ℕ) (command : RedisCommand) (offset' : ℕ),
    parseSingleCommand data offset = .ok (command, offset') →
    Bounded data offset command offset' := by
  intro h
  have hbounded := h manyArguments 0 ⟨List.replicate 99 []⟩ 5 (by decide +kernel)
  exact absurd hbounded.count_le (by decide +kernel)

end Rounds

end Bitcask.Redis
