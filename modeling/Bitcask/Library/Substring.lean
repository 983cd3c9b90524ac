import Mathlib.Data.List.Basic
import Mathlib.Data.List.TakeWhile
import Mathlib.Tactic.Common

/-!
# Searching texts

Where a pattern first occurs in a text, from a position on (`Substring.find`), what a text
is up to a character (`takeWhile_append_cons`), and the lines of a text, ended by a
delimiter (`Substring.lines`).
-/

namespace Substring

variable {α : Type} [DecidableEq α]

/-! ## Searching -/

/-- Where a pattern first occurs in a text. -/
def index (pattern : List α) : List α → Option ℕ
  | [] => if pattern = [] then some 0 else none
  | a :: text => if pattern <+: a :: text then some 0 else (index pattern text).map (· + 1)

/-- Where a pattern first occurs from a position on. -/
def find (text pattern : List α) (pos : ℕ) : Option ℕ :=
  (index pattern (text.drop pos)).map (pos + ·)

variable {a : α} {pattern before text rest : List α} {pos : ℕ}

theorem index_of_isPrefix (h : pattern <+: text) : index pattern text = some 0 := by
  cases text with
  | nil => exact if_pos (List.prefix_nil.1 h)
  | cons => exact if_pos h

theorem index_cons (h : ¬pattern <+: a :: text) :
    index pattern (a :: text) = (index pattern text).map (· + 1) :=
  if_neg h

/-- A pattern does not begin where its first character is not. -/
theorem index_append (h : a ∉ before) :
    index (a :: pattern) (before ++ text) =
      (index (a :: pattern) text).map (before.length + ·) := by
  induction before with
  | nil => simp
  | cons b before ih =>
    rw [List.mem_cons, not_or] at h
    rw [List.cons_append, index_cons fun hp => h.1 (List.cons_prefix_cons.1 hp).1, ih h.2,
      Option.map_map, List.length_cons]
    exact congrArg (Option.map · _) (funext fun n => Nat.add_right_comm _ _ _)

theorem add_length_le_of_index {i : ℕ} (h : index pattern text = some i) :
    i + pattern.length ≤ text.length := by
  induction text generalizing i with
  | nil =>
    rw [index] at h
    split_ifs at h with hnil
    obtain rfl := Option.some.inj h
    exact Nat.le_of_eq (by rw [hnil, List.length_nil])
  | cons a text ih =>
    rw [index] at h
    split_ifs at h with hbegins
    · obtain rfl := Option.some.inj h
      rw [Nat.zero_add]
      exact hbegins.length_le
    · obtain ⟨j, hj, rfl⟩ := Option.map_eq_some_iff.1 h
      have := ih hj
      rw [List.length_cons]
      omega

/-- Where a pattern first occurs does not depend on what is behind the text. -/
theorem index_append_right {i : ℕ} (h : index pattern text = some i) (rest : List α) :
    index pattern (text ++ rest) = some i := by
  induction text generalizing i with
  | nil =>
    rw [index] at h
    split_ifs at h with hnil
    rw [index_of_isPrefix (hnil ▸ List.nil_prefix), ← h]
  | cons a text ih =>
    have hlength := Nat.le_trans (Nat.le_add_left _ _) (add_length_le_of_index h)
    rw [index] at h
    split_ifs at h with hbegins
    · rw [index_of_isPrefix (hbegins.trans (List.prefix_append _ _)), ← h]
    · obtain ⟨j, hj, rfl⟩ := Option.map_eq_some_iff.1 h
      have hnot : ¬pattern <+: a :: (text ++ rest) := fun hp =>
        hbegins (List.prefix_of_prefix_length_le hp (List.prefix_append _ rest) hlength)
      rw [List.cons_append, index_cons hnot, ih hj]
      rfl

theorem find_of_drop (h : text.drop pos = before ++ a :: (pattern ++ rest)) (ha : a ∉ before) :
    find text (a :: pattern) pos = some (pos + before.length) := by
  have hbegins : a :: pattern <+: a :: (pattern ++ rest) := ⟨rest, rfl⟩
  rw [find, h, index_append ha, index_of_isPrefix hbegins]
  rfl

/-- What a text is from the first occurrence of a pattern on. -/
def Found (pattern text suffix : List α) : Prop :=
  ∃ i, index pattern text = some i ∧ text.drop i = suffix

theorem found_of_isPrefix (h : pattern <+: text) : Found pattern text text :=
  ⟨0, index_of_isPrefix h, rfl⟩

theorem Found.append {suffix : List α} (h : Found (a :: pattern) text suffix) (ha : a ∉ before) :
    Found (a :: pattern) (before ++ text) suffix := by
  obtain ⟨i, hi, hsuffix⟩ := h
  refine ⟨before.length + i, ?_, ?_⟩
  · rw [index_append ha, hi]
    rfl
  · rw [← List.drop_drop, List.drop_left, hsuffix]

theorem Found.cons {suffix : List α} (h : Found pattern text suffix) (ha : ¬pattern <+: a :: text) :
    Found pattern (a :: text) suffix := by
  obtain ⟨i, hi, hsuffix⟩ := h
  exact ⟨i + 1, by rw [index_cons ha, hi]; rfl, hsuffix⟩

/-! ## The text before a character -/

theorem takeWhile_of_notMem (h : a ∉ text) : text.takeWhile (· ≠ a) = text :=
  List.takeWhile_eq_self_iff.2 fun _ hb => decide_eq_true (ne_of_mem_of_not_mem hb h)

theorem takeWhile_append_of_notMem (h : a ∉ before) (rest : List α) :
    (before ++ rest).takeWhile (· ≠ a) = before ++ rest.takeWhile (· ≠ a) :=
  List.takeWhile_append_of_pos fun _ hb => decide_eq_true (ne_of_mem_of_not_mem hb h)

theorem takeWhile_append_cons (h : a ∉ before) (rest : List α) :
    (before ++ a :: rest).takeWhile (· ≠ a) = before := by
  rw [takeWhile_append_of_notMem h, List.takeWhile_cons_of_neg (by simp), List.append_nil]

theorem takeWhile_append_of_mem (h : a ∈ text) (rest : List α) :
    (text ++ rest).takeWhile (· ≠ a) = text.takeWhile (· ≠ a) := by
  obtain ⟨before, behind, rfl, hbefore⟩ := List.eq_append_cons_of_mem h
  rw [List.append_assoc, List.cons_append, takeWhile_append_cons hbefore,
    takeWhile_append_cons hbefore]

/-- What is before the first occurrence of a character is told from the text. -/
theorem eq_of_append_cons {ys zs : List α} (h : before ++ a :: rest = ys ++ a :: zs)
    (hbefore : a ∉ before) (hys : a ∉ ys) : before = ys := by
  rw [← takeWhile_append_cons hbefore rest, h, takeWhile_append_cons hys]

/-! ## Pieces -/

/-- The lines of a text, ended by a delimiter: nothing behind the last one is no line. -/
def lines (delimiter : α) (text : List α) : List (List α) :=
  if (text.splitOn delimiter).getLast? = some [] then (text.splitOn delimiter).dropLast
  else text.splitOn delimiter

theorem splitOn_eq_lines (delimiter : α) (text : List α) :
    text.splitOn delimiter = lines delimiter text ∨
      text.splitOn delimiter = lines delimiter text ++ [[]] := by
  unfold lines
  split_ifs with hlast
  · obtain ⟨pieces, hpieces⟩ := List.getLast?_eq_some_iff.1 hlast
    right
    rw [hpieces, List.dropLast_concat]
  · exact .inl rfl

/-- The first line of a text is up to the first delimiter. -/
theorem lines_append_cons {delimiter : α} {line : List α} (h : delimiter ∉ line) (rest : List α) :
    lines delimiter (line ++ delimiter :: rest) = line :: lines delimiter rest := by
  have hne : rest.splitOn delimiter ≠ [] := List.splitOn_ne_nil _ _
  have hsplit : (line ++ delimiter :: rest).splitOn delimiter = line :: rest.splitOn delimiter := by
    rw [List.splitOn_append_cons_self, List.splitOn_eq_singleton h, List.singleton_append]
  rw [lines, lines, hsplit, List.getLast?_cons_of_ne_nil hne, List.dropLast_cons_of_ne_nil hne]
  split_ifs <;> rfl

theorem lines_eq_singleton {delimiter : α} {line : List α} (h : delimiter ∉ line)
    (hne : line ≠ []) : lines delimiter line = [line] := by
  rw [lines, List.splitOn_eq_singleton h, List.getLast?_singleton,
    if_neg fun hlast => hne (Option.some.inj hlast)]

/-- The lines of a text are the pieces of what it is without a delimiter at its end. -/
theorem lines_eq_splitOn {delimiter : α} {text : List α} (hne : text ≠ []) :
    lines delimiter text =
      (if text.getLast? = some delimiter then text.dropLast else text).splitOn delimiter := by
  by_cases hmem : delimiter ∈ text
  · obtain ⟨line, rest, rfl, hline⟩ := List.eq_append_cons_of_mem hmem
    rw [lines_append_cons hline]
    rcases eq_or_ne rest [] with rfl | hrest
    · rw [List.getLast?_concat, if_pos rfl, List.dropLast_concat, List.splitOn_eq_singleton hline]
      rfl
    · have hlast : (line ++ delimiter :: rest).getLast? = rest.getLast? := by
        rw [List.getLast?_append_cons,
          List.getLast?_cons_of_ne_nil hrest]
      have hdrop : (line ++ delimiter :: rest).dropLast = line ++ delimiter :: rest.dropLast := by
        rw [List.dropLast_append_of_ne_nil (List.cons_ne_nil _ _),
          List.dropLast_cons_of_ne_nil hrest]
      rw [lines_eq_splitOn hrest, hlast, hdrop]
      split_ifs <;> rw [List.splitOn_append_cons_self, List.splitOn_eq_singleton hline] <;> rfl
  · have hlast : text.getLast? ≠ some delimiter := fun hlast =>
      hmem (List.mem_of_getLast? hlast)
    rw [lines_eq_singleton hmem hne, if_neg hlast, List.splitOn_eq_singleton hmem]
termination_by text.length

/-- Leaving out characters, but no delimiter, leaves the pieces. -/
theorem map_filter_splitOn {keep : α → Bool} {delimiter : α} (h : keep delimiter) (text : List α) :
    (text.splitOn delimiter).map (·.filter keep) = (text.filter keep).splitOn delimiter := by
  induction text with
  | nil => rfl
  | cons b text ih =>
    rw [List.splitOn_cons_eq_if_modifyHead]
    by_cases hb : b = delimiter
    · subst hb
      simp [h, List.splitOn_cons_eq_if_modifyHead, ih]
    · by_cases hkeep : keep b
      · simp [hb, hkeep, List.splitOn_cons_eq_if_modifyHead, ← ih]
        cases text.splitOn delimiter <;> simp [hkeep]
      · simp [hb, hkeep, ← ih]
        cases text.splitOn delimiter <;> simp [hkeep]

/-- A piece is of characters of the text, other than the delimiter. -/
theorem mem_of_mem_splitOn {delimiter b : α} {piece : List α}
    (h : piece ∈ text.splitOn delimiter) (hb : b ∈ piece) : b ∈ text ∧ b ≠ delimiter := by
  induction text generalizing piece with
  | nil =>
    rw [List.splitOn_nil, List.mem_singleton] at h
    exact absurd hb (h ▸ List.not_mem_nil)
  | cons c text ih =>
    rw [List.splitOn_cons_eq_if_modifyHead] at h
    split_ifs at h with hc
    · rcases List.mem_cons.1 h with rfl | h
      · exact absurd hb List.not_mem_nil
      · exact ⟨List.mem_cons_of_mem _ (ih h hb).1, (ih h hb).2⟩
    · rcases hsplit : text.splitOn delimiter with _ | ⟨first, pieces⟩
      · exact absurd hsplit (List.splitOn_ne_nil _ _)
      rw [hsplit, List.modifyHead_cons] at h
      rcases List.mem_cons.1 h with rfl | h
      · rcases List.mem_cons.1 hb with rfl | hb
        · exact ⟨List.mem_cons_self, fun heq => hc (beq_iff_eq.2 heq)⟩
        · have := ih (hsplit ▸ List.mem_cons_self) hb
          exact ⟨List.mem_cons_of_mem _ this.1, this.2⟩
      · have := ih (hsplit ▸ List.mem_cons_of_mem _ h) hb
        exact ⟨List.mem_cons_of_mem _ this.1, this.2⟩

end Substring
