import Mathlib.Data.List.Nodup
import Mathlib.Tactic.Common

/-!
# Linked lists

Nodes linked by pointers: `next` reads the pointer of a node, which is to another
node or to the end. A node may have no pointer to be read, so `next` has two
options: the outer one is `none` where there is no pointer, the inner one at the
end of a list.

`Linked next a nodes` says that following the pointers of `a` meets the nodes of
a list, one after the other, and then the end. It is kept by linking a node in
(`Linked.insert`) and by unlinking one (`Linked.erase`); `walk_eq` says where
following the pointers ends while the nodes met satisfy a condition.
-/

namespace LinkedList

variable {α : Type*} {next next' : α → Option (Option α)} {a z : α} {xs ys nodes : List α}

/-- The pointers lead from a node through those of a list, whatever is behind them. -/
def Segment (next : α → Option (Option α)) : α → List α → Prop
  | _, [] => True
  | a, b :: bs => next a = some (some b) ∧ Segment next b bs

/-- The pointers lead from a node through those of a list to the end. -/
def Linked (next : α → Option (Option α)) (a : α) (nodes : List α) : Prop :=
  Segment next a nodes ∧ next (nodes.getLastD a) = some none

theorem segment_append :
    Segment next a (xs ++ ys) ↔ Segment next a xs ∧ Segment next (xs.getLastD a) ys := by
  induction xs generalizing a with
  | nil => simp [Segment]
  | cons b bs ih => rw [List.cons_append, Segment, Segment, ih, List.getLastD_cons, and_assoc]

theorem getLastD_append (a : α) (xs ys : List α) :
    (xs ++ ys).getLastD a = ys.getLastD (xs.getLastD a) := by
  induction xs generalizing a with
  | nil => rfl
  | cons b bs ih => rw [List.cons_append, List.getLastD_cons, ih, List.getLastD_cons]

theorem linked_append :
    Linked next a (xs ++ ys) ↔ Segment next a xs ∧ Linked next (xs.getLastD a) ys := by
  rw [Linked, Linked, segment_append, getLastD_append, and_assoc]

theorem linked_cons {b : α} {bs : List α} :
    Linked next a (b :: bs) ↔ next a = some (some b) ∧ Linked next b bs := by
  rw [Linked, Linked, Segment, List.getLastD_cons, and_assoc]

/-- The pointer of a node is to the first one of those behind it. -/
theorem Linked.next_eq (h : Linked next a nodes) : next a = some nodes.head? := by
  cases nodes with
  | nil => exact h.2
  | cons b bs => exact h.1.1

theorem getLastD_mem (a : α) (xs : List α) : xs.getLastD a ∈ a :: xs := by
  induction xs generalizing a with
  | nil => exact List.mem_cons_self
  | cons b bs ih =>
    rw [List.getLastD_cons]
    exact List.mem_cons_of_mem _ (ih b)

/-- A segment does not depend on the pointer of its last node. -/
theorem Segment.congr (h : Segment next a xs) (hnodup : (a :: xs).Nodup)
    (hnext : ∀ b ∈ a :: xs, b ≠ xs.getLastD a → next' b = next b) : Segment next' a xs := by
  induction xs generalizing a with
  | nil => trivial
  | cons b bs ih =>
    rw [List.nodup_cons] at hnodup
    rw [List.getLastD_cons] at hnext
    have hne : a ≠ bs.getLastD b := by
      rintro rfl
      exact hnodup.1 (getLastD_mem b bs)
    refine ⟨(hnext a List.mem_cons_self hne).trans h.1, ih h.2 hnodup.2 fun c hc => ?_⟩
    exact hnext c (List.mem_cons_of_mem _ hc)

theorem Linked.congr (h : Linked next a nodes) (hnext : ∀ b ∈ a :: nodes, next' b = next b) :
    Linked next' a nodes := by
  induction nodes generalizing a with
  | nil => exact ⟨trivial, (hnext a List.mem_cons_self).trans h.2⟩
  | cons b bs ih =>
    rw [linked_cons] at h ⊢
    exact ⟨(hnext a List.mem_cons_self).trans h.1, ih h.2 fun c hc =>
      hnext c (List.mem_cons_of_mem _ hc)⟩

theorem nodup_left (h : (a :: (xs ++ ys)).Nodup) : (a :: xs).Nodup :=
  h.sublist ((List.sublist_append_left xs ys).cons_cons a)

/-- The last node of the first part is not in the second one. -/
theorem getLastD_not_mem (h : (a :: (xs ++ ys)).Nodup) : xs.getLastD a ∉ ys := by
  rw [← List.cons_append, List.nodup_append] at h
  exact fun hmem => h.2.2 _ (getLastD_mem a xs) _ hmem rfl

/-- Linking a node in: it points to what its predecessor did, which points to it. -/
theorem Linked.insert (h : Linked next a (xs ++ ys)) (hnodup : (a :: (xs ++ ys)).Nodup)
    (hz : z ∉ a :: (xs ++ ys)) (hself : next' z = next (xs.getLastD a))
    (hpred : next' (xs.getLastD a) = some (some z))
    (hrest : ∀ b ∈ a :: (xs ++ ys), b ≠ xs.getLastD a → next' b = next b) :
    Linked next' a (xs ++ z :: ys) := by
  rw [linked_append] at h
  have hxs (b : α) (hb : b ∈ a :: xs) : b ∈ a :: (xs ++ ys) :=
    List.cons_subset_cons a (List.subset_append_left xs ys) hb
  refine linked_append.2 ⟨h.1.congr (nodup_left hnodup) fun b hb => hrest b (hxs b hb),
    linked_cons.2 ⟨hpred, ?_⟩⟩
  cases ys with
  | nil => exact ⟨trivial, hself.trans h.2.2⟩
  | cons b bs =>
    obtain ⟨hlast, hbs⟩ := linked_cons.1 h.2
    refine linked_cons.2 ⟨hself.trans hlast, hbs.congr fun c hc => hrest c ?_ ?_⟩
    · exact List.mem_cons_of_mem _ (List.mem_append_right _ hc)
    · rintro rfl
      exact getLastD_not_mem hnodup hc

/-- Unlinking a node: its predecessor points to what it did. -/
theorem Linked.erase (h : Linked next a (xs ++ z :: ys)) (hnodup : (a :: (xs ++ z :: ys)).Nodup)
    (hpred : next' (xs.getLastD a) = next z)
    (hrest : ∀ b ∈ a :: (xs ++ ys), b ≠ xs.getLastD a → next' b = next b) :
    Linked next' a (xs ++ ys) := by
  rw [linked_append, linked_cons] at h
  obtain ⟨hxs, -, hys⟩ := h
  have hsub (b : α) (hb : b ∈ a :: xs) : b ∈ a :: (xs ++ ys) :=
    List.cons_subset_cons a (List.subset_append_left xs ys) hb
  refine linked_append.2 ⟨hxs.congr (nodup_left hnodup) fun b hb => hrest b (hsub b hb), ?_⟩
  cases ys with
  | nil => exact ⟨trivial, hpred.trans hys.2⟩
  | cons b bs =>
    obtain ⟨hz, hbs⟩ := linked_cons.1 hys
    refine linked_cons.2 ⟨hpred.trans hz, hbs.congr fun c hc => hrest c ?_ ?_⟩
    · exact List.mem_cons_of_mem _ (List.mem_append_right _ hc)
    · rintro rfl
      exact getLastD_not_mem hnodup (List.mem_cons_of_mem _ hc)

/-- Follows the pointers as long as the nodes met satisfy a condition. It is `none`
    if a pointer cannot be read, or if the nodes do not end before the fuel does. -/
def walk (next : α → Option (Option α)) (p : α → Bool) : ℕ → α → Option α
  | 0, _ => none
  | fuel + 1, a =>
    match next a with
    | none => none
    | some none => some a
    | some (some b) => if p b then walk next p fuel b else some a

/-- Walking ends at the last of the nodes that satisfy the condition. -/
theorem walk_eq {p : α → Bool} {fuel : ℕ} (h : Linked next a (xs ++ ys)) (hxs : ∀ b ∈ xs, p b)
    (hys : ∀ b ∈ ys.head?, p b = false) (hfuel : xs.length < fuel) :
    walk next p fuel a = some (xs.getLastD a) := by
  induction xs generalizing a fuel with
  | nil =>
    obtain ⟨fuel, rfl⟩ := Nat.exists_eq_succ_of_ne_zero (Nat.ne_zero_of_lt hfuel)
    rw [List.nil_append] at h
    rw [walk, h.next_eq]
    cases ys with
    | nil => rfl
    | cons b bs => simp [hys b rfl]
  | cons b bs ih =>
    obtain ⟨fuel, rfl⟩ := Nat.exists_eq_succ_of_ne_zero (Nat.ne_zero_of_lt hfuel)
    rw [List.cons_append, linked_cons] at h
    rw [List.forall_mem_cons] at hxs
    rw [walk, h.1, List.getLastD_cons]
    simp only [hxs.1, if_true]
    exact ih h.2 hxs.2 (Nat.lt_of_succ_lt_succ hfuel)

/-- Collects the nodes met until the end. -/
def collect (next : α → Option (Option α)) : ℕ → Option α → Option (List α)
  | _, none => some []
  | 0, some _ => none
  | fuel + 1, some a => do
    let rest ← collect next fuel (← next a)
    return a :: rest

theorem collect_eq {fuel : ℕ} (h : Linked next a nodes) (hfuel : nodes.length ≤ fuel) :
    collect next fuel nodes.head? = some nodes := by
  induction nodes generalizing a fuel with
  | nil => cases fuel <;> rfl
  | cons b bs ih =>
    obtain ⟨fuel, rfl⟩ := Nat.exists_eq_succ_of_ne_zero (Nat.ne_zero_of_lt hfuel)
    obtain ⟨-, hbs⟩ := linked_cons.1 h
    have hrest := ih hbs (Nat.le_of_succ_le_succ hfuel)
    rw [List.head?_cons, collect, hbs.next_eq]
    simp [hrest]

end LinkedList
