import Mathlib.Algebra.BigOperators.Group.List.Basic
import Mathlib.Algebra.GroupWithZero.Nat
import Bitcask.Library.Loop

/-!
# Items laid out back to back

A file of items, each occupying `size a` bytes, one after the other from an
offset on (`layout`). A loop reading the item at its position and going on
behind it visits the items in order (`loop_layout`).
-/

namespace Framing

open FuelLoop

variable {α : Type*} (size : α → ℕ)

/-- The number of bytes items occupy. -/
def extent (items : List α) : ℕ := (items.map size).sum

/-- The items with their offsets, the first one at `off`. -/
def layout : ℕ → List α → List (ℕ × α)
  | _, [] => []
  | off, a :: items => (off, a) :: layout (off + size a) items

variable {size}

@[simp]
theorem extent_nil : extent size [] = 0 := rfl

@[simp]
theorem extent_cons (a : α) (items : List α) :
    extent size (a :: items) = size a + extent size items := by
  simp [extent]

@[simp]
theorem extent_append (as bs : List α) :
    extent size (as ++ bs) = extent size as + extent size bs := by
  simp [extent]

@[simp]
theorem layout_nil (off : ℕ) : layout size off [] = [] := rfl

@[simp]
theorem layout_cons (off : ℕ) (a : α) (items : List α) :
    layout size off (a :: items) = (off, a) :: layout size (off + size a) items := rfl

theorem layout_append (off : ℕ) (as bs : List α) :
    layout size off (as ++ bs) = layout size off as ++ layout size (off + extent size as) bs := by
  induction as generalizing off with
  | nil => simp
  | cons a as ih => simp [ih, Nat.add_assoc]

@[simp]
theorem map_snd_layout (off : ℕ) (items : List α) : (layout size off items).map Prod.snd = items := by
  induction items generalizing off with
  | nil => rfl
  | cons a items ih => simp [ih]

/-- The place of an item: behind the items before it. -/
theorem mem_layout_iff {off : ℕ} {items : List α} {x : ℕ × α} :
    x ∈ layout size off items ↔
      ∃ pre post, items = pre ++ x.2 :: post ∧ x.1 = off + extent size pre := by
  constructor
  · intro hx
    induction items generalizing off with
    | nil => simp at hx
    | cons a items ih =>
      rcases List.mem_cons.1 hx with rfl | hx
      · exact ⟨[], items, rfl, by simp⟩
      · obtain ⟨pre, post, rfl, h⟩ := ih hx
        exact ⟨a :: pre, post, rfl, by rw [h, extent_cons, Nat.add_assoc]⟩
  · rintro ⟨pre, post, rfl, h⟩
    rw [layout_append, layout_cons, ← h]
    simp

theorem mem_of_mem_layout {off : ℕ} {items : List α} {x : ℕ × α}
    (hx : x ∈ layout size off items) : x.2 ∈ items := by
  obtain ⟨pre, post, rfl, _⟩ := mem_layout_iff.1 hx
  simp

/-- An item lies within the bytes of all the items. -/
theorem bounds_of_mem_layout {off : ℕ} {items : List α} {x : ℕ × α}
    (hx : x ∈ layout size off items) :
    off ≤ x.1 ∧ x.1 + size x.2 ≤ off + extent size items := by
  obtain ⟨pre, post, rfl, h⟩ := mem_layout_iff.1 hx
  simp only [extent_append, extent_cons]
  omega

variable {σ ρ : Type*} {body : σ → Pass σ ρ} (step : σ → ℕ × α → σ) (pos : σ → ℕ)
  (Readable : ℕ → α → Prop)

/-- Folding a step that goes behind its item ends behind all the items. -/
theorem pos_foldl_layout (hpos : ∀ s a, pos (step s (pos s, a)) = pos s + size a)
    (items : List α) (s : σ) :
    pos ((layout size (pos s) items).foldl step s) = pos s + extent size items := by
  induction items generalizing s with
  | nil => simp
  | cons a items ih =>
    rw [layout_cons, List.foldl_cons, ← hpos, ih, hpos, extent_cons, Nat.add_assoc]

/-- A loop that reads the item at its position and goes behind it: it folds its
    step over the items of a layout, spending a pass for each. -/
theorem loop_layout (hpos : ∀ s a, pos (step s (pos s, a)) = pos s + size a)
    (hbody : ∀ s a, Readable (pos s) a → body s = .again (step s (pos s, a)))
    {items : List α} {s : σ} (hread : ∀ x ∈ layout size (pos s) items, Readable x.1 x.2)
    (n : ℕ) :
    loop body (items.length + n) s = loop body n ((layout size (pos s) items).foldl step s) := by
  induction items generalizing s with
  | nil => simp
  | cons a items ih =>
    rw [layout_cons, List.forall_mem_cons] at hread
    rw [List.length_cons, show items.length + 1 + n = items.length + n + 1 by omega,
      loop_again (hbody s a hread.1), ih (by rw [hpos]; exact hread.2), layout_cons,
      List.foldl_cons, hpos]

end Framing
