import Mathlib.Data.List.Induction
import Mathlib.Logic.Function.Basic
import Mathlib.Tactic.Common

/-!
# Logs of transactions

A log of writes to keys (`Entry`), each giving a key a value or, for `none`,
removing it. A *plain* write takes effect at its own place in the log. A write
that is *part* of a transaction takes effect at the first later end of the
transaction, and never if there is none (`TakesEffect`). Transactions may be
interleaved, and a name may be used again once its transaction has ended.

The value of a key is that of the last write of it that takes effect, the
writes of one transaction taking effect in the order of the log.

`replay` computes the values in one pass over the log, holding the parts of
open transactions back. `replay_value_iff` says that it is right. Its result
also tells how a log goes on: `replay_append`, and `overlay_of_mem` for writes
made twice.
-/

namespace Transaction

variable {τ κ ν : Type*}

/-- An entry of a log. -/
inductive Entry (τ κ ν : Type*)
  | plain (k : κ) (v : Option ν)
  | part (t : τ) (k : κ) (v : Option ν)
  | finish (t : τ)

/-- The write of the entry `i` takes effect at the entry `j`. -/
def TakesEffect (log : List (Entry τ κ ν)) (i j : ℕ) (k : κ) (v : Option ν) : Prop :=
  (log[i]? = some (.plain k v) ∧ j = i) ∨
    ∃ t, log[i]? = some (.part t k v) ∧ i < j ∧ log[j]? = some (.finish t) ∧
      ∀ m, i < m → m < j → log[m]? ≠ some (.finish t)

/-- The write of the entry `i`, a part of the transaction `t`, has not taken
    effect: the transaction has not ended since. -/
def Held (log : List (Entry τ κ ν)) (t : τ) (i : ℕ) (k : κ) (v : Option ν) : Prop :=
  log[i]? = some (.part t k v) ∧ ∀ m, i < m → log[m]? ≠ some (.finish t)

/-- The entry `i`, taking effect at the entry `j`, does so before another one. -/
def Before (x y : ℕ × ℕ) : Prop := x.2 < y.2 ∨ (x.2 = y.2 ∧ x.1 < y.1)

/-! ## Longer logs -/

section Concat

variable {log : List (Entry τ κ ν)} {e : Entry τ κ ν} {i j m : ℕ} {k : κ} {v : Option ν} {t : τ}

theorem getElem?_concat_iff {x : Entry τ κ ν} :
    (log ++ [e])[m]? = some x ↔ log[m]? = some x ∨ (m = log.length ∧ e = x) := by
  rcases Nat.lt_trichotomy m log.length with h | rfl | h
  · rw [List.getElem?_append_left h, or_iff_left fun hm => Nat.ne_of_lt h hm.1]
  · simp
  · rw [List.getElem?_eq_none (by simp; omega), List.getElem?_eq_none (Nat.le_of_lt h)]
    simp [Nat.ne_of_gt h]

theorem lt_of_getElem?_eq {x : Entry τ κ ν} (h : log[m]? = some x) : m < log.length :=
  (List.getElem?_eq_some_iff.1 h).1

theorem TakesEffect.lt (h : TakesEffect log i j k v) : j < log.length := by
  obtain ⟨h, rfl⟩ | ⟨_, _, _, h, _⟩ := h <;> exact lt_of_getElem?_eq h

/-- What a longer log holds back: what the log did, unless the new entry ends
    the transaction, and the new entry. -/
theorem held_concat :
    Held (log ++ [e]) t i k v ↔
      (Held log t i k v ∧ e ≠ .finish t) ∨ (i = log.length ∧ e = .part t k v) := by
  simp only [Held, ne_eq, getElem?_concat_iff]
  constructor
  · rintro ⟨h | ⟨rfl, rfl⟩, hm⟩
    · exact .inl ⟨⟨h, fun m h1 h2 => hm m h1 (.inl h2)⟩, fun he =>
        hm log.length (lt_of_getElem?_eq h) (.inr ⟨rfl, he⟩)⟩
    · exact .inr ⟨rfl, rfl⟩
  · rintro (⟨⟨h, hm⟩, he⟩ | ⟨rfl, rfl⟩)
    · exact ⟨.inl h, fun m h1 h2 => h2.elim (hm m h1) fun h3 => he h3.2⟩
    · refine ⟨.inr ⟨rfl, rfl⟩, fun m h1 h2 => ?_⟩
      rcases h2 with h2 | ⟨_, h2⟩
      · exact absurd (lt_of_getElem?_eq h2) (Nat.lt_asymm h1)
      · cases h2

/-- What a longer log makes effective: what the log did, and the new entry's effects. -/
theorem takesEffect_concat :
    TakesEffect (log ++ [e]) i j k v ↔
      TakesEffect log i j k v ∨ (j = log.length ∧
        ((i = log.length ∧ e = .plain k v) ∨ ∃ t, e = .finish t ∧ Held log t i k v)) := by
  simp only [TakesEffect, Held, ne_eq, getElem?_concat_iff]
  constructor
  · rintro (⟨h | ⟨rfl, rfl⟩, rfl⟩ | ⟨t, hi, hij, hj | ⟨rfl, rfl⟩, hm⟩)
    · exact .inl (.inl ⟨h, rfl⟩)
    · exact .inr ⟨rfl, .inl ⟨rfl, rfl⟩⟩
    · have hl := lt_of_getElem?_eq hj
      exact .inl (.inr ⟨t, hi.resolve_right fun h => by omega, hij, hj, fun m h1 h2 h3 =>
        hm m h1 h2 (.inl h3)⟩)
    · exact .inr ⟨rfl, .inr ⟨t, rfl, hi.resolve_right fun h => by omega, fun m h1 h3 =>
        hm m h1 (lt_of_getElem?_eq h3) (.inl h3)⟩⟩
  · rintro ((⟨h, rfl⟩ | ⟨t, hi, hij, hj, hm⟩) | ⟨rfl, ⟨rfl, rfl⟩ | ⟨t, rfl, hi, hm⟩⟩)
    · exact .inl ⟨.inl h, rfl⟩
    · have hl := lt_of_getElem?_eq hj
      exact .inr ⟨t, .inl hi, hij, .inl hj, fun m h1 h2 h3 =>
        h3.elim (hm m h1 h2) fun h => by omega⟩
    · exact .inl ⟨.inr ⟨rfl, rfl⟩, rfl⟩
    · exact .inr ⟨t, .inl hi, lt_of_getElem?_eq hi, .inr ⟨rfl, rfl⟩, fun m h1 h2 h3 =>
        h3.elim (hm m h1) fun h => by omega⟩

end Concat

/-! ## Writes on top of values -/

section Overlay

variable [DecidableEq κ]

/-- The values after some writes, made in order. -/
def overlay (writes : List (κ × Option ν)) (m : κ → Option ν) : κ → Option ν :=
  writes.foldl (fun m w => Function.update m w.1 w.2) m

@[simp]
theorem overlay_nil (m : κ → Option ν) : overlay [] m = m := rfl

@[simp]
theorem overlay_cons (w : κ × Option ν) (ws : List (κ × Option ν)) (m : κ → Option ν) :
    overlay (w :: ws) m = overlay ws (Function.update m w.1 w.2) := rfl

theorem overlay_append (ws vs : List (κ × Option ν)) (m : κ → Option ν) :
    overlay (ws ++ vs) m = overlay vs (overlay ws m) := List.foldl_append

/-- A key that is not written keeps its value. -/
theorem overlay_of_not_mem {ws : List (κ × Option ν)} {k : κ} (h : ∀ w ∈ ws, w.1 ≠ k)
    (m : κ → Option ν) : overlay ws m k = m k := by
  induction ws generalizing m with
  | nil => rfl
  | cons w ws ih =>
    rw [overlay_cons, ih (fun v hv => h v (List.mem_cons_of_mem _ hv)),
      Function.update_of_ne (h w List.mem_cons_self).symm]

/-- The values of the other keys do not matter. -/
theorem overlay_congr {m m' : κ → Option ν} {k : κ} (h : m k = m' k)
    (ws : List (κ × Option ν)) : overlay ws m k = overlay ws m' k := by
  induction ws generalizing m m' with
  | nil => exact h
  | cons w ws ih =>
    rw [overlay_cons, overlay_cons]
    apply ih
    by_cases hk : k = w.1
    · subst hk; simp
    · rw [Function.update_of_ne hk, Function.update_of_ne hk, h]

/-- A key that is written gets the same value whatever it was before. -/
theorem overlay_of_mem {ws : List (κ × Option ν)} {k : κ} (h : ∃ w ∈ ws, w.1 = k)
    (m m' : κ → Option ν) : overlay ws m k = overlay ws m' k := by
  induction ws generalizing m m' with
  | nil => simp at h
  | cons w ws ih =>
    rw [overlay_cons, overlay_cons]
    by_cases hws : ∃ v ∈ ws, v.1 = k
    · exact ih hws _ _
    · obtain ⟨v, hv, rfl⟩ := h
      rcases List.mem_cons.1 hv with rfl | hv
      · exact overlay_congr (by simp) ws
      · exact absurd ⟨v, hv, rfl⟩ hws

/-- Writes of keys that are all written again have no effect. -/
theorem overlay_append_of_subset {ws vs : List (κ × Option ν)}
    (h : ∀ w ∈ ws, ∃ v ∈ vs, v.1 = w.1) (m : κ → Option ν) :
    overlay (ws ++ vs) m = overlay vs m := by
  funext k
  rw [overlay_append]
  by_cases hk : ∃ w ∈ ws, w.1 = k
  · obtain ⟨w, hw, rfl⟩ := hk
    exact overlay_of_mem (h w hw) _ _
  · push Not at hk
    exact overlay_congr (overlay_of_not_mem hk m) vs

/-- Writes of related values keep values related. -/
theorem overlay_rel {μ : Type*} {R : Option ν → Option μ → Prop} {ws : List (κ × Option ν)}
    {vs : List (κ × Option μ)} (h : List.Forall₂ (fun w v => w.1 = v.1 ∧ R w.2 v.2) ws vs)
    {m : κ → Option ν} {n : κ → Option μ} (hm : ∀ k, R (m k) (n k)) (k : κ) :
    R (overlay ws m k) (overlay vs n k) := by
  induction h generalizing m n with
  | nil => exact hm k
  | cons hw _ ih =>
    obtain ⟨hkey, hvalue⟩ := hw
    rw [overlay_cons, overlay_cons]
    refine ih fun k' => ?_
    rw [Function.update_apply, Function.update_apply, hkey]
    split
    · exact hvalue
    · exact hm k'

/-- Writes that agree with the values there are have no effect. -/
theorem overlay_of_eq {ws : List (κ × Option ν)} {m : κ → Option ν}
    (h : ∀ w ∈ ws, m w.1 = w.2) : overlay ws m = m := by
  induction ws with
  | nil => rfl
  | cons w ws ih =>
    rw [List.forall_mem_cons] at h
    rw [overlay_cons, ← h.1, Function.update_eq_self, ih h.2]

/-- The value of a key is that of the last write of it, in any order `lt` in
    which the writes are made. -/
theorem overlay_eq_some_iff {ι : Type*} (lt : ι → ι → Prop) (hirr : ∀ a, ¬lt a a)
    (hasymm : ∀ a b, lt a b → ¬lt b a) {ws : List (ι × κ × Option ν)}
    (hws : ws.Pairwise fun x y => lt x.1 y.1) {k : κ} {v : ν} :
    overlay (ws.map Prod.snd) (fun _ => none) k = some v ↔
      ∃ x ∈ ws, x.2 = (k, some v) ∧ ∀ y ∈ ws, y.2.1 = k → y = x ∨ lt y.1 x.1 := by
  induction ws using List.reverseRecOn with
  | nil => simp
  | append_singleton ws w ih =>
    rw [List.pairwise_append] at hws
    obtain ⟨hws, _, hlast⟩ := hws
    rw [List.map_append, overlay_append, List.map_singleton, overlay_cons, overlay_nil]
    by_cases hk : w.2.1 = k
    · rw [← hk, Function.update_self]
      constructor
      · intro h
        refine ⟨w, by simp, Prod.ext rfl h, fun y hy _ => ?_⟩
        rcases List.mem_append.1 hy with hy | hy
        · exact .inr (hlast y hy w List.mem_cons_self)
        · exact .inl (List.mem_singleton.1 hy)
      · rintro ⟨x, hx, hxv, hmax⟩
        rcases hmax w (by simp) rfl with rfl | hlt
        · rw [hxv]
        · rcases List.mem_append.1 hx with hx | hx
          · exact absurd hlt (hasymm _ _ (hlast x hx w List.mem_cons_self))
          · exact absurd (List.mem_singleton.1 hx ▸ hlt) (hirr _)
    · rw [Function.update_of_ne (Ne.symm hk), ih hws]
      constructor
      · rintro ⟨x, hx, hxv, hmax⟩
        refine ⟨x, List.mem_append_left _ hx, hxv, fun y hy hyk => ?_⟩
        rcases List.mem_append.1 hy with hy | hy
        · exact hmax y hy hyk
        · exact absurd (List.mem_singleton.1 hy ▸ hyk) hk
      · rintro ⟨x, hx, hxv, hmax⟩
        rcases List.mem_append.1 hx with hx | hx
        · exact ⟨x, hx, hxv, fun y hy => hmax y (List.mem_append_left _ hy)⟩
        · rw [List.mem_singleton.1 hx] at hxv
          exact absurd (by rw [hxv]) hk

/-- The value of a key has been written, or it is the one before. -/
theorem mem_or_eq_of_overlay {ws : List (κ × Option ν)} {m : κ → Option ν} {k : κ} {v : ν}
    (h : overlay ws m k = some v) : (k, some v) ∈ ws ∨ m k = some v := by
  induction ws generalizing m with
  | nil => exact .inr h
  | cons w ws ih =>
    rw [overlay_cons] at h
    rcases ih h with hmem | heq
    · exact .inl (List.mem_cons_of_mem _ hmem)
    · rw [Function.update_apply] at heq
      split at heq
      · rename_i hk
        rw [hk, ← heq]
        exact .inl List.mem_cons_self
      · exact .inr heq

end Overlay

/-! ## Replay -/

/-- The values so far, and the writes held back for each open transaction. -/
structure State (τ κ ν : Type*) where
  value : κ → Option ν
  pending : τ → List (κ × Option ν)

/-- Nothing has a value, and no transaction is open. -/
def State.init : State τ κ ν := ⟨fun _ => none, fun _ => []⟩

variable [DecidableEq τ] [DecidableEq κ]

/-- The effect of the next entry of the log. -/
def State.step (s : State τ κ ν) : Entry τ κ ν → State τ κ ν
  | .plain k v => { s with value := Function.update s.value k v }
  | .part t k v => { s with pending := Function.update s.pending t (s.pending t ++ [(k, v)]) }
  | .finish t =>
    { value := overlay (s.pending t) s.value, pending := Function.update s.pending t [] }

/-- One pass over a log. -/
def replay (log : List (Entry τ κ ν)) : State τ κ ν := log.foldl State.step .init

theorem replay_append (log more : List (Entry τ κ ν)) :
    replay (log ++ more) = more.foldl State.step (replay log) := List.foldl_append

theorem replay_concat (log : List (Entry τ κ ν)) (e : Entry τ κ ν) :
    replay (log ++ [e]) = (replay log).step e := by
  rw [replay_append, List.foldl_cons, List.foldl_nil]

/-- The parts of a transaction that is open are held back in order. -/
theorem foldl_part (t : τ) (ws : List (κ × Option ν)) (s : State τ κ ν) :
    (ws.map fun w => Entry.part t w.1 w.2).foldl State.step s =
      { s with pending := Function.update s.pending t (s.pending t ++ ws) } := by
  induction ws generalizing s with
  | nil => simp
  | cons w ws ih => rw [List.map_cons, List.foldl_cons, ih]; simp [State.step]

/-- A transaction whose parts and end are written in a row: its parts take effect
    as if nothing had been held back for it before, if they write all that was. -/
theorem foldl_transaction {t : τ} {ws : List (κ × Option ν)} {s : State τ κ ν}
    (h : ∀ w ∈ s.pending t, ∃ v ∈ ws, v.1 = w.1) :
    ((ws.map fun w : κ × Option ν => Entry.part t w.1 w.2) ++ [Entry.finish t]).foldl
        State.step s =
      ⟨overlay ws s.value, Function.update s.pending t []⟩ := by
  rw [List.foldl_append, foldl_part, List.foldl_cons, List.foldl_nil, State.step]
  simp only [Function.update_self, Function.update_idem]
  rw [overlay_append_of_subset h]

/-! ## Replay computes the last effective writes -/

/-- The effects of a log with the entries they come from and take effect at, and
    the parts held back: what `replay` computes, with its history. -/
structure History (log : List (Entry τ κ ν)) where
  effects : List ((ℕ × ℕ) × κ × Option ν)
  held : τ → List (ℕ × κ × Option ν)
  mem_effects : ∀ x, x ∈ effects ↔ TakesEffect log x.1.1 x.1.2 x.2.1 x.2.2
  sorted_effects : effects.Pairwise fun x y => Before x.1 y.1
  mem_held : ∀ t x, x ∈ held t ↔ Held log t x.1 x.2.1 x.2.2
  sorted_held : ∀ t, (held t).Pairwise fun x y => x.1 < y.1
  value_eq : (replay log).value = overlay (effects.map Prod.snd) fun _ => none
  pending_eq : ∀ t, (replay log).pending t = (held t).map Prod.snd

namespace History

variable {log : List (Entry τ κ ν)} (h : History log)

/-- A plain write takes effect at once. -/
def plain (k : κ) (v : Option ν) : History (log ++ [.plain k v]) where
  effects := h.effects ++ [((log.length, log.length), k, v)]
  held := h.held
  mem_effects := by
    rintro ⟨⟨i, j⟩, k', v'⟩
    rw [takesEffect_concat, List.mem_append, h.mem_effects, List.mem_singleton]
    simp only [Prod.mk.injEq, Entry.plain.injEq, reduceCtorEq, false_and, exists_false, or_false]
    tauto
  sorted_effects := List.pairwise_append.2 ⟨h.sorted_effects, List.pairwise_singleton _ _,
    fun x hx y hy => by
      rw [List.mem_singleton.1 hy]
      exact .inl ((h.mem_effects x).1 hx).lt⟩
  mem_held t x := by simp [held_concat, h.mem_held]
  sorted_held := h.sorted_held
  value_eq := by
    rw [replay_concat, List.map_append, overlay_append, ← h.value_eq]
    rfl
  pending_eq := by rw [replay_concat]; exact h.pending_eq

/-- A part of a transaction is held back. -/
def part (t : τ) (k : κ) (v : Option ν) : History (log ++ [.part t k v]) where
  effects := h.effects
  held := Function.update h.held t (h.held t ++ [(log.length, k, v)])
  mem_effects := by
    rintro ⟨⟨i, j⟩, k', v'⟩
    rw [takesEffect_concat, h.mem_effects]
    simp
  sorted_effects := h.sorted_effects
  mem_held t' x := by
    obtain ⟨i, k', v'⟩ := x
    by_cases ht : t' = t
    · subst ht
      rw [Function.update_self, List.mem_append, h.mem_held, held_concat]
      simp [eq_comm]
    · rw [Function.update_of_ne ht, h.mem_held, held_concat]
      simp [Ne.symm ht]
  sorted_held t' := by
    by_cases ht : t' = t
    · subst ht
      rw [Function.update_self]
      exact List.pairwise_append.2 ⟨h.sorted_held _, List.pairwise_singleton _ _, fun x hx y hy =>
        by rw [List.mem_singleton.1 hy]; exact lt_of_getElem?_eq ((h.mem_held _ x).1 hx).1⟩
    · rw [Function.update_of_ne ht]
      exact h.sorted_held t'
  value_eq := by rw [replay_concat]; exact h.value_eq
  pending_eq t' := by
    rw [replay_concat]
    by_cases ht : t' = t
    · subst ht; simp [State.step, h.pending_eq]
    · simp [State.step, ht, h.pending_eq]

/-- The end of a transaction makes its parts effective. -/
def finish (t : τ) : History (log ++ [.finish t]) where
  effects := h.effects ++ (h.held t).map fun x => ((x.1, log.length), x.2)
  held := Function.update h.held t []
  mem_effects := by
    rintro ⟨⟨i, j⟩, k', v'⟩
    rw [takesEffect_concat, List.mem_append, h.mem_effects, List.mem_map]
    simp only [reduceCtorEq, and_false, false_or, Entry.finish.injEq, exists_eq_left']
    refine or_congr Iff.rfl ⟨?_, ?_⟩
    · rintro ⟨⟨i', k'', v''⟩, hx, hxe⟩
      simp only [Prod.mk.injEq] at hxe
      obtain ⟨⟨rfl, rfl⟩, rfl, rfl⟩ := hxe
      exact ⟨rfl, (h.mem_held t _).1 hx⟩
    · rintro ⟨rfl, hi⟩
      exact ⟨(i, k', v'), (h.mem_held t _).2 hi, rfl⟩
  sorted_effects := by
    refine List.pairwise_append.2 ⟨h.sorted_effects, ?_, fun x hx y hy => ?_⟩
    · rw [List.pairwise_map]
      exact (h.sorted_held t).imp fun hxy => .inr ⟨rfl, hxy⟩
    · obtain ⟨z, _, rfl⟩ := List.mem_map.1 hy
      exact .inl ((h.mem_effects x).1 hx).lt
  mem_held t' x := by
    by_cases ht : t' = t
    · subst ht
      simp [held_concat]
    · rw [Function.update_of_ne ht, h.mem_held, held_concat]
      simp [Ne.symm ht]
  sorted_held t' := by
    by_cases ht : t' = t
    · subst ht; simp
    · rw [Function.update_of_ne ht]
      exact h.sorted_held t'
  value_eq := by
    rw [replay_concat, List.map_append, overlay_append, ← h.value_eq, List.map_map]
    simp only [State.step, h.pending_eq]
    rfl
  pending_eq t' := by
    rw [replay_concat]
    by_cases ht : t' = t
    · subst ht; simp [State.step]
    · simp [State.step, ht, h.pending_eq]

end History

/-- Every log has a history: one more entry adds its effects at the end. -/
theorem exists_history (log : List (Entry τ κ ν)) : Nonempty (History log) := by
  induction log using List.reverseRecOn with
  | nil =>
    exact ⟨⟨[], fun _ => [], by simp [TakesEffect], .nil, by simp [Held], fun _ => .nil, rfl,
      fun _ => rfl⟩⟩
  | append_singleton log e ih =>
    obtain ⟨h⟩ := ih
    cases e with
    | plain k v => exact ⟨h.plain k v⟩
    | part t k v => exact ⟨h.part t k v⟩
    | finish t => exact ⟨h.finish t⟩

/-- Replaying a log holds back the writes of open transactions. -/
theorem mem_pending_iff {log : List (Entry τ κ ν)} {t : τ} {w : κ × Option ν} :
    w ∈ (replay log).pending t ↔ ∃ i, Held log t i w.1 w.2 := by
  obtain ⟨h⟩ := exists_history log
  rw [h.pending_eq, List.mem_map]
  constructor
  · rintro ⟨x, hx, rfl⟩
    exact ⟨x.1, (h.mem_held t x).1 hx⟩
  · rintro ⟨i, hi⟩
    exact ⟨(i, w), (h.mem_held t (i, w)).2 hi, rfl⟩

/-- Replaying a log gives every key the value of the last write of it that
    takes effect. -/
theorem replay_value_iff {log : List (Entry τ κ ν)} {k : κ} {v : ν} :
    (replay log).value k = some v ↔
      ∃ i j, TakesEffect log i j k (some v) ∧ ∀ i' j' v', TakesEffect log i' j' k v' →
        (i', j') = (i, j) ∨ Before (i', j') (i, j) := by
  obtain ⟨h⟩ := exists_history log
  rw [h.value_eq, overlay_eq_some_iff Before (fun a ha => by unfold Before at ha; omega)
    (fun a b hab hba => by unfold Before at hab hba; omega) h.sorted_effects]
  constructor
  · rintro ⟨⟨⟨i, j⟩, _⟩, hx, rfl, hmax⟩
    refine ⟨i, j, (h.mem_effects _).1 hx, fun i' j' v' hv' => ?_⟩
    exact (hmax ((i', j'), k, v') ((h.mem_effects _).2 hv') rfl).imp_left fun he => by
      simpa using congrArg Prod.fst he
  · rintro ⟨i, j, hv, hmax⟩
    refine ⟨((i, j), k, some v), (h.mem_effects _).2 hv, rfl, ?_⟩
    rintro ⟨⟨i', j'⟩, k', v'⟩ hy rfl
    refine (hmax i' j' v' ((h.mem_effects _).1 hy)).imp_left fun he => ?_
    -- One entry makes one write.
    obtain ⟨rfl, rfl⟩ := Prod.mk.inj he
    have hy := (h.mem_effects _).1 hy
    obtain ⟨h1, _⟩ | ⟨t1, h1, _⟩ := hv <;> obtain ⟨h2, _⟩ | ⟨t2, h2, _⟩ := hy <;>
      rw [h1] at h2 <;> cases h2 <;> rfl

/-- A value that replaying a log gives is written by an entry of it. -/
theorem mem_of_replay_value {log : List (Entry τ κ ν)} {k : κ} {v : ν}
    (h : (replay log).value k = some v) :
    ∃ e ∈ log, e = .plain k (some v) ∨ ∃ t, e = .part t k (some v) := by
  obtain ⟨i, j, heffect, -⟩ := replay_value_iff.1 h
  obtain ⟨hi, -⟩ | ⟨t, hi, -⟩ := heffect
  · exact ⟨_, List.mem_of_getElem? hi, .inl rfl⟩
  · exact ⟨_, List.mem_of_getElem? hi, .inr ⟨t, rfl⟩⟩

/-- Where no transaction ends and no key is written plainly twice, the values are those
    written plainly. -/
theorem replay_value_iff_of_plain {log : List (Entry τ κ ν)} {k : κ} {v : ν}
    (hfinish : ∀ t, .finish t ∉ log)
    (hunique : ∀ (i j : ℕ) (v v' : Option ν), log[i]? = some (.plain k v) →
      log[j]? = some (.plain k v') → i = j) :
    (replay log).value k = some v ↔ .plain k (some v) ∈ log := by
  have hplain {i j : ℕ} {v : Option ν} (h : TakesEffect log i j k v) :
      log[i]? = some (.plain k v) ∧ j = i := by
    rcases h with h | ⟨t, -, -, hj, -⟩
    · exact h
    · exact absurd (List.mem_of_getElem? hj) (hfinish t)
  rw [replay_value_iff]
  constructor
  · rintro ⟨i, j, heffect, -⟩
    exact List.mem_of_getElem? (hplain heffect).1
  · intro hmem
    obtain ⟨i, hi⟩ := List.mem_iff_getElem?.1 hmem
    refine ⟨i, i, .inl ⟨hi, rfl⟩, fun i' j' v' heffect => .inl ?_⟩
    obtain ⟨hi', rfl⟩ := hplain heffect
    rw [hunique _ _ _ _ hi' hi]

end Transaction
