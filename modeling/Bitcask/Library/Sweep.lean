import Mathlib.Data.List.Chain
import Mathlib.Data.List.Nodup

/-!
# Sweeps

A cursor goes through keys in ascending order while keys come and go. What it has
visited and what it has still ahead, as things stand, is a `Sweep` for a key if the two
together are ascending and the key is among them. It stays one when the cursor moves,
and when what is ahead changes to something ascending that still has the key. So a key that is
there all the time has been visited exactly once when nothing is ahead any more
(`Sweep.count_eq_one`).

What is ahead of a cursor that follows the pointers of a linked list is a `Trail`. The
cursor may be at a node that has been unlinked: nobody redirects the pointer of such a
node any more, but the nodes behind it may be linked and unlinked themselves. A node
that is linked in behind one with a smaller key, and in front of one with a larger key, only
adds its own key to a trail (`Trail.insert`), and a node that is unlinked only takes
its key away (`Trail.erase`).
-/

/-- A cursor has visited some keys, the last of which is `last`, and has others ahead; a
    key `k` is among them. -/
structure Sweep {κ : Type*} (r : κ → κ → Prop) (k : κ) (visited : List κ) (last : κ)
    (rest : List κ) : Prop where
  getLast? : visited.getLast? = some last
  ascending : (visited ++ rest).IsChain r
  mem : k ∈ visited ∨ k ∈ rest

namespace Sweep

variable {κ : Type*} {r : κ → κ → Prop} {k a last : κ} {visited rest rest' : List κ}

/-- A new cursor has visited the first key. -/
theorem start (h : (a :: rest).IsChain r) (hk : k ∈ a :: rest) : Sweep r k [a] a rest where
  getLast? := rfl
  ascending := h
  mem := (List.mem_cons.1 hk).imp_left List.mem_singleton.2

theorem next (h : Sweep r k visited last (a :: rest)) : Sweep r k (visited ++ [a]) a rest where
  getLast? := List.getLast?_concat
  ascending := by
    rw [List.append_assoc]
    exact h.ascending
  mem := by
    rw [List.mem_append, List.mem_singleton, or_assoc]
    exact h.mem.imp_right List.mem_cons.1

/-- What is ahead changes. -/
theorem change (h : Sweep r k visited last rest) (hrest : (last :: rest').IsChain r)
    (hk : k ∈ rest → k ∈ rest') : Sweep r k visited last rest' where
  getLast? := h.getLast?
  ascending := by
    rw [List.isChain_cons] at hrest
    refine List.isChain_append.2 ⟨(List.isChain_append.1 h.ascending).1, hrest.2, ?_⟩
    intro x hx
    rw [h.getLast?] at hx
    exact Option.some.inj hx ▸ hrest.1
  mem := h.mem.imp_right hk

/-- The key has been visited once when nothing is ahead. -/
theorem count_eq_one [IsTrans κ r] [Std.Irrefl r] [BEq κ] [LawfulBEq κ]
    (h : Sweep r k visited last []) : visited.count k = 1 := by
  have hsorted := List.isChain_iff_pairwise.1 h.ascending
  rw [List.append_nil] at hsorted
  have hnodup : visited.Nodup := hsorted.imp fun hab heq => by
    subst heq
    exact Std.Irrefl.irrefl _ hab
  exact List.count_eq_one_of_mem hnodup (h.mem.resolve_right (List.not_mem_nil))

end Sweep

/-! ## Trails -/

namespace LinkedList

variable {α κ : Type*} {key key' : α → Option κ} {next next' : α → Option (Option α)}

/-- Following the pointers from a node, if there is one, meets nodes with the keys of a list,
    and then the end. -/
inductive Trail (key : α → Option κ) (next : α → Option (Option α)) : Option α → List κ → Prop
  | nil : Trail key next none []
  | cons {a : α} {b : Option α} {k : κ} {ks : List κ} :
      key a = some k → next a = some b → Trail key next b ks → Trail key next (some a) (k :: ks)

namespace Trail

variable {start : Option α} {ks : List κ} {r : κ → κ → Prop}

/-- A trail does not depend on nodes without a key. -/
theorem congr (h : Trail key next start ks) (hkey : ∀ a k, key a = some k → key' a = some k)
    (hnext : ∀ a, (key a).isSome → next' a = next a) : Trail key' next' start ks := by
  induction h with
  | nil => exact .nil
  | cons ha hb _ ih =>
    exact .cons (hkey _ _ ha) ((hnext _ (by rw [ha]; rfl)).trans hb) ih

variable {p z : α} {w : Option α} {k : κ}

/-- A node `z` with the key `k` is linked in between `p` and `w`. -/
theorem insert (h : Trail key next start ks) (hks : ks.IsChain r)
    (hkey : ∀ a k, key a = some k → key' a = some k) (hnew : key z = none) (hz : key' z = some k)
    (hp : next p = some w) (hpz : next' p = some (some z)) (hzw : next' z = some w)
    (hrest : ∀ a, a ≠ p → a ≠ z → next' a = next a)
    (hbefore : ∀ k', key p = some k' → r k' k) (hafter : ∀ b ∈ w, ∀ k', key b = some k' → r k k') :
    ∃ ks', Trail key' next' start ks' ∧ ks'.IsChain r ∧ ks'.head? = ks.head? ∧ ks ⊆ ks' := by
  induction h with
  | nil => exact ⟨[], .nil, hks, rfl, List.Subset.refl _⟩
  | @cons a b ka ks ha hb htrail ih =>
    rw [List.isChain_cons] at hks
    obtain ⟨ks', htrail', hks', hhead, hsub⟩ := ih hks.2
    have hne : a ≠ z := by
      rintro rfl
      cases hnew.symm.trans ha
    by_cases hap : a = p
    · -- The new node comes between this one and the rest of the trail.
      subst hap
      obtain rfl := Option.some.inj (hb.symm.trans hp)
      have hhead' : ∀ k' ∈ ks'.head?, r k k' := by
        intro k' hk'
        rw [hhead] at hk'
        cases htrail with
        | nil => cases hk'
        | cons hb' => exact Option.some.inj hk' ▸ hafter _ rfl _ hb'
      refine ⟨ka :: k :: ks', .cons (hkey _ _ ha) hpz (.cons hz hzw htrail'), ?_, rfl, ?_⟩
      · exact (hks'.cons hhead').cons fun k' hk' => Option.some.inj hk' ▸ hbefore _ ha
      · exact List.cons_subset_cons _ (List.Subset.trans hsub (List.subset_cons_self _ _))
    · refine ⟨ka :: ks', .cons (hkey _ _ ha) ((hrest a hap hne).trans hb) htrail', ?_, rfl, ?_⟩
      · exact hks'.cons (hhead ▸ hks.1)
      · exact List.cons_subset_cons _ hsub

/-- The node `z` with the key `k`, behind `p`, is unlinked. -/
theorem erase [IsTrans κ r] (h : Trail key next start ks) (hks : ks.IsChain r)
    (hkey : ∀ a k, key a = some k → key' a = some k) (hz : key z = some k)
    (hp : next p = some (some z)) (hzw : next z = some w) (hpz : p ≠ z)
    (hpw : next' p = some w) (hrest : ∀ a, a ≠ p → next' a = next a) :
    ∃ ks', Trail key' next' start ks' ∧ ks'.IsChain r ∧ ks'.head? = ks.head? ∧
      ∀ k' ∈ ks, k' ≠ k → k' ∈ ks' := by
  induction h with
  | nil => exact ⟨[], .nil, hks, rfl, fun _ hk' _ => hk'⟩
  | @cons a b ka ks ha hb htrail ih =>
    rw [List.isChain_cons] at hks
    obtain ⟨ks', htrail', hks', hhead, hmem⟩ := ih hks.2
    by_cases hap : a = p
    · subst hap
      obtain rfl := Option.some.inj (hb.symm.trans hp)
      -- The trail goes on behind the node that has been unlinked.
      cases htrail' with
      | @cons _ b' kz ks' hz' hb' htrail' =>
        obtain rfl := Option.some.inj ((hkey _ _ hz).symm.trans hz')
        obtain rfl := Option.some.inj (hb'.symm.trans ((hrest z hpz.symm).trans hzw))
        rw [List.isChain_cons] at hks'
        refine ⟨ka :: ks', .cons (hkey _ _ ha) hpw htrail', ?_, rfl, fun k' hk' hne => ?_⟩
        · have hk : r ka k := hks.1 k (hhead ▸ rfl)
          exact hks'.2.cons fun k' hk' => IsTrans.trans _ _ _ hk (hks'.1 k' hk')
        · rcases List.mem_cons.1 hk' with rfl | hk'
          · exact List.mem_cons_self
          · exact List.mem_cons_of_mem _ ((List.mem_cons.1 (hmem k' hk' hne)).resolve_left hne)
    · refine ⟨ka :: ks', .cons (hkey _ _ ha) ((hrest a hap).trans hb) htrail', ?_, rfl,
        fun k' hk' hne => ?_⟩
      · exact hks'.cons (hhead ▸ hks.1)
      · rcases List.mem_cons.1 hk' with rfl | hk'
        · exact List.mem_cons_self
        · exact List.mem_cons_of_mem _ (hmem k' hk' hne)

end Trail

end LinkedList
