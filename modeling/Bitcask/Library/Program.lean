import Mathlib.Tactic.Common

/-!
# Programs over a store

A program makes requests one after the other, going on with each reply, and
returns a value or throws an exception (`Program`). It says nothing about what
the requests do: a handler runs it on a state (`run`).

What a program does depends on the replies it gets: two programs are `Similar`
when they make the same requests on replies that are alike, and then have the same
result on states that reply alike (`Similar.run`). What a program returns and throws, as
long as the replies it gets are fine, is what its parts do (`Ends`). A handler `Simulates`
another one that replies the same as long as its states are fine: then every program that
ends in such a state comes to the same on both (`Simulates.run`).
-/

/-- A program with requests `C`, a request `c` being answered by an `R c`, that
    returns an `α` or throws an `ε`. -/
inductive Program (C : Type) (R : C → Type) (ε α : Type) : Type
  | pure (a : α)
  | throw (e : ε)
  | request (c : C) (rest : R c → Program C R ε α)

namespace Program

variable {C : Type} {R : C → Type} {ε α β σ τ : Type}

/-- One request, whose reply is the value returned. -/
def perform (c : C) : Program C R ε (R c) := request c pure

protected def bind (f : α → Program C R ε β) : Program C R ε α → Program C R ε β
  | pure a => f a
  | throw e => throw e
  | request c rest => request c fun r => (rest r).bind f

protected def tryCatch (handler : ε → Program C R ε α) : Program C R ε α → Program C R ε α
  | pure a => pure a
  | throw e => handler e
  | request c rest => request c fun r => (rest r).tryCatch handler

instance : Monad (Program C R ε) where
  pure := pure
  bind p f := p.bind f

theorem bind_assoc {γ : Type} (p : Program C R ε α) (f : α → Program C R ε β)
    (g : β → Program C R ε γ) : (p >>= f) >>= g = p >>= fun a => f a >>= g := by
  induction p with
  | pure a => rfl
  | throw e => rfl
  | request c rest ih => exact congrArg (request c) (funext ih)

instance : MonadExceptOf ε (Program C R ε) where
  throw := throw
  tryCatch p handler := p.tryCatch handler

@[simp]
theorem pure_bind (a : α) (f : α → Program C R ε β) : (pure a >>= f) = f a := rfl

@[simp]
theorem throw_bind (e : ε) (f : α → Program C R ε β) : (throw e >>= f) = throw e := rfl

@[simp]
theorem request_bind (c : C) (rest : R c → Program C R ε α) (f : α → Program C R ε β) :
    (request c rest >>= f) = request c fun r => rest r >>= f := rfl

/-! ## Runs -/

/-- The result of a program and the state after it. -/
def run (h : (c : C) → σ → R c × σ) : Program C R ε α → σ → Except ε α × σ
  | pure a, s => (.ok a, s)
  | throw e, s => (.error e, s)
  | request c rest, s => (rest (h c s).1).run h (h c s).2

variable {h : (c : C) → σ → R c × σ}

@[simp]
theorem run_pure (a : α) (s : σ) : (pure a : Program C R ε α).run h s = (.ok a, s) := rfl

@[simp]
theorem run_throw (e : ε) (s : σ) : (throw e : Program C R ε α).run h s = (.error e, s) := rfl

@[simp]
theorem run_request (c : C) (rest : R c → Program C R ε α) (s : σ) :
    (request c rest).run h s = (rest (h c s).1).run h (h c s).2 := rfl

@[simp]
theorem run_perform (c : C) (s : σ) :
    (perform c : Program C R ε (R c)).run h s = (.ok (h c s).1, (h c s).2) := rfl

theorem run_bind_of_ok {p : Program C R ε α} {f : α → Program C R ε β} {s s' : σ} {a : α}
    (hp : p.run h s = (.ok a, s')) : (p >>= f).run h s = (f a).run h s' := by
  induction p generalizing s with
  | pure a' =>
    cases hp
    rfl
  | throw e => cases hp
  | request c rest ih => exact ih _ hp

theorem run_bind_of_error {p : Program C R ε α} {f : α → Program C R ε β} {s s' : σ} {e : ε}
    (hp : p.run h s = (.error e, s')) : (p >>= f).run h s = (.error e, s') := by
  induction p generalizing s with
  | pure a => cases hp
  | throw e' =>
    cases hp
    rfl
  | request c rest ih => exact ih _ hp

/-- A program that returns does not need its handler. -/
theorem run_tryCatch_of_ok {p : Program C R ε α} {handler : ε → Program C R ε α} {s s' : σ} {a : α}
    (hp : p.run h s = (.ok a, s')) : (tryCatch p handler).run h s = (.ok a, s') := by
  induction p generalizing s with
  | pure a' => exact hp
  | throw e => cases hp
  | request c rest ih => exact ih _ hp

/-- The number of requests a run makes. -/
def cost (h : (c : C) → σ → R c × σ) : Program C R ε α → σ → ℕ
  | pure _, _ => 0
  | throw _, _ => 0
  | request c rest, s => (rest (h c s).1).cost h (h c s).2 + 1

theorem cost_bind_of_ok {p : Program C R ε α} {f : α → Program C R ε β} {s s' : σ} {a : α}
    (hp : p.run h s = (.ok a, s')) : (p >>= f).cost h s = p.cost h s + (f a).cost h s' := by
  induction p generalizing s with
  | pure a' =>
    cases hp
    exact (Nat.zero_add _).symm
  | throw e => cases hp
  | request c rest ih =>
    have := ih _ hp
    show ((rest (h c s).1) >>= f).cost h (h c s).2 + 1 = _
    rw [this, cost, Nat.add_right_comm]

/-- A program that returns or throws, and makes no request. -/
def ofResult : Except ε α → Program C R ε α
  | .ok a => pure a
  | .error e => throw e

@[simp]
theorem run_ofResult (result : Except ε α) (s : σ) :
    (ofResult result : Program C R ε α).run h s = (result, s) := by
  cases result <;> rfl

/-- A program that makes no request is done. -/
theorem exists_ofResult_of_cost {p : Program C R ε α} {s : σ} (hp : p.cost h s = 0) :
    ∃ result, p = ofResult result := by
  cases p with
  | pure a => exact ⟨.ok a, rfl⟩
  | throw e => exact ⟨.error e, rfl⟩
  | request c rest => cases hp

/-! ## Programs that behave alike -/

/-- Two programs make the same requests, all allowed, as long as their replies are
    related by `alike`, and return values related by `good`. -/
inductive Similar (allows : C → Prop) (alike : (c : C) → R c → R c → Prop)
    (good : α → α → Prop) : Program C R ε α → Program C R ε α → Prop
  | pure {a a' : α} : good a a' → Similar allows alike good (pure a) (pure a')
  | throw (e : ε) : Similar allows alike good (throw e) (throw e)
  | request {c : C} {rest rest' : R c → Program C R ε α} : allows c →
      (∀ r r', alike c r r' → Similar allows alike good (rest r) (rest' r')) →
      Similar allows alike good (request c rest) (request c rest')

section Similar

variable {allows : C → Prop} {alike : (c : C) → R c → R c → Prop} {good : α → α → Prop}
  {good' : β → β → Prop} {p p' : Program C R ε α}

theorem Similar.perform {c : C} {good : R c → R c → Prop} (hc : allows c)
    (hgood : ∀ r r', alike c r r' → good r r') :
    Similar allows alike good (perform c : Program C R ε (R c)) (perform c) :=
  .request hc fun r r' h => .pure (hgood r r' h)

theorem Similar.bind {f f' : α → Program C R ε β} (hp : Similar allows alike good p p')
    (hf : ∀ a a', good a a' → Similar allows alike good' (f a) (f' a')) :
    Similar allows alike good' (p >>= f) (p' >>= f') := by
  induction hp with
  | pure h => exact hf _ _ h
  | throw e => exact .throw e
  | request hc _ ih => exact .request hc ih

theorem Similar.tryCatch {handler handler' : ε → Program C R ε α}
    (hp : Similar allows alike good p p')
    (hh : ∀ e, Similar allows alike good (handler e) (handler' e)) :
    Similar allows alike good (tryCatch p handler) (tryCatch p' handler') := by
  induction hp with
  | pure h => exact .pure h
  | throw e => exact hh e
  | request hc _ ih => exact .request hc ih

/-- Programs that behave alike have related results, and leave related states
    related, when those reply alike to the requests allowed. -/
theorem Similar.run {h : (c : C) → σ → R c × σ} {h' : (c : C) → τ → R c × τ}
    {Related : σ → τ → Prop}
    (hrel : ∀ c s t, allows c → Related s t →
      alike c (h c s).1 (h' c t).1 ∧ Related (h c s).2 (h' c t).2)
    (hp : Similar allows alike Eq p p') {s : σ} {t : τ} (hst : Related s t) :
    (p.run h s).1 = (p'.run h' t).1 ∧ Related (p.run h s).2 (p'.run h' t).2 := by
  induction hp generalizing s t with
  | pure heq => exact ⟨congrArg Except.ok heq, hst⟩
  | throw e => exact ⟨rfl, hst⟩
  | @request c _ _ hc _ ih =>
    obtain ⟨hr, hst'⟩ := hrel c s t hc hst
    exact ih _ _ hr hst'

/-- What the requests allowed keep is kept by a program that behaves like itself,
    for replies alike to themselves. -/
theorem Similar.run_inv {h : (c : C) → σ → R c × σ} {I : σ → Prop}
    (hinv : ∀ c s, allows c → I s → alike c (h c s).1 (h c s).1 ∧ I (h c s).2)
    (hp : Similar allows alike Eq p p) {s : σ} (hs : I s) : I (p.run h s).2 := by
  have hrel : ∀ c s t, allows c → (s = t ∧ I s) →
      alike c (h c s).1 (h c t).1 ∧ (h c s).2 = (h c t).2 ∧ I (h c s).2 := by
    rintro c s t hc ⟨rfl, hs⟩
    exact ⟨(hinv c s hc hs).1, rfl, (hinv c s hc hs).2⟩
  exact (hp.run hrel ⟨rfl, hs⟩).2.2

end Similar

/-! ## How programs end -/

/-- A program returns only values, and throws only exceptions, for which the predicates hold,
    as long as the replies it gets are `fine`. -/
inductive Ends (fine : (c : C) → R c → Prop) (throws : ε → Prop) (returns : α → Prop) :
    Program C R ε α → Prop
  | pure {a : α} : returns a → Ends fine throws returns (pure a)
  | throw {e : ε} : throws e → Ends fine throws returns (throw e)
  | request {c : C} {rest : R c → Program C R ε α} :
      (∀ r, fine c r → Ends fine throws returns (rest r)) →
      Ends fine throws returns (request c rest)

section Ends

variable {fine : (c : C) → R c → Prop} {throws throws' : ε → Prop} {returns : α → Prop}
  {returns' : β → Prop} {p : Program C R ε α}

theorem Ends.perform (c : C) : Ends fine throws (fine c) (perform c) :=
  .request fun _ hr => .pure hr

theorem Ends.bind {f : α → Program C R ε β} (hp : Ends fine throws returns p)
    (hf : ∀ a, returns a → Ends fine throws returns' (f a)) :
    Ends fine throws returns' (p >>= f) := by
  induction hp with
  | pure ha => exact hf _ ha
  | throw he => exact .throw he
  | request _ ih => exact .request ih

theorem Ends.tryCatch {handler : ε → Program C R ε α} (hp : Ends fine throws returns p)
    (hh : ∀ e, throws e → Ends fine throws' returns (handler e)) :
    Ends fine throws' returns (tryCatch p handler) := by
  induction hp with
  | pure ha => exact .pure ha
  | throw he => exact hh _ he
  | request _ ih => exact .request ih

/-- The result of a run that gets only fine replies. -/
theorem Ends.run {h : (c : C) → σ → R c × σ} (hfine : ∀ c s, fine c (h c s).1)
    (hp : Ends fine throws returns p) (s : σ) :
    (∀ a, (p.run h s).1 = .ok a → returns a) ∧ ∀ e, (p.run h s).1 = .error e → throws e := by
  induction hp generalizing s with
  | pure ha =>
    refine ⟨fun a h => ?_, fun e h => ?_⟩
    · cases h
      exact ha
    · cases h
  | throw he =>
    refine ⟨fun a h => ?_, fun e h => ?_⟩
    · cases h
    · cases h
      exact he
  | @request c _ _ ih => exact ih _ (hfine c s) _

end Ends

/-! ## Handlers that are related -/

/-- A handler replies as another one does on related states, as long as its states are `fine`:
    a state that is not fine stays so. -/
structure Simulates (h : (c : C) → σ → R c × σ) (h' : (c : C) → τ → R c × τ) (fine : σ → Prop)
    (Related : σ → τ → Prop) : Prop where
  fine_of_next : ∀ c s, fine (h c s).2 → fine s
  next : ∀ c s t, Related s t → fine (h c s).2 →
    (h c s).1 = (h' c t).1 ∧ Related (h c s).2 (h' c t).2

section Simulates

variable {h : (c : C) → σ → R c × σ} {h' : (c : C) → τ → R c × τ} {fine : σ → Prop}
  {Related : σ → τ → Prop}

theorem Simulates.fine_of_run (hsim : Simulates h h' fine Related) (p : Program C R ε α) {s : σ}
    (hfine : fine (p.run h s).2) : fine s := by
  induction p generalizing s with
  | pure a => exact hfine
  | throw e => exact hfine
  | request c rest ih => exact hsim.fine_of_next c s (ih _ hfine)

/-- A program that ends in a fine state has the same result on related states. -/
theorem Simulates.run (hsim : Simulates h h' fine Related) (p : Program C R ε α) {s : σ} {t : τ}
    (hst : Related s t) (hfine : fine (p.run h s).2) :
    (p.run h s).1 = (p.run h' t).1 ∧ Related (p.run h s).2 (p.run h' t).2 := by
  induction p generalizing s t with
  | pure a => exact ⟨rfl, hst⟩
  | throw e => exact ⟨rfl, hst⟩
  | request c rest ih =>
    obtain ⟨hreply, hnext⟩ := hsim.next c s t hst (hsim.fine_of_run _ hfine)
    rw [run_request, run_request, ← hreply]
    exact ih _ hnext hfine

end Simulates

end Program
