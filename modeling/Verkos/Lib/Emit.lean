import Mathlib.Data.List.Basic

/-!
# Computations that fail, keep a state and append to an output

A pass of a compiler written in C reads and updates a state, may stop with a diagnostic, and
appends to a buffer it never rewinds. `Emit ε σ ω α` is that shape as a function: from a state it
gives an error, or a value with what was appended and the state left behind. The output of a
sequence is the concatenation of the outputs, so a statement about a buffer becomes a statement
about a list.

`Emit.bind_ok` turns a successful sequence into its two successful halves. A proof about a pass
opens the pass with it and never unfolds the monad. `Fallible` is the same for a pass that appends
nothing.
-/

namespace Verkos.Lib

/-- A computation that may fail with `ε`, keeps a state `σ` and appends values of `ω`. -/
def Emit (ε σ ω α : Type) := σ → Except ε (α × List ω × σ)

namespace Emit

variable {ε σ ω α β : Type}

protected def pure (a : α) : Emit ε σ ω α := fun s => .ok (a, [], s)

protected def bind (x : Emit ε σ ω α) (f : α → Emit ε σ ω β) : Emit ε σ ω β := fun s =>
  match x s with
  | .error e => .error e
  | .ok (a, l, s₁) =>
    match f a s₁ with
    | .error e => .error e
    | .ok (b, l', s₂) => .ok (b, l ++ l', s₂)

instance : Monad (Emit ε σ ω) where
  pure := Emit.pure
  bind := Emit.bind

/-- A computation at a state, as `Fallible.run`. -/
abbrev run (x : Emit ε σ ω α) (s : σ) : Except ε (α × List ω × σ) := x s

/-- Append to the output. -/
def out (l : List ω) : Emit ε σ ω Unit := fun s => .ok ((), l, s)

/-- Stop. -/
def fail (e : ε) : Emit ε σ ω α := fun _ => .error e

/-- Read the state. -/
def get : Emit ε σ ω σ := fun s => .ok (s, [], s)

/-- A computation that is left out when the condition fails. -/
def onlyIf (c : Bool) (x : Emit ε σ ω Unit) : Emit ε σ ω Unit := if c then x else pure ()

/-- Update the state. -/
def modify (f : σ → σ) : Emit ε σ ω Unit := fun s => .ok ((), [], f s)

@[simp] theorem pure_ok {a b : α} {s s' : σ} {l : List ω} :
    (pure a : Emit ε σ ω α) s = .ok (b, l, s') ↔ b = a ∧ l = [] ∧ s' = s := by
  change (Except.ok (a, [], s) : Except ε _) = .ok (b, l, s') ↔ _
  simp only [Except.ok.injEq, Prod.mk.injEq]
  exact ⟨fun ⟨h1, h2, h3⟩ => ⟨h1.symm, h2.symm, h3.symm⟩,
    fun ⟨h1, h2, h3⟩ => ⟨h1.symm, h2.symm, h3.symm⟩⟩

/-- A sequence succeeds when its halves do, and its output is theirs, one after the other. -/
@[simp] theorem bind_ok {x : Emit ε σ ω α} {f : α → Emit ε σ ω β} {s s' : σ} {b : β}
    {l : List ω} :
    (x >>= f) s = .ok (b, l, s') ↔
      ∃ a l₁ s1, x s = .ok (a, l₁, s1) ∧ ∃ l₂, f a s1 = .ok (b, l₂, s') ∧ l = l₁ ++ l₂ := by
  change Emit.bind x f s = _ ↔ _
  unfold Emit.bind
  cases hx : x s with
  | error e => simp
  | ok r =>
    obtain ⟨a, l₁, s1⟩ := r
    cases hf : f a s1 with
    | error e =>
      constructor
      · intro h
        simp only [hf] at h
        cases h
      · rintro ⟨a', l', s'', h, l₂, h', -⟩
        simp only [Except.ok.injEq, Prod.mk.injEq] at h
        obtain ⟨rfl, rfl, rfl⟩ := h
        rw [hf] at h'
        cases h'
    | ok r' =>
      obtain ⟨b', l₂, s2⟩ := r'
      constructor
      · intro h
        simp only [hf, Except.ok.injEq, Prod.mk.injEq] at h
        obtain ⟨rfl, rfl, rfl⟩ := h
        exact ⟨a, l₁, s1, rfl, l₂, hf, rfl⟩
      · rintro ⟨a', l', s'', h, l2', h', rfl⟩
        simp only [Except.ok.injEq, Prod.mk.injEq] at h
        obtain ⟨rfl, rfl, rfl⟩ := h
        rw [hf] at h'
        simp only [Except.ok.injEq, Prod.mk.injEq] at h'
        obtain ⟨rfl, rfl, rfl⟩ := h'
        simp only [hf]

@[simp] theorem out_ok {k l : List ω} {s s' : σ} {u : Unit} :
    (out k : Emit ε σ ω Unit) s = .ok (u, l, s') ↔ l = k ∧ s' = s := by
  simp only [out, Except.ok.injEq, Prod.mk.injEq, true_and]
  exact ⟨fun ⟨h1, h2⟩ => ⟨h1.symm, h2.symm⟩, fun ⟨h1, h2⟩ => ⟨h1.symm, h2.symm⟩⟩

@[simp] theorem fail_ok {e : ε} {l : List ω} {s s' : σ} {a : α} :
    (fail e : Emit ε σ ω α) s = .ok (a, l, s') ↔ False := by
  simp [fail]

@[simp] theorem get_ok {l : List ω} {s s' t : σ} :
    (get : Emit ε σ ω σ) s = .ok (t, l, s') ↔ t = s ∧ l = [] ∧ s' = s := by
  simp only [get, Except.ok.injEq, Prod.mk.injEq]
  exact ⟨fun ⟨h1, h2, h3⟩ => ⟨h1.symm, h2.symm, h3.symm⟩,
    fun ⟨h1, h2, h3⟩ => ⟨h1.symm, h2.symm, h3.symm⟩⟩

@[simp] theorem modify_ok {g : σ → σ} {l : List ω} {s s' : σ} {u : Unit} :
    (modify g : Emit ε σ ω Unit) s = .ok (u, l, s') ↔ l = [] ∧ s' = g s := by
  simp only [modify, Except.ok.injEq, Prod.mk.injEq, true_and]
  exact ⟨fun ⟨h1, h2⟩ => ⟨h1.symm, h2.symm⟩, fun ⟨h1, h2⟩ => ⟨h1.symm, h2.symm⟩⟩

end Emit

/-- A computation that may fail with `ε` and keeps a state `σ`. -/
def Fallible (ε σ α : Type) := σ → Except ε (α × σ)

namespace Fallible

variable {ε σ α β : Type}

protected def pure (a : α) : Fallible ε σ α := fun s => .ok (a, s)

protected def bind (x : Fallible ε σ α) (f : α → Fallible ε σ β) : Fallible ε σ β := fun s =>
  match x s with
  | .error e => .error e
  | .ok (a, s₁) => f a s₁

instance : Monad (Fallible ε σ) where
  pure := Fallible.pure
  bind := Fallible.bind

/-- A computation at a state. The name keeps a `match` that chooses the computation apart from its
argument, where `split` can reach it. -/
abbrev run (x : Fallible ε σ α) (s : σ) : Except ε (α × σ) := x s

/-- Read the state. -/
def get : Fallible ε σ σ := fun s => .ok (s, s)

/-- A computation that is left out when the condition fails. -/
def onlyIf (c : Bool) (x : Fallible ε σ Unit) : Fallible ε σ Unit := if c then x else pure ()

/-- Update the state. -/
def modify (f : σ → σ) : Fallible ε σ Unit := fun s => .ok ((), f s)

@[simp] theorem pure_ok {a b : α} {s s' : σ} :
    (pure a : Fallible ε σ α) s = .ok (b, s') ↔ b = a ∧ s' = s := by
  change (Except.ok (a, s) : Except ε _) = .ok (b, s') ↔ _
  simp only [Except.ok.injEq, Prod.mk.injEq]
  exact ⟨fun ⟨h1, h2⟩ => ⟨h1.symm, h2.symm⟩, fun ⟨h1, h2⟩ => ⟨h1.symm, h2.symm⟩⟩

/-- A sequence succeeds when its halves do. -/
@[simp] theorem bind_ok {x : Fallible ε σ α} {f : α → Fallible ε σ β} {s s' : σ} {b : β} :
    (x >>= f) s = .ok (b, s') ↔ ∃ a s1, x s = .ok (a, s1) ∧ f a s1 = .ok (b, s') := by
  change Fallible.bind x f s = _ ↔ _
  unfold Fallible.bind
  cases hx : x s with
  | error e => simp
  | ok r =>
    obtain ⟨a, s1⟩ := r
    constructor
    · intro h
      exact ⟨a, s1, rfl, h⟩
    · rintro ⟨a', s1', h, h'⟩
      simp only [Except.ok.injEq, Prod.mk.injEq] at h
      obtain ⟨rfl, rfl⟩ := h
      exact h'

@[simp] theorem get_ok {s s' t : σ} :
    (get : Fallible ε σ σ) s = .ok (t, s') ↔ t = s ∧ s' = s := by
  simp only [get, Except.ok.injEq, Prod.mk.injEq]
  exact ⟨fun ⟨h1, h2⟩ => ⟨h1.symm, h2.symm⟩, fun ⟨h1, h2⟩ => ⟨h1.symm, h2.symm⟩⟩

@[simp] theorem modify_ok {g : σ → σ} {s s' : σ} {u : Unit} :
    (modify g : Fallible ε σ Unit) s = .ok (u, s') ↔ s' = g s := by
  simp only [modify, Except.ok.injEq, Prod.mk.injEq, true_and]
  exact eq_comm

end Fallible

end Verkos.Lib
