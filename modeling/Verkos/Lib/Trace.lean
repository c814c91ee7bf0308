import Mathlib.Data.List.Basic

/-!
# Runs that leave a trace

`Trace σ ω α` is a computation over a state `σ` that says events of `ω` as it goes and may stop
before it has a value; what it said before it stopped stays said. So a run that is cut off, because
the program ended or because the fuel ran out, still has a trace, and a statement about traces is a
statement about every finite part of every run.

`Guarded` is the kind of statement made here: an event that must not happen does not happen unless
an event that spoils everything came before it. `Sat bad forb x P` says it of every trace of `x`,
and that `P` holds of the value when nothing spoiled the run. It comes with a rule for each way of
building a run, so a proof about an interpreter follows the interpreter.
-/

namespace Verkos.Lib

/-- A run from a state: what was said, and the value and state it ended with if it did. -/
def Trace (σ ω α : Type) := σ → List ω × Option (α × σ)

namespace Trace

variable {σ ω α β : Type}

protected def pure (a : α) : Trace σ ω α := fun s => ([], some (a, s))

protected def bind (x : Trace σ ω α) (f : α → Trace σ ω β) : Trace σ ω β := fun s =>
  match x s with
  | (l, none) => (l, none)
  | (l, some (a, s₁)) => (l ++ (f a s₁).1, (f a s₁).2)

instance : Monad (Trace σ ω) where
  pure := Trace.pure
  bind := Trace.bind

/-- Say an event. -/
def say (e : ω) : Trace σ ω Unit := fun s => ([e], some ((), s))

/-- End here. -/
def stop : Trace σ ω α := fun _ => ([], none)

/-- Change the state, or end. -/
def act (f : σ → Option σ) : Trace σ ω Unit := fun s => ([], (f s).map fun s' => ((), s'))

/-- Look at the state. -/
def ask (f : σ → α) : Trace σ ω α := fun s => ([], some (f s, s))

/-! ## Guarded traces -/

/-- Nothing of `forb` before something of `bad`. -/
def Guarded (bad forb : ω → Prop) (l : List ω) : Prop :=
  ∀ pre x post, l = pre ++ x :: post → forb x → ∃ b ∈ pre, bad b

variable {bad forb : ω → Prop}

theorem Guarded.nil : Guarded bad forb [] := by
  intro pre x post h
  simp at h

theorem Guarded.singleton {e : ω} (h : ¬forb e) : Guarded bad forb [e] := by
  intro pre x post he hx
  cases pre with
  | nil =>
    obtain ⟨rfl, -⟩ := List.cons.inj he
    exact (h hx).elim
  | cons p pre => simp at he

/-- The second part needs to be guarded only if nothing of the first spoiled it. -/
theorem Guarded.append {l l' : List ω} (h : Guarded bad forb l)
    (h' : (∀ b ∈ l, ¬bad b) → Guarded bad forb l') : Guarded bad forb (l ++ l') := by
  intro pre x post he hx
  by_cases hb : ∃ b ∈ l, bad b
  · rcases List.append_eq_append_iff.1 he with ⟨m, rfl, -⟩ | ⟨m, hl, hpost⟩
    · obtain ⟨b, hb, hbad⟩ := hb
      exact ⟨b, List.mem_append_left _ hb, hbad⟩
    · -- the event is in the first part, or right behind it
      cases m with
      | nil =>
        obtain ⟨b, hb, hbad⟩ := hb
        rw [List.append_nil] at hl
        exact ⟨b, hl ▸ hb, hbad⟩
      | cons y m =>
        obtain ⟨rfl, -⟩ := List.cons.inj hpost
        exact h pre x m hl hx
  · have hclean : ∀ b ∈ l, ¬bad b := fun b hb' hbad => hb ⟨b, hb', hbad⟩
    rcases List.append_eq_append_iff.1 he with ⟨m, rfl, hl'⟩ | ⟨m, hl, hpost⟩
    · obtain ⟨b, hb', hbad⟩ := h' hclean m x post hl' hx
      exact ⟨b, List.mem_append_right _ hb', hbad⟩
    · cases m with
      | nil =>
        obtain ⟨b, hb', -⟩ := h' hclean [] x post hpost.symm hx
        simp at hb'
      | cons y m =>
        obtain ⟨rfl, -⟩ := List.cons.inj hpost
        exact h pre x m hl hx

/-- Up to any point that nothing spoiled, nothing forbidden happened. -/
theorem Guarded.clean {l l' : List ω} (h : Guarded bad forb (l ++ l')) (hb : ∀ b ∈ l, ¬bad b) :
    ∀ x ∈ l, ¬forb x := by
  intro x hx hf
  obtain ⟨pre, post, rfl⟩ := List.append_of_mem hx
  obtain ⟨b, hb', hbad⟩ := h pre x (post ++ l') (by simp) hf
  exact hb b (List.mem_append_left _ hb') hbad

/-! ## Rules -/

/-- Every trace of `x` is guarded, and `P` holds of the value if nothing spoiled it. -/
def Sat (bad forb : ω → Prop) (x : Trace σ ω α) (P : α → Prop) : Prop :=
  ∀ s, Guarded bad forb (x s).1 ∧
    ∀ a s', (x s).2 = some (a, s') → (∀ b ∈ (x s).1, ¬bad b) → P a

namespace Sat

theorem pure {a : α} {P : α → Prop} (h : P a) : Sat bad forb (Pure.pure a : Trace σ ω α) P :=
  fun _ => ⟨.nil, fun a' s' he _ => by
    obtain ⟨rfl, -⟩ := Prod.mk.inj (Option.some.inj he)
    exact h⟩

theorem bind {x : Trace σ ω α} {f : α → Trace σ ω β} {P : α → Prop} {Q : β → Prop}
    (hx : Sat bad forb x P) (hf : ∀ a, P a → Sat bad forb (f a) Q) : Sat bad forb (x >>= f) Q := by
  intro s
  obtain ⟨hg, hp⟩ := hx s
  change Guarded bad forb (Trace.bind x f s).1 ∧ ∀ b s', (Trace.bind x f s).2 = some (b, s') →
    (∀ e ∈ (Trace.bind x f s).1, ¬bad e) → Q b
  unfold Trace.bind
  rcases hxs : x s with ⟨l, _ | ⟨a, s1⟩⟩
  · rw [hxs] at hg
    exact ⟨hg, fun _ _ he => nomatch he⟩
  · rw [hxs] at hg hp
    refine ⟨hg.append fun hclean => ((hf a (hp a s1 rfl hclean)) s1).1, fun b s' he hclean => ?_⟩
    have hl : ∀ e ∈ l, ¬bad e := fun e he => hclean e (List.mem_append_left _ he)
    exact ((hf a (hp a s1 rfl hl)) s1).2 b s' he fun e he => hclean e (List.mem_append_right _ he)

theorem mono {x : Trace σ ω α} {P Q : α → Prop} (h : Sat bad forb x P) (hpq : ∀ a, P a → Q a) :
    Sat bad forb x Q :=
  fun s => ⟨(h s).1, fun a s' he hb => hpq a ((h s).2 a s' he hb)⟩

theorem say {e : ω} (h : ¬forb e) : Sat bad forb (say e : Trace σ ω Unit) fun _ => ¬bad e :=
  fun _ => ⟨.singleton h, fun _ _ _ hb => hb e (List.mem_singleton.2 rfl)⟩

theorem stop {P : α → Prop} : Sat bad forb (stop : Trace σ ω α) P :=
  fun _ => ⟨.nil, fun _ _ he => nomatch he⟩

theorem act {f : σ → Option σ} : Sat bad forb (act f : Trace σ ω Unit) fun _ => True :=
  fun _ => ⟨.nil, fun _ _ _ _ => trivial⟩

theorem ask {f : σ → α} : Sat bad forb (ask f : Trace σ ω α) fun _ => True :=
  fun _ => ⟨.nil, fun _ _ _ _ => trivial⟩

end Sat

end Trace

end Verkos.Lib
