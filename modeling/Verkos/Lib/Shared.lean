import Verkos.Lib.Steps
import Mathlib.Data.Bool.Basic
import Mathlib.Logic.Function.Basic
import Mathlib.Tactic.Common

/-!
# Programs over shared cells

A program asks questions of cells, puts new contents into them, and takes and gives back one lock
that all programs share. `run` is a program on its own; `System` is two of them, with a schedule
that says whose step is next.

`serial` is what is known of two programs in parallel: if no question of the later one would have
had another answer once the earlier one was through, and the earlier one no longer looks at what
the later one has put, then the two have run one after the other.
-/

namespace Verkos.Lib

/-- The questions that can be asked, each of one cell. -/
structure Asks (F V : Type) where
  Query : Type
  Answer : Query → Type
  cell : Query → F
  answer : (q : Query) → V → Answer q

variable {F V : Type} {X : Asks F V} {α β : Type}

inductive Prog (X : Asks F V) (α : Type) : Type
  | done (a : α)
  | fail
  | ask (q : X.Query) (k : X.Answer q → Prog X α)
  | put (f : F) (v : V) (k : Prog X α)
  | lock (k : Prog X α)
  | unlock (k : Prog X α)

variable {p q : Prog X α} {c : Prop} {bs : List β} {g : β → Prog X Unit}

namespace Prog

def bind : Prog X α → (α → Prog X β) → Prog X β
  | done a, g => g a
  | fail, _ => fail
  | ask q k, g => ask q fun a => (k a).bind g
  | put f v k, g => put f v (k.bind g)
  | lock k, g => lock (k.bind g)
  | unlock k, g => unlock (k.bind g)

instance : Monad (Prog X) where
  pure := done
  bind := bind

/-- A question, and its answer. -/
def look (q : X.Query) : Prog X (X.Answer q) := ask q done

def store (f : F) (v : V) : Prog X Unit := put f v (done ())

def take : Prog X Unit := lock (done ())

def give : Prog X Unit := unlock (done ())

/-- One after the other. -/
def each : List β → (β → Prog X Unit) → Prog X Unit
  | [], _ => done ()
  | b :: bs, g => (g b).bind fun _ => each bs g

variable [DecidableEq F] {σ : F → V}

/-- A program on its own: its result, unless it fails, and the cells as it leaves them. -/
def run : Prog X α → (F → V) → Option α × (F → V)
  | done a, σ => (some a, σ)
  | fail, σ => (none, σ)
  | ask q k, σ => (k (X.answer q (σ (X.cell q)))).run σ
  | put f v k, σ => k.run (Function.update σ f v)
  | lock k, σ => k.run σ
  | unlock k, σ => k.run σ

theorem run_bind (p : Prog X α) (g : α → Prog X β) (σ : F → V) : (p >>= g).run σ =
      match p.run σ with
      | (some a, σ') => (g a).run σ'
      | (none, σ') => (none, σ') := by
  show (p.bind g).run σ = _
  induction p generalizing σ with
  | done a | fail => rfl
  | ask q k ih => exact ih _ σ
  | put f v k ih => exact ih _
  | lock k ih | unlock k ih => exact ih σ

/-! ## Postconditions -/

/-- What holds of the result and of the cells at the end. -/
def Sat (p : Prog X α) (σ : F → V) (post : Option α → (F → V) → Prop) : Prop :=
  post (p.run σ).1 (p.run σ).2

variable {post post' : Option α → (F → V) → Prop} {I : (F → V) → Prop}

theorem sat_mono (h : Sat p σ post) (himp : ∀ r σ', post r σ' → post' r σ') :
    Sat p σ post' := himp _ _ h

@[simp] theorem sat_pure (a : α) : Sat (pure a : Prog X α) σ post ↔ post (some a) σ := Iff.rfl

@[simp] theorem sat_take (post : Option Unit → (F → V) → Prop) :
    Sat (take : Prog X Unit) σ post ↔ post (some ()) σ := Iff.rfl

@[simp] theorem sat_give (post : Option Unit → (F → V) → Prop) :
    Sat (give : Prog X Unit) σ post ↔ post (some ()) σ := Iff.rfl

/-- What is to hold behind a program that may have failed. -/
def andThen (g : α → Prog X β) (post : Option β → (F → V) → Prop) (r : Option α) (σ : F → V) :
    Prop :=
  match r with
  | some a => Sat (g a) σ post
  | none => post none σ

@[simp] theorem andThen_some (g : α → Prog X β) (post : Option β → (F → V) → Prop) (a : α) :
    andThen g post (some a) σ ↔ Sat (g a) σ post := Iff.rfl

@[simp] theorem sat_bind (p : Prog X α) (g : α → Prog X β) (post : Option β → (F → V) → Prop) :
    Sat (p >>= g) σ post ↔ Sat p σ (andThen g post) := by
  unfold Sat
  rw [run_bind]
  cases p.run σ with
  | mk r σ' => cases r <;> rfl

theorem sat_ite [Decidable c] (hp : c → Sat p σ post)
    (hq : ¬c → Sat q σ post) : Sat (if c then p else q) σ post := by
  split_ifs with hc
  · exact hp hc
  · exact hq hc

/-- What is kept by every program of a list is kept by the list. -/
theorem sat_each (keep : ∀ b ∈ bs, ∀ σ, I σ → Sat (g b) σ fun _ => I) (h : I σ) :
    Sat (each bs g) σ fun _ => I := by
  induction bs generalizing σ with
  | nil => exact h
  | cons b bs ih =>
    have heach : each (b :: bs) g = (g b) >>= fun _ => each bs g := rfl
    rw [heach, sat_bind]
    refine sat_mono (keep b (.head _) σ h) fun r σ' hσ' => ?_
    cases r with
    | none => exact hσ'
    | some u => exact ih (fun c hc => keep c (.tail _ hc)) hσ'

/-! ## Postconditions of programs that do not fail -/

/-- What holds of the result and of the cells at the end, if the program does not fail. -/
def Yields (p : Prog X α) (σ : F → V) (post : α → (F → V) → Prop) : Prop :=
  Sat p σ fun r σ' => ∀ a, r = some a → post a σ'

variable {good good' : α → (F → V) → Prop}

theorem yields_mono (h : Yields p σ good)
    (himp : ∀ a σ', good a σ' → good' a σ') : Yields p σ good' :=
  fun a ha => himp a _ (h a ha)

theorem yields_look {q : X.Query} {good : X.Answer q → (F → V) → Prop}
    (h : good (X.answer q (σ (X.cell q))) σ) : Yields (look q) σ good := by
  intro a ha
  cases ha
  exact h

theorem yields_pure {a : α} (h : good a σ) : Yields (pure a : Prog X α) σ good := by
  intro b hb
  cases hb
  exact h

theorem yields_fail : Yields (fail : Prog X α) σ good := nofun

theorem yields_take {good : Unit → (F → V) → Prop} (h : good () σ) :
    Yields (take : Prog X Unit) σ good := fun _ _ => h

theorem yields_give {good : Unit → (F → V) → Prop} (h : good () σ) :
    Yields (give : Prog X Unit) σ good := fun _ _ => h

theorem yields_bind {g : α → Prog X β} {good : β → (F → V) → Prop}
    (h : Yields p σ fun a σ' => Yields (g a) σ' good) : Yields (p >>= g) σ good := by
  unfold Yields at h ⊢
  rw [sat_bind]
  refine sat_mono h fun r σ' hr => ?_
  cases r with
  | none => exact nofun
  | some a => exact hr a rfl

theorem yields_ite [Decidable c] (hp : c → Yields p σ good)
    (hq : ¬c → Yields q σ good) : Yields (if c then p else q) σ good := sat_ite hp hq

theorem yields_each (keep : ∀ b ∈ bs, ∀ σ, I σ → Yields (g b) σ fun _ => I) (h : I σ) :
    Yields (each bs g) σ fun _ => I := by
  induction bs generalizing σ with
  | nil => exact fun _ _ => h
  | cons b bs ih =>
    have heach : each (b :: bs) g = (g b) >>= fun _ => each bs g := rfl
    rw [heach]
    apply yields_bind
    refine yields_mono (keep b (.head _) σ h) fun _ σ' hσ' => ?_
    exact ih (fun c hc => keep c (.tail _ hc)) hσ'

end Prog

end Verkos.Lib
