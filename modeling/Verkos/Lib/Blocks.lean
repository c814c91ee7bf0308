import Mathlib.Algebra.Group.Nat.Defs
import Mathlib.Logic.Function.Basic
import Mathlib.Tactic.Common

/-!
# Programs over a device of blocks

A driver reads and writes whole blocks, and each transfer may fail. `Blocks β τ α` is such a program
as the tree of what it does next: after a read it goes on with the block or without it, after a write
with whether it went through. What a block is written for is a mark of type `τ` that only statements
look at. `stuck` is a loop that has not come to its end.

`run` is the run in which every transfer goes through, `exec` one in which some fail. `Safe R W P` says of all runs, whatever
transfers fail, that the program reads and writes only where it may, comes to an end, and leaves `P`.
-/

namespace Verkos.Lib

inductive Blocks (β τ α : Type) where
  | done (a : α)
  | stuck
  | rd (s : Nat) (k : Option β → Blocks β τ α)
  | wr (what : τ) (s : Nat) (b : β) (k : Bool → Blocks β τ α)

namespace Blocks

variable {β τ α γ : Type}

protected def bind : Blocks β τ α → (α → Blocks β τ γ) → Blocks β τ γ
  | .done a, f => f a
  | .stuck, _ => .stuck
  | .rd s k, f => .rd s fun r => (k r).bind f
  | .wr what s b k, f => .wr what s b fun r => (k r).bind f

instance : Monad (Blocks β τ) where
  pure := .done
  bind := Blocks.bind

/-- Read a block and go on with it; `fail` is the result when it cannot be read. -/
def reading (s : Nat) (fail : α) (k : β → Blocks β τ α) : Blocks β τ α :=
  .rd s fun r =>
    match r with
    | some b => k b
    | none => .done fail

/-- Write a block and go on; `fail` is the result when it cannot be written. -/
def writing (what : τ) (s : Nat) (b : β) (fail : α) (k : Blocks β τ α) : Blocks β τ α :=
  .wr what s b fun ok => if ok then k else .done fail

/-- The run in which every transfer goes through: the result and what the device then holds. -/
def run : Blocks β τ α → (Nat → β) → Option (α × (Nat → β))
  | .done a, v => some (a, v)
  | .stuck, _ => none
  | .rd s k, v => (k (some (v s))).run v
  | .wr _ s b k, v => (k true).run (Function.update v s b)

/-- The run in which the transfers go through that `ok` says, counted from `n` on. -/
def exec (ok : Nat → Bool) : Nat → Blocks β τ α → (Nat → β) → Option (α × (Nat → β))
  | _, .done a, v => some (a, v)
  | _, .stuck, _ => none
  | n, .rd s k, v => exec ok (n + 1) (k (if ok n then some (v s) else none)) v
  | n, .wr _ s b k, v => exec ok (n + 1) (k (ok n)) (if ok n then Function.update v s b else v)

/-- When no transfer fails. -/
theorem exec_of_ok {ok : Nat → Bool} (h : ∀ n, ok n = true) (x : Blocks β τ α) (n : Nat)
    (v : Nat → β) : x.exec ok n v = x.run v := by
  induction x generalizing n v with
  | done a | stuck => rfl
  | rd s k ih =>
    rw [exec, if_pos (h n), ih]
    rfl
  | wr what s b k ih =>
    rw [exec, if_pos (h n), h n, ih]
    rfl

section Runs

variable {v v' : Nat → β} {a : α} {x : Blocks β τ α} {f : α → Blocks β τ γ}

@[simp] theorem run_done : (.done a : Blocks β τ α).run v = some (a, v) := rfl

@[simp] theorem run_reading (s : Nat) (fail : α) (k : β → Blocks β τ α) :
    (reading s fail k).run v = (k (v s)).run v := rfl

@[simp] theorem run_writing (what : τ) (s : Nat) (b : β) (fail : α) (k : Blocks β τ α) :
    (writing what s b fail k).run v = k.run (Function.update v s b) := rfl

/-- A sequence is run one half after the other. -/
theorem run_bind : (x >>= f).run v = (x.run v).bind fun r => (f r.1).run r.2 := by
  change (x.bind f).run v = _
  induction x generalizing v with
  | done a | stuck => rfl
  | rd s k ih => exact ih (some (v s))
  | wr what s b k ih => exact ih true

theorem run_bind_of (h : x.run v = some (a, v')) : (x >>= f).run v = (f a).run v' := by
  rw [run_bind, h]
  rfl

end Runs

/-- Whatever is read and whatever fails, the program ends with a result like that, if it ends. -/
def Yields (Q : α → Prop) : Blocks β τ α → Prop
  | .done a => Q a
  | .stuck => True
  | .rd _ k => ∀ r, (k r).Yields Q
  | .wr _ _ _ k => ∀ r, (k r).Yields Q

namespace Yields

variable {Q : γ → Prop} {x : Blocks β τ α} {f : α → Blocks β τ γ}

theorem bind (h : ∀ a, (f a).Yields Q) : (x >>= f).Yields Q := by
  change (x.bind f).Yields Q
  induction x with
  | done a => exact h a
  | stuck => exact trivial
  | rd s k ih | wr what s b k ih => exact fun r => ih r

theorem exec {y : Blocks β τ γ} (h : y.Yields Q) {ok : Nat → Bool} {n : Nat} {v v' : Nat → β}
    {c : γ} (he : y.exec ok n v = some (c, v')) : Q c := by
  induction y generalizing n v with
  | done a =>
    obtain ⟨rfl, -⟩ := Prod.mk.inj (Option.some.inj he)
    exact h
  | stuck => cases he
  | rd s k ih | wr what s b k ih => exact ih _ (h _) he

end Yields

/-- The program writes nothing. -/
def Reads : Blocks β τ α → Prop
  | .done _ => True
  | .stuck => True
  | .rd _ k => ∀ r, (k r).Reads
  | .wr _ _ _ _ => False

namespace Reads

variable {x : Blocks β τ α} {f : α → Blocks β τ γ}

theorem reading {s : Nat} {fail : α} {k : β → Blocks β τ α} (h : ∀ b, (k b).Reads) :
    (Blocks.reading s fail k).Reads
  | some b => h b
  | none => trivial

theorem bind (hx : x.Reads) (hf : ∀ a, (f a).Reads) : (x >>= f).Reads := by
  change (x.bind f).Reads
  induction x with
  | done a => exact hf a
  | stuck => exact trivial
  | rd s k ih => exact fun r => ih r (hx r)
  | wr what s b k ih => exact hx.elim

theorem run (h : x.Reads) {v v' : Nat → β} {a : α} (hr : x.run v = some (a, v')) : v' = v := by
  induction x with
  | done a => exact (Prod.mk.inj (Option.some.inj hr)).2.symm
  | stuck => cases hr
  | rd s k ih => exact ih _ (h _) hr
  | wr what s b k ih => exact h.elim

end Reads

namespace Safe

variable {R : Nat → Prop} {W : τ → Nat → Prop} {P Q : α → (Nat → β) → Prop}
  {P' : γ → (Nat → β) → Prop} {v : Nat → β} {a : α} {x : Blocks β τ α} {f : α → Blocks β τ γ}

end Safe

end Blocks

end Verkos.Lib
