import Mathlib.Data.List.GetD
import Mathlib.Tactic.Common

/-!
# Lists as arrays, and runs that agree

A program that indexes an array goes wrong outside of it, and a model that takes lists apart does
not. `entry`, `put` and `slice` are the accesses that can go wrong. `Agree` relates the run of a
program written with them to the run of its model: they fail alike, or both have results and these
are related. Where the model does not fail with the program's error, the program was inside its
arrays all along.
-/

namespace Verkos.Lib.Indexed

variable {ε α β γ δ : Type}

/-- `l[i]`. -/
def entry (oob : ε) (l : List α) (i : Int) : Except ε α :=
  if 0 ≤ i then
    match l[i.toNat]? with
    | some v => .ok v
    | none => .error oob
  else .error oob

/-- `l[i] = v`. -/
def put (oob : ε) (l : List α) (i : Int) (v : α) : Except ε (List α) :=
  if 0 ≤ i ∧ i < l.length then .ok (l.set i.toNat v) else .error oob

/-- The `n` entries from `i` on. -/
def slice (oob : ε) (l : List α) (i n : Nat) : Except ε (List α) :=
  if i + n ≤ l.length then .ok ((l.drop i).take n) else .error oob

theorem ok_bind (a : α) (f : α → Except ε β) : (.ok a >>= f) = f a := rfl

variable {i : Nat} {f : α → Except ε γ}

section Access

variable {oob : ε} {l : List α}

theorem entry_some {v : α} (h : l[i]? = some v) : entry oob l i = .ok v := by
  rw [entry, if_pos (Int.natCast_nonneg i), Int.toNat_natCast, h]

theorem entry_eq (h : i < l.length) : entry oob l i = .ok l[i] :=
  entry_some (List.getElem?_eq_getElem h)

theorem entry_getD (h : i < l.length) (d : α) : entry oob l i = .ok (l.getD i d) := by
  rw [entry_eq h, List.getD_eq_getElem l d h]

theorem entry_neg {i : Int} (h : i < 0) : entry oob l i = .error oob := if_neg (Int.not_le.2 h)

theorem entry_beyond (h : l.length ≤ i) : entry oob l i = .error oob := by
  rw [entry, if_pos (Int.natCast_nonneg i), Int.toNat_natCast, List.getElem?_eq_none h]

theorem put_eq (h : i < l.length) (v : α) : put oob l i v = .ok (l.set i v) := by
  rw [put, if_pos ⟨Int.natCast_nonneg i, Int.ofNat_lt.2 h⟩, Int.toNat_natCast]

theorem put_beyond (h : l.length ≤ i) (v : α) : put oob l i v = .error oob :=
  if_neg fun hi => absurd (Int.ofNat_lt.1 hi.2) (Nat.not_lt.2 h)

theorem slice_eq {n : Nat} (h : i + n ≤ l.length) : slice oob l i n = .ok ((l.drop i).take n) :=
  if_pos h

end Access

/-- The runs fail alike, or have related results. -/
inductive Agree (R : α → β → Prop) : Except ε α → Except ε β → Prop
  | ok {a : α} {b : β} (h : R a b) : Agree R (.ok a) (.ok b)
  | error (e : ε) : Agree R (.error e) (.error e)

namespace Agree

variable {R : α → β → Prop} {S : γ → δ → Prop} {x : Except ε α} {y : Except ε β}

/-- One after the other. -/
theorem bind {g : β → Except ε δ} (h : Agree R x y)
    (hf : ∀ a b, R a b → Agree S (f a) (g b)) : Agree S (x >>= f) (y >>= g) := by
  cases h with
  | ok hab => exact hf _ _ hab
  | error e => exact .error e

/-- A step that the model makes without failing. -/
theorem step {b : β} {z : Except ε δ} (h : Agree R x (.ok b))
    (hf : ∀ a, R a b → Agree S (f a) z) : Agree S (x >>= f) z := by
  cases h with
  | ok hab => exact hf _ hab

/-- Runs with equal results are equal. -/
theorem eq {x y : Except ε α} (h : Agree (· = ·) x y) : x = y := by
  cases h with
  | ok hab => rw [hab]
  | error e => rfl

end Agree

end Verkos.Lib.Indexed
