import Mathlib.Data.Fin.Basic
import Mathlib.Algebra.Group.Fin.Basic
import Mathlib.Algebra.GroupWithZero.Nat
import Mathlib.Logic.Function.Basic
import Mathlib.Tactic.Common

/-!
# What is in a ring

A ring keeps its elements in an array, the oldest at `tail` and each further one behind it, past the
end of the array at its beginning. `contents` reads them off as a list. As long as there is a slot
free, an element written behind the last one comes last and moves no other.
-/

namespace Verkos.Lib.Ring

variable {α : Type*} {n : Nat} [NeZero n]

/-- So many elements from `tail` on. -/
def contents (buf : Fin n → α) (tail : Fin n) : Nat → List α
  | 0 => []
  | k + 1 => buf tail :: contents buf (tail + 1) k

@[simp] theorem length_contents (buf : Fin n → α) (tail : Fin n) (k : Nat) :
    (contents buf tail k).length = k := by
  induction k generalizing tail with
  | zero => rfl
  | succ k ih => rw [contents, List.length_cons, ih]

theorem contents_succ (buf : Fin n → α) (tail : Fin n) (k : Nat) :
    contents buf tail (k + 1) = contents buf tail k ++ [buf (tail + Fin.ofNat n k)] := by
  induction k generalizing tail with
  | zero => simp [contents]
  | succ k ih =>
    have hidx : tail + 1 + Fin.ofNat n k = tail + Fin.ofNat n (k + 1) := by
      rw [add_assoc, add_comm (1 : Fin n)]
      congr 1
      exact Fin.ext (by simp [Fin.val_add, Nat.add_mod])
    rw [contents, ih, hidx]
    rfl

/-- A slot behind the last element is none of theirs. -/
theorem contents_update {buf : Fin n → α} {tail : Fin n} {k j : Nat} (hk : k ≤ j) (hj : j < n)
    (b : α) : contents (Function.update buf (tail + Fin.ofNat n j) b) tail k = contents buf tail k := by
  induction k with
  | zero => rfl
  | succ k ih =>
    have hne : tail + Fin.ofNat n k ≠ tail + Fin.ofNat n j := by
      intro he
      have hkj := congrArg Fin.val (add_left_cancel he)
      rw [Fin.val_ofNat, Fin.val_ofNat, Nat.mod_eq_of_lt hj, Nat.mod_eq_of_lt (by omega)] at hkj
      omega
    rw [contents_succ, contents_succ, ih (by omega), Function.update_of_ne hne]

/-- An element written behind the last one comes last. -/
theorem contents_put {buf : Fin n → α} {tail : Fin n} {k : Nat} (hk : k < n) (b : α) :
    contents (Function.update buf (tail + Fin.ofNat n k) b) tail (k + 1) =
      contents buf tail k ++ [b] := by
  rw [contents_succ, contents_update le_rfl hk, Function.update_self]

end Verkos.Lib.Ring
