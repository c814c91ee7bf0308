import Mathlib.Data.BitVec
import Mathlib.Tactic.Common

/-!
# 32-bit serial numbers

A counter that wraps at `2 ^ 32` stands for a position in a stream that does not. `Serial.ge` asks
which of two counters is ahead modulo the space; `num base n` is the number of position `n`
of a stream whose position `0` has the counter `base`. The question about the counters has the
answer of the question about the positions as long as the positions are less than half the space
apart, and that is what every lemma here assumes and nothing more.
-/

namespace Verkos.Lib.Serial

/-- `(int32_t)(a - b) >= 0`. -/
def ge (a b : BitVec 32) : Bool := decide (0 ≤ (a - b).toInt)

/-- The number of a position. -/
def num (base : BitVec 32) (n : Nat) : BitVec 32 := base + BitVec.ofNat 32 n

theorem ge_iff (a b : BitVec 32) : ge a b = true ↔ (a - b).toNat < 2 ^ 31 := by
  have h := BitVec.toInt_eq_toNat_cond (a - b)
  have hlt := (a - b).isLt
  unfold ge
  rw [decide_eq_true_iff, h]
  split <;> omega

@[simp] theorem ge_self (a : BitVec 32) : ge a a = true := by
  rw [ge_iff, BitVec.sub_self]
  decide

theorem num_zero (base : BitVec 32) : num base 0 = base := by
  simp [num]

theorem num_add (base : BitVec 32) (m n : Nat) :
    num base (m + n) = num base m + BitVec.ofNat 32 n := by
  unfold num
  rw [BitVec.ofNat_add, BitVec.add_assoc]

/-- How far two positions are apart, as the counters see it. -/
theorem toNat_num_sub (base : BitVec 32) (m n : Nat) :
    (num base m - num base n).toNat = (m % 2 ^ 32 + (2 ^ 32 - n % 2 ^ 32)) % 2 ^ 32 := by
  have hb := base.isLt
  unfold num
  simp only [BitVec.toNat_sub, BitVec.toNat_add, BitVec.toNat_ofNat]
  omega

/-- Positions less than half the space apart. -/
def Near (m n : Nat) : Prop := m < n + 2 ^ 31 ∧ n < m + 2 ^ 31

theorem ge_num {base : BitVec 32} {m n : Nat} (h : Near m n) :
    ge (num base m) (num base n) = true ↔ n ≤ m := by
  rw [ge_iff, toNat_num_sub]
  unfold Near at h
  omega

end Verkos.Lib.Serial
