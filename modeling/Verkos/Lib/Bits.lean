import Mathlib.Data.Nat.Bitwise
import Mathlib.Data.List.Induction
import Mathlib.Tactic.Common
import Mathlib.Tactic.Ring

/-!
# Bits of numbers, in both orders

A compressed stream is a list of bits. Numbers get into it with the lowest bit first or with the
highest bit first, and both orders are read back by an accumulator, one bit at a time.
-/

namespace Verkos.Lib.Bits

/-- The low `n` bits of `v`, lowest first. -/
def bitsLE : Nat → Nat → List Bool
  | 0, _ => []
  | n + 1, v => v.testBit 0 :: bitsLE n (v / 2)

/-- The low `n` bits of `v`, highest first. -/
def bitsBE : Nat → Nat → List Bool
  | 0, _ => []
  | n + 1, v => v.testBit n :: bitsBE n v

/-- The number that bits spell, lowest first. -/
def ofLE : List Bool → Nat
  | [] => 0
  | b :: l => b.toNat + 2 * ofLE l

/-- One more bit for a reader that takes the highest first. -/
def push (v : Nat) (b : Bool) : Nat := 2 * v + b.toNat

/-- The number that bits spell, highest first. -/
def ofBE (l : List Bool) : Nat := l.foldl push 0

variable {n v : Nat}

@[simp] theorem length_bitsLE (n v : Nat) : (bitsLE n v).length = n := by
  induction n generalizing v with
  | zero => rfl
  | succ n ih => simp [bitsLE, ih]

@[simp] theorem length_bitsBE (n v : Nat) : (bitsBE n v).length = n := by
  induction n with
  | zero => rfl
  | succ n ih => simp [bitsBE, ih]

theorem bitsLE_add (k n v : Nat) : bitsLE (k + n) v = bitsLE k v ++ bitsLE n (v / 2 ^ k) := by
  induction k generalizing v with
  | zero => simp [bitsLE]
  | succ k ih =>
    rw [Nat.succ_add, bitsLE, bitsLE, ih, Nat.div_div_eq_div_mul, Nat.pow_succ, Nat.mul_comm 2]
    rfl

theorem bitsBE_add (k n v : Nat) : bitsBE (k + n) v = bitsBE k (v / 2 ^ n) ++ bitsBE n v := by
  induction k with
  | zero => rw [Nat.zero_add]; rfl
  | succ k ih =>
    rw [Nat.succ_add, bitsBE, bitsBE, ih, Nat.testBit_div_two_pow]
    rfl

/-- Only what is below the width is written. -/
theorem bitsBE_mod (n v : Nat) : bitsBE n (v % 2 ^ n) = bitsBE n v := by
  have hbelow : ∀ k ≤ n, bitsBE k (v % 2 ^ n) = bitsBE k v := by
    intro k hk
    induction k with
    | zero => rfl
    | succ k ih =>
      have hlt : k < n := hk
      rw [bitsBE, bitsBE, ih hlt.le, Nat.testBit_mod_two_pow, decide_eq_true hlt, Bool.true_and]
  exact hbelow n le_rfl

theorem testBit_zero_toNat (v : Nat) : (v.testBit 0).toNat = v % 2 := by
  rw [Nat.testBit_zero]
  rcases Nat.mod_two_eq_zero_or_one v with h | h <;> simp [h]

theorem testBit_toNat (v i : Nat) : (v.testBit i).toNat = v / 2 ^ i % 2 := by
  rw [← testBit_zero_toNat, Nat.testBit_div_two_pow, Nat.zero_add]

/-- What is written lowest first is read back, as far as it fits. -/
theorem ofLE_bitsLE_mod (n v : Nat) : ofLE (bitsLE n v) = v % 2 ^ n := by
  induction n generalizing v with
  | zero => simp [bitsLE, ofLE, Nat.mod_one]
  | succ n ih =>
    rw [bitsLE, ofLE, ih, testBit_zero_toNat, Nat.pow_succ, Nat.mul_comm (2 ^ n) 2, Nat.mod_mul]

theorem ofLE_bitsLE (h : v < 2 ^ n) : ofLE (bitsLE n v) = v := by
  rw [ofLE_bitsLE_mod, Nat.mod_eq_of_lt h]

theorem ofLE_lt (l : List Bool) : ofLE l < 2 ^ l.length := by
  induction l with
  | nil => exact Nat.one_pos
  | cons b l ih =>
    have hb : b.toNat ≤ 1 := Bool.toNat_le b
    rw [ofLE, List.length_cons, Nat.pow_succ]
    omega

theorem ofLE_append (l l' : List Bool) : ofLE (l ++ l') = ofLE l + 2 ^ l.length * ofLE l' := by
  induction l with
  | nil => simp [ofLE]
  | cons b l ih =>
    rw [List.cons_append, ofLE, ofLE, ih, List.length_cons, Nat.pow_succ]
    ring

/-- Bits are those of the number they spell. -/
theorem bitsLE_ofLE (l : List Bool) : bitsLE l.length (ofLE l) = l := by
  induction l with
  | nil => rfl
  | cons b l ih =>
    have hmod : (b.toNat + 2 * ofLE l) % 2 = b.toNat := by
      have hb : b.toNat ≤ 1 := Bool.toNat_le b
      omega
    have hdiv : (b.toNat + 2 * ofLE l) / 2 = ofLE l := by
      have hb : b.toNat ≤ 1 := Bool.toNat_le b
      omega
    rw [List.length_cons, bitsLE, ofLE, hdiv, ih, Nat.testBit_zero, hmod]
    cases b <;> rfl

theorem foldl_push (l : List Bool) (v : Nat) : l.foldl push v = v * 2 ^ l.length + ofBE l := by
  induction l using List.reverseRecOn with
  | nil => simp [ofBE]
  | append_singleton l b ih =>
    have hpush : ofBE (l ++ [b]) = push (ofBE l) b := by simp [ofBE]
    rw [List.foldl_append, List.foldl_cons, List.foldl_nil, ih, hpush, List.length_append,
      List.length_singleton, Nat.pow_succ, push, push]
    ring

theorem ofBE_append (l l' : List Bool) : ofBE (l ++ l') = ofBE l * 2 ^ l'.length + ofBE l' := by
  rw [ofBE, List.foldl_append, foldl_push]
  rfl

/-- What is written highest first is read back, as far as it fits. -/
theorem ofBE_bitsBE_mod (n v : Nat) : ofBE (bitsBE n v) = v % 2 ^ n := by
  induction n with
  | zero => simp [bitsBE, ofBE, Nat.mod_one]
  | succ n ih =>
    have hcons : bitsBE (n + 1) v = [v.testBit n] ++ bitsBE n v := rfl
    have hone : ofBE [v.testBit n] = v / 2 ^ n % 2 := by
      rw [← testBit_toNat]
      simp [ofBE, push]
    rw [hcons, ofBE_append, ih, hone, length_bitsBE, Nat.pow_succ, Nat.mod_mul]
    ring

theorem ofBE_bitsBE (h : v < 2 ^ n) : ofBE (bitsBE n v) = v := by
  rw [ofBE_bitsBE_mod, Nat.mod_eq_of_lt h]

end Verkos.Lib.Bits
