import Mathlib.Data.BitVec

/-!
# Fields of a word

An encoder masks a value to the width of its field, shifts it into place and joins the fields with
`|||`. Reading a field back gives the value cut to the width, and nothing of the others.
-/

namespace Verkos.Lib

open BitVec

variable {w : Nat} {x y : BitVec w} {n p q m : Nat}

/-- A value cut to `n` bits, at bit `p`. -/
def field (x : BitVec w) (n p : Nat) : BitVec w := (x &&& BitVec.ofNat w (2 ^ n - 1)) <<< p

theorem getLsbD_mask {j : Nat} (hj : j < w) :
    (BitVec.ofNat w (2 ^ n - 1)).getLsbD j = decide (j < n) := by
  rw [getLsbD_ofNat, Nat.testBit_two_pow_sub_one, decide_eq_true hj, Bool.true_and]

theorem getLsbD_field {j : Nat} (hj : j < w) :
    (field x n p).getLsbD j = (decide (p ≤ j ∧ j - p < n) && x.getLsbD (j - p)) := by
  rw [field, getLsbD_shiftLeft, getLsbD_and, decide_eq_true hj, Bool.true_and]
  by_cases hp : p ≤ j
  · rw [getLsbD_mask (show j - p < w by omega), decide_eq_false (show ¬j < p by omega)]
    simp [hp, Bool.and_comm]
  · rw [decide_eq_true (show j < p by omega)]
    simp [hp]

/-- A field read back. -/
theorem extract_field (h : p + n ≤ w) : (field x n p).extractLsb' p n = x.setWidth n := by
  ext i hi
  rw [getElem_extractLsb', getLsbD_field (by omega), getElem_setWidth,
    Nat.add_sub_cancel_left, decide_eq_true ⟨Nat.le_add_right p i, hi⟩, Bool.true_and]

/-- Elsewhere it leaves nothing. -/
theorem extract_field_apart (h : q + m ≤ p ∨ p + n ≤ q) : (field x n p).extractLsb' q m = 0#m := by
  ext i hi
  rw [getElem_extractLsb', getElem_zero]
  by_cases hw : q + i < w
  · rw [getLsbD_field hw, decide_eq_false (by omega), Bool.false_and]
  · exact getLsbD_of_ge _ _ (by omega)

/-- A part of a part. -/
theorem extract_part {v : BitVec n} (hv : x.extractLsb' p n = v) (q m : Nat) (h : q + m ≤ n) :
    x.extractLsb' (p + q) m = v.extractLsb' q m := by
  rw [← hv]
  ext i hi
  rw [getElem_extractLsb', getElem_extractLsb', getLsbD_extractLsb',
    decide_eq_true (show q + i < n by omega), Bool.true_and, Nat.add_assoc]

/-- The low bits of a number, as the signed number they are. -/
theorem toInt_setWidth_ofInt (h : n ≤ w) (k : Int) :
    ((BitVec.ofInt w k).setWidth n).toInt = k.bmod (2 ^ n) := by
  have hcut : (BitVec.ofInt w k).setWidth n = BitVec.ofInt n k := by
    apply eq_of_toNat_eq
    rw [toNat_setWidth, toNat_ofInt, toNat_ofInt]
    have hdvd : ((2 ^ n : Nat) : Int) ∣ ((2 ^ w : Nat) : Int) :=
      Int.natCast_dvd_natCast.2 (Nat.pow_dvd_pow 2 h)
    have hpos : (0 : Int) < ((2 ^ w : Nat) : Int) := by exact_mod_cast Nat.two_pow_pos w
    have hmod : k % ((2 ^ w : Nat) : Int) % ((2 ^ n : Nat) : Int) = k % ((2 ^ n : Nat) : Int) :=
      Int.emod_emod_of_dvd k hdvd
    have hnn := Int.emod_nonneg k (show ((2 ^ w : Nat) : Int) ≠ 0 by omega)
    rw [← hmod, Int.toNat_emod hnn (Int.natCast_nonneg _), Int.toNat_natCast]
  rw [hcut, toInt_ofInt]

end Verkos.Lib
