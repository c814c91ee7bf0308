import Verkos.Lib.Bytes

/-!
# The internet checksum

A one's complement sum of 16-bit words, high byte first, with an odd last byte padded on the right.
`fold` brings a sum into sixteen bits by adding what is carried out, over and over; it comes to the
remainder by 65535 that is not zero (`fold_eq`). So what is filled in as the complement of a sum
makes the whole sum come to 65535 (`fold_complement`), whatever the words are.
-/

namespace Verkos.Lib.OnesComplement

open Bytes

/-- The sum of the words. -/
def sum : List UInt8 → Nat
  | [] => 0
  | [a] => 256 * a.toNat
  | a :: b :: rest => 256 * a.toNat + b.toNat + sum rest

/-- The carries added back, with the steps that are left. -/
def foldSteps : Nat → Nat → Nat
  | 0, s => s
  | k + 1, s => if s / 65536 = 0 then s else foldSteps k (s % 65536 + s / 65536)

/-- The carries added back until there are none. -/
def fold (s : Nat) : Nat := foldSteps s s

theorem foldSteps_eq {k s : Nat} (hk : s ≤ k) (hs : 0 < s) :
    foldSteps k s = (s - 1) % 65535 + 1 := by
  induction k generalizing s with
  | zero => omega
  | succ k ih =>
    unfold foldSteps
    split_ifs with h
    · omega
    · rw [ih (by omega) (by omega)]
      omega

theorem fold_eq {s : Nat} (hs : 0 < s) : fold s = (s - 1) % 65535 + 1 := foldSteps_eq le_rfl hs

theorem fold_le (s : Nat) : fold s ≤ 65535 := by
  rcases Nat.eq_zero_or_pos s with rfl | hs
  · exact Nat.zero_le _
  · rw [fold_eq hs]
    omega

/-- A sum and its complement. -/
theorem fold_complement (s : Nat) : fold (s + (65535 - fold s)) = 65535 := by
  rcases Nat.eq_zero_or_pos s with rfl | hs
  · decide
  · have hle := fold_le s
    rw [fold_eq (by omega), fold_eq hs]
    omega

/-- The complement is zero where all ones stand for it. -/
theorem fold_all_ones {s : Nat} (h : fold s = 65535) : fold (s + 65535) = 65535 := by
  rcases Nat.eq_zero_or_pos s with rfl | hs
  · decide
  · rw [fold_eq hs] at h
    rw [fold_eq (by omega)]
    omega

/-! ## Sums of pieces -/

theorem sum_append : ∀ {a : List UInt8} (b : List UInt8), a.length % 2 = 0 →
    sum (a ++ b) = sum a + sum b
  | [], b, _ => by rw [List.nil_append, sum, Nat.zero_add]
  | [x], b, h => by simp at h
  | x :: y :: a, b, h => by
    have ha : a.length % 2 = 0 := by
      rw [List.length_cons, List.length_cons] at h
      omega
    rw [List.cons_append, List.cons_append, sum, sum, sum_append b ha]
    omega

theorem sum_le : ∀ l : List UInt8, sum l ≤ 65535 * ((l.length + 1) / 2)
  | [] => Nat.zero_le _
  | [a] => by
    have ha := a.toNat_lt
    rw [sum, List.length_singleton]
    omega
  | a :: b :: l => by
    have ha := a.toNat_lt
    have hb := b.toNat_lt
    have hl := sum_le l
    rw [sum, List.length_cons, List.length_cons]
    omega

/-- A word that is put down. -/
theorem sum_big (v : Nat) : sum (big 2 v) = v % 65536 := by
  have h : big 2 v = [UInt8.ofNat (v / 256), UInt8.ofNat v] := rfl
  rw [h, sum, sum, UInt8.toNat_ofNat', UInt8.toNat_ofNat']
  omega

/-- Filling a word in adds it to the sum. -/
theorem sum_fill {a : List UInt8} (b : List UInt8) (v : Nat) (ha : a.length % 2 = 0) :
    sum (a ++ (big 2 v ++ b)) = sum (a ++ (big 2 0 ++ b)) + v % 65536 := by
  have h2 : ∀ v, (big 2 v).length % 2 = 0 := fun v => by rw [length_big]
  rw [sum_append _ ha, sum_append _ ha, sum_append _ (h2 v), sum_append _ (h2 0), sum_big, sum_big]
  omega

end Verkos.Lib.OnesComplement
