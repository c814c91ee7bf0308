import Mathlib.Data.List.Induction
import Mathlib.Data.Nat.Basic
import Mathlib.Tactic.Common
import Mathlib.Tactic.Ring

/-!
# Numbers in a fixed number of digits

Archive formats keep a number as text of a fixed width, most significant digit first. `digits b w n`
is what a writer puts there, `value b` is what a reader that takes one digit after another makes of
it, and the two meet on everything that fits: what is lost is exactly what is above the width.
-/

namespace Verkos.Lib.Digits

open List

/-- The last `w` digits of `n` in base `b`, most significant first. -/
def digits (b : Nat) : Nat → Nat → List Nat
  | 0, _ => []
  | w + 1, n => digits b w (n / b) ++ [n % b]

/-- A reader's accumulator after one more digit. -/
def push (b v d : Nat) : Nat := v * b + d

/-- The number a run of digits spells. -/
def value (b : Nat) (ds : List Nat) : Nat := ds.foldl (push b) 0

variable {b w n : Nat}

@[simp] theorem length_digits (b w n : Nat) : (digits b w n).length = w := by
  induction w generalizing n with
  | zero => rfl
  | succ w ih => simp [digits, ih]

theorem digits_lt (hb : 0 < b) : ∀ d ∈ digits b w n, d < b := by
  induction w generalizing n with
  | zero => intro d hd; cases hd
  | succ w ih =>
    intro d hd
    rw [digits, mem_append, mem_singleton] at hd
    rcases hd with hd | rfl
    · exact ih d hd
    · exact Nat.mod_lt n hb

@[simp] theorem value_concat (b : Nat) (ds : List Nat) (d : Nat) :
    value b (ds ++ [d]) = value b ds * b + d := by
  simp [value, push]

/-- A reader cannot go above the width either. -/
theorem value_lt {ds : List Nat} (h : ∀ d ∈ ds, d < b) : value b ds < b ^ ds.length := by
  induction ds using List.reverseRecOn with
  | nil => simp [value]
  | append_singleton ds d ih =>
    have hd : d < b := h d (by simp)
    have hlt := ih fun d' hd' => h d' (by simp [hd'])
    rw [value_concat, length_append, length_singleton, Nat.pow_succ]
    calc value b ds * b + d < value b ds * b + b := Nat.add_lt_add_left hd _
      _ = (value b ds + 1) * b := by ring
      _ ≤ b ^ ds.length * b := Nat.mul_le_mul_right b hlt

/-- A number whose first digit is not zero has all its digits. -/
theorem le_value {d : Nat} (hd : 0 < d) (ds : List Nat) : b ^ ds.length ≤ value b (d :: ds) := by
  induction ds using List.reverseRecOn with
  | nil => simpa [value, push] using Nat.succ_le_of_lt hd
  | append_singleton ds e ih =>
    rw [← cons_append, value_concat, length_append, length_singleton, Nat.pow_succ]
    exact (Nat.mul_le_mul_right b ih).trans (Nat.le_add_right _ _)

/-- Reading what was written: the number, as far as the width goes. -/
theorem value_digits_mod (b w n : Nat) : value b (digits b w n) = n % b ^ w := by
  induction w generalizing n with
  | zero => simp [digits, value, Nat.mod_one]
  | succ w ih =>
    rw [digits, value_concat, ih, Nat.pow_succ, Nat.mul_comm (b ^ w) b, Nat.mod_mul]
    ring

theorem value_digits (h : n < b ^ w) : value b (digits b w n) = n := by
  rw [value_digits_mod, Nat.mod_eq_of_lt h]

/-! ## Text -/

@[simp] theorem digits_zero (b w : Nat) : digits b w 0 = List.replicate w 0 := by
  induction w with
  | zero => rfl
  | succ w ih => rw [digits, Nat.zero_div, Nat.zero_mod, ih, replicate_succ']

theorem leftpad_concat {α : Type} (w : Nat) (z x : α) (l : List α) :
    (l ++ [x]).leftpad (w + 1) z = l.leftpad w z ++ [x] := by
  rw [List.leftpad, List.leftpad, length_append, length_singleton, Nat.add_sub_add_right,
    append_assoc]

/-- Padding a number's own digits with zeros gives it in the fixed width. -/
theorem leftpad_toDigits (hb : 1 < b) (hw : 0 < w) (h : n < b ^ w) :
    (Nat.toDigits b n).leftpad w '0' = (digits b w n).map Nat.digitChar := by
  induction w generalizing n with
  | zero => cases hw
  | succ w ih =>
    rw [digits, map_append]
    by_cases hn : n < b
    · have hone : Nat.toDigits b n = [] ++ [n.digitChar] := Nat.toDigits_of_lt_base hn
      rw [hone, leftpad_concat, Nat.div_eq_of_lt hn, Nat.mod_eq_of_lt hn, digits_zero,
        map_replicate, List.leftpad, append_nil]
      rfl
    · have hpos : 0 < w := by
        rcases Nat.eq_zero_or_pos w with rfl | hpos
        · simp only [Nat.zero_add, Nat.pow_one] at h
          contradiction
        · exact hpos
      have hdiv : n / b < b ^ w := Nat.div_lt_of_lt_mul (by rwa [Nat.pow_succ'] at h)
      rw [Nat.toDigits_of_base_le hb (Nat.le_of_not_lt hn), leftpad_concat, ih hpos hdiv]
      rfl

end Verkos.Lib.Digits
