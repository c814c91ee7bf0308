import Mathlib.Data.List.Basic
import Mathlib.Data.UInt
import Mathlib.Tactic.Common
import Mathlib.Tactic.Ring

/-!
# Numbers as bytes, and fields of a record

`little w n` is a number in `w` bytes with the low byte first and `big w n` with the high byte
first; reading them back gives the number as far as the width goes. `part off len` is a field of a
record, and `part_append` finds it where it was put.
-/

namespace Verkos.Lib.Bytes

open List

variable {w n : Nat}

/-- The low byte first. -/
def little : Nat → Nat → List UInt8
  | 0, _ => []
  | w + 1, n => UInt8.ofNat n :: little w (n / 256)

def ofLittle : List UInt8 → Nat
  | [] => 0
  | b :: bs => b.toNat + 256 * ofLittle bs

/-- The high byte first. -/
def big (w n : Nat) : List UInt8 := (little w n).reverse

def ofBig (l : List UInt8) : Nat := ofLittle l.reverse

@[simp] theorem length_little (w n : Nat) : (little w n).length = w := by
  induction w generalizing n with
  | zero => rfl
  | succ w ih => rw [little, length_cons, ih]

@[simp] theorem length_big (w n : Nat) : (big w n).length = w := by
  rw [big, length_reverse, length_little]

theorem ofLittle_little (w n : Nat) : ofLittle (little w n) = n % 256 ^ w := by
  induction w generalizing n with
  | zero => simp [little, ofLittle, Nat.mod_one]
  | succ w ih =>
    have hpow : 256 ^ (w + 1) = 256 * 256 ^ w := by ring
    rw [little, ofLittle, ih, UInt8.toNat_ofNat', hpow, Nat.mod_mul]

theorem ofBig_big (w n : Nat) : ofBig (big w n) = n % 256 ^ w := by
  rw [ofBig, big, reverse_reverse, ofLittle_little]

theorem ofLittle_lt (l : List UInt8) : ofLittle l < 256 ^ l.length := by
  induction l with
  | nil => simp [ofLittle]
  | cons b l ih =>
    have hb := b.toNat_lt
    rw [ofLittle, length_cons, Nat.pow_succ]
    omega

theorem ofBig_lt (l : List UInt8) : ofBig l < 256 ^ l.length := by
  have h := ofLittle_lt l.reverse
  rwa [length_reverse] at h

/-! ## Fields -/

/-- `len` bytes from `off` on. -/
def part (off len : Nat) (l : List UInt8) : List UInt8 := (l.drop off).take len

variable {off len : Nat}

theorem part_append (a b c : List UInt8) (ha : a.length = off)
    (hb : b.length = len) : part off len (a ++ (b ++ c)) = b := by
  rw [part, ← ha, drop_left, ← hb, take_left]

theorem part_right {k : Nat} (a b : List UInt8) (ha : a.length = k) :
    part (k + off) len (a ++ b) = part off len b := by
  rw [part, part, ← ha, drop_append, drop_eq_nil_of_le (by omega), nil_append]
  congr 2
  omega

/-- A field behind the first piece of a record, and one that is the first piece: with the lengths
of the pieces at hand, the two find every field. -/
theorem part_skip (a b : List UInt8) (h : a.length ≤ off) :
    part off len (a ++ b) = part (off - a.length) len b := by
  obtain ⟨k, rfl⟩ := Nat.exists_eq_add_of_le h
  rw [part_right a b rfl, Nat.add_sub_cancel_left]

theorem part_cons (b : UInt8) (l : List UInt8) (h : 0 < off) :
    part off len (b :: l) = part (off - 1) len l := by
  obtain ⟨k, rfl⟩ := Nat.exists_eq_add_of_lt h
  rw [Nat.zero_add, part, drop_succ_cons, Nat.add_sub_cancel, part]

theorem part_here (a b : List UInt8) (h : a.length = len) : part 0 len (a ++ b) = a := by
  rw [part, drop_zero, ← h, take_left]

theorem part_all (a : List UInt8) (h : a.length = len) : part 0 len a = a := by
  rw [part, drop_zero, ← h, take_length]

/-- A field of a record that is cut off behind it. -/
theorem part_take {n : Nat} (l : List UInt8) (h : off + len ≤ n) :
    part off len (l.take n) = part off len l := by
  rw [part, part, drop_take, take_take, Nat.min_eq_left (by omega)]

/-- One of several pieces of one length. -/
theorem part_flatten {i : Nat} {ls : List (List UInt8)} {l : List UInt8} (rest : List UInt8)
    (hlen : ∀ l ∈ ls, l.length = len) (h : ls[i]? = some l) :
    part (i * len) len (ls.flatten ++ rest) = l := by
  induction ls generalizing i with
  | nil => cases h
  | cons a ls ih =>
    have ha := hlen a mem_cons_self
    rw [flatten_cons, append_assoc]
    cases i with
    | zero =>
      obtain rfl := Option.some.inj h
      rw [Nat.zero_mul]
      exact part_here _ _ ha
    | succ i =>
      rw [Nat.succ_mul, Nat.add_comm, part_right _ _ ha]
      exact ih (fun l hl => hlen l (mem_cons_of_mem _ hl)) h

theorem length_part (l : List UInt8) (h : off + len ≤ l.length) :
    (part off len l).length = len := by
  rw [part, length_take, length_drop]
  omega

end Verkos.Lib.Bytes
