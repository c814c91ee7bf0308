import Mathlib.Data.List.Range
import Mathlib.Logic.Function.Basic
import Mathlib.Tactic.Common

/-!
# Memory as a function

A memory is a byte at every address. `read` takes some bytes from an address on, `store` puts bytes
one after another where a position says, and `copy` moves bytes one at a time, upwards. The lemmas
say what a range reads afterwards: what was put there, or what it read before.
-/

namespace Verkos.Lib

open List

abbrev Memory := Nat → UInt8

namespace Memory

variable {m : Memory} {a b n k x : Nat} {bs : List UInt8}

/-- `n` bytes from `a` on. -/
def read (m : Memory) (a n : Nat) : List UInt8 := (List.range n).map fun i => m (a + i)

/-- The bytes at an address and behind it. -/
def write (m : Memory) (a : Nat) (bs : List UInt8) : Memory := fun x =>
  if a ≤ x ∧ x < a + bs.length then bs.getD (x - a) 0 else m x

/-- Byte after byte, number `i` at `pos i`. -/
def store (m : Memory) (pos : Nat → Nat) (bs : List UInt8) : Memory :=
  bs.zipIdx.foldl (fun m p => Function.update m (pos p.2) p.1) m

/-- `n` bytes from `b` to `a`, one after another. -/
def copy (m : Memory) (a b n : Nat) : Memory :=
  (List.range n).foldl (fun m i => Function.update m (a + i) (m (b + i))) m

@[simp] theorem length_read (m : Memory) (a n : Nat) : (m.read a n).length = n := by
  rw [read, length_map, length_range]

theorem read_add (m : Memory) (a n k : Nat) : m.read a (n + k) = m.read a n ++ m.read (a + n) k := by
  simp [read, range_add, Function.comp_def, Nat.add_assoc]

theorem read_congr {m' : Memory} (h : ∀ x, a ≤ x → x < a + n → m' x = m x) :
    m'.read a n = m.read a n := by
  apply map_congr_left
  intro i hi
  rw [mem_range] at hi
  exact h (a + i) (by omega) (by omega)

/-- What a range reads, byte by byte. -/
theorem read_eq_iff : m.read a n = bs ↔ bs.length = n ∧ ∀ i < n, bs[i]? = some (m (a + i)) := by
  constructor
  · rintro rfl
    refine ⟨length_read .., fun i hi => ?_⟩
    simp [read, hi]
  · rintro ⟨rfl, h⟩
    apply ext_getElem?
    intro i
    by_cases hi : i < bs.length
    · rw [h i hi]
      simp [read, hi]
    · rw [getElem?_eq_none (by simpa using hi), getElem?_eq_none (by simpa using hi)]

theorem write_in (h : a ≤ x ∧ x < a + bs.length) : m.write a bs x = bs.getD (x - a) 0 := if_pos h

theorem write_out (h : x < a ∨ a + bs.length ≤ x) : m.write a bs x = m x := if_neg (by omega)

theorem read_write_self (m : Memory) (a : Nat) (bs : List UInt8) :
    (m.write a bs).read a bs.length = bs := by
  rw [read_eq_iff]
  refine ⟨rfl, fun i hi => ?_⟩
  rw [write_in (by omega), Nat.add_sub_cancel_left, getD_eq_getElem?_getD,
    getElem?_eq_getElem hi, Option.getD_some]

theorem read_write_other (h : b + n ≤ a ∨ a + bs.length ≤ b) :
    (m.write a bs).read b n = m.read b n :=
  read_congr fun _ _ _ => write_out (by omega)

/-- Stores one behind the other are one write. -/
theorem store_eq_write {pos : Nat → Nat} (h : ∀ i < bs.length, pos i = a + i) :
    m.store pos bs = m.write a bs := by
  induction bs using List.reverseRecOn with
  | nil =>
    funext x
    exact (write_out (by rw [length_nil]; omega)).symm
  | append_singleton bs v ih =>
    have hlen : (bs ++ [v]).length = bs.length + 1 := by simp
    have hstore : m.store pos (bs ++ [v]) = Function.update (m.store pos bs) (pos bs.length) v := by
      simp [store, zipIdx_append]
    rw [hstore, ih fun i hi => h i (by omega), h _ (by omega)]
    funext x
    by_cases hx : x = a + bs.length
    · subst hx
      rw [Function.update_self, write_in (by omega), Nat.add_sub_cancel_left]
      simp
    · rw [Function.update_of_ne hx]
      by_cases hin : a ≤ x ∧ x < a + bs.length
      · rw [write_in hin, write_in (by omega), getD_eq_getElem?_getD,
          getD_eq_getElem?_getD, getElem?_append_left (by omega)]
      · rw [write_out (by omega), write_out (by omega)]

/-- Bytes that are moved down arrive as they were, though the ranges may overlap. -/
theorem copy_down (h : a ≤ b) :
    m.copy a b n x = if a ≤ x ∧ x < a + n then m (x - a + b) else m x := by
  induction n generalizing x with
  | zero => rw [if_neg (by omega)]; rfl
  | succ n ih =>
    have hcopy : m.copy a b (n + 1) =
        Function.update (m.copy a b n) (a + n) (m.copy a b n (b + n)) := by
      simp [copy, range_succ]
    rw [hcopy]
    by_cases hx : x = a + n
    · subst hx
      rw [Function.update_self, ih, if_neg (by omega), if_pos (by omega)]
      congr 1
      omega
    · rw [Function.update_of_ne hx, ih]
      by_cases hin : a ≤ x ∧ x < a + n
      · rw [if_pos hin, if_pos (by omega)]
      · rw [if_neg hin, if_neg (by omega)]

theorem read_copy (h : a ≤ b) : (m.copy a b n).read a n = m.read b n := by
  apply map_congr_left
  intro i hi
  rw [mem_range] at hi
  rw [copy_down h, if_pos (by omega)]
  congr 1
  omega

end Memory

end Verkos.Lib
