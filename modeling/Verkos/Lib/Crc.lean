import Mathlib.Data.List.Basic
import Mathlib.Logic.Function.Iterate

/-!
# Cyclic redundancy codes by table

`Crc.bits` is a reflected CRC of 32 bits the way it is defined: a shift register that takes one bit
after another. Programs take a byte at a time, with a table of what eight steps do to a byte
alone. The register is linear, and eight steps only shift what is above the lowest byte, so the two
agree; `table_eq_bits` is for any polynomial, register and data.
-/

namespace Verkos.Lib.Crc

variable (poly : BitVec 32)

/-- One step of the register. -/
def step (c : BitVec 32) : BitVec 32 := if c.getLsbD 0 then poly ^^^ (c >>> 1) else c >>> 1

/-- A byte taken bit by bit. -/
def byBits (c : BitVec 32) (b : UInt8) : BitVec 32 :=
  (step poly)^[8] (c ^^^ b.toBitVec.setWidth 32)

/-- An entry of the table. -/
def entry (i : BitVec 32) : BitVec 32 := (step poly)^[8] i

/-- A byte taken at once. -/
def byTable (c : BitVec 32) (b : UInt8) : BitVec 32 :=
  entry poly ((c ^^^ b.toBitVec.setWidth 32) &&& 0xff) ^^^ (c >>> 8)

/-- The code of some bytes, all ones before and complemented behind. -/
def bits (data : List UInt8) : BitVec 32 :=
  data.foldl (byBits poly) 0xffffffff ^^^ 0xffffffff

def table (data : List UInt8) : BitVec 32 :=
  data.foldl (byTable poly) 0xffffffff ^^^ 0xffffffff

theorem step_xor (x y : BitVec 32) : step poly (x ^^^ y) = step poly x ^^^ step poly y := by
  unfold step
  rw [BitVec.getLsbD_xor, BitVec.ushiftRight_xor_distrib]
  cases x.getLsbD 0 <;> cases y.getLsbD 0
  · rfl
  · show poly ^^^ (x >>> 1 ^^^ y >>> 1) = x >>> 1 ^^^ (poly ^^^ y >>> 1)
    ac_rfl
  · show poly ^^^ (x >>> 1 ^^^ y >>> 1) = poly ^^^ x >>> 1 ^^^ y >>> 1
    ac_rfl
  · show x >>> 1 ^^^ y >>> 1 = poly ^^^ x >>> 1 ^^^ (poly ^^^ y >>> 1)
    calc x >>> 1 ^^^ y >>> 1 = (poly ^^^ poly) ^^^ (x >>> 1 ^^^ y >>> 1) := by
          rw [BitVec.xor_self, BitVec.zero_xor]
      _ = _ := by ac_rfl

theorem steps_xor (n : Nat) (x y : BitVec 32) :
    (step poly)^[n] (x ^^^ y) = (step poly)^[n] x ^^^ (step poly)^[n] y := by
  induction n generalizing x y with
  | zero => rfl
  | succ n ih =>
    rw [Function.iterate_succ_apply, step_xor, ih]
    rfl

/-- What has nothing in its lowest bits is only shifted. -/
theorem steps_shift {n : Nat} {x : BitVec 32} (h : ∀ i < n, x.getLsbD i = false) :
    (step poly)^[n] x = x >>> n := by
  induction n generalizing x with
  | zero => exact (BitVec.ushiftRight_zero x).symm
  | succ n ih =>
    have h0 : step poly x = x >>> 1 := by
      unfold step
      rw [h 0 (Nat.succ_pos n), if_neg Bool.false_ne_true]
    rw [Function.iterate_succ_apply, h0, ih, ← BitVec.shiftRight_add, Nat.add_comm]
    intro i hi
    rw [BitVec.getLsbD_ushiftRight, Nat.add_comm]
    exact h (i + 1) (by omega)

theorem byTable_eq_byBits (c : BitVec 32) (b : UInt8) : byTable poly c b = byBits poly c b := by
  set x := c ^^^ b.toBitVec.setWidth 32 with hx
  have hsplit : x = (x &&& 0xff) ^^^ (x &&& ~~~(0xff : BitVec 32)) := by
    ext i hi
    simp only [BitVec.getElem_xor, BitVec.getElem_and, BitVec.getElem_not]
    cases x[i] <;> cases (0xff : BitVec 32)[i] <;> rfl
  have hff : ∀ i < 32, (0xff : BitVec 32).getLsbD i = decide (i < 8) := by decide
  have hlow : ∀ i < 8, (x &&& ~~~(0xff : BitVec 32)).getLsbD i = false := by
    intro i hi
    rw [BitVec.getLsbD_and, BitVec.getLsbD_not, hff i (by omega)]
    simp [hi]
  have hhigh : (x &&& ~~~(0xff : BitVec 32)) >>> 8 = c >>> 8 := by
    ext i hi
    rw [← BitVec.getLsbD_eq_getElem, ← BitVec.getLsbD_eq_getElem, BitVec.getLsbD_ushiftRight,
      BitVec.getLsbD_ushiftRight, BitVec.getLsbD_and, BitVec.getLsbD_not, hx, BitVec.getLsbD_xor,
      BitVec.getLsbD_setWidth, BitVec.getLsbD_of_ge b.toBitVec (8 + i) (by omega)]
    by_cases hlt : 8 + i < 32
    · rw [hff _ hlt]
      simp [hlt]
    · simp [BitVec.getLsbD_of_ge c (8 + i) (by omega)]
  have hbits : byBits poly c b = (step poly)^[8] x := rfl
  rw [hbits, hsplit, steps_xor, steps_shift poly hlow, hhigh]
  rfl

theorem table_eq_bits (data : List UInt8) : table poly data = bits poly data := by
  have h : byTable poly = byBits poly := by
    funext c b
    exact byTable_eq_byBits poly c b
  unfold table bits
  rw [h]

end Verkos.Lib.Crc
