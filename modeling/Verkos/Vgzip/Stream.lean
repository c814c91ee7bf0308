import Verkos.Lib.Bits

/-!
# The bit streams of vgzip

`struct bitr` takes the bits of a byte lowest first, and `struct bitw` puts them there in the same
order. `BitR.bits` is what a reader has left and `BitW.bits` what a writer has written; everything
else about the two structures is how they go together with one bit at a time.
-/

namespace Verkos.Vgzip

open Lib.Bits
open List

/-- `struct bitr`: what is left of the data, and of the byte that has been begun. -/
structure BitR where
  rest : List UInt8
  bitbuf : Nat
  bitcnt : Nat
deriving DecidableEq

/-- `getbit`. -/
def getbit (r : BitR) : Int × BitR :=
  if r.bitcnt = 0 then
    match r.rest with
    | [] => (-1, r)
    | b :: rest => ((b.toNat % 2 : Nat), ⟨rest, b.toNat / 2, 7⟩)
  else ((r.bitbuf % 2 : Nat), { r with bitbuf := r.bitbuf / 2, bitcnt := r.bitcnt - 1 })

/-- `getbits` with `k` bits to come, of which the first counts `2 ^ i`. -/
def getbitsFrom : Nat → Nat → Int → BitR → Int × BitR
  | 0, _, v, r => (v, r)
  | k + 1, i, v, r =>
    let (b, r) := getbit r
    if b < 0 then (-1, r) else getbitsFrom k (i + 1) (v + b * 2 ^ i) r

/-- `getbits`. -/
def getbits (r : BitR) (n : Nat) : Int × BitR := getbitsFrom n 0 0 r

/-- `struct bitw`. -/
structure BitW where
  out : List UInt8
  bitbuf : Nat
  bitcnt : Nat
deriving DecidableEq

/-- `putbit`. -/
def putbit (w : BitW) (bit : Nat) : BitW :=
  let bitbuf := w.bitbuf ||| (bit % 2) <<< w.bitcnt
  if w.bitcnt + 1 = 8 then ⟨w.out ++ [UInt8.ofNat bitbuf], 0, 0⟩
  else { w with bitbuf, bitcnt := w.bitcnt + 1 }

/-- `putbits`. -/
def putbits : BitW → Nat → Nat → BitW
  | w, _, 0 => w
  | w, val, n + 1 => putbits (putbit w (val % 2)) (val / 2) n

/-- `putbits_rev`. -/
def putbitsRev : BitW → Nat → Nat → BitW
  | w, _, 0 => w
  | w, val, n + 1 => putbitsRev (putbit w (val / 2 ^ n % 2)) val n

/-- `flush_bits`. -/
def flushBits (w : BitW) : List UInt8 :=
  if w.bitcnt = 0 then w.out else w.out ++ [UInt8.ofNat w.bitbuf]

/-! ## As lists of bits -/

def byteBits (b : UInt8) : List Bool := bitsLE 8 b.toNat

theorem length_byteBits (data : List UInt8) : (data.flatMap byteBits).length = 8 * data.length := by
  induction data with
  | nil => rfl
  | cons b data ih =>
    rw [flatMap_cons, length_append, ih, byteBits, length_bitsLE, length_cons]
    omega

/-- The bits that are to come. -/
def BitR.bits (r : BitR) : List Bool := bitsLE r.bitcnt r.bitbuf ++ r.rest.flatMap byteBits

/-- The bits that have been written. -/
def BitW.bits (w : BitW) : List Bool := w.out.flatMap byteBits ++ bitsLE w.bitcnt w.bitbuf

/-- A byte that has been begun is not full and has nothing beyond its bits. -/
structure BitW.Ok (w : BitW) : Prop where
  cnt : w.bitcnt < 8
  buf : w.bitbuf < 2 ^ w.bitcnt

section Reader

variable {r : BitR} {b : Bool} {l l' : List Bool}

theorem getbit_cons (h : r.bits = b :: l) :
    ∃ r' : BitR, getbit r = ((b.toNat : Int), r') ∧ r'.bits = l := by
  unfold getbit
  by_cases hc : r.bitcnt = 0
  · rw [if_pos hc]
    cases hr : r.rest with
    | nil => simp [BitR.bits, hc, hr, bitsLE] at h
    | cons x rest =>
      have hbits : x.toNat.testBit 0 :: (bitsLE 7 (x.toNat / 2) ++ rest.flatMap byteBits) = b :: l := by
        rw [← h, BitR.bits, hc, hr]
        rfl
      rw [List.cons.injEq] at hbits
      refine ⟨⟨rest, x.toNat / 2, 7⟩, ?_, hbits.2⟩
      rw [← hbits.1, testBit_zero_toNat]
  · rw [if_neg hc]
    obtain ⟨c, hc'⟩ := Nat.exists_eq_succ_of_ne_zero hc
    have hbits : r.bitbuf.testBit 0 :: (bitsLE c (r.bitbuf / 2) ++ r.rest.flatMap byteBits) =
        b :: l := by
      rw [← h, BitR.bits, hc']
      rfl
    rw [List.cons.injEq] at hbits
    refine ⟨{ r with bitbuf := r.bitbuf / 2, bitcnt := r.bitcnt - 1 }, ?_, ?_⟩
    · rw [← hbits.1, testBit_zero_toNat]
    · rw [← hbits.2, BitR.bits, hc']
      rfl

theorem getbitsFrom_append (i : Nat) (v : Nat) (h : r.bits = l ++ l') :
    ∃ r' : BitR, getbitsFrom l.length i v r = (((v + ofLE l * 2 ^ i : Nat) : Int), r') ∧ r'.bits = l' := by
  induction l generalizing r i v with
  | nil => exact ⟨r, by simp [getbitsFrom, ofLE], h⟩
  | cons b l ih =>
    obtain ⟨r₁, hr1, hbits⟩ := getbit_cons h
    obtain ⟨r', hr', hbits'⟩ := ih (i + 1) (v + b.toNat * 2 ^ i) hbits
    refine ⟨r', ?_, hbits'⟩
    have hnot : ¬ (b.toNat : Int) < 0 := Int.not_lt.2 (Int.natCast_nonneg _)
    rw [length_cons, getbitsFrom, hr1]
    dsimp only
    rw [if_neg hnot]
    have hcast : (v : Int) + (b.toNat : Int) * 2 ^ i = ((v + b.toNat * 2 ^ i : Nat) : Int) := by
      push_cast
      rfl
    rw [hcast, hr', ofLE]
    congr 2
    rw [Nat.pow_succ]
    ring

theorem getbits_bitsLE {n v : Nat} (hv : v < 2 ^ n) (h : r.bits = bitsLE n v ++ l) :
    ∃ r' : BitR, getbits r n = ((v : Int), r') ∧ r'.bits = l := by
  obtain ⟨r', hr', hbits⟩ := getbitsFrom_append 0 0 h
  refine ⟨r', ?_, hbits⟩
  rw [length_bitsLE, ofLE_bitsLE hv, Nat.pow_zero, Nat.mul_one, Nat.zero_add] at hr'
  exact hr'

end Reader

section Writer

variable {w : BitW}

theorem putbit_bits (h : w.Ok) (bit : Nat) :
    (putbit w bit).Ok ∧ (putbit w bit).bits = w.bits ++ [bit.testBit 0] := by
  have hor : w.bitbuf ||| (bit % 2) <<< w.bitcnt =
      ofLE (bitsLE w.bitcnt w.bitbuf ++ [bit.testBit 0]) := by
    rw [ofLE_append, ofLE_bitsLE h.buf, length_bitsLE, ofLE, ofLE, testBit_zero_toNat,
      Nat.shiftLeft_eq, Nat.mul_zero, Nat.add_zero, Nat.or_comm, Nat.mul_comm (bit % 2),
      ← Nat.two_pow_add_eq_or_of_lt h.buf, Nat.add_comm]
  have hlen : (bitsLE w.bitcnt w.bitbuf ++ [bit.testBit 0]).length = w.bitcnt + 1 := by simp
  have hlt := ofLE_lt (bitsLE w.bitcnt w.bitbuf ++ [bit.testBit 0])
  have hback := bitsLE_ofLE (bitsLE w.bitcnt w.bitbuf ++ [bit.testBit 0])
  rw [hlen] at hlt hback
  unfold putbit
  dsimp only
  rw [hor]
  split
  · rename_i hfull
    rw [hfull] at hlt hback
    refine ⟨⟨Nat.zero_lt_succ 7, Nat.one_pos⟩, ?_⟩
    have hbyte : byteBits (UInt8.ofNat (ofLE (bitsLE w.bitcnt w.bitbuf ++ [bit.testBit 0]))) =
        bitsLE w.bitcnt w.bitbuf ++ [bit.testBit 0] := by
      rw [byteBits, UInt8.toNat_ofNat', Nat.mod_eq_of_lt hlt, hback]
    simp only [BitW.bits, flatMap_append, flatMap_singleton, hbyte, bitsLE,
      append_nil, append_assoc]
  · rename_i hfull
    refine ⟨⟨?_, hlt⟩, ?_⟩
    · have := h.cnt
      dsimp only
      omega
    · simp only [BitW.bits, hback, append_assoc]

theorem putbits_bits (h : w.Ok) (val n : Nat) :
    (putbits w val n).Ok ∧ (putbits w val n).bits = w.bits ++ bitsLE n val := by
  induction n generalizing w val with
  | zero => exact ⟨h, by simp [putbits, bitsLE]⟩
  | succ n ih =>
    obtain ⟨hok, hbits⟩ := putbit_bits h (val % 2)
    obtain ⟨hok', hbits'⟩ := ih hok (val / 2)
    refine ⟨hok', ?_⟩
    have hbit : (val % 2).testBit 0 = val.testBit 0 := by
      rw [Nat.testBit_zero, Nat.testBit_zero, Nat.mod_mod]
    rw [putbits, hbits', hbits, hbit, append_assoc]
    rfl

theorem putbitsRev_bits (h : w.Ok) (val n : Nat) :
    (putbitsRev w val n).Ok ∧ (putbitsRev w val n).bits = w.bits ++ bitsBE n val := by
  induction n generalizing w with
  | zero => exact ⟨h, by simp [putbitsRev, bitsBE]⟩
  | succ n ih =>
    obtain ⟨hok, hbits⟩ := putbit_bits h (val / 2 ^ n % 2)
    obtain ⟨hok', hbits'⟩ := ih hok
    refine ⟨hok', ?_⟩
    have hbit : (val / 2 ^ n % 2).testBit 0 = val.testBit n := by
      rw [Nat.testBit_zero, Nat.mod_mod, Nat.testBit_eq_decide_div_mod_eq]
    rw [putbitsRev, hbits', hbits, hbit, append_assoc]
    rfl

theorem flushBits_bits (h : w.Ok) :
    ∃ pad, pad.length < 8 ∧ (flushBits w).flatMap byteBits = w.bits ++ pad := by
  unfold flushBits
  split
  · rename_i hc
    exact ⟨[], by decide, by simp [BitW.bits, hc, bitsLE]⟩
  · rename_i hc
    have hlt : w.bitbuf < 2 ^ 8 :=
      Nat.lt_of_lt_of_le h.buf (Nat.pow_le_pow_right (by decide) h.cnt.le)
    have height : 8 = w.bitcnt + (8 - w.bitcnt) := by
      have := h.cnt
      omega
    have hbyte : byteBits (UInt8.ofNat w.bitbuf) =
        bitsLE w.bitcnt w.bitbuf ++ bitsLE (8 - w.bitcnt) (w.bitbuf / 2 ^ w.bitcnt) := by
      rw [byteBits, UInt8.toNat_ofNat', Nat.mod_eq_of_lt hlt, ← bitsLE_add, ← height]
    refine ⟨bitsLE (8 - w.bitcnt) (w.bitbuf / 2 ^ w.bitcnt), ?_, ?_⟩
    · rw [length_bitsLE]
      omega
    · rw [flatMap_append, flatMap_singleton, hbyte, BitW.bits, append_assoc]

end Writer

end Verkos.Vgzip
