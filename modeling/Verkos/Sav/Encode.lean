import Verkos.Lib.Fields
import Verkos.Sav.Arm

/-!
# The words of branches, addresses and stack adjustments

The encoders of `arm.c` that a fixup writes again, and `decode`, what the architecture makes of such
a word. A displacement is kept to the width of its field and says so nowhere; what comes back is the
displacement itself exactly when it fits.
-/

namespace Verkos.Sav

open Verkos.Lib
open BitVec (extractLsb'_or)

attribute [local instance] neZero32

/-! ## Encoders -/

/-- An operation and 26 bits of displacement. -/
def word26 (op : BitVec 32) (off26 : Int) : BitVec 32 := op ||| field (BitVec.ofInt 32 off26) 26 0

def aB (off26 : Int) : BitVec 32 := word26 0x14000000 off26

def aBl (off26 : Int) : BitVec 32 := word26 0x94000000 off26

/-- An operation, 19 bits of displacement, and a condition or a register of `n` bits. -/
def word19 (op : BitVec 32) (n : Nat) (what : BitVec 32) (off19 : Int) : BitVec 32 :=
  op ||| field (BitVec.ofInt 32 off19) 19 5 ||| field what n 0

def aBcond (cond : BitVec 32) (off19 : Int) : BitVec 32 := word19 0x54000000 4 cond off19

def aCbz (rt : BitVec 32) (off19 : Int) : BitVec 32 := word19 0xB4000000 5 rt off19

def aCbnz (rt : BitVec 32) (off19 : Int) : BitVec 32 := word19 0xB5000000 5 rt off19

/-- The page is in two parts, the low one above the high one. -/
def aAdrp (rd : BitVec 32) (imm21 : Int) : BitVec 32 :=
  0x90000000 ||| field (BitVec.ofInt 32 imm21) 2 29 ||| field (BitVec.ofInt 32 imm21 >>> 2) 19 5 |||
    field rd 5 0

/-- An operation, twelve bits that may be shifted by as many, and two registers. -/
def word12 (op rd rn imm12 : BitVec 32) (sh : Bool) : BitVec 32 :=
  op ||| field (if sh then 1 else 0) 1 22 ||| field imm12 12 10 ||| field rn 5 5 ||| field rd 5 0

def aAddImm (rd rn imm12 : BitVec 32) (sh : Bool) : BitVec 32 := word12 0x91000000 rd rn imm12 sh

def aSubImm (rd rn imm12 : BitVec 32) (sh : Bool) : BitVec 32 := word12 0xD1000000 rd rn imm12 sh

/-- The number of a condition. -/
def Cond.code : Cond → Nat
  | .eq => 0
  | .ne => 1
  | .hs => 2
  | .lo => 3
  | .hi => 8
  | .ls => 9
  | .ge => 10
  | .lt => 11
  | .gt => 12
  | .le => 13

/-! ## Decoding -/

def condOf (c : BitVec 4) : Option Cond :=
  [Cond.eq, .ne, .hs, .lo, .hi, .ls, .ge, .lt, .gt, .le].find? fun k => k.code = c.toNat

def regOf (r : BitVec 5) : Reg := Fin.ofNat 32 r.toNat

/-- What the processor reads in a word, for the instructions here. -/
def decode (w : BitVec 32) : Option Instr :=
  let rd := regOf (w.extractLsb' 0 5)
  let rn := regOf (w.extractLsb' 5 5)
  let imm19 := (w.extractLsb' 5 19).toInt
  let imm26 := (w.extractLsb' 0 26).toInt
  let imm12 := w.extractLsb' 10 12
  let sh : Bool := w.extractLsb' 22 1 = 1
  if w.extractLsb' 26 6 = 5 then some (.b imm26)
  else if w.extractLsb' 26 6 = 37 then some (.bl imm26)
  else if w.extractLsb' 24 8 = 0x54 ∧ w.extractLsb' 4 1 = 0 then
    (condOf (w.extractLsb' 0 4)).map fun c => .bcond c imm19
  else if w.extractLsb' 24 8 = 0xB4 then some (.cbz rd imm19)
  else if w.extractLsb' 24 8 = 0xB5 then some (.cbnz rd imm19)
  else if w.extractLsb' 31 1 = 1 ∧ w.extractLsb' 24 5 = 0x10 then
    some (.adrp rd (w.extractLsb' 5 19 ++ w.extractLsb' 29 2).toInt)
  else if w.extractLsb' 23 9 = 0x122 then some (.addImm rd rn imm12 sh)
  else if w.extractLsb' 23 9 = 0x1A2 then some (.subImm rd rn imm12 sh)
  else none

variable {off : Int} {rd rn : Reg} {op imm what w : BitVec 32} {sh : Bool} {n : Nat}

theorem regOf_word (rd : Reg) : regOf ((BitVec.ofNat 32 rd.val).setWidth 5) = rd := by
  apply Fin.ext
  simp [regOf, Fin.ofNat]

theorem word26_parts (hop : op.extractLsb' 0 26 = 0) (hw : word26 op off = w) :
    w.extractLsb' 26 6 = op.extractLsb' 26 6 ∧
      w.extractLsb' 0 26 = (BitVec.ofInt 32 off).setWidth 26 := by
  constructor
  · simp (disch := decide) [← hw, word26, extractLsb'_or, extract_field_apart]
  · simp (disch := decide) [← hw, word26, extractLsb'_or, extract_field, hop]

theorem decode_aB : decode (aB off) = some (.b (off.bmod (2 ^ 26))) := by
  generalize hw : aB off = w
  obtain ⟨hop, hoff⟩ := word26_parts (by decide) hw
  simp only [decode, hop, hoff, toInt_setWidth_ofInt (show 26 ≤ 32 by decide)]
  rfl

theorem decode_aBl : decode (aBl off) = some (.bl (off.bmod (2 ^ 26))) := by
  generalize hw : aBl off = w
  obtain ⟨hop, hoff⟩ := word26_parts (by decide) hw
  simp only [decode, hop, hoff, toInt_setWidth_ofInt (show 26 ≤ 32 by decide)]
  rfl

theorem word19_parts (hn : n ≤ 5) (hop : op.extractLsb' 0 24 = 0) (hw : word19 op n what off = w) :
    w.extractLsb' 24 8 = op.extractLsb' 24 8 ∧ w.extractLsb' 0 n = what.setWidth n ∧
      w.extractLsb' 5 19 = (BitVec.ofInt 32 off).setWidth 19 := by
  have hlow := extract_part hop 0 n (by omega)
  have hmid := extract_part hop 5 19 (by decide)
  refine ⟨?_, ?_, ?_⟩
  · simp (disch := omega) [← hw, word19, extractLsb'_or, extract_field_apart]
  · rw [Nat.zero_add] at hlow
    simp (disch := omega) [← hw, word19, extractLsb'_or, extract_field, extract_field_apart,
      hlow]
  · rw [Nat.zero_add] at hmid
    simp (disch := omega) [← hw, word19, extractLsb'_or, extract_field, extract_field_apart,
      hmid]

theorem decode_aBcond (c : Cond) :
    decode (aBcond (BitVec.ofNat 32 c.code) off) = some (.bcond c (off.bmod (2 ^ 19))) := by
  generalize hw : aBcond (BitVec.ofNat 32 c.code) off = w
  obtain ⟨hop, hcond, hoff⟩ := word19_parts (by decide) (by decide) hw
  have h26 := extract_part hop 2 6 (by decide)
  have h4 : w.extractLsb' 4 1 = 0 := by
    simp (disch := decide) [← hw, aBcond, word19, extractLsb'_or, extract_field_apart]
  have hc : condOf ((BitVec.ofNat 32 c.code).setWidth 4) = some c := by cases c <;> decide
  simp only [decode, hop, h26, h4, hcond, hoff, hc, toInt_setWidth_ofInt (show 19 ≤ 32 by decide)]
  rfl

theorem decode_aCbz :
    decode (aCbz (BitVec.ofNat 32 rd.val) off) = some (.cbz rd (off.bmod (2 ^ 19))) := by
  generalize hw : aCbz (BitVec.ofNat 32 rd.val) off = w
  obtain ⟨hop, hrd, hoff⟩ := word19_parts (by decide) (by decide) hw
  have h26 := extract_part hop 2 6 (by decide)
  simp only [decode, hop, h26, hrd, hoff, regOf_word,
    toInt_setWidth_ofInt (show 19 ≤ 32 by decide)]
  rfl

theorem decode_aCbnz :
    decode (aCbnz (BitVec.ofNat 32 rd.val) off) = some (.cbnz rd (off.bmod (2 ^ 19))) := by
  generalize hw : aCbnz (BitVec.ofNat 32 rd.val) off = w
  obtain ⟨hop, hrd, hoff⟩ := word19_parts (by decide) (by decide) hw
  have h26 := extract_part hop 2 6 (by decide)
  simp only [decode, hop, h26, hrd, hoff, regOf_word,
    toInt_setWidth_ofInt (show 19 ≤ 32 by decide)]
  rfl

theorem adrp_parts (x : BitVec 32) : (x >>> 2).setWidth 19 ++ x.setWidth 2 = x.setWidth 21 := by
  ext i hi
  rw [BitVec.getElem_append]
  split
  · simp
  · simp
    congr 1
    omega

theorem decode_aAdrp :
    decode (aAdrp (BitVec.ofNat 32 rd.val) off) = some (.adrp rd (off.bmod (2 ^ 21))) := by
  generalize hw : aAdrp (BitVec.ofNat 32 rd.val) off = w
  have hlo : w.extractLsb' 29 2 = (BitVec.ofInt 32 off).setWidth 2 := by
    simp (disch := decide) [← hw, aAdrp, extractLsb'_or, extract_field, extract_field_apart]
  have hhi : w.extractLsb' 5 19 = (BitVec.ofInt 32 off >>> 2).setWidth 19 := by
    simp (disch := decide) [← hw, aAdrp, extractLsb'_or, extract_field, extract_field_apart]
  have hrd : w.extractLsb' 0 5 = (BitVec.ofNat 32 rd.val).setWidth 5 := by
    simp (disch := decide) [← hw, aAdrp, extractLsb'_or, extract_field, extract_field_apart]
  have hop : w.extractLsb' 31 1 = 1 ∧ w.extractLsb' 24 5 = 0x10 := by
    simp (disch := decide) [← hw, aAdrp, extractLsb'_or, extract_field_apart]
  have h1 : ∀ v : BitVec 6, v.extractLsb' 0 1 = 1 → w.extractLsb' 26 6 ≠ v := by
    intro v hv h
    have h26 := (extract_part h 0 1 (by decide)).trans hv
    have h24 := extract_part hop.2 2 1 (by decide)
    exact absurd (h24.symm.trans h26) (by decide)
  have h2 : ∀ v : BitVec 8, v.extractLsb' 0 5 ≠ 0x10 → w.extractLsb' 24 8 ≠ v := by
    intro v hv h
    exact hv ((extract_part h 0 5 (by decide)).symm.trans hop.2)
  rw [decode]
  simp only [h1 5 (by decide), h1 37 (by decide), h2 0x54 (by decide), h2 0xB4 (by decide),
    h2 0xB5 (by decide), hop, hlo, hhi, hrd, adrp_parts, regOf_word, false_and, and_self, if_false,
    if_true, toInt_setWidth_ofInt (show 21 ≤ 32 by decide)]

theorem word12_parts (hop : op.extractLsb' 0 23 = 0)
    (hw : word12 op (BitVec.ofNat 32 rd.val) (BitVec.ofNat 32 rn.val) imm sh = w) :
    w.extractLsb' 23 9 = op.extractLsb' 23 9 ∧ w.extractLsb' 22 1 = (if sh then 1 else 0) ∧
      w.extractLsb' 10 12 = imm.setWidth 12 ∧
      w.extractLsb' 5 5 = (BitVec.ofNat 32 rn.val).setWidth 5 ∧
      w.extractLsb' 0 5 = (BitVec.ofNat 32 rd.val).setWidth 5 := by
  have h22 : op.extractLsb' 22 1 = 0 := extract_part hop 22 1 (by decide)
  have h10 := extract_part hop 10 12 (by decide)
  have h5 := extract_part hop 5 5 (by decide)
  have h0 := extract_part hop 0 5 (by decide)
  rw [Nat.zero_add] at h10 h5 h0
  refine ⟨?_, ?_, ?_, ?_, ?_⟩
  · simp (disch := decide) [← hw, word12, extractLsb'_or, extract_field_apart]
  · cases sh <;> simp (disch := decide) [← hw, word12, extractLsb'_or, extract_field,
      extract_field_apart, h22]
  · simp (disch := decide) [← hw, word12, extractLsb'_or, extract_field,
      extract_field_apart, h10]
  · simp (disch := decide) [← hw, word12, extractLsb'_or, extract_field,
      extract_field_apart, h5]
  · simp (disch := decide) [← hw, word12, extractLsb'_or, extract_field,
      extract_field_apart, h0]

theorem decode_aAddImm : decode (aAddImm (BitVec.ofNat 32 rd.val) (BitVec.ofNat 32 rn.val) imm sh) =
    some (.addImm rd rn (imm.setWidth 12) sh) := by
  generalize hw : aAddImm (BitVec.ofNat 32 rd.val) (BitVec.ofNat 32 rn.val) imm sh = w
  obtain ⟨hop, hsh, himm, hrn, hrd⟩ := word12_parts (by decide) hw
  have h24 := extract_part hop 1 8 (by decide)
  have h26 := extract_part hop 3 6 (by decide)
  have hpage := extract_part h24 0 5 (by decide)
  simp only [decode, hop, h24, h26, hpage, hrd, hrn, himm, hsh, regOf_word]
  rw [if_neg (by decide), if_neg (by decide), if_neg fun h => absurd h.1 (by decide),
    if_neg (by decide), if_neg (by decide), if_neg fun h => absurd h.2 (by decide)]
  cases sh <;> rfl

theorem decode_aSubImm : decode (aSubImm (BitVec.ofNat 32 rd.val) (BitVec.ofNat 32 rn.val) imm sh) =
    some (.subImm rd rn (imm.setWidth 12) sh) := by
  generalize hw : aSubImm (BitVec.ofNat 32 rd.val) (BitVec.ofNat 32 rn.val) imm sh = w
  obtain ⟨hop, hsh, himm, hrn, hrd⟩ := word12_parts (by decide) hw
  have h24 := extract_part hop 1 8 (by decide)
  have h26 := extract_part hop 3 6 (by decide)
  have hpage := extract_part h24 0 5 (by decide)
  simp only [decode, hop, h24, h26, hpage, hrd, hrn, himm, hsh, regOf_word]
  rw [if_neg (by decide), if_neg (by decide), if_neg fun h => absurd h.1 (by decide),
    if_neg (by decide), if_neg (by decide), if_neg fun h => absurd h.2 (by decide)]
  cases sh <;> rfl

end Verkos.Sav
