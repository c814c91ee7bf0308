import Verkos.Sav.Args
import Verkos.Sav.Encode

/-!
# Every fixup, and every frame

The last pass of `gen_unit` writes each branch and each address again, now that both ends exist. It
masks the displacement to its field and reports nothing, and so does `emit_sub_sp` with the size of
a frame. `Means` says what the word of an item has to mean, `Near` when its target is near enough:
a word means what it should exactly then.
-/

namespace Verkos.Sav

open Verkos.Lib (Emit field)
open BitVec
open Option (some.inj map_eq_some_iff bind_some)

/-! ## The pass -/

/-- The word of an item that waits for its fixup, as it was emitted. -/
def Item.slot : Item → Option (BitVec 32)
  | .b _ => some (aB 0)
  | .bl _ => some (aBl 0)
  | .bcond c _ => some (aBcond (BitVec.ofNat 32 c.code) 0)
  | .cbz rt _ => some (aCbz (BitVec.ofNat 32 rt.val) 0)
  | .cbnz rt _ => some (aCbnz (BitVec.ofNat 32 rt.val) 0)
  | .adrp rd _ _ => some (aAdrp (BitVec.ofNat 32 rd.val) 0)
  | .add12 rd _ _ => some (aAddImm (BitVec.ofNat 32 rd.val) (BitVec.ofNat 32 rd.val) 0 false)
  | .ins _ | .place _ => none

/-- From one instruction to another, by their bytes. -/
def delta (target at' : Nat) : Int := (4 * (target : Int) - 4 * at').tdiv 4

/-- A fixup, for the instruction at `at'`, whose word is `slot` so far. -/
def fixup (lab : Nat → Option Nat) (rodataAt at' : Nat) (slot : BitVec 32) :
    Item → Option (BitVec 32)
  | .b l => (lab l).map fun t => aB (delta t at')
  | .bl l => (lab l).map fun t => aBl (delta t at')
  | .bcond _ l => (lab l).map fun t => aBcond (slot &&& 15) (delta t at')
  | .cbz _ l => (lab l).map fun t => aCbz (slot &&& 31) (delta t at')
  | .cbnz _ l => (lab l).map fun t => aCbnz (slot &&& 31) (delta t at')
  | .adrp _ s off =>
    let target := BitVec.ofInt 64 (sectBase rodataAt s + off)
    let pc := BitVec.ofNat 64 (textVa + 4 * at')
    some (aAdrp (slot &&& 31) (target >>> 12 - pc >>> 12).toInt)
  | .add12 _ s off =>
    let target := BitVec.ofInt 64 (sectBase rodataAt s + off)
    some (aAddImm (slot &&& 31) (slot >>> 5 &&& 31) ((target &&& 0xFFF).truncate 32) false)
  | .ins _ | .place _ => none

/-- The word that stands at instruction `k` in the end, if it is one of those. -/
def fixedAt (its : List Item) (k : Nat) : Option (BitVec 32) :=
  ((coded its)[k]?).bind fun it =>
    it.slot.bind fun slot => fixup (labelPos · its) (rodataOff its) k slot it

/-- The words of `emit_sub_sp`. -/
def subSpWords (amount : Int) : List (BitVec 32) :=
  (if 4096 ≤ amount then [aSubImm 31 31 (BitVec.ofInt 32 (amount / 4096)) true] else []) ++
    if amount % 4096 ≠ 0 then [aSubImm 31 31 (BitVec.ofInt 32 (amount % 4096)) false] else []

/-! ## What is asked of it -/

/-- The label is placed, and the displacement is the way there. -/
def Leads (its : List Item) (k l : Nat) (w : BitVec 32) (i : Int → Instr) : Prop :=
  ∃ t, labelPos l its = some t ∧ decode w = some (i ((t : Int) - k))

/-- What the word of an item has to mean. -/
def Means (its : List Item) (k : Nat) (w : BitVec 32) : Item → Prop
  | .b l => Leads its k l w .b
  | .bl l => Leads its k l w .bl
  | .bcond c l => Leads its k l w (.bcond c)
  | .cbz rt l => Leads its k l w (.cbz rt)
  | .cbnz rt l => Leads its k l w (.cbnz rt)
  | .adrp rd s off => decode w =
      some (.adrp rd ((sectBase (rodataOff its) s + off) / 4096 - ((textVa : Int) + 4 * k) / 4096))
  | .add12 rd s off => ∃ imm, decode w = some (.addImm rd rd imm false) ∧
      (imm.toNat : Int) = (sectBase (rodataOff its) s + off) % 4096
  | .ins _ | .place _ => True

/-- The label of a branch is at most so many instructions away, either way. -/
def Within (its : List Item) (k l n : Nat) : Prop :=
  ∀ t, labelPos l its = some t → -(n : Int) ≤ (t : Int) - k ∧ (t : Int) - k < n

/-- The target of an item is near enough for its field. -/
def Near (its : List Item) (k : Nat) : Item → Prop
  | .b l | .bl l => Within its k l (2 ^ 25)
  | .bcond _ l | .cbz _ l | .cbnz _ l => Within its k l (2 ^ 18)
  | .adrp _ s off => InReach (sectBase (rodataOff its) s + off) k
  | .add12 .. | .ins _ | .place _ => True

/-- The bytes that some words take off the stack pointer, if they do just that. -/
def spTaken : List (BitVec 32) → Option Int
  | [] => some 0
  | w :: ws =>
    match decode w, spTaken ws with
    | some (.subImm rd rn imm sh), some n =>
      if rd = SP ∧ rn = SP then some (imm.toNat * (if sh then 4096 else 1) + n) else none
    | _, _ => none

/-! ## A fixup -/

variable {its : List Item} {k : Nat} {it : Item} {w slot : BitVec 32}

theorem delta_eq (t k : Nat) : delta t k = (t : Int) - k := by
  rw [delta, ← Int.mul_sub, Int.mul_tdiv_cancel_left _ (by decide)]

theorem bmod_eq_iff {n : Nat} {d : Int} (hn : 0 < n) :
    d.bmod (2 * n) = d ↔ -(n : Int) ≤ d ∧ d < n := by
  constructor
  · intro h
    have hlo := Int.le_bmod (x := d) (show 0 < 2 * n by omega)
    have hhi := Int.bmod_lt (x := d) (show 0 < 2 * n by omega)
    omega
  · rintro ⟨hlo, hhi⟩
    exact Int.bmod_eq_of_le (by omega) (by omega)

/-- A branch means what it should when its label is near enough. -/
theorem leads_iff {l n : Nat} {i : Int → Instr} (hn : 0 < n) (hi : ∀ a b, i a = i b → a = b)
    {t : Nat} (ht : labelPos l its = some t)
    (hw : decode w = some (i (((t : Int) - k).bmod (2 * n)))) :
    Leads its k l w i ↔ Within its k l n := by
  constructor
  · rintro ⟨t', ht', hw'⟩ t'' ht''
    obtain rfl := some.inj (ht.symm.trans ht')
    obtain rfl := some.inj (ht.symm.trans ht'')
    have hsame := hi _ _ (some.inj (hw.symm.trans hw'))
    exact (bmod_eq_iff hn).1 hsame
  · intro h
    refine ⟨t, ht, ?_⟩
    rw [hw, (bmod_eq_iff hn).2 (h t ht)]

theorem toNat_page (a : Int) : ((BitVec.ofInt 64 a >>> 12).toNat : Int) = a / 4096 % 2 ^ 52 := by
  rw [toNat_ushiftRight, toNat_ofInt, Nat.shiftRight_eq_div_pow]
  omega

theorem toInt_page (a : Int) : (BitVec.ofInt 64 a >>> 12).toInt = a / 4096 % 2 ^ 52 := by
  have hpage := toNat_page a
  rw [toInt_eq_toNat_of_lt (by omega), hpage]

theorem page_bmod (a b : Int) :
    ((BitVec.ofInt 64 a >>> 12 - BitVec.ofInt 64 b >>> 12).toInt).bmod (2 ^ 21) =
      (a / 4096 - b / 4096).bmod (2 ^ 21) := by
  rw [toInt_sub, Int.bmod_bmod_of_dvd (by decide), toInt_page, toInt_page,
    ← Int.emod_bmod, ← Int.emod_bmod (a / 4096 - b / 4096)]
  congr 1
  omega

/-! ## The words as they were emitted -/

theorem slot_bcond (c : Cond) : aBcond (BitVec.ofNat 32 c.code) 0 &&& 15 = BitVec.ofNat 32 c.code := by
  cases c <;> decide

theorem slot_cbz (rt : Reg) : aCbz (BitVec.ofNat 32 rt.val) 0 &&& 31 = BitVec.ofNat 32 rt.val := by
  revert rt
  decide

theorem slot_cbnz (rt : Reg) : aCbnz (BitVec.ofNat 32 rt.val) 0 &&& 31 = BitVec.ofNat 32 rt.val := by
  revert rt
  decide

theorem slot_adrp (rd : Reg) : aAdrp (BitVec.ofNat 32 rd.val) 0 &&& 31 = BitVec.ofNat 32 rd.val := by
  revert rd
  decide

theorem slot_add12 (rd : Reg) :
    aAddImm (BitVec.ofNat 32 rd.val) (BitVec.ofNat 32 rd.val) 0 false &&& 31 =
        BitVec.ofNat 32 rd.val ∧
      aAddImm (BitVec.ofNat 32 rd.val) (BitVec.ofNat 32 rd.val) 0 false >>> 5 &&& 31 =
        BitVec.ofNat 32 rd.val := by
  revert rd
  decide

/-! ## The pass, item by item -/

theorem means_iff (hs : it.slot = some slot)
    (hw : fixup (labelPos · its) (rodataOff its) k slot it = some w) :
    Means its k w it ↔ Near its k it := by
  cases it with
  | ins i | place l => cases hs
  | b l =>
    obtain ⟨t, ht, rfl⟩ := map_eq_some_iff.1 hw
    refine leads_iff (n := 2 ^ 25) (by decide) (fun a b h => Instr.b.inj h) ht ?_
    rw [decode_aB, delta_eq]
    rfl
  | bl l =>
    obtain ⟨t, ht, rfl⟩ := map_eq_some_iff.1 hw
    refine leads_iff (n := 2 ^ 25) (by decide) (fun a b h => Instr.bl.inj h) ht ?_
    rw [decode_aBl, delta_eq]
    rfl
  | bcond c l =>
    obtain ⟨t, ht, rfl⟩ := map_eq_some_iff.1 hw
    obtain rfl := some.inj hs
    refine leads_iff (n := 2 ^ 18) (by decide) (fun a b h => (Instr.bcond.inj h).2) ht ?_
    rw [slot_bcond, decode_aBcond, delta_eq]
    rfl
  | cbz rt l =>
    obtain ⟨t, ht, rfl⟩ := map_eq_some_iff.1 hw
    obtain rfl := some.inj hs
    refine leads_iff (n := 2 ^ 18) (by decide) (fun a b h => (Instr.cbz.inj h).2) ht ?_
    rw [slot_cbz, decode_aCbz, delta_eq]
    rfl
  | cbnz rt l =>
    obtain ⟨t, ht, rfl⟩ := map_eq_some_iff.1 hw
    obtain rfl := some.inj hs
    refine leads_iff (n := 2 ^ 18) (by decide) (fun a b h => (Instr.cbnz.inj h).2) ht ?_
    rw [slot_cbnz, decode_aCbnz, delta_eq]
    rfl
  | adrp rd s off =>
    obtain rfl := some.inj hs
    obtain rfl := some.inj hw
    have hpc : BitVec.ofNat 64 (textVa + 4 * k) = BitVec.ofInt 64 ((textVa : Int) + 4 * k) := by
      rw [← ofInt_natCast]
      rfl
    rw [Means, Near, InReach, slot_adrp, decode_aAdrp, hpc, page_bmod]
    generalize (sectBase (rodataOff its) s + off) / 4096 - ((textVa : Int) + 4 * k) / 4096 = d
    have hfits : d.bmod (2 ^ 21) = d ↔ -2 ^ 20 ≤ d ∧ d < 2 ^ 20 := by
      rw [Nat.pow_succ' (n := 20)]
      exact bmod_eq_iff (by decide)
    rw [← hfits]
    constructor
    · intro h
      exact (Instr.adrp.inj (some.inj h)).2
    · intro h
      rw [h]
  | add12 rd s off =>
    obtain rfl := some.inj hs
    obtain rfl := some.inj hw
    rw [Means, (slot_add12 rd).1, (slot_add12 rd).2, decode_aAddImm]
    refine ⟨fun _ => trivial, fun _ => ⟨_, rfl, ?_⟩⟩
    · generalize sectBase (rodataOff its) s + off = target
      have hmask : BitVec.ofInt 64 target &&& 0xFFF =
          BitVec.ofNat 64 ((BitVec.ofInt 64 target).toNat % 2 ^ 12) := by
        apply eq_of_toNat_eq
        rw [toNat_and, toNat_ofNat]
        change (BitVec.ofInt 64 target).toNat &&& (2 ^ 12 - 1) = _
        rw [Nat.and_two_pow_sub_one_eq_mod]
        omega
      rw [hmask]
      simp only [toNat_setWidth, toNat_ofNat, toNat_ofInt]
      omega

/-! ## Frames -/

theorem spTaken_subImm (amount : Int) (sh : Bool) (ws : List (BitVec 32)) :
    spTaken (aSubImm 31 31 (BitVec.ofInt 32 amount) sh :: ws) =
      (spTaken ws).map (amount % 4096 * (if sh then 4096 else 1) + ·) := by
  have himm : ((BitVec.setWidth 12 (BitVec.ofInt 32 amount)).toNat : Int) = amount % 4096 := by
    rw [toNat_setWidth, toNat_ofInt]
    omega
  have hdecode : decode (aSubImm 31 31 (BitVec.ofInt 32 amount) sh) =
      some (.subImm SP SP (BitVec.setWidth 12 (BitVec.ofInt 32 amount)) sh) :=
    @decode_aSubImm SP SP (BitVec.ofInt 32 amount) sh
  rw [spTaken, hdecode]
  cases hrest : spTaken ws with
  | none => rfl
  | some n =>
    dsimp only
    rw [if_pos ⟨rfl, rfl⟩, himm]
    rfl

theorem spTaken_subSpWords (amount : Int) : spTaken (subSpWords amount) =
    some ((if 4096 ≤ amount then amount / 4096 % 4096 * 4096 else 0) + amount % 4096) := by
  have hlow : spTaken (if amount % 4096 ≠ 0 then
      [aSubImm 31 31 (BitVec.ofInt 32 (amount % 4096)) false] else []) = some (amount % 4096) := by
    split_ifs with h
    · rw [spTaken_subImm, spTaken]
      simp
    · have hzero : amount % 4096 = 0 := by omega
      rw [hzero]
      rfl
  rw [subSpWords]
  by_cases h : 4096 ≤ amount
  · rw [if_pos h, if_pos h, List.singleton_append, spTaken_subImm, hlow]
    rfl
  · rw [if_neg h, if_neg h, List.nil_append, hlow, Int.zero_add]

theorem frame_reserved_iff (amount : Int) :
    spTaken (subSpWords amount) = some amount ↔ 0 ≤ amount ∧ amount < 2 ^ 24 := by
  rw [spTaken_subSpWords, Option.some.injEq]
  split_ifs <;> omega

/-! ## The whole buffer -/

theorem fixedAt_isSome {code : List Instr} (h : resolve its = some code)
    (hk : (coded its)[k]? = some it) (hs : it.slot ≠ none) : ∃ slot w, it.slot = some slot ∧
      fixup (labelPos · its) (rodataOff its) k slot it = some w ∧ fixedAt its k = some w := by
  obtain ⟨i, -, hr⟩ := resolve_item h hk
  obtain ⟨slot, hslot⟩ := Option.ne_none_iff_exists'.1 hs
  have hfix : ∃ w, fixup (labelPos · its) (rodataOff its) k slot it = some w := by
    cases it with
    | ins i | place l => exact absurd rfl hs
    | adrp rd s off | add12 rd s off => exact ⟨_, rfl⟩
    | b l | bl l | bcond c l | cbz rt l | cbnz rt l =>
      obtain ⟨t, ht, -⟩ := map_eq_some_iff.1 hr
      exact ⟨_, map_eq_some_iff.2 ⟨t, ht, rfl⟩⟩
  obtain ⟨w, hw⟩ := hfix
  refine ⟨slot, w, hslot, hw, ?_⟩
  rw [fixedAt, hk, bind_some, hslot, bind_some, hw]

/-- `entry fn main() -> i64 { var a: [16777216]u8; return 0; }` -/
def largeFrame : SavUnit :=
  mainOf [
    .letS ⟨1, 26⟩ true "a" (.typed (.array .u8 16777216) none),
    .ret ⟨1, 47⟩ (some (.int ⟨1, 54⟩ 0))]

end Verkos.Sav
