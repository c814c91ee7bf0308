import Verkos.Lib.Steps
import Verkos.Sav.Buffer
import Verkos.Sav.Ranges

/-!
# The compiler's own data

Behind the globals `gen_unit` reserves a word for the stack pointer, a buffer for a path, one for a
number, and an area in which the report of a failed range check keeps what it was handed. Five
functions emit the code that writes there. `Helper.Lands` says of one of them that every store its
code executes, from its first instruction on and until it returns, lands in what was reserved for
it.

The addresses are those the image forms: an address pair at instruction `k` gives `formed`, which is
another one when the page is out of reach.
-/

namespace Verkos.Sav

open Verkos.Lib (Emit)
open List (append_assoc mem_append mem_cons mem_map mem_of_getElem? mem_singleton not_mem_nil)
open Machine (getSp_x get_x goto_pc goto_x holds_ge setSp_eq set_next set_x_of_ne set_x_self)
open Verkos.Lib.Emit (bind_ok out_ok pure_ok)
open Option (some.injEq some.inj map_eq_some_iff)

attribute [local instance] neZero4

/-! ## The pieces -/

/-- The pieces that write the data, and `gen_argget`, which reads it. -/
inductive Helper where
  | start | argget | cstr | num | range
deriving DecidableEq

namespace Helper

/-- The first instruction of a piece. -/
def entry (its : List Item) : Helper → Option Nat
  | .start => some 0
  | .argget => labelPos lblArgget its
  | .cstr => labelPos lblCstr its
  | .num => labelPos lblNum its
  | .range => labelPos lblRange its

/-- What `gen_unit` reserves for a piece: where in `.bss`, and how many bytes. `gen_argget` is handed
the word that the entry code writes. -/
def region (gs : List Global) : Helper → Int × Nat
  | .start | .argget => (bssSp gs, 8)
  | .cstr => (bssCstr gs, 256)
  | .num => (bssNumbuf gs, 32)
  | .range => (bssSave gs, 16)

end Helper

/-- What an instruction writes. -/
def Instr.stores (m : Machine) : Instr → Option (Word × Nat)
  | .str _ rn off sz => some (m.getSp rn + BitVec.ofInt 64 off, sz.bytes)
  | .stpPre _ _ rn off => some (m.getSp rn + BitVec.ofInt 64 off, 16)
  | _ => none

/-- One step of a piece. A call is a step of its own: what it comes back with is open. -/
def stepOver (code : List Instr) (m : Machine) (r : Reply × Machine) : Option Machine :=
  match code[m.pc]? with
  | some (.bl _) => some (r.2.goto (m.pc + 1))
  | _ => step code r.1 m

/-- A run of a piece, from its first instruction on and before it returns. -/
def RunsTo (code : List Instr) (t : Nat) (m : Machine) : Prop :=
  ∃ m₀ rs, m₀.pc = t ∧
    Lib.Run (stepOver code) (fun m _ => code[m.pc]? ≠ some .ret) m₀ rs m

/-- Every store that the code of a piece executes lands in what is reserved for it. -/
def Helper.Lands (c : Compiled) (h : Helper) : Prop :=
  ∀ t m i a n, h.entry c.items = some t → RunsTo c.code t m → c.code[m.pc]? = some i →
    i.stores m = some (a, n) →
      (a - BitVec.ofInt 64 (dataVa + (h.region c.checked.globals).1)).toNat + n ≤
        (h.region c.checked.globals).2

/-! ## Finding a piece -/

/-- A piece stands at instruction `t`, and what it places is not placed before. -/
structure PieceAt (its : List Item) (t : Nat) (l : List Item) : Prop where
  split : ∃ pre post, its = pre ++ (l ++ post) ∧ t = (coded pre).length ∧
    ∀ k, .place k ∈ l → .place k ∉ pre

section Pieces

variable {its l : List Item} {t k j : Nat} {it : Item}

theorem PieceAt.item (h : PieceAt its t l) (hk : (coded l)[k]? = some it) :
    (coded its)[t + k]? = some it := by
  obtain ⟨pre, post, rfl, rfl, -⟩ := h.split
  have hlt := (List.getElem?_eq_some_iff.1 hk).1
  rw [coded_append, List.getElem?_append_right (by omega), coded_append, Nat.add_sub_cancel_left,
    List.getElem?_append_left hlt, hk]

theorem PieceAt.label (h : PieceAt its t l) (hk : labelPos k l = some j) :
    labelPos k its = some (t + j) := by
  obtain ⟨pre, post, rfl, rfl, hfresh⟩ := h.split
  have hmem : .place k ∈ l := by
    obtain ⟨p, q, rfl, -, -⟩ := labelPos_split hk
    simp
  rw [labelPos_append_right (hfresh k hmem), labelPos_append_left _ hk, Option.map_some, Nat.add_comm]

end Pieces

variable {i : Instr} {a : Word} {b : Nat}

section Steps

variable {c : Compiled} {m : Machine} {r : Reply × Machine} {it : Item} {t k : Nat} {l : List Item}

/-- An item that is no call. -/
def Item.goesOn : Item → Bool
  | .bl _ | .ins (.bl _) => false
  | _ => true

theorem resolveItem_goesOn {its : List Item} {pc : Nat} (hit : it.goesOn = true)
    (hr : resolveItem (labelPos · its) (rodataOff its) pc it = some [i]) (off : Int) :
    i ≠ .bl off := by
  rintro rfl
  cases it with
  | ins j =>
    cases hr
    cases hit
  | bl l => cases hit
  | place l | adrp rd s o | add12 rd s o => cases hr
  | b l | bcond c l | cbz rt l | cbnz rt l =>
    obtain ⟨_, -, h⟩ := map_eq_some_iff.1 hr
    cases h

theorem stepOver_step (hk : (coded c.items)[m.pc]? = some it) (hit : it.goesOn = true) :
    stepOver c.code m r = step c.code r.1 m := by
  obtain ⟨i, hi, hr⟩ := resolve_item c.resolved hk
  rw [stepOver, hi]
  cases i with
  | bl off => exact absurd rfl (resolveItem_goesOn hit hr off)
  | _ => rfl

theorem stepOver_near (hk : (coded c.items)[m.pc]? = some it) (hit : it.goesOn = true)
    (hn : Near c.items m.pc it) : stepOver c.code m r = execItem c.items r.1 m it := by
  obtain ⟨i, hi, hr⟩ := resolve_item c.resolved hk
  rw [stepOver_step hk hit, step, hi]
  exact exec_resolved hn hr

theorem PieceAt.within (h : PieceAt c.items t l) {lab j n : Nat} (hpc : m.pc = t + k)
    (hj : labelPos lab l = some j) (hjn : j < k + n) (hkn : k ≤ j + n) :
    Within c.items m.pc lab n := by
  intro t' ht'
  rw [h.label hj] at ht'
  obtain rfl := some.inj ht'
  rw [hpc]
  omega

section Branches

variable {lab j : Nat}

section

variable (h : PieceAt c.items t l) (hpc : m.pc = t + k)
include h hpc

theorem PieceAt.bcond {cnd : Cond} (hk : (coded l)[k]? = some (.bcond cnd lab))
    (hj : labelPos lab l = some j) (hjk : j < k + 2 ^ 18 ∧ k ≤ j + 2 ^ 18) : stepOver c.code m r =
      some (if m.holds cnd then m.goto (t + j) else m.goto (m.pc + 1)) := by
  have hnear : Near c.items m.pc (.bcond cnd lab) := h.within hpc hj hjk.1 hjk.2
  rw [stepOver_near (hpc ▸ h.item hk) rfl hnear, execItem, Machine.toLabel, h.label hj]
  split <;> rfl

theorem PieceAt.cbz {rt : Reg} (hk : (coded l)[k]? = some (.cbz rt lab))
    (hj : labelPos lab l = some j) (hjk : j < k + 2 ^ 18 ∧ k ≤ j + 2 ^ 18) : stepOver c.code m r =
      some (if m.get rt = 0 then m.goto (t + j) else m.goto (m.pc + 1)) := by
  have hnear : Near c.items m.pc (.cbz rt lab) := h.within hpc hj hjk.1 hjk.2
  rw [stepOver_near (hpc ▸ h.item hk) rfl hnear, execItem, Machine.toLabel, h.label hj]
  split <;> rfl

theorem PieceAt.branch (hk : (coded l)[k]? = some (.b lab)) (hj : labelPos lab l = some j)
    (hjk : j < k + 2 ^ 25 ∧ k ≤ j + 2 ^ 25) : stepOver c.code m r = some (m.goto (t + j)) := by
  have hnear : Near c.items m.pc (.b lab) := h.within hpc hj hjk.1 hjk.2
  rw [stepOver_near (hpc ▸ h.item hk) rfl hnear, execItem, Machine.toLabel, h.label hj]
  rfl

theorem PieceAt.plain (hk : (coded l)[k]? = some (.ins i)) (hi : (Item.ins i).goesOn = true) :
    stepOver c.code m r = exec i r.1 m :=
  stepOver_near (hpc ▸ h.item hk) hi trivial

end

end Branches

/-- The word an `adrp` at instruction `k` leaves for `target`. -/
def pageWord (target : Int) (k : Nat) : Word :=
  BitVec.ofInt 64 (((textVa + 4 * k) / 4096 : Nat) +
    (target / 4096 - ((textVa : Int) + 4 * k) / 4096).bmod (2 ^ 21)) <<< 12

theorem stepOver_adrp {rd : Reg} {off : Int} (hk : (coded c.items)[m.pc]? = some (.adrp rd .bss off)) :
    stepOver c.code m r = some ((m.set rd (pageWord (dataVa + off) m.pc)).goto (m.pc + 1)) := by
  obtain ⟨i, hi, hr⟩ := resolve_item c.resolved hk
  cases hr
  rw [stepOver_step hk rfl, step, hi, ← set_next]
  rfl

/-- The second half forms an address, which need not be the one that was meant. -/
theorem stepOver_add12 {rd : Reg} {off : Int} {k : Nat} (hrd : rd ≠ 31)
    (hk : (coded c.items)[m.pc]? = some (.add12 rd .bss off))
    (hx : m.x rd = pageWord (dataVa + off) k) : stepOver c.code m r =
      some ((m.set rd (BitVec.ofInt 64 (formed (dataVa + off) k))).goto (m.pc + 1)) := by
  obtain ⟨i, hi, hr⟩ := resolve_item c.resolved hk
  cases hr
  rw [stepOver_step hk rfl, step, hi, ← pair_value, ← pageWord, ← hx, ← set_next,
    ← setSp_eq hrd, ← getSp_x hrd]
  rfl

end Steps

/-! ## The address of a pair -/

section Formed

variable {target : Int} {k : Nat}

theorem formed_off (target : Int) (k : Nat) : ∃ j : Int, formed target k = target + 2 ^ 33 * j := by
  obtain ⟨j, hj⟩ := @Int.dvd_bmod_sub_self
    (target / 4096 - ((textVa : Int) + 4 * k) / 4096) (2 ^ 21)
  refine ⟨j, ?_⟩
  have hsplit : target % 4096 = target - 4096 * (target / 4096) := by omega
  rw [formed, hsplit]
  generalize (target / 4096 - ((textVa : Int) + 4 * k) / 4096).bmod (2 ^ 21) = page at hj ⊢
  generalize ((textVa : Int) + 4 * k) / 4096 = own at hj ⊢
  generalize target / 4096 = q at hj ⊢
  push_cast at hj
  omega

/-- The pair forms the address it is for. -/
def Forms (target : Int) (k : Nat) : Prop :=
  BitVec.ofInt 64 (formed target k) = BitVec.ofInt 64 target

theorem formed_sub (target : Int) (k : Nat) : ∃ q : Nat,
    (BitVec.ofInt 64 (formed target k) - BitVec.ofInt 64 target).toNat = 2 ^ 33 * q := by
  obtain ⟨j, hj⟩ := formed_off target k
  refine ⟨(j % 2 ^ 31).toNat, ?_⟩
  have hsub : BitVec.ofInt 64 (target + 2 ^ 33 * j) - BitVec.ofInt 64 target =
      BitVec.ofInt 64 (2 ^ 33 * j) := by
    rw [BitVec.ofInt_add, BitVec.add_comm, BitVec.add_sub_cancel]
  rw [hj, hsub, BitVec.toNat_ofInt]
  omega

theorem forms_of_lt
    (h : (BitVec.ofInt 64 (formed target k) - BitVec.ofInt 64 target).toNat < 2 ^ 33) :
    Forms target k := by
  obtain ⟨q, hq⟩ := formed_sub target k
  have hzero : BitVec.ofInt 64 (formed target k) - BitVec.ofInt 64 target = 0#64 :=
    BitVec.eq_of_toNat_eq (by rw [BitVec.toNat_ofNat]; omega)
  rw [Forms, ← BitVec.sub_add_cancel (BitVec.ofInt 64 (formed target k)) (BitVec.ofInt 64 target),
    hzero, BitVec.zero_add]

end Formed

/-! ## A path as a C string -/

/-- What `gen_cstr` appends, with `n` labels handed out before. -/
def cstrItems (gs : List Global) (n : Nat) : List Item :=
  [.place lblCstr, .adrp X16 .bss (bssCstr gs), .add12 X16 .bss (bssCstr gs), .ins (.movz X2 0 0),
    .ins (.movz X3 255 0), .place n, .ins (.subs XZR X2 X1), .bcond .ge (n + 1),
    .ins (.subs XZR X2 X3), .bcond .ge (n + 1), .ins (.add X4 X0 X2),
    .ins (ldrOff X5 X4 0 .w8 false), .ins (.add X4 X16 X2), .ins (strOff X5 X4 0 .w8),
    .ins (.addImm X2 X2 1 false), .b n, .place (n + 1), .ins (.add X4 X16 X2), .ins (.movz X5 0 0),
    .ins (strOff X5 X4 0 .w8), .ins (.mov X0 X16), .ins .ret]

theorem genCstr_items (gs : List Global) (s : GState) :
    genCstr gs s = .ok ((), cstrItems gs s.nlab, { s with nlab := s.nlab + 2 }) := rfl

/-- What holds before instruction `k` of the copy, with the buffer at `F`. -/
def CstrAt (F page : Word) (m : Machine) : Nat → Prop
  | 0 => True
  | 1 => m.x X16 = page
  | 2 => m.x X16 = F
  | 3 | 14 => m.x X16 = F ∧ (m.x X2).toNat ≤ 255
  | 4 | 5 | 6 | 13 => m.x X16 = F ∧ (m.x X2).toNat ≤ 255 ∧ m.x X3 = 255
  | 7 => m.x X16 = F ∧ (m.x X2).toNat ≤ 255 ∧ m.x X3 = 255 ∧
    m.holds .ge = decide ((255 : Word).toInt ≤ (m.x X2).toInt)
  | 8 | 9 | 10 | 12 => m.x X16 = F ∧ (m.x X2).toNat ≤ 254 ∧ m.x X3 = 255
  | 11 => m.x X16 = F ∧ (m.x X2).toNat ≤ 254 ∧ m.x X3 = 255 ∧ m.x X4 = F + m.x X2
  | 15 | 16 => (m.x X2).toNat ≤ 255 ∧ m.x X4 = F + m.x X2
  | 17 | 18 => True
  | _ => False

section Copying

variable {c : Compiled} {m m' : Machine} {r : Reply × Machine} {t k n : Nat} {gs : List Global}

/-- Control is in the copy, with what holds there. -/
def InCstr (gs : List Global) (t : Nat) (m : Machine) : Prop :=
  ∃ k, m.pc = t + k ∧ CstrAt (BitVec.ofInt 64 (formed (dataVa + bssCstr gs) t))
    (pageWord (dataVa + bssCstr gs) t) m k

theorem labelPos_cstr_done (gs : List Global) (n : Nat) (hn : lblCstr < n) :
    labelPos (n + 1) (cstrItems gs n) = some 14 := by
  simp [cstrItems, labelPos]
  omega

theorem labelPos_cstr_loop (gs : List Global) {n : Nat} (hn : lblCstr < n) :
    labelPos n (cstrItems gs n) = some 4 := by
  simp [cstrItems, labelPos, hn.ne]

theorem cstr_step (h : PieceAt c.items t (cstrItems gs n)) (hn : lblCstr < n) (hat : InCstr gs t m)
    (hs : stepOver c.code m r = some m') (hret : c.code[m.pc]? ≠ some .ret) : InCstr gs t m' := by
  obtain ⟨k, hpc, hat⟩ := hat
  have hplain : ∀ i : Instr, (coded (cstrItems gs n))[k]? = some (.ins i) →
      (Item.ins i).goesOn = true → exec i r.1 m = some m' :=
    fun i hk hi => (h.plain hpc hk hi).symm.trans hs
  have hloop := labelPos_cstr_loop gs hn
  have hdone := labelPos_cstr_done gs n hn
  have hnext : ∀ j, m.pc + 1 = t + j ↔ k + 1 = j := fun j => by
    rw [hpc, Nat.add_assoc, Nat.add_left_cancel_iff]
  match k, hat with
  | 0, _ =>
    have hit := hpc ▸ h.item (show (coded (cstrItems gs n))[0]? = some _ from rfl)
    rw [stepOver_adrp hit, some.injEq] at hs
    subst hs
    refine ⟨1, (hnext 1).2 rfl, ?_⟩
    rw [hpc, CstrAt, goto_x, set_x_self (by decide)]
    rfl
  | 1, hx =>
    have hit := hpc ▸ h.item (show (coded (cstrItems gs n))[1]? = some _ from rfl)
    rw [stepOver_add12 (by decide) hit hx, some.injEq] at hs
    subst hs
    refine ⟨2, (hnext 2).2 rfl, ?_⟩
    rw [CstrAt, goto_x, set_x_self (by decide)]
  | 2, hx =>
    obtain rfl := some.inj (hplain _ rfl rfl)
    refine ⟨3, by simpa using (hnext 3).2 rfl, ?_⟩
    simp (disch := decide) [CstrAt, set_x_self, set_x_of_ne]
    exact hx
  | 3, hx =>
    obtain rfl := some.inj (hplain _ rfl rfl)
    refine ⟨4, by simpa using (hnext 4).2 rfl, ?_⟩
    simpa (disch := decide) [CstrAt, set_x_self, set_x_of_ne] using hx
  | 4, hx =>
    obtain rfl := some.inj (hplain _ rfl rfl)
    exact ⟨5, by simpa using (hnext 5).2 rfl, hx⟩
  | 5, hx =>
    rw [h.bcond hpc rfl hdone (by decide), some.injEq] at hs
    subst hs
    split
    · exact ⟨14, rfl, hx.1, hx.2.1⟩
    · exact ⟨6, (hnext 6).2 rfl, hx⟩
  | 6, hx =>
    obtain rfl := some.inj (hplain _ rfl rfl)
    refine ⟨7, by simpa using (hnext 7).2 rfl, hx.1, hx.2.1, hx.2.2, ?_⟩
    change (m.flags (m.get X2) (m.get X3)).holds .ge = decide ((255 : Word).toInt ≤ (m.x X2).toInt)
    rw [holds_ge, get_x (by decide), get_x (by decide), hx.2.2]
  | 7, hx =>
    obtain ⟨h16, h2, h3, hge⟩ := hx
    rw [h.bcond hpc rfl hdone (by decide), some.injEq] at hs
    subst hs
    split
    · exact ⟨14, rfl, h16, h2⟩
    · rename_i hlt
      rw [hge, decide_eq_true_iff] at hlt
      refine ⟨8, (hnext 8).2 rfl, h16, ?_, h3⟩
      change ¬(255 : Int) ≤ _ at hlt
      rw [@BitVec.toInt_eq_toNat_of_lt 64 (m.x X2) (by omega)] at hlt
      rw [goto_x]
      omega
  | 8, hx =>
    obtain rfl := some.inj (hplain _ rfl rfl)
    refine ⟨9, by simpa using (hnext 9).2 rfl, ?_⟩
    simpa (disch := decide) [CstrAt, set_x_self, set_x_of_ne] using hx
  | 9, hx =>
    obtain rfl := some.inj (hplain _ rfl rfl)
    refine ⟨10, by simpa using (hnext 10).2 rfl, ?_⟩
    simpa (disch := decide) [CstrAt, set_x_self, set_x_of_ne] using hx
  | 10, hx =>
    obtain rfl := some.inj (hplain _ rfl rfl)
    refine ⟨11, by simpa using (hnext 11).2 rfl, ?_⟩
    obtain ⟨h16, h2, h3⟩ := hx
    simp (disch := decide) [CstrAt, set_x_self, set_x_of_ne, h16, h2, h3,
      get_x]
  | 11, hx =>
    obtain rfl := some.inj (hplain _ rfl rfl)
    refine ⟨12, by simpa using (hnext 12).2 rfl, hx.1, hx.2.1, hx.2.2.1⟩
  | 12, hx =>
    obtain rfl := some.inj (hplain _ rfl rfl)
    refine ⟨13, by simpa using (hnext 13).2 rfl, ?_⟩
    obtain ⟨h16, h2, h3⟩ := hx
    have hsum : (m.x X2 + 1#64).toNat ≤ 255 := by
      rw [BitVec.toNat_add]
      change ((m.x X2).toNat + 1) % 2 ^ 64 ≤ 255
      omega
    simpa (disch := decide) [CstrAt, set_x_self, set_x_of_ne, setSp_eq,
      getSp_x, h16, h3] using hsum
  | 13, hx =>
    rw [h.branch hpc rfl hloop (by decide), some.injEq] at hs
    subst hs
    exact ⟨4, rfl, hx⟩
  | 14, hx => 
    obtain rfl := some.inj (hplain _ rfl rfl)
    refine ⟨15, by simpa using (hnext 15).2 rfl, ?_⟩
    simp (disch := decide) [CstrAt, set_x_self, set_x_of_ne, hx.1, hx.2,
      get_x]
  | 15, hx =>
    obtain rfl := some.inj (hplain _ rfl rfl)
    refine ⟨16, by simpa using (hnext 16).2 rfl, ?_⟩
    simpa (disch := decide) [CstrAt, set_x_self, set_x_of_ne] using hx
  | 16, hx =>
    obtain rfl := some.inj (hplain _ rfl rfl)
    exact ⟨17, (hnext 17).2 rfl, trivial⟩
  | 17, hx =>
    obtain rfl := some.inj (hplain _ rfl rfl)
    exact ⟨18, by simpa using (hnext 18).2 rfl, trivial⟩
  | 18, hx => 
    refine absurd (resolve_ins c.resolved ?_) hret
    exact hpc ▸ h.item (show (coded (cstrItems gs n))[18]? = some _ from rfl)

theorem PieceAt.stored {l : List Item} {it : Item}
    (h : PieceAt c.items t l) (hpc : m.pc = t + k) (hk : (coded l)[k]? = some it)
    (hi : c.code[m.pc]? = some i) (hst : i.stores m = some (a, b)) : it = .ins i := by
  obtain ⟨i', hi', hr⟩ := resolve_item c.resolved (hpc ▸ h.item hk)
  obtain rfl := some.inj (hi'.symm.trans hi)
  cases it with
  | ins j =>
    cases hr
    rfl
  | place l => cases hr
  | adrp rd s o | add12 rd s o =>
    cases hr
    cases hst
  | b l | bl l | bcond c l | cbz rt l | cbnz rt l =>
    obtain ⟨_, -, h⟩ := map_eq_some_iff.1 hr
    cases h
    cases hst

/-- Every byte of the copy, and the zero after it, is inside 256 bytes. -/
theorem cstr_stores (h : PieceAt c.items t (cstrItems gs n)) (hn : lblCstr < n)
    (hrun : RunsTo c.code t m) (hi : c.code[m.pc]? = some i) (hst : i.stores m = some (a, b)) :
    (a - BitVec.ofInt 64 (formed (dataVa + bssCstr gs) t)).toNat + b ≤ 256 := by
  obtain ⟨m0, rs, hpc0, hrun⟩ := hrun
  have hstart : InCstr gs t m0 := ⟨0, hpc0, trivial⟩
  obtain ⟨k, hpc, hat⟩ := hrun.invariant (fun _ _ _ hat hret hs => cstr_step h hn hat hs hret) hstart
  have hin : ∀ x : Word, x.toNat ≤ 255 → ∀ F : Word,
      (F + x + BitVec.ofInt 64 0 - F).toNat + 1 ≤ 256 := by
    intro x hx F
    rw [show F + x + BitVec.ofInt 64 0 - F = x by
      rw [show BitVec.ofInt 64 0 = 0#64 from rfl, BitVec.add_zero, BitVec.add_comm,
        BitVec.add_sub_cancel]]
    omega
  have hstored : ∀ it, (coded (cstrItems gs n))[k]? = some it → it = .ins i :=
    fun it hk => h.stored hpc hk hi hst
  match k, hat with
  | 11, hx =>
    cases hstored _ rfl
    obtain ⟨-, h2, -, h4⟩ := hx
    cases hst
    rw [getSp_x (by decide), h4]
    exact hin _ (by omega) _
  | 16, hx =>
    cases hstored _ rfl
    obtain ⟨h2, h4⟩ := hx
    cases hst
    rw [getSp_x (by decide), h4]
    exact hin _ h2 _
  | 0, _ | 1, _ | 2, _ | 3, _ | 4, _ | 5, _ | 6, _ | 7, _ | 8, _ | 9, _ | 10, _ | 12, _ | 13, _
  | 14, _ | 15, _ | 17, _ | 18, _ =>
    cases hstored _ rfl
    try cases hst

end Copying

/-! ## Pieces that store nothing -/

section Quiet

variable {c : Compiled} {m m' : Machine} {r : Reply × Machine} {t k n n' : Nat} {l : List Item}
  {S own : List Nat} {calls : Nat → Prop}

/-- Control is in a piece. -/
def InPiece (t : Nat) (l : List Item) (m : Machine) : Prop := t ≤ m.pc ∧ m.pc < t + (coded l).length

section

variable (h : PieceAt c.items t l) (hsealed : Sealed l) (hseg : Seg S calls own [] n n' l)
  (hshort : ∀ it ∈ l, it.target ≠ none → (coded l).length ≤ 2 ^ 18)
include h hsealed hseg hshort

/-- Control stays in a piece that ends with a return, or by going round, and branches only within
itself. -/
theorem PieceAt.stays (hin : InPiece t l m) (hret : c.code[m.pc]? ≠ some .ret)
    (hs : stepOver c.code m r = some m') : InPiece t l m' := by
  unfold InPiece at hin ⊢
  obtain ⟨k, hpc⟩ : ∃ k, m.pc = t + k := ⟨m.pc - t, by omega⟩
  obtain ⟨it, hk⟩ : ∃ it, (coded l)[k]? = some it := ⟨_, List.getElem?_eq_getElem (by omega)⟩
  have hmem := mem_coded (mem_of_getElem? hk)
  have hitem := hpc ▸ h.item hk
  -- what goes on to the next instruction is not the last one
  have hnext : it ≠ .ins .ret → it ≠ .ins (.b 0) → t ≤ m.pc + 1 ∧ m.pc + 1 < t + (coded l).length := by
    intro h1 h2
    by_cases hlast : k + 1 = (coded l).length
    · exact ((hsealed.last hk hlast).elim h1 h2).elim
    · omega
  have hlabel : ∀ lab, it.target = some lab → ∃ j, labelPos lab l = some j ∧
      j < (coded l).length ∧ (coded l).length ≤ 2 ^ 18 := by
    intro lab hlab
    rcases hseg.targets it hmem lab hlab with hp | hp
    · obtain ⟨j, hj⟩ := labelPos_isSome hp
      exact ⟨j, hj, hsealed.label_lt hj, hshort it hmem (by rw [hlab]; simp)⟩
    · cases hp
  cases it with
  | place lab => cases (List.mem_filter.1 (mem_of_getElem? hk)).2
  | b lab =>
    obtain ⟨j, hj, hlt, hlen⟩ := hlabel lab rfl
    rw [h.branch hpc hk hj (by omega), some.injEq] at hs
    subst hs
    exact ⟨by rw [goto_pc]; omega, by rw [goto_pc]; omega⟩
  | bcond cnd lab =>
    obtain ⟨j, hj, hlt, hlen⟩ := hlabel lab rfl
    rw [h.bcond hpc hk hj (by omega), some.injEq] at hs
    subst hs
    split
    · exact ⟨by rw [goto_pc]; omega, by rw [goto_pc]; omega⟩
    · exact hnext Item.noConfusion Item.noConfusion
  | cbz rt lab =>
    obtain ⟨j, hj, hlt, hlen⟩ := hlabel lab rfl
    rw [h.cbz hpc hk hj (by omega), some.injEq] at hs
    subst hs
    split
    · exact ⟨by rw [goto_pc]; omega, by rw [goto_pc]; omega⟩
    · exact hnext Item.noConfusion Item.noConfusion
  | cbnz rt lab =>
    obtain ⟨j, hj, hlt, hlen⟩ := hlabel lab rfl
    have hnear : Near c.items m.pc (.cbnz rt lab) := h.within hpc hj (by omega) (by omega)
    rw [stepOver_near hitem rfl hnear, execItem, Machine.toLabel, h.label hj] at hs
    split at hs
    · obtain rfl := some.inj hs
      exact ⟨by rw [goto_pc]; omega, by rw [goto_pc]; omega⟩
    · obtain rfl := some.inj hs
      exact hnext Item.noConfusion Item.noConfusion
  | bl lab =>
    obtain ⟨i, hi, hr⟩ := resolve_item c.resolved hitem
    obtain ⟨j, -, hr⟩ := map_eq_some_iff.1 hr
    cases hr
    rw [stepOver, hi] at hs
    obtain rfl := some.inj hs
    exact hnext Item.noConfusion Item.noConfusion
  | adrp rd s o =>
    obtain ⟨i, hi, hr⟩ := resolve_item c.resolved hitem
    cases hr
    rw [stepOver_step hitem rfl, step, hi] at hs
    obtain rfl := some.inj hs
    simpa using hnext Item.noConfusion Item.noConfusion
  | add12 rd s o =>
    rw [stepOver_near hitem rfl trivial] at hs
    obtain rfl := some.inj hs
    simpa using hnext Item.noConfusion Item.noConfusion
  | ins i =>
    have hne : i ≠ .ret := fun he => hret (resolve_ins c.resolved (he ▸ hitem))
    cases hb : i.isBranch with
    | true =>
      obtain rfl := hseg.raw i hmem hb
      rw [h.plain hpc hk rfl] at hs
      have hpc' := Machine.jump_to m m.pc
      rw [Int.sub_self] at hpc'
      obtain rfl := some.inj (hpc'.symm.trans hs)
      exact hin
    | false =>
      have hgo : (Item.ins i).goesOn = true := by cases i <;> first | rfl | cases hb
      rw [h.plain hpc hk hgo] at hs
      have hstep : m'.pc = m.pc + 1 := by
        cases hp : i.isPlain with
        | true =>
          have hrun := @execItem_plain c.items m (.ins i) hp r.1
          rw [execItem, hs, some.injEq] at hrun
          rw [hrun]
          exact Item.run_pc hp
        | false =>
          cases i with
          | svc =>
            obtain rfl := some.inj hs
            rfl
          | ret => exact absurd rfl hne
          | b off | bl off | bcond c off | cbz rt off | cbnz rt off => cases hb
          | _ => cases hp
      rw [hstep]
      exact hnext (fun he => hne (by cases he; rfl)) fun he => by cases he; cases hb

theorem PieceAt.quiet (hnone : ∀ i, .ins i ∈ l → ∀ m, i.stores m = none) (hl : 0 < (coded l).length)
    (hrun : RunsTo c.code t m) (hi : c.code[m.pc]? = some i) : i.stores m = none := by
  obtain ⟨m0, rs, hpc0, hrun⟩ := hrun
  have hstart : InPiece t l m0 := ⟨hpc0.ge, by omega⟩
  obtain ⟨hlo, hhi⟩ := hrun.invariant
    (fun _ _ _ hin hret hs => h.stays hsealed hseg hshort hin hret hs) hstart
  obtain ⟨k, hpc⟩ : ∃ k, m.pc = t + k := ⟨m.pc - t, by omega⟩
  obtain ⟨it, hk⟩ : ∃ it, (coded l)[k]? = some it := ⟨_, List.getElem?_eq_getElem (by omega)⟩
  cases hst : i.stores m with
  | none => rfl
  | some p =>
    have hmem := mem_coded (mem_of_getElem? hk)
    rw [h.stored hpc hk hi hst] at hmem
    exact hst.symm.trans (hnone i hmem m)

end

end Quiet

/-! ## The entry code -/

section Start

variable {c : Compiled} {m m' : Machine} {r : Reply × Machine} {k : Nat}

/-- The entry code behind its one store. -/
def startRest (u : TUnit) : GenM Unit := do
  genCaps 0 u.entry.params
  emitCall (fnLabel (u.fns.findIdx (·.isEntry)))
  Emit.onlyIf u.entry.ret.isVoid (emitImm X0 0)
  genSvc 93
  emit (.b 0)

/-- Neither a store nor a branch to a label. -/
def Harmless (x : GenM Unit) : Prop :=
  ∀ s a l s', x s = .ok (a, l, s') → ∀ it ∈ l, it.target = none ∧
    ∀ i, it = .ins i → ∀ m, i.stores m = none

theorem Harmless.bind {x y : GenM Unit} (hx : Harmless x) (hy : Harmless y) :
    Harmless (do x; y) := by
  intro s a l s' h it hit
  obtain ⟨_, l₁, s₁, h1, l₂, h2, rfl⟩ := bind_ok.1 h
  rcases mem_append.1 hit with hit | hit
  · exact hx _ _ _ _ h1 it hit
  · exact hy _ _ _ _ h2 it hit

theorem Harmless.out {l : List Item} (h : ∀ it ∈ l, it.target = none ∧
    ∀ i, it = .ins i → ∀ m, i.stores m = none) : Harmless (Emit.out l) := by
  intro s a l' s' hx it hit
  obtain ⟨rfl, -⟩ := out_ok.1 hx
  exact h it hit

theorem Harmless.nothing : Harmless (pure ()) := by
  intro s a l s' hx it hit
  obtain ⟨-, rfl, -⟩ := pure_ok.1 hx
  cases hit

theorem Harmless.emit (h : ∀ m, i.stores m = none) : Harmless (emit i) :=
  Harmless.out fun it hit => by
    rw [mem_singleton.1 hit]
    exact ⟨rfl, fun j hj m => by cases hj; exact h m⟩

theorem immCode_stores (rd : Reg) (v : Word) : ∀ i ∈ immCode rd v, ∀ m, i.stores m = none := by
  have hloop : ∀ (first : Bool) (hws : List (Fin 4)), ∀ i ∈ immLoop rd v first hws,
      ∀ m, i.stores m = none := by
    intro first hws
    induction hws generalizing first with
    | nil => exact fun i hi => by cases hi
    | cons hw hws ih =>
      intro i hi
      unfold immLoop at hi
      dsimp only at hi
      split at hi
      · exact ih first i hi
      · rcases mem_cons.1 hi with rfl | hi
        · intro m
          split <;> rfl
        · exact ih false i hi
  intro i hi
  unfold immCode at hi
  split_ifs at hi
  · rw [mem_singleton.1 hi]
    exact fun m => rfl
  · rw [mem_singleton.1 hi]
    exact fun m => rfl
  · exact hloop _ _ i hi

theorem Harmless.imm (rd : Reg) (v : Word) : Harmless (emitImm rd v) :=
  Harmless.out fun it hit => by
    obtain ⟨i, hi, rfl⟩ := mem_map.1 hit
    exact ⟨rfl, fun j hj m => by cases hj; exact immCode_stores rd v i hi m⟩

theorem harmless_startRest (u : TUnit) : Harmless (startRest u) := by
  have hcaps : ∀ ps reg, Harmless (genCaps reg ps) := by
    intro ps
    induction ps with
    | nil => exact fun _ => .nothing
    | cons p ps ih => exact fun reg => .bind (.imm _ _) (ih (reg + 1))
  refine .bind (hcaps _ _) (.bind (.out ?_) (.bind ?_ ?_))
  · intro it hit
    rw [mem_singleton.1 hit]
    exact ⟨rfl, fun i hi => by cases hi⟩
  · cases u.entry.ret.isVoid
    · exact .nothing
    · exact .imm _ _
  · refine .bind (.bind (.imm _ _) (.emit fun m => rfl)) ?_
    exact .emit fun m => rfl

theorem stops_startRest (u : TUnit) : Stops (startRest u) := by
  unfold startRest
  iterate 4 refine .right fun _ => ?_
  exact .emit (.inr rfl)

theorem fits_startRest {u : TUnit} (hi : u.fns.findIdx (·.isEntry) < u.fns.length) :
    Fits [93] (UserCalls u.fns.length [93]) [] [] (startRest u) := by
  refine .bind (fits_genCaps _ _) fun _ => .bind (.emitCall (.inl ⟨_, hi, rfl⟩)) fun _ => ?_
  refine .bind (.onlyIf fun _ => fits_emitImm _ _) fun _ => ?_
  exact .bind (fits_genSvc (by simp) (by decide)) fun _ => .emitSelf

theorem start_parts (c : Compiled) : ∃ rest post s s', startRest c.checked s = .ok ((), rest, s') ∧
    c.items = [Item.ins (movSp X0 SP), Item.adrp X16 .bss (bssSp c.checked.globals),
      Item.add12 X16 .bss (bssSp c.checked.globals), Item.ins (strOff X0 X16 0 .w64)] ++ (rest ++ post) := by
  obtain ⟨_, l₁, s₁, h1, l₂, -, heq⟩ := bind_ok.1 c.gen
  obtain ⟨_, la, sa, ha, lb, hb, rfl⟩ := bind_ok.1 h1
  obtain ⟨_, lc, sc, hc, ld, hd, rfl⟩ := bind_ok.1 hb
  obtain ⟨_, le, se, he, lf, hf, rfl⟩ := bind_ok.1 hd
  obtain ⟨rfl, rfl⟩ := out_ok.1 ha
  obtain ⟨rfl, rfl⟩ := out_ok.1 hc
  obtain ⟨rfl, rfl⟩ := out_ok.1 he
  refine ⟨lf, l₂, _, _, hf, ?_⟩
  rw [heq]
  simp

/-- What holds before instruction `k` of the entry code, up to its one store. -/
def StartAt (F page : Word) (m : Machine) : Nat → Prop
  | 0 | 1 => True
  | 2 => m.x X16 = page
  | 3 => m.x X16 = F
  | _ => False

/-- Control is in the entry code, in front of the store with what holds there, or in the rest. -/
def InStart (gs : List Global) (rest : List Item) (m : Machine) : Prop :=
  StartAt (BitVec.ofInt 64 (formed (dataVa + bssSp gs) 1)) (pageWord (dataVa + bssSp gs) 1) m m.pc ∨
    InPiece 4 rest m

theorem start_stores_at (hrun : RunsTo c.code 0 m)
    (hi : c.code[m.pc]? = some i) (hst : i.stores m = some (a, b)) :
    a = BitVec.ofInt 64 (formed (dataVa + bssSp c.checked.globals) 1) ∧ b = 8 := by
  obtain ⟨rest, post, s, s', hrest, heq⟩ := start_parts c
  obtain ⟨m0, rs, hpc0, hrun⟩ := hrun
  have hfront : PieceAt c.items 0 ([Item.ins (movSp X0 SP), Item.adrp X16 .bss (bssSp c.checked.globals),
      Item.add12 X16 .bss (bssSp c.checked.globals), Item.ins (strOff X0 X16 0 .w64)] ++ rest) :=
    ⟨[], post, by rw [heq, append_assoc]; rfl, rfl, fun _ _ => not_mem_nil⟩
  have hback : PieceAt c.items 4 rest :=
    ⟨_, post, heq, rfl, fun _ _ => by simp⟩
  have hharm := harmless_startRest c.checked _ _ _ _ hrest
  obtain ⟨p, j, hp, hj⟩ := stops_startRest c.checked _ _ _ _ hrest
  have hlen : 0 < (coded rest).length := by
    rw [hp, coded_append, coded_cons rfl]
    simp
  have hseg := fits_startRest (entry_index c.check) _ _ _ _ hrest
  have hstay : ∀ m r m', InPiece 4 rest m → c.code[m.pc]? ≠ some .ret →
      stepOver c.code m r = some m' → InPiece 4 rest m' :=
    fun m r m' hin hret hs => hback.stays (.inr ⟨p, j, hp, hj⟩) hseg
      (fun it hit ht => absurd (hharm it hit).1 ht) hin hret hs
  have hstart : InStart c.checked.globals rest m0 := .inl (by rw [hpc0]; trivial)
  have hinv := hrun.invariant (fun m r m' hat hret hs => ?_) hstart
  · rcases hinv with hat | ⟨hlo, hhi⟩
    · obtain ⟨k, hk⟩ : ∃ k, m.pc = k := ⟨_, rfl⟩
      rw [hk] at hat
      have hpc : m.pc = 0 + k := by rw [hk, Nat.zero_add]
      match k, hat, hpc with
      | 3, hx, hpc =>
        cases hfront.stored hpc rfl hi hst
        cases hst
        rw [getSp_x (by decide), hx]
        exact ⟨BitVec.add_zero _, rfl⟩
      | 0, _, hpc | 1, _, hpc | 2, _, hpc =>
        cases hfront.stored hpc rfl hi hst
        try cases hst
    · obtain ⟨k, hpc⟩ : ∃ k, m.pc = 4 + k := ⟨m.pc - 4, by omega⟩
      obtain ⟨it, hk⟩ : ∃ it, (coded rest)[k]? = some it :=
        ⟨_, List.getElem?_eq_getElem (by omega)⟩
      have hmem := mem_coded (mem_of_getElem? hk)
      rw [hback.stored hpc hk hi hst] at hmem
      exact absurd (hst.symm.trans ((hharm _ hmem).2 i rfl m)) nofun
  · rcases hat with hat | hin
    · obtain ⟨k, hk⟩ : ∃ k, m.pc = k := ⟨_, rfl⟩
      rw [hk] at hat
      have hpc : m.pc = 0 + k := by rw [hk, Nat.zero_add]
      match k, hat with
      | 0, _ =>
        rw [hfront.plain hpc rfl rfl] at hs
        obtain rfl := some.inj hs
        left
        simp [hpc, StartAt]
      | 1, _ =>
        rw [stepOver_adrp (hpc ▸ hfront.item rfl), some.injEq] at hs
        subst hs
        left
        rw [goto_pc, hpc]
        exact @Machine.set_x_self X16 (by decide) m _
      | 2, hx =>
        rw [stepOver_add12 (by decide) (hpc ▸ hfront.item rfl) hx, some.injEq] at hs
        subst hs
        left
        rw [goto_pc, hpc]
        exact @Machine.set_x_self X16 (by decide) m _
      | 3, hx =>
        rw [hfront.plain hpc rfl rfl] at hs
        obtain rfl := some.inj hs
        right
        change 4 ≤ m.pc + 1 ∧ m.pc + 1 < 4 + (coded rest).length
        omega
    · exact .inr (hstay m r m' hin hret hs)

end Start

/-! ## Where the pieces are -/

/-- The buffer of a unit up to the pieces, and the pieces, each only if it is needed. -/
structure Split (c : Compiled) (q s₁ s₂ : GState) (pre l₁ l₂ l₃ : List Item) : Prop where
  items : c.items = pre ++ (l₁ ++ (l₂ ++ l₃))
  marks : 6 ≤ q.nlab
  labels : ∀ k, .place k ∈ pre → k = lblFail ∨ (6 ≤ k ∧ k < q.nlab)
  notes : q.needRange = c.checked.ranges c.contracts
  argget : Emit.onlyIf q.needArgget (genArgget c.checked.globals) q = .ok ((), l₁, s₁)
  cstr : Emit.onlyIf q.needCstr (genCstr c.checked.globals) s₁ = .ok ((), l₂, s₂)
  range : Emit.onlyIf q.needRange
    (do genWrite2; genNum c.checked.globals; genRange c.checked.globals) s₂ = .ok ((), l₃, c.final)

theorem exists_split (c : Compiled) : ∃ q s₁ s₂ pre l₁ l₂ l₃, Split c q s₁ s₂ pre l₁ l₂ l₃ := by
  have hr := checkUnit_recorded c.check
  have hi := entry_index c.check
  obtain ⟨_, a, s₁, h1, _, h2, heq⟩ := bind_ok.1 c.gen
  obtain ⟨_, b, s₂, h3, _, h4, rfl⟩ := bind_ok.1 h2
  obtain ⟨_, f, s3, h5, _, h6, rfl⟩ := bind_ok.1 h4
  obtain ⟨_, _, q, h7, _, h8, rfl⟩ := bind_ok.1 h6
  obtain ⟨rfl, rfl, rfl⟩ := Emit.get_ok.1 h7
  obtain ⟨_, l₁, s4, h9, _, h10, rfl⟩ := bind_ok.1 h8
  obtain ⟨_, l₂, s5, h11, l₃, h12, rfl⟩ := bind_ok.1 h10
  have hown : ∀ j, 0 ≤ j → j < 0 + c.checked.fns.length →
      fnLabel j ∈ (List.range c.checked.fns.length).map fnLabel := by
    intro j _ hj
    exact mem_map.2 ⟨j, by simpa using hj, rfl⟩
  have hstart : Seg c.checked.sysUsed (UserCalls c.checked.fns.length c.checked.sysUsed)
      ((List.range c.checked.fns.length).map fnLabel) [] (6 + c.checked.fns.length) s₁.nlab a :=
    fits_genStart hr.exit hi _ _ _ _ h1
  have hfns : Seg c.checked.sysUsed (UserCalls c.checked.fns.length c.checked.sysUsed)
      ((List.range c.checked.fns.length).map fnLabel) [] s₁.nlab s₂.nlab b :=
    fits_genFns rfl hr.fns hown _ _ _ _ h3
  have hfail : Seg [64, 93] (fun _ => False) [lblFail] [] s₂.nlab q.nlab f :=
    fits_genFail (by simp) (by simp) _ _ _ _ h5
  have hmono1 := hstart.mono
  have hmono2 := hfns.mono
  have hmono3 := hfail.mono
  have hfn : ∀ k ∈ (List.range c.checked.fns.length).map fnLabel,
      6 ≤ k ∧ k < 6 + c.checked.fns.length := by
    intro k hk
    obtain ⟨j, hj, rfl⟩ := mem_map.1 hk
    rw [List.mem_range] at hj
    simp only [fnLabel]
    omega
  refine ⟨q, s4, s5, a ++ (b ++ f), l₁, l₂, l₃, by simp [heq], by omega, fun k hk => ?_, ?_, h9,
    h11, h12⟩
  · simp only [mem_append] at hk
    rcases hk with hk | hk | hk
    · rcases hstart.labels k hk with hb | hb
      · exact .inr (by omega)
      · have hf := hfn k hb
        exact .inr (by omega)
    · rcases hfns.labels k hk with hb | hb
      · exact .inr (by omega)
      · have hf := hfn k hb
        exact .inr (by omega)
    · rcases hfail.labels k hk with hb | hb
      · exact .inr (by omega)
      · exact .inl (mem_singleton.1 hb)
  · rw [notes_genFail _ _ _ _ h5, notes_genFns _ _ _ _ _ _ _ _ h3, notes_genStart _ _ _ _ _ h1,
      Bool.or_false, Bool.or_false, Bool.false_or]
    rfl

namespace Split

variable {c : Compiled} {q s₁ s₂ : GState} {pre l₁ l₂ l₃ : List Item} {k t : Nat}

section

variable (p : Split c q s₁ s₂ pre l₁ l₂ l₃)
include p

theorem seg_argget : Seg [] (fun _ => False) [lblArgget] [] q.nlab s₁.nlab l₁ :=
  Fits.onlyIf (fun _ => fits_genArgget _) _ _ _ _ p.argget

theorem seg_cstr : Seg [] (fun _ => False) [lblCstr] [] s₁.nlab s₂.nlab l₂ :=
  Fits.onlyIf (fun _ => fits_genCstr _) _ _ _ _ p.cstr

theorem seg_range :
    Seg [64, 93] (fun _ => True) [lblWrite2, lblNum, lblRange] [] s₂.nlab c.final.nlab l₃ := by
  refine Fits.onlyIf (fun _ => ?_) _ _ _ _ p.range
  refine Fits.bind ((fits_genWrite2 (by simp)).weaken (by simp) (List.Subset.refl _)) fun _ => ?_
  refine Fits.bind ((fits_genNum _).weaken (by simp) (List.Subset.refl _)) fun _ => ?_
  exact (fits_genRange _ (by simp)).weaken (by simp) (List.Subset.refl _)

theorem notMem_pre (hk : (1 ≤ k ∧ k ≤ 5) ∨ q.nlab ≤ k) : .place k ∉ pre := fun h => by
  have hmarks := p.marks
  have hzero : lblFail = 0 := rfl
  rcases p.labels k h with rfl | hb <;> omega

theorem notMem_argget (hk : (2 ≤ k ∧ k ≤ 5) ∨ s₁.nlab ≤ k) : .place k ∉ l₁ := fun h => by
  have hmarks := p.marks
  have hmono := p.seg_argget.mono
  have hone : lblArgget = 1 := rfl
  rcases p.seg_argget.labels k h with hb | hb
  · omega
  · obtain rfl := mem_singleton.1 hb
    omega

theorem notMem_cstr (hk : (3 ≤ k ∧ k ≤ 5) ∨ s₂.nlab ≤ k) : .place k ∉ l₂ := fun h => by
  have hmarks := p.marks
  have hmono := p.seg_argget.mono
  have hmono2 := p.seg_cstr.mono
  have htwo : lblCstr = 2 := rfl
  rcases p.seg_cstr.labels k h with hb | hb
  · omega
  · obtain rfl := mem_singleton.1 hb
    omega

theorem notMem_range (hk : k < 3) : .place k ∉ l₃ := fun h => by
  have hmarks := p.marks
  have hmono := p.seg_argget.mono
  have hmono2 := p.seg_cstr.mono
  rcases p.seg_range.labels k h with hb | hb
  · omega
  · simp only [lblWrite2, lblNum, lblRange, mem_cons, not_mem_nil, or_false] at hb
    omega

theorem cstr_at (ht : labelPos lblCstr c.items = some t) :
    PieceAt c.items t (cstrItems c.checked.globals s₁.nlab) ∧ lblCstr < s₁.nlab := by
  have hmarks := p.marks
  have hmono := p.seg_argget.mono
  have hpre := p.notMem_pre (k := lblCstr) (.inl (by decide))
  have hargget := p.notMem_argget (k := lblCstr) (.inl (by decide))
  have hmem : .place lblCstr ∈ l₂ := by
    obtain ⟨x, y, hxy, -⟩ := labelPos_split ht
    have hin : .place lblCstr ∈ c.items := by simp [hxy]
    rw [p.items] at hin
    simp only [mem_append] at hin
    have hrange := p.notMem_range (k := lblCstr) (by decide)
    tauto
  have hl2 : l₂ = cstrItems c.checked.globals s₁.nlab := by
    have hcstr := p.cstr
    cases hneed : q.needCstr with
    | false =>
      rw [hneed] at hcstr
      obtain ⟨-, rfl, -⟩ := pure_ok.1 hcstr
      cases hmem
    | true =>
      rw [hneed] at hcstr
      change genCstr c.checked.globals s₁ = _ at hcstr
      rw [genCstr_items] at hcstr
      cases hcstr
      rfl
  have hitems : c.items = (pre ++ l₁) ++ (l₂ ++ l₃) := by rw [p.items, append_assoc]
  have hfront : .place lblCstr ∉ pre ++ l₁ := by
    rw [mem_append]
    exact not_or.2 ⟨hpre, hargget⟩
  have hpos : t = (coded (pre ++ l₁)).length := by
    rw [hitems, labelPos_append_right hfront, hl2] at ht
    simpa [cstrItems, labelPos] using ht.symm
  refine ⟨⟨pre ++ l₁, l₃, by rw [hitems, hl2], hpos, fun k hk => ?_⟩, by
    change 2 < s₁.nlab
    omega⟩
  simp only [cstrItems, mem_cons, not_mem_nil, or_false, reduceCtorEq, false_or,
    Item.place.injEq] at hk
  rw [mem_append]
  rcases hk with rfl | rfl | rfl
  · exact not_or.2 ⟨hpre, hargget⟩
  · exact not_or.2 ⟨p.notMem_pre (.inr hmono), p.notMem_argget (.inr le_rfl)⟩
  · exact not_or.2 ⟨p.notMem_pre (.inr (by omega)), p.notMem_argget (.inr (by omega))⟩

/-- The pieces of the report are there if a range is checked. -/
theorem range_at (h : c.checked.ranges c.contracts = true) :
    ∃ t rest, labelPos lblRange c.items = some t ∧ PieceAt c.items t
      ([Item.place lblRange, Item.adrp X16 .bss (bssSave c.checked.globals),
        Item.add12 X16 .bss (bssSave c.checked.globals), Item.ins (strOff X2 X16 0 .w64),
        Item.ins (strOff X3 X16 8 .w64), Item.ins (strOff X4 X16 16 .w64)] ++ rest) := by
  have hrange := p.range
  rw [p.notes, h] at hrange
  obtain ⟨_, w, s3, hw, _, hrest, heq⟩ := bind_ok.1 hrange
  obtain ⟨_, d, s4, hd, g, hg, rfl⟩ := bind_ok.1 hrest
  have hshape : ∃ rest, g = [Item.place lblRange, Item.adrp X16 .bss (bssSave c.checked.globals),
      Item.add12 X16 .bss (bssSave c.checked.globals), Item.ins (strOff X2 X16 0 .w64),
      Item.ins (strOff X3 X16 8 .w64), Item.ins (strOff X4 X16 16 .w64)] ++ rest := by
    obtain ⟨_, la, sa, ha, ra, ka, rfl⟩ := bind_ok.1 hg
    obtain ⟨o1, lc, sc, hc, rc, kc, rfl⟩ := bind_ok.1 ka
    obtain ⟨o2, le, se, he, re, ke, rfl⟩ := bind_ok.1 kc
    obtain ⟨o3, lh, sh, hh, rh, kh, rfl⟩ := bind_ok.1 ke
    obtain ⟨_, li, si, hi, ri, ki, rfl⟩ := bind_ok.1 kh
    obtain ⟨_, lj, sj, hj, rj, kj, rfl⟩ := bind_ok.1 ki
    obtain ⟨_, ll, sl, hl, rl, kl, rfl⟩ := bind_ok.1 kj
    obtain ⟨_, ln, sn, hn, rn, -, rfl⟩ := bind_ok.1 kl
    simp only [addRodata, Except.ok.injEq, Prod.mk.injEq] at hc he hh
    obtain ⟨rfl, rfl⟩ := out_ok.1 ha
    obtain ⟨-, rfl, rfl⟩ := hc
    obtain ⟨-, rfl, rfl⟩ := he
    obtain ⟨-, rfl, rfl⟩ := hh
    obtain ⟨rfl, rfl⟩ := out_ok.1 hi
    obtain ⟨rfl, rfl⟩ := out_ok.1 hj
    obtain ⟨rfl, rfl⟩ := out_ok.1 hl
    obtain ⟨rfl, rfl⟩ := out_ok.1 hn
    exact ⟨rn, by simp⟩
  obtain ⟨rest, hg'⟩ := hshape
  have hsegw : Seg [64] (fun _ => True) [lblWrite2] [] s₂.nlab s3.nlab w :=
    fits_genWrite2 (by simp) _ _ _ _ hw
  have hsegd : Seg [] (fun _ => True) [lblNum] [] s3.nlab s4.nlab d := fits_genNum _ _ _ _ _ hd
  have hsegg : Seg [93] (fun _ => True) [lblRange] [] s4.nlab c.final.nlab g :=
    fits_genRange _ (by simp) _ _ _ _ hg
  have hmarks := p.marks
  have hm1 := p.seg_argget.mono
  have hm2 := p.seg_cstr.mono
  have hm3 := hsegw.mono
  have hm4 := hsegd.mono
  have hfront : ∀ k, .place k ∈ g → .place k ∉ pre ++ (l₁ ++ (l₂ ++ (w ++ d))) := by
    intro k hk
    have hk : k = 5 ∨ s4.nlab ≤ k := by
      rcases hsegg.labels k hk with hb | hb
      · exact .inr hb.1
      · exact .inl (mem_singleton.1 hb)
    simp only [mem_append, not_or]
    refine ⟨p.notMem_pre (by omega), p.notMem_argget (by omega), p.notMem_cstr (by omega), ?_, ?_⟩
    · intro hin
      rcases hsegw.labels k hin with hb | hb
      · omega
      · have hfour : k = 4 := mem_singleton.1 hb
        omega
    · intro hin
      rcases hsegd.labels k hin with hb | hb
      · omega
      · have hthree : k = 3 := mem_singleton.1 hb
        omega
  have hitems : c.items = (pre ++ (l₁ ++ (l₂ ++ (w ++ d)))) ++ g := by
    rw [p.items, heq]
    simp only [append_assoc]
  have hat : PieceAt c.items (coded (pre ++ (l₁ ++ (l₂ ++ (w ++ d))))).length g :=
    ⟨_, [], by rw [hitems, List.append_nil], rfl, hfront⟩
  refine ⟨_, rest, ?_, hg' ▸ hat⟩
  rw [hat.label (j := 0) (by rw [hg']; simp [labelPos])]
  rfl

theorem not_range (h : c.checked.ranges c.contracts = false) (hk : k = lblNum ∨ k = lblRange) :
    labelPos k c.items = none := by
  refine labelPos_none fun hin => ?_
  have hl3 : l₃ = [] := by
    have hrange := p.range
    rw [p.notes, h] at hrange
    exact (pure_ok.1 hrange).2.1
  have hk' : 3 ≤ k ∧ k ≤ 5 := by rcases hk with rfl | rfl <;> decide
  rw [p.items, hl3] at hin
  simp only [mem_append, not_mem_nil, or_false] at hin
  rcases hin with hin | hin | hin
  · exact p.notMem_pre (.inl (by omega)) hin
  · exact p.notMem_argget (.inl (by omega)) hin
  · exact p.notMem_cstr (.inl hk') hin

end

end Split

/-! ## Which stores land -/

section Landing

variable {c : Compiled} {m m' : Machine} {t : Nat}

theorem RunsTo.first (h : m.pc = t) : RunsTo c.code t m := ⟨m, [], h, .nil m⟩

theorem RunsTo.next {r : Reply × Machine} (h : RunsTo c.code t m)
    (hs : stepOver c.code m r = some m') (hret : c.code[m.pc]? ≠ some .ret) :
    RunsTo c.code t m' := by
  obtain ⟨m0, rs, hpc, hrun⟩ := h
  exact ⟨m0, rs ++ [r], hpc, hrun.append (.cons hret hs (.nil _))⟩

theorem PieceAt.notRet {l : List Item} {k : Nat} {it : Item} (h : PieceAt c.items t l)
    (hpc : m.pc = t + k) (hk : (coded l)[k]? = some it) (hit : it ≠ .ins .ret) :
    c.code[m.pc]? ≠ some .ret := by
  obtain ⟨i, hi, hr⟩ := resolve_item c.resolved (hpc ▸ h.item hk)
  rw [hi]
  intro he
  obtain rfl := some.inj he
  cases it with
  | ins j =>
    cases hr
    exact hit rfl
  | place l | adrp rd s o | add12 rd s o => cases hr
  | b l | bl l | bcond c l | cbz rt l | cbnz rt l =>
    obtain ⟨_, -, h⟩ := map_eq_some_iff.1 hr
    cases h

/-- The address pair at the front of a piece. -/
theorem RunsTo.pair {l : List Item} {k t0 : Nat} (hrun : RunsTo c.code t0 m) (rd : Reg) (off : Int)
    (h : PieceAt c.items t l) (hrd : rd ≠ 31) (hpc : m.pc = t + k)
    (hk : (coded l)[k]? = some (.adrp rd .bss off))
    (hk' : (coded l)[k + 1]? = some (.add12 rd .bss off)) : RunsTo c.code t0
      ((m.set rd (BitVec.ofInt 64 (formed (dataVa + off) (t + k)))).goto (t + (k + 2))) := by
  let r : Reply × Machine := (⟨0, m.mem⟩, m)
  have hfirst : stepOver c.code m r =
      some ((m.set rd (pageWord (dataVa + off) (t + k))).goto (t + (k + 1))) := by
    rw [stepOver_adrp (hpc ▸ h.item hk), hpc]
    rfl
  have hrun1 := hrun.next hfirst (h.notRet hpc hk nofun)
  have hx : (((m.set rd (pageWord (dataVa + off) (t + k))).goto (t + (k + 1))).x rd) =
      pageWord (dataVa + off) (t + k) := set_x_self hrd _ _
  have hsecond := stepOver_add12 (r := r) hrd (h.item hk') hx
  rw [Machine.goto_set, Machine.set_set, goto_pc, Machine.goto_goto] at hsecond
  exact hrun1.next hsecond (h.notRet rfl hk' nofun)

/-- An instruction that is written as it is and goes on to the next one. -/
theorem RunsTo.plain {l : List Item} {k t0 : Nat} (hrun : RunsTo c.code t0 m)
    (h : PieceAt c.items t l) (hpc : m.pc = t + k) (hk : (coded l)[k]? = some (.ins i))
    (hi : (Item.ins i).goesOn = true) (hne : i ≠ .ret) (hs : exec i ⟨0, m.mem⟩ m = some m') :
    RunsTo c.code t0 m' :=
  hrun.next (r := (⟨0, m.mem⟩, m)) ((h.plain hpc hk hi).trans hs)
    (h.notRet hpc hk fun he => hne (Item.ins.inj he))

theorem start_lands_iff (c : Compiled) :
    Helper.start.Lands c ↔ Forms (dataVa + bssSp c.checked.globals) 1 := by
  constructor
  · intro hlands
    obtain ⟨rest, post, s, s', -, heq⟩ := start_parts c
    have hfront : PieceAt c.items 0 ([Item.ins (movSp X0 SP), Item.adrp X16 .bss (bssSp c.checked.globals),
        Item.add12 X16 .bss (bssSp c.checked.globals), Item.ins (strOff X0 X16 0 .w64)] ++ rest) :=
      ⟨[], post, by rw [heq, append_assoc]; rfl, rfl, fun _ _ => not_mem_nil⟩
    let m0 : Machine := ⟨fun _ => 0, 0, false, false, false, false, fun _ => 0, 0⟩
    have hrun1 := (RunsTo.first (c := c) (m := m0) rfl).plain (k := 0) hfront rfl rfl rfl
      (by decide) rfl
    have hrun := hrun1.pair (k := 1) X16 (bssSp c.checked.globals) hfront (by decide) rfl rfl rfl
    have hstore := hlands 0 _ (strOff X0 X16 0 .w64) _ _ rfl hrun
      (resolve_ins c.resolved (hfront.item (k := 3) rfl)) rfl
    refine forms_of_lt ?_
    rw [getSp_x (by decide), goto_x, set_x_self (by decide)] at hstore
    change (BitVec.ofInt 64 (formed (dataVa + bssSp c.checked.globals) 1) + BitVec.ofInt 64 0 -
      BitVec.ofInt 64 (dataVa + bssSp c.checked.globals)).toNat + 8 ≤ 8 at hstore
    rw [show BitVec.ofInt 64 0 = 0#64 from rfl, BitVec.add_zero] at hstore
    omega
  · intro hforms t m i a n ht hrun hi hst
    obtain rfl : 0 = t := some.inj ht
    obtain ⟨rfl, rfl⟩ := start_stores_at hrun hi hst
    rw [hforms]
    change (BitVec.ofInt 64 (dataVa + bssSp c.checked.globals) -
      BitVec.ofInt 64 (dataVa + bssSp c.checked.globals)).toNat + 8 ≤ 8
    rw [BitVec.sub_self]
    exact le_rfl

theorem argget_lands (c : Compiled) : Helper.argget.Lands c := by
  intro t m i a n ht hrun hi hst
  obtain ⟨pre, post, k, heq, rfl, hk, hfresh⟩ := (hasArgget ht).split
  have hat : PieceAt c.items (coded pre).length (arggetItems c.checked.globals k) := by
    refine ⟨pre, post, heq, rfl, fun j hj => hfresh j ?_⟩
    simp only [arggetItems, mem_cons, not_mem_nil, or_false, reduceCtorEq, false_or,
      Item.place.injEq] at hj
    omega
  have hgen := genArgget_items c.checked.globals ⟨k, [], false, false, false⟩
  have hseg : Seg [] (fun _ => False) [lblArgget] [] k (k + 3) (arggetItems c.checked.globals k) :=
    fits_genArgget _ _ _ _ _ hgen
  obtain ⟨p, j, hp, hj⟩ := stops_genArgget _ _ _ _ _ hgen
  have hnone : ∀ i, .ins i ∈ arggetItems c.checked.globals k → ∀ m, i.stores m = none := by
    intro i hi m
    simp only [arggetItems, mem_cons, not_mem_nil, or_false, reduceCtorEq, false_or,
      Item.ins.injEq] at hi
    rcases hi with rfl | rfl | rfl | rfl | rfl | rfl | rfl | rfl | rfl | rfl | rfl | rfl | rfl |
      rfl | rfl | rfl | rfl <;> rfl
  have hlen : (coded (arggetItems c.checked.globals k)).length = 23 := rfl
  have hquiet := hat.quiet (.inr ⟨p, j, hp, hj⟩) hseg (fun _ _ _ => by omega) hnone (by omega)
    hrun hi
  rw [hst] at hquiet
  cases hquiet

theorem cstr_lands_iff (c : Compiled) : Helper.cstr.Lands c ↔
    ∀ t, labelPos lblCstr c.items = some t → Forms (dataVa + bssCstr c.checked.globals) t := by
  obtain ⟨q, s₁, s₂, pre, l₁, l₂, l₃, p⟩ := exists_split c
  constructor
  · intro hlands t ht
    obtain ⟨hat, hn⟩ := p.cstr_at ht
    let m0 : Machine := ⟨fun _ => 0, 0, false, false, false, false, fun _ => 0, t⟩
    -- a path of no bytes: the loop is left at once
    have h2 := (RunsTo.first (c := c) (m := m0) rfl).pair (k := 0) X16
      (bssCstr c.checked.globals) hat (by decide) rfl rfl rfl
    have h3 := h2.plain (k := 2) hat rfl rfl rfl (by decide) rfl
    have h4 := h3.plain (k := 3) hat rfl rfl rfl (by decide) rfl
    have h5 := h4.plain (k := 4) hat rfl rfl rfl (by decide) rfl
    have h14 := h5.next (r := (⟨0, m0.mem⟩, m0)) (hat.bcond (k := 5) rfl rfl (labelPos_cstr_done _ _ hn)
      (by decide)) (hat.notRet (k := 5) rfl rfl nofun)
    rw [if_pos (by rw [Machine.next_holds, Machine.set_holds, holds_ge]; rfl)] at h14
    have h15 := h14.plain (k := 14) hat rfl rfl rfl (by decide) rfl
    have h16 := h15.plain (k := 15) hat rfl rfl rfl (by decide) rfl
    have hstore := hlands t _ (strOff X5 X4 0 .w8) _ _ ht h16
      (resolve_ins c.resolved (hat.item (k := 16) rfl)) rfl
    refine forms_of_lt ?_
    change (BitVec.ofInt 64 (formed (dataVa + bssCstr c.checked.globals) t) + 0#64 +
      BitVec.ofInt 64 0 - BitVec.ofInt 64 (dataVa + bssCstr c.checked.globals)).toNat + 1 ≤ 256
      at hstore
    rw [show BitVec.ofInt 64 0 = 0#64 from rfl, BitVec.add_zero, BitVec.add_zero] at hstore
    omega
  · intro hforms t m i a n ht hrun hi hst
    obtain ⟨hat, hn⟩ := p.cstr_at ht
    have hin := cstr_stores hat hn hrun hi hst
    rw [hforms t ht] at hin
    exact hin

theorem range_lands_iff (c : Compiled) :
    Helper.range.Lands c ↔ c.checked.ranges c.contracts = false := by
  obtain ⟨q, s₁, s₂, pre, l₁, l₂, l₃, p⟩ := exists_split c
  constructor
  · intro hlands
    by_contra hranges
    obtain ⟨t, rest, ht, hat⟩ := p.range_at (Bool.eq_true_of_not_eq_false hranges)
    let m0 : Machine := ⟨fun _ => 0, 0, false, false, false, false, fun _ => 0, t⟩
    have h2 := (RunsTo.first (c := c) (m := m0) rfl).pair (k := 0) X16
      (bssSave c.checked.globals) hat (by decide) rfl rfl rfl
    have h3 := h2.plain (k := 2) hat rfl rfl rfl (by decide) rfl
    have h4 := h3.plain (k := 3) hat rfl rfl rfl (by decide) rfl
    have hstore := hlands t _ (strOff X4 X16 16 .w64) _ _ ht h4
      (resolve_ins c.resolved (hat.item (k := 4) rfl)) rfl
    change (BitVec.ofInt 64 (formed (dataVa + bssSave c.checked.globals) t) + 16#64 -
      BitVec.ofInt 64 (dataVa + bssSave c.checked.globals)).toNat + 8 ≤ 16 at hstore
    obtain ⟨j, hj⟩ := formed_sub (dataVa + bssSave c.checked.globals) t
    have hlt := (BitVec.ofInt 64 (formed (dataVa + bssSave c.checked.globals) t) -
      BitVec.ofInt 64 (dataVa + bssSave c.checked.globals)).isLt
    rw [add_sub_right_comm, BitVec.toNat_add, hj, BitVec.toNat_ofNat] at hstore
    omega
  · intro hranges t m i a n ht
    rw [Helper.entry, p.not_range hranges (.inr rfl)] at ht
    cases ht

end Landing

/-! ## The whole layout -/

/-- Two stretches of bytes without a byte in common. -/
def Apart (a n b k : Int) : Prop := ∀ q, a ≤ q → q < a + n → b ≤ q → q < b + k → False

/-- Every store of the five pieces lands where it should; what is reserved for one is apart from what
is reserved for the others and from every global; and it is inside the zeroed data. -/
structure OwnData (c : Compiled) : Prop where
  lands : ∀ h : Helper, h.Lands c
  regions : ∀ h h' : Helper, h.region c.checked.globals ≠ h'.region c.checked.globals →
    Apart (h.region c.checked.globals).1 (h.region c.checked.globals).2
      (h'.region c.checked.globals).1 (h'.region c.checked.globals).2
  globals : ∀ (h : Helper), ∀ g ∈ c.checked.globals, g.cval = none →
    Apart (globalOffset c.checked.globals g.name) g.ty.size
      (h.region c.checked.globals).1 (h.region c.checked.globals).2
  inside : ∀ h : Helper, 0 ≤ (h.region c.checked.globals).1 ∧
    (h.region c.checked.globals).1 + (h.region c.checked.globals).2 ≤ bssSize c.checked.globals

/-- The layout has room for the compiler's words: no global lies on them, which takes one whose size
has turned negative, and the two address pairs reach. -/
structure Roomy (c : Compiled) : Prop where
  front : 0 ≤ bssSp c.checked.globals
  globals : ∀ g ∈ c.checked.globals, g.cval = none →
    Apart (globalOffset c.checked.globals g.name) g.ty.size (bssSp c.checked.globals) 312
  start : Forms (dataVa + bssSp c.checked.globals) 1
  cstr : ∀ t, labelPos lblCstr c.items = some t → Forms (dataVa + bssCstr c.checked.globals) t

theorem regions_eq (gs : List Global) : bssCstr gs = bssSp gs + 8 ∧ bssNumbuf gs = bssSp gs + 264 ∧
    bssSave gs = bssSp gs + 296 ∧ bssSize gs = bssSp gs + 312 := by
  unfold bssSize bssSave bssNumbuf bssCstr bssSp roundUp8
  omega

end Verkos.Sav
