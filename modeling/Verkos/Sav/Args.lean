import Mathlib.Tactic.IntervalCases
import Verkos.Sav.Manifest

/-!
# How a program reads its arguments

`gen_start` keeps the stack pointer the kernel hands over in a word of its own, and the two methods
of `Args` read the vector that pointer leads to: `count` the number in front of it, `get` one of the
pointers behind it, after a comparison with the number, and then the bytes up to a zero.

Here an access to memory the program has not got ends the run, as the fault does. `ArgsAt` says what
the two methods need to find, and `count_returns` and `argget_returns` what they make of it.
-/

namespace Verkos.Sav

open Verkos.Lib (Emit)
open BitVec (eq_of_toNat_eq le_toInt ofNat_add ofNat_toNat setWidth_eq toInt_lt toNat_ofInt
  toNat_ofNat toNat_setWidth)
open Machine (jump_to next_x set_mem set_pc set_x_self)

attribute [local instance] neZero4

/-! ## Runs in the memory a program has -/

/-- The bytes an instruction reads or writes: where they start and how many they are. -/
def Instr.touches (m : Machine) : Instr → Option (Word × Nat)
  | .ldr _ rn off sz _ => some (m.getSp rn + BitVec.ofInt 64 off, sz.bytes)
  | .str _ rn off sz => some (m.getSp rn + BitVec.ofInt 64 off, sz.bytes)
  | .stpPre _ _ rn off => some (m.getSp rn + BitVec.ofInt 64 off, 16)
  | .ldpPost _ _ rn _ => some (m.getSp rn, 16)
  | _ => none

/-- `n` bytes from `a` up are all mapped. -/
def has (mapped : Word → Bool) (a : Word) (n : Nat) : Bool :=
  (List.range n).all fun k => mapped (a + BitVec.ofNat 64 k)

/-- One step of a program. An access to a byte that is not mapped is a fault, and the run ends. -/
def userStep (mapped : Word → Bool) (code : List Instr) (r : Reply) (m : Machine) :
    Option Machine :=
  match code[m.pc]? with
  | none => none
  | some i =>
    match i.touches m with
    | some (a, n) => if has mapped a n then exec i r m else none
    | none => exec i r m

def userSteps (mapped : Word → Bool) (code : List Instr) (r : Reply) : Nat → Machine → Option Machine
  | 0, m => some m
  | n + 1, m => (userStep mapped code r m).bind (userSteps mapped code r n)

/-- The run gets from one state to another. -/
def Reaches (mapped : Word → Bool) (code : List Instr) (r : Reply) (m m' : Machine) : Prop :=
  ∃ n, userSteps mapped code r n m = some m'

variable {a : Word} {n k t : Nat} {i : Instr}

theorem has_iff {mapped : Word → Bool} :
    has mapped a n = true ↔ ∀ k < n, mapped (a + BitVec.ofNat 64 k) = true := by
  unfold has
  rw [List.all_eq_true]
  simp only [List.mem_range]

section Runs

variable {mapped : Word → Bool} {code : List Instr} {r : Reply} {m m₁ m' : Machine}

theorem userSteps_add (k n : Nat) (m : Machine) : userSteps mapped code r (k + n) m =
      (userSteps mapped code r k m).bind (userSteps mapped code r n) := by
  induction k generalizing m with
  | zero => rw [Nat.zero_add]; rfl
  | succ k ih =>
    rw [Nat.succ_add, userSteps, userSteps, Option.bind_assoc]
    congr 1
    funext m₁
    exact ih m₁

theorem Reaches.refl (m : Machine) : Reaches mapped code r m m := ⟨0, rfl⟩

theorem Reaches.trans (h : Reaches mapped code r m m₁) (h' : Reaches mapped code r m₁ m') :
    Reaches mapped code r m m' := by
  obtain ⟨k, hk⟩ := h
  obtain ⟨n, hn⟩ := h'
  refine ⟨k + n, ?_⟩
  rw [userSteps_add, hk]
  exact hn

theorem userStep_exec (hi : code[m.pc]? = some i) (ht : i.touches m = none) :
    userStep mapped code r m = exec i r m := by
  simp only [userStep, hi, ht]

theorem userStep_access (hi : code[m.pc]? = some i)
    (ht : i.touches m = some (a, n)) (ha : has mapped a n = true) :
    userStep mapped code r m = exec i r m := by
  simp only [userStep, hi, ht, ha, if_true]

theorem userStep_fault (hi : code[m.pc]? = some i)
    (ht : i.touches m = some (a, n)) (ha : has mapped a n = false) :
    userStep mapped code r m = none := by
  simp only [userStep, hi, ht, ha, Bool.false_eq_true, if_false]

theorem userSteps_succ (h : userStep mapped code r m = some m₁) :
    userSteps mapped code r (n + 1) m = userSteps mapped code r n m₁ := by
  rw [userSteps, h]
  rfl

theorem Reaches.step (h : userStep mapped code r m = some m₁) (h' : Reaches mapped code r m₁ m') :
    Reaches mapped code r m m' :=
  Reaches.trans ⟨1, by rw [userSteps_succ h]; rfl⟩ h'

end Runs

/-! ## Registers -/

namespace Machine

variable {r q : Reg}

theorem get_x (h : r ≠ 31) (m : Machine) : m.get r = m.x r := if_neg h

theorem getSp_x (h : r ≠ 31) (m : Machine) : m.getSp r = m.x r := if_neg h

theorem setSp_eq (h : r ≠ 31) (m : Machine) (v : Word) : m.setSp r v = m.set r v := by
  unfold Machine.setSp Machine.set
  rw [if_neg h, if_neg h]

theorem set_x_of_ne (h : q ≠ r) (m : Machine) (v : Word) : (m.set r v).x q = m.x q := by
  unfold Machine.set
  split
  · rfl
  · exact if_neg h

theorem set_set (m : Machine) (r : Reg) (v w : Word) : (m.set r v).set r w = m.set r w := by
  unfold Machine.set
  split
  · rfl
  · simp only [Machine.mk.injEq, and_true]
    funext q
    by_cases hq : q = r
    · rw [if_pos hq, if_pos hq]
    · rw [if_neg hq, if_neg hq, if_neg hq]

@[simp] theorem set_sp (m : Machine) (r : Reg) (v : Word) : (m.set r v).sp = m.sp := by
  unfold Machine.set
  split <;> rfl

@[simp] theorem set_holds (m : Machine) (r : Reg) (v : Word) (c : Cond) :
    (m.set r v).holds c = m.holds c := by
  unfold Machine.set
  split
  · rfl
  · cases c <;> rfl

/-- The same state at another instruction. A state of a run is written with this outermost. -/
def goto (m : Machine) (pc : Nat) : Machine := { m with pc }

section

variable (m : Machine)
include m

@[simp] theorem goto_x (k : Nat) : (m.goto k).x = m.x := rfl

@[simp] theorem goto_mem (k : Nat) : (m.goto k).mem = m.mem := rfl

@[simp] theorem goto_sp (k : Nat) : (m.goto k).sp = m.sp := rfl

@[simp] theorem goto_pc (k : Nat) : (m.goto k).pc = k := rfl

@[simp] theorem goto_holds (k : Nat) (c : Cond) : (m.goto k).holds c = m.holds c := by
  cases c <;> rfl

theorem goto_self : m.goto m.pc = m := rfl

@[simp] theorem goto_goto (j k : Nat) : (m.goto j).goto k = m.goto k := rfl

@[simp] theorem goto_set (k : Nat) (r : Reg) (v : Word) :
    (m.goto k).set r v = (m.set r v).goto k := by
  unfold Machine.set
  split <;> rfl

@[simp] theorem goto_flags (k : Nat) (a b : Word) :
    (m.goto k).flags a b = (m.flags a b).goto k := rfl

@[simp] theorem flags_x (a b : Word) : (m.flags a b).x = m.x := rfl

@[simp] theorem flags_sp (a b : Word) : (m.flags a b).sp = m.sp := rfl

theorem set_next (r : Reg) (v : Word) : (m.set r v).next = (m.set r v).goto (m.pc + 1) := by
  unfold Machine.set
  split <;> rfl

end

end Machine

/-! ## Words in memory -/

namespace Mem

theorem read_digits (m : Mem) : ∀ (len : Nat) (a : Word) (n : Nat),
    (∀ k < len, (m (a + BitVec.ofNat 64 k)).toNat = n / 256 ^ k % 256) →
      m.read a len = n % 256 ^ len := by
  intro len
  induction len with
  | zero =>
    intro a n _
    rw [Nat.pow_zero, Nat.mod_one]
    rfl
  | succ len ih =>
    intro a n h
    have h0 := h 0 (Nat.zero_lt_succ len)
    rw [BitVec.add_zero, Nat.pow_zero, Nat.div_one] at h0
    have hrest := ih (a + 1) (n / 256) (fun k hk => by
      have hk' := h (k + 1) (by omega)
      rw [Nat.div_div_eq_div_mul, ← Nat.pow_succ', ← hk', BitVec.add_assoc, Nat.add_comm k 1,
        ofNat_add]
      rfl)
    rw [Mem.read, h0, hrest, Nat.pow_succ', Nat.mod_mul]

theorem load_digits {m : Mem} (hn : n < 2 ^ 64)
    (h : ∀ k < 8, (m (a + BitVec.ofNat 64 k)).toNat = n / 256 ^ k % 256) :
    m.load a .w64 false = BitVec.ofNat 64 n := by
  have hr := read_digits m 8 a n h
  rw [Nat.mod_eq_of_lt (by omega)] at hr
  change BitVec.ofNat 64 (m.read a 8) = _
  rw [hr]

theorem read_congr {m m' : Mem} : ∀ (len : Nat) (a : Word),
    (∀ k < len, m (a + BitVec.ofNat 64 k) = m' (a + BitVec.ofNat 64 k)) →
      m.read a len = m'.read a len := by
  intro len
  induction len with
  | zero => exact fun _ _ => rfl
  | succ len ih =>
    intro a h
    have h0 := h 0 (Nat.zero_lt_succ len)
    rw [BitVec.add_zero] at h0
    rw [Mem.read, Mem.read, h0, ih (a + 1) (fun k hk => by
      have hk' := h (k + 1) (by omega)
      rw [Nat.add_comm k 1, ofNat_add, ← BitVec.add_assoc] at hk'
      exact hk')]

theorem load_congr {m m' : Mem}
    (h : ∀ k < 8, m (a + BitVec.ofNat 64 k) = m' (a + BitVec.ofNat 64 k)) :
    m.load a .w64 false = m'.load a .w64 false :=
  congrArg (BitVec.ofNat 64) (read_congr 8 a h)

theorem load_write (m : Mem) (a v : Word) : (m.write a 8 v).load a .w64 false = v := by
  rw [load_digits v.isLt, ofNat_toNat, setWidth_eq]
  intro k hk
  have hoff : (a + BitVec.ofNat 64 k - a).toNat = k := by
    rw [BitVec.add_comm, BitVec.add_sub_cancel, toNat_ofNat, Nat.mod_eq_of_lt (by omega)]
  unfold Mem.write
  rw [hoff, if_pos hk, toNat_ofNat, Nat.shiftRight_eq_div_pow, Nat.pow_mul]

/-- And everything else is as it was. -/
theorem write_of_apart {m : Mem} {q v : Word}
    (h : ∀ k < n, q ≠ a + BitVec.ofNat 64 k) : m.write a n v q = m q := by
  unfold Mem.write
  rw [if_neg]
  intro hlt
  refine h _ hlt ?_
  rw [ofNat_toNat, setWidth_eq, BitVec.add_comm, BitVec.sub_add_cancel]

end Mem

/-! ## The address of the word -/

theorem resolve_item {its : List Item} {code : List Instr} (h : resolve its = some code)
    {it : Item} (hk : (coded its)[k]? = some it) : ∃ i, code[k]? = some i ∧
      resolveItem (labelPos · its) (rodataOff its) k it = some [i] := by
  have hlt : k < code.length := by
    rw [resolve_length h]
    exact (List.getElem?_eq_some_iff.1 hk).1
  obtain ⟨it', hit, hr⟩ := resolve_get h (List.getElem?_eq_getElem hlt)
  rw [hk] at hit
  cases hit
  exact ⟨_, List.getElem?_eq_getElem hlt, hr⟩

/-- Whether the 21 bits of an `adrp` at instruction `k` lead to the page of `target`. -/
def InReach (target : Int) (k : Nat) : Prop :=
  -2 ^ 20 ≤ target / 4096 - ((textVa : Int) + 4 * k) / 4096 ∧
    target / 4096 - ((textVa : Int) + 4 * k) / 4096 < 2 ^ 20

/-- The address an `adrp` at instruction `k` and the `add` after it form for `target`. -/
def formed (target : Int) (k : Nat) : Int :=
  4096 * (((textVa : Int) + 4 * k) / 4096 +
    (target / 4096 - ((textVa : Int) + 4 * k) / 4096).bmod (2 ^ 21)) + target % 4096

theorem formed_of_inReach {target : Int} (h : InReach target k) : formed target k = target := by
  unfold formed
  obtain ⟨hlo, hhi⟩ := h
  rw [Int.bmod_eq_of_le (by omega) (by omega)]
  omega

/-- What the two instructions leave in the register. -/
theorem pair_value (target : Int) (k : Nat) : (BitVec.ofInt 64 (((textVa + 4 * k) / 4096 : Nat) +
        (target / 4096 - ((textVa : Int) + 4 * k) / 4096).bmod (2 ^ 21)) <<< 12) +
      ((BitVec.ofInt 12 target).zeroExtend 64 <<< 0) = BitVec.ofInt 64 (formed target k) := by
  have hlow : (BitVec.ofInt 12 target).zeroExtend 64 = BitVec.ofInt 64 (target % 4096) := by
    apply eq_of_toNat_eq
    change (BitVec.setWidth 64 (BitVec.ofInt 12 target)).toNat = _
    rw [toNat_setWidth, toNat_ofInt, toNat_ofInt]
    omega
  have hhigh : ∀ q : Int, BitVec.ofInt 64 q <<< 12 = BitVec.ofInt 64 (4096 * q) := by
    intro q
    rw [BitVec.ofInt_mul, BitVec.shiftLeft_eq_mul_twoPow, BitVec.mul_comm]
    rfl
  rw [BitVec.shiftLeft_zero, hlow, hhigh, ← BitVec.ofInt_add]
  rfl

section Pair

variable {mapped : Word → Bool} {its : List Item} {code : List Instr} {r : Reply} {m : Machine}
  {off : Int}

/-- The state after an address has been formed in `x16`. -/
theorem userSteps_pair (hr : resolve its = some code) (n : Nat)
    (h₀ : (coded its)[m.pc]? = some (.adrp X16 .bss off))
    (h₁ : (coded its)[m.pc + 1]? = some (.add12 X16 .bss off)) :
    userSteps mapped code r (n + 2) m = userSteps mapped code r n
      ((m.set X16 (BitVec.ofInt 64 (formed (dataVa + off) m.pc))).goto (m.pc + 2)) := by
  obtain ⟨i0, hi0, hr0⟩ := resolve_item hr h₀
  obtain ⟨i₁, hi1, hr1⟩ := resolve_item hr h₁
  cases hr0
  cases hr1
  rw [userSteps_succ (n := n + 1) ((userStep_exec hi0 rfl).trans rfl),
    userSteps_succ (n := n) ((userStep_exec (by simpa using hi1) rfl).trans rfl)]
  have hne : X16 ≠ 31 := by decide
  rw [Machine.setSp_eq hne, Machine.getSp_x hne, next_x, set_x_self hne,
    Machine.set_next, Machine.set_next, Machine.goto_set, Machine.set_set, ← pair_value]
  rfl

end Pair

/-! ## Comparisons -/

namespace Machine

theorem holds_lt (m : Machine) (a b : Word) :
    (m.flags a b).holds .lt = decide (a.toInt < b.toInt) := by
  have ha := toInt_lt (x := a)
  have ha' := le_toInt (x := a)
  have hb := toInt_lt (x := b)
  have hb' := le_toInt (x := b)
  have hsub : (a - b).toInt = (a.toInt - b.toInt).bmod (2 ^ 64) := BitVec.toInt_sub
  simp only [Machine.holds, Machine.flags, BitVec.msb_eq_toInt]
  have hv : ((a - b).toInt != a.toInt - b.toInt) = decide ((a - b).toInt ≠ a.toInt - b.toInt) := by
    rw [Bool.eq_iff_iff, bne_iff_ne, decide_eq_true_iff]
  rw [hv, hsub, Int.bmod_def]
  by_cases hlt : a.toInt < b.toInt
  · simp only [hlt, decide_true]
    split <;> simp <;> omega
  · simp only [hlt, decide_false]
    split <;> simp <;> omega

theorem holds_ge (m : Machine) (a b : Word) :
    (m.flags a b).holds .ge = decide (b.toInt ≤ a.toInt) := by
  have h : (m.flags a b).holds .ge = !(m.flags a b).holds .lt := by
    unfold Machine.holds
    cases (m.flags a b).n <;> cases (m.flags a b).v <;> rfl
  rw [h, holds_lt, ← decide_not]
  simp only [Int.not_lt]

end Machine

/-! ## The vector -/

/-- A string at `p`, with a zero after it. -/
structure CStrAt (mapped : Word → Bool) (mem : Mem) (p : Word) (s : List UInt8) : Prop where
  bytes : ∀ j (h : j < s.length), mem (p + BitVec.ofNat 64 j) = (s.get ⟨j, h⟩).toBitVec
  nonzero : 0 ∉ s
  zero : mem (p + BitVec.ofNat 64 s.length) = 0
  mapped : has mapped p (s.length + 1) = true
  short : s.length < 2 ^ 63

/-- A vector of arguments at `sp`: their number, and then a pointer to each. -/
structure ArgsAt (mapped : Word → Bool) (mem : Mem) (sp : Word) (args : List (List UInt8)) :
    Prop where
  count : mem.load sp .w64 false = BitVec.ofNat 64 args.length
  arg : ∀ i (h : i < args.length),
    CStrAt mapped mem (mem.load (sp + BitVec.ofNat 64 (8 * (i + 1))) .w64 false) (args.get ⟨i, h⟩)
  mapped : ∀ i ≤ args.length, has mapped (sp + BitVec.ofNat 64 (8 * i)) 8 = true
  few : args.length < 2 ^ 63

theorem ArgsAt.mapped_count {mapped : Word → Bool} {mem : Mem} {sp : Word}
    {args : List (List UInt8)} (h : ArgsAt mapped mem sp args) : has mapped sp 8 = true := by
  have h0 := h.mapped 0 (Nat.zero_le _)
  rwa [show sp + BitVec.ofNat 64 (8 * 0) = sp from BitVec.add_zero sp] at h0

/-- The word `gen_unit` reserves for the stack pointer. -/
def reserved (gs : List Global) : Word := BitVec.ofInt 64 (dataVa + bssSp gs)

/-- A pointer and a length that are a slice of the given bytes. -/
def SliceIs (mem : Mem) (p n : Word) (s : List UInt8) : Prop :=
  n.toNat = s.length ∧ ∀ j (h : j < s.length), mem (p + BitVec.ofNat 64 j) = (s.get ⟨j, h⟩).toBitVec

/-- What `Args.get(i)` is to return: the argument, or nothing where there is none. -/
def argOf (args : List (List UInt8)) (i : Word) : List UInt8 :=
  if 0 ≤ i.toInt then args.getD i.toInt.toNat [] else []

/-- A state in which the two methods find what they need. -/
structure Ready (mapped : Word → Bool) (gs : List Global) (sp : Word) (args : List (List UInt8))
    (mem : Mem) : Prop where
  saved : mem.load (reserved gs) .w64 false = sp
  word : has mapped (reserved gs) 8 = true
  args : ArgsAt mapped mem sp args

section Methods

variable {mapped : Word → Bool} {its : List Item} {code : List Instr} {r : Reply} {m : Machine}
  {gs : List Global} {sp : Word} {args : List (List UInt8)}

theorem userStep_load {rt rn : Reg} {sz : Width} (hn : rn ≠ 31)
    (hi : code[m.pc]? = some (ldrOff rt rn 0 sz false)) (ha : has mapped (m.x rn) sz.bytes = true) :
    userStep mapped code r m = some ((m.set rt (m.mem.load (m.x rn) sz false)).goto (m.pc + 1)) := by
  have hoff : ldrOff rt rn 0 sz false = .ldr rt rn 0 sz false := by
    cases sz <;> rfl
  rw [hoff] at hi
  have haddr : m.getSp rn + BitVec.ofInt 64 0 = m.x rn := by
    rw [Machine.getSp_x hn]
    exact BitVec.add_zero _
  have ht : (Instr.ldr rt rn 0 sz false).touches m = some (m.x rn, sz.bytes) := by
    rw [← haddr]
    rfl
  rw [userStep_access hi ht ha, exec, haddr, Machine.set_next]

section

variable (hr : resolve its = some code) (h : Ready mapped gs sp args m.mem)
  (hreach : InReach (dataVa + bssSp gs) m.pc)
  (h₀ : (coded its)[m.pc]? = some (.adrp X16 .bss (bssSp gs)))
  (h₁ : (coded its)[m.pc + 1]? = some (.add12 X16 .bss (bssSp gs)))
  (h₂ : (coded its)[m.pc + 2]? = some (.ins (ldrOff X16 X16 0 .w64 false)))
include hr h hreach h₀ h₁ h₂

theorem reaches_saved : Reaches mapped code r m ((m.set X16 sp).goto (m.pc + 3)) := by
  have hne : X16 ≠ 31 := by decide
  refine ⟨3, ?_⟩
  rw [userSteps_pair hr 1 h₀ h₁, formed_of_inReach hreach]
  have hx : (m.set X16 (reserved gs)).x X16 = reserved gs := set_x_self hne _ _
  have hload : userStep mapped code r ((m.set X16 (reserved gs)).goto (m.pc + 2)) = _ :=
    userStep_load hne (resolve_ins hr h₂) (by
      rw [Machine.goto_x, hx]
      exact h.word)
  rw [Machine.goto_x, hx, Machine.goto_mem, set_mem, h.saved, Machine.goto_set,
    Machine.set_set] at hload
  rw [show (BitVec.ofInt 64 (dataVa + bssSp gs)) = reserved gs from rfl, userSteps_succ hload]
  rfl

theorem count_returns (h3 : (coded its)[m.pc + 3]? = some (.ins (ldrOff X0 X16 0 .w64 false))) :
    ∃ m', Reaches mapped code r m m' ∧ m'.pc = m.pc + 4 ∧ m'.mem = m.mem ∧
      m'.x X0 = BitVec.ofNat 64 args.length := by
  have hx : (m.set X16 sp).x X16 = sp := set_x_self (by decide) _ _
  have hload : userStep mapped code r ((m.set X16 sp).goto (m.pc + 3)) = _ :=
    userStep_load (by decide) (resolve_ins hr h3) (by
      rw [Machine.goto_x, hx]
      exact h.args.mapped_count)
  rw [Machine.goto_x, hx, Machine.goto_mem, set_mem, h.args.count] at hload
  refine ⟨_, (reaches_saved hr h hreach h₀ h₁ h₂).trans (Reaches.step hload (Reaches.refl _)), rfl,
    by simp, ?_⟩
  rw [Machine.goto_x, set_x_self (by decide)]

end

/-! ## The code of `get` -/

/-- What `gen_argget` appends, with `n` labels handed out before. -/
def arggetItems (gs : List Global) (n : Nat) : List Item :=
  [.place lblArgget, .adrp X16 .bss (bssSp gs), .add12 X16 .bss (bssSp gs),
    .ins (ldrOff X16 X16 0 .w64 false), .ins (ldrOff X9 X16 0 .w64 false), .ins (.movz X10 0 0),
    .ins (.subs XZR X0 X10), .bcond .lt n, .ins (.subs XZR X0 X9), .bcond .ge n,
    .ins (.movz X17 8 0), .ins (.mul X0 X0 X17), .ins (.add X16 X16 X17), .ins (.add X16 X16 X0),
    .ins (ldrOff X0 X16 0 .w64 false), .ins (.movz X1 0 0), .place (n + 2), .ins (.add X9 X0 X1),
    .ins (ldrOff X10 X9 0 .w8 false), .cbz X10 (n + 1), .ins (.addImm X1 X1 1 false), .b (n + 2),
    .place n, .ins (.movz X0 0 0), .ins (.movz X1 0 0), .place (n + 1), .ins .ret]

theorem genArgget_items (gs : List Global) (s : GState) :
    genArgget gs s = .ok ((), arggetItems gs s.nlab, { s with nlab := s.nlab + 3 }) := rfl

/-- Its instructions from the first load on, with the branches filled in. -/
def arggetCode : List Instr :=
  [ldrOff X16 X16 0 .w64 false, ldrOff X9 X16 0 .w64 false, .movz X10 0 0, .subs XZR X0 X10,
    .bcond .lt 14, .subs XZR X0 X9, .bcond .ge 12, .movz X17 8 0, .mul X0 X0 X17, .add X16 X16 X17,
    .add X16 X16 X0, ldrOff X0 X16 0 .w64 false, .movz X1 0 0, .add X9 X0 X1,
    ldrOff X10 X9 0 .w8 false, .cbz X10 5, .addImm X1 X1 1 false, .b (-4), .movz X0 0 0,
    .movz X1 0 0, .ret]

/-- Where the code of `get` starts, in a buffer that has it. -/
structure HasArgget (its : List Item) (gs : List Global) (t : Nat) : Prop where
  split : ∃ pre post n, its = pre ++ (arggetItems gs n ++ post) ∧ t = (coded pre).length ∧
    lblArgget < n ∧ ∀ l, l = lblArgget ∨ n ≤ l → .place l ∉ pre

theorem HasArgget.item (h : HasArgget its gs t) : ∃ n, (∀ k it,
      (coded (arggetItems gs n))[k]? = some it → (coded its)[t + k]? = some it) ∧
    labelPos lblArgget its = some t ∧ labelPos n its = some (t + 20) ∧
    labelPos (n + 1) its = some (t + 22) ∧ labelPos (n + 2) its = some (t + 15) := by
  obtain ⟨pre, post, n, rfl, rfl, hn, hfresh⟩ := h.split
  have hlab : ∀ l k, l = lblArgget ∨ n ≤ l → labelPos l (arggetItems gs n) = some k →
      labelPos l (pre ++ (arggetItems gs n ++ post)) = some ((coded pre).length + k) := by
    intro l k hl hk
    rw [labelPos_append_right (hfresh l hl), labelPos_append_left _ hk, Option.map_some,
      Nat.add_comm]
  have hne : lblArgget ≠ n ∧ lblArgget ≠ n + 1 ∧ lblArgget ≠ n + 2 ∧ n ≠ 0 := by omega
  refine ⟨n, fun k it hk => ?_, hlab _ 0 (.inl rfl) ?_, hlab _ _ (by omega) ?_,
    hlab _ _ (by omega) ?_, hlab _ _ (by omega) ?_⟩
  · have hlt := (List.getElem?_eq_some_iff.1 hk).1
    rw [coded_append, List.getElem?_append_right (by omega), coded_append,
      Nat.add_sub_cancel_left, List.getElem?_append_left hlt, hk]
  · simp [arggetItems, labelPos]
  · simp [arggetItems, labelPos, hne]
  · simp [arggetItems, labelPos, hne]
  · simp [arggetItems, labelPos, hne]

theorem HasArgget.instr (hr : resolve its = some code) (h : HasArgget its gs t)
    (hk : arggetCode[k]? = some i) : code[t + 2 + k]? = some i := by
  obtain ⟨n, hitem, -, hnone, hdone, hloop⟩ := h.item
  have hresolved : ∀ j it i, (coded (arggetItems gs n))[2 + j]? = some it →
      resolveItem (labelPos · its) (rodataOff its) (t + (2 + j)) it = some [i] →
      code[t + 2 + j]? = some i := by
    intro j it i hj hi
    obtain ⟨i', hi', hres⟩ := resolve_item hr (hitem _ it hj)
    rw [hres] at hi
    cases hi
    rw [Nat.add_assoc]
    exact hi'
  have hplain : ∀ j i, (coded (arggetItems gs n))[2 + j]? = some (.ins i) →
      code[t + 2 + j]? = some i :=
    fun j i hj => hresolved j _ i hj rfl
  have hdisp : ∀ (a b w : Nat) (d : Int), (t + a : Nat) - (t + b : Nat) = d → d.bmod w = d →
      (((t + a : Nat) : Int) - (t + b : Nat)).bmod w = d := by
    intro a b w d hd hw
    rw [hd, hw]
  have hlt : k < 21 := (List.getElem?_eq_some_iff.1 hk).1
  interval_cases k <;> cases hk <;> first
    | exact hplain _ _ rfl
    | refine hresolved _ _ _ rfl ?_
  · simp only [resolveItem, hnone, Option.map_some]
    rw [hdisp 20 6 _ 14 (by omega) (by decide)]
  · simp only [resolveItem, hnone, Option.map_some]
    rw [hdisp 20 8 _ 12 (by omega) (by decide)]
  · simp only [resolveItem, hdone, Option.map_some]
    rw [hdisp 22 17 _ 5 (by omega) (by decide)]
  · simp only [resolveItem, hloop, Option.map_some]
    rw [hdisp 15 19 _ (-4) (by omega) (by decide)]

/-! ## Running it -/

theorem userStep_set {rd : Reg} {v : Word} (hi : code[m.pc]? = some i)
    (ht : i.touches m = none) (he : exec i r m = some (m.set rd v).next) :
    userStep mapped code r m = some ((m.set rd v).goto (m.pc + 1)) := by
  rw [userStep_exec hi ht, he, Machine.set_next]

theorem userStep_compare {a b : Reg} (ha : a ≠ 31) (hb : b ≠ 31)
    (hi : code[m.pc]? = some (.subs XZR a b)) :
    userStep mapped code r m = some ((m.flags (m.x a) (m.x b)).goto (m.pc + 1)) := by
  rw [userStep_exec hi rfl, exec, Machine.get_x ha, Machine.get_x hb]
  rfl

theorem userStep_bcond {c : Cond} {off : Int} (hi : code[m.pc]? = some (.bcond c off))
    (ht : (m.pc : Int) + off = t) :
    userStep mapped code r m = some (m.goto (if m.holds c then t else m.pc + 1)) := by
  rw [userStep_exec hi rfl, exec, Machine.branch]
  cases m.holds c with
  | false => rfl
  | true =>
    rw [if_pos rfl, if_pos rfl, show off = (t : Int) - m.pc by omega, jump_to]
    rfl

/-- What a piece of code that only computes leaves alone. -/
structure Same (m m' : Machine) : Prop where
  mem : m'.mem = m.mem
  sp : m'.sp = m.sp
  x30 : m'.x X30 = m.x X30

theorem Same.trans {m m₁ m' : Machine} (h : Same m m₁) (h' : Same m₁ m') : Same m m' :=
  ⟨h'.mem.trans h.mem, h'.sp.trans h.sp, h'.x30.trans h.x30⟩

/-- From the call to the second comparison: an index that is no argument's goes to the end. -/
theorem argget_compares (hr : resolve its = some code) (hc : HasArgget its gs t)
    (h : Ready mapped gs sp args m.mem) (hreach : InReach (dataVa + bssSp gs) t) (hpc : m.pc = t) :
    ∃ m', Reaches mapped code r m m' ∧ Same m m' ∧ m'.x X0 = m.x X0 ∧ m'.x X16 = sp ∧
      m'.pc = if 0 ≤ (m.x X0).toInt ∧ (m.x X0).toInt < args.length then t + 9 else t + 20 := by
  subst hpc
  obtain ⟨n, hitem, -⟩ := hc.item
  have hsaved : Reaches mapped code r m ((m.set X16 sp).goto (m.pc + 3)) :=
    reaches_saved hr h hreach (hitem 0 _ rfl) (hitem 1 _ rfl) (hitem 2 _ rfl)
  have hx : (m.set X16 sp).x X16 = sp := set_x_self (by decide) _ _
  -- the number of arguments, and the first comparison
  let m4 := ((m.set X16 sp).set X9 (BitVec.ofNat 64 args.length)).goto (m.pc + 4)
  have h4 : userStep mapped code r ((m.set X16 sp).goto (m.pc + 3)) = some m4 := by
    rw [userStep_load (by decide) (hc.instr hr (k := 1) rfl) (by
      rw [Machine.goto_x, hx]
      exact h.args.mapped_count)]
    rw [Machine.goto_x, hx, Machine.goto_mem, set_mem, h.args.count, Machine.goto_set]
    rfl
  let m5 := (m4.set X10 0).goto (m.pc + 5)
  have h5 : userStep mapped code r m4 = some m5 := userStep_set (hc.instr hr (k := 2) rfl) rfl rfl
  let m6 := (m5.flags (m5.x X0) (m5.x X10)).goto (m.pc + 6)
  have h6 : userStep mapped code r m5 = some m6 :=
    userStep_compare (by decide) (by decide) (hc.instr hr (k := 3) rfl)
  have hx0 : m5.x X0 = m.x X0 := by
    simp (disch := decide) only [m5, m4, Machine.goto_x, Machine.set_x_of_ne]
  have hx9 : m5.x X9 = BitVec.ofNat 64 args.length := by
    simp (disch := decide) only [m5, m4, Machine.goto_x, Machine.set_x_of_ne, set_x_self]
  have hx10 : m5.x X10 = 0 := by
    simp (disch := decide) only [m5, Machine.goto_x, set_x_self]
  have hx16 : m5.x X16 = sp := by
    simp (disch := decide) only [m5, m4, Machine.goto_x, Machine.set_x_of_ne, set_x_self]
  have hsame : Same m m5 := by
    refine ⟨?_, ?_, ?_⟩
    · simp only [m5, m4, Machine.goto_mem, set_mem]
    · simp only [m5, m4, Machine.goto_sp, Machine.set_sp]
    · simp (disch := decide) only [m5, m4, Machine.goto_x, Machine.set_x_of_ne]
  have hto6 : Reaches mapped code r m m6 :=
    hsaved.trans (.step h4 (.step h5 (.step h6 (.refl m6))))
  have h7 : userStep mapped code r m6 = some (m6.goto (if m6.holds .lt then _ else m.pc + 7)) :=
    userStep_bcond (t := m.pc + 20) (hc.instr hr (k := 4) rfl) (by
      simp only [m6, Machine.goto_pc]
      omega)
  have hlt : m6.holds .lt = decide ((m.x X0).toInt < 0) := by
    simp only [m6, Machine.goto_holds, Machine.holds_lt, hx0, hx10]
    rfl
  by_cases hneg : (m.x X0).toInt < 0
  · rw [hlt, decide_eq_true hneg, if_pos rfl] at h7
    refine ⟨_, hto6.trans (.step h7 (.refl _)), ⟨hsame.mem, hsame.sp, hsame.x30⟩, hx0, hx16, ?_⟩
    rw [if_neg (by omega)]
    rfl
  rw [hlt, decide_eq_false hneg, if_neg Bool.false_ne_true] at h7
  -- the second comparison, with the number
  let m8 := (m6.flags (m6.x X0) (m6.x X9)).goto (m.pc + 8)
  have h8 : userStep mapped code r (m6.goto (m.pc + 7)) = some m8 := by
    rw [userStep_compare (by decide) (by decide) (hc.instr hr (k := 5) rfl), Machine.goto_x,
      Machine.goto_flags, Machine.goto_goto, Machine.goto_pc]
  have h9 : userStep mapped code r m8 = some (m8.goto (if m8.holds .ge then _ else m.pc + 9)) :=
    userStep_bcond (t := m.pc + 20) (hc.instr hr (k := 6) rfl) (by
      simp only [m8, Machine.goto_pc]
      omega)
  have hcount : (BitVec.ofNat 64 args.length).toInt = args.length := by
    have hfew := h.args.few
    rw [BitVec.toInt_ofNat', Int.bmod_eq_of_le (by omega) (by omega)]
  have hge : m8.holds .ge = decide ((args.length : Int) ≤ (m.x X0).toInt) := by
    have hx9' : m6.x X9 = BitVec.ofNat 64 args.length := hx9
    have hx0' : m6.x X0 = m.x X0 := hx0
    simp only [m8, Machine.goto_holds, Machine.holds_ge, hx0', hx9', hcount]
  refine ⟨_, hto6.trans (.step h7 (.step h8 (.step h9 (.refl _)))),
    ⟨hsame.mem, hsame.sp, hsame.x30⟩, hx0, hx16, ?_⟩
  rw [hge, Machine.goto_pc]
  by_cases hout : (args.length : Int) ≤ (m.x X0).toInt
  · rw [decide_eq_true hout, if_pos rfl, if_neg (by omega)]
  · rw [decide_eq_false hout, if_neg Bool.false_ne_true, if_pos (by omega)]

/-- The pointer of the argument, and a length of zero. -/
theorem argget_points (hr : resolve its = some code) (hc : HasArgget its gs t)
    (h : ArgsAt mapped m.mem sp args) (hpc : m.pc = t + 9) (hx16 : m.x X16 = sp) {i : Nat}
    (hi : m.x X0 = BitVec.ofNat 64 i) (hlt : i < args.length) :
    ∃ m', Reaches mapped code r m m' ∧ Same m m' ∧ m'.pc = t + 15 ∧ m'.x X1 = 0 ∧
      m'.x X0 = m.mem.load (sp + BitVec.ofNat 64 (8 * (i + 1))) .w64 false := by
  let m₁ := (m.set X17 8).goto (t + 10)
  have h₁ : userStep mapped code r m = some m₁ := by
    rw [userStep_set (by rw [hpc]; exact hc.instr hr (k := 7) rfl) rfl rfl, hpc]
    rfl
  let m2 := (m₁.set X0 (m₁.get X0 * m₁.get X17)).goto (t + 11)
  have h₂ : userStep mapped code r m₁ = some m2 := userStep_set (hc.instr hr (k := 8) rfl) rfl rfl
  let m3 := (m2.set X16 (m2.get X16 + m2.get X17)).goto (t + 12)
  have h3 : userStep mapped code r m2 = some m3 := userStep_set (hc.instr hr (k := 9) rfl) rfl rfl
  let m4 := (m3.set X16 (m3.get X16 + m3.get X0)).goto (t + 13)
  have h4 : userStep mapped code r m3 = some m4 := userStep_set (hc.instr hr (k := 10) rfl) rfl rfl
  have haddr : m4.x X16 = sp + BitVec.ofNat 64 (8 * (i + 1)) := by
    simp (disch := decide) only [m4, m3, m2, m₁, Machine.goto_x, Machine.set_x_of_ne,
      set_x_self, Machine.get_x, hx16, hi]
    rw [BitVec.add_assoc, show 8 * (i + 1) = 8 + i * 8 by omega, ofNat_add,
      BitVec.ofNat_mul]
    rfl
  have hmem : m4.mem = m.mem := by
    simp only [m4, m3, m2, m₁, Machine.goto_mem, set_mem]
  let m5 := (m4.set X0 (m.mem.load (sp + BitVec.ofNat 64 (8 * (i + 1))) .w64 false)).goto (t + 14)
  have h5 : userStep mapped code r m4 = some m5 := by
    rw [userStep_load (by decide) (hc.instr hr (k := 11) rfl) (by
      rw [haddr]
      exact h.mapped (i + 1) hlt), haddr, hmem]
    rfl
  let m6 := (m5.set X1 0).goto (t + 15)
  have h6 : userStep mapped code r m5 = some m6 := userStep_set (hc.instr hr (k := 12) rfl) rfl rfl
  refine ⟨m6, .step h₁ (.step h₂ (.step h3 (.step h4 (.step h5 (.step h6 (.refl _)))))), ⟨?_, ?_, ?_⟩,
    rfl, ?_, ?_⟩
  · simp only [m6, m5, Machine.goto_mem, set_mem, hmem]
  · simp only [m6, m5, m4, m3, m2, m₁, Machine.goto_sp, Machine.set_sp]
  · simp (disch := decide) only [m6, m5, m4, m3, m2, m₁, Machine.goto_x, Machine.set_x_of_ne]
  · simp (disch := decide) only [m6, Machine.goto_x, set_x_self]
  · simp (disch := decide) only [m6, m5, Machine.goto_x, Machine.set_x_of_ne, set_x_self]

theorem Mem.load_byte (mem : Mem) (a : Word) :
    (mem.load a .w8 false == 0) = decide (mem a = 0) := by
  have hread : mem.load a .w8 false = (mem a).setWidth 64 := by
    apply eq_of_toNat_eq
    have hb := (mem a).isLt
    change (BitVec.ofNat 64 ((mem a).toNat + 256 * 0)).toNat = _
    rw [toNat_ofNat, toNat_setWidth]
    omega
  rw [hread, Bool.eq_iff_iff, beq_iff_eq, decide_eq_true_iff]
  constructor
  · intro h
    apply eq_of_toNat_eq
    have hz := congrArg BitVec.toNat h
    have hb := (mem a).isLt
    rw [toNat_setWidth] at hz
    change _ = 0 at hz
    change _ = 0
    omega
  · intro h
    rw [h]
    rfl

/-- One byte of the string: the loop ends at a zero. -/
theorem argget_reads (hr : resolve its = some code) (hc : HasArgget its gs t)
    (hpc : m.pc = t + 15) (hb : mapped (m.x X0 + m.x X1) = true) :
    ∃ m', Reaches mapped code r m m' ∧ Same m m' ∧ m'.x X0 = m.x X0 ∧ m'.x X1 = m.x X1 ∧
      m'.pc = if m.mem (m.x X0 + m.x X1) = 0 then t + 22 else t + 18 := by
  let m₁ := (m.set X9 (m.x X0 + m.x X1)).goto (t + 16)
  have h₁ : userStep mapped code r m = some m₁ := by
    rw [userStep_set (by rw [hpc]; exact hc.instr hr (k := 13) rfl) rfl rfl, hpc]
    rfl
  have hx9 : m₁.x X9 = m.x X0 + m.x X1 := by
    simp (disch := decide) only [m₁, Machine.goto_x, set_x_self]
  let m2 := (m₁.set X10 (m₁.mem.load (m.x X0 + m.x X1) .w8 false)).goto (t + 17)
  have h₂ : userStep mapped code r m₁ = some m2 := by
    rw [userStep_load (by decide) (hc.instr hr (k := 14) rfl) (by
      rw [hx9]
      exact has_iff.2 fun k hk => by
        obtain rfl : k = 0 := by
          simp only [Width.bytes] at hk
          omega
        rw [BitVec.add_zero]
        exact hb), hx9]
    rfl
  have hx10 : (m2.get X10 == 0) = decide (m.mem (m.x X0 + m.x X1) = 0) := by
    rw [Machine.get_x (by decide), ← Mem.load_byte]
    simp (disch := decide) only [m2, m₁, Machine.goto_x, set_x_self, Machine.goto_mem,
      set_mem]
  have h3 : userStep mapped code r m2 =
      some (m2.goto (if m.mem (m.x X0 + m.x X1) = 0 then t + 22 else t + 18)) := by
    rw [userStep_exec (hc.instr hr (k := 15) rfl) rfl, exec, Machine.branch, hx10]
    by_cases hz : m.mem (m.x X0 + m.x X1) = 0
    · rw [decide_eq_true hz, if_pos rfl, if_pos hz,
        show (5 : Int) = (t + 22 : Nat) - m2.pc by simp only [m2, Machine.goto_pc]; omega,
        jump_to]
      rfl
    · rw [decide_eq_false hz, if_neg Bool.false_ne_true, if_neg hz]
      rfl
  refine ⟨_, .step h₁ (.step h₂ (.step h3 (.refl _))), ⟨?_, ?_, ?_⟩, ?_, ?_, rfl⟩
  · simp only [m2, m₁, Machine.goto_mem, set_mem]
  · simp only [m2, m₁, Machine.goto_sp, Machine.set_sp]
  · simp (disch := decide) only [m2, m₁, Machine.goto_x, Machine.set_x_of_ne]
  · simp (disch := decide) only [m2, m₁, Machine.goto_x, Machine.set_x_of_ne]
  · simp (disch := decide) only [m2, m₁, Machine.goto_x, Machine.set_x_of_ne]

/-- The loop over the bytes of a string. -/
theorem argget_counts {s : List UInt8} (hr : resolve its = some code) (hc : HasArgget its gs t) :
    ∀ (left j : Nat) {m : Machine}, CStrAt mapped m.mem (m.x X0) s → j + left = s.length →
      m.pc = t + 15 → m.x X1 = BitVec.ofNat 64 j →
      ∃ m', Reaches mapped code r m m' ∧ Same m m' ∧ m'.pc = t + 22 ∧ m'.x X0 = m.x X0 ∧
        m'.x X1 = BitVec.ofNat 64 s.length := by
  intro left
  induction left with
  | zero =>
    intro j m h hj hpc hx1
    obtain rfl : j = s.length := by omega
    have hb := has_iff.1 h.mapped s.length (by omega)
    obtain ⟨m', hm', hsame, hx0, hx1', hpc'⟩ := argget_reads hr hc (r := r) hpc (by rw [hx1]; exact hb)
    rw [hx1, if_pos h.zero] at hpc'
    exact ⟨m', hm', hsame, hpc', hx0, hx1'.trans hx1⟩
  | succ left ih =>
    intro j m h hj hpc hx1
    have hb := has_iff.1 h.mapped j (by omega)
    obtain ⟨m', hm', hsame, hx0, hx1', hpc'⟩ := argget_reads hr hc (r := r) hpc (by rw [hx1]; exact hb)
    have hne : m.mem (m.x X0 + m.x X1) ≠ 0 := by
      rw [hx1, h.bytes j (by omega)]
      intro hz
      have hzero : s.get ⟨j, by omega⟩ = 0 := UInt8.toBitVec_inj.1 hz
      exact h.nonzero (hzero ▸ List.get_mem s ⟨j, by omega⟩)
    rw [if_neg hne] at hpc'
    -- one more, and back to the start of the loop
    let m₁ := (m'.set X1 (BitVec.ofNat 64 (j + 1))).goto (t + 19)
    have h₁ : userStep mapped code r m' = some m₁ := by
      have hv : m'.x X1 + ((1 : BitVec 12).zeroExtend 64 <<< 0) = BitVec.ofNat 64 (j + 1) := by
        rw [hx1', hx1, ofNat_add]
        rfl
      rw [userStep_exec (by rw [hpc']; exact hc.instr hr (k := 16) rfl) rfl, exec,
        Machine.setSp_eq (by decide), Machine.getSp_x (by decide), Machine.set_next, hpc']
      simp only [Bool.false_eq_true, if_false, hv]
      rfl
    have h₂ : userStep mapped code r m₁ = some (m₁.goto (t + 15)) := by
      rw [userStep_exec (hc.instr hr (k := 17) rfl) rfl, exec,
        show (-4 : Int) = (t + 15 : Nat) - m₁.pc by simp only [m₁, Machine.goto_pc]; omega,
        jump_to]
      rfl
    have hstep : Same m' (m₁.goto (t + 15)) := by
      refine ⟨?_, ?_, ?_⟩
      · simp only [m₁, Machine.goto_mem, set_mem]
      · simp only [m₁, Machine.goto_sp, Machine.set_sp]
      · simp (disch := decide) only [m₁, Machine.goto_x, Machine.set_x_of_ne]
    have hx01 : (m₁.goto (t + 15)).x X0 = m.x X0 := by
      rw [← hx0]
      simp (disch := decide) only [m₁, Machine.goto_x, Machine.set_x_of_ne]
    have hx11 : (m₁.goto (t + 15)).x X1 = BitVec.ofNat 64 (j + 1) := by
      simp (disch := decide) only [m₁, Machine.goto_x, set_x_self]
    obtain ⟨m2, hm2, hsame2, hpc2, hx02, hx12⟩ := ih (j + 1) (m := m₁.goto (t + 15))
      (by rw [hx01, hstep.mem, hsame.mem]; exact h) (by omega) rfl hx11
    exact ⟨m2, hm'.trans (.step h₁ (.step h₂ hm2)), (hsame.trans hstep).trans hsame2, hpc2,
      hx02.trans hx01, hx12⟩

theorem indexOf_addrOf (h : textVa + 4 * k < 2 ^ 64) : indexOf (addrOf k) = some k := by
  have hnat : (addrOf k).toNat = textVa + 4 * k := by
    rw [addrOf, toNat_ofNat, Nat.mod_eq_of_lt h]
  unfold indexOf
  rw [hnat, if_pos (by omega)]
  congr 1
  omega

variable (mapped r) in
theorem argget_ret (hr : resolve its = some code) (hc : HasArgget its gs t)
    (hpc : m.pc = t + 22) (hx30 : m.x X30 = addrOf k) (hk : textVa + 4 * k < 2 ^ 64) :
    userStep mapped code r m = some (m.goto k) := by
  rw [userStep_exec (by rw [hpc]; exact hc.instr hr (k := 20) rfl) rfl, exec,
    Machine.get_x (by decide), hx30, indexOf_addrOf hk]
  rfl

variable (mapped r) in
theorem argget_nothing (hr : resolve its = some code) (hc : HasArgget its gs t)
    (hpc : m.pc = t + 20) :
    ∃ m', Reaches mapped code r m m' ∧ Same m m' ∧ m'.pc = t + 22 ∧ m'.x X0 = 0 ∧ m'.x X1 = 0 := by
  let m₁ := (m.set X0 0).goto (t + 21)
  have h₁ : userStep mapped code r m = some m₁ := by
    rw [userStep_set (by rw [hpc]; exact hc.instr hr (k := 18) rfl) rfl rfl, hpc]
    rfl
  let m2 := (m₁.set X1 0).goto (t + 22)
  have h₂ : userStep mapped code r m₁ = some m2 := userStep_set (hc.instr hr (k := 19) rfl) rfl rfl
  refine ⟨m2, .step h₁ (.step h₂ (.refl _)), ⟨?_, ?_, ?_⟩, rfl, ?_, ?_⟩
  · simp only [m2, m₁, Machine.goto_mem, set_mem]
  · simp only [m2, m₁, Machine.goto_sp, Machine.set_sp]
  · simp (disch := decide) only [m2, m₁, Machine.goto_x, Machine.set_x_of_ne]
  · simp (disch := decide) only [m2, m₁, Machine.goto_x, Machine.set_x_of_ne, set_x_self]
  · simp (disch := decide) only [m2, Machine.goto_x, set_x_self]

section

variable (hr : resolve its = some code) (hc : HasArgget its gs t)
  (h : Ready mapped gs sp args m.mem) (hreach : InReach (dataVa + bssSp gs) t) (hpc : m.pc = t)
include hr hc h hreach hpc

theorem argget_finds : ∃ m', Reaches mapped code r m m' ∧ Same m m' ∧ m'.pc = t + 22 ∧
      SliceIs m'.mem (m'.x X0) (m'.x X1) (argOf args (m.x X0)) := by
  obtain ⟨m₁, hm1, hsame1, hx0, hx16, hpc1⟩ := argget_compares hr hc (r := r) h hreach hpc
  by_cases hin : 0 ≤ (m.x X0).toInt ∧ (m.x X0).toInt < args.length
  · obtain ⟨i, hi⟩ := Int.eq_ofNat_of_zero_le hin.1
    have hlt : i < args.length := by omega
    have hx0i : m.x X0 = BitVec.ofNat 64 i := by
      rw [← BitVec.ofInt_toInt (x := m.x X0), hi]
      rfl
    have harg : argOf args (m.x X0) = args.get ⟨i, hlt⟩ := by
      rw [argOf, if_pos hin.1, hi, Int.toNat_natCast, List.getD_eq_getElem?_getD,
        List.getElem?_eq_getElem hlt]
      rfl
    have hargs : ArgsAt mapped m₁.mem sp args := by
      rw [hsame1.mem]
      exact h.args
    rw [if_pos hin] at hpc1
    obtain ⟨m2, hm2, hsame2, hpc2, hx12, hx02⟩ := argget_points hr hc (r := r) hargs hpc1 hx16
      (hx0.trans hx0i) hlt
    have hstr : CStrAt mapped m2.mem (m2.x X0) (args.get ⟨i, hlt⟩) := by
      rw [hx02, hsame2.mem]
      exact hargs.arg i hlt
    obtain ⟨m3, hm3, hsame3, hpc3, hx03, hx13⟩ := argget_counts hr hc (r := r) _ 0 hstr
      (Nat.zero_add _) hpc2 hx12
    refine ⟨m3, hm1.trans (hm2.trans hm3), (hsame1.trans hsame2).trans hsame3, hpc3, ?_⟩
    have hshort := hstr.short
    rw [harg, hx03, hx13, hsame3.mem]
    refine ⟨?_, hstr.bytes⟩
    rw [toNat_ofNat, Nat.mod_eq_of_lt (by omega)]
  · rw [if_neg hin] at hpc1
    obtain ⟨m2, hm2, hsame2, hpc2, -, hx12⟩ := argget_nothing mapped r hr hc hpc1
    have harg : argOf args (m.x X0) = [] := by
      rw [argOf]
      split
      · rw [List.getD_eq_getElem?_getD, List.getElem?_eq_none (by omega)]
        rfl
      · rfl
    refine ⟨m2, hm1.trans hm2, hsame1.trans hsame2, hpc2, ?_⟩
    rw [harg, hx12]
    exact ⟨rfl, fun j hj => nomatch hj⟩

theorem argget_returns (hx30 : m.x X30 = addrOf k) (hk : textVa + 4 * k < 2 ^ 64) :
    ∃ m', Reaches mapped code r m m' ∧ m'.pc = k ∧ m'.mem = m.mem ∧
      SliceIs m'.mem (m'.x X0) (m'.x X1) (argOf args (m.x X0)) := by
  obtain ⟨m₁, hm1, hsame, hpc1, hslice⟩ := argget_finds hr hc (r := r) h hreach hpc
  have hret := argget_ret mapped r hr hc hpc1 (hsame.x30.trans hx30) hk
  exact ⟨m₁.goto k, hm1.trans (.step hret (.refl _)), rfl, hsame.mem, hslice⟩

end

end Methods

/-! ## Where the code stands -/

section Sites

variable {c : Compiled} {args : List (GenM Unit)} {pre its post : List Item}

/-- A piece of the buffer that `gen_method` wrote for a method of `Args`. -/
structure Site (c : Compiled) (name : String) (args : List (GenM Unit)) (pre its post : List Item) :
    Prop where
  split : c.items = pre ++ (its ++ post)
  written : ∃ E i m s s', E.unit = c.checked ∧ m ∈ CapId.args.methods ∧ m.name = name ∧
    genMethod E i .args m args s = .ok ((), its, s')

theorem Site.count (h : Site c "count" args pre its post) :
    its = [.adrp X16 .bss (bssSp c.checked.globals), .add12 X16 .bss (bssSp c.checked.globals),
      .ins (ldrOff X16 X16 0 .w64 false), .ins (ldrOff X0 X16 0 .w64 false)] := by
  obtain ⟨E, i, m, s, s', hE, -, hm, hg⟩ := h.written
  simp only [genMethod, hm, if_true, hE] at hg
  cases hg
  rfl

theorem Site.get {a : GenM Unit} (h : Site c "get" [a] pre its post) :
    ∃ l, its = l ++ [Item.bl lblArgget] := by
  obtain ⟨E, i, m, s, s', -, -, hm, hg⟩ := h.written
  have hne : m.name ≠ "count" := by
    rw [hm]
    decide
  simp only [genMethod, if_neg hne] at hg
  obtain ⟨_, l, s1, -, l₂, hg1, rfl⟩ := Emit.bind_ok.1 hg
  obtain ⟨_, l₃, s2, hmod, l4, hg2, rfl⟩ := Emit.bind_ok.1 hg1
  obtain ⟨rfl, -⟩ := Emit.modify_ok.1 hmod
  obtain ⟨rfl, -⟩ := Emit.out_ok.1 hg2
  exact ⟨l, rfl⟩

theorem Site.item {name : String} (h : Site c name args pre its post) {it : Item}
    (hk : (coded its)[k]? = some it) : (coded c.items)[(coded pre).length + k]? = some it := by
  have hlt := (List.getElem?_eq_some_iff.1 hk).1
  rw [h.split, coded_append, List.getElem?_append_right (by omega), coded_append,
    Nat.add_sub_cancel_left, List.getElem?_append_left hlt, hk]

theorem genStart_first (c : Compiled) : ∃ rest, c.items =
    [Item.ins (movSp X0 SP), Item.adrp X16 .bss (bssSp c.checked.globals),
      Item.add12 X16 .bss (bssSp c.checked.globals), Item.ins (strOff X0 X16 0 .w64)] ++ rest := by
  obtain ⟨_, l₁, s1, h₁, l₂, -, heq⟩ := Emit.bind_ok.1 c.gen
  obtain ⟨_, la, sa, ha, lb, hb, rfl⟩ := Emit.bind_ok.1 h₁
  obtain ⟨_, lc, sc, hc, ld, hd, rfl⟩ := Emit.bind_ok.1 hb
  obtain ⟨_, le, se, he, lf, -, rfl⟩ := Emit.bind_ok.1 hd
  obtain ⟨rfl, rfl⟩ := Emit.out_ok.1 ha
  obtain ⟨rfl, rfl⟩ := Emit.out_ok.1 hc
  obtain ⟨rfl, rfl⟩ := Emit.out_ok.1 he
  refine ⟨lf ++ l₂, ?_⟩
  rw [heq]
  simp

theorem hasArgget (ht : labelPos lblArgget c.items = some t) :
    HasArgget c.items c.checked.globals t := by
  obtain ⟨a, f, g, r, k, p, l₁, l₂, s, s1, s2, rfl, hn, h₁, h₂⟩ :=
    genItems_parts (checkUnit_recorded c.check) (entry_index c.check) c.gen
  have hm := p.marks
  have hone : lblArgget = 1 := rfl
  have hplace : .place lblArgget ∈ c.items := by
    obtain ⟨q, q', hq, -⟩ := labelPos_split ht
    rw [hq]
    simp
  -- none of the other parts has the label
  have hprog : .place lblArgget ∉ a := fun h => by
    have hb := p.label_prog h
    omega
  have hfail : .place lblArgget ∉ f := fun h => by
    have hb := p.label_fail h
    omega
  have hrange : .place lblArgget ∉ r := fun h => by
    have hb := p.label_range h
    omega
  have hcstr : .place lblArgget ∉ l₂ := fun h => by
    have hseg : Seg [] (fun _ => False) [lblCstr] [] s1.nlab s2.nlab l₂ :=
      Fits.onlyIf (fun _ => fits_genCstr _) _ _ _ _ h₂
    have hseg1 : Seg [] (fun _ => False) [lblArgget] [] s.nlab s1.nlab l₁ :=
      Fits.onlyIf (fun _ => fits_genArgget _) _ _ _ _ h₁
    have hmono := hseg1.mono
    rcases hseg.labels _ h with hb | hb
    · omega
    · simp at hb
  have hl1 : .place lblArgget ∈ l₁ := by
    rw [p.eq] at hplace
    simp only [List.mem_append] at hplace
    tauto
  cases hneed : s.needArgget with
  | false =>
    rw [hneed] at h₁
    obtain ⟨-, rfl, -⟩ := Emit.pure_ok.1 h₁
    cases hl1
  | true =>
    rw [hneed] at h₁
    change genArgget c.checked.globals s = _ at h₁
    rw [genArgget_items] at h₁
    cases h₁
    have heq : c.items = (a ++ f) ++ (arggetItems c.checked.globals s.nlab ++ (l₂ ++ r)) := by
      rw [p.eq]
      simp only [List.append_assoc]
    have hfresh : ∀ l, l = lblArgget ∨ s.nlab ≤ l → .place l ∉ a ++ f := by
      intro l hl hmem
      rcases List.mem_append.1 hmem with h | h
      · have hb := p.label_prog h
        omega
      · have hb := p.label_fail h
        omega
    refine ⟨a ++ f, l₂ ++ r, s.nlab, heq, ?_, by omega, hfresh⟩
    rw [heq, labelPos_append_right (hfresh _ (.inl rfl))] at ht
    simpa [arggetItems, labelPos] using ht.symm

end Sites

/-! ## The methods of a compiled program -/

section Compiled

variable {mapped : Word → Bool} {c : Compiled} {args : List (GenM Unit)} {pre its post : List Item}
  {r : Reply} {m : Machine} {sp : Word} {argv : List (List UInt8)}

/-- Where the entry code of a program stores the stack pointer. -/
def startWord (c : Compiled) : Word := BitVec.ofInt 64 (formed (dataVa + bssSp c.checked.globals) 1)

theorem start_forms (hpc : m.pc = 0) : userSteps mapped c.code r 3 m =
    some (((m.set X0 m.sp).set X16 (startWord c)).goto 3) := by
  obtain ⟨rest, heq⟩ := genStart_first c
  have h₀ : c.code[m.pc]? = some (movSp X0 SP) := by
    rw [hpc]
    refine resolve_ins c.resolved ?_
    rw [heq]
    rfl
  have hstep : userStep mapped c.code r m = some ((m.set X0 m.sp).goto 1) := by
    have hsp : m.getSp SP + ((0 : BitVec 12).zeroExtend 64 <<< 0) = m.sp := BitVec.add_zero _
    rw [userStep_exec h₀ rfl, movSp, exec, Machine.setSp_eq (by decide), Machine.set_next, hpc]
    simp only [Bool.false_eq_true, if_false, hsp]
  have hpair : userSteps mapped c.code r (0 + 2) ((m.set X0 m.sp).goto 1) = _ :=
    userSteps_pair c.resolved 0 (by rw [heq]; rfl) (by rw [heq]; rfl)
  rw [userSteps_succ hstep, hpair]
  rfl

/-- The store: the stack pointer goes where the address leads, if the program has that memory. -/
theorem start_stores (hpc : m.pc = 0) : userSteps mapped c.code r 4 m =
    if has mapped (startWord c) 8 then some { ((m.set X0 m.sp).set X16 (startWord c)).goto 4 with
        mem := m.mem.write (startWord c) 8 m.sp }
    else none := by
  obtain ⟨rest, heq⟩ := genStart_first c
  let m3 := ((m.set X0 m.sp).set X16 (startWord c)).goto 3
  have hi : c.code[m3.pc]? = some (.str X0 X16 0 .w64) := by
    refine resolve_ins c.resolved ?_
    rw [heq]
    rfl
  have hx0 : m3.get X0 = m.sp := by
    simp (disch := decide) only [m3, Machine.get_x, Machine.goto_x, Machine.set_x_of_ne,
      set_x_self]
  have hx16 : m3.getSp X16 + BitVec.ofInt 64 0 = startWord c := by
    simp (disch := decide) only [m3, Machine.getSp_x, Machine.goto_x, set_x_self]
    exact BitVec.add_zero _
  have hmem : m3.mem = m.mem := by
    simp only [m3, Machine.goto_mem, set_mem]
  have ht : (Instr.str X0 X16 0 .w64).touches m3 = some (startWord c, 8) := by
    rw [← hx16]
    rfl
  have hsplit : userSteps mapped c.code r 4 m = userStep mapped c.code r m3 := by
    have hadd : userSteps mapped c.code r 4 m = _ := userSteps_add 3 1 m
    rw [hadd, start_forms hpc]
    exact Option.bind_fun_some _
  rw [hsplit]
  split
  · rename_i ha
    rw [userStep_access hi ht ha, exec, hx16, hx0, hmem]
    rfl
  · rename_i ha
    exact userStep_fault hi ht (Bool.eq_false_iff.2 ha)

/-- `Args.count()` where it stands in a program. -/
theorem Site.count_returns (h : Site c "count" args pre its post)
    (hready : Ready mapped c.checked.globals sp argv m.mem) (hpc : m.pc = (coded pre).length)
    (hreach : InReach (dataVa + bssSp c.checked.globals) m.pc) :
    ∃ m', Reaches mapped c.code r m m' ∧ m'.pc = (coded (pre ++ its)).length ∧ m'.mem = m.mem ∧
      m'.x X0 = BitVec.ofNat 64 argv.length := by
  have hits := h.count
  have hitem : ∀ k it, (coded its)[k]? = some it → (coded c.items)[m.pc + k]? = some it := by
    intro k it hk
    rw [hpc]
    exact h.item hk
  subst hits
  obtain ⟨m', hm', hpc', hmem, hx0⟩ := Verkos.Sav.count_returns c.resolved (r := r) hready hreach
    (hitem 0 _ rfl) (hitem 1 _ rfl) (hitem 2 _ rfl) (hitem 3 _ rfl)
  refine ⟨m', hm', ?_, hmem, hx0⟩
  rw [hpc', hpc, coded_append, List.length_append]
  rfl

/-- `Args.get(i)` where it stands, from the call on: the index is in `x0`. -/
theorem Site.get_returns {a : GenM Unit} (h : Site c "get" [a] pre its post)
    (hd : DisplacementsFit c.items) (hready : Ready mapped c.checked.globals sp argv m.mem)
    (hpc : m.pc + 1 = (coded (pre ++ its)).length)
    (hreach : ∀ t, labelPos lblArgget c.items = some t →
      InReach (dataVa + bssSp c.checked.globals) t) (hk : textVa + 4 * (m.pc + 1) < 2 ^ 64) :
    ∃ m', Reaches mapped c.code r m m' ∧ m'.pc = m.pc + 1 ∧ m'.mem = m.mem ∧
      SliceIs m'.mem (m'.x X0) (m'.x X1) (argOf argv (m.x X0)) := by
  obtain ⟨l, rfl⟩ := h.get
  have hcall : (coded c.items)[m.pc]? = some (.bl lblArgget) := by
    have hlen : (coded pre).length + (coded l).length = m.pc := by
      rw [coded_append, coded_append, List.length_append, List.length_append] at hpc
      change m.pc + 1 = _ + (_ + 1) at hpc
      omega
    have hlast : (coded (l ++ [Item.bl lblArgget]))[(coded l).length]? = some (.bl lblArgget) := by
      rw [coded_append, List.getElem?_append_right le_rfl, Nat.sub_self]
      rfl
    rw [← hlen]
    exact h.item hlast
  obtain ⟨i, hi, hres⟩ := resolve_item c.resolved hcall
  obtain ⟨t, ht, hit⟩ := Option.map_eq_some_iff.1 hres
  cases hit
  rw [hd _ _ _ _ _ hcall rfl ht] at hi
  let m₁ := (m.set X30 (addrOf (m.pc + 1))).goto t
  have h₁ : userStep mapped c.code r m = some m₁ := by
    rw [userStep_exec hi rfl, exec]
    have hj := jump_to (m.set X30 (addrOf (m.pc + 1))) t
    rw [set_pc] at hj
    exact hj
  have hmem : m₁.mem = m.mem := by
    simp only [m₁, Machine.goto_mem, set_mem]
  have hx0 : m₁.x X0 = m.x X0 := by
    simp (disch := decide) only [m₁, Machine.goto_x, Machine.set_x_of_ne]
  have hx30 : m₁.x X30 = addrOf (m.pc + 1) := by
    simp (disch := decide) only [m₁, Machine.goto_x, set_x_self]
  obtain ⟨m', hm', hpc', hmem', hslice⟩ := argget_returns c.resolved (hasArgget ht) (r := r)
    (by rw [hmem]; exact hready) (hreach t ht) rfl hx30 hk
  exact ⟨m', .step h₁ hm', hpc', hmem'.trans hmem, hx0 ▸ hslice⟩

end Compiled

end Verkos.Sav
