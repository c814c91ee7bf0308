import Verkos.Sav.Syntax

/-!
# The instructions savc writes and what they do

One constructor for each encoder of `arm.c`, with the operands as the encoding keeps them: an
immediate is what is left of it after the mask, a load or store offset is the one the chosen form
(scaled, or nine bits unscaled) reaches. Register 31 is the stack pointer as the base of an access
and in the immediate adds, and zero elsewhere.

The machine has the general registers, the stack pointer, the four flags, a byte memory and a
program counter that counts instructions from the start of `.text`. Code is fetched from the list
the generator produced. `svc` hands the machine to the kernel: what comes back in `x0` and in
memory is an argument of the step.
-/

namespace Verkos.Sav

/-- A register number. 31 is `xzr` or `sp`, as the instruction reads it. -/
abbrev Reg := Fin 32

theorem neZero32 : NeZero 32 := ⟨by decide⟩
theorem neZero4 : NeZero 4 := ⟨by decide⟩

abbrev X0 : Reg := 0
abbrev X1 : Reg := 1
abbrev X2 : Reg := 2
abbrev X3 : Reg := 3
abbrev X4 : Reg := 4
abbrev X5 : Reg := 5
abbrev X6 : Reg := 6
abbrev X7 : Reg := 7
abbrev X8 : Reg := 8
abbrev X9 : Reg := 9
abbrev X10 : Reg := 10
abbrev X11 : Reg := 11
abbrev X16 : Reg := 16
abbrev X17 : Reg := 17
abbrev X29 : Reg := 29
abbrev X30 : Reg := 30
abbrev XZR : Reg := 31
abbrev SP : Reg := 31

/-- The condition codes the generator uses. -/
inductive Cond where
  | eq | ne | hs | lo | hi | ls | ge | lt | gt | le
deriving DecidableEq, Repr

inductive Instr where
  | movz (rd : Reg) (imm16 : BitVec 16) (hw : Fin 4)
  | movk (rd : Reg) (imm16 : BitVec 16) (hw : Fin 4)
  | movn (rd : Reg) (imm16 : BitVec 16) (hw : Fin 4)
  | mov (rd rm : Reg)
  | addImm (rd rn : Reg) (imm12 : BitVec 12) (sh : Bool)
  | subImm (rd rn : Reg) (imm12 : BitVec 12) (sh : Bool)
  | add (rd rn rm : Reg)
  | sub (rd rn rm : Reg)
  | subs (rd rn rm : Reg)
  | and (rd rn rm : Reg)
  | orr (rd rn rm : Reg)
  | eor (rd rn rm : Reg)
  | mul (rd rn rm : Reg)
  | sdiv (rd rn rm : Reg)
  | udiv (rd rn rm : Reg)
  | msub (rd rn rm ra : Reg)
  | lslv (rd rn rm : Reg)
  | lsrv (rd rn rm : Reg)
  | asrv (rd rn rm : Reg)
  | mvn (rd rm : Reg)
  | neg (rd rm : Reg)
  | cset (rd : Reg) (c : Cond)
  | sxt (rd rn : Reg) (w : Width)
  | uxt (rd rn : Reg) (w : Width)
  | ldr (rt rn : Reg) (off : Int) (sz : Width) (isSigned : Bool)
  | str (rt rn : Reg) (off : Int) (sz : Width)
  | stpPre (rt rt2 rn : Reg) (off : Int)
  | ldpPost (rt rt2 rn : Reg) (off : Int)
  | adrp (rd : Reg) (imm21 : Int)
  | b (off26 : Int)
  | bl (off26 : Int)
  | bcond (c : Cond) (off19 : Int)
  | cbz (rt : Reg) (off19 : Int)
  | cbnz (rt : Reg) (off19 : Int)
  | ret
  | svc
deriving DecidableEq, Repr

/-! ## The encoders that choose or cut -/

/-- The offset a load or store reaches: itself in the scaled form, else its low nine bits. -/
def encOffset (off : Int) (sz : Width) : Int :=
  if 0 ≤ off ∧ off % sz.bytes = 0 ∧ off / sz.bytes < 4096 then off else off.bmod 512

/-- `a_ldr_off`. A 64-bit load has nothing to extend. -/
def ldrOff (rt rn : Reg) (off : Int) (sz : Width) (isSigned : Bool) : Instr :=
  .ldr rt rn (encOffset off sz) sz (isSigned && sz != .w64)

/-- `a_str_off`. -/
def strOff (rt rn : Reg) (off : Int) (sz : Width) : Instr := .str rt rn (encOffset off sz) sz

/-- `a_mov_sp`: `add rd, rn, #0`, the only way to name `sp`. -/
def movSp (rd rn : Reg) : Instr := .addImm rd rn 0 false

/-! ## The machine -/

abbrev Mem := Word → BitVec 8

namespace Mem

/-- `n` bytes from `a` up, the lowest first. -/
def read (m : Mem) (a : Word) : Nat → Nat
  | 0 => 0
  | n + 1 => (m a).toNat + 256 * read m (a + 1) n

/-- The low `n` bytes of `v` to `a` up. -/
def write (m : Mem) (a : Word) (n : Nat) (v : Word) : Mem := fun q =>
  if (q - a).toNat < n then BitVec.ofNat 8 (v.toNat >>> (8 * (q - a).toNat)) else m q

end Mem

structure Machine where
  x : Reg → Word
  sp : Word
  n : Bool
  z : Bool
  c : Bool
  v : Bool
  mem : Mem
  pc : Nat

namespace Machine

/-- Read a register, 31 as zero. -/
def get (m : Machine) (r : Reg) : Word := if r = 31 then 0 else m.x r

/-- Read a register, 31 as the stack pointer. -/
def getSp (m : Machine) (r : Reg) : Word := if r = 31 then m.sp else m.x r

/-- Write a register, 31 to nowhere. -/
def set (m : Machine) (r : Reg) (v : Word) : Machine :=
  if r = 31 then m else { m with x := fun q => if q = r then v else m.x q }

/-- Write a register, 31 to the stack pointer. -/
def setSp (m : Machine) (r : Reg) (v : Word) : Machine :=
  if r = 31 then { m with sp := v } else { m with x := fun q => if q = r then v else m.x q }

/-- The flags of `a - b`. -/
def flags (m : Machine) (a b : Word) : Machine :=
  { m with
    n := (a - b).msb
    z := a - b == 0
    c := b ≤ a
    v := (a - b).toInt != a.toInt - b.toInt }

def holds (m : Machine) : Cond → Bool
  | .eq => m.z
  | .ne => !m.z
  | .hs => m.c
  | .lo => !m.c
  | .hi => m.c && !m.z
  | .ls => !(m.c && !m.z)
  | .ge => m.n == m.v
  | .lt => m.n != m.v
  | .gt => !m.z && m.n == m.v
  | .le => !(!m.z && m.n == m.v)

def next (m : Machine) : Machine := { m with pc := m.pc + 1 }

end Machine

/-- Where `.text` starts. -/
def textVa : Nat := 0x400100

/-- Where the globals start. -/
def dataVa : Nat := 0x500000

/-- The address of an instruction. -/
def addrOf (pc : Nat) : Word := BitVec.ofNat 64 (textVa + 4 * pc)

/-- The instruction at an address, if it is one of `.text`. -/
def indexOf (a : Word) : Option Nat :=
  if textVa ≤ a.toNat ∧ (a.toNat - textVa) % 4 = 0 then some ((a.toNat - textVa) / 4) else none

/-- A branch: forward or back by `off` instructions, out of reach of the model below zero. -/
def Machine.jump (m : Machine) (off : Int) : Option Machine :=
  if 0 ≤ (m.pc : Int) + off then some { m with pc := ((m.pc : Int) + off).toNat } else none

/-- A conditional branch. -/
def Machine.branch (m : Machine) (taken : Bool) (off : Int) : Option Machine :=
  if taken then m.jump off else some m.next

/-- What a load brings into a register. -/
def Mem.load (m : Mem) (a : Word) (sz : Width) (isSigned : Bool) : Word :=
  if isSigned then BitVec.ofInt 64 ((m.read a sz.bytes : Int).bmod (2 ^ sz.bits))
  else BitVec.ofNat 64 (m.read a sz.bytes)

/-- What the kernel leaves behind after a call. -/
structure Reply where
  x0 : Word
  mem : Mem

/-- One instruction. `none` is a branch to nowhere. -/
def exec (i : Instr) (r : Reply) (m : Machine) : Option Machine :=
  match i with
  | .movz rd imm hw => some (m.set rd (imm.zeroExtend 64 <<< (16 * hw.val))).next
  | .movk rd imm hw =>
    some (m.set rd ((m.get rd &&& ~~~((0xFFFF : Word) <<< (16 * hw.val)))
      ||| (imm.zeroExtend 64 <<< (16 * hw.val)))).next
  | .movn rd imm hw => some (m.set rd (~~~(imm.zeroExtend 64 <<< (16 * hw.val)))).next
  | .mov rd rm => some (m.set rd (m.get rm)).next
  | .addImm rd rn imm sh =>
    some (m.setSp rd (m.getSp rn + (imm.zeroExtend 64 <<< (if sh then 12 else 0)))).next
  | .subImm rd rn imm sh =>
    some (m.setSp rd (m.getSp rn - (imm.zeroExtend 64 <<< (if sh then 12 else 0)))).next
  | .add rd rn rm => some (m.set rd (m.get rn + m.get rm)).next
  | .sub rd rn rm => some (m.set rd (m.get rn - m.get rm)).next
  | .subs rd rn rm => some ((m.flags (m.get rn) (m.get rm)).set rd (m.get rn - m.get rm)).next
  | .and rd rn rm => some (m.set rd (m.get rn &&& m.get rm)).next
  | .orr rd rn rm => some (m.set rd (m.get rn ||| m.get rm)).next
  | .eor rd rn rm => some (m.set rd (m.get rn ^^^ m.get rm)).next
  | .mul rd rn rm => some (m.set rd (m.get rn * m.get rm)).next
  | .sdiv rd rn rm => some (m.set rd ((m.get rn).sdiv (m.get rm))).next
  | .udiv rd rn rm => some (m.set rd (m.get rn / m.get rm)).next
  | .msub rd rn rm ra => some (m.set rd (m.get ra - m.get rn * m.get rm)).next
  | .lslv rd rn rm => some (m.set rd (m.get rn <<< ((m.get rm).toNat % 64))).next
  | .lsrv rd rn rm => some (m.set rd (m.get rn >>> ((m.get rm).toNat % 64))).next
  | .asrv rd rn rm => some (m.set rd ((m.get rn).sshiftRight ((m.get rm).toNat % 64))).next
  | .mvn rd rm => some (m.set rd (~~~(m.get rm))).next
  | .neg rd rm => some (m.set rd (-(m.get rm))).next
  | .cset rd c => some (m.set rd (if m.holds c then 1 else 0)).next
  | .sxt rd rn w =>
    some (m.set rd (BitVec.ofInt 64 (((m.get rn).toNat : Int).bmod (2 ^ w.bits)))).next
  | .uxt rd rn w => some (m.set rd (BitVec.ofNat 64 ((m.get rn).toNat % 2 ^ w.bits))).next
  | .ldr rt rn off sz sg =>
    some (m.set rt (m.mem.load (m.getSp rn + BitVec.ofInt 64 off) sz sg)).next
  | .str rt rn off sz =>
    some { m with
      mem := m.mem.write (m.getSp rn + BitVec.ofInt 64 off) sz.bytes (m.get rt), pc := m.pc + 1 }
  | .stpPre rt rt2 rn off =>
    let a := m.getSp rn + BitVec.ofInt 64 off
    some ({ m with mem := (m.mem.write a 8 (m.get rt)).write (a + 8) 8 (m.get rt2) }.setSp rn a).next
  | .ldpPost rt rt2 rn off =>
    let a := m.getSp rn
    let m₁ := (m.set rt (m.mem.load a .w64 false)).set rt2 (m.mem.load (a + 8) .w64 false)
    some (m₁.setSp rn (a + BitVec.ofInt 64 off)).next
  | .adrp rd imm =>
    some (m.set rd (BitVec.ofInt 64 (((textVa + 4 * m.pc) / 4096 : Nat) + imm)
      <<< 12)).next
  | .b off => m.jump off
  | .bl off => (m.set X30 (addrOf (m.pc + 1))).jump off
  | .bcond c off => m.branch (m.holds c) off
  | .cbz rt off => m.branch (m.get rt == 0) off
  | .cbnz rt off => m.branch (m.get rt != 0) off
  | .ret =>
    match indexOf (m.get X30) with
    | some pc => some { m with pc }
    | none => none
  | .svc => some { (m.set X0 r.x0) with mem := r.mem, pc := m.pc + 1 }

/-- One step: fetch and execute. -/
def step (code : List Instr) (r : Reply) (m : Machine) : Option Machine :=
  match code[m.pc]? with
  | some i => exec i r m
  | none => none

end Verkos.Sav
