import Verkos.Sav.Check
import Verkos.Sav.Arm

/-!
# From a checked tree to instructions

Values live in `x0`, and in `x1` for the second word of a slice; everything else goes through the
stack. The generator appends instructions to a buffer, hands out labels, notes where each is placed,
and at the end fills in every branch and address. Here the buffer is a list of `Item`s, with a
label's place as an item of no size, and `resolve` is the last pass.

`svc` comes out of `genMethod`, `genFail`, `genWrite2`, `genRange` and `genStart` and from nowhere
else.
-/

namespace Verkos.Sav

open Verkos.Lib (Emit)

attribute [local instance] neZero32

/-- What an address is relative to. -/
inductive Sect where
  | rodata | bss
deriving DecidableEq, Repr

/-- An entry of the code buffer: an instruction, one waiting for its fixup, or a label's place. -/
inductive Item where
  | ins (i : Instr)
  | place (l : Nat)
  | b (l : Nat)
  | bl (l : Nat)
  | bcond (c : Cond) (l : Nat)
  | cbz (rt : Reg) (l : Nat)
  | cbnz (rt : Reg) (l : Nat)
  | adrp (rd : Reg) (sect : Sect) (off : Int)
  | add12 (rd : Reg) (sect : Sect) (off : Int)
deriving DecidableEq, Repr

/-- The generator's variables: labels handed out, `.rodata` so far, and which of its own pieces the
program turned out to need. -/
structure GState where
  nlab : Nat
  rodata : List UInt8
  needArgget : Bool
  needCstr : Bool
  needRange : Bool

abbrev GenM := Emit Diag GState Item

/-- The labels of the pieces the compiler writes itself. -/
abbrev lblFail : Nat := 0
abbrev lblArgget : Nat := 1
abbrev lblCstr : Nat := 2
abbrev lblNum : Nat := 3
abbrev lblWrite2 : Nat := 4
abbrev lblRange : Nat := 5

/-- The label of the `i`-th function. -/
def fnLabel (i : Nat) : Nat := 6 + i

/-! ## Emitting -/

def emit (i : Instr) : GenM Unit := Emit.out [.ins i]

def newlab : GenM Nat := fun s => .ok (s.nlab, [], { s with nlab := s.nlab + 1 })

def place (l : Nat) : GenM Unit := Emit.out [.place l]

def emitBranch (l : Nat) : GenM Unit := Emit.out [.b l]

def emitCall (l : Nat) : GenM Unit := Emit.out [.bl l]

def emitBcond (c : Cond) (l : Nat) : GenM Unit := Emit.out [.bcond c l]

def emitCbz (rt : Reg) (l : Nat) : GenM Unit := Emit.out [.cbz rt l]

/-- An address, always relative to the program counter. -/
def emitAddr (rd : Reg) (sect : Sect) (off : Int) : GenM Unit :=
  Emit.out [.adrp rd sect off, .add12 rd sect off]

/-- `movz` for the first sixteen bits that are not zero, `movk` for the others. -/
def immLoop (rd : Reg) (v : Word) : Bool → List (Fin 4) → List Instr
  | _, [] => []
  | first, hw :: rest =>
    let part := (v >>> (16 * hw.val)).truncate 16
    if part = 0 then immLoop rd v first rest
    else (if first then Instr.movz rd part hw else Instr.movk rd part hw) :: immLoop rd v false rest

def immCode (rd : Reg) (v : Word) : List Instr :=
  if v = 0 then [.movz rd 0 0]
  else if v.toInt < 0 ∧ -65536 ≤ v.toInt then [.movn rd ((~~~v).truncate 16) 0]
  else immLoop rd v true [0, 1, 2, 3]

def emitImm (rd : Reg) (v : Word) : GenM Unit := Emit.out ((immCode rd v).map .ins)

def emitSubSp (amount : Int) : GenM Unit := do
  Emit.onlyIf (4096 ≤ amount) (emit (.subImm SP SP (BitVec.ofInt 12 (amount / 4096)) true))
  Emit.onlyIf (amount % 4096 ≠ 0) (emit (.subImm SP SP (BitVec.ofInt 12 amount) false))

def localAddr (rd : Reg) (off : Int) : GenM Unit :=
  if off < 4096 then emit (.subImm rd X29 (BitVec.ofInt 12 off) false)
  else do
    emitImm rd (BitVec.ofInt 64 off)
    emit (.sub rd X29 rd)

def pushPair : GenM Unit := emit (.stpPre X0 X1 SP (-16))

def popPair (r1 r2 : Reg) : GenM Unit := emit (.ldpPost r1 r2 SP 16)

/-! ## Loading and storing values -/

/-- `type_load_size`. -/
def loadSize : Ty → Width
  | .bool => .w8
  | .int w _ => w
  | _ => .w64

/-- The value at `[rbase, off]` into `x0`, and `x1` for a slice. A struct, an array or an enum is
its address. -/
def loadValue (rbase : Reg) (off : Int) (t : Ty) : GenM Unit :=
  if t.isAggregate then
    if off = 0 then emit (.mov X0 rbase)
    else do
      emitImm X17 (BitVec.ofInt 64 off)
      emit (.add X0 rbase X17)
  else if t.isSlice then do
    emit (ldrOff X1 rbase (off + 8) .w64 false)
    emit (ldrOff X0 rbase off .w64 false)
  else emit (ldrOff X0 rbase off (loadSize t) t.isSigned)

/-- The copy loop of `store_value`: eight bytes at a time, then one at a time. -/
def copyCode (off : Int) (n : Nat) : List Instr :=
  ((List.range (n / 8)).flatMap fun k =>
    [ldrOff X17 X0 (8 * k : Nat) .w64 false, strOff X17 X16 (off + (8 * k : Nat)) .w64]) ++
  ((List.range (n % 8)).flatMap fun k =>
    [ldrOff X17 X0 (8 * (n / 8) + k : Nat) .w8 false,
      strOff X17 X16 (off + (8 * (n / 8) + k : Nat)) .w8])

/-- `x0`, and `x1`, into `[rbase, off]`. For an aggregate `x0` is the address to copy from. -/
def storeValue (rbase : Reg) (off : Int) (t : Ty) : GenM Unit :=
  if t.isSlice then do
    emit (strOff X0 rbase off .w64)
    emit (strOff X1 rbase (off + 8) .w64)
  else if t.isAggregate then do
    emit (.mov X16 rbase)
    Emit.out ((copyCode off t.size.toNat).map .ins)
  else emit (strOff X0 rbase off (loadSize t))

def frameLoad (off : Int) (t : Ty) : GenM Unit :=
  if off ≤ 240 then loadValue X29 (-off) t
  else do
    localAddr X16 off
    loadValue X16 0 t

def frameStore (off : Int) (t : Ty) : GenM Unit :=
  if off ≤ 240 then storeValue X29 (-off) t
  else do
    pushPair
    localAddr X9 off
    popPair X0 X1
    storeValue X9 0 t

/-- `x0`, and `x1`, into one field of a value that lives in a frame slot. -/
def frameStoreField (slotOff fieldOff : Int) (t : Ty) : GenM Unit := do
  pushPair
  localAddr X9 slotOff
  Emit.onlyIf (fieldOff ≠ 0) do
    emitImm X17 (BitVec.ofInt 64 fieldOff)
    emit (.add X9 X9 X17)
  popPair X0 X1
  storeValue X9 0 t

/-! ## Read-only data -/

def bytesOf (s : String) : List UInt8 := s.toUTF8.toList

/-- Zero bytes up to a multiple of eight. -/
def align8 (l : List UInt8) : List UInt8 := l ++ List.replicate ((8 - l.length % 8) % 8) 0

/-- Bytes into `.rodata`, aligned and with a zero after them; the result is their offset. -/
def addRodata (bytes : List UInt8) : GenM Int := fun s =>
  .ok ((align8 s.rodata).length, [], { s with rodata := align8 s.rodata ++ bytes ++ [0] })

/-! ## Range checks -/

/-- The failure half of a range check: `x2` was wrong, `x3` is what it was checked against. -/
def genRangeFail (file : String) (line : Nat) (what label1 label2 : String) : GenM Unit := do
  Emit.modify fun s => { s with needRange := true }
  let msg := bytesOf (file ++ ":" ++ toString line ++ ": " ++ what)
  let off ← addRodata msg
  let l1 ← addRodata (bytesOf label1)
  let l2 ← addRodata (bytesOf label2)
  emitAddr X4 .rodata l1
  emitImm X5 (BitVec.ofNat 64 (bytesOf label1).length)
  emitAddr X6 .rodata l2
  emitImm X7 (BitVec.ofNat 64 (bytesOf label2).length)
  emitAddr X0 .rodata off
  emitImm X1 (BitVec.ofNat 64 msg.length)
  emitCall lblRange

/-- `x2` against `x1`, unsigned. -/
def genBoundsCheck (file : String) (line : Nat) (what : String) : GenM Unit := do
  let ok ← newlab
  emit (.subs XZR X2 X1)
  emitBcond .lo ok
  emit (.mov X3 X1)
  genRangeFail file line what "index " "length "
  place ok

/-! ## Where globals and the compiler's own words sit -/

/-- The globals in the order of the list, each at a multiple of its alignment, eight at least. -/
def layoutGlobals : List Global → Int → List (String × Int) × Int
  | [], bss => ([], bss)
  | g :: gs, bss =>
    if g.cval.isSome then layoutGlobals gs bss
    else
      let a := if g.ty.align < 8 then 8 else g.ty.align
      let at' := (bss + a - 1) / a * a
      let (rest, fin) := layoutGlobals gs (at' + g.ty.size)
      ((g.name, at'.bmod (2 ^ 32)) :: rest, fin)

/-- The offset of a global in `.bss`. -/
def globalOffset (gs : List Global) (name : String) : Int :=
  (((layoutGlobals gs 0).1.find? (·.1 == name)).map (·.2)).getD 0

def bssSp (gs : List Global) : Int := roundUp8 (layoutGlobals gs 0).2
def bssCstr (gs : List Global) : Int := roundUp8 (bssSp gs + 8)
def bssNumbuf (gs : List Global) : Int := roundUp8 (bssCstr gs + 256)
def bssSave (gs : List Global) : Int := roundUp8 (bssNumbuf gs + 32)
def bssSize (gs : List Global) : Int := bssSave gs + 16

/-- What the generator reads: the unit, whether contracts are compiled, and the function it is in. -/
structure Env where
  unit : TUnit
  contracts : Bool
  fn : TFn

/-- The function a call names, with its label. -/
def Env.callee (E : Env) (name : String) : Option (TFn × Nat) :=
  match E.unit.fns.findIdx? (·.name == name) with
  | none => none
  | some i =>
    match E.unit.fns[i]? with
    | none => none
    | some f => some (f, fnLabel i)

def dieGen {α : Type} (E : Env) (p : Pos) (text : String) : GenM α :=
  Emit.fail ⟨E.fn.file, p, text⟩

/-! ## Expressions -/

/-- `x0 op x1` as 0 or 1 in `x0`. -/
def cmpCond (op : BinOp) (isSigned : Bool) : Cond :=
  match op with
  | .eq => .eq
  | .ne => .ne
  | .lt => if isSigned then .lt else .lo
  | .le => if isSigned then .le else .ls
  | .gt => if isSigned then .gt else .hi
  | _ => if isSigned then .ge else .hs

def genCmpSet (op : BinOp) (isSigned : Bool) : GenM Unit := do
  emit (.subs XZR X0 X1)
  emit (.cset X0 (cmpCond op isSigned))

/-- A pointer moves by whole elements. -/
def genScale (t : Ty) : GenM Unit :=
  if t.isPtr && t.elem.size != 1 then do
    emitImm X17 (BitVec.ofInt 64 t.elem.size)
    emit (.mul X1 X1 X17)
  else pure ()

/-- The operator itself, with both operands in `x0` and `x1`. -/
def genOp (op : BinOp) (ta : Ty) : GenM Unit :=
  let sg := if ta.isInt then ta.isSigned else true
  match op with
  | .add => do genScale ta; emit (.add X0 X0 X1)
  | .sub => do genScale ta; emit (.sub X0 X0 X1)
  | .mul => emit (.mul X0 X0 X1)
  | .div => emit (if sg then .sdiv X0 X0 X1 else .udiv X0 X0 X1)
  | .mod => do
    emit (if sg then .sdiv X2 X0 X1 else .udiv X2 X0 X1)
    emit (.msub X0 X2 X1 X0)
  | .and => emit (.and X0 X0 X1)
  | .or => emit (.orr X0 X0 X1)
  | .xor => emit (.eor X0 X0 X1)
  | .shl => emit (.lslv X0 X0 X1)
  | .shr => emit (if sg then .asrv X0 X0 X1 else .lsrv X0 X0 X1)
  | op => genCmpSet op sg

/-- The result of an operator in a narrow type is kept narrow. -/
def genNarrow (op : BinOp) (t : Ty) : GenM Unit :=
  match t with
  | .int .w64 _ => pure ()
  | .int w s =>
    if op.isCmp then pure () else emit (if s then .sxt X0 X0 w else .uxt X0 X0 w)
  | _ => pure ()

def genBinary (op : BinOp) (t ta : Ty) (a b : GenM Unit) : GenM Unit :=
  match op with
  | .andand => do
    let done ← newlab
    a
    emitCbz X0 done
    b
    place done
  | .oror => do
    let done ← newlab
    a
    emitImm X1 0
    emit (.subs XZR X0 X1)
    emitBcond .ne done
    b
    place done
  | op => do
    a
    pushPair
    b
    emit (.mov X2 X0)
    popPair X0 X1
    emit (.mov X1 X2)
    genOp op ta
    genNarrow op t

def genUnary (op : UnOp) (a : GenM Unit) : GenM Unit := do
  a
  match op with
  | .neg => emit (.neg X0 X0)
  | .compl => emit (.mvn X0 X0)
  | .not => do
    emitImm X1 0
    emit (.subs XZR X0 X1)
    emit (.cset X0 .eq)

/-- Every argument, pushed; then popped back into its registers, the last one first. -/
def genPushAll : List (GenM Unit) → GenM Unit
  | [] => pure ()
  | a :: as => do
    a
    pushPair
    genPushAll as

def argReg (n : Nat) : Reg := Fin.ofNat 32 n

def genPopAll : List Param → GenM Unit
  | [] => pure ()
  | p :: ps => do
    genPopAll ps
    popPair (argReg p.regIndex) (if p.ty.isSlice then argReg (p.regIndex + 1) else X17)

def genCall (E : Env) (i : Info) (name : String) (tempOff : Int) (args : List (GenM Unit)) :
    GenM Unit :=
  match E.callee name with
  | none => dieGen E i.pos ("there is no function called `" ++ name ++ "`")
  | some (f, l) => do
    genPushAll args
    genPopAll f.params
    Emit.onlyIf f.ret.isAggregate (localAddr X8 tempOff)
    emitCall l

/-- A number into `x8` and the call. -/
def genSvc (n : Nat) : GenM Unit := do
  emitImm X8 (BitVec.ofNat 64 n)
  emit .svc

/-- `Console`: bytes to or from a descriptor that is fixed. -/
def genConsole (fd : Word) (n : Nat) (a : GenM Unit) : GenM Unit := do
  a
  emit (.mov X2 X1)
  emit (.mov X1 X0)
  emitImm X0 fd
  genSvc n

/-- `Files.open`: a path made into a C string, and flags. -/
def genOpen (n : Nat) (path flags : GenM Unit) : GenM Unit := do
  path
  pushPair
  flags
  pushPair
  popPair X9 X17
  popPair X0 X1
  Emit.modify fun s => { s with needCstr := true }
  emitCall lblCstr
  emit (.mov X1 X0)
  emitImm X0 (BitVec.ofInt 64 (-100))
  emit (.mov X2 X9)
  emitImm X3 420
  genSvc n

/-- `Files.read` and `Files.write`: a descriptor and bytes. -/
def genFdBytes (n : Nat) (fd bytes : GenM Unit) : GenM Unit := do
  fd
  pushPair
  bytes
  pushPair
  popPair X1 X2
  popPair X0 X17
  genSvc n

/-- The capability methods. The receiver is not evaluated: a capability has no run-time part. -/
def genMethod (E : Env) (i : Info) (c : CapId) (m : CapMethod) (args : List (GenM Unit)) :
    GenM Unit :=
  let arg (k : Nat) := args.getD k (pure ())
  let cannot := dieGen E i.pos ("savc cannot yet generate " ++ c.name ++ "." ++ m.name)
  match c with
  | .console =>
    if m.name = "write" then genConsole 1 m.sysno (arg 0)
    else if m.name = "error" then genConsole 2 m.sysno (arg 0)
    else if m.name = "read" then genConsole 0 m.sysno (arg 0)
    else cannot
  | .proc => genSvc m.sysno
  | .args =>
    if m.name = "count" then do
      emitAddr X16 .bss (bssSp E.unit.globals)
      emit (ldrOff X16 X16 0 .w64 false)
      emit (ldrOff X0 X16 0 .w64 false)
    else do
      arg 0
      Emit.modify fun s => { s with needArgget := true }
      emitCall lblArgget
  | .files =>
    if m.name = "open" then genOpen m.sysno (arg 0) (arg 1)
    else if m.name = "read" ∨ m.name = "write" then genFdBytes m.sysno (arg 0) (arg 1)
    else if m.name = "close" then do
      arg 0
      genSvc m.sysno
    else cannot

/-- An array's length is known here and nowhere else; a slice carries its own. -/
def genArrayLen : Ty → GenM Unit
  | .array _ n => emitImm X1 (BitVec.ofInt 64 n)
  | _ => pure ()

/-- The address of an element: base in `x0`, length in `x1`, index in `x2` once checked. -/
def genIndexAddr (E : Env) (i : Info) (t : Ty) (base idx : GenM Unit) : GenM Unit := do
  base
  pushPair
  idx
  emit (.mov X2 X0)
  popPair X0 X1
  genArrayLen t
  genBoundsCheck E.fn.file i.pos.line "index out of range"
  Emit.onlyIf (t.elem.size ≠ 1) do
    emitImm X17 (BitVec.ofInt 64 t.elem.size)
    emit (.mul X2 X2 X17)
  emit (.add X0 X0 X2)

/-- An offset added to an address. -/
def genOffset (off : Int) : GenM Unit :=
  Emit.onlyIf (off ≠ 0) do
    emitImm X17 (BitVec.ofInt 64 off)
    emit (.add X0 X0 X17)

/-- The address of a field: where the struct is, and the field's offset. -/
def genFieldAddr (off : Int) (base : GenM Unit) : GenM Unit := do
  base
  genOffset off

/-- The two comparisons of a slice: it does not start after it ends, nor run past the end. -/
def genSliceChecks (file : String) (line : Nat) : GenM Unit := do
  let ok1 ← newlab
  let ok2 ← newlab
  emit (.subs XZR X10 X9)
  emitBcond .ls ok1
  emit (.mov X2 X10)
  emit (.mov X3 X9)
  genRangeFail file line "a slice that starts after it ends" "start " "end "
  place ok1
  emit (.subs XZR X9 X1)
  emitBcond .ls ok2
  emit (.mov X2 X9)
  emit (.mov X3 X1)
  genRangeFail file line "a slice that runs past the end" "end " "length "
  place ok2

/-- The start of a slice in bytes. -/
def genSliceStart (t : Ty) : GenM Unit :=
  if t.elem.size = 1 then emit (.mov X11 X10)
  else do
    emitImm X17 (BitVec.ofInt 64 t.elem.size)
    emit (.mul X11 X10 X17)

/-- A slice of an array, a slice or a pointer. `hi` reads the length back when the slice runs to
the end. -/
def genSlice (E : Env) (i : Info) (t : Ty) (base lo hi : GenM Unit) : GenM Unit := do
  base
  genArrayLen t
  pushPair
  lo
  pushPair
  hi
  emit (.mov X9 X0)
  popPair X10 X17
  popPair X0 X1
  Emit.onlyIf (!t.isPtr) (genSliceChecks E.fn.file i.pos.line)
  genSliceStart t
  emit (.add X0 X0 X11)
  emit (.sub X1 X9 X10)

/-- What a cast does to `x0`. -/
def genCast (src dst : Ty) : GenM Unit :=
  match dst with
  | .bool => do
    emitImm X1 0
    emit (.subs XZR X0 X1)
    emit (.cset X0 .ne)
  | .int .w64 _ =>
    match src with
    | .int .w64 _ => pure ()
    | .int w s => emit (if s then .sxt X0 X0 w else .uxt X0 X0 w)
    | _ => pure ()
  | .int w s => emit (if s then .sxt X0 X0 w else .uxt X0 X0 w)
  | _ => pure ()

/-- The payload of a case, one value after another into its place. -/
def genPayload (tempOff : Int) : List (GenM Unit) → List (Ty × Int) → GenM Unit
  | a :: as, (t, off) :: fs => do
    a
    frameStoreField tempOff off t
    genPayload tempOff as fs
  | _, _ => pure ()

def genAssign (t : Ty) (addr b : GenM Unit) : GenM Unit := do
  addr
  pushPair
  b
  popPair X16 X17
  storeValue X16 0 t

/-- The address of a variable. -/
def genVarAddr (E : Env) (s : Sym) : GenM Unit :=
  if s.kind = .global then emitAddr X0 .bss (globalOffset E.unit.globals s.name)
  else localAddr X0 s.offset

/-- The value of a variable, loaded at the type of the node. -/
def genVar (E : Env) (t : Ty) (s : Sym) : GenM Unit :=
  if s.kind = .global then do
    emitAddr X16 .bss (globalOffset E.unit.globals s.name)
    loadValue X16 0 t
  else if t.isAggregate then localAddr X0 s.offset
  else frameLoad s.offset t

mutual

/-- The address of an lvalue in `x0`. -/
def genAddr (E : Env) : TExpr → GenM Unit
  | .var _ s => genVarAddr E s
  | .deref _ _ a => genExpr E a
  | .field _ a off => genFieldAddr off (if a.ty.isPtr then genExpr E a else genAddr E a)
  | .slicePtr _ a => genAddr E a
  | .index i a b =>
    genIndexAddr E i a.ty (if a.ty.isArray then genAddr E a else genExpr E a)
      (genExpr E b)
  | e => dieGen E e.pos "this is a value, and a value has no address"

/-- The value of an expression in `x0`, and `x1` for a slice. -/
def genExpr (E : Env) : TExpr → GenM Unit
  | .int _ v => emitImm X0 v
  | .bool _ b => emitImm X0 (boolWord b)
  | .str _ bytes => do
    let off ← addRodata bytes
    emitAddr X0 .rodata off
    emitImm X1 (BitVec.ofNat 64 bytes.length)
  | .var i s => genVar E i.ty s
  | .call i name args tempOff => genCall E i name tempOff (genAll E args)
  | .method i c m _ args => genMethod E i c m (genAll E args)
  | .unary _ op a => genUnary op (genExpr E a)
  | .binary i op a b => genBinary op i.ty a.ty (genExpr E a) (genExpr E b)
  | .index i a b => do
    genIndexAddr E i a.ty (if a.ty.isArray then genAddr E a else genExpr E a)
      (genExpr E b)
    loadValue X0 0 i.ty
  | .field i a off => do
    genFieldAddr off (if a.ty.isPtr then genExpr E a else genAddr E a)
    loadValue X0 0 i.ty
  | .slicePtr i a => do
    genAddr E a
    loadValue X0 0 i.ty
  | .len _ a =>
    match a.ty with
    | .array _ n => emitImm X0 (BitVec.ofInt 64 n)
    | _ => do
      genExpr E a
      emit (.mov X0 X1)
  | .slice i a lo hi =>
    genSlice E i a.ty (if a.ty.isArray then genAddr E a else genExpr E a)
      (genExpr E lo) (genExpr E hi)
  | .sliceToEnd i a lo =>
    genSlice E i a.ty (if a.ty.isArray then genAddr E a else genExpr E a)
      (genExpr E lo) (emit (ldrOff X0 SP 24 .w64 false))
  | .variant _ tag fields args tempOff => do
    emitImm X0 (BitVec.ofNat 64 tag)
    frameStoreField tempOff 0 .i64
    genPayload tempOff (genAll E args) fields
    localAddr X0 tempOff
  | .addr _ a => genAddr E a
  | .deref i _ a => do
    genExpr E a
    loadValue X0 0 i.ty
  | .cast i a => do
    genExpr E a
    genCast a.ty i.ty
  | .assign _ a b => genAssign a.ty (genAddr E a) (genExpr E b)

/-- The code of each expression of a list. -/
def genAll (E : Env) : List TExpr → List (GenM Unit)
  | [] => []
  | a :: as => genExpr E a :: genAll E as

end

/-! ## Statements -/

/-- A check that says nothing when it holds and stops the program when it does not. -/
def genCheck (E : Env) (cond : TExpr) (kind text : String) (line : Nat) : GenM Unit :=
  if E.contracts then do
    let ok ← newlab
    genExpr E cond
    Emit.out [.cbnz X0 ok]
    let msg := bytesOf (E.fn.file ++ ":" ++ toString line ++ ": " ++ kind ++ ": " ++ text ++ "\n")
    let off ← addRodata msg
    emitAddr X0 .rodata off
    emitImm X1 (BitVec.ofNat 64 msg.length)
    emitCall lblFail
    place ok
  else pure ()

def genChecks (E : Env) (kind : String) : List TContract → GenM Unit
  | [] => pure ()
  | k :: ks => do
    genCheck E k.expr kind k.text k.line
    genChecks E kind ks

def genEpilogue : GenM Unit := do
  emit (movSp SP X29)
  emit (.ldpPost X29 X30 SP 16)
  emit .ret

def genReturn (E : Env) (e : Option TExpr) : GenM Unit :=
  match e with
  | some e =>
    if E.fn.ret.isAggregate then do
      genExpr E e
      pushPair
      frameLoad E.fn.sretOff (.ptr .u8 false)
      emit (.mov X9 X0)
      popPair X0 X1
      storeValue X9 0 E.fn.ret
      emit (.mov X0 X9)
      genEpilogue
    else do
      genExpr E e
      Emit.onlyIf (!E.fn.ens.isEmpty) do
        frameStore E.fn.resultOff E.fn.ret
        genChecks E "promise broken" E.fn.ens
        frameLoad E.fn.resultOff E.fn.ret
      genEpilogue
  | none => do
    genChecks E "promise broken" E.fn.ens
    genEpilogue

/-- `n` labels in a row. -/
def newlabs : Nat → GenM (List Nat)
  | 0 => pure []
  | n + 1 => do
    let l ← newlab
    let ls ← newlabs n
    pure (l :: ls)

/-- The tests of a match, one for each arm that names a case. -/
def genTests : List TArm → List Nat → GenM Unit
  | .otherwise :: arms, _ :: ls => genTests arms ls
  | .case k _ :: arms, l :: ls => do
    emitImm X2 (BitVec.ofNat 64 k)
    emit (.subs XZR X1 X2)
    emitBcond .eq l
    genTests arms ls
  | _, _ => pure ()

/-- The label control goes to when no test takes it: the last `else`, or the end. -/
def elseLabel (fin : Nat) : List TArm → List Nat → Nat
  | .otherwise :: arms, l :: ls => elseLabel l arms ls
  | .case _ _ :: arms, _ :: ls => elseLabel fin arms ls
  | _, _ => fin

/-- The payload of the matched value into the slots of the names an arm binds. -/
def genBinds (subjectOff : Int) : List (Sym × Int × Ty) → GenM Unit
  | [] => pure ()
  | (y, off, t) :: rest => do
    frameLoad subjectOff (.ptr .u8 false)
    loadValue X0 off t
    frameStore y.offset t
    genBinds subjectOff rest

def genArmHead (subjectOff : Int) : TArm → GenM Unit
  | .otherwise => pure ()
  | .case _ binds => genBinds subjectOff binds

mutual

/-- A statement. `brk` and `cnt` are where `break` and `continue` go. -/
def genStmt (E : Env) (brk cnt : Nat) : TStmt → GenM Unit
  | .block ss => genStmts E brk cnt ss
  | .letS s init =>
    match init with
    | none => pure ()
    | some e =>
      if s.ty.isAggregate then do
        genExpr E e
        pushPair
        localAddr X9 s.offset
        popPair X0 X1
        storeValue X9 0 s.ty
      else do
        genExpr E e
        frameStore s.offset s.ty
  | .expr e => genExpr E e
  | .ifS c t => do
    let els ← newlab
    let done ← newlab
    genExpr E c
    emitCbz X0 els
    genStmt E brk cnt t
    place els
    place done
  | .ifElse c t e => do
    let els ← newlab
    let done ← newlab
    genExpr E c
    emitCbz X0 els
    genStmt E brk cnt t
    emitBranch done
    place els
    genStmt E brk cnt e
    place done
  | .whileS c b => do
    let top ← newlab
    let out ← newlab
    place top
    genExpr E c
    emitCbz X0 out
    genStmt E out top b
    emitBranch top
    place out
  | .forS s lo hi b => do
    let top ← newlab
    let out ← newlab
    let cont ← newlab
    genExpr E lo
    frameStore s.offset s.ty
    place top
    genExpr E hi
    pushPair
    frameLoad s.offset s.ty
    popPair X1 X17
    emit (.subs XZR X0 X1)
    emitBcond .ge out
    genStmt E out cont b
    place cont
    frameLoad s.offset s.ty
    emit (.addImm X0 X0 1 false)
    frameStore s.offset s.ty
    emitBranch top
    place out
  | .ret e => genReturn E e
  | .brk => emitBranch brk
  | .cont => emitBranch cnt
  | .assert c text line => genCheck E c "check failed" text line
  | .matchS e subjectOff arms => do
    genExpr E e
    frameStoreField subjectOff 0 (.ptr .u8 false)
    let fin ← newlab
    let ls ← newlabs arms.length
    frameLoad subjectOff (.ptr .u8 false)
    emit (ldrOff X1 X0 0 .w64 false)
    genTests (arms.map (·.1)) ls
    emitBranch (elseLabel fin (arms.map (·.1)) ls)
    genArms E brk cnt subjectOff fin arms ls
    place fin

def genStmts (E : Env) (brk cnt : Nat) : List TStmt → GenM Unit
  | [] => pure ()
  | s :: ss => do
    genStmt E brk cnt s
    genStmts E brk cnt ss

def genArms (E : Env) (brk cnt : Nat) (subjectOff : Int) (fin : Nat) :
    List (TArm × TStmt) → List Nat → GenM Unit
  | (h, body) :: arms, l :: ls => do
    place l
    genArmHead subjectOff h
    genStmt E brk cnt body
    emitBranch fin
    genArms E brk cnt subjectOff fin arms ls
  | _, _ => pure ()

end

/-! ## The pieces the compiler writes itself -/

/-- `x0` is a message and `x1` its length: to standard error, and out with 70. -/
def genFail : GenM Unit := do
  place lblFail
  emit (.mov X2 X1)
  emit (.mov X1 X0)
  emitImm X0 2
  genSvc 64
  emitImm X0 70
  genSvc 93
  emit (.b 0)

/-- `x0` is an index: the argument's bytes and length, both zero when there is none. -/
def genArgget (gs : List Global) : GenM Unit := do
  place lblArgget
  let none ← newlab
  let done ← newlab
  let loop ← newlab
  emitAddr X16 .bss (bssSp gs)
  emit (ldrOff X16 X16 0 .w64 false)
  emit (ldrOff X9 X16 0 .w64 false)
  emitImm X10 0
  emit (.subs XZR X0 X10)
  emitBcond .lt none
  emit (.subs XZR X0 X9)
  emitBcond .ge none
  emitImm X17 8
  emit (.mul X0 X0 X17)
  emit (.add X16 X16 X17)
  emit (.add X16 X16 X0)
  emit (ldrOff X0 X16 0 .w64 false)
  emitImm X1 0
  place loop
  emit (.add X9 X0 X1)
  emit (ldrOff X10 X9 0 .w8 false)
  emitCbz X10 done
  emit (.addImm X1 X1 1 false)
  emitBranch loop
  place none
  emitImm X0 0
  emitImm X1 0
  place done
  emit .ret

/-- `x0` and `x1` are bytes and a length: a copy of at most 255 with a zero after it. -/
def genCstr (gs : List Global) : GenM Unit := do
  place lblCstr
  let loop ← newlab
  let done ← newlab
  emitAddr X16 .bss (bssCstr gs)
  emitImm X2 0
  emitImm X3 255
  place loop
  emit (.subs XZR X2 X1)
  emitBcond .ge done
  emit (.subs XZR X2 X3)
  emitBcond .ge done
  emit (.add X4 X0 X2)
  emit (ldrOff X5 X4 0 .w8 false)
  emit (.add X4 X16 X2)
  emit (strOff X5 X4 0 .w8)
  emit (.addImm X2 X2 1 false)
  emitBranch loop
  place done
  emit (.add X4 X16 X2)
  emitImm X5 0
  emit (strOff X5 X4 0 .w8)
  emit (.mov X0 X16)
  emit .ret

/-- `write(2, x0, x1)`. -/
def genWrite2 : GenM Unit := do
  place lblWrite2
  emit (.mov X2 X1)
  emit (.mov X1 X0)
  emitImm X0 2
  genSvc 64
  emit .ret

/-- `x0` is a signed number: its decimal digits, written backwards into a buffer of 32. -/
def genNum (gs : List Global) : GenM Unit := do
  place lblNum
  let loop ← newlab
  let after ← newlab
  let nought ← newlab
  let nosign ← newlab
  emitAddr X16 .bss (bssNumbuf gs)
  emitImm X2 32
  emitImm X3 0
  emit (.mov X4 X0)
  emitImm X5 0
  emit (.subs XZR X4 X5)
  emitBcond .ge nosign
  emit (.neg X4 X4)
  emitImm X3 1
  place nosign
  emitCbz X4 nought
  emitImm X6 10
  place loop
  emitCbz X4 after
  emit (.udiv X5 X4 X6)
  emit (.msub X7 X5 X6 X4)
  emit (.addImm X7 X7 48 false)
  emit (.subImm X2 X2 1 false)
  emit (.add X17 X16 X2)
  emit (strOff X7 X17 0 .w8)
  emit (.mov X4 X5)
  emitBranch loop
  place nought
  emit (.subImm X2 X2 1 false)
  emit (.add X17 X16 X2)
  emitImm X7 48
  emit (strOff X7 X17 0 .w8)
  place after
  let done ← newlab
  emitCbz X3 done
  emit (.subImm X2 X2 1 false)
  emit (.add X17 X16 X2)
  emitImm X7 45
  emit (strOff X7 X17 0 .w8)
  place done
  emit (.add X0 X16 X2)
  emitImm X1 32
  emit (.sub X1 X1 X2)
  emit .ret

/-- The one place a range failure is reported: the message in `x0` and `x1`, the two numbers in
`x2` and `x3`, what they are called in `x4`, `x5` and `x6`, `x7`. It never returns. -/
def genRange (gs : List Global) : GenM Unit := do
  place lblRange
  let oOpen ← addRodata (bytesOf " (")
  let oComma ← addRodata (bytesOf ", ")
  let oEnd ← addRodata (bytesOf ")\n")
  emitAddr X16 .bss (bssSave gs)
  emit (strOff X2 X16 0 .w64)
  emit (strOff X3 X16 8 .w64)
  emit (strOff X4 X16 16 .w64)
  emit (strOff X5 X16 24 .w64)
  emit (strOff X6 X16 32 .w64)
  emit (strOff X7 X16 40 .w64)
  emitCall lblWrite2
  emitAddr X0 .rodata oOpen
  emitImm X1 2
  emitCall lblWrite2
  emitAddr X16 .bss (bssSave gs)
  emit (ldrOff X0 X16 16 .w64 false)
  emit (ldrOff X1 X16 24 .w64 false)
  emitCall lblWrite2
  emitAddr X16 .bss (bssSave gs)
  emit (ldrOff X0 X16 0 .w64 false)
  emitCall lblNum
  emitCall lblWrite2
  emitAddr X0 .rodata oComma
  emitImm X1 2
  emitCall lblWrite2
  emitAddr X16 .bss (bssSave gs)
  emit (ldrOff X0 X16 32 .w64 false)
  emit (ldrOff X1 X16 40 .w64 false)
  emitCall lblWrite2
  emitAddr X16 .bss (bssSave gs)
  emit (ldrOff X0 X16 8 .w64 false)
  emitCall lblNum
  emitCall lblWrite2
  emitAddr X0 .rodata oEnd
  emitImm X1 2
  emitCall lblWrite2
  emitImm X0 70
  genSvc 93
  emit (.b 0)

/-! ## Functions and the whole image -/

/-- The parameters from their registers into their slots. -/
def genParams : List Param → GenM Unit
  | [] => pure ()
  | p :: ps => do
    emit (.mov X0 (argReg p.regIndex))
    Emit.onlyIf p.ty.isSlice (emit (.mov X1 (argReg (p.regIndex + 1))))
    frameStore p.offset p.ty
    genParams ps

/-- Where the caller wants an aggregate result put, kept before anything else runs. -/
def genSret (f : TFn) : GenM Unit :=
  if f.ret.isAggregate then
    if f.sretOff ≤ 240 then emit (strOff X8 X29 (-f.sretOff) .w64)
    else do
      localAddr X16 f.sretOff
      emit (strOff X8 X16 0 .w64)
  else pure ()

def genFn (E : Env) (label : Nat) : GenM Unit := do
  place label
  emit (.stpPre X29 X30 SP (-16))
  emit (movSp X29 SP)
  Emit.onlyIf (E.fn.frameSize ≠ 0) (emitSubSp E.fn.frameSize)
  genSret E.fn
  genParams E.fn.params
  genChecks E "requirement broken" E.fn.req
  genStmt E 0 0 E.fn.body
  genChecks E "promise broken" E.fn.ens
  genEpilogue

def genFns (u : TUnit) (contracts : Bool) : Nat → List TFn → GenM Unit
  | _, [] => pure ()
  | i, f :: fs => do
    genFn ⟨u, contracts, f⟩ (fnLabel i)
    genFns u contracts (i + 1) fs

/-- A capability's value: its number plus one. -/
def capValue : Ty → Word
  | .cap c => BitVec.ofNat 64 (c.index + 1)
  | _ => 1

/-- The capabilities `main` asked for. -/
def genCaps : Nat → List (String × Ty) → GenM Unit
  | _, [] => pure ()
  | reg, (_, t) :: rest => do
    emitImm (argReg reg) (capValue t)
    genCaps (reg + 1) rest

/-- The entry code. -/
def genStart (u : TUnit) : GenM Unit := do
  emit (movSp X0 SP)
  emitAddr X16 .bss (bssSp u.globals)
  emit (strOff X0 X16 0 .w64)
  genCaps 0 u.entry.params
  emitCall (fnLabel (u.fns.findIdx (·.isEntry)))
  Emit.onlyIf u.entry.ret.isVoid (emitImm X0 0)
  genSvc 93
  emit (.b 0)

/-- The pieces of its own a program turned out to need. -/
def genRuntime (gs : List Global) : GenM Unit := do
  genFail
  let s ← Emit.get
  Emit.onlyIf s.needArgget (genArgget gs)
  Emit.onlyIf s.needCstr (genCstr gs)
  Emit.onlyIf s.needRange do
    genWrite2
    genNum gs
    genRange gs

/-- The whole code buffer. -/
def genItems (u : TUnit) (contracts : Bool) : GenM Unit := do
  genStart u
  genFns u contracts 0 u.fns
  genRuntime u.globals

/-- The size of an item in instructions. -/
def Item.size : Item → Nat
  | .place _ => 0
  | _ => 1

/-- Instructions in a run of items. -/
def codeSize (its : List Item) : Nat := (its.map Item.size).sum

/-- Where a label was placed. -/
def labelPos (l : Nat) : List Item → Option Nat
  | [] => none
  | .place l' :: its => if l' = l then some 0 else labelPos l its
  | _ :: its => (labelPos l its).map (· + 1)

/-- An address a pair of `adrp` and `add` forms. -/
def sectBase (rodataAt : Nat) : Sect → Int
  | .bss => dataVa
  | .rodata => textVa + rodataAt

/-- One fixup. A displacement keeps as many bits as its field has. -/
def resolveItem (lab : Nat → Option Nat) (rodataAt : Nat) (at' : Nat) :
    Item → Option (List Instr)
  | .ins i => some [i]
  | .place _ => some []
  | .b l => (lab l).map fun (t : Nat) => [.b (((t : Int) - at').bmod (2 ^ 26))]
  | .bl l => (lab l).map fun (t : Nat) => [.bl (((t : Int) - at').bmod (2 ^ 26))]
  | .bcond c l => (lab l).map fun (t : Nat) => [.bcond c (((t : Int) - at').bmod (2 ^ 19))]
  | .cbz r l => (lab l).map fun (t : Nat) => [.cbz r (((t : Int) - at').bmod (2 ^ 19))]
  | .cbnz r l => (lab l).map fun (t : Nat) => [.cbnz r (((t : Int) - at').bmod (2 ^ 19))]
  | .adrp rd s off =>
    let target := sectBase rodataAt s + off
    let pc : Int := textVa + 4 * at'
    some [.adrp rd ((target / 4096 - pc / 4096).bmod (2 ^ 21))]
  | .add12 rd s off =>
    some [.addImm rd rd (BitVec.ofInt 12 (sectBase rodataAt s + off)) false]

def resolveFrom (lab : Nat → Option Nat) (rodataAt : Nat) : Nat → List Item → Option (List Instr)
  | _, [] => some []
  | at', it :: its =>
    match resolveItem lab rodataAt at' it, resolveFrom lab rodataAt (at' + it.size) its with
    | some l, some ls => some (l ++ ls)
    | _, _ => none

/-- `.rodata` starts at the next multiple of eight after the code. -/
def rodataOff (its : List Item) : Nat := (4 * codeSize its + 7) / 8 * 8

/-- The fixups of the whole buffer; `none` when a label was never placed. -/
def resolve (its : List Item) : Option (List Instr) :=
  resolveFrom (labelPos · its) (rodataOff its) 0 its

/-- What savc writes out: the code, the read-only data after it, and the manifest. -/
structure Image where
  code : List Instr
  rodata : List UInt8
  bssSize : Int
  syscalls : List Nat
  capnames : List String

/-- `gen_unit`, from the state it starts in: six labels of its own and one for each function. -/
def genUnit (u : TUnit) (contracts : Bool) : Option Image :=
  match genItems u contracts ⟨6 + u.fns.length, [], false, false, false⟩ with
  | .error _ => none
  | .ok (_, its, s) =>
    match resolve its with
    | none => none
    | some code => some ⟨code, s.rodata, bssSize u.globals, u.sysUsed, u.capsUsed⟩

end Verkos.Sav
