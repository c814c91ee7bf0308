import Verkos.Sav.Syntax
import Verkos.Lib.Emit

/-!
# Checking a unit

`check_unit` walks the parsed tree, resolves every name and gives every node its type, hands out
frame slots, records the system calls the program will need, and refuses what the rules of the
language refuse. The C code writes its findings into the tree; here the checker builds a second
tree, `TExpr` and `TStmt`, whose nodes carry what the generator reads.

Three things are worth knowing before reading on.

* An integer literal, and a constant, which is one by then, takes the type of what it is used with
  (`want`); nothing else is converted.
* `S_FOR` overwrites the type of both bound expressions after they are checked, so a bound's own
  node carries `i64` whatever it was checked as.
* Slots are never reused: `frame` only grows within a function.
-/

namespace Verkos.Sav

open Verkos.Lib (Fallible)

/-! ## The checked tree -/

inductive SymKind where
  | local | param | global | result
deriving DecidableEq, Repr

/-- A resolved name. `offset` counts down from `x29`; a global's place is decided later. -/
structure Sym where
  kind : SymKind
  name : String
  ty : Ty
  offset : Int

/-- Where a node stands and what type it has. -/
structure Info where
  pos : Pos
  ty : Ty

def Info.withTy (i : Info) (t : Ty) : Info := { i with ty := t }

/-- A checked expression. A constant has become an `int`, `size(T)` too, `x.len` is a `len`, and
a field is resolved to its offset. -/
inductive TExpr where
  | int (i : Info) (v : Word)
  | bool (i : Info) (b : Bool)
  | str (i : Info) (bytes : List UInt8)
  | var (i : Info) (s : Sym)
  | call (i : Info) (name : String) (args : List TExpr) (tempOff : Int)
  | method (i : Info) (cap : CapId) (m : CapMethod) (recv : TExpr) (args : List TExpr)
  | unary (i : Info) (op : UnOp) (a : TExpr)
  | binary (i : Info) (op : BinOp) (a b : TExpr)
  | index (i : Info) (a b : TExpr)
  | field (i : Info) (a : TExpr) (offset : Int)
  | slicePtr (i : Info) (a : TExpr)
  | len (i : Info) (a : TExpr)
  | slice (i : Info) (a lo hi : TExpr)
  | sliceToEnd (i : Info) (a lo : TExpr)
  | addr (i : Info) (a : TExpr)
  | deref (i : Info) (isAt : Bool) (a : TExpr)
  | cast (i : Info) (a : TExpr)
  | assign (i : Info) (a b : TExpr)
  | variant (i : Info) (tag : Nat) (fields : List (Ty × Int)) (args : List TExpr) (tempOff : Int)

namespace TExpr

def info : TExpr → Info
  | .int i _ | .bool i _ | .str i _ | .var i _ | .call i _ _ _ | .method i _ _ _ _
  | .unary i _ _ | .binary i _ _ _ | .index i _ _ | .field i _ _ | .slicePtr i _ | .len i _
  | .slice i _ _ _ | .sliceToEnd i _ _ | .addr i _ | .deref i _ _ | .cast i _ | .assign i _ _
  | .variant i _ _ _ _ => i

def ty (e : TExpr) : Ty := e.info.ty

def pos (e : TExpr) : Pos := e.info.pos

/-- Overwrite the type of the node itself. -/
def setTy (e : TExpr) (t : Ty) : TExpr :=
  match e with
  | .int i v => .int (i.withTy t) v
  | .bool i b => .bool (i.withTy t) b
  | .str i b => .str (i.withTy t) b
  | .var i s => .var (i.withTy t) s
  | .call i f as o => .call (i.withTy t) f as o
  | .method i c m r as => .method (i.withTy t) c m r as
  | .unary i op a => .unary (i.withTy t) op a
  | .binary i op a b => .binary (i.withTy t) op a b
  | .index i a b => .index (i.withTy t) a b
  | .field i a o => .field (i.withTy t) a o
  | .slicePtr i a => .slicePtr (i.withTy t) a
  | .len i a => .len (i.withTy t) a
  | .slice i a lo hi => .slice (i.withTy t) a lo hi
  | .sliceToEnd i a lo => .sliceToEnd (i.withTy t) a lo
  | .addr i a => .addr (i.withTy t) a
  | .deref i at' a => .deref (i.withTy t) at' a
  | .cast i a => .cast (i.withTy t) a
  | .assign i a b => .assign (i.withTy t) a b
  | .variant i tag fs as o => .variant (i.withTy t) tag fs as o

/-- `is_literal`. -/
def isLiteral : TExpr → Bool
  | .int .. => true
  | _ => false

/-- `is_lvalue`. -/
def isLvalue : TExpr → Bool
  | .var .. | .index .. | .field .. | .deref .. => true
  | _ => false

/-- The nodes of an expression. -/
def nodes : TExpr → Nat
  | .int .. | .bool .. | .str .. | .var .. => 1
  | .call _ _ as _ => 1 + nodesAll as
  | .method _ _ _ r as => 1 + r.nodes + nodesAll as
  | .unary _ _ a | .field _ a _ | .slicePtr _ a | .len _ a | .addr _ a | .deref _ _ a
  | .cast _ a => 1 + a.nodes
  | .binary _ _ a b | .index _ a b | .sliceToEnd _ a b | .assign _ a b => 1 + a.nodes + b.nodes
  | .slice _ a b c => 1 + a.nodes + b.nodes + c.nodes
  | .variant _ _ _ as _ => 1 + nodesAll as
where
  nodesAll : List TExpr → Nat
    | [] => 0
    | a :: as => a.nodes + nodesAll as

end TExpr

/-- The head of a checked arm: `else`, or a case with the slot, payload offset and type of each
name it binds. -/
inductive TArm where
  | otherwise
  | case (index : Nat) (binds : List (Sym × Int × Ty))

inductive TStmt where
  | block (ss : List TStmt)
  | letS (s : Sym) (init : Option TExpr)
  | expr (e : TExpr)
  | ifS (cond : TExpr) (thenS : TStmt)
  | ifElse (cond : TExpr) (thenS elseS : TStmt)
  | whileS (cond : TExpr) (body : TStmt)
  | forS (s : Sym) (lo hi : TExpr) (body : TStmt)
  | ret (e : Option TExpr)
  | brk
  | cont
  | assert (cond : TExpr) (text : String) (line : Nat)
  | matchS (e : TExpr) (subjectOff : Int) (arms : List (TArm × TStmt))

/-- A parameter: the argument register it arrives in and the slot the prologue writes it to. -/
structure Param where
  name : String
  ty : Ty
  regIndex : Nat
  offset : Int

def Param.sym (p : Param) : Sym := ⟨.param, p.name, p.ty, p.offset⟩

structure TContract where
  expr : TExpr
  text : String
  line : Nat

structure TFn where
  name : String
  file : String
  params : List Param
  ret : Ty
  req : List TContract
  ens : List TContract
  body : TStmt
  isEntry : Bool
  frameSize : Int
  sretOff : Int
  resultOff : Int

/-- A checked unit, with the manifest the checker collected. -/
structure TUnit where
  fns : List TFn
  globals : List Global
  entry : Fn
  sysUsed : List Nat
  capsUsed : List String

/-! ## The checker's state -/

/-- A refusal: where, and what it says. -/
structure Diag where
  file : String
  pos : Pos
  text : String
deriving DecidableEq, Repr

/-- The checker's variables: `src_name`, the frame used so far, the open scopes with the innermost
first, the loops around the current statement, and the manifest. -/
structure CState where
  file : String
  frame : Int
  scopes : List (List Sym)
  loopDepth : Nat
  sysUsed : List Nat
  capsUsed : List String

abbrev CheckM := Fallible Diag CState

/-- `die_at`. -/
def die {α : Type} (p : Pos) (text : String) : CheckM α := fun s => .error ⟨s.file, p, text⟩

@[simp] theorem die_ok {α : Type} {p : Pos} {text : String} {s s' : CState} {a : α} :
    die p text s = .ok (a, s') ↔ False := by
  simp [die]

/-- A number into the manifest's table of 64, once. -/
def CState.withCall (s : CState) (n : Nat) : CState :=
  if n = 0 ∨ n ∈ s.sysUsed then s
  else if s.sysUsed.length < 64 then { s with sysUsed := s.sysUsed ++ [n] } else s

/-- A capability's name into the table of 16, once. -/
def CState.withCap (s : CState) (name : String) : CState :=
  if name ∈ s.capsUsed then s
  else if s.capsUsed.length < 16 then { s with capsUsed := s.capsUsed ++ [name] } else s

@[simp] theorem CState.withCall_scopes (s : CState) (n : Nat) :
    (s.withCall n).scopes = s.scopes := by
  unfold CState.withCall
  split_ifs <;> rfl

@[simp] theorem CState.withCap_scopes (s : CState) (name : String) :
    (s.withCap name).scopes = s.scopes := by
  unfold CState.withCap
  split_ifs <;> rfl

def recordSyscall (n : Nat) : CheckM Unit := Fallible.modify (·.withCall n)

def recordCap (name : String) : CheckM Unit := Fallible.modify (·.withCap name)

/-- The bytes `n` takes in a frame, to a multiple of eight. -/
def roundUp8 (n : Int) : Int := (n + 7) / 8 * 8

/-- The bytes of frame a variable of a type gets, eight at least. -/
def slotSize (t : Ty) : Int := roundUp8 (if t.size < 8 then 8 else t.size)

/-- Take `n` bytes of frame; the new depth is the offset of what they hold. -/
def takeFrame (n : Int) : CheckM Int := fun s => .ok (s.frame + n, { s with frame := s.frame + n })

def pushScope : CheckM Unit := Fallible.modify fun s => { s with scopes := [] :: s.scopes }

def popScope : CheckM Unit := Fallible.modify fun s => { s with scopes := s.scopes.tail }

/-- A symbol into the innermost scope. -/
def CState.withSym (s : CState) (y : Sym) : CState :=
  match s.scopes with
  | [] => { s with scopes := [[y]] }
  | sc :: rest => { s with scopes := (y :: sc) :: rest }

def scopeAdd (y : Sym) : CheckM Unit := Fallible.modify (·.withSym y)

/-- What a name means: a slot or a global, or a constant's value and type. -/
inductive Meaning where
  | sym (s : Sym)
  | const (ty : Ty) (v : Word)

/-- The innermost declaration of a name, then the globals. -/
def lookup (u : SavUnit) (scopes : List (List Sym)) (name : String) : Option Meaning :=
  match scopes.flatten.find? (·.name == name) with
  | some s => some (.sym s)
  | none =>
    match u.globals.find? (·.name == name) with
    | none => none
    | some g =>
      match g.cval with
      | some v => some (.const g.ty v)
      | none => some (.sym ⟨.global, g.name, g.ty, 0⟩)

/-- A local: a name of its own in this block, not the name of the returned value, and a slot of
at least eight bytes. -/
def declare (f : Fn) (name : String) (t : Ty) (p : Pos) : CheckM Sym := do
  let s ← Fallible.get
  if (s.scopes.headD []).any (·.name == name) then
    die p ("`" ++ name ++ "` is already declared in this block")
  else if f.retName = some name then
    die p ("`" ++ name ++ "` is the name `" ++ f.name ++ "` gives to the value it returns; call " ++
      "this one something else, so that a `gives` clause can only be read one way")
  else
    let off ← takeFrame (slotSize t)
    let y : Sym := ⟨.local, name, t, off⟩
    scopeAdd y
    pure y

/-! ## Expressions -/

/-- An integer literal takes an integer or pointer type it is asked for; everything else must have
the type already. -/
def want (e : TExpr) (t : Ty) (what : String) : CheckM TExpr :=
  if e.isLiteral && (t.isInt || t.isPtr) then pure (e.setTy t)
  else if Ty.same e.ty t then pure e
  else die e.pos (what ++ " wants " ++ t.str ++ ", this is " ++ e.ty.str)

def needLvalue (e : TExpr) (what : String) : CheckM Unit :=
  if e.isLvalue then pure ()
  else die e.pos (what ++ " needs somewhere to put it, and this is a value")

def boolWord (b : Bool) : Word := if b then 1 else 0

/-- The value of an expression the compiler can settle by itself, in `i64` arithmetic. -/
def constValue : TExpr → Option Word
  | .int _ v => some v
  | .bool _ b => some (boolWord b)
  | .unary _ op a =>
    match constValue a with
    | none => none
    | some a =>
      match op with
      | .neg => some (-a)
      | .not => some (boolWord (a == 0))
      | .compl => some (~~~a)
  | .binary _ op a b =>
    match constValue a, constValue b with
    | some a, some b =>
      match op with
      | .add => some (a + b)
      | .sub => some (a - b)
      | .mul => some (a * b)
      | .div => if b = 0 then none else some (a.sdiv b)
      | .mod => if b = 0 then none else some (a.srem b)
      | .lt => some (boolWord (a.slt b))
      | .le => some (boolWord (a.sle b))
      | .gt => some (boolWord (b.slt a))
      | .ge => some (boolWord (b.sle a))
      | .eq => some (boolWord (a == b))
      | .ne => some (boolWord (a != b))
      | .andand => some (boolWord (a != 0 && b != 0))
      | .oror => some (boolWord (a != 0 || b != 0))
      | _ => none
    | _, _ => none
  | _ => none

def plural (n : Nat) : String := if n = 1 then "" else "s"

/-- What a method takes in one place. -/
def ArgShape.ty : ArgShape → Ty
  | .s => .slice .u8
  | .p => .ptr .u8 false
  | .i => .i64

def RetShape.ty : RetShape → Ty
  | .i => .i64
  | .s => .slice .u8
  | .v => .void

def Ty.isBool : Ty → Bool
  | .bool => true
  | _ => false

def Ty.isCap : Ty → Bool
  | .cap _ => true
  | _ => false

/-- The casts the language has. -/
def castable (src dst : Ty) : Bool :=
  (src.isInt && dst.isInt) || (src.isInt && dst.isPtr) || (src.isPtr && dst.isInt)
    || (src.isPtr && dst.isPtr) || (src.isBool && dst.isInt) || (src.isInt && dst.isBool)

/-- The last half of `E_CAST`: `dev` is not taken off and a capability is not a number. -/
def checkCast (p : Pos) (dst : Ty) (a : TExpr) : CheckM TExpr :=
  if a.ty.isDevPtr && !dst.isDevPtr then
    die p ("a `dev` pointer cannot become " ++ dst.str ++ ". Device memory is read and written " ++
      "exactly as written down; an ordinary pointer promises nothing of the kind")
  else if a.ty.isCap || dst.isCap then
    die p "a capability cannot be cast. It is authority, not a number"
  else if castable a.ty dst then pure (.cast ⟨p, dst⟩ a)
  else die p (a.ty.str ++ " cannot be cast to " ++ dst.str)

/-- The last half of `E_BINARY`, for everything but `&&` and `||`. -/
def checkArith (p : Pos) (op : BinOp) (a b : TExpr) : CheckM TExpr :=
  if op.isCmp then
    if Ty.same a.ty b.ty then pure (.binary ⟨p, .bool⟩ op a b)
    else die p ("comparing " ++ a.ty.str ++ " with " ++ b.ty.str ++
      "; say which one you meant with `as`")
  else if a.ty.isPtr && b.ty.isInt && (op == .add || op == .sub) then
    pure (.binary ⟨p, a.ty⟩ op a b)
  else if !a.ty.isInt || !b.ty.isInt then
    die p ("this operator wants numbers, given " ++ a.ty.str ++ " and " ++ b.ty.str)
  else if Ty.same a.ty b.ty then pure (.binary ⟨p, a.ty⟩ op a b)
  else die p (a.ty.str ++ " and " ++ b.ty.str ++ " do not mix; cast one with `as`")

/-- A literal beside a number that is not one takes its type. -/
def litLike (e other : TExpr) : TExpr :=
  if e.isLiteral && !other.isLiteral && other.ty.isInt then e.setTy other.ty else e

/-- The last half of `E_INDEX`. -/
def checkIndex (p : Pos) (a b : TExpr) : CheckM TExpr :=
  if !b.ty.isInt then die p ("an index is a number, this is " ++ b.ty.str)
  else
    match a.ty with
    | .ptr _ true =>
      die p ("a device pointer is not indexed: write `(p + i)@`, so that the access is " ++
        "visible where it happens")
    | .ptr _ false =>
      die p ("a pointer does not know how many there are, so this index cannot be checked. " ++
        "Make a slice first: `p[0..n]`")
    | .slice t => pure (.index ⟨p, t⟩ a b)
    | .array t n =>
      match constValue b with
      | none => pure (.index ⟨p, t⟩ a b)
      | some k =>
        if k.toInt < 0 ∨ k.toInt ≥ n then
          die p (toString k.toInt ++ " is outside a " ++ a.ty.str ++ ", and that can be seen from " ++
            "here rather than found when it runs")
        else pure (.index ⟨p, t⟩ a b)
    | t => die p (t.str ++ " cannot be indexed")

/-- A field of a struct, which `a` is or points to. -/
def checkStructField (p : Pos) (a : TExpr) (t : Ty) (name : String) : CheckM TExpr :=
  match t with
  | .struct sname fields _ _ =>
    match fields.find? (·.1 == name) with
    | some (_, ft, off) => pure (.field ⟨p, ft⟩ a off)
    | none => die p (sname ++ " has no field `" ++ name ++ "`")
  | _ => die p (a.ty.str ++ " has no fields")

/-- The last half of `E_FIELD`. -/
def checkField (p : Pos) (a : TExpr) (name : String) : CheckM TExpr :=
  match a.ty with
  | .cap _ =>
    let who := match a with
      | .var _ s => s.name
      | _ => "cap"
    die p ("a capability's methods are called with `!`: write `" ++ who ++ "!" ++ name ++
      "(...)`. The mark is there so that every line which reaches the world can be seen at a glance")
  | .ptr _ true =>
    die p ("a device register is reached with `@` and nothing else; `" ++ name ++
      "` would be an access that does not look like one")
  | .slice t =>
    if name = "len" then pure (.len ⟨p, .i64⟩ a)
    else if name = "ptr" then pure (.slicePtr ⟨p, .ptr t false⟩ a)
    else checkStructField p a (.slice t) name
  | .array t n =>
    if name = "len" then pure (.len ⟨p, .i64⟩ a) else checkStructField p a (.array t n) name
  | .ptr t false => checkStructField p a t name
  | t => checkStructField p a t name

/-- What `E_SLICE` refuses of the thing sliced. -/
def checkSliced (p : Pos) (t : Ty) (toEnd : Bool) : CheckM Unit :=
  match t with
  | .ptr _ true =>
    die p ("a device pointer cannot become a slice: every access to a register is `@`, one at a " ++
      "time, where it is written")
  | .ptr _ false =>
    if toEnd then die p "a pointer has no end to run to: say how many, as `p[0..n]`" else pure ()
  | .array _ _ => pure ()
  | .slice _ => pure ()
  | t => die p ("only an array, a slice or a pointer can be sliced, this is " ++ t.str)

/-- The last half of `E_DEREF`. -/
def checkDeref (p : Pos) (isAt : Bool) (a : TExpr) : CheckM TExpr :=
  match a.ty with
  | .ptr t dev =>
    if isAt && !dev then
      die p ("`@` is how device memory is reached, and this is " ++ a.ty.str ++
        ". Ordinary memory is `*p`")
    else if !isAt && dev then
      die p ("a device access is written `p@`, not `*p`. It is not a dereference: it is one " ++
        "access, of the declared width, in the order written — and it should not look like memory")
    else pure (.deref ⟨p, t⟩ isAt a)
  | t => die p ("only a pointer can be followed, this is " ++ t.str)

/-- What `E_METHOD` asks of its receiver. -/
def checkRecv (p : Pos) (recv : TExpr) : CheckM CapId :=
  match recv.ty with
  | .cap c => pure c
  | t => die p ("`!` calls a capability's method, and this is " ++ t.str ++ ". A system call is " ++
      "reached through a capability or not at all")

/-- The method a capability has under a name, with the number of arguments it takes. -/
def checkMethod (p : Pos) (c : CapId) (name : String) (nargs : Nat) : CheckM CapMethod :=
  match c.methods.find? (·.name == name) with
  | none => die p (c.name ++ " has no method `" ++ name ++ "`. It has:" ++
      String.join (c.methods.map (" " ++ ·.name)))
  | some m =>
    if nargs ≠ m.sig.length then
      die p (c.name ++ "." ++ m.name ++ " takes " ++ toString m.sig.length ++ " argument" ++
        plural m.sig.length ++ ", given " ++ toString nargs)
    else pure m

/-- The function a call names, with the number of arguments it takes. -/
def checkCallee (u : SavUnit) (p : Pos) (name : String) (nargs : Nat) : CheckM Fn :=
  match u.findFn name with
  | none => die p ("there is no function called `" ++ name ++ "`")
  | some f =>
    if f.isEntry then
      die p ("`" ++ name ++ "` is where the program starts; the kernel calls it, not you")
    else if nargs ≠ f.params.length then
      die p ("`" ++ f.name ++ "` takes " ++ toString f.params.length ++ " argument" ++
        plural f.params.length ++ ", given " ++ toString nargs)
    else pure f

/-- The case of an enum a name means, with the number of values it carries. -/
def checkVariant (p : Pos) (t : Ty) (name : String) (nargs : Nat) :
    CheckM (Nat × List (String × Ty × Int)) :=
  match t with
  | .enum ename vs _ =>
    match vs.findIdx? (·.1 == name) with
    | none => die p (ename ++ " has no case `" ++ name ++ "`. It has:" ++
        String.join (vs.map (" " ++ ·.1)))
    | some k =>
      let fields := (vs.getD k ("", [])).2
      if nargs ≠ fields.length then
        die p ("`" ++ ename ++ "." ++ name ++ "` carries " ++ toString fields.length ++ " value" ++
          plural fields.length ++ ", given " ++ toString nargs)
      else pure (k, fields)
  | _ => die p (t.str ++ " has no case `" ++ name ++ "`. It has:")

mutual

def checkExpr (u : SavUnit) : Expr → CheckM TExpr
  | .int p v => pure (.int ⟨p, .i64⟩ v)
  | .bool p b => pure (.bool ⟨p, .bool⟩ b)
  | .str p bytes => pure (.str ⟨p, .slice .u8⟩ bytes)
  | .size p t => pure (.int ⟨p, .i64⟩ (BitVec.ofInt 64 t.size))
  | .var p name => do
    let s ← Fallible.get
    match lookup u s.scopes name with
    | some (.sym y) => pure (.var ⟨p, y.ty⟩ y)
    | some (.const t v) => pure (.int ⟨p, t⟩ v)
    | none =>
      if (u.findFn name).isSome then die p ("`" ++ name ++ "` is a function; call it with ()")
      else die p ("nothing here is called `" ++ name ++ "`")
  | .call p name args => do
    let f ← checkCallee u p name args.length
    let args ← checkArgs u args (f.params.map (·.2)) "this argument"
    -- the caller owns the space a returned aggregate is written into
    if f.ret.isAggregate then
      let off ← takeFrame (roundUp8 f.ret.size)
      pure (.call ⟨p, f.ret⟩ name args off)
    else pure (.call ⟨p, f.ret⟩ name args 0)
  | .method p recv name args => do
    let recv ← checkExpr u recv
    let c ← checkRecv p recv
    let m ← checkMethod p c name args.length
    let args ← checkArgs u args (m.sig.map ArgShape.ty) "this argument"
    recordSyscall m.sysno
    recordCap c.name
    pure (.method ⟨p, m.ret.ty⟩ c m recv args)
  | .unary p op a => do
    let a ← checkExpr u a
    if op = .not then
      let a ← want a .bool "`!`"
      pure (.unary ⟨p, .bool⟩ op a)
    else if a.ty.isInt then pure (.unary ⟨p, a.ty⟩ op a)
    else die p ("this operator wants a number, given " ++ a.ty.str)
  | .binary p op a b => do
    let a ← checkExpr u a
    let b ← checkExpr u b
    if op.isShort then
      let a ← want a .bool "`&&`/`||`"
      let b ← want b .bool "`&&`/`||`"
      pure (.binary ⟨p, .bool⟩ op a b)
    else checkArith p op (litLike a b) (litLike b a)
  | .index p a b => do
    let a ← checkExpr u a
    let b ← checkExpr u b
    checkIndex p a b
  | .field p a name => do
    let a ← checkExpr u a
    checkField p a name
  | .slice p a lo hi => do
    let a ← checkExpr u a
    let lo ← checkExpr u lo
    let hi ← checkExpr u hi
    checkSliced p a.ty false
    pure (.slice ⟨p, .slice a.ty.elem⟩ a lo hi)
  | .sliceToEnd p a lo => do
    let a ← checkExpr u a
    let lo ← checkExpr u lo
    checkSliced p a.ty true
    pure (.sliceToEnd ⟨p, .slice a.ty.elem⟩ a lo)
  | .addr p a => do
    let a ← checkExpr u a
    needLvalue a "`&`"
    pure (.addr ⟨p, .ptr a.ty false⟩ a)
  | .deref p isAt a => do
    let a ← checkExpr u a
    checkDeref p isAt a
  | .cast p dst a => do
    let a ← checkExpr u a
    checkCast p dst a
  | .assign p a b => do
    let a ← checkExpr u a
    let b ← checkExpr u b
    needLvalue a "an assignment"
    let b ← want b a.ty "this assignment"
    pure (.assign ⟨p, a.ty⟩ a b)
  | .variant p t name args => do
    let (k, fields) ← checkVariant p t name args.length
    let args ← checkArgs u args (fields.map (·.2.1)) "this value"
    let off ← takeFrame (roundUp8 t.size)
    pure (.variant ⟨p, t⟩ k (fields.map (·.2)) args off)

/-- The arguments in order, each against the type wanted in its place. -/
def checkArgs (u : SavUnit) : List Expr → List Ty → String → CheckM (List TExpr)
  | [], _, _ => pure []
  | _ :: _, [], _ => pure []
  | a :: as, t :: ts, what => do
    let a ← checkExpr u a
    let a ← want a t what
    let as ← checkArgs u as ts what
    pure (a :: as)

end

/-! ## Rule 1: a claim must depend on what it claims -/

/-- Whether an expression can differ between two runs of the function. -/
def depends (allowResult : Bool) : TExpr → Bool
  | .int .. | .bool .. | .str .. => false
  | .var _ s => if s.kind = .result then allowResult else true
  | .call .. | .method .. => true
  | .len _ a | .deref _ _ a | .addr _ a | .field _ a _ | .slicePtr _ a | .cast _ a
  | .unary _ _ a => depends allowResult a
  | .binary _ _ a b | .index _ a b | .assign _ a b | .sliceToEnd _ a b =>
    depends allowResult a || depends allowResult b
  | .slice _ a b c => depends allowResult a || depends allowResult b || depends allowResult c
  | .variant .. => true

/-- The `a`, `b` and `c` of a node, then its `args`. -/
def TExpr.parts : TExpr → Option TExpr × Option TExpr × Option TExpr × List TExpr
  | .int .. | .bool .. | .str .. | .var .. => (none, none, none, [])
  | .call _ _ as _ => (none, none, none, as)
  | .method _ _ _ r as => (some r, none, none, as)
  | .unary _ _ a | .field _ a _ | .slicePtr _ a | .len _ a | .addr _ a | .deref _ _ a
  | .cast _ a => (some a, none, none, [])
  | .binary _ _ a b | .index _ a b | .sliceToEnd _ a b | .assign _ a b => (some a, some b, none, [])
  | .slice _ a b c => (some a, some b, some c, [])
  | .variant _ _ _ as _ => (none, none, none, as)

/-- Push arguments while the stack is below sixty. -/
def pushArgs : List TExpr → List (Option TExpr) → List (Option TExpr)
  | [], st => st
  | a :: as, st => if st.length < 60 then pushArgs as (some a :: st) else st

/-- The search for the returned value's name: a stack of 64 places, with the children of a node
pushed only while fewer than sixty are taken. -/
def namesResult : Nat → List (Option TExpr) → Bool
  | 0, _ => false
  | _ + 1, [] => false
  | fuel + 1, none :: st => namesResult fuel st
  | fuel + 1, some e :: st =>
    match e with
    | .var _ ⟨.result, _, _, _⟩ => true
    | _ =>
      if st.length < 60 then
        let (a, b, c, args) := e.parts
        namesResult fuel (pushArgs args (c :: b :: a :: st))
      else namesResult fuel st

def checkContract (u : SavUnit) (f : Fn) (isEnsures : Bool) (k : Contract) : CheckM TContract := do
  let e ← checkExpr u k.expr
  let word := if isEnsures then "`gives`" else "`needs`"
  if !e.ty.isBool then
    die k.pos ("a " ++ word ++ " clause is true or false about the run; this is " ++ e.ty.str)
  else
    match constValue e with
    | some v =>
      die k.pos ("this claim is decided before the program runs: it is " ++
        (if v = 0 then "false" else "true") ++ " no matter what happens")
    | none =>
      if !depends isEnsures e then die k.pos "this claim does not depend on what it claims"
      else if isEnsures && !namesResult (4 * e.nodes + 1) [some e] && !f.ret.isVoid then
        die k.pos ("this promise never mentions `" ++ f.retName.getD "the result" ++
          "`, the value `" ++ f.name ++ "` returns, so it says the same thing whether the " ++
          "function worked or not")
      else pure ⟨e, k.text, k.pos.line⟩

/-- The clauses in order. -/
def checkContracts (u : SavUnit) (f : Fn) (isEnsures : Bool) :
    List Contract → CheckM (List TContract)
  | [] => pure []
  | k :: ks => do
    let k ← checkContract u f isEnsures k
    let ks ← checkContracts u f isEnsures ks
    pure (k :: ks)

/-! ## Statements -/

mutual

def alwaysReturns : Stmt → Bool
  | .ret .. => true
  | .block ss => lastReturns ss
  | .ifElse _ t e => alwaysReturns t && alwaysReturns e
  | _ => false

/-- Whether the last statement of a block always returns. -/
def lastReturns : List Stmt → Bool
  | [] => false
  | [s] => alwaysReturns s
  | _ :: s :: ss => lastReturns (s :: ss)

end

def enterLoop : CheckM Unit := Fallible.modify fun s => { s with loopDepth := s.loopDepth + 1 }

def leaveLoop : CheckM Unit := Fallible.modify fun s => { s with loopDepth := s.loopDepth - 1 }

def needLoop (p : Pos) (word : String) : CheckM Unit := do
  let s ← Fallible.get
  if s.loopDepth = 0 then die p ("`" ++ word ++ "` is only meaningful inside a loop") else pure ()

/-- The type a `let` settles on and the checked value it starts with. -/
def checkLet (u : SavUnit) (p : Pos) (name : String) : LetDecl → CheckM (Ty × Option TExpr)
  | .typed t none => pure (t, none)
  | .typed t (some e) => do
    let e ← checkExpr u e
    let e ← want e t "this initialiser"
    pure (t, some e)
  | .inferred e => do
    let e ← checkExpr u e
    if e.ty.isVoid then die p ("`" ++ name ++ "` is being given nothing at all")
    else if e.isLiteral then pure (.i64, some e)
    else pure (e.ty, some e)

def checkReturn (u : SavUnit) (f : Fn) (p : Pos) : Option Expr → CheckM (Option TExpr)
  | some e => do
    let e ← checkExpr u e
    if f.ret.isVoid then
      die p ("`" ++ f.name ++ "` returns nothing, so it cannot return a value")
    else
      let e ← want e f.ret "this return"
      pure (some e)
  | none =>
    if !f.ret.isVoid then
      die p ("`" ++ f.name ++ "` returns " ++ f.ret.str ++ ", so this `return` needs a value")
    else pure none

/-- Slots for the names an arm gives to the payload of its case. -/
def declareBinds (f : Fn) (p : Pos) :
    List String → List (String × Ty × Int) → CheckM (List (Sym × Int × Ty))
  | b :: bs, (_, t, off) :: fs => do
    let y ← declare f b t p
    let rest ← declareBinds f p bs fs
    pure ((y, off, t) :: rest)
  | _, _ => pure []

/-- An arm's case: its number, not taken before, and all of its payload named or none of it. -/
def checkArmCase (ename : String) (vs : List (String × List (String × Ty × Int))) (seen : List Nat)
    (p : Pos) (name : String) (binds : List String) : CheckM (Nat × List (String × Ty × Int)) :=
  match vs.findIdx? (·.1 == name) with
  | none => die p (ename ++ " has no case `" ++ name ++ "`. It has:" ++
      String.join (vs.map (" " ++ ·.1)))
  | some k =>
    let fields := (vs.getD k ("", [])).2
    if k ∈ seen then
      die p ("`" ++ name ++ "` is already taken by an earlier arm, so this one can never run")
    else if binds ≠ [] ∧ binds.length ≠ fields.length then
      die p ("`" ++ name ++ "` carries " ++ toString fields.length ++ " value" ++
        plural fields.length ++ "; name all of them or none")
    else pure (k, fields)

/-- What is asked of the cases left over once the arms are known. -/
def checkLeftOver (p : Pos) (ename : String) (vs : List (String × List (String × Ty × Int)))
    (seen : List Nat) (hasElse : Bool) : CheckM Unit :=
  let missing := (List.range vs.length).filter (· ∉ seen)
  if missing ≠ [] ∧ hasElse = false then
    die p ("this match does not say what to do with:" ++
      String.join (missing.map fun k => " " ++ (vs.getD k ("", [])).1) ++
      "\n        note: add the arm, or an `else` that says it deliberately does nothing")
  else if missing = [] ∧ hasElse = true then
    die p ("every case of " ++ ename ++ " is already taken, so this `else` can never run")
  else pure ()

mutual

def checkStmt (u : SavUnit) (f : Fn) : Stmt → CheckM TStmt
  | .block ss => do
    pushScope
    let ss ← checkStmts u f ss
    popScope
    pure (.block ss)
  | .letS p isVar name decl => do
    let (t, init) ← checkLet u p name decl
    if t.isCap && isVar then
      die p ("a capability is not a variable: it is authority handed in, not something to reassign")
    else
      let y ← declare f name t p
      pure (.letS y init)
  | .expr e => do
    let e ← checkExpr u e
    pure (.expr e)
  | .ifS c t => do
    let c ← checkExpr u c
    let c ← want c .bool "an `if`"
    let t ← checkStmt u f t
    pure (.ifS c t)
  | .ifElse c t e => do
    let c ← checkExpr u c
    let c ← want c .bool "an `if`"
    let t ← checkStmt u f t
    let e ← checkStmt u f e
    pure (.ifElse c t e)
  | .whileS c b => do
    let c ← checkExpr u c
    let c ← want c .bool "a `while`"
    enterLoop
    let b ← checkStmt u f b
    leaveLoop
    pure (.whileS c b)
  | .forS p name lo hi b => do
    let lo ← checkExpr u lo
    let hi ← checkExpr u hi
    if !lo.ty.isInt || !hi.ty.isInt then die p "a `for` counts over numbers"
    else
      pushScope
      let y ← declare f name .i64 p
      enterLoop
      let b ← checkStmt u f b
      leaveLoop
      popScope
      -- both bounds are read as `i64` from here on, whatever they were checked as
      pure (.forS y (lo.setTy .i64) (hi.setTy .i64) b)
  | .ret p e => do
    let e ← checkReturn u f p e
    pure (.ret e)
  | .brk p => do
    needLoop p "break"
    pure .brk
  | .cont p => do
    needLoop p "continue"
    pure .cont
  | .assert p c text => do
    let c ← checkExpr u c
    let c ← want c .bool "an `assert`"
    match constValue c with
    | some v =>
      die p ("this check is decided before the program runs: it is " ++
        (if v = 0 then "false" else "true") ++ " every time, so it checks nothing")
    | none =>
      if !depends false c then die p "this check does not depend on anything the program did"
      else
        recordSyscall 64
        recordSyscall 93
        pure (.assert c text p.line)
  | .matchS p e arms => do
    let e ← checkExpr u e
    match e.ty with
    | .enum ename vs _ =>
      let off ← takeFrame 8
      let (arms, seen, hasElse) ← checkArms u f ename vs [] false arms
      checkLeftOver p ename vs seen hasElse
      pure (.matchS e off arms)
    | t => die p ("`match` chooses between the cases of an enum, and this is " ++ t.str)

def checkStmts (u : SavUnit) (f : Fn) : List Stmt → CheckM (List TStmt)
  | [] => pure []
  | s :: ss => do
    let s ← checkStmt u f s
    let ss ← checkStmts u f ss
    pure (s :: ss)

/-- The arms in order, with the cases already taken and whether an `else` has been met. -/
def checkArms (u : SavUnit) (f : Fn) (ename : String)
    (vs : List (String × List (String × Ty × Int))) (seen : List Nat) (hasElse : Bool) :
    List (ArmHead × Stmt) → CheckM (List (TArm × TStmt) × List Nat × Bool)
  | [] => pure ([], seen, hasElse)
  | (.otherwise p, body) :: rest =>
    if hasElse then
      die p "this arm comes after `else`, which has already taken everything left"
    else do
      pushScope
      let body ← checkStmt u f body
      popScope
      let (rest, seen, hasElse) ← checkArms u f ename vs seen true rest
      pure ((.otherwise, body) :: rest, seen, hasElse)
  | (.case p name binds, body) :: rest =>
    if hasElse then
      die p "this arm comes after `else`, which has already taken everything left"
    else do
      let (k, fields) ← checkArmCase ename vs seen p name binds
      pushScope
      let binds ← declareBinds f p binds fields
      let body ← checkStmt u f body
      popScope
      let (rest, seen, hasElse) ← checkArms u f ename vs (k :: seen) hasElse rest
      pure ((.case k binds, body) :: rest, seen, hasElse)

end

/-! ## Functions and units -/

/-- Argument registers a parameter takes. -/
def regsOf (t : Ty) : Nat := if t.isSlice then 2 else 1

/-- The parameters in order: registers handed out one or two at a time, eight in all, and a slot
each. -/
def checkParams (f : Fn) : Nat → List (String × Ty) → CheckM (List Param)
  | _, [] => pure []
  | regs, (name, t) :: rest =>
    if t.isVoid then die f.pos "a parameter cannot be void"
    else if t.isStruct || t.isArray then
      die f.pos ("`" ++ name ++ "` is " ++ t.str ++ ": pass `*" ++ t.str ++ "` instead. sav " ++
        "copies a struct only where you write the copy, so that a large argument is visible as one")
    else if f.isEntry && !t.isCap then
      die f.pos ("`entry fn " ++ f.name ++ "` may only take capabilities, and `" ++ name ++
        "` is " ++ t.str ++ ". What a program can do is what its entry point asks for")
    else if regs + regsOf t > 8 then
      die f.pos ("`" ++ f.name ++ "` has more arguments than the eight registers hold")
    else do
      let off ← takeFrame (slotSize t)
      scopeAdd ⟨.param, name, t, off⟩
      let rest ← checkParams f (regs + regsOf t) rest
      pure (⟨name, t, regs, off⟩ :: rest)

/-- The slot of the returned value while its clauses are read, when there are any. -/
def checkResult (f : Fn) : CheckM (Int × List Sym) :=
  match f.ens with
  | [] => pure (0, [])
  | k :: _ =>
    if !f.ret.isVoid && f.retName.isNone then
      die k.pos ("`gives` promises something about the value `" ++ f.name ++ "` returns, and that " ++
        "value has no name. Write `-> name: " ++ f.ret.str ++ "` in the signature: you may only " ++
        "promise about something you have named")
    else do
      let off ← takeFrame 16
      match f.retName with
      | none => pure (off, [])
      | some n => pure (off, [⟨.result, n, f.ret, off⟩])

/-- Where the caller's space for an aggregate result is kept. -/
def checkSret (f : Fn) : CheckM Int := if f.ret.isAggregate then takeFrame 8 else pure 0

/-- A broken clause says so and stops. -/
def recordFails (f : Fn) : CheckM Unit :=
  Fallible.onlyIf (!f.req.isEmpty || !f.ens.isEmpty) do
    recordSyscall 64
    recordSyscall 93

def checkFn (u : SavUnit) (f : Fn) : CheckM TFn := do
  Fallible.modify fun s => { s with file := f.file, frame := 0 }
  pushScope
  let params ← checkParams f 0 f.params
  if f.ret.isAggregate && !f.ens.isEmpty then
    die ((f.ens.map (·.pos)).headD f.pos) ("there is nothing sav can yet say about a " ++
      f.ret.str ++ " in a clause — no test on it exists to write — so a `gives` here could only " ++
      "be vacuous, and vacuous claims do not compile. Promise about what a `match` on it finds " ++
      "instead")
  else
    let sretOff ← checkSret f
    let (resultOff, resSyms) ← checkResult f
    let req ← checkContracts u f false f.req
    Fallible.modify fun s => { s with scopes := resSyms :: s.scopes }
    let ens ← checkContracts u f true f.ens
    popScope
    recordFails f
    let body ← checkStmt u f f.body
    popScope
    if !f.ret.isVoid && !alwaysReturns f.body then
      die f.pos ("`" ++ f.name ++ "` returns " ++ f.ret.str ++
        ", but its body can reach the end without returning one")
    else
      let s ← Fallible.get
      pure {
        name := f.name
        file := f.file
        params
        ret := f.ret
        req
        ens
        body
        isEntry := f.isEntry
        frameSize := (s.frame + 15) / 16 * 16
        sretOff
        resultOff }

def checkFns (u : SavUnit) : List Fn → CheckM (List TFn)
  | [] => pure []
  | f :: fs => do
    let f ← checkFn u f
    let fs ← checkFns u fs
    pure (f :: fs)

/-- An exit status is `i32`, `i64` or nothing. -/
def exitStatus : Ty → Bool
  | .void => true
  | .int .w32 _ | .int .w64 _ => true
  | _ => false

def checkGlobals : List Global → CheckM Unit
  | [] => pure ()
  | g :: gs =>
    if g.cval.isNone && g.ty.isCap then
      die g.pos ("`" ++ g.name ++ "` is a global capability. Authority in sav travels as an " ++
        "argument, so that reading a signature is enough to know what a function can do")
    else checkGlobals gs

def checkUnitM (u : SavUnit) : CheckM TUnit := do
  checkGlobals u.globals
  match u.entry with
  | none => die ⟨0, 0⟩ "this program has no `entry fn`, so nothing can start it"
  | some e =>
    let fns ← checkFns u u.fns
    if !exitStatus e.ret then
      die e.pos ("`entry fn " ++ e.name ++ "` returns " ++ e.ret.str ++
        "; an exit status is i32 or i64, or nothing at all")
    else
      recordSyscall 93
      let s ← Fallible.get
      pure {
        fns
        globals := u.globals
        entry := e
        sysUsed := s.sysUsed
        capsUsed := s.capsUsed }

/-- `check_unit`, from the state savc starts in. `file` is the name it was invoked on. -/
def checkUnit (file : String) (u : SavUnit) : Except Diag TUnit :=
  (checkUnitM u ⟨file, 0, [], 0, [], []⟩).map (·.1)

end Verkos.Sav
