import Mathlib.Data.BitVec

/-!
# The sav tree

What the parser hands to the checker: types with the size and alignment the parser gave them, the
capabilities with the system call each of their methods becomes, expressions, statements,
functions and the unit they make up. A `struct` and an `enum` are usable only after their closing
brace, so a type never contains itself and a `Ty` is a finite tree that carries its own layout.

Positions are kept where a diagnostic or a run-time message names one.
-/

namespace Verkos.Sav

/-- A 64-bit value: `u64`, or an `i64` read as its two's complement. -/
abbrev Word := BitVec 64

/-- A line and a column of the source. -/
structure Pos where
  line : Nat
  col : Nat
deriving DecidableEq, Repr, Inhabited

/-! ## Capabilities -/

/-- Which capability: the index of an entry of `cap_defs`. -/
inductive CapId where
  | console | args | files | proc
deriving DecidableEq, Repr

/-- What a capability method takes in one place: `[]u8`, `i64` or `*u8`. -/
inductive ArgShape where
  | s | i | p
deriving DecidableEq, Repr

/-- What a capability method returns. -/
inductive RetShape where
  | i | v | s
deriving DecidableEq, Repr

/-- A method of a capability and the system call it becomes. Number zero is none at all: `Args`
reads the stack the kernel handed the program. -/
structure CapMethod where
  name : String
  sysno : Nat
  sig : List ArgShape
  ret : RetShape
deriving DecidableEq, Repr

namespace CapId

def name : CapId → String
  | .console => "Console"
  | .args => "Args"
  | .files => "Files"
  | .proc => "Proc"

/-- The `id` of the entry. The entry code hands a program `id + 1` as the capability's value. -/
def index : CapId → Nat
  | .console => 0
  | .args => 1
  | .files => 2
  | .proc => 3

def methods : CapId → List CapMethod
  | .console =>
    [⟨"write", 64, [.s], .i⟩, ⟨"error", 64, [.s], .i⟩, ⟨"read", 63, [.s], .i⟩]
  | .args =>
    [⟨"count", 0, [], .i⟩, ⟨"get", 0, [.i], .s⟩]
  | .files =>
    [⟨"open", 56, [.s, .i], .i⟩, ⟨"read", 63, [.i, .s], .i⟩,
      ⟨"write", 64, [.i, .s], .i⟩, ⟨"close", 57, [.i], .i⟩]
  | .proc =>
    [⟨"pid", 172, [], .i⟩]

end CapId

/-! ## Types -/

/-- The widths an integer type can have. -/
inductive Width where
  | w8 | w16 | w32 | w64
deriving DecidableEq, Repr

def Width.bits : Width → Nat
  | .w8 => 8
  | .w16 => 16
  | .w32 => 32
  | .w64 => 64

def Width.bytes : Width → Nat
  | .w8 => 1
  | .w16 => 2
  | .w32 => 4
  | .w64 => 8

/-- A type. A `struct` carries its fields with their offsets and the size and alignment
`parse_struct` computed; an `enum` its cases, with the offsets of what each carries, and its size. -/
inductive Ty where
  | void
  | bool
  | int (w : Width) (isSigned : Bool)
  | ptr (elem : Ty) (isDev : Bool)
  | slice (elem : Ty)
  | array (elem : Ty) (nelem : Int)
  | struct (name : String) (fields : List (String × Ty × Int)) (size align : Int)
  | enum (name : String) (variants : List (String × List (String × Ty × Int))) (size : Int)
  | cap (id : CapId)
deriving Inhabited

namespace Ty

def i64 : Ty := .int .w64 true
def u64 : Ty := .int .w64 false
def u8 : Ty := .int .w8 false

/-- Bytes of a value. `ty_array` multiplies and keeps the low 32 bits, as a C `int`. -/
def size : Ty → Int
  | .void => 0
  | .bool => 1
  | .int w _ => w.bytes
  | .ptr _ _ => 8
  | .slice _ => 16
  | .array e n => (e.size * n).bmod (2 ^ 32)
  | .struct _ _ s _ => s
  | .enum _ _ s => s
  | .cap _ => 8

def align : Ty → Int
  | .void => 1
  | .bool => 1
  | .int w _ => w.bytes
  | .ptr _ _ => 8
  | .slice _ => 8
  | .array e _ => e.align
  | .struct _ _ _ a => a
  | .enum _ _ _ => 8
  | .cap _ => 8

/-- `ty_is_int`. -/
def isInt : Ty → Bool
  | .int _ _ => true
  | _ => false

/-- `ty_same`: structure, and the name of a struct or an enum. -/
def same : Ty → Ty → Bool
  | .void, .void => true
  | .bool, .bool => true
  | .int w s, .int w' s' => w == w' && s == s'
  | .ptr e d, .ptr e' d' => d == d' && same e e'
  | .slice e, .slice e' => same e e'
  | .array e n, .array e' n' => n == n' && same e e'
  | .struct n _ _ _, .struct n' _ _ _ => n == n'
  | .enum n _ _, .enum n' _ _ => n == n'
  | .cap c, .cap c' => c == c'
  | _, _ => false

/-- `is_aggregate`: the value of such an expression is its address. -/
def isAggregate : Ty → Bool
  | .struct .. => true
  | .array .. => true
  | .enum .. => true
  | _ => false

def isArray : Ty → Bool
  | .array .. => true
  | _ => false

def isStruct : Ty → Bool
  | .struct .. => true
  | _ => false

def isPtr : Ty → Bool
  | .ptr .. => true
  | _ => false

def isDevPtr : Ty → Bool
  | .ptr _ d => d
  | _ => false

def isSlice : Ty → Bool
  | .slice _ => true
  | _ => false

def isVoid : Ty → Bool
  | .void => true
  | _ => false

/-- `is_signed` of an integer type. -/
def isSigned : Ty → Bool
  | .int _ s => s
  | _ => false

/-- `bits` of an integer type. -/
def bits : Ty → Nat
  | .int w _ => w.bits
  | _ => 0

/-- What a pointer, a slice or an array is of. -/
def elem : Ty → Ty
  | .ptr e _ => e
  | .slice e => e
  | .array e _ => e
  | _ => .void

/-- `ty_str`. -/
def str : Ty → String
  | .void => "void"
  | .bool => "bool"
  | .int w s => (if s then "i" else "u") ++ toString w.bits
  | .ptr e d => (if d then "dev " else "") ++ "*" ++ e.str
  | .slice e => "[]" ++ e.str
  | .array e n => "[" ++ toString n ++ "]" ++ e.str
  | .struct n _ _ _ => n
  | .enum n _ _ => n
  | .cap c => c.name

end Ty

/-! ## Expressions -/

inductive UnOp where
  | neg | compl | not
deriving DecidableEq, Repr

inductive BinOp where
  | add | sub | mul | div | mod
  | and | or | xor | shl | shr
  | lt | le | gt | ge | eq | ne
  | andand | oror
deriving DecidableEq, Repr

/-- The six comparisons. -/
def BinOp.isCmp : BinOp → Bool
  | .lt | .le | .gt | .ge | .eq | .ne => true
  | _ => false

/-- `&&` and `||`. -/
def BinOp.isShort : BinOp → Bool
  | .andand | .oror => true
  | _ => false

/-- An expression as the parser leaves it. `a += b` is already `a = a + b`. -/
inductive Expr where
  | int (p : Pos) (ival : Word)
  | bool (p : Pos) (b : Bool)
  | str (p : Pos) (bytes : List UInt8)
  | size (p : Pos) (t : Ty)
  | var (p : Pos) (name : String)
  | call (p : Pos) (name : String) (args : List Expr)
  | method (p : Pos) (recv : Expr) (name : String) (args : List Expr)
  | unary (p : Pos) (op : UnOp) (a : Expr)
  | binary (p : Pos) (op : BinOp) (a b : Expr)
  | index (p : Pos) (a b : Expr)
  | slice (p : Pos) (a lo hi : Expr)
  | sliceToEnd (p : Pos) (a lo : Expr)
  | field (p : Pos) (a : Expr) (name : String)
  | addr (p : Pos) (a : Expr)
  | deref (p : Pos) (isAt : Bool) (a : Expr)
  | cast (p : Pos) (target : Ty) (a : Expr)
  | assign (p : Pos) (a b : Expr)
  | variant (p : Pos) (t : Ty) (name : String) (args : List Expr)

/-! ## Statements, functions, units -/

/-- What a `let` or a `var` says: a type and perhaps a value, or only a value. -/
inductive LetDecl where
  | typed (t : Ty) (init : Option Expr)
  | inferred (init : Expr)

/-- The head of a match arm: `else`, or the name of a case and the names its payload gets. -/
inductive ArmHead where
  | otherwise (p : Pos)
  | case (p : Pos) (name : String) (binds : List String)

inductive Stmt where
  | block (ss : List Stmt)
  | letS (p : Pos) (isVar : Bool) (name : String) (decl : LetDecl)
  | expr (e : Expr)
  | ifS (cond : Expr) (thenS : Stmt)
  | ifElse (cond : Expr) (thenS elseS : Stmt)
  | whileS (cond : Expr) (body : Stmt)
  | forS (p : Pos) (name : String) (lo hi : Expr) (body : Stmt)
  | ret (p : Pos) (e : Option Expr)
  | brk (p : Pos)
  | cont (p : Pos)
  | assert (p : Pos) (cond : Expr) (text : String)
  | matchS (p : Pos) (e : Expr) (arms : List (ArmHead × Stmt))

namespace Stmt

def isBlock : Stmt → Bool
  | .block _ => true
  | _ => false

def isIf : Stmt → Bool
  | .ifS .. => true
  | .ifElse .. => true
  | _ => false

mutual

/-- A statement as `parse_stmt` builds it: the branches of an `if` and the bodies of loops are
blocks, and what follows `else` may be another `if`. -/
def shaped : Stmt → Bool
  | .block ss => shapedAll ss
  | .ifS _ t => t.isBlock && t.shaped
  | .ifElse _ t e => t.isBlock && t.shaped && (e.isBlock || e.isIf) && e.shaped
  | .whileS _ b => b.isBlock && b.shaped
  | .forS _ _ _ _ b => b.isBlock && b.shaped
  | .matchS _ _ arms => shapedArms arms
  | _ => true

def shapedAll : List Stmt → Bool
  | [] => true
  | s :: ss => s.shaped && shapedAll ss

def shapedArms : List (ArmHead × Stmt) → Bool
  | [] => true
  | (_, s) :: arms => s.shaped && shapedArms arms

end

end Stmt

/-- A `needs` or `gives` clause with its source text. -/
structure Contract where
  expr : Expr
  pos : Pos
  text : String

structure Fn where
  name : String
  pos : Pos
  file : String
  params : List (String × Ty)
  ret : Ty
  retName : Option String
  req : List Contract
  ens : List Contract
  body : Stmt
  isEntry : Bool

/-- A `var` at the top of a file, or a `const` with its value. -/
structure Global where
  name : String
  ty : Ty
  pos : Pos
  cval : Option Word

/-- A parsed program: the source's `Unit`. `globals` has the last declared first, as `add_global` leaves it. -/
structure SavUnit where
  fns : List Fn
  globals : List Global

/-- The `entry fn`. The parser refuses a second one. -/
def SavUnit.entry (u : SavUnit) : Option Fn := u.fns.find? (·.isEntry)

/-- A unit as `parse_unit` builds it. -/
def SavUnit.shaped (u : SavUnit) : Bool := u.fns.all fun f => f.body.isBlock && f.body.shaped

/-- `find_fn`. -/
def SavUnit.findFn (u : SavUnit) (name : String) : Option Fn := u.fns.find? (·.name == name)

end Verkos.Sav
