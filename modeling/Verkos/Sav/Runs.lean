import Verkos.Sav.Check
import Verkos.Lib.Trace

/-!
# The runs of a checked unit

What the code of a unit does, in the order the generator lays it out, with the meaning of its
straight-line parts left open. A `World` says what each such part does to a state and how a test on
the state comes out; registers, memory, the kernel and the values computed are all inside it. So
the runs below are those of the compiled program for one world, and a statement about every world
does not depend on what anything computes.

A run leaves a trace of two kinds of event. `calls` is a capability method being called. `takes` is
a value of a capability type coming out of something that was not handed a capability: a constant, a
slot that was never given one, memory, or a receiver, which is not evaluated at all.

Fuel bounds the depth of a run; a run whose fuel ends is cut off there and keeps its trace.
-/

namespace Verkos.Sav

open Verkos.Lib (Trace)

/-- Where a value of a capability type can come from without one being handed over. -/
inductive Source where
  /-- A `const`. -/
  | const
  /-- A `let` without a value. -/
  | uninit
  /-- What a pointer points to. -/
  | deref
  /-- An element of an array or a slice. -/
  | element
  /-- A field of a struct. -/
  | field
  /-- What a case of an enum carries. -/
  | payload
  /-- The receiver of a method when it is not a variable. -/
  | receiver
deriving DecidableEq, Repr

inductive Event where
  | takes (c : CapId) (src : Source)
  | calls (c : CapId) (m : CapMethod)
deriving DecidableEq, Repr

/-- A straight-line part of the code. -/
inductive Act where
  /-- What a node does once its parts are there. -/
  | node (e : TExpr)
  /-- The address of a node that is a place. -/
  | place (e : TExpr)
  /-- The value at hand into a slot. -/
  | store (y : Sym)
  /-- The counter of a `for` against its upper bound. -/
  | compare (y : Sym)
  /-- The counter one up. -/
  | bump (y : Sym)
  /-- Into a function, with its arguments into their slots. -/
  | enter (f : TFn)
  /-- Out of a function. -/
  | leave (f : TFn)

/-- What the straight-line parts mean. A part that gives no state ends the program. -/
structure World (σ : Type) where
  act : Act → σ → Option σ
  test : σ → Bool
  arm : σ → Nat

/-- How a statement ends. -/
inductive Flow where
  | next | brk | cont | ret
deriving DecidableEq, Repr

section Runs

variable {σ : Type}

/-- A value of a capability type, from `src`. -/
def takes (t : Ty) (src : Source) : Trace σ Event Unit :=
  match t with
  | .cap c => Trace.say (.takes c src)
  | _ => pure ()

/-- A receiver is not evaluated. A variable stands for what it was given. -/
def takesRecv (c : CapId) : TExpr → Trace σ Event Unit
  | .var .. => pure ()
  | _ => Trace.say (.takes c .receiver)

variable (W : World σ)

def does (a : Act) : Trace σ Event Unit := Trace.act (W.act a)

/-- The payload of a case into the slots of the names an arm binds. -/
def runBinds : List (Sym × Int × Ty) → Trace σ Event Unit
  | [] => pure ()
  | (y, _, _) :: rest => do
    takes y.ty .payload
    does W (.store y)
    runBinds rest

def runArmHead : TArm → Trace σ Event Unit
  | .otherwise => pure ()
  | .case _ binds => runBinds W binds

variable (U : TUnit) (contracts : Bool)

mutual

/-- The value of an expression. -/
def runExpr : Nat → TExpr → Trace σ Event Unit
  | 0, _ => Trace.stop
  | _ + 1, .int i v => do
    does W (.node (.int i v))
    takes i.ty .const
  | _ + 1, .bool i b => does W (.node (.bool i b))
  | _ + 1, .str i bytes => does W (.node (.str i bytes))
  | _ + 1, .var i y => does W (.node (.var i y))
  | n + 1, .call i name args off => do
    runAll n args
    runNamed n name
    does W (.node (.call i name args off))
  | n + 1, .method i c m r args => do
    runAll n args
    takesRecv c r
    Trace.say (.calls c m)
    does W (.node (.method i c m r args))
  | n + 1, .unary i op a => do
    runExpr n a
    does W (.node (.unary i op a))
  | n + 1, .binary i op a b => do
    runExpr n a
    match op with
    | .andand => runUnless n false b
    | .oror => runUnless n true b
    | _ => do
      runExpr n b
      does W (.node (.binary i op a b))
  | n + 1, .index i a b => do
    runBase n a.ty.isArray a
    runExpr n b
    does W (.node (.index i a b))
    takes i.ty .element
  | n + 1, .field i a off => do
    runBase n (!a.ty.isPtr) a
    does W (.node (.field i a off))
    takes i.ty .field
  | n + 1, .slicePtr i a => do
    runPlace n a
    does W (.node (.slicePtr i a))
  | n + 1, .len i a =>
    match a.ty with
    | .array .. => does W (.node (.len i a))
    | _ => do
      runExpr n a
      does W (.node (.len i a))
  | n + 1, .slice i a lo hi => do
    runBase n a.ty.isArray a
    runExpr n lo
    runExpr n hi
    does W (.node (.slice i a lo hi))
  | n + 1, .sliceToEnd i a lo => do
    runBase n a.ty.isArray a
    runExpr n lo
    does W (.node (.sliceToEnd i a lo))
  | n + 1, .addr _ a => runPlace n a
  | n + 1, .deref i isAt a => do
    runExpr n a
    does W (.node (.deref i isAt a))
    takes i.ty .deref
  | n + 1, .cast i a => do
    runExpr n a
    does W (.node (.cast i a))
  | n + 1, .assign i a b => do
    runPlace n a
    runExpr n b
    does W (.node (.assign i a b))
  | n + 1, .variant i tag fields args off => do
    runAll n args
    does W (.node (.variant i tag fields args off))

/-- The second operand of `&&` or `||`, unless the first settled it. -/
def runUnless : Nat → Bool → TExpr → Trace σ Event Unit
  | 0, _, _ => Trace.stop
  | n + 1, settled, b => do
    let t ← Trace.ask W.test
    if t = settled then pure () else runExpr n b

/-- What is indexed, sliced or has fields: its place or its value. -/
def runBase : Nat → Bool → TExpr → Trace σ Event Unit
  | 0, _, _ => Trace.stop
  | n + 1, isPlace, a => if isPlace then runPlace n a else runExpr n a

/-- The address of a place. -/
def runPlace : Nat → TExpr → Trace σ Event Unit
  | 0, _ => Trace.stop
  | n + 1, .deref _ _ a => runExpr n a
  | n + 1, .field i a off => do
    runBase n (!a.ty.isPtr) a
    does W (.place (.field i a off))
  | n + 1, .slicePtr _ a => runPlace n a
  | n + 1, .index i a b => do
    runBase n a.ty.isArray a
    runExpr n b
    does W (.place (.index i a b))
  | _ + 1, e => does W (.place e)

/-- Expressions in order. -/
def runAll : Nat → List TExpr → Trace σ Event Unit
  | 0, _ => Trace.stop
  | _ + 1, [] => pure ()
  | n + 1, a :: as => do
    runExpr n a
    runAll n as

/-- A function by its name. -/
def runNamed : Nat → String → Trace σ Event Unit
  | 0, _ => Trace.stop
  | n + 1, name =>
    match U.fns.find? (·.name == name) with
    | none => Trace.stop
    | some f => runFn n f

/-- A function: its requirements, its body, and its promises where control runs off the end. -/
def runFn : Nat → TFn → Trace σ Event Unit
  | 0, _ => Trace.stop
  | n + 1, f => do
    does W (.enter f)
    runChecks n f.req
    let o ← runStmt n f f.body
    match o with
    | .ret => does W (.leave f)
    | .next => do
      runChecks n f.ens
      does W (.leave f)
    -- `break` and `continue` are refused outside a loop
    | _ => Trace.stop

/-- A check that ends the program when it fails. -/
def runCheck : Nat → TExpr → Trace σ Event Unit
  | 0, _ => Trace.stop
  | n + 1, e =>
    if contracts then do
      runExpr n e
      let t ← Trace.ask W.test
      if t then pure () else Trace.stop
    else pure ()

def runChecks : Nat → List TContract → Trace σ Event Unit
  | 0, _ => Trace.stop
  | _ + 1, [] => pure ()
  | n + 1, k :: ks => do
    runCheck n k.expr
    runChecks n ks

/-- A statement of the function `f`. -/
def runStmt : Nat → TFn → TStmt → Trace σ Event Flow
  | 0, _, _ => Trace.stop
  | n + 1, f, .block ss => runStmts n f ss
  | _ + 1, _, .letS y none => do
    takes y.ty .uninit
    pure .next
  | n + 1, _, .letS y (some e) => do
    runExpr n e
    does W (.store y)
    pure .next
  | n + 1, _, .expr e => do
    runExpr n e
    pure .next
  | n + 1, f, .ifS c t => do
    runExpr n c
    let b ← Trace.ask W.test
    if b then runStmt n f t else pure .next
  | n + 1, f, .ifElse c t e => do
    runExpr n c
    let b ← Trace.ask W.test
    if b then runStmt n f t else runStmt n f e
  | n + 1, f, .whileS c b => do
    runExpr n c
    let t ← Trace.ask W.test
    if t then do
      let o ← runStmt n f b
      match o with
      | .brk => pure .next
      | .ret => pure .ret
      | _ => runStmt n f (.whileS c b)
    else pure .next
  | n + 1, f, .forS y lo hi b => do
    runExpr n lo
    does W (.store y)
    runFor n f y hi b
  | n + 1, f, .ret none => do
    runChecks n f.ens
    pure .ret
  | n + 1, f, .ret (some e) => do
    runExpr n e
    runChecks n f.ens
    pure .ret
  | _ + 1, _, .brk => pure .brk
  | _ + 1, _, .cont => pure .cont
  | n + 1, _, .assert c _ _ => do
    runCheck n c
    pure .next
  | n + 1, f, .matchS e _ arms => do
    runExpr n e
    let k ← Trace.ask W.arm
    runArm n f k arms

def runStmts : Nat → TFn → List TStmt → Trace σ Event Flow
  | 0, _, _ => Trace.stop
  | _ + 1, _, [] => pure .next
  | n + 1, f, st :: ss => do
    let o ← runStmt n f st
    match o with
    | .next => runStmts n f ss
    | o => pure o

/-- The rounds of a `for`: the upper bound is evaluated before each. -/
def runFor : Nat → TFn → Sym → TExpr → TStmt → Trace σ Event Flow
  | 0, _, _, _, _ => Trace.stop
  | n + 1, f, y, hi, b => do
    runExpr n hi
    does W (.compare y)
    let t ← Trace.ask W.test
    if t then do
      let o ← runStmt n f b
      match o with
      | .brk => pure .next
      | .ret => pure .ret
      | _ => do
        does W (.bump y)
        runFor n f y hi b
    else pure .next

/-- The `k`-th arm of a match, or none of them. -/
def runArm : Nat → TFn → Nat → List (TArm × TStmt) → Trace σ Event Flow
  | 0, _, _, _ => Trace.stop
  | _ + 1, _, _, [] => pure .next
  | n + 1, f, 0, (h, st) :: _ => do
    runArmHead W h
    runStmt n f st
  | n + 1, f, k + 1, _ :: arms => runArm n f k arms

end

/-- The program: its `entry fn`, handed the capabilities it asked for. -/
def runUnit (n : Nat) : Trace σ Event Unit :=
  match U.fns.find? (·.isEntry) with
  | none => Trace.stop
  | some f => runFn W U contracts n f

end Runs

end Verkos.Sav
