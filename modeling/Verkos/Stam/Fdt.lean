import Verkos.Lib.Bytes

/-!
# The device tree stam reads

`fdt.c` takes a node by its offset in the structure block and steps over tokens. Offsets are `int`
where they are returned and `uint32_t` where they are used, so an offset is an integer here and
`u32` is the cast. A tree is the bytes of its blob; behind its end there is nothing.

The loops of the reader go on as long as there is a next token. They are given a number of steps
that they have at most, and say `none` when these run out.
-/

namespace Verkos.Stam.DeviceTree

open Lib.Bytes

def fdtMagic : Nat := 0xd00dfeed
def fdtBeginNode : Nat := 1
def fdtEndNode : Nat := 2
def fdtProp : Nat := 3
def fdtNop : Nat := 4
def fdtEnd : Nat := 9

/-- `FDT_NONE`. -/
def fdtNone : Int := -1

/-- `(uint32_t)` and `(int)`. -/
def u32 (i : Int) : Nat := (i % 2 ^ 32).toNat
def toInt (n : Nat) : Int :=
  if n % 2 ^ 32 < 2 ^ 31 then (n % 2 ^ 32 : Nat) else (n % 2 ^ 32 : Nat) - 2 ^ 32

/-- `be32`, and the string at an address. -/
def be32 (dtb : List UInt8) (a : Nat) : Nat := ofBig (part a 4 dtb)
def cstr (dtb : List UInt8) (a : Nat) : List UInt8 := (dtb.drop a).takeWhile (· ≠ 0)

def align4 (n : Nat) : Nat := (n + 3) % 2 ^ 32 / 4 * 4

/-- `fdt_t`: a blob, and where its blocks are. -/
structure Fdt where
  dtb : List UInt8
  strukt : Nat
  struktSize : Nat
  strings : Nat
  total : Nat
  addrCells : Nat
  sizeCells : Nat

namespace Fdt

/-- `step`: the token, if there is one, and the offset of the next. -/
def step (f : Fdt) (off : Nat) : Option Nat × Int :=
  if f.struktSize < (off + 4) % 2 ^ 32 then (none, fdtNone)
  else
    let tok := be32 f.dtb (f.strukt + off)
    if tok = fdtBeginNode then
      let name := cstr f.dtb (f.strukt + off + 4)
      (some tok, toInt (off + 4 + align4 (name.length + 1)))
    else if tok = fdtProp then
      if f.struktSize < (off + 12) % 2 ^ 32 then (some tok, fdtNone)
      else (some tok, toInt (off + 12 + align4 (be32 f.dtb (f.strukt + off + 4))))
    else if tok = fdtEndNode ∨ tok = fdtNop then (some tok, toInt (off + 4))
    else (some tok, fdtNone)

/-- The loop of `fdt_root`. -/
def rootFrom (f : Fdt) : Nat → Nat → Option Int
  | 0, _ => none
  | k + 1, off =>
    if f.struktSize < (off + 4) % 2 ^ 32 then some fdtNone
    else
      let tok := be32 f.dtb (f.strukt + off)
      if tok = fdtBeginNode then some (toInt off)
      else if tok = fdtEnd then some fdtNone
      else rootFrom f k ((off + 4) % 2 ^ 32)

/-- `fdt_root`. -/
def root (f : Fdt) (steps : Nat) : Option Int := f.rootFrom steps 0

/-- The loop of `fdt_next_node`: the offset and the depth. -/
def nextFrom (f : Fdt) : Nat → Int → Int → Option (Int × Int)
  | 0, _, _ => none
  | k + 1, p, depth =>
    if p = fdtNone then some (fdtNone, depth)
    else
      let (t, nxt) := f.step (u32 p)
      if t = some fdtBeginNode then some (p, depth + 1)
      else
        let depth := if t = some fdtEndNode then depth - 1 else depth
        if t = some fdtEndNode ∧ depth < 0 then some (fdtNone, depth)
        else if t = some fdtEnd ∨ nxt = fdtNone then some (fdtNone, depth)
        else nextFrom f k nxt depth

/-- `fdt_next_node`. -/
def nextNode (f : Fdt) (steps : Nat) (off depth : Int) : Option (Int × Int) :=
  f.nextFrom steps (f.step (u32 off)).2 depth

/-- `fdt_node_name`. -/
def nodeName (f : Fdt) (off : Int) : List UInt8 :=
  if off = fdtNone then [] else cstr f.dtb (f.strukt + u32 off + 4)

/-- The loop of `fdt_getprop`: where the value is, and its length. -/
def getpropFrom (f : Fdt) (name : List UInt8) : Nat → Int → Option (Option (Nat × Nat))
  | 0, _ => none
  | k + 1, p =>
    if p = fdtNone ∨ toInt f.struktSize < p + 4 then some none
    else
      let t := be32 f.dtb (f.strukt + u32 p)
      if t = fdtNop then getpropFrom f name k (p + 4)
      else if t ≠ fdtProp then some none
      else
        let plen := be32 f.dtb (f.strukt + u32 p + 4)
        let noff := be32 f.dtb (f.strukt + u32 p + 8)
        if cstr f.dtb (f.strings + noff) = name then some (some (f.strukt + u32 p + 12, plen))
        else getpropFrom f name k (toInt (u32 p + 12 + align4 plen))

/-- `fdt_getprop`. -/
def getprop (f : Fdt) (steps : Nat) (off : Int) (name : List UInt8) : Option (Option (Nat × Nat)) :=
  if off = fdtNone then some none else f.getpropFrom name steps (f.step (u32 off)).2

/-- The value that is there, if there is one, and the length. -/
def value (f : Fdt) (steps : Nat) (off : Int) (name : List UInt8) :
    Option (Option (List UInt8 × Nat)) :=
  (f.getprop steps off name).map fun r => r.map fun p => (part p.1 p.2 f.dtb, p.2)

/-- A cell of the root that `fdt_init` reads. -/
def cells (f : Fdt) (steps : Nat) (root : Int) (name : List UInt8) (default : Nat) : Option Nat :=
  (f.getprop steps root name).map fun
    | some (p, len) => if len = 4 then be32 f.dtb p else default
    | none => default

/-- The names of `fdt_init`: `#address-cells` and `#size-cells`. -/
def addressCells : List UInt8 := "#address-cells".toList.map fun c => UInt8.ofNat c.toNat
def sizeCellsName : List UInt8 := "#size-cells".toList.map fun c => UInt8.ofNat c.toNat

/-- `fdt_init`: `some none` for -1. -/
def init (steps : Nat) (dtb : List UInt8) : Option (Option Fdt) :=
  if be32 dtb 0 ≠ fdtMagic then some none
  else
    let f : Fdt := ⟨dtb, be32 dtb 8, be32 dtb 36, be32 dtb 12, be32 dtb 4, 2, 1⟩
    match f.root steps with
    | none => none
    | some root =>
      if root = fdtNone then some (some f)
      else
        match f.cells steps root addressCells 2, f.cells steps root sizeCellsName 1 with
        | some addr, some size => some (some { f with addrCells := addr, sizeCells := size })
        | _, _ => none

/-- Every node from one on, with its depth: `for (n = …; n != FDT_NONE; n = fdt_next_node(…))`. -/
def walk (f : Fdt) (steps : Nat) : Nat → Int → Int → Option (List (Int × Int))
  | 0, _, _ => none
  | k + 1, off, depth =>
    if off = fdtNone then some []
    else
      match f.nextNode steps off depth with
      | none => none
      | some (off', depth') => (walk f steps k off' depth').map fun l => (off, depth) :: l

/-- The nodes of the tree, as `fdt_find_compatible` goes through them. -/
def nodes (f : Fdt) (steps : Nat) : Option (List (Int × Int)) :=
  (f.root steps).bind fun root => f.walk steps steps root 0

end Fdt

end Verkos.Stam.DeviceTree
