import Verkos.Lib.Bytes
import Verkos.Lib.Memory

/-!
# The device tree vboot writes

`fdtgen.h` builds a flattened tree in a buffer of `cap` bytes: a header, the structure block from
byte 64 on, and the names of the properties in the last quarter, from where `fg_finish` moves them
down behind the structure block. What does not fit sets `overflow`, and `fg_finish` looks at that
at the end. Sizes are `unsigned`; a name is what is in front of its NUL.
-/

namespace Verkos.Vboot

open Lib Lib.Bytes

abbrev Name := List UInt8

def fdtMagic : Nat := 0xd00dfeed
def fdtBeginNode : Nat := 1
def fdtEndNode : Nat := 2
def fdtProp : Nat := 3
def fdtEnd : Nat := 9

/-- `FDTGEN_HDR`. -/
abbrev fdtgenHdr : Nat := 64

/-- `fdtgen_t`; `buf` is the memory, from the start of the buffer on. -/
structure Fdtgen where
  buf : Memory
  cap : Nat
  stroff : Nat
  stcap : Nat
  off : Nat
  overflow : Bool

/-- `fg_be32`. -/
def be32 (v : Nat) : List UInt8 := big 4 v

/-- `fg_init`. -/
def fgInit (buf : Memory) (cap : Nat) : Fdtgen where
  buf := buf.write 0 (List.replicate cap 0)
  cap
  stroff := 0
  stcap := cap / 4
  off := 0
  overflow := false

namespace Fdtgen

/-- Where `fg_strings` points to. -/
def strings (g : Fdtgen) : Nat := g.cap - g.stcap

/-- `fg_put32`. -/
def put32 (g : Fdtgen) (v : Nat) : Fdtgen :=
  if g.cap - g.stcap < (fdtgenHdr + g.off + 4) % 2 ^ 32 then { g with overflow := true }
  else { g with buf := g.buf.write (fdtgenHdr + g.off) (be32 v), off := (g.off + 4) % 2 ^ 32 }

/-- `(4 - (n & 3)) & 3`. -/
def padOf (n : Nat) : Nat := (4 - n % 4) % 4

/-- `fg_putbytes`. -/
def putbytes (g : Fdtgen) (src : List UInt8) : Fdtgen :=
  let n := src.length
  if g.cap - g.stcap < (fdtgenHdr + g.off + n + padOf n) % 2 ^ 32 then { g with overflow := true }
  else { g with
    buf := g.buf.store (fun i => fdtgenHdr + (g.off + i) % 2 ^ 32) src
    off := (g.off + n + padOf n) % 2 ^ 32 }

/-- The loop of `fg_intern` from byte `i` of the table on: where the name is already. -/
def findName (table : List UInt8) (name : Name) : Nat → Nat → Option Nat
  | 0, _ => none
  | k + 1, i =>
    if table.length ≤ i then none
    else
      let cand := (table.drop i).takeWhile (· ≠ 0)
      if cand = name then some i else findName table name k (i + cand.length + 1)

/-- `fg_intern`. -/
def intern (g : Fdtgen) (name : Name) : Fdtgen × Nat :=
  match findName (g.buf.read g.strings g.stroff) name g.stroff 0 with
  | some i => (g, i)
  | none =>
    let n := name.length + 1
    if g.stcap < (g.stroff + n) % 2 ^ 32 then ({ g with overflow := true }, 0)
    else
      ({ g with
        buf := g.buf.store (fun i => g.strings + (g.stroff + i) % 2 ^ 32) (name ++ [0])
        stroff := (g.stroff + n) % 2 ^ 32 }, g.stroff)

/-- `fg_node`. -/
def node (g : Fdtgen) (name : Name) : Fdtgen := (g.put32 fdtBeginNode).putbytes (name ++ [0])

/-- `fg_end_node`. -/
def endNode (g : Fdtgen) : Fdtgen := g.put32 fdtEndNode

/-- `fg_prop`, of a value of some bytes. -/
def prop (g : Fdtgen) (name : Name) (val : List UInt8) : Fdtgen :=
  let (g, noff) := g.intern name
  let g := ((g.put32 fdtProp).put32 val.length).put32 noff
  if val = [] then g else g.putbytes val

/-- The first ten words of the buffer. -/
def header (total structOff stringsOff stroff structSize : Nat) : List UInt8 :=
  be32 fdtMagic ++ (be32 total ++ (be32 structOff ++ (be32 stringsOff ++ (be32 40 ++ (be32 17 ++
    (be32 16 ++ (be32 0 ++ (be32 stroff ++ be32 structSize))))))))

/-- `fg_finish`: the total, and the state with the buffer. -/
def finish (g : Fdtgen) : Nat × Fdtgen :=
  let g := g.put32 fdtEnd
  if g.overflow then (0, g)
  else
    let stringsOff := (fdtgenHdr + g.off) % 2 ^ 32
    let moved := g.buf.copy stringsOff g.strings g.stroff
    let stop := stringsOff + g.stroff
    let cleared := moved.write stop (List.replicate (g.cap - stop) 0)
    let total := (stringsOff + g.stroff) % 2 ^ 32
    (total, { g with buf := cleared.write 0 (header total fdtgenHdr stringsOff g.stroff g.off) })

end Fdtgen

/-! ## Calls -/

/-- A call of `fg_node`, `fg_prop` or `fg_end_node`. -/
inductive Call
  | node (name : Name)
  | prop (name : Name) (val : List UInt8)
  | endNode

def Fdtgen.call (g : Fdtgen) : Call → Fdtgen
  | .node name => g.node name
  | .prop name val => g.prop name val
  | .endNode => g.endNode

/-- `fg_init`, some calls, and `fg_finish`. -/
def generate (buf : Memory) (cap : Nat) (calls : List Call) : Nat × Fdtgen :=
  (calls.foldl Fdtgen.call (fgInit buf cap)).finish

end Verkos.Vboot
