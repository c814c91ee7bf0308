import Verkos.Vgzip.Stream
import Verkos.Lib.Canonical

/-!
# Inflate

`inflate` takes the blocks of a DEFLATE stream one after the other: stored, with the fixed codes, or
with codes of their own. What it does at the end of the data is part of it: `getbits` returns -1
there, and not every caller looks. `Stop.fault` is where it would go out of an array.
-/

namespace Verkos.Vgzip

open Lib.Bits

/-- Why there is no output: the data is bad, an index is out of its array, or the model has no
fuel left. -/
inductive Stop
  | bad
  | fault
  | fuel
deriving DecidableEq

/-- `struct huff`: `count` has 16 entries and `sym` 288. -/
structure Huff where
  count : List Nat
  sym : List Nat

/-- The first loop of `huff_build`. -/
def countLens (lens : List Nat) : List Nat :=
  (lens.foldl (fun count l => count.set l (count.getD l 0 + 1)) (List.replicate 16 0)).set 0 0

/-- `offs`, which is written from 1 on. -/
def offsets (count : List Nat) : List Nat :=
  (List.range' 1 14).foldl (fun offs i => offs.set (i + 1) (offs.getD i 0 + count.getD i 0))
    (List.replicate 16 0)

/-- The last loop of `huff_build`. -/
def fillSym : List Nat → Nat → List Nat → List Nat → List Nat
  | [], _, _, sym => sym
  | l :: lens, i, offs, sym =>
    if l = 0 then fillSym lens (i + 1) offs sym
    else fillSym lens (i + 1) (offs.set l (offs.getD l 0 + 1)) (sym.set (offs.getD l 0) i)

/-- `huff_build`. -/
def huffBuild (lens : List Nat) : Except Stop Huff :=
  if lens.all (· < 16) then
    let count := countLens lens
    .ok ⟨count, fillSym lens 0 (offsets count) (List.replicate 288 0)⟩
  else .error .fault

/-- The loop of `huff_decode`, with `k` lengths left of the fifteen. -/
def huffLoop (h : Huff) : Nat → (len : Nat) → (code first index : Int) → BitR →
    Except Stop (Nat × BitR)
  | 0, _, _, _, _, _ => .error .bad
  | k + 1, len, code, first, index, r =>
    let (b, r) := getbit r
    if b < 0 then .error .bad
    else
      let code := code + b
      let count : Int := h.count.getD len 0
      if code - first < count then
        if index + (code - first) < 0 then .error .fault
        else .ok (h.sym.getD (index + (code - first)).toNat 0, r)
      else huffLoop h k (len + 1) (2 * code) (2 * (first + count)) (index + count) r

/-- `huff_decode`. -/
def huffDecode (r : BitR) (h : Huff) : Except Stop (Nat × BitR) := huffLoop h 15 1 0 0 0 r

def lenBase : List Nat :=
  [3, 4, 5, 6, 7, 8, 9, 10, 11, 13, 15, 17, 19, 23, 27, 31, 35, 43, 51, 59, 67, 83, 99, 115, 131,
    163, 195, 227, 258]

def lenExtra : List Nat :=
  [0, 0, 0, 0, 0, 0, 0, 0, 1, 1, 1, 1, 2, 2, 2, 2, 3, 3, 3, 3, 4, 4, 4, 4, 5, 5, 5, 5, 0]

def distBase : List Nat :=
  [1, 2, 3, 4, 5, 7, 9, 13, 17, 25, 33, 49, 65, 97, 129, 193, 257, 385, 513, 769, 1025, 1537, 2049,
    3073, 4097, 6145, 8193, 12289, 16385, 24577]

def distExtra : List Nat :=
  [0, 0, 0, 0, 1, 1, 2, 2, 3, 3, 4, 4, 5, 5, 6, 6, 7, 7, 8, 8, 9, 9, 10, 10, 11, 11, 12, 12, 13, 13]

/-- The copying loop: what has been put out is there to be copied. -/
def copyBack (dist : Nat) : Nat → List UInt8 → List UInt8
  | 0, out => out
  | k + 1, out => copyBack dist k (out ++ [out.getD (out.length - dist) 0])

/-- `inflate_block`. -/
def inflateBlock (lh dh : Huff) : Nat → BitR → List UInt8 → Except Stop (BitR × List UInt8)
  | 0, _, _ => .error .fuel
  | fuel + 1, r, out => do
    let (sym, r) ← huffDecode r lh
    if sym = 256 then return (r, out)
    else if sym < 256 then inflateBlock lh dh fuel r (out ++ [UInt8.ofNat sym])
    else if 29 ≤ sym - 257 then throw .bad
    else
      let (extra, r) := getbits r (lenExtra.getD (sym - 257) 0)
      let len := (lenBase.getD (sym - 257) 0 + extra).toNat
      let (dsym, r) ← huffDecode r dh
      if 30 ≤ dsym then throw .bad
      else
        let (extra, r) := getbits r (distExtra.getD dsym 0)
        let dist := (distBase.getD dsym 0 + extra).toNat
        if out.length < dist then throw .bad
        else inflateBlock lh dh fuel r (copyBack dist len out)

/-- The lengths of the fixed literal code. -/
def fixedLit : List Nat :=
  List.replicate 144 8 ++ List.replicate 112 9 ++ List.replicate 24 7 ++ List.replicate 8 8

/-- The lengths of the fixed distance code. -/
def fixedDist : List Nat := List.replicate 30 5

/-- `ord`. -/
def clOrder : List Nat := [16, 17, 18, 0, 8, 7, 9, 6, 10, 5, 11, 4, 12, 3, 13, 2, 14, 1, 15]

/-- A value put into an `unsigned char`. -/
def toByte (v : Int) : Nat := (v % 256).toNat

/-- The lengths of the code for lengths, in the order they come. -/
def readCl : List Nat → BitR → List Nat → List Nat × BitR
  | [], r, cl => (cl, r)
  | i :: is, r, cl =>
    let (v, r) := getbits r 3
    readCl is r (cl.set i (toByte v))

/-- A run of lengths, up to `total` of them; there is room for 318. -/
def addLens (total : Nat) (lens : List Nat) (rep : Int) (v : Nat) : Except Stop (List Nat) :=
  let lens := lens ++ List.replicate (min rep.toNat (total - lens.length)) v
  if 318 < lens.length then .error .fault else .ok lens

/-- The loop that reads the lengths of both codes. -/
def readLens (ch : Huff) (total : Nat) : Nat → BitR → List Nat → Except Stop (List Nat × BitR)
  | 0, _, _ => .error .fuel
  | fuel + 1, r, lens =>
    if total ≤ lens.length then .ok (lens, r)
    else do
      let (s, r) ← huffDecode r ch
      if s < 16 then readLens ch total fuel r (← addLens total lens 1 s)
      else if s = 16 then
        let (v, r) := getbits r 2
        match lens.getLast? with
        | none => throw .bad
        | some prev => readLens ch total fuel r (← addLens total lens (v + 3) prev)
      else if s = 17 then
        let (v, r) := getbits r 3
        readLens ch total fuel r (← addLens total lens (v + 3) 0)
      else
        let (v, r) := getbits r 7
        readLens ch total fuel r (← addLens total lens (v + 11) 0)

/-- A block's header and its contents. -/
def inflateOne (fuel : Nat) (type : Int) (r : BitR) (out : List UInt8) :
    Except Stop (BitR × List UInt8) :=
  if type = 0 then
    match r.rest with
    | a :: b :: _ :: _ :: rest =>
      let len := a.toNat + b.toNat * 256
      if rest.length < len then .error .bad
      else .ok (⟨rest.drop len, 0, 0⟩, out ++ rest.take len)
    | _ => .error .bad
  else if type = 1 then do
    let lh ← huffBuild fixedLit
    let dh ← huffBuild fixedDist
    inflateBlock lh dh fuel r out
  else if type = 2 then do
    let (hlit, r) := getbits r 5
    let (hdist, r) := getbits r 5
    let (hclen, r) := getbits r 4
    let hlit := (hlit + 257).toNat
    let hdist := (hdist + 1).toNat
    let (cl, r) := readCl (clOrder.take (hclen + 4).toNat) r (List.replicate 19 0)
    let ch ← huffBuild cl
    let (lens, r) ← readLens ch (hlit + hdist) 321 r []
    let lh ← huffBuild (lens.take hlit)
    let dh ← huffBuild (lens.drop hlit)
    inflateBlock lh dh fuel r out
  else .error .bad

/-- The loop of `inflate`. -/
def inflateLoop (blockFuel : Nat) : Nat → BitR → List UInt8 → Except Stop (List UInt8)
  | 0, _, _ => .error .fuel
  | fuel + 1, r, out =>
    let (final, r) := getbit r
    if final < 0 then .error .bad
    else
      let (type, r) := getbits r 2
      if type < 0 then .error .bad
      else do
        let (r, out) ← inflateOne blockFuel type r out
        if final = 0 then inflateLoop blockFuel fuel r out else return out

/-- `inflate`. A turn of either loop takes a bit at least. -/
def inflate (data : List UInt8) : Except Stop (List UInt8) :=
  inflateLoop (8 * data.length + 1) (8 * data.length + 1) ⟨data, 0, 0⟩ []

end Verkos.Vgzip
