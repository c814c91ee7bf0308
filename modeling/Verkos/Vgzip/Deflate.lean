import Verkos.Vgzip.Inflate
import Mathlib.Logic.Function.Basic

/-!
# Deflate, and the gzip container

`deflate` writes one block with the fixed codes. At every position it looks along the chain of
earlier positions with the same hash for the longest match, writes that or the byte itself, and
puts the positions it has covered into the chains. Positions are numbers here and `int`s in the
source, which is the same below 2 GiB.
-/

namespace Verkos.Vgzip

open Lib.Bits

/-- `emit_lit`. -/
def emitLit (w : BitW) (lit : Nat) : BitW :=
  if lit < 144 then putbitsRev w (0x30 + lit) 8 else putbitsRev w (0x190 + (lit - 144)) 9

/-- The loop of `len_sym` and `dist_sym`, down from a row: the last whose base is not above `v`. -/
def row (base : List Nat) (v : Nat) : Nat → Option Nat
  | 0 => none
  | s + 1 => if base.getD s 0 ≤ v then some s else row base v s

/-- `len_sym`: the symbol, the extra bits and their number. -/
def lenSym (len : Nat) : Nat × Nat × Nat :=
  match row lenBase len 29 with
  | some s => (257 + s, len - lenBase.getD s 0, lenExtra.getD s 0)
  | none => (257, 0, 0)

/-- `dist_sym`. -/
def distSym (dist : Nat) : Nat × Nat × Nat :=
  match row distBase dist 30 with
  | some s => (s, dist - distBase.getD s 0, distExtra.getD s 0)
  | none => (0, 0, 0)

/-- `emit_len`. -/
def emitLen (w : BitW) (len : Nat) : BitW :=
  let (s, extra, nextra) := lenSym len
  putbits (if s ≤ 279 then putbitsRev w (s - 256) 7 else putbitsRev w (0xc0 + (s - 280)) 8)
    extra nextra

/-- `emit_dist`. -/
def emitDist (w : BitW) (dist : Nat) : BitW :=
  let (s, extra, nextra) := distSym dist
  putbits (putbitsRev w s 5) extra nextra

/-- `WSIZE`. -/
def wSize : Nat := 32768

/-- `head` and `prev`, with `none` for -1. -/
structure Chains where
  head : Nat → Option Nat
  prev : Nat → Option Nat

section Match

variable (data : List UInt8)

def byteAt (i : Nat) : Nat := (data.getD i 0).toNat

/-- The hash of the three bytes at a position. -/
def hash (i : Nat) : Nat :=
  ((byteAt data i <<< 10) ^^^ (byteAt data (i + 1) <<< 5) ^^^ byteAt data (i + 2)) &&& 32767

/-- The loop that counts how far two positions agree, with `k` bytes left of the 258. -/
def matchLen (j i : Nat) : Nat → Nat → Nat
  | 0, l => l
  | k + 1, l =>
    if i + l < data.length ∧ byteAt data (j + l) = byteAt data (i + l) then matchLen j i k (l + 1)
    else l

/-- The walk along a chain, with so many steps left of the 128: the best match and how far back
it is. -/
def search (prev : Nat → Option Nat) (i : Nat) : Nat → Option Nat → Nat × Nat → Nat × Nat
  | 0, _, best => best
  | _ + 1, none, best => best
  | chain + 1, some j, best =>
    if i - j ≤ wSize then
      let l := matchLen data j i 258 0
      if best.1 < l then
        if 258 ≤ l then (l, i - j) else search prev i chain (prev j) (l, i - j)
      else search prev i chain (prev j) best
    else search prev i chain (prev j) best

/-- A position is put at the head of its chain. -/
def Chains.insert (c : Chains) (p : Nat) : Chains :=
  if p + 3 ≤ data.length then
    ⟨Function.update c.head (hash data p) (some p),
      Function.update c.prev p (c.head (hash data p))⟩
  else c

/-- The loop of `deflate`. -/
def deflateLoop : Nat → Nat → Chains → BitW → BitW
  | 0, _, _, w => w
  | fuel + 1, i, c, w =>
    if data.length ≤ i then w
    else
      let best :=
        if i + 3 ≤ data.length then search data c.prev i 128 (c.head (hash data i)) (0, 0)
        else (0, 0)
      let c := c.insert data i
      if 3 ≤ best.1 then
        deflateLoop fuel (i + best.1)
          ((List.range' (i + 1) (best.1 - 1)).foldl (Chains.insert data) c)
          (emitDist (emitLen w best.1) best.2)
      else deflateLoop fuel (i + 1) c (emitLit w (byteAt data i))

/-- `deflate`. -/
def deflate : List UInt8 :=
  let w := putbits (putbit ⟨[], 0, 0⟩ 1) 1 2
  let w := deflateLoop data (data.length + 1) 0 ⟨fun _ => none, fun _ => none⟩ w
  flushBits (putbitsRev w 0 7)

/-! The same with another way of putting a position into the chains. -/

variable (ins : Chains → Nat → Chains)

def deflateLoopWith : Nat → Nat → Chains → BitW → BitW
  | 0, _, _, w => w
  | fuel + 1, i, c, w =>
    if data.length ≤ i then w
    else
      let best :=
        if i + 3 ≤ data.length then search data c.prev i 128 (c.head (hash data i)) (0, 0)
        else (0, 0)
      let c := ins c i
      if 3 ≤ best.1 then
        deflateLoopWith fuel (i + best.1) ((List.range' (i + 1) (best.1 - 1)).foldl ins c)
          (emitDist (emitLen w best.1) best.2)
      else deflateLoopWith fuel (i + 1) c (emitLit w (byteAt data i))

def deflateWith : List UInt8 :=
  let w := putbits (putbit ⟨[], 0, 0⟩ 1) 1 2
  let w := deflateLoopWith data ins (data.length + 1) 0 ⟨fun _ => none, fun _ => none⟩ w
  flushBits (putbitsRev w 0 7)

theorem deflateLoopWith_insert (fuel i : Nat) (c : Chains) (w : BitW) :
    deflateLoopWith data (Chains.insert data) fuel i c w = deflateLoop data fuel i c w := by
  induction fuel generalizing i c w with
  | zero => rfl
  | succ fuel ih => simp only [deflateLoopWith, deflateLoop, ih]

theorem deflateWith_insert : deflateWith data (Chains.insert data) = deflate data := by
  rw [deflateWith, deflateLoopWith_insert, deflate]

end Match

/-! ## The container -/

/-- One bit of an entry of `crc_tab`. -/
def crcBit (c : UInt32) : UInt32 := if c &&& 1 = 1 then (0xedb88320 : UInt32) ^^^ (c >>> 1) else c >>> 1

/-- An entry of `crc_tab`. -/
def crcEntry (i : UInt32) : UInt32 := crcBit^[8] i

/-- `crc32`, from 0. -/
def crc32 (data : List UInt8) : UInt32 :=
  ~~~ data.foldl (fun crc b => crcEntry ((crc ^^^ b.toUInt32) &&& 0xff) ^^^ (crc >>> 8)) (~~~ 0)

/-- Four bytes, lowest first. -/
def le32 (v : Nat) : List UInt8 :=
  [UInt8.ofNat v, UInt8.ofNat (v / 2 ^ 8), UInt8.ofNat (v / 2 ^ 16), UInt8.ofNat (v / 2 ^ 24)]

/-- `gz_compress`. -/
def gzCompress (data : List UInt8) : List UInt8 :=
  [0x1f, 0x8b, 8, 0, 0, 0, 0, 0, 0, 3] ++ deflate data ++
    (le32 (crc32 data).toNat ++ le32 data.length)

/-- Past a string and its NUL. -/
def skipString (data : List UInt8) (p : Nat) : Nat :=
  p + ((data.drop p).takeWhile (· ≠ 0)).length + 1

/-- `gz_decompress`. -/
def gzDecompress (data : List UInt8) : Except Stop (List UInt8) :=
  if data.length < 18 ∨ data.getD 0 0 ≠ 0x1f ∨ data.getD 1 0 ≠ 0x8b ∨ data.getD 2 0 ≠ 8 then
    .error .bad
  else
    let flg := data.getD 3 0
    if flg &&& 4 ≠ 0 ∧ data.length < 12 then .error .bad
    else
      let p := 10
      let p := if flg &&& 4 ≠ 0 then p + 2 + (byteAt data p + byteAt data (p + 1) * 256) else p
      let p := if flg &&& 8 ≠ 0 then skipString data p else p
      let p := if flg &&& 16 ≠ 0 then skipString data p else p
      let p := if flg &&& 2 ≠ 0 then p + 2 else p
      if data.length ≤ p then .error .bad
      else do
        let out ← inflate (data.drop p)
        if le32 (crc32 out).toNat = (data.drop (data.length - 8)).take 4 then return out
        else throw .bad

end Verkos.Vgzip
