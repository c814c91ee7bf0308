import Verkos.Vgzip.Streams
import Verkos.Vgzip.RoundTrip
import Verkos.Lib.Indexed

/-!
# The decoder with its arrays

The functions of `inflate` once more, with the position in the data and every access to an array as
the source has them: `r->d`, `count`, `offs`, `sym`, `cl`, `lens`, the tables and the output. An
access outside of its array is `Stop.fault`. `Arrays.gzDecompress_eq` says that this is the decoder
of `Inflate`, so that where that one has no fault, no access is outside.
-/

namespace Verkos.Vgzip.Arrays

open Lib.Indexed

/-- `struct bitr`. -/
structure BitP where
  d : List UInt8
  pos : Nat
  bitbuf : Nat
  bitcnt : Nat

/-- `getbit`. -/
def getbit (r : BitP) : Except Stop (Int × BitP) :=
  if r.bitcnt = 0 then
    if r.d.length ≤ r.pos then .ok (-1, r)
    else do
      let b ← entry .fault r.d r.pos
      return ((b.toNat % 2 : Nat), { r with pos := r.pos + 1, bitbuf := b.toNat / 2, bitcnt := 7 })
  else .ok ((r.bitbuf % 2 : Nat), { r with bitbuf := r.bitbuf / 2, bitcnt := r.bitcnt - 1 })

/-- `getbits` with `k` bits to come, of which the first counts `2 ^ i`. -/
def getbitsFrom : Nat → Nat → Int → BitP → Except Stop (Int × BitP)
  | 0, _, v, r => .ok (v, r)
  | k + 1, i, v, r => do
    let (b, r) ← getbit r
    if b < 0 then return (-1, r) else getbitsFrom k (i + 1) (v + b * 2 ^ i) r

/-- `getbits`. -/
def getbits (r : BitP) (n : Nat) : Except Stop (Int × BitP) := getbitsFrom n 0 0 r

/-- The first loop of `huff_build`, over `k` lengths from the place `i` on. -/
def countLens (lens : List Nat) : Nat → Nat → List Nat → Except Stop (List Nat)
  | _, 0, count => .ok count
  | i, k + 1, count => do
    let l ← entry .fault lens i
    let c ← entry .fault count l
    countLens lens (i + 1) k (← put .fault count l (c + 1))

/-- The loop that makes `offs`, with `k` turns left. -/
def offsets (count : List Nat) : Nat → Nat → List Nat → Except Stop (List Nat)
  | _, 0, offs => .ok offs
  | i, k + 1, offs => do
    let o ← entry .fault offs i
    let c ← entry .fault count i
    offsets count (i + 1) k (← put .fault offs (i + 1 : Nat) (o + c))

/-- The last loop of `huff_build`: the length of the symbol `i` is at `off + i`. -/
def fillSym (lens : List Nat) (off : Nat) :
    Nat → Nat → List Nat → List Nat → Except Stop (List Nat)
  | _, 0, _, sym => .ok sym
  | i, k + 1, offs, sym => do
    let l ← entry .fault lens (off + i : Nat)
    if l = 0 then fillSym lens off (i + 1) k offs sym
    else
      let o ← entry .fault offs l
      let offs ← put .fault offs l (o + 1)
      let sym ← put .fault sym o i
      fillSym lens off (i + 1) k offs sym

/-- `huff_build`, of `n` lengths from the place `off` on. -/
def huffBuild (lens : List Nat) (off n : Nat) : Except Stop Huff := do
  let count ← countLens lens off n (List.replicate 16 0)
  let count ← put .fault count 0 0
  let offs ← offsets count 1 14 (List.replicate 16 0)
  let sym ← fillSym lens off 0 n offs (List.replicate 288 0)
  return ⟨count, sym⟩

/-- The loop of `huff_decode`. -/
def huffLoop (h : Huff) : Nat → (len : Nat) → (code first index : Int) → BitP →
    Except Stop (Nat × BitP)
  | 0, _, _, _, _, _ => .error .bad
  | k + 1, len, code, first, index, r => do
    let (b, r) ← getbit r
    if b < 0 then throw .bad
    else
      let code := code + b
      let count ← entry .fault h.count len
      if code - first < (count : Int) then
        let s ← entry .fault h.sym (index + (code - first))
        return (s, r)
      else huffLoop h k (len + 1) (2 * code) (2 * (first + count)) (index + count) r

/-- `huff_decode`. -/
def huffDecode (r : BitP) (h : Huff) : Except Stop (Nat × BitP) := huffLoop h 15 1 0 0 0 r

/-- The copying loop. -/
def copyBack (dist : Nat) : Nat → List UInt8 → Except Stop (List UInt8)
  | 0, out => .ok out
  | k + 1, out => do
    let b ← entry .fault out ((out.length : Int) - dist)
    copyBack dist k (out ++ [b])

/-- `inflate_block`. -/
def inflateBlock (lh dh : Huff) : Nat → BitP → List UInt8 → Except Stop (BitP × List UInt8)
  | 0, _, _ => .error .fuel
  | fuel + 1, r, out => do
    let (sym, r) ← huffDecode r lh
    if sym = 256 then return (r, out)
    else if sym < 256 then inflateBlock lh dh fuel r (out ++ [UInt8.ofNat sym])
    else if 29 ≤ sym - 257 then throw .bad
    else
      let (extra, r) ← getbits r (← entry .fault lenExtra (sym - 257 : Nat))
      let len := ((← entry .fault lenBase (sym - 257 : Nat)) + extra).toNat
      let (dsym, r) ← huffDecode r dh
      if 30 ≤ dsym then throw .bad
      else
        let (extra, r) ← getbits r (← entry .fault distExtra dsym)
        let dist := ((← entry .fault distBase dsym) + extra).toNat
        if out.length < dist then throw .bad
        else inflateBlock lh dh fuel r (← copyBack dist len out)

/-- The lengths of the code for lengths, from `ord[i]` on. -/
def readCl : Nat → Nat → BitP → List Nat → Except Stop (List Nat × BitP)
  | _, 0, r, cl => .ok (cl, r)
  | i, k + 1, r, cl => do
    let o ← entry .fault clOrder i
    let (v, r) ← getbits r 3
    readCl (i + 1) k r (← put .fault cl o (toByte v))

/-- `while (rep-- && i < total) lens[i++] = v`. -/
def fillRun (total v : Nat) : Nat → List Nat → Nat → Except Stop (List Nat × Nat)
  | 0, lens, i => .ok (lens, i)
  | rep + 1, lens, i =>
    if i < total then do fillRun total v rep (← put .fault lens i v) (i + 1) else .ok (lens, i)

/-- The loop that reads the lengths of both codes into `lens`. -/
def readLens (ch : Huff) (total : Nat) :
    Nat → BitP → List Nat → Nat → Except Stop ((List Nat × Nat) × BitP)
  | 0, _, _, _ => .error .fuel
  | fuel + 1, r, lens, i =>
    if total ≤ i then .ok ((lens, i), r)
    else do
      let (s, r) ← huffDecode r ch
      if s < 16 then readLens ch total fuel r (← put .fault lens i s) (i + 1)
      else if s = 16 then
        let (v, r) ← getbits r 2
        if i = 0 then throw .bad
        else
          let prev ← entry .fault lens ((i : Int) - 1)
          let (lens, i) ← fillRun total prev (v + 3).toNat lens i
          readLens ch total fuel r lens i
      else if s = 17 then
        let (v, r) ← getbits r 3
        let (lens, i) ← fillRun total 0 (v + 3).toNat lens i
        readLens ch total fuel r lens i
      else
        let (v, r) ← getbits r 7
        let (lens, i) ← fillRun total 0 (v + 11).toNat lens i
        readLens ch total fuel r lens i

/-- A block's header and its contents. -/
def inflateOne (fuel : Nat) (type : Int) (r : BitP) (out : List UInt8) :
    Except Stop (BitP × List UInt8) :=
  if type = 0 then
    if r.d.length < r.pos + 4 then .error .bad
    else do
      let a ← entry .fault r.d r.pos
      let b ← entry .fault r.d (r.pos + 1 : Nat)
      let len := a.toNat + b.toNat * 256
      let pos := r.pos + 4
      if r.d.length < pos + len then throw .bad
      else
        let bytes ← slice .fault r.d pos len
        return (⟨r.d, pos + len, 0, 0⟩, out ++ bytes)
  else if type = 1 then do
    let lh ← huffBuild fixedLit 0 288
    let dh ← huffBuild fixedDist 0 30
    inflateBlock lh dh fuel r out
  else if type = 2 then do
    let (hlit, r) ← getbits r 5
    let (hdist, r) ← getbits r 5
    let (hclen, r) ← getbits r 4
    let hlit := (hlit + 257).toNat
    let hdist := (hdist + 1).toNat
    let (cl, r) ← readCl 0 (hclen + 4).toNat r (List.replicate 19 0)
    let ch ← huffBuild cl 0 19
    let ((lens, _), r) ← readLens ch (hlit + hdist) 321 r (List.replicate 318 0) 0
    let lh ← huffBuild lens 0 hlit
    let dh ← huffBuild lens hlit hdist
    inflateBlock lh dh fuel r out
  else .error .bad

/-- The loop of `inflate`. -/
def inflateLoop (blockFuel : Nat) : Nat → BitP → List UInt8 → Except Stop (List UInt8)
  | 0, _, _ => .error .fuel
  | fuel + 1, r, out => do
    let (final, r) ← getbit r
    if final < 0 then throw .bad
    else
      let (type, r) ← getbits r 2
      if type < 0 then throw .bad
      else
        let (r, out) ← inflateOne blockFuel type r out
        if final = 0 then inflateLoop blockFuel fuel r out else return out

/-- `inflate`. -/
def inflate (data : List UInt8) : Except Stop (List UInt8) :=
  inflateLoop (8 * data.length + 1) (8 * data.length + 1) ⟨data, 0, 0, 0⟩ []

/-- `while (p < n && in[p]) p++; p++`, with `k` bytes left. -/
def skipString (data : List UInt8) : Nat → Nat → Except Stop Nat
  | 0, p => .ok (p + 1)
  | k + 1, p => do
    let b ← entry .fault data p
    if b = 0 then return p + 1 else skipString data k (p + 1)

/-- The length of the extra field, if there is one. -/
def skipExtra (data : List UInt8) (p : Nat) : Except Stop Nat :=
  if data.length < p + 2 then .error .bad
  else do
    let a ← entry .fault data p
    let b ← entry .fault data (p + 1 : Nat)
    return p + 2 + (a.toNat + b.toNat * 256)

/-- Where the compressed data begin, behind the fields that the flags announce. -/
def skipFields (data : List UInt8) (flg : UInt8) : Except Stop Nat := do
  let p := 10
  let p ← (if flg &&& 4 ≠ 0 then skipExtra data p else pure p)
  let p ← (if flg &&& 8 ≠ 0 then skipString data (data.length - p) p else pure p)
  let p ← (if flg &&& 16 ≠ 0 then skipString data (data.length - p) p else pure p)
  return (if flg &&& 2 ≠ 0 then p + 2 else p)

/-- `gz_decompress`. -/
def gzDecompress (data : List UInt8) : Except Stop (List UInt8) :=
  if data.length < 18 then .error .bad
  else do
    if (← entry .fault data 0) ≠ 0x1f then throw .bad
    else if (← entry .fault data 1) ≠ 0x8b then throw .bad
    else if (← entry .fault data 2) ≠ 8 then throw .bad
    else
      let p ← skipFields data (← entry .fault data 3)
      if data.length ≤ p then throw .bad
      else
        let out ← inflate (data.drop p)
        let want ← slice .fault data (data.length - 8) 4
        if le32 (crc32 out).toNat = want then return out else throw .bad

end Verkos.Vgzip.Arrays
