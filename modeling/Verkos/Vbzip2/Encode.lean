import Verkos.Lib.Bits
import Verkos.Lib.Kraft

/-!
# Compressing

A block of the input is run-length encoded, sorted by rotations, moved to front, and written in one
Huffman code. Output is a list of bits, highest first, until it is packed into bytes at the end.
-/

namespace Verkos.Vbzip2

open Lib Lib.Bits Lib.Kraft

/-! ## The check sum -/

/-- An entry of `crctab`. -/
def crctab (i : UInt8) : UInt32 :=
  (List.range 8).foldl
    (fun c _ => if c &&& 0x80000000 ≠ 0 then (c <<< 1) ^^^ 0x04c11db7 else c <<< 1) (i.toUInt32 <<< 24)

def crcUpd (crc : UInt32) (p : List UInt8) : UInt32 :=
  p.foldl (fun crc b => (crc <<< 8) ^^^ crctab ((crc >>> 24).toUInt8 ^^^ b)) crc

/-! ## Run lengths -/

/-- How many bytes equal to `b` follow, at most `max`. -/
def more (b : UInt8) : Nat → List UInt8 → Nat
  | 0, _ => 0
  | _, [] => 0
  | max + 1, c :: l => if c = b then more b max l + 1 else 0

/-- `rle1`, with `rl` and `prev`: `none` is -1. -/
def rle1From (rl : Nat) (prev : Option UInt8) : List UInt8 → List UInt8
  | [] => []
  | b :: l =>
    if prev = some b then
      if rl + 1 = 4 then
        let cnt := more b 255 l
        b :: UInt8.ofNat cnt :: rle1From 0 none (l.drop cnt)
      else b :: rle1From (rl + 1) prev l
    else b :: rle1From 1 (some b) l
termination_by l => l.length
decreasing_by
  all_goals
    simp only [List.length_drop, List.length_cons]
    omega

def rle1 (l : List UInt8) : List UInt8 := rle1From 0 none l

/-! ## The transform -/

/-- `bwt_cmp`. -/
def bwtCmp (src : List UInt8) (a b : Nat) : Int :=
  let n := src.length
  match (List.range n).find? fun i => src.getD ((a + i) % n) 0 ≠ src.getD ((b + i) % n) 0 with
  | some i => (src.getD ((a + i) % n) 0).toNat - (src.getD ((b + i) % n) 0).toNat
  | none => a - b

/-- The rotations in order. -/
def bwtIdx (src : List UInt8) : List Nat :=
  (List.range src.length).mergeSort fun a b => decide (bwtCmp src a b ≤ 0)

/-- The last column, and where the rotation is that is the text itself. -/
def bwt (src : List UInt8) : List UInt8 × Nat :=
  let idx := bwtIdx src
  (idx.map fun i => src.getD ((i + src.length - 1) % src.length) 0, idx.idxOf 0)

/-! ## Symbols -/

/-- `FLUSHZ`: a run of zeros in bijective base two. -/
def zeroRun (z : Nat) : List Nat :=
  if z = 0 then [] else (z - 1) % 2 :: zeroRun ((z - 1) / 2)
termination_by z
decreasing_by omega

/-- The bytes that are used, in order. -/
def usedBytes (l : List UInt8) : List UInt8 := ((List.range 256).map UInt8.ofNat).filter (· ∈ l)

/-- The loop over the last column, with the list `mtf` and the run of zeros so far. -/
def mtfLoop (seq : List UInt8) : List Nat → Nat → List UInt8 → List Nat
  | _, zrun, [] => zeroRun zrun
  | mtf, zrun, b :: l =>
    let v := seq.idxOf b
    let j := mtf.idxOf v
    let mtf := mtf.getD j 0 :: mtf.eraseIdx j
    if j = 0 then mtfLoop seq mtf (zrun + 1) l
    else zeroRun zrun ++ (j + 1) :: mtfLoop seq mtf 0 l

/-- The symbols of a block, with the one that ends it. -/
def symbols (seq col : List UInt8) : List Nat :=
  mtfLoop seq (List.range seq.length) 0 col ++ [seq.length + 1]

/-! ## Code lengths and codes -/

/-- The least weight's place: the first of them. -/
def minIdx (heap : List (Nat × Kraft.Tree Nat)) : Nat :=
  (List.range heap.length).foldl
    (fun a i => if (heap.getD i (0, .leaf 0)).1 < (heap.getD a (0, .leaf 0)).1 then i else a) 0

/-- What is taken out, and the rest: the last one goes where it was. -/
def takeMin (heap : List (Nat × Kraft.Tree Nat)) :
    (Nat × Kraft.Tree Nat) × List (Nat × Kraft.Tree Nat) :=
  let a := minIdx heap
  (heap.getD a (0, .leaf 0), (heap.set a (heap.getLastD (0, .leaf 0))).dropLast)

theorem length_takeMin (heap : List (Nat × Kraft.Tree Nat)) :
    (takeMin heap).2.length = heap.length - 1 := by
  rw [takeMin, List.length_dropLast, List.length_set]

/-- The two least are joined until one is left. -/
def merge (heap : List (Nat × Kraft.Tree Nat)) : Kraft.Tree Nat :=
  if 1 < heap.length then
    let a := takeMin heap
    let b := takeMin a.2
    merge (b.2 ++ [(a.1.1 + b.1.1, .node a.1.2 b.1.2)])
  else (heap.getD 0 (0, .leaf 0)).2
termination_by heap.length
decreasing_by
  simp only [length_takeMin, List.length_append, List.length_singleton]
  omega

/-- The tree of `mk_lengths`. -/
def huffman (freq : Nat → Nat) (alpha : Nat) : Kraft.Tree Nat :=
  merge ((List.range alpha).map fun i => (if freq i ≠ 0 then freq i else 1, .leaf i))

/-- A depth as a code length. -/
def clamp (maxlen d : Nat) : Nat := if d < 1 then 1 else if maxlen < d then maxlen else d

def mkLengths (freq : Nat → Nat) (alpha maxlen : Nat) : List Nat :=
  let depths := (huffman freq alpha).depths 0
  (List.range alpha).map fun s => clamp maxlen ((depths.lookup s).getD 0)

/-- The symbols of one length get the next numbers. -/
def codesOf (len : List Nat) (l : Nat) (vc : Nat × List Nat) : Nat × List Nat :=
  (List.range len.length).foldl
    (fun vc i => if len.getD i 0 = l then (vc.1 + 1, vc.2.set i vc.1) else vc) vc

def genCodes (len : List Nat) : List Nat :=
  let mx := len.foldl max 0
  let mn := len.foldl min 32
  ((List.range' mn (mx + 1 - mn)).foldl
    (fun vc l =>
      let vc := codesOf len l vc
      (2 * vc.1, vc.2)) (0, List.replicate len.length 0)).2

/-! ## Blocks -/

/-- What `compress_block` has worked out before it writes: `r1` is the run-length encoding. -/
structure Block where
  bcrc : UInt32
  r1 : List UInt8
  origPtr : Nat
  seq : List UInt8
  sym : List Nat
  len : List Nat
  code : List Nat
deriving DecidableEq, Repr

/-- How often a symbol is used. -/
def freq (sym : List Nat) (s : Nat) : Nat := sym.count s

/-- The tree that the code lengths of these symbols are taken from. -/
def treeOf (seq : List UInt8) (sym : List Nat) : Kraft.Tree Nat := huffman (freq sym) (seq.length + 2)

def maxlen : Nat := 17

def compressBlock (raw : List UInt8) : Block :=
  let r1 := rle1 raw
  let col := (bwt r1).1
  let seq := usedBytes col
  let sym := symbols seq col
  let len := mkLengths (freq sym) (seq.length + 2) maxlen
  { bcrc := crcUpd 0xffffffff raw ^^^ 0xffffffff
    r1
    origPtr := (bwt r1).2
    seq
    sym
    len
    code := genCodes len }

theorem sym_compressBlock (raw : List UInt8) :
    (compressBlock raw).sym = symbols (compressBlock raw).seq (bwt (rle1 raw)).1 := rfl

theorem len_compressBlock (raw : List UInt8) : (compressBlock raw).len =
    mkLengths (freq (compressBlock raw).sym) ((compressBlock raw).seq.length + 2) maxlen := by
  rw [compressBlock]

/-- A selector for every 50 symbols. -/
def Block.nSel (b : Block) : Nat := (b.sym.length + 49) / 50

/-- The half-byte map: which rows of 16 bytes are used, and which bytes of those. -/
def Block.symbolMap (b : Block) : List Bool :=
  let in16 := b.seq.foldl (fun w c => w ||| 0x8000 >>> (c.toNat >>> 4)) 0
  let row i := (List.range 16).foldl
    (fun bits c => if UInt8.ofNat (16 * i + c) ∈ b.seq then bits ||| 0x8000 >>> c else bits) 0
  bitsBE 16 in16 ++ (List.range 16).flatMap fun i =>
    if in16 &&& 0x8000 >>> i ≠ 0 then bitsBE 16 (row i) else []

/-- Every length by how far it is from the one before. -/
def deltas : Nat → List Nat → List Bool
  | _, [] => []
  | c, t :: l =>
    (List.replicate (t - c) [true, false]).flatten ++
      ((List.replicate (c - t) [true, true]).flatten ++ false :: deltas t l)

/-- What `compress_block` writes: the two tables are the same, and every selector is the first. -/
def Block.bits (b : Block) : List Bool :=
  let table := bitsBE 5 (b.len.getD 0 0) ++ deltas (b.len.getD 0 0) b.len
  bitsBE 24 0x314159 ++ bitsBE 24 0x265359 ++ bitsBE 32 b.bcrc.toNat ++ [false] ++
    bitsBE 24 b.origPtr ++ b.symbolMap ++ bitsBE 3 2 ++ bitsBE 15 b.nSel ++
    List.replicate b.nSel false ++ table ++ table ++
    b.sym.flatMap fun s => bitsBE (b.len.getD s 0) (b.code.getD s 0)

/-! ## Streams -/

/-- The input in blocks of `bs` bytes, the last one of what is left. -/
def chunks (bs : Nat) (l : List UInt8) : List (List UInt8) :=
  if l = [] ∨ bs = 0 then [] else l.take bs :: chunks bs (l.drop bs)
termination_by l.length
decreasing_by
  have hpos : 0 < l.length := List.length_pos_of_ne_nil (by tauto)
  rw [List.length_drop]
  omega

/-- The size of a block, before its runs are encoded. -/
def blockSize (level : Nat) : Nat := level * 100000

/-- `combined`. -/
def combine (combined bcrc : UInt32) : UInt32 := ((combined <<< 1) ||| (combined >>> 31)) ^^^ bcrc

/-- `wflush` and the packing of `wbits`. -/
def packBits (l : List Bool) : List UInt8 :=
  if l = [] then []
  else UInt8.ofNat (ofBE (l.take 8 ++ List.replicate (8 - l.length) false)) :: packBits (l.drop 8)
termination_by l.length
decreasing_by
  have hpos : 0 < l.length := List.length_pos_of_ne_nil (by assumption)
  rw [List.length_drop]
  omega

def compress (level : Nat) (input : List UInt8) : List UInt8 :=
  let blocks := (chunks (blockSize level) input).map compressBlock
  let combined := blocks.foldl (fun c b => combine c b.bcrc) 0
  [0x42, 0x5a, 0x68, UInt8.ofNat (0x30 + level)] ++
    packBits (blocks.flatMap Block.bits ++
      (bitsBE 24 0x177245 ++ bitsBE 24 0x385090 ++ bitsBE 32 combined.toNat))

end Verkos.Vbzip2
