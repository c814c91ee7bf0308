import Verkos.Lib.Bytes
import Verkos.Vgzip.RoundTrip

/-!
# zip and unzip

The codec is the one of `vgzip`; what is written about a file is written twice, in front of its data
and in the directory behind all of them. A position that `deflate` puts into a chain becomes an
`int`, and from 2 GiB on it is one that ends the chain.
-/

namespace Verkos.Vzip

open Lib.Bytes
open Vgzip (Chains)

theorem lawfulBytes : LawfulBEq (List UInt8) := inferInstance
attribute [local instance] lawfulBytes

/-! ## The codec -/

/-- A position as an `int`, `none` if it is negative. -/
def asInt (p : Nat) : Option Nat := if p % 2 ^ 32 < 2 ^ 31 then some (p % 2 ^ 32) else none

/-- A position is put at the head of its chain. -/
def insert (data : List UInt8) (c : Chains) (p : Nat) : Chains :=
  if p + 3 ≤ data.length then
    ⟨Function.update c.head (Vgzip.hash data p) (asInt p),
      Function.update c.prev p (c.head (Vgzip.hash data p))⟩
  else c

def deflate (data : List UInt8) : List UInt8 := Vgzip.deflateWith data (insert data)

/-! ## Fields -/

/-- Numbers, each one in so many bytes. -/
def fields (l : List (Nat × Nat)) : List UInt8 := l.flatMap fun p => little p.1 p.2

def rd16 (z : List UInt8) (p : Nat) : Nat := ofLittle (part p 2 z)

def rd32 (z : List UInt8) (p : Nat) : Nat := ofLittle (part p 4 z)

/-! ## zip -/

/-- `struct cdent`. -/
structure CdEnt where
  name : List UInt8
  crc : Nat
  csize : Nat
  usize : Nat
  offset : Nat
  method : Nat
  nlen : Nat
deriving DecidableEq

/-- A file as it is written: the deflated data, or the data if nothing is gained. -/
structure Packed where
  method : Nat
  payload : List UInt8
deriving DecidableEq

def pack (data : List UInt8) : Packed :=
  let comp := deflate data
  if data.length ≤ comp.length then ⟨0, data⟩ else ⟨8, comp⟩

/-- What goes into `cds`. The name has 1024 bytes there. -/
def cdEnt (name data : List UInt8) (offset : Nat) : CdEnt where
  name := name.take 1023
  crc := (Vgzip.crc32 data).toNat
  csize := (pack data).payload.length
  usize := data.length
  offset := offset
  method := (pack data).method
  nlen := name.length

def localHeader (c : CdEnt) : List UInt8 :=
  fields [(4, 0x04034b50), (2, 20), (2, 0), (2, c.method), (2, 0), (2, 0x21), (4, c.crc), (4, c.csize),
    (4, c.usize), (2, c.nlen), (2, 0)]

def centralHeader (c : CdEnt) : List UInt8 :=
  fields [(4, 0x02014b50), (2, 20), (2, 20), (2, 0), (2, c.method), (2, 0), (2, 0x21), (4, c.crc),
    (4, c.csize), (4, c.usize), (2, c.nlen), (2, 0), (2, 0), (2, 0), (2, 0), (4, 0), (4, c.offset)]

/-- One turn of the loop over the files: those that cannot be read are left out. -/
def addFile (read : List UInt8 → Option (List UInt8)) (s : List UInt8 × List CdEnt)
    (name : List UInt8) : List UInt8 × List CdEnt :=
  match read name with
  | none => s
  | some data =>
    let c := cdEnt name data s.1.length
    (s.1 ++ (localHeader c ++ (name ++ (pack data).payload)), s.2 ++ [c])

/-- `do_zip`: what is in the archive. -/
def doZip (read : List UInt8 → Option (List UInt8)) (names : List (List UInt8)) : List UInt8 :=
  let s := names.foldl (addFile read) ([], [])
  let dir := s.2.flatMap fun c => centralHeader c ++ c.name
  s.1 ++ (dir ++ fields [(4, 0x06054b50), (2, 0), (2, 0), (2, s.2.length), (2, s.2.length),
    (4, dir.length), (4, s.1.length), (2, 0)])

/-! ## unzip -/

structure Options where
  list : Bool := false
  pipeOut : Bool := false
  filt : List (List UInt8) := []

/-- What `do_unzip` does outside, in order. -/
inductive Action
  | listed (usize : Nat) (name : List UInt8)
  | piped (data : List UInt8)
  | mkdir (name : List UInt8)
  | written (name data : List UInt8)
  | inflateError (name : List UInt8)
  | unsupported (name : List UInt8) (method : Nat)
deriving DecidableEq, Repr

def nameWanted (name : List UInt8) (filt : List (List UInt8)) : Bool := filt = [] || name ∈ filt

/-- A slash. -/
def slash : UInt8 := 0x2f

/-- The directories that a name goes through. -/
def parents (name : List UInt8) : List (List UInt8) :=
  ((List.range name.length).filter fun i => name[i]? = some slash).map (name.take ·)

/-- A buffer as a string. -/
def cstr (l : List UInt8) : List UInt8 := l.takeWhile (· ≠ 0)

/-- Where the end record is: looked for from the end on, with room for a comment. -/
def endRecord (z : List UInt8) : Option Nat :=
  ((List.range (min 65536 (z.length + 1 - 22))).map (z.length - 22 - ·)).find? fun i =>
    rd32 z i = 0x06054b50

/-- An entry whose data are out. -/
def extracted (o : Options) (name out : List UInt8) : List Action :=
  if o.pipeOut then [.piped out]
  else if name.getLast? = some slash then [.mkdir name]
  else (parents name).map .mkdir ++ [Action.written name out]

/-- An entry of the directory, at `cd`. -/
def extract (z : List UInt8) (o : Options) (cd : Nat) : List Action :=
  let method := rd16 z (cd + 10)
  let csize := rd32 z (cd + 20)
  let usize := rd32 z (cd + 24)
  let lho := rd32 z (cd + 42)
  let name := cstr (part (cd + 46) (min (rd16 z (cd + 28)) 1023) z)
  if !nameWanted name o.filt then []
  else if o.list then [.listed usize name]
  else if rd32 z lho ≠ 0x04034b50 then []
  else
    let data := part (lho + 30 + rd16 z (lho + 26) + rd16 z (lho + 28)) csize z
    if method = 0 then extracted o name data
    else if method = 8 then
      match Vgzip.inflate data with
      | .ok out => extracted o name out
      | .error _ => [.inflateError name]
    else [.unsupported name method]

/-- The loop of `do_unzip`, with so many entries to come. -/
def unzipLoop (z : List UInt8) (o : Options) : Nat → Nat → List Action
  | 0, _ => []
  | k + 1, cd =>
    if z.length < cd + 46 then []
    else if rd32 z cd ≠ 0x02014b50 then []
    else
      let next := (cd + 46 + rd16 z (cd + 28) + rd16 z (cd + 30) + rd16 z (cd + 32)) % 2 ^ 32
      extract z o cd ++ unzipLoop z o k next

/-- `do_unzip`: `none` if this is no zip file. -/
def doUnzip (z : List UInt8) (o : Options) : Option (List Action) :=
  (endRecord z).map fun eo => unzipLoop z o (rd16 z (eo + 10)) (rd32 z (eo + 16))

end Verkos.Vzip
