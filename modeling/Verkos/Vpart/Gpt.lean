import Verkos.Lib.Bytes
import Verkos.Lib.Crc

/-!
# The table vpart writes

`main` turns the options into partitions, in sectors and in the 64-bit arithmetic of the program,
and `write_gpt` checks them, lays out the array of entries and the two headers, and writes five
pieces: array and header, their backups, and the protective MBR. The result is what was written
where, or what the program died of. Reads of `/dev/urandom` and `strtoul` are parameters, and a
disk is its bytes.
-/

namespace Verkos.Vpart

open Lib.Bytes (little part)

/-! ## Options -/

/-- The variables that `main` fills from its arguments. -/
structure Opts where
  path : Option String := none
  espMb : UInt64 := 0
  rootMb : UInt64 := 0
  homeMb : UInt64 := 0
  swapMb : UInt64 := 0
  wantRoot : Bool := false
  espOnly : Bool := false

def usage : String :=
  "usage: vpart [-v] DISK --esp MB [--root [MB]] [--home MB] [--swap MB]\n" ++
  "       vpart [-v] DISK --esp-all\n"

def isOption (arg : String) : Bool := arg.toList.head? == some '-'

/-- The loop over the arguments. -/
def parseArgs (strtoul : String → UInt64) : List String → Opts → Except String Opts
  | [], o => .ok o
  | arg :: rest, o =>
    if arg = "-v" then parseArgs strtoul rest o
    else if arg = "--esp-all" then parseArgs strtoul rest { o with espOnly := true }
    else
      match rest with
      | [] =>
        if arg = "--root" then .ok { o with wantRoot := true }
        else if isOption arg then .error usage
        else if o.path.isNone then .ok { o with path := some arg }
        else .error "only one disk at a time"
      | val :: rest' =>
        if arg = "--esp" then parseArgs strtoul rest' { o with espMb := strtoul val }
        else if arg = "--root" then
          if isOption val then parseArgs strtoul (val :: rest') { o with wantRoot := true }
          else parseArgs strtoul rest' { o with wantRoot := true, rootMb := strtoul val }
        else if arg = "--home" then parseArgs strtoul rest' { o with homeMb := strtoul val }
        else if arg = "--swap" then parseArgs strtoul rest' { o with swapMb := strtoul val }
        else if isOption arg then .error usage
        else if o.path.isNone then parseArgs strtoul (val :: rest') { o with path := some arg }
        else .error "only one disk at a time"

/-! ## Partitions -/

def put16 (v : Nat) : List UInt8 := little 2 v
def put32 (v : Nat) : List UInt8 := little 4 v
def put64 (v : Nat) : List UInt8 := little 8 v

/-- `guid`: three fields with the low byte first, and eight bytes as they are. -/
def guid (d1 d2 d3 : Nat) (rest : List UInt8) : List UInt8 := put32 d1 ++ put16 d2 ++ put16 d3 ++ rest

def espType : List UInt8 :=
  guid 0xC12A7328 0xF81F 0x11D2 [0xBA, 0x4B, 0x00, 0xA0, 0xC9, 0x3E, 0xC9, 0x3B]
def linuxType : List UInt8 :=
  guid 0x0FC63DAF 0x8483 0x4772 [0x8E, 0x79, 0x3D, 0x69, 0xD8, 0x47, 0x7D, 0xE4]
def homeType : List UInt8 :=
  guid 0x933AC7E1 0x2EB4 0x4F13 [0xB8, 0x44, 0x0E, 0x14, 0xE2, 0xAE, 0xF9, 0x15]
def swapType : List UInt8 :=
  guid 0x0657FD6D 0xA4AB 0x43C4 [0x84, 0xE5, 0x09, 0x33, 0xC8, 0x4B, 0x4F, 0x4F]

/-- The characters of a name in ASCII. -/
def ascii (s : String) : List UInt8 := s.toList.map fun c => UInt8.ofNat c.toNat

/-- `part_t`. -/
structure Part where
  type : List UInt8
  first : UInt64
  last : UInt64
  name : List UInt8

/-- A partition of some MiB from `next` on. -/
def sized (type : List UInt8) (name : String) (next mb : UInt64) : Part :=
  ⟨type, next, next + mb * 2048 - 1, ascii name⟩

def espPart (o : Opts) (lastUsable : UInt64) : Part where
  type := espType
  first := 2048
  last := if o.espOnly then lastUsable else 2048 + o.espMb * 2048 - 1
  name := ascii "EFI System"

/-- The swap partition, if there is to be one. -/
def swapParts (o : Opts) (next : UInt64) : List Part :=
  if o.swapMb ≠ 0 then [sized swapType "swap" next o.swapMb] else []

/-- And `/home` in front of it. -/
def homeParts (o : Opts) (next : UInt64) : List Part :=
  if o.homeMb ≠ 0 then
    let home := sized homeType "home" next o.homeMb
    home :: swapParts o (home.last + 1)
  else swapParts o next

/-- Where the root ends. -/
def rootEnd (o : Opts) (lastUsable next : UInt64) : UInt64 :=
  if o.rootMb ≠ 0 then next + o.rootMb * 2048 - 1
  else lastUsable - (o.homeMb + o.swapMb) * 2048

/-- The partitions of `main`. -/
def layout (o : Opts) (lastUsable : UInt64) : Except String (List Part) :=
  let esp := espPart o lastUsable
  let next := esp.last + 1
  if o.wantRoot then
    let rootLast := rootEnd o lastUsable next
    if rootLast ≤ next then .error "no room left for a root filesystem"
    else .ok (esp :: ⟨linuxType, next, rootLast, ascii "VerkOS"⟩ :: homeParts o (rootLast + 1))
  else .ok (esp :: homeParts o next)

/-! ## write_gpt -/

def arraySecs : UInt64 := 32
def firstUsable : UInt64 := 2 + arraySecs

/-- The checks of `write_gpt`; `prev` is the partition in front. -/
def check (lastUsable : UInt64) : Option Part → List Part → Except String Unit
  | _, [] => .ok ()
  | prev, p :: ps =>
    if p.first < firstUsable ∨ lastUsable < p.last then
      .error "a partition falls outside the usable area"
    else if p.last < p.first then .error "a partition ends before it starts"
    else if prev.any fun q => p.first ≤ q.last then .error "partitions overlap"
    else check lastUsable (some p) ps

/-- `crc32`. -/
def crc32 (data : List UInt8) : Nat := (Lib.Crc.table 0xEDB88320 data).toNat

/-- `guid_random`, with what was read. -/
def guidRandom (r : Fin 16 → UInt8) : List UInt8 :=
  List.ofFn fun i =>
    if i = 7 then (r i &&& 0x0F) ||| 0x40 else if i = 8 then (r i &&& 0x3F) ||| 0x80 else r i

/-- 35 characters in two bytes each, and what `calloc` left. -/
def nameField (name : List UInt8) : List UInt8 :=
  let chars := (name.take 35).flatMap fun c => [c, 0]
  chars ++ List.replicate (72 - chars.length) 0

/-- An entry of the array. -/
def entry (p : Part) (r : Fin 16 → UInt8) : List UInt8 :=
  p.type ++ (guidRandom r ++ (put64 p.first.toNat ++ (put64 p.last.toNat ++ (put64 0 ++
    nameField p.name))))

def entries (rnd : Nat → Fin 16 → UInt8) (ps : List Part) : List (List UInt8) :=
  ps.zipIdx.map fun (p, i) => entry p (rnd i)

/-- The array: 128 entries of 128 bytes. -/
def array (rnd : Nat → Fin 16 → UInt8) (ps : List Part) : List UInt8 :=
  (entries rnd ps).flatten ++ List.replicate (128 * (128 - ps.length)) 0

def signature : List UInt8 := ascii "EFI PART"

/-- The 92 bytes of a header. -/
def headerBytes (crc my alternate lastUsable arrayLba : Nat) (diskGuid : List UInt8)
    (arrayCrc : Nat) : List UInt8 :=
  signature ++ (put32 0x00010000 ++ (put32 92 ++ (put32 crc ++ (put32 0 ++ (put64 my ++
    (put64 alternate ++ (put64 firstUsable.toNat ++ (put64 lastUsable ++ (diskGuid ++
    (put64 arrayLba ++ (put32 128 ++ (put32 128 ++ put32 arrayCrc))))))))))))

/-- A header in its sector: the checksum is that of the header with none. -/
def header (my alternate lastUsable arrayLba : Nat) (diskGuid : List UInt8) (arrayCrc : Nat) :
    List UInt8 :=
  let crc := crc32 (headerBytes 0 my alternate lastUsable arrayLba diskGuid arrayCrc)
  headerBytes crc my alternate lastUsable arrayLba diskGuid arrayCrc ++ List.replicate 420 0

/-- The protective MBR. -/
def mbr (lastLba : UInt64) : List UInt8 :=
  List.replicate 446 0 ++ [0x00, 0x00, 0x02, 0x00, 0xEE, 0xFF, 0xFF, 0xFF] ++ put32 1 ++
    put32 (if lastLba > 0xFFFFFFFF then 0xFFFFFFFF else lastLba.toNat) ++
    List.replicate 48 0 ++ [0x55, 0xAA]

/-- `write_gpt`: what is written at which sector, in this order. -/
def writeGpt (rnd : Nat → Fin 16 → UInt8) (sectors : UInt64) (ps : List Part) :
    Except String (List (Nat × List UInt8)) :=
  let lastLba := sectors - 1
  let lastUsable := lastLba - arraySecs - 1
  let arr := array rnd ps
  let diskGuid := guidRandom (rnd ps.length)
  let head (my alternate arrayLba : UInt64) :=
    header my.toNat alternate.toNat lastUsable.toNat arrayLba.toNat diskGuid (crc32 arr)
  match check lastUsable none ps with
  | .error e => .error e
  | .ok () =>
    .ok [(2, arr), (1, head 1 lastLba 2), ((lastUsable + 1).toNat, arr),
      (lastLba.toNat, head lastLba 1 (lastUsable + 1)), (0, mbr lastLba)]

/-- `main`, on a disk of so many bytes. -/
def vpart (strtoul : String → UInt64) (rnd : Nat → Fin 16 → UInt8) (argv : List String)
    (size : Nat) : Except String (List (Nat × List UInt8)) :=
  match parseArgs strtoul argv {} with
  | .error e => .error e
  | .ok o =>
    if o.path.isNone ∨ o.espMb = 0 ∧ o.espOnly = false then .error usage
    else if (o.homeMb ≠ 0 ∨ o.swapMb ≠ 0) ∧ o.wantRoot = false then
      .error "--home and --swap need a --root to sit after"
    else
      let sectors := UInt64.ofNat (size / 512)
      if sectors < 2048 then .error "the disk is too small for a GPT"
      else
        match layout o (sectors - arraySecs - 2) with
        | .error e => .error e
        | .ok ps => writeGpt rnd sectors ps

/-! ## The disk -/

/-- What is on a disk, byte by byte. -/
abbrev Disk := Nat → UInt8

namespace Disk

/-- `write_at`. -/
def write (d : Disk) (w : Nat × List UInt8) : Disk := fun a =>
  if w.1 * 512 ≤ a then w.2.getD (a - w.1 * 512) (d a) else d a

def writes (d : Disk) (ws : List (Nat × List UInt8)) : Disk := ws.foldl write d

/-- `len` bytes from a sector on. -/
def read (d : Disk) (lba len : Nat) : List UInt8 := (List.range len).map fun i => d (lba * 512 + i)

end Disk

end Verkos.Vpart
