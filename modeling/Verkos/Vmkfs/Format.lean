import Verkos.Stam.Fat

/-!
# The volume that is made

`vmkfs.c`, `format` and `vol_open`: how the sectors are divided, what is written into them, and
what another run reads back from the first of them.

Sectors and clusters are counted in 64 bits, and the numbers that could leave them are cut to that.
The boot sector has 32 bits for the number of sectors. The loop that halves the cluster size takes
how many turns it may make. A transfer that fails ends the program, so only runs in which all go
through make a volume; `volumeId` is the number that was drawn for it.
-/

namespace Verkos.Vmkfs

open Stam.Fat (Sector Volume rd16 rd32 wr16 wr32)

/-! ## How the sectors are divided -/

/-- `pick_cluster_size`. -/
def pickClusterSize (totalSectors : Nat) : Nat :=
  let mb := totalSectors / 2048
  if mb ≤ 260 then 1
  else if mb ≤ 8192 then 8
  else if mb ≤ 16384 then 16
  else if mb ≤ 32768 then 32
  else 64

/-- `total_sectors - RESERVED`. -/
def available (totalSectors : Nat) : Nat := (totalSectors + (2 ^ 64 - 32)) % 2 ^ 64

/-- `fat_sectors_for`. -/
def fatSectorsFor (totalSectors spc : Nat) : Nat :=
  let denom := (256 * spc + 2) / 2
  (available totalSectors + (denom - 1)) % 2 ^ 64 / denom

/-- Sectors of a cluster, sectors of one copy of the table, and how many clusters there are. -/
structure Layout where
  spc : Nat
  fatSz : Nat
  clusters : Nat
deriving DecidableEq, Repr

/-- How a turn of the loop ends. -/
inductive Turn where
  | found (l : Layout)
  | tooSmall
  | halve (spc : Nat)
deriving DecidableEq, Repr

/-- The body of the loop. -/
def turn (totalSectors spc : Nat) : Turn :=
  let fatSz := fatSectorsFor totalSectors spc
  let data := (available totalSectors + (2 ^ 64 - 2 * fatSz % 2 ^ 64)) % 2 ^ 64
  if 65525 ≤ data / spc then .found ⟨spc, fatSz, data / spc⟩
  else if spc = 1 then .tooSmall
  else .halve (spc / 2)

/-- The loop over its body. After as many turns as it may make it would go on. -/
def sizeLoop (body : Nat → Turn) : Nat → Nat → Turn
  | 0, spc => .halve spc
  | n + 1, spc =>
    match body spc with
    | .halve spc' => sizeLoop body n spc'
    | r => r

/-- What `format` decides on, when it does not refuse the size. -/
def layout (totalSectors : Nat) : Option Layout :=
  if totalSectors < 2048 then none
  else
    match sizeLoop (turn totalSectors) 7 (pickClusterSize totalSectors) with
    | .found l => if 0x0FFFFFF5 < l.clusters then none else some l
    | _ => none

/-- `data_start`. -/
def Layout.dataStart (l : Layout) : Nat := 32 + 2 * l.fatSz

/-! ## What is written -/

/-- Bytes copied to an offset. -/
def put (p : Sector) (o : Nat) (bs : List UInt8) : Sector := fun i =>
  if o ≤ i ∧ i < o + bs.length then bs.getD (i - o) 0 else p i

def toupper (c : UInt8) : UInt8 := if 97 ≤ c ∧ c ≤ 122 then c - 32 else c

/-- The label in its field of eleven bytes. -/
def labelField (label : List UInt8) : List UInt8 :=
  (label.take 11).map toupper ++ List.replicate (11 - label.length) 32

/-- `bs`. -/
def bootSector (totalSectors : Nat) (l : Layout) (label : List UInt8) (volumeId : Nat) : Sector :=
  let bs : Sector := fun _ => 0
  let bs := put bs 0 [0xEB, 0x58, 0x90]
  let bs := put bs 3 [86, 101, 114, 107, 79, 83, 32, 32]
  let bs := wr16 bs 11 512
  let bs := put bs 13 [UInt8.ofNat l.spc]
  let bs := wr16 bs 14 32
  let bs := put bs 16 [2]
  let bs := wr16 bs 17 0
  let bs := wr16 bs 19 0
  let bs := put bs 21 [0xF8]
  let bs := wr16 bs 22 0
  let bs := wr16 bs 24 32
  let bs := wr16 bs 26 64
  let bs := wr32 bs 28 0
  let bs := wr32 bs 32 totalSectors
  let bs := wr32 bs 36 l.fatSz
  let bs := wr16 bs 40 0
  let bs := wr16 bs 42 0
  let bs := wr32 bs 44 2
  let bs := wr16 bs 48 1
  let bs := wr16 bs 50 6
  let bs := put bs 64 [0x80]
  let bs := put bs 66 [0x29]
  let bs := wr32 bs 67 volumeId
  let bs := put bs 71 (labelField label)
  let bs := put bs 82 [70, 65, 84, 51, 50, 32, 32, 32]
  let bs := put bs 90 [78, 111, 116, 32, 97, 32, 98, 111, 111, 116, 97, 98, 108, 101, 32, 100, 105,
    115, 107, 46, 13, 10]
  put bs 510 [0x55, 0xAA]

/-- `fsi`. -/
def fsInfoSector (l : Layout) : Sector :=
  let fsi : Sector := fun _ => 0
  let fsi := wr32 fsi 0 0x41615252
  let fsi := wr32 fsi 484 0x61417272
  let fsi := wr32 fsi 488 (l.clusters - 1)
  let fsi := wr32 fsi 492 3
  let fsi := wr32 fsi 508 0xAA550000
  put fsi 510 [0x55, 0xAA]

/-- The sector each copy of the table starts with. -/
def firstFatSector : Sector :=
  let first : Sector := fun _ => 0
  let first := wr32 first 0 0x0FFFFFF8
  let first := wr32 first 4 0x0FFFFFFF
  wr32 first 8 0x0FFFFFFF

/-- The entry the label has in the root directory, in a sector of zeroes. -/
def labelSector (label : List UInt8) : Sector :=
  put (put (fun _ => 0) 0 (labelField label)) 11 [0x08]

/-- Sectors of zeroes from `s` on. -/
def zeroed (d : Volume) (s n : Nat) : Volume := fun i => if s ≤ i ∧ i < s + n then fun _ => 0 else d i

/-- The copy of the table that starts at a sector. -/
def writeFat (d : Volume) (base fatSz : Nat) : Volume :=
  Function.update (zeroed d base fatSz) base firstFatSector

/-- `format`: the layout and what the device then holds. -/
def format (totalSectors : Nat) (label : List UInt8) (volumeId : Nat) (d : Volume) :
    Option (Layout × Volume) := do
  let l ← layout totalSectors
  let bs := bootSector totalSectors l label volumeId
  let d := Function.update d 0 bs
  let d := Function.update d 1 (fsInfoSector l)
  let d := Function.update d 6 bs
  let d := Function.update d 7 (fsInfoSector l)
  let d := writeFat d 32 l.fatSz
  let d := writeFat d (32 + l.fatSz) l.fatSz
  let d := zeroed d l.dataStart l.spc
  if label = [] then return (l, d)
  return (l, Function.update d l.dataStart (labelSector label))

/-! ## What is read back -/

/-- `vol_t`. -/
structure Vol where
  spc : Nat
  nfats : Nat
  rsvd : Nat
  fatsz : Nat
  totsec : Nat
  rootclus : Nat
  fsinfo : Nat
  backup : Nat
  dataStart : Nat
  nclus : Nat
deriving DecidableEq, Repr

/-- `vol_open`. No sum or product of the fields leaves the 64 bits. -/
def volOpen (d : Volume) : Option Vol :=
  let bs := d 0
  if bs 510 ≠ 0x55 ∨ bs 511 ≠ 0xAA then none
  else
    let spc := (bs 13).toNat
    let rsvd := rd16 bs 14
    let nfats := (bs 16).toNat
    let fatsz := rd32 bs 36
    if rd16 bs 11 ≠ 512 then none
    else if rd16 bs 17 ≠ 0 then none
    else if rd16 bs 22 ≠ 0 then none
    else if spc = 0 ∨ spc &&& (spc - 1) ≠ 0 then none
    else if nfats = 0 ∨ fatsz = 0 then none
    else
      let totsec := if rd32 bs 32 = 0 then rd16 bs 19 else rd32 bs 32
      let dataStart := rsvd + nfats * fatsz
      if totsec ≤ dataStart then none
      else
        let nclus := (totsec - dataStart) / spc
        if nclus < 65525 then none
        else
          some {
            spc, nfats, rsvd, fatsz, totsec, rootclus := rd32 bs 44, fsinfo := rd16 bs 48
            backup := rd16 bs 50, dataStart, nclus }

end Verkos.Vmkfs
