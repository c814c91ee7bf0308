import Verkos.Stam.Fat

/-!
# A small disk

A volume with clusters of one sector, for inputs that can be followed by hand: the table is sector 1,
the root directory is cluster 2 in sector 2, and clusters 3 to 7 are sectors 3 to 7.
-/

namespace Verkos.Stam.Fat

def smallGeo : Geo := ⟨1, 1, 1, 1, 2, 8, 2, 0⟩

def smallBoot : Sector := fun o =>
  if o = 12 then 2 else if o = 13 then 1 else if o = 14 then 1 else if o = 16 then 1
  else if o = 32 then 8 else if o = 36 then 1 else if o = 44 then 2
  else if o = 510 then 0x55 else if o = 511 then 0xaa else 0

/-- The volume with these entries of the table, and these sectors from sector 2 on. -/
def smallVolume (table : List Nat) (data : List Sector) : Volume := fun s =>
  if s = 0 then smallBoot
  else if s = 1 then fun o => UInt8.ofNat (table.getD (o / 4) 0 / 256 ^ (o % 4))
  else data.getD (s - 2) fun _ => 0

/-- An entry of a directory: name, attribute, first cluster and size. -/
def smallEntry (name : List UInt8) (attr : UInt8) (cluster size : Nat) : List UInt8 :=
  name ++ [attr] ++ List.replicate 14 0 ++ [UInt8.ofNat cluster, 0, UInt8.ofNat size, 0, 0, 0]

/-- A sector that holds a list of bytes and nothing more. -/
def sectorOf (l : List UInt8) : Sector := fun o => l.getD o 0

theorem smallVolume_mounts (table : List Nat) (data : List Sector) :
    fatMount.run (smallVolume table data) = some (some smallGeo, smallVolume table data) := by
  have h : smallVolume table data 0 = smallBoot := rfl
  unfold fatMount
  rw [Lib.Blocks.run_reading, h]
  simp [smallBoot, rd16, rd32, smallGeo]

end Verkos.Stam.Fat
