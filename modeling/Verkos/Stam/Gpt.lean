import Verkos.Lib.Bytes

/-!
# How stam finds the EFI system partition

`gpt_find_esp` trusts what the header says of the array, as far as it is of a layout it knows, and
takes the first entry of the right type that does not end before it starts. A sector that cannot be
read ends the search.
-/

namespace Verkos.Stam.Gpt

open Lib.Bytes (ofLittle part)

def rd32 (off : Nat) (sec : List UInt8) : Nat := ofLittle (part off 4 sec)
def rd64 (off : Nat) (sec : List UInt8) : Nat := ofLittle (part off 8 sec)

/-- `esp_type`. -/
def espType : List UInt8 :=
  [0x28, 0x73, 0x2a, 0xc1, 0x1f, 0xf8, 0xd2, 0x11, 0xba, 0x4b, 0x00, 0xa0, 0xc9, 0x3e, 0xc9, 0x3b]

/-- `EFI PART`. -/
def sig : List UInt8 := [69, 70, 73, 32, 80, 65, 82, 84]

/-- The loop over the entries from number `i` on, `n` of them left. -/
def findFrom (blkRead : Nat → Option (List UInt8)) (entriesLba entrySize : Nat) :
    Nat → Nat → Option (Nat × Nat)
  | 0, _ => none
  | n + 1, i =>
    match blkRead ((entriesLba + i * entrySize / 512) % 2 ^ 64) with
    | none => none
    | some sec =>
      let e := sec.drop (i * entrySize % 512)
      if part 0 16 e = espType ∧ rd64 32 e ≤ rd64 40 e then
        some (rd64 32 e, (rd64 40 e - rd64 32 e + 1) % 2 ^ 64)
      else findFrom blkRead entriesLba entrySize n (i + 1)

/-- `gpt_find_esp`, of a machine with a disk or without: the first sector and how many. -/
def gptFindEsp (disk : Option (Nat → Option (List UInt8))) : Option (Nat × Nat) :=
  match disk with
  | none => none
  | some blkRead =>
    match blkRead 1 with
    | none => none
    | some sec =>
      if part 0 8 sec ≠ sig then none
      else if rd32 84 sec ≠ 128 ∨ rd32 80 sec = 0 ∨ 256 < rd32 80 sec then none
      else findFrom blkRead (rd64 72 sec) (rd32 84 sec) (rd32 80 sec) 0

/-- What the first entry says, if it is that of an EFI system partition. -/
theorem findFrom_first {blkRead : Nat → Option (List UInt8)} {lba n : Nat} {sec : List UInt8}
    (hread : blkRead lba = some sec) (hlba : lba < 2 ^ 64) (htype : part 0 16 sec = espType)
    (hle : rd64 32 sec ≤ rd64 40 sec) : findFrom blkRead lba 128 (n + 1) 0 =
      some (rd64 32 sec, (rd64 40 sec - rd64 32 sec + 1) % 2 ^ 64) := by
  have h0 : (lba + 0 * 128 / 512) % 2 ^ 64 = lba := by omega
  unfold findFrom
  simp only [h0, hread, Nat.zero_mul, Nat.zero_mod, List.drop_zero]
  rw [if_pos ⟨htype, hle⟩]

end Verkos.Stam.Gpt
