import Verkos.Sav.Note
import Verkos.Stam.Cow

/-!
# Loading a program

`elf_load` checks the header of an executable, gives every `PT_LOAD` segment pages of its own where
it asks to be, and copies the bytes the file has for it straight through the user addresses. The
rest of a segment is zero because `alloc_page` clears what it hands out.

The sums of 64-bit fields wrap, as they do in C. An image that makes the loader read outside itself,
or store where nothing of the program's is mapped, makes it use memory that is not modelled:
`elfLoad` is `none` there.
-/

namespace Verkos.Stam

open Verkos.Sav

attribute [local instance] neZero512

/-! ## Addresses -/

/-- The indices of the virtual page an address lies in. -/
def vaOf (a : Nat) : Va :=
  ⟨Fin.ofNat 512 (a / 2 ^ 30), Fin.ofNat 512 (a / 2 ^ 21), Fin.ofNat 512 (a / 2 ^ 12)⟩

/-- The low half: 39 bits of address. -/
def userTop : Nat := 2 ^ 39

/-- What a load of one byte at a user address gives. -/
def userByte (pm : Pmm) (sp : Space) (a : Nat) : Option Nat :=
  if a < userTop then (sp.walk (vaOf a)).map fun d => pm.mem d.page (a % 4096) else none

/-- A store of one byte by the kernel through a user address. -/
def storeByte (pm : Pmm) (sp : Space) (a : Nat) (b : UInt8) : Option Pmm :=
  if a < userTop then
    match sp.walk (vaOf a) with
    | none => none
    | some d =>
      if d.ro then none
      else some { pm with
        mem := Function.update pm.mem d.page (Function.update (pm.mem d.page) (a % 4096) b.toNat) }
  else none

/-- `for (b = 0; b < filesz; b++) dst[b] = src[b]`. -/
def copyBytes (sp : Space) : Pmm → Nat → List UInt8 → Option Pmm
  | pm, _, [] => some pm
  | pm, a, b :: bs =>
    match storeByte pm sp a b with
    | none => none
    | some pm => copyBytes sp pm (a + 1) bs

/-! ## The loader -/

/-- Which check failed, as the console is told. -/
inductive ElfError
  | tooSmall
  | noMagic
  | not64Bit
  | notLittleEndian
  | machine (m : Nat)
  | headersOutside
  | pastEnd (i : Nat)
  | lessMemory (i : Nat)
  | outOfMemory
  | couldNotMap (va : Va)
  | nothingToLoad
deriving DecidableEq

/-- `le16`. -/
def le16 : List UInt8 → Nat
  | a :: b :: _ => a.toNat + 256 * b.toNat
  | _ => 0

/-- `le64`. -/
def le64 (l : List UInt8) : Nat := le32 l + 2 ^ 32 * le32 (l.drop 4)

/-- The fields of a program header the loader reads. -/
structure Phdr where
  type : Nat
  flags : Nat
  offset : Nat
  vaddr : Nat
  filesz : Nat
  memsz : Nat

def Phdr.read (ph : List UInt8) : Phdr where
  type := le32 ph
  flags := le32 (ph.drop 4)
  offset := le64 (ph.drop 8)
  vaddr := le64 (ph.drop 16)
  filesz := le64 (ph.drop 32)
  memsz := le64 (ph.drop 40)

def ptLoad : Nat := 1
def ptNote : Nat := 4

/-- `flags & PF_X`. -/
def Phdr.executable (ph : Phdr) : Bool := ph.flags % 2 == 1

/-- The numbers of the pages from `first` up to `last`. -/
def Phdr.pages (ph : Phdr) : List Nat :=
  List.range' (ph.vaddr / 4096) ((ph.vaddr + ph.memsz + 4095) % 2 ^ 64 / 4096 - ph.vaddr / 4096)

/-- The loop over the pages of a segment. -/
def mapPages (executable : Bool) : Pmm → Space → List Nat → Pmm × Space × Option ElfError
  | pm, sp, [] => (pm, sp, none)
  | pm, sp, p :: rest =>
    match pm.allocPage with
    | none => (pm, sp, some .outOfMemory)
    | some (page, pm) =>
      match sp.mapUserPage pm (vaOf (4096 * p)) page executable with
      | (pm, sp, false) => (pm, sp, some (.couldNotMap (vaOf (4096 * p))))
      | (pm, sp, true) => mapPages executable pm sp rest

/-- What the walk over the program headers carries along. -/
structure Loading where
  pm : Pmm
  sp : Space
  manifest : SavManifest
  loaded : Nat

/-- A `PT_LOAD` segment. -/
def loadSegment (e : List UInt8) (i : Nat) (ph : Phdr) (s : Loading) :
    Option (Loading × Option ElfError) :=
  if (ph.offset + ph.filesz) % 2 ^ 64 > e.length then some (s, some (.pastEnd i))
  else if ph.memsz < ph.filesz then some (s, some (.lessMemory i))
  else
    match mapPages ph.executable s.pm s.sp ph.pages with
    | (pm, sp, some err) => some ({ s with pm, sp }, some err)
    | (pm, sp, none) =>
      if ph.offset + ph.filesz > e.length then none
      else
        match copyBytes sp pm ph.vaddr ((e.drop ph.offset).take ph.filesz) with
        | none => none
        | some pm => some ({ s with pm, sp, loaded := s.loaded + 1 }, none)

/-- A note that is not a manifest leaves what an earlier one said. -/
def keepNote (old new : SavManifest) : SavManifest := if new.present then new else old

/-- One program header. -/
def loadHeader (e : List UInt8) (i : Nat) (ph : Phdr) (s : Loading) :
    Option (Loading × Option ElfError) :=
  if ph.type = ptNote then
    some ({ s with manifest := keepNote s.manifest (readSavNoteAt e ph.offset ph.filesz) }, none)
  else if ph.type = ptLoad then loadSegment e i ph s
  else some (s, none)

/-- The walk over `n` program headers from the `i`-th on. -/
def loadHeaders (e : List UInt8) (phoff phentsize : Nat) :
    Nat → Nat → Loading → Option (Loading × Option ElfError)
  | 0, _, s => some (s, none)
  | n + 1, i, s =>
    if phoff + i * phentsize + 48 > e.length then none
    else
      match loadHeader e i (.read (e.drop (phoff + i * phentsize))) s with
      | none => none
      | some (s, some err) => some (s, some err)
      | some (s, none) => loadHeaders e phoff phentsize n (i + 1) s

/-- No manifest. -/
def noManifest : SavManifest := ⟨false, [], []⟩

/-- What `elf_load` leaves and answers: the entry point, or why not. -/
structure Loaded where
  pm : Pmm
  sp : Space
  manifest : SavManifest
  answer : Except ElfError Nat

/-- The checks before the program headers. -/
def headerError (e : List UInt8) : Option ElfError :=
  if e.length < 64 then some .tooSmall
  else if e.take 4 ≠ [0x7f, 69, 76, 70] then some .noMagic
  else if e.getD 4 0 ≠ 2 then some .not64Bit
  else if e.getD 5 0 ≠ 1 then some .notLittleEndian
  else if le16 (e.drop 18) ≠ 183 then some (.machine (le16 (e.drop 18)))
  else if le16 (e.drop 56) = 0 ∨
      (le64 (e.drop 32) + le16 (e.drop 56) * le16 (e.drop 54)) % 2 ^ 64 > e.length then
    some .headersOutside
  else none

/-- `elf_load`, into the space it is given. -/
def elfLoad (e : List UInt8) (pm : Pmm) (sp : Space) : Option Loaded :=
  match headerError e with
  | some err => some ⟨pm, sp, noManifest, .error err⟩
  | none =>
    match loadHeaders e (le64 (e.drop 32)) (le16 (e.drop 54)) (le16 (e.drop 56)) 0
        ⟨pm, sp, noManifest, 0⟩ with
    | none => none
    | some (s, some err) => some ⟨s.pm, s.sp, s.manifest, .error err⟩
    | some (s, none) =>
      if s.loaded = 0 then some ⟨s.pm, s.sp, s.manifest, .error .nothingToLoad⟩
      else some ⟨s.pm, s.sp, s.manifest, .ok (le64 (e.drop 24))⟩

end Verkos.Stam
