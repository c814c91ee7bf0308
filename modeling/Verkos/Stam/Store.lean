import Verkos.Stam.Fat
import Verkos.Stam.File

/-!
# Files by name

`file_open`, `file_read`, `file_write` and `file_close` over the three places a file can be in: a
fixed table of memory files, the archive the machine was started with, and the disk. The pools of
`File.lean` are the objects; here they have what they refer to besides, the handles on the disk, the
bytes of the memory files and the disk itself. Transfers go through or fail as `ok` says.
-/

namespace Verkos.Stam

open Verkos.Lib
open Fat (Handle Geo Volume Io fatOpen fatCreate fatTruncate fatRead fatWrite fatSync put)

/-- `MEM_SIZE`. -/
abbrev memSize : Nat := 4096

/-- What `file_open` uses of a `fat_file_t`. -/
def FatFile.ofHandle (h : Handle) : FatFile := ⟨h.size, h.isDir⟩

namespace Fs

/-- `file_open` behind the disk: `r` is what came of that, and `at'` where the archive has the name. -/
def openFound (s : Fs) (r : Except Int (Option (FatFile × Bool))) (at' : Option (Nat × Nat))
    (name : List UInt8) (mode : OpenMode) : Fs × Except Int (Fin nFile) :=
  match r with
  | .error e => (s, .error e)
  | .ok (some (ff, true)) => s.openFat ff .fat mode true
  | .ok fat =>
    if mode ≠ .read then
      match (s.findMem name).orElse fun _ => s.findUnusedMem with
      | none => (s, .error (-24))
      | some m =>
        let s₁ := s.openMem m name mode
        s₁.allocWith .mem fun x =>
          { x with mem := some m, pos := if mode = .append then (s₁.mems m).len else 0 }
    else
      match s.findMem name, at', fat with
      | some m, _, _ => s.allocWith .mem fun x => { x with mem := some m, pos := 0 }
      | none, some (at', len), _ =>
        s.allocWith .initrd fun x => { x with ro := some at', roLen := len, pos := 0 }
      | none, none, some (ff, _) => s.openFat ff (if ff.isDir then .fatDir else .fat) .read false
      | none, none, none => (s, .error (-2))

end Fs

/-- The objects, and what they refer to. -/
structure Store where
  pools : Fs
  handles : Fin nFile → Handle
  data : Fin nMem → Nat → UInt8
  disk : Volume

/-- What a machine has besides: the measures of the disk if one is mounted, and the archive. -/
structure Media where
  disk : Option Geo
  archived : List UInt8 → Option (Nat × Nat)
  image : Nat → UInt8

/-- The part of `file_open` before the lock. -/
def lookUpDisk (g : Geo) (fuel : Nat) (junk : Nat → UInt8) (name : List UInt8) (absolute : Bool)
    (mode : OpenMode) : Io (Except Int (Option (Handle × Bool))) :=
  if mode = .read then do
    let found ← fatOpen g fuel junk name
    pure (.ok (found.map fun ff => (ff, false)))
  else if absolute = false then .done (.ok none)
  else do
    let found ← fatOpen g fuel junk name
    match found.filter fun ff => !ff.isDir with
    | some ff =>
      if mode = .write then do
        let (ok, ff) ← fatTruncate g fuel ff
        pure (if ok then .ok (some (ff, true)) else .error (-5))
      else pure (.ok (some (ff, true)))
    | none => do
      let created ← fatCreate g fuel junk name
      match created with
      | some ff => pure (.ok (some (ff, true)))
      | none => pure (.error (-2))

/-- What a read or a write comes to: a number, the loop over a pipe or a connection, or a null pointer
that is followed. -/
inductive Reply where
  | returns (r : Int)
  | stream
  | fault
deriving DecidableEq, Repr

namespace Store

variable (m : Media) (fuel : Nat) (junk : Nat → UInt8) (ok : Nat → Bool)

/-- The look at the disk, nothing without one. -/
def lookUp (st : Store) (name : List UInt8) (absolute : Bool) (mode : OpenMode) :
    Option (Except Int (Option (Handle × Bool)) × Volume) :=
  match m.disk with
  | none => some (.ok none, st.disk)
  | some g => (lookUpDisk g fuel junk name absolute mode).exec ok 0 st.disk

/-- The object a file on the disk is opened as keeps the handle. -/
def keepHandle (handles : Fin nFile → Handle) (s : Fs) (found : Option (Handle × Bool))
    (r : Except Int (Fin nFile)) : Fin nFile → Handle :=
  match r, found with
  | .ok f, some (h, _) =>
    if (s.files f).kind = .fat ∨ (s.files f).kind = .fatDir then Function.update handles f h
    else handles
  | _, _ => handles

/-- `file_open`. -/
def fileOpen (st : Store) (path : List UInt8) (mode : OpenMode) :
    Option (Store × Except Int (Fin nFile)) :=
  let absolute := path.head? == some 47
  let name := if absolute then path.tail else path
  match st.lookUp m fuel junk ok name absolute mode with
  | none => none
  | some (r, v) =>
    let (s, res) := st.pools.openFound (r.map fun x => x.map fun y => (.ofHandle y.1, y.2))
      (m.archived name) name mode
    let found := match r with
      | .ok x => x
      | .error _ => none
    some ({ pools := s, handles := keepHandle st.handles s found res, data := st.data, disk := v },
      res)

def setPos (st : Store) (f : Fin nFile) (pos : Nat) : Store :=
  { st with pools := st.pools.setFile f { st.pools.files f with pos := pos } }

/-- `file_read`: what it returns and what it has put into the buffer. -/
def fileRead (st : Store) (f : Fin nFile) (len : Nat) :
    Option (Store × Reply × List UInt8) :=
  let x := st.pools.files f
  match x.kind with
  | .free | .pipeW | .udp => some (st, .returns (-9), [])
  | .console | .tcp | .pipeR => some (st, .stream, [])
  | .initrd =>
    let n := min len (x.roLen - x.pos)
    some (st.setPos f (x.pos + n), .returns n,
      (List.range n).map fun i => m.image (x.ro.getD 0 + x.pos + i))
  | .mem =>
    match x.mem with
    | none => some (st, .fault, [])
    | some j =>
      let n := min len ((st.pools.mems j).len - x.pos)
      some (st.setPos f (x.pos + n), .returns n, (List.range n).map fun i => st.data j (x.pos + i))
  | .fat =>
    if len = 0 then some (st, .returns 0, [])
    else
      match m.disk with
      | none => some (st, .returns (-1), [])
      | some g =>
        match (fatRead g (st.handles f) x.pos len).exec ok 0 st.disk with
        | none => none
        | some ((n, l), v) =>
          some ({ (if 0 < n then st.setPos f (x.pos + n.toNat) else st) with disk := v },
            .returns n, l)
  | .fatDir => some (st, if len = 0 then .returns 0 else .fault, [])

/-- `file_write`. -/
def fileWrite (st : Store) (f : Fin nFile) (buf : List UInt8) : Option (Store × Reply) :=
  let x := st.pools.files f
  match x.kind with
  | .free | .pipeR | .udp | .initrd => some (st, .returns (-9))
  | .console => some (st, .returns buf.length)
  | .tcp | .pipeW => some (st, .stream)
  | .fat =>
    if x.writable = false then some (st, .returns (-9))
    else
      match m.disk with
      | none => some (st, .returns (-1))
      | some g =>
        match (fatWrite g (st.handles f) x.pos buf).exec ok 0 st.disk with
        | none => none
        | some ((n, h), v) =>
          some ({ (if 0 < n then st.setPos f (x.pos + n.toNat) else st) with
            handles := Function.update st.handles f h
            disk := v }, .returns n)
  | .mem =>
    match x.mem with
    | none => some (st, .fault)
    | some j =>
      let n := min buf.length (memSize - x.pos)
      let st₁ := st.setPos f (x.pos + n)
      some ({ st₁ with
        pools := st₁.pools.setMem j { st.pools.mems j with
          len := max (st.pools.mems j).len (x.pos + n) }
        data := Function.update st.data j (put (st.data j) x.pos (buf.take n)) },
        .returns (if n = 0 ∧ buf ≠ [] then -28 else n))
  | .fatDir => some (st, if buf = [] then .returns 0 else .fault)

/-- `file_close`. -/
def fileClose (st : Store) (f : Fin nFile) : Option Store :=
  let x := st.pools.files f
  let st' := { st with pools := st.pools.fileClose f }
  if x.refs - 1 ≤ 0 ∧ x.kind = .fat ∧ x.writable = true then
    match m.disk with
    | none => some st'
    | some g => ((fatSync g).exec ok 0 st.disk).map fun r => { st' with disk := r.2 }
  else some st'

end Store

end Verkos.Stam
