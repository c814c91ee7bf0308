import Verkos.Lib.Paths
import Verkos.Lib.Steps
import Mathlib.Algebra.Ring.Int.Defs
import Mathlib.Data.Nat.Bitwise

/-!
# Unpacking a tar archive

`untar` reads member after member. Each is checked by its name, and made under `dest`: what is on
the way to it and is no directory is replaced by one first, so that nothing is made through a link.
The contents of files are apart from the names they have, as a hard link is one more name. No
permission is checked, as the package manager is run by root, and there is room for everything.

The system may refuse a hard link (another device, a file system without them); that is a turn's
input.
-/

namespace Verkos.Vpk.Untar

open Lib

/-- A name or a path as C has it, without the NUL. -/
abbrev Str := List UInt8

def slash : UInt8 := 47

def dot : UInt8 := 46

/-- Up to the first NUL. -/
def cstr (s : List UInt8) : Str := s.takeWhile (· ≠ 0)

/-! ## Reading a header -/

/-- `octal`, with the value so far: up to a byte that is no octal digit. -/
def octal : List UInt8 → Nat → Nat
  | [], v => v
  | c :: cs, v => if c < 48 ∨ 55 < c then v else octal cs (v * 8 + (c.toNat - 48))

/-- So many bytes at an offset. -/
def field (h : List UInt8) (off len : Nat) : List UInt8 := (h.drop off).take len

/-- `unsafe_rel`. -/
def unsafeRel (r : Str) : Bool := r = [] || r.head? = some slash || Paths.climbs slash dot r

/-- A byte as a `signed char`. -/
def schar (c : UInt8) : Int := if c.toNat < 128 then c.toNat else c.toNat - 256

/-- The checksum of a header, with its own bytes counted as blanks, by either sum. -/
def checksumOk (h : List UInt8) : Bool :=
  let want := octal (field h 148 8) 0
  let h := h.take 148 ++ List.replicate 8 32 ++ h.drop 156
  (h.map UInt8.toNat).sum = want ∨ (h.map schar).sum = (want : Int)

/-- Behind the first slash. -/
def afterSlash : Str → Option Str
  | [] => none
  | c :: cs => if c = slash then some cs else afterSlash cs

/-- Without so many leading components. -/
def stripped : Nat → Str → Option Str
  | 0, s => some s
  | n + 1, s => (afterSlash s).bind (stripped n)

/-- What a header says. `rel` and `lrel` are left of `full` and `linkname` after the stripping. -/
structure Member where
  rel : Option Str
  linkname : Str
  lrel : Option Str
  size : Nat
  mode : Nat
  mtime : Nat
  type : UInt8
deriving DecidableEq

def member (strip : Nat) (h : List UInt8) : Member :=
  let name := cstr (field h 0 100)
  let full := if h.getD 345 0 ≠ 0 then cstr (field h 345 155) ++ slash :: name else name
  { rel := stripped strip full
    linkname := cstr (field h 157 100)
    lrel := stripped strip (cstr (field h 157 100))
    size := octal (field h 124 12) 0
    mode := octal (field h 100 8) 0
    mtime := octal (field h 136 12) 0
    type := h.getD 156 0 }

/-! ## The files of the system -/

/-- What a file has apart from its names; no `stamp` is the time at which it was written. -/
structure Inode where
  mode : Nat
  content : List UInt8
  stamp : Option Nat
deriving DecidableEq

/-- The tree, where a directory has its mode and a file its inode; the inodes; and the first of them
that is free. -/
structure Files where
  world : Links.World Str Nat Nat
  inodes : Nat → Inode
  next : Nat

/-- How `untar` is called, and from where. -/
structure Env where
  dest : Str
  strip : Nat
  cwd : Links.Place Str
  umask : Nat

def path (p : Str) : Links.Route Str := Paths.route slash dot p

/-- `snprintf` of `"%s/%s"` into 4096 bytes. -/
def Env.under (env : Env) (rel : Str) : Str := (env.dest ++ slash :: rel).take 4095

def Env.mkdir (env : Env) (w : Links.World Str Nat Nat) (p : Str) (mode : Nat) :
    Links.World Str Nat Nat :=
  w.after (Links.mkdir w.tree env.cwd (path p) (Nat.ldiff mode env.umask))

def Env.unlink (env : Env) (w : Links.World Str Nat Nat) (p : Str) : Links.World Str Nat Nat :=
  w.after (Links.unlink w.tree env.cwd (path p))

/-- One turn of `mkparents_nofollow`: `lstat`, and a directory where there is none. -/
def mkparent (env : Env) (w : Links.World Str Nat Nat) (p : Str) : Links.World Str Nat Nat :=
  match Links.spot w.tree false env.cwd (path p) with
  | none => env.mkdir w p 0o755
  | some s =>
    if s.last = none then w
    else
      match w.tree s.place with
      | some (.dir _) => w
      | some (.file _) | some (.link _) => env.mkdir (env.unlink w p) p 0o755
      | none => env.mkdir w p 0o755

/-- `mkparents_nofollow`: the search for slashes begins behind the first byte. -/
def mkparentsNofollow (env : Env) (w : Links.World Str Nat Nat) (p : Str) :
    Links.World Str Nat Nat :=
  (Paths.fronts slash (p.take 1) (p.drop 1)).foldl (mkparent env) w

/-- The way to a member is made, and what has its name goes. -/
def makeWay (env : Env) (w : Links.World Str Nat Nat) (p : Str) : Links.World Str Nat Nat :=
  env.unlink (mkparentsNofollow env w p) p

/-- `open` for writing, with `O_CREAT` and `O_TRUNC`: the inode. -/
def Files.openWrite (env : Env) (f : Files) (behind : Bool) (p : Str) (mode : Nat) :
    Option (Nat × Files) :=
  (Links.create f.world.tree behind env.cwd (path p) f.next).map fun r =>
    let i := r.2.1
    let old : Inode := if i = f.next then ⟨Nat.ldiff mode env.umask, [], none⟩ else f.inodes i
    (i, { world := ⟨r.2.2, f.world.log ++ [r.1]⟩
          inodes := Function.update f.inodes i { old with content := [], stamp := none }
          next := max f.next (i + 1) })

def Files.write (f : Files) (i : Nat) (data : List UInt8) : Files :=
  { f with inodes := Function.update f.inodes i { f.inodes i with content := data } }

/-- `fchmod`. -/
def Files.chmod (f : Files) (i mode : Nat) : Files :=
  { f with inodes := Function.update f.inodes i { f.inodes i with mode } }

/-- `utime`. -/
def Files.utime (env : Env) (f : Files) (p : Str) (mtime : Nat) : Files :=
  match Links.change f.world.tree env.cwd (path p) id with
  | none => f
  | some (s, t) =>
    { f with
      world := ⟨t, f.world.log ++ [s]⟩
      inodes :=
        match f.world.tree s.place with
        | some (.file i) => Function.update f.inodes i { f.inodes i with stamp := some mtime }
        | _ => f.inodes }

/-- `fopen` for reading: the inode, unless there is nothing to read. -/
def openRead (env : Env) (t : Links.Tree Str Nat Nat) (p : Str) : Option Nat :=
  (Links.spot t true env.cwd (path p)).bind fun s =>
    match t s.place with
    | some (.file i) => if s.last.isSome then some i else none
    | _ => none

/-! ## Members -/

def makeDirectory (env : Env) (f : Files) (p : Str) (mode : Nat) : Files :=
  let w := mkparentsNofollow env f.world p
  { f with world := env.mkdir w p (if mode ≠ 0 then mode &&& 0o777 else 0o755) }

/-- No link has an empty target. -/
def makeSymlink (env : Env) (f : Files) (p linkname : Str) : Files :=
  let w := makeWay env f.world p
  { f with
    world :=
      if linkname = [] then w else w.after (Links.symlink w.tree env.cwd (path p) (path linkname)) }

/-- A hard link, or a copy of what `tgt` leads to. -/
def makeHardlink (env : Env) (f : Files) (refused : Bool) (p tgt : Str) : Files :=
  let w := makeWay env f.world p
  match if refused then none else Links.link w.tree env.cwd (path tgt) (path p) with
  | some r => { f with world := w.after (some r) }
  | none =>
    let si := openRead env w.tree tgt
    match { f with world := w }.openWrite env true p 0o666 with
    | none => { f with world := w }
    | some (so, f) =>
      match si with
      | some si => f.write so (f.inodes si).content
      | none => f

/-- A regular file, as far as the archive has its blocks, and whether it has them all. -/
def makeRegular (env : Env) (f : Files) (p : Str) (m : Member) (inn : List UInt8) : Files × Bool :=
  let blocks := (m.size + 511) / 512
  let mode := if m.mode ≠ 0 then m.mode &&& 0o777 else 0o644
  match { f with world := makeWay env f.world p }.openWrite env false p mode with
  | none => ({ f with world := makeWay env f.world p }, false)
  | some (fd, f) =>
    let f := f.write fd (inn.take (min m.size (512 * (inn.length / 512))))
    if inn.length < 512 * blocks then (f, false)
    else
      let f := f.chmod fd mode
      (if m.mtime ≠ 0 then f.utime env p m.mtime else f, true)

/-! ## The loop -/

/-- The state of `untar`; `ret` is there when it has returned. -/
structure Reader where
  inn : List UInt8
  files : Files
  ret : Option Int

/-- So many blocks are read and not used. -/
def Reader.skip (s : Reader) (blocks : Nat) : Reader :=
  if s.inn.length < 512 * blocks then { s with ret := some (-1) }
  else { s with inn := s.inn.drop (512 * blocks) }

/-- What is done with a member. -/
def Reader.take (env : Env) (s : Reader) (refused : Bool) (m : Member) : Reader :=
  let blocks := (m.size + 511) / 512
  match m.rel with
  | none => s.skip blocks
  | some rel =>
    if unsafeRel rel then s.skip blocks
    else
      let p := env.under rel
      if m.type = 53 then { s with files := makeDirectory env s.files p m.mode }
      else if m.type = 50 then { s with files := makeSymlink env s.files p m.linkname }
      else if m.type = 49 then
        match m.lrel with
        | none => s
        | some lrel =>
          if unsafeRel lrel then s
          else { s with files := makeHardlink env s.files refused p (env.under lrel) }
      else if m.type = 48 ∨ m.type = 0 then
        let (files, whole) := makeRegular env s.files p m s.inn
        if whole then { s with files, inn := s.inn.drop (512 * blocks) }
        else { s with files, ret := some (-1) }
      else s.skip blocks

/-- What the next block comes to: the end, or a member. -/
inductive Header
  | stop (ret : Int)
  | member (m : Member)
deriving DecidableEq

def readHeader (strip : Nat) (inn : List UInt8) : Header :=
  let h := inn.take 512
  if h.length ≠ 512 then .stop 0
  else if h.all (· = 0) then .stop 0
  else if !checksumOk h then .stop (-1)
  else .member (member strip h)

/-- One turn of the loop. -/
def turn (env : Env) (s : Reader) (refused : Bool) : Option Reader :=
  if s.ret.isSome then none
  else
    match readHeader env.strip s.inn with
    | .stop ret => some { s with ret := some ret }
    | .member m => some ({ s with inn := s.inn.drop 512 }.take env refused m)

/-- `untar` sets out. -/
def Reader.start (archive : List UInt8) (t : Links.Tree Str Nat Nat) (inodes : Nat → Inode)
    (next : Nat) : Reader :=
  ⟨archive, ⟨⟨t, []⟩, inodes, next⟩, none⟩

end Verkos.Vpk.Untar
