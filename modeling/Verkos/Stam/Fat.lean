import Verkos.Lib.Blocks

/-!
# The filesystem on the disk

`fat.c`: a FAT32 volume, read and written a sector at a time. Sectors are counted from where the
volume starts. The table says of each cluster which one follows it in its file, a directory is a
file of 32-byte entries, and every function finds what it needs by reading again.

The functions are programs over the device and do what the source does in its order, with the
variables `fat_mount` sets in `Geo`. The loops that follow a chain take as an argument how many
clusters they may follow; a loop that would go on is stuck. `junk` is what the kernel stack holds
where a buffer for a long name is put.
-/

namespace Verkos.Stam.Fat

open Verkos.Lib

/-- The bytes of a sector by offset. -/
abbrev Sector := Nat → UInt8

abbrev Volume := Nat → Sector

/-- What a sector is written for: an entry of the table, a cluster's contents, FSInfo. -/
inductive Part where
  | table | data | info
deriving DecidableEq, Repr

abbrev Io := Blocks Sector Part

open Blocks (reading writing)

/-! ## Numbers in a sector -/

def rd16 (p : Sector) (o : Nat) : Nat := (p o).toNat + 256 * (p (o + 1)).toNat

def rd32 (p : Sector) (o : Nat) : Nat :=
  (p o).toNat + 256 * (p (o + 1)).toNat + 65536 * (p (o + 2)).toNat + 16777216 * (p (o + 3)).toNat

def wr16 (p : Sector) (o v : Nat) : Sector := fun i =>
  if i = o then UInt8.ofNat v else if i = o + 1 then UInt8.ofNat (v / 256) else p i

def wr32 (p : Sector) (o v : Nat) : Sector := fun i =>
  if i = o then UInt8.ofNat v
  else if i = o + 1 then UInt8.ofNat (v / 256)
  else if i = o + 2 then UInt8.ofNat (v / 65536)
  else if i = o + 3 then UInt8.ofNat (v / 16777216)
  else p i

/-! ## The volume -/

/-- The variables `fat_mount` sets. A sector has 512 bytes on every volume it accepts. -/
structure Geo where
  secPerClus : Nat
  fatStart : Nat
  fatsz : Nat
  nfats : Nat
  firstDataSec : Nat
  totalClus : Nat
  rootClus : Nat
  fsinfoSec : Nat

/-- `fat_mount`, from where the volume starts. The sums are in 32 bits. -/
def fatMount : Io (Option Geo) :=
  reading 0 none fun b =>
    if b 510 ≠ 0x55 ∨ b 511 ≠ 0xaa then .done none
    else
      let secPerClus := (b 13).toNat
      let reserved := rd16 b 14
      let nfats := (b 16).toNat
      let fatsz := rd32 b 36
      let rootClus := rd32 b 44
      let totsec := rd32 b 32
      if rd16 b 11 ≠ 512 ∨ secPerClus = 0 ∨ fatsz = 0 ∨ nfats = 0 ∨ rootClus < 2 then .done none
      else
        let firstDataSec := (reserved + nfats * fatsz) % 2 ^ 32
        .done (some {
          secPerClus, fatStart := reserved, fatsz, nfats, firstDataSec
          totalClus := ((totsec + (2 ^ 32 - firstDataSec)) % 2 ^ 32 / secPerClus + 2) % 2 ^ 32
          rootClus, fsinfoSec := rd16 b 48 })

/-- `fat_file_t`. -/
structure Handle where
  cluster : Nat
  size : Nat
  isDir : Bool
  dirSec : Nat
  dirOff : Nat
deriving DecidableEq, Repr

section Table

variable (g : Geo)

/-- Bytes of a cluster. -/
def Geo.clusterBytes : Nat := g.secPerClus * 512

/-- `clus_sector`. The subtraction is in 32 bits. -/
def clusSector (c : Nat) : Nat := g.firstDataSec + (c + (2 ^ 32 - 2)) % 2 ^ 32 * g.secPerClus

/-- The entry of a cluster in each copy of the table that is listed. -/
def fatSetIn (c v : Nat) : List Nat → Io Bool
  | [] => .done true
  | k :: ks =>
    let s := g.fatStart + k * g.fatsz + c * 4 / 512
    reading s false fun b =>
      let old := rd32 b (c * 4 % 512)
      writing .table s (wr32 b (c * 4 % 512) ((old &&& 0xf0000000) ||| (v &&& 0x0fffffff))) false
        (fatSetIn c v ks)

/-- `fat_set`. -/
def fatSet (c v : Nat) : Io Bool :=
  if c < 2 ∨ g.totalClus ≤ c then .done false else fatSetIn g c v (List.range g.nfats)

/-- The listed sectors of a cluster, cleared. -/
def clearSectors (c : Nat) : List Nat → Io Bool
  | [] => .done true
  | s :: ss => writing .data (clusSector g c + s) (fun _ => 0) false (clearSectors c ss)

/-- The loop of `clus_alloc`, over the clusters that are left, with the sector of the table that was
read last. -/
def clusAllocFrom : List Nat → Option (Nat × Sector) → Io Nat
  | [], _ => .done 0
  | c :: cs, cached =>
    let s := g.fatStart + c * 4 / 512
    let look (b : Sector) : Io Nat :=
      if rd32 b (c * 4 % 512) % 2 ^ 28 ≠ 0 then clusAllocFrom cs (some (s, b))
      else do
        if ← fatSet g c 0x0ffffff8 then
          if ← clearSectors g c (List.range g.secPerClus) then pure c else pure 0
        else pure 0
    match cached with
    | some (s', b) => if s' = s then look b else reading s 0 look
    | none => reading s 0 look

/-- `clus_alloc`. -/
def clusAlloc : Io Nat := clusAllocFrom g (List.range' 2 (g.totalClus - 2)) none

/-- `fat_sync`, on a mounted volume. -/
def fatSync : Io Unit :=
  if g.fsinfoSec = 0 then .done ()
  else reading g.fsinfoSec () fun b =>
    if rd32 b 0 ≠ 0x41615252 then .done ()
    else writing .info g.fsinfoSec (wr32 (wr32 b 488 0xffffffff) 492 0xffffffff) () (.done ())

/-- `fat_next`. -/
def fatNext (c : Nat) : Io Nat :=
  if c < 2 ∨ g.totalClus ≤ c then .done 0
  else reading (g.fatStart + c * 4 / 512) 0 fun b =>
    let v := rd32 b (c * 4 % 512) % 2 ^ 28
    .done (if 0x0ffffff8 ≤ v ∨ v < 2 then 0 else v)

/-- The loop that gives a chain back to the free clusters. -/
def freeChain : Nat → Nat → Io Unit
  | 0, _ => .stuck
  | n + 1, c =>
    if c = 0 then .done ()
    else do
      let next ← fatNext g c
      if ← fatSet g c 0 then freeChain n next else pure ()

end Table

/-! ## Names -/

def upper (b : UInt8) : UInt8 := if 97 ≤ b ∧ b ≤ 122 then b - 32 else b

/-- What a C string holds. -/
def cstr (l : List UInt8) : List UInt8 := l.takeWhile (· != 0)

/-- `name_eq`. -/
def nameEq (a b : List UInt8) : Bool := (cstr a).map upper == (cstr b).map upper

/-- Up to the first blank. -/
def unpad (l : List UInt8) : List UInt8 := l.takeWhile (· != 32)

/-- `short_name` of a directory entry. -/
def shortName (e : Sector) : List UInt8 :=
  unpad ((List.range 8).map e) ++
    if e 8 = 32 then [] else 46 :: unpad ((List.range 3).map fun i => e (8 + i))

/-- `lfn_chars`: where the thirteen characters of a long-name entry are. -/
def lfnOffsets : List Nat := [1, 3, 5, 7, 9, 14, 16, 18, 20, 22, 24, 28, 30]

def lfnChar (e : Sector) (i : Nat) : UInt8 :=
  let u := rd16 e (lfnOffsets.getD i 0)
  if u = 0 ∨ u = 0xffff then 0 else UInt8.ofNat (u % 256)

/-- The buffer a long name is put together in, and how much of it counts. -/
structure Lfn where
  buf : Nat → UInt8
  len : Nat

/-- A long-name entry: thirteen characters, where its number says. -/
def Lfn.part (l : Lfn) (e : Sector) : Lfn :=
  let seq := (e 0).toNat % 64
  if 1 ≤ seq ∧ seq ≤ 20 then
    let at' := (seq - 1) * 13
    { buf := fun i =>
        if i = 260 then 0 else if at' ≤ i ∧ i < at' + 13 then lfnChar e (i - at') else l.buf i
      len := max l.len (at' + 13) }
  else l

def Lfn.forget (l : Lfn) : Lfn := { l with len := 0 }

/-- The name that was put together, if any. -/
def Lfn.name (l : Lfn) : List UInt8 := cstr ((List.range (min l.len 260)).map l.buf)

/-- Where the last dot of a name is. -/
def lastDot (name : List UInt8) : Option Nat :=
  ((List.range name.length).reverse.find? fun i => name.getD i 0 == 46)

/-- The loop of `make_83`, from character `i` on, with what is before and behind the dot so far. -/
def make83From (dot : Option Nat) : Nat → List UInt8 → List UInt8 → List UInt8 →
    Option (List UInt8 × List UInt8)
  | _, base, ext, [] => some (base, ext)
  | i, base, ext, b :: rest =>
    if upper b = 47 ∨ upper b = 0 then none
    else if dot = some i then make83From dot (i + 1) base ext rest
    else if dot.any (· < i) then
      if 3 ≤ ext.length then none else make83From dot (i + 1) base (ext ++ [upper b]) rest
    else
      if 8 ≤ base.length then none else make83From dot (i + 1) (base ++ [upper b]) ext rest

/-- So many characters, blanks behind the name. -/
def pad (n : Nat) (l : List UInt8) : List UInt8 := l ++ List.replicate (n - l.length) 32

/-- `make_83`. -/
def make83 (name : List UInt8) : Option (List UInt8) :=
  match make83From (lastDot name) 0 [] [] name with
  | none => none
  | some (base, ext) => if base = [] then none else some (pad 8 base ++ pad 3 ext)

/-- The components of a path as `fat_open` cuts them, with what it has of the first one. One of more
than 63 characters is cut in the middle. -/
def components : List UInt8 → List UInt8 → List (List UInt8)
  | [], [] => []
  | [], part => [part]
  | b :: rest, part =>
    if b = 47 then
      if part = [] then components rest [] else part :: components rest []
    else if part.length = 63 then part :: components rest [b]
    else components rest (part ++ [b])

def skipSlashes (path : List UInt8) : List UInt8 := path.dropWhile (· == 47)

/-- What is behind the last slash of a path. -/
def lastPart (path : List UInt8) : List UInt8 := (path.reverse.takeWhile (· != 47)).reverse

/-- What is before the last slash of a path, as far as there is room for it; none without a slash. -/
def parentPart (path : List UInt8) : Option (List UInt8) :=
  if 47 ∈ path then some ((path.take (path.length - (lastPart path).length - 1)).take 127) else none

/-! ## Directories -/

/-- What a directory entry is. -/
inductive Entry where
  | fin | deleted | long | label | live
deriving DecidableEq, Repr

def classify (e : Sector) : Entry :=
  if e 0 = 0x00 then .fin
  else if e 0 = 0xe5 then .deleted
  else if (e 11).toNat % 16 = 15 then .long
  else if (e 11).toNat / 8 % 2 = 1 then .label
  else .live

/-- The entry at an offset of a sector. -/
def entryAt (b : Sector) (o : Nat) : Sector := fun k => b (o + k)

/-- What an entry makes of a walk: it goes on, or is at its end. -/
inductive Step (σ α : Type) where
  | next (st : σ)
  | stop (a : α)

/-- How a walk ends: at the end of the chain, where it wanted to, or at a sector that cannot be
read. -/
inductive Walk (σ α : Type) where
  | ended (st : σ)
  | stopped (a : α)
  | failed

/-- Where an entry is: its cluster, its sector and its offset in that. -/
structure Spot where
  clus : Nat
  sec : Nat
  off : Nat

section Walks

variable (g : Geo) {σ α : Type} (body : σ → Spot → Sector → Step σ α)

/-- The entries of a sector, from those of the listed offsets on. -/
def walkSector (clus sec : Nat) (b : Sector) : List Nat → σ → Step σ α
  | [], st => .next st
  | o :: os, st =>
    match body st ⟨clus, sec, o⟩ b with
    | .next st => walkSector clus sec b os st
    | .stop a => .stop a

/-- The sixteen entries of a sector. -/
def offsets : List Nat := (List.range 16).map (32 * ·)

/-- The listed sectors of a cluster. -/
def walkCluster (c : Nat) : List Nat → σ → Io (Walk σ α)
  | [], st => .done (.ended st)
  | s :: ss, st =>
    reading (clusSector g c + s) .failed fun b =>
      match walkSector body c (clusSector g c + s) b offsets st with
      | .next st => walkCluster c ss st
      | .stop a => .done (.stopped a)

/-- The loops of `dir_find`, `fat_dirent` and `fat_create` over a directory. -/
def dirWalk : Nat → Nat → σ → Io (Walk σ α)
  | 0, _, _ => .stuck
  | n + 1, c, st =>
    if c = 0 then .done (.ended st)
    else do
      match ← walkCluster g body c (List.range g.secPerClus) st with
      | .ended st => do
        let c' ← fatNext g c
        dirWalk n c' st
      | r => pure r

end Walks

/-- The first cluster an entry names. -/
def entryCluster (e : Sector) : Nat := rd16 e 20 * 65536 + rd16 e 26

/-- The entry as `dir_find` hands it back. A cluster below two is no chain to follow. -/
def handleAt (at' : Spot) (e : Sector) : Handle where
  cluster := if entryCluster e < 2 then 0 else entryCluster e
  size := rd32 e 28
  isDir := (e 11).toNat / 16 % 2 == 1
  dirSec := at'.sec
  dirOff := at'.off

/-- Does an entry answer to a name, with what was put together before it? -/
def answers (name : List UInt8) (l : Lfn) (e : Sector) : Bool :=
  nameEq (shortName e) name || (l.name != [] && nameEq l.name name)

/-- The body of `dir_find`'s loop. -/
def findBody (name : List UInt8) (l : Lfn) (at' : Spot) (b : Sector) : Step Lfn (Option Handle) :=
  let e := entryAt b at'.off
  match classify e with
  | .fin => .stop none
  | .deleted => .next l.forget
  | .long => .next (l.part e)
  | .label => .next l.forget
  | .live => if answers name l e then .stop (some (handleAt at' e)) else .next l.forget

/-- What `fat_dirent` reports of an entry. -/
structure Listed where
  name : List UInt8
  size : Nat
  isDir : Bool
deriving DecidableEq, Repr

def listed (l : Lfn) (e : Sector) : Listed where
  name := if l.name = [] then shortName e else l.name
  size := rd32 e 28
  isDir := (e 11).toNat / 16 % 2 == 1

/-- The body of `fat_dirent`'s loop: how many live entries were seen, and the long name. -/
def direntBody (index : Nat) (st : Nat × Lfn) (at' : Spot) (b : Sector) :
    Step (Nat × Lfn) (Option Listed) :=
  let e := entryAt b at'.off
  match classify e with
  | .fin => .stop none
  | .deleted => .next (st.1, st.2.forget)
  | .long => .next (st.1, st.2.part e)
  | .label => .next (st.1, st.2.forget)
  | .live => if st.1 = index then .stop (some (listed st.2 e)) else .next (st.1 + 1, st.2.forget)

/-- The body of `fat_create`'s loop: a slot that is free, and the cluster reached. -/
def freeBody (_ : Nat) (at' : Spot) (b : Sector) : Step Nat (Spot × Sector) :=
  if b at'.off ≠ 0x00 ∧ b at'.off ≠ 0xe5 then .next at'.clus else .stop (at', b)

section Files

variable (g : Geo) (fuel : Nat) (junk : Nat → UInt8)

/-- `dir_find`. -/
def dirFind (dir : Nat) (name : List UInt8) : Io (Option Handle) := do
  match ← dirWalk g (findBody name) fuel dir ⟨junk, 0⟩ with
  | .stopped r => pure r
  | _ => pure none

/-- The root directory, which has no entry of its own. -/
def rootHandle : Handle := ⟨g.rootClus, 0, true, 0, 0⟩

/-- Where the chain of a directory starts. The root may be named by zero. -/
def dirStart (h : Handle) : Nat := if h.cluster ≠ 0 then h.cluster else g.rootClus

/-- The loop of `fat_open`. -/
def openFrom : List (List UInt8) → Handle → Io (Option Handle)
  | [], cur => .done (some cur)
  | part :: parts, cur =>
    if cur.isDir = false then .done none
    else do
      match ← dirFind g fuel junk (dirStart g cur) part with
      | none => pure none
      | some cur => openFrom parts cur

/-- `fat_open`. -/
def fatOpen (path : List UInt8) : Io (Option Handle) :=
  openFrom g fuel junk (components (skipSlashes path) []) (rootHandle g)

/-- The loop of `fat_read`: `n` bounds the rounds, `rest` bytes are wanted still. -/
def readLoop : Nat → Nat → Nat → Nat → List UInt8 → Io (Int × List UInt8)
  | 0, _, _, _, got => .done (got.length, got)
  | n + 1, c, within, rest, got =>
    if rest = 0 ∨ c = 0 then .done (got.length, got)
    else
      reading (clusSector g c + within / 512) (if got = [] then (-1, []) else (got.length, got))
        fun b =>
          let take := min (512 - within % 512) rest
          let got' := got ++ (List.range take).map fun i => b (within % 512 + i)
          if g.clusterBytes ≤ within + take then do
            let c' ← fatNext g c
            readLoop n c' 0 (rest - take) got'
          else readLoop n c (within + take) (rest - take) got'

/-- `while (skip-- && c) c = fat_next(c);` -/
def skipClus : Nat → Nat → Io Nat
  | 0, c => .done c
  | n + 1, c =>
    if c = 0 then .done 0
    else do
      let c' ← fatNext g c
      skipClus n c'

/-- `fat_read`: what it returns and what it has put into the buffer. -/
def fatRead (f : Handle) (off len : Nat) : Io (Int × List UInt8) :=
  if f.isDir then .done (-1, [])
  else if f.size ≤ off then .done (0, [])
  else do
    let rest := if f.size < (off + len) % 2 ^ 64 then f.size - off else len
    let c ← skipClus g (off / g.clusterBytes) f.cluster
    readLoop g rest c (off % g.clusterBytes) rest []

/-- `dir_writeback`. -/
def dirWriteback (f : Handle) : Io Bool :=
  if f.dirSec = 0 then .done false
  else reading f.dirSec false fun b =>
    writing .data f.dirSec
      (wr16 (wr16 (wr32 b (f.dirOff + 28) f.size) (f.dirOff + 20) (f.cluster / 65536))
        (f.dirOff + 26) (f.cluster % 65536)) false (.done true)

/-- A free cluster linked behind `c`, or zero. -/
def linkNew (c : Nat) : Io Nat := do
  let n ← clusAlloc g
  if n = 0 then pure 0
  else if ← fatSet g c n then pure n else pure 0

/-- The cluster behind `c`, a new one if there is none. -/
def nextOrNew (c : Nat) : Io Nat := do
  let n ← fatNext g c
  if n = 0 then linkNew g c else pure n

/-- The walk to the cluster a write starts in. -/
def extendTo : Nat → Nat → Io Nat
  | 0, c => .done c
  | k + 1, c => do
    let n ← nextOrNew g c
    if n = 0 then pure 0 else extendTo k n

/-- Bytes put over those of a sector from an offset on. -/
def put (b : Sector) (o : Nat) (l : List UInt8) : Sector := fun i =>
  if o ≤ i ∧ i < o + l.length then l.getD (i - o) 0 else b i

/-- The loop of `fat_write`: `k` bounds the rounds, `src` is what is left to write and `n` how much
is written. The answer says also whether the loop came to its end, or stopped at a sector that could
not be read or written. -/
def writeLoop : Nat → Nat → Nat → List UInt8 → Nat → Io (Nat × Bool)
  | 0, _, _, _, n => .done (n, true)
  | k + 1, c, within, src, n =>
    if src = [] then .done (n, true)
    else
      let take := min (512 - within % 512) src.length
      let sec := clusSector g c + within / 512
      let go (b : Sector) : Io (Nat × Bool) :=
        writing .data sec (put b (within % 512) (src.take take)) (n, false)
          (if take < src.length ∧ g.clusterBytes ≤ within + take then do
            let m ← nextOrNew g c
            if m = 0 then pure (n + take, true)
            else writeLoop k m 0 (src.drop take) (n + take)
          else writeLoop k c (within + take) (src.drop take) (n + take))
      if take ≠ 512 then reading sec (n, false) go else go fun _ => 0

/-- `done ? (long)done : -1`. -/
def partly (n : Nat) : Int := if n = 0 then -1 else n

/-- `fat_write`: what it returns and the handle it leaves. -/
def fatWrite (f : Handle) (off : Nat) (buf : List UInt8) : Io (Int × Handle) :=
  if f.isDir ∨ f.dirSec = 0 then .done (-1, f)
  else if buf = [] then .done (0, f)
  else if f.size < off then .done (-1, f)
  else do
    let c₀ ← if f.cluster = 0 then clusAlloc g else pure f.cluster
    let f := { f with cluster := c₀ }
    if c₀ = 0 then pure (-1, f)
    else
      let c ← extendTo g (off / g.clusterBytes) c₀
      if c = 0 then pure (-1, f)
      else
        let (n, whole) ← writeLoop g buf.length c (off % g.clusterBytes) buf 0
        if whole = false then pure (partly n, f)
        else
          let f := { f with size := if f.size < off + n then (off + n) % 2 ^ 32 else f.size }
          if ← dirWriteback f then pure (n, f) else pure (partly n, f)

/-- `fat_truncate`. -/
def fatTruncate (f : Handle) : Io (Bool × Handle) :=
  if f.isDir ∨ f.dirSec = 0 then .done (false, f)
  else do
    freeChain g fuel f.cluster
    let f := { f with cluster := 0, size := 0 }
    let ok ← dirWriteback f
    pure (ok, f)

/-- An entry with a name and an attribute, and nothing else. -/
def newEntry (b : Sector) (o : Nat) (name : List UInt8) (attr : UInt8) : Sector := fun i =>
  if o ≤ i ∧ i < o + 32 then
    if i < o + 11 then name.getD (i - o) 0 else if i = o + 11 then attr else 0
  else b i

/-- `fat_create`. -/
def fatCreate (path : List UInt8) : Io (Option Handle) := do
  match ← fatOpen g fuel junk path with
  | some _ => pure none
  | none =>
    let path := skipSlashes path
    let dir ← match parentPart path with
      | none => pure (some g.rootClus)
      | some parent => do
        match ← fatOpen g fuel junk parent with
        | none => pure none
        | some d => pure (if d.isDir then some (dirStart g d) else none)
    match dir, make83 (lastPart path) with
    | none, _ => pure none
    | some _, none => pure none
    | some dir, some name =>
      match ← dirWalk g freeBody fuel dir dir with
      | .failed => pure none
      | .stopped (at', b) =>
        writing .data at'.sec (newEntry b at'.off name 0x20) none
          (.done (some ⟨0, 0, false, at'.sec, at'.off⟩))
      | .ended last =>
        let nc ← linkNew g last
        if nc = 0 then pure none
        else
          reading (clusSector g nc) none fun b =>
            writing .data (clusSector g nc) (newEntry b 0 name 0x20) none
              (.done (some ⟨0, 0, false, clusSector g nc, 0⟩))

/-- `fat_dirent`. -/
def fatDirent (dir : Handle) (index : Nat) : Io (Option Listed) :=
  if dir.isDir = false then .done none
  else do
    match ← dirWalk g (direntBody index) fuel (dirStart g dir) (0, ⟨junk, 0⟩) with
    | .stopped r => pure r
    | _ => pure none

/-- A first cluster, in an entry at an offset of a sector. -/
def setCluster (b : Sector) (o c : Nat) : Sector :=
  wr16 (wr16 b (o + 20) (c / 65536)) (o + 26) (c % 65536)

/-- The first sector of a new directory: `.` and `..`. -/
def dotEntries (c parent : Nat) : Sector :=
  setCluster
    (newEntry
      (setCluster (newEntry (fun _ => 0) 0 (46 :: List.replicate 10 32) 0x10) 0 c)
      32 (46 :: 46 :: List.replicate 9 32) 0x10)
    32 parent

/-- `fat_mkdir`. -/
def fatMkdir (path : List UInt8) : Io Bool := do
  match ← fatCreate g fuel junk path with
  | none => pure false
  | some d =>
    let c ← clusAlloc g
    if c = 0 then pure false
    else
      let parent ← match parentPart (skipSlashes path) with
        | none => pure g.rootClus
        | some pn => do
          match ← fatOpen g fuel junk pn with
          | none => pure g.rootClus
          | some pf => pure (if pf.isDir then pf.cluster else g.rootClus)
      writing .data (clusSector g c)
        (dotEntries c (if parent = g.rootClus then 0 else parent)) false
        (reading d.dirSec false fun b =>
          writing .data d.dirSec
            (setCluster (wr32 (Function.update b (d.dirOff + 11) 0x10) (d.dirOff + 28) 0)
              d.dirOff c) false (.done true))

/-- The loop of `fat_unlink` over a directory: does it hold anything but `.` and `..`? -/
def isEmptyFrom (f : Handle) : Nat → Nat → Io Bool
  | 0, _ => .stuck
  | n + 1, i => do
    match ← fatDirent g fuel junk f i with
    | none => pure true
    | some x =>
      if nameEq x.name [46] || nameEq x.name [46, 46] then isEmptyFrom f n (i + 1) else pure false

/-- `fat_unlink`. -/
def fatUnlink (path : List UInt8) : Io Bool := do
  match ← fatOpen g fuel junk path with
  | none => pure false
  | some f =>
    if f.dirSec = 0 then pure false
    else
      let empty ← if f.isDir then isEmptyFrom g fuel junk f (fuel * g.secPerClus * 16 + 1) 0
        else pure true
      if empty = false then pure false
      else do
        freeChain g fuel f.cluster
        reading f.dirSec false fun b =>
          writing .data f.dirSec (Function.update b f.dirOff 0xe5) false (.done true)

end Files

end Verkos.Stam.Fat
