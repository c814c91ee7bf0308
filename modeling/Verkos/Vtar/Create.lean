import Verkos.Vtar.Fs
import Verkos.Lib.Digits

/-!
# Creating a tar archive

`add_path` writes a header for what a path leads to, and after it the contents of a file in blocks
of 512 or the entries of a directory, each by its own path. A path that leads nowhere is reported.
-/

namespace Verkos.Vtar

open Lib.Digits

/-- A tree of directories and files, with their owners. -/
structure Source where
  fs : Fs
  owner : Path → Nat × Nat
  root : fs [] = none
  parent : ∀ p c, fs (p ++ [c]) ≠ none → fs.isDir p
  name : ∀ p c, fs (p ++ [c]) ≠ none →
    c ≠ [] ∧ c ≠ dot ∧ c ≠ dotdot ∧ slash ∉ c ∧ 0 ∉ c ∧ c.length ≤ nameMax
  stat : ∀ p mode mtime content, fs p = some (.file mode mtime content) →
    mode < 0o10000 ∧ content.length < 2 ^ 63

/-- The order in which `readdir` has the names of a directory, and that of the names at the top,
which are what tar is given. -/
structure Listing (src : Source) where
  readdir : Path → List Str
  files : List Str
  readdir_mem : ∀ p, src.fs.isDir p →
    ∀ c, c ∈ readdir p ↔ c = dot ∨ c = dotdot ∨ src.fs (p ++ [c]) ≠ none
  readdir_nodup : ∀ p, (readdir p).Nodup
  files_mem : ∀ c, c ∈ files ↔ src.fs [c] ≠ none
  files_nodup : files.Nodup

/-- A digit. -/
def digit (d : Nat) : UInt8 := UInt8.ofNat (48 + d)

/-- `%0*lo` with a width of `w`, of a 64-bit number. -/
def octalText (w n : Nat) : List Nat :=
  if n < 8 ^ w then digits 8 w n else (digits 8 22 n).dropWhile (· = 0)

/-- `octal`, with the NUL that the field has after it. -/
def octal (width : Nat) (v : Int) : List UInt8 :=
  ((octalText (width - 1) (v % 2 ^ 64).toNat).take (width - 1)).map digit ++ [0]

/-- A field of text, with NULs after it. -/
def text (width : Nat) (s : Str) : List UInt8 := s ++ List.replicate (width - s.length) 0

/-- `"ustar"`, its NUL and `"00"`. -/
def ustar : List UInt8 := [117, 115, 116, 97, 114, 0, 48, 48]

def sumBytes (h : List UInt8) : Nat := (h.map UInt8.toNat).sum

/-- What `put_header` puts into a header. -/
structure Stat where
  mode : Nat
  uid : Nat
  gid : Nat
  size : Nat
  mtime : Int

def regType : UInt8 := 48

def dirType : UInt8 := 53

/-- `nm`. -/
def headerName (name : Str) (type : UInt8) : Str :=
  (if type = dirType ∧ name.getLast? ≠ some slash then name ++ [slash] else name).take 254

/-- The 512 bytes, with a checksum or with the spaces that stand for it. -/
def headerBytes (name : Str) (st : Stat) (type : UInt8) (chksum : List UInt8) : List UInt8 :=
  text 100 ((headerName name type).take 99) ++ octal 8 ((st.mode &&& 0o7777 : Nat) : Int) ++
    octal 8 st.uid ++ octal 8 st.gid ++ octal 12 (if type = dirType then 0 else st.size) ++
    octal 12 st.mtime ++ chksum ++ [type] ++ List.replicate 100 0 ++ ustar ++ List.replicate 247 0

/-- `put_header`. -/
def putHeader (name : Str) (st : Stat) (type : UInt8) : List UInt8 :=
  let sum := sumBytes (headerBytes name st type (List.replicate 8 32))
  headerBytes name st type ((octalText 6 sum).map digit ++ [0, 32])

/-- The loop that copies a file, with so many blocks to come. -/
def copyIn : Nat → List UInt8 → List UInt8
  | 0, _ => []
  | k + 1, content => text 512 (content.take 512) ++ copyIn k (content.drop 512)

/-- How many blocks a file takes. -/
def blocks (size : Nat) : Nat := (size + 511) / 512

/-- What has been written, and the paths that were reported. -/
structure Out where
  bytes : List UInt8
  notFound : List Str

/-- `lstat`. -/
def Source.lstat (src : Source) (path : Str) : Option (Path × Node) :=
  if 4096 ≤ path.length then none
  else (src.fs.resolve path).bind fun p => (src.fs p).map fun node => (p, node)

namespace Listing

variable {src : Source} (l : Listing src)

/-- `add_path`. -/
def addPath : Nat → Out → Str → Option Out
  | 0, _, _ => none
  | fuel + 1, o, path =>
    match src.lstat path with
    | none => some { o with notFound := o.notFound ++ [path] }
    | some (p, .dir mode mtime) =>
      let st : Stat := ⟨mode, (src.owner p).1, (src.owner p).2, 0, mtime.sec⟩
      (l.readdir p).foldlM (fun o c =>
        if c = dot ∨ c = dotdot then some o
        else addPath fuel o ((path ++ [slash] ++ c).take 4095))
        { o with bytes := o.bytes ++ putHeader path st dirType }
    | some (p, .file mode mtime content) =>
      let st : Stat := ⟨mode, (src.owner p).1, (src.owner p).2, content.length, mtime.sec⟩
      let data := putHeader path st regType ++ copyIn (blocks content.length) content
      some { o with bytes := o.bytes ++ data }

/-- `tar -c`: the archive. -/
def create (fuel : Nat) : Option Out :=
  (l.files.foldlM (l.addPath fuel) ⟨[], []⟩).map fun o =>
    { o with bytes := o.bytes ++ List.replicate 1024 0 }

end Listing

end Verkos.Vtar
