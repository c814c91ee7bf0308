import Verkos.Vtar.Create

/-!
# Extracting a tar archive

`do_extract` reads block after block. A header says what follows and by what name it is made; a
name may also have been announced by the header before, in a pax record or as a long name. This is
what it does with `listonly` unset.
-/

namespace Verkos.Vtar

/-- `from_octal`, with the value so far. -/
def fromOctal : List UInt8 → Nat → Nat
  | [], v => v
  | c :: cs, v =>
    if c = 0 then v
    else if c < 48 ∨ 55 < c then fromOctal cs v
    else fromOctal cs (v * 8 + (c.toNat - 48))

/-- So many bytes at an offset. -/
def field (h : List UInt8) (off len : Nat) : List UInt8 := (h.drop off).take len

/-- Up to the first NUL. -/
def cstr (s : List UInt8) : Str := s.takeWhile (· ≠ 0)

/-- A byte as a `signed char`. -/
def schar (c : UInt8) : Int := if c.toNat < 128 then c.toNat else c.toNat - 256

/-- `header_ok`. -/
def headerOk (h : List UInt8) : Bool :=
  let want := fromOctal (field h 148 8) 0
  let h := h.take 148 ++ List.replicate 8 32 ++ h.drop 156
  sumBytes h = want ∨ (h.map schar).sum = want

/-- `strchr` for a space: how far it is. -/
def findSpace : List UInt8 → Option Nat
  | [] => none
  | c :: cs => if c = 32 then some 0 else if c = 0 then none else (findSpace cs).map (· + 1)

/-- The digits at the beginning, as a number. -/
def decimal : List UInt8 → Nat → Nat
  | [], v => v
  | c :: cs, v => if c < 48 ∨ 57 < c then v else decimal cs (v * 10 + (c.toNat - 48))

/-- `strtol`. -/
def strtol (s : List UInt8) : Int :=
  match s.dropWhile fun c => c = 32 ∨ (9 ≤ c ∧ c ≤ 13) with
  | 45 :: cs => -(decimal cs 0 : Nat)
  | 43 :: cs => decimal cs 0
  | cs => decimal cs 0

/-- `"path="`. -/
def pathKey : List UInt8 := [112, 97, 116, 104, 61]

/-- The loop over the records of a pax header, from `r` on. A turn goes on by a byte at least. -/
def paxLoop (records : List UInt8) : Nat → Nat → Str → Str
  | 0, _, pending => pending
  | fuel + 1, r, pending =>
    if records.length ≤ r then pending
    else
      match findSpace (records.drop r) with
      | none => pending
      | some sp =>
        let rlen := strtol (records.drop r)
        if rlen ≤ 0 ∨ records.length < r + rlen then pending
        else
          let vlen := rlen - (sp + 6) - 1
          let pending :=
            if field records (r + sp + 1) 5 = pathKey ∧ 0 < vlen ∧ vlen < 4096 then
              cstr (field records (r + sp + 6) vlen.toNat)
            else pending
          paxLoop records fuel (r + rlen.toNat) pending

/-- What is said of a file that is no archive, or of one that is corrupt. -/
inductive Bad
  | trailing (bytes : Nat)
  | notTar
  | corrupt
deriving DecidableEq

/-- What is around: the time as it is when an entry is extracted, and the mask. -/
structure Env where
  clock : Nat → Time
  umask : Nat
  keepMtime : Bool

/-- The state of `do_extract`. -/
structure Reader where
  inn : List UInt8
  pending : Str
  count : Nat
  first : Bool
  fs : Fs

/-- What one turn of the loop comes to. -/
inductive Turn
  | done
  | bad (e : Bad)
  | next (s : Reader)

/-- The part of a name in front of each slash. -/
def parents (done : Str) : Str → List Str
  | [] => []
  | c :: cs => if c = slash then done :: parents (done ++ [c]) cs else parents (done ++ [c]) cs

/-- The loop that makes the directories on the way to a name. -/
def mkParents (env : Env) (now : Time) (fs : Fs) (name : Str) : Fs :=
  (parents [] name).foldl (fun fs p => fs.mkdir env.umask now p 0o755) fs

/-- The loop that copies a file out, with so many blocks to come and `rem` bytes: the bytes, and
what is left of the archive. -/
def copyOut : Nat → Nat → List UInt8 → List UInt8 × List UInt8
  | 0, _, inn => ([], inn)
  | k + 1, rem, inn =>
    if inn.length < 512 then ([], [])
    else
      let (out, inn') := copyOut k (rem - 512) (inn.drop 512)
      (inn.take (min rem 512) ++ out, inn')

/-- What is read over an extended header: its contents and the padding. -/
def skipExtended (esize : Nat) (inn : List UInt8) : List UInt8 :=
  (inn.drop esize).drop ((512 - esize % 512) % 512)

/-- `name`. -/
def entryName (h : List UInt8) (pending : Str) : Str :=
  if pending ≠ [] then pending.take 511
  else if field h 257 5 = ustar.take 5 ∧ h.getD 345 0 ≠ 0 then
    (cstr (field h 345 155) ++ [slash] ++ cstr (field h 0 100)).take 511
  else cstr (field h 0 100)

/-- A directory is made. -/
def extractDir (env : Env) (now : Time) (fs : Fs) (name : Str) (mode : Nat) : Fs :=
  (mkParents env now fs name).mkdir env.umask now name
    (if mode &&& 0o7777 ≠ 0 then mode &&& 0o7777 else 0o755)

/-- A file is made, and gets what `data` is, its mode and its time. -/
def extractFile (env : Env) (now : Time) (fs : Fs) (name : Str) (mode mtime : Nat)
    (data : List UInt8) : Fs :=
  match (mkParents env now fs name).openWrite env.umask now name with
  | (none, fs) => fs
  | (some p, fs) =>
    let fs := (fs.write p data now).chmod p (mode &&& 0o7777)
    if mtime ≠ 0 ∧ env.keepMtime then fs.utimens p ⟨mtime, 0⟩ else fs

/-- One turn of the loop. -/
def extractOne (env : Env) (s : Reader) : Turn :=
  let h := s.inn.take 512
  if h = [] then .done
  else if h.length ≠ 512 then .bad (.trailing h.length)
  else if h.all (· = 0) then .done
  else if !headerOk h then .bad (if s.first then .notTar else .corrupt)
  else
    let s := { s with inn := s.inn.drop 512, first := false, count := s.count + 1 }
    let type := h.getD 156 0
    let esize := fromOctal (field h 124 12) 0
    if type = 120 ∨ type = 103 then
      let records := s.inn.take (min esize 8191)
      .next { s with
        inn := skipExtended esize s.inn
        pending := paxLoop records records.length 0 s.pending }
    else if type = 76 ∨ type = 75 then
      let long := s.inn.take (min esize 4095)
      .next { s with
        inn := skipExtended esize s.inn
        pending := if type = 76 then cstr long else s.pending }
    else
      let name := entryName h s.pending
      let mode := fromOctal (field h 100 8) 0
      let mtime := fromOctal (field h 136 12) 0
      let now := env.clock s.count
      let s := { s with pending := [] }
      if type = dirType ∨ name.getLast? = some slash then
        .next { s with fs := extractDir env now s.fs name mode }
      else
        let (data, inn) := copyOut (blocks esize) esize s.inn
        .next { s with inn, fs := extractFile env now s.fs name mode mtime data }

/-- The loop. A turn takes a block at least. -/
def extractLoop (env : Env) : Nat → Reader → Option (Except Bad Nat × Fs)
  | 0, _ => none
  | fuel + 1, s =>
    match extractOne env s with
    | .done => some (.ok s.count, s.fs)
    | .bad e => some (.error e, s.fs)
    | .next s => extractLoop env fuel s

/-- `do_extract` in an empty directory. -/
def doExtract (env : Env) (archive : List UInt8) : Option (Except Bad Nat × Fs) :=
  extractLoop env (archive.length + 1) ⟨archive, [], 0, true, fun _ => none⟩

end Verkos.Vtar
