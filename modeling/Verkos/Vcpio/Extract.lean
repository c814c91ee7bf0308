import Verkos.Lib.Paths
import Verkos.Lib.Steps
import Verkos.Vcpio.Create
import Mathlib.Data.Nat.Bitwise

/-!
# Extracting a cpio archive

`do_extract` with `listonly` unset, turn by turn: an entry is read, its name is checked, and what it
says is made. No permission is checked, as it is run by root, and a name may have any length. The
name goes to a buffer that is not cleared: where the archive ends too early it keeps what it held,
which is a turn's `junk`.
-/

namespace Verkos.Vcpio

open Lib

def slash : UInt8 := 47

def dot : UInt8 := 46

/-- Up to the first NUL. -/
def cstr (s : List UInt8) : List UInt8 := s.takeWhile (· ≠ 0)

/-! ## Reading an entry -/

def hexVal (c : UInt8) : Option Nat :=
  if 48 ≤ c ∧ c ≤ 57 then some (c.toNat - 48)
  else if 97 ≤ c ∧ c ≤ 102 then some (c.toNat - 87)
  else if 65 ≤ c ∧ c ≤ 70 then some (c.toNat - 55)
  else none

/-- The digits at the beginning, as a number. -/
def hexDigits : List UInt8 → Nat → Nat
  | [], v => v
  | c :: cs, v =>
    match hexVal c with
    | some d => hexDigits cs (v * 16 + d)
    | none => v

/-- `strtoul` to the base sixteen, as an `unsigned`: blanks, a sign and `0x` may be in front. -/
def strtoul16 (s : List UInt8) : Nat :=
  let s := s.dropWhile fun c => c = 32 ∨ (9 ≤ c ∧ c ≤ 13)
  let (minus, s) :=
    match s with
    | 45 :: cs => (true, cs)
    | 43 :: cs => (false, cs)
    | cs => (false, cs)
  let s :=
    match s with
    | 48 :: x :: c :: cs => if (x = 120 ∨ x = 88) ∧ (hexVal c).isSome then c :: cs else s
    | s => s
  let v := hexDigits s 0 % 2 ^ 32
  if minus then (2 ^ 32 - v) % 2 ^ 32 else v

/-- `rdhex`. -/
def rdhex (inn : List UInt8) : Nat × List UInt8 :=
  if inn.length < 8 then (0xffffffff, []) else (strtoul16 (inn.take 8), inn.drop 8)

/-- So many fields, one after the other. -/
def fields : Nat → List UInt8 → List Nat × List UInt8
  | 0, inn => ([], inn)
  | n + 1, inn => ((rdhex inn).1 :: (fields n (rdhex inn).2).1, (fields n (rdhex inn).2).2)

/-- How far it is to a multiple of four. -/
def gap (pos : Nat) : Nat := (4 - pos % 4) % 4

/-- An entry: the name as it is used, and as much of the data as there is. -/
structure Entry where
  mode : Nat
  name : List UInt8
  filesize : Nat
  data : List UInt8
deriving DecidableEq

/-- Why extraction fails: the archive is no newc archive, or a name is refused. -/
inductive Bad
  | magic
  | outside (name : List UInt8)
deriving DecidableEq

/-- What one turn of the loop reads. -/
inductive Turn
  | done
  | bad (e : Bad)
  | entry (e : Entry) (inn : List UInt8) (pos : Nat)
deriving DecidableEq

/-- The reading of one turn. -/
def readEntry (junk inn : List UInt8) (pos : Nat) : Turn :=
  if inn.length < 6 then .done
  else if inn.take 6 ≠ magic then .bad .magic
  else
    let (f, inn) := fields 13 (inn.drop 6)
    let pos := pos + 6 + 13 * 8
    let filesize := f.getD 6 0
    let nsize := min (f.getD 11 0) 4096
    let got := inn.take nsize
    let name := cstr ((got ++ junk.drop got.length).take (nsize - 1))
    let pos := pos + nsize
    let inn := (inn.drop nsize).drop (gap pos)
    let pos := pos + gap pos
    if name = trailer then .done
    else
      let nm := name.dropWhile (· = slash)
      if Paths.climbs slash dot nm ∨ nm = [] then .bad (.outside name)
      else
        let data := inn.take filesize
        let pos := pos + data.length
        .entry ⟨f.getD 1 0, nm, filesize, data⟩ ((inn.drop filesize).drop (gap pos))
          (pos + gap pos)

/-! ## Making what it says -/

/-- A regular file: its mode, and what is in it. -/
structure Regular where
  mode : Nat
  content : List UInt8
deriving DecidableEq

/-- The files of the system; a directory has its mode. -/
abbrev Disk := Links.World (List UInt8) Nat Regular

/-- Where the tool is run, and with what mask. -/
structure Env where
  cwd : Links.Place (List UInt8)
  umask : Nat

/-- A name as the system takes it. -/
def path (name : List UInt8) : Links.Route (List UInt8) := Paths.route slash dot name

def Env.mkdir (env : Env) (w : Disk) (name : List UInt8) (mode : Nat) : Disk :=
  w.after (Links.mkdir w.tree env.cwd (path name) (Nat.ldiff mode env.umask))

/-- The loop that makes the directories on the way to a name. -/
def mkParents (env : Env) (w : Disk) (name : List UInt8) : Disk :=
  (Paths.fronts slash [] name).foldl (fun w p => env.mkdir w p 0o755) w

/-- `chmod` of what is there. -/
def chmodNode (mode : Nat) : Links.Node (List UInt8) Nat Regular → Links.Node (List UInt8) Nat Regular
  | .dir _ => .dir mode
  | .file f => .file { f with mode }
  | .link target => .link target

/-- `fopen` and all of the data written, then `fclose` and `chmod`. -/
def putRegular (env : Env) (w : Disk) (e : Entry) : Disk :=
  let w := mkParents env w e.name
  match Links.create w.tree true env.cwd (path e.name) ⟨Nat.ldiff 0o666 env.umask, []⟩ with
  | none => w
  | some (s, f, t) =>
    let w : Disk :=
      ⟨Function.update t s.place (some (.file { f with content := e.data })), w.log ++ [s]⟩
    w.after (Links.change w.tree env.cwd (path e.name) (chmodNode (e.mode &&& 0o7777)))

/-- `mkdir`, without the directories on the way. -/
def putDirectory (env : Env) (w : Disk) (e : Entry) : Disk :=
  env.mkdir w e.name (e.mode &&& 0o7777)

/-- What is there is unlinked first. No link has an empty target. -/
def putLink (env : Env) (w : Disk) (e : Entry) : Disk :=
  let w := mkParents env w e.name
  let w := w.after (Links.unlink w.tree env.cwd (path e.name))
  if cstr e.data = [] then w
  else w.after (Links.symlink w.tree env.cwd (path e.name) (path (cstr e.data)))

/-- What is made of an entry. -/
inductive Kind
  | regular
  | directory
  | link
  | other
deriving DecidableEq

def Entry.kind (e : Entry) : Kind :=
  if e.mode &&& 0o170000 = 0o100000 then .regular
  else if e.mode &&& 0o170000 = 0o040000 then .directory
  else if e.mode &&& 0o170000 = 0o120000 ∧ 0 < e.filesize ∧ e.filesize < 4096 then .link
  else .other

def Entry.put (env : Env) (w : Disk) (e : Entry) : Disk :=
  match e.kind with
  | .regular => putRegular env w e
  | .directory => putDirectory env w e
  | .link => putLink env w e
  | .other => w

/-- The state of `do_extract`: what is left of the archive, the position, and the files. -/
structure Reader where
  inn : List UInt8
  pos : Nat
  disk : Disk

/-- One turn of the loop that goes on. -/
def turn (env : Env) (s : Reader) (junk : List UInt8) : Option Reader :=
  match readEntry junk s.inn s.pos with
  | .entry e inn pos => some ⟨inn, pos, e.put env s.disk⟩
  | .done | .bad _ => none

/-- `do_extract` sets out. -/
def Reader.start (archive : List UInt8) (t : Links.Tree (List UInt8) Nat Regular) : Reader :=
  ⟨archive, 0, ⟨t, []⟩⟩

end Verkos.Vcpio
