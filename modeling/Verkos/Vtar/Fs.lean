import Mathlib.Data.Nat.Bitwise
import Mathlib.Logic.Function.Basic

/-!
# The files that tar works on

What is under a directory, by the names that lead there from it, and the calls that tar makes.
No permission is checked: tar is run by root. A name that is absolute, or climbs out of the
directory, comes to nothing in it.
-/

namespace Verkos.Vtar

/-- A name or a path as C has it, without the NUL. -/
abbrev Str := List UInt8

/-- The names on the way from the directory. -/
abbrev Path := List Str

/-- `struct timespec`. -/
structure Time where
  sec : Int
  nsec : Nat
deriving DecidableEq

/-- A regular file, or a directory. -/
inductive Node
  | file (mode : Nat) (mtime : Time) (content : List UInt8)
  | dir (mode : Nat) (mtime : Time)
deriving DecidableEq

/-- What is under the directory, which is `[]` itself and not recorded. -/
abbrev Fs := Path → Option Node

def slash : UInt8 := 47

def dot : Str := [46]

def dotdot : Str := [46, 46]

/-- `NAME_MAX`. -/
def nameMax : Nat := 255

/-- What stands between the slashes. -/
def pieces : Str → List Str
  | [] => [[]]
  | c :: cs =>
    if c = slash then [] :: pieces cs
    else
      match pieces cs with
      | [] => [[c]]
      | p :: ps => (c :: p) :: ps

def Node.isDir : Node → Bool
  | .file .. => false
  | .dir .. => true

namespace Fs

def isDir (fs : Fs) (p : Path) : Bool := p = [] || (fs p).any Node.isDir

/-- One name after the other. -/
def walk (fs : Fs) : Path → List Str → Option Path
  | p, [] => some p
  | p, c :: cs =>
    if fs.isDir p then
      if c = [] ∨ c = dot then walk fs p cs
      else if c = dotdot then if p = [] then none else walk fs p.dropLast cs
      else if (fs (p ++ [c])).isSome then walk fs (p ++ [c]) cs
      else none
    else none

/-- Where a path leads that has to be there. -/
def resolve (fs : Fs) (path : Str) : Option Path :=
  if path = [] ∨ path.head? = some slash then none else fs.walk [] (pieces path)

/-- Where a path leads that need not be there yet: its last name is put in what the rest leads to.
Slashes at the end do not count. -/
def target (fs : Fs) (path : Str) : Option Path :=
  if path.head? = some slash then none
  else
    match (pieces path).reverse.dropWhile (· = []) with
    | [] => none
    | c :: cs =>
      if c = dot ∨ c = dotdot ∨ nameMax < c.length then none
      else (fs.walk [] cs.reverse).bind fun p => if fs.isDir p then some (p ++ [c]) else none

/-- A directory in which something is made is modified. -/
def touch (fs : Fs) (p : Path) (now : Time) : Fs :=
  match fs p with
  | some (.dir mode _) => Function.update fs p (some (.dir mode now))
  | _ => fs

/-- `mkdir`. -/
def mkdir (fs : Fs) (umask : Nat) (now : Time) (path : Str) (mode : Nat) : Fs :=
  match fs.target path with
  | none => fs
  | some p =>
    match fs p with
    | some _ => fs
    | none =>
      touch (Function.update fs p (some (.dir (Nat.ldiff (mode &&& 0o1777) umask) now)))
        p.dropLast now

/-- `fopen` for writing, with what the stream leads to. -/
def openWrite (fs : Fs) (umask : Nat) (now : Time) (path : Str) : Option Path × Fs :=
  match fs.target path with
  | none => (none, fs)
  | some p =>
    match fs p with
    | some (.dir ..) => (none, fs)
    | some (.file mode _ _) => (some p, Function.update fs p (some (.file mode now [])))
    | none =>
      (some p, touch (Function.update fs p (some (.file (Nat.ldiff 0o666 umask) now [])))
        p.dropLast now)

/-- `fwrite`, all of it at once. -/
def write (fs : Fs) (p : Path) (data : List UInt8) (now : Time) : Fs :=
  match fs p with
  | some (.file mode _ content) => Function.update fs p (some (.file mode now (content ++ data)))
  | _ => fs

/-- `chmod`. -/
def chmod (fs : Fs) (p : Path) (mode : Nat) : Fs :=
  match fs p with
  | some (.file _ mtime content) => Function.update fs p (some (.file mode mtime content))
  | some (.dir _ mtime) => Function.update fs p (some (.dir mode mtime))
  | none => fs

/-- `utimensat`. -/
def utimens (fs : Fs) (p : Path) (mtime : Time) : Fs :=
  match fs p with
  | some (.file mode _ content) => Function.update fs p (some (.file mode mtime content))
  | some (.dir mode _) => Function.update fs p (some (.dir mode mtime))
  | none => fs

end Fs

end Verkos.Vtar
