import Verkos.Stam.Load

/-!
# Becoming another program

`do_execve` copies the path and the arguments out of the caller's memory into a buffer of its own,
bounded in their number and in their bytes, and refuses rather than shortens. It builds a new space
with the image and one page of stack in it, and lays the arguments out at the top of that page: their
number, a pointer to each, a zero, an empty environment, and higher up the strings themselves.

The caller's memory is what it is looked at for: which pages are mapped for it, and the bytes. Where
a file is found, in the archive or on the disk, is a parameter.
-/

namespace Verkos.Stam

open Verkos.Sav

/-! ## The caller's memory -/

/-- The memory of the calling process, by page number and by address. -/
structure Caller where
  mapped : Nat → Bool
  byte : Nat → UInt8

namespace Caller

/-- `vm_user_ok`, for reading. -/
def userOk (u : Caller) (va len : Nat) : Bool :=
  if len = 0 then true
  else if 2 ^ 64 ≤ va + len then false
  else if userTop ≤ va ∨ userTop < va + len then false
  else (pagesOf va len).all u.mapped

/-- The loops of `vm_user_strlen`, with `left` bytes still to look at: a page is checked before its
first byte is read. -/
def strlenFrom (u : Caller) (va : Nat) : Nat → Nat → Option Nat
  | 0, _ => none
  | left + 1, i =>
    if (i = 0 ∨ (va + i) % 4096 = 0) ∧ u.userOk ((va + i) / 4096 * 4096) 1 = false then none
    else if u.byte (va + i) = 0 then some i
    else strlenFrom u va left (i + 1)

/-- `vm_user_strlen`; `none` is its `-1`. -/
def strlen (u : Caller) (va max : Nat) : Option Nat :=
  if userTop ≤ va then none else u.strlenFrom va max 0

/-- `n` bytes from `a` up. -/
def bytes (u : Caller) (a n : Nat) : List UInt8 := (List.range n).map fun k => u.byte (a + k)

/-- A pointer at `a`. -/
def pointer (u : Caller) (a : Nat) : Nat := le64 (u.bytes a 8)

end Caller

/-- `&argv[i]`. -/
def slotOf (argv i : Nat) : Nat := (argv + 8 * i) % 2 ^ 64

/-! ## Copying the arguments -/

inductive Errno
  | enoent
  | eio
  | e2big
  | enoexec
  | enomem
  | efault
deriving DecidableEq

def maxArgs : Nat := 16
def argBytes : Nat := 512

/-- `argbuf` up to `used`, and `arglen` up to `argc`. -/
structure ArgBuf where
  argbuf : List UInt8
  arglen : List Nat
deriving DecidableEq

/-- The loop over the vector, with `left` entries still to look at. -/
def copyArgs (u : Caller) (argv : Nat) : Nat → Nat → ArgBuf → Except Errno ArgBuf
  | 0, argc, b =>
    if u.userOk (slotOf argv argc) 8 = false then .error .efault
    else if u.pointer (slotOf argv argc) ≠ 0 then .error .e2big
    else .ok b
  | left + 1, argc, b =>
    if u.userOk (slotOf argv argc) 8 = false then .error .efault
    else
      let s := u.pointer (slotOf argv argc)
      if s = 0 then .ok b
      else
        match u.strlen s argBytes with
        | none => .error .efault
        | some n =>
          if argBytes < b.argbuf.length + n + 1 then .error .e2big
          else copyArgs u argv left (argc + 1) ⟨b.argbuf ++ u.bytes s (n + 1), b.arglen ++ [n + 1]⟩

/-- A program is always told its own name: the path stands in for a vector with nothing in it. -/
def orName (name : List UInt8) (b : ArgBuf) : ArgBuf :=
  if b.arglen = [] then
    let own := name.takeWhile (· != 0)
    ⟨own ++ [0], [own.length + 1]⟩
  else b

/-- The path, and the arguments. -/
def execArgs (u : Caller) (path argv : Nat) : Except Errno (List UInt8 × ArgBuf) :=
  match u.strlen path 63 with
  | none => .error .efault
  | some plen =>
    let name := u.bytes path plen
    if argv = 0 then .ok (name, orName name ⟨[], []⟩)
    else
      match copyArgs u argv maxArgs 0 ⟨[], []⟩ with
      | .error e => .error e
      | .ok b => .ok (name, orName name b)

/-! ## The stack page -/

/-- `stack_va`. -/
def stackBase : Nat := 0x7f00100000

namespace ArgBuf

def used (b : ArgBuf) : Nat := b.argbuf.length

def argc (b : ArgBuf) : Nat := b.arglen.length

def strOff (b : ArgBuf) : Nat := (4096 - b.used) / 16 * 16

def ptrBytes (b : ArgBuf) : Nat := (8 * (b.argc + 3) + 15) / 16 * 16

def spOff (b : ArgBuf) : Nat := b.strOff - b.ptrBytes

/-- The loop that fills in the pointers, with `at'` the sum of the lengths before. -/
def pointers (base : Nat) : Nat → List Nat → List Nat
  | _, [] => []
  | at', n :: rest => (base + at') :: pointers base (at' + n) rest

/-- The words from the stack pointer up: `argc`, `argv`, the end of it, and an empty environment. -/
def vector (b : ArgBuf) : List Nat :=
  b.argc :: (pointers (stackBase + b.strOff) 0 b.arglen ++ [0, 0])

end ArgBuf

/-- Bytes stored into a page. -/
def putBytes (page : Nat → Nat) (off : Nat) (l : List UInt8) : Nat → Nat := fun q =>
  if h : off ≤ q ∧ q < off + l.length then (l.get ⟨q - off, by omega⟩).toNat else page q

/-- The page as the program finds it. -/
def ArgBuf.lay (b : ArgBuf) (page : Nat → Nat) : Nat → Nat :=
  putBytes (putBytes page b.strOff b.argbuf) b.spOff (b.vector.flatMap put64)

/-! ## The call -/

/-- A file that was found: its bytes, unless they could not all be read, and the pages it is read
into if it comes off the disk. -/
structure Found where
  file : Option (List UInt8)
  disk : Nat

/-- What the caller has become. -/
structure Started where
  sp : Space
  manifest : SavManifest
  entry : Nat
  spEl0 : Nat

/-- `do_execve`. `find` is `none` when there is neither an archive nor a disk. -/
def doExecve (u : Caller) (find : Option (List UInt8 → Option Found)) (pm : Pmm) (path argv : Nat) :
    Option (Pmm × Except Errno Started) :=
  match find with
  | none => some (pm, .error .enoent)
  | some find =>
    match execArgs u path argv with
    | .error e => some (pm, .error e)
    | .ok (name, b) =>
      match find name with
      | none => some (pm, .error .enoent)
      | some found =>
        match Kernel.stage pm found.disk with
        | none => some (pm, .error .enomem)
        | some (from', pm) =>
          let drop (pm : Pmm) := pm.freePages from' found.disk
          match found.file with
          | none => some (drop pm, .error .eio)
          | some file =>
            match pm.allocPage with
            | none => some (drop pm, .error .enomem)
            | some (l1, pm) =>
              match elfLoad file pm (Space.empty l1) with
              | none => none
              | some ⟨pm, _, _, .error _⟩ => some (drop pm, .error .enoexec)
              | some ⟨pm, sp, manifest, .ok entry⟩ =>
                match pm.allocPage with
                | none => some (drop pm, .error .enomem)
                | some (stack, pm) =>
                  match sp.mapUserPage pm (vaOf stackBase) stack false with
                  | (pm, _, false) => some (drop pm, .error .enomem)
                  | (pm, sp, true) =>
                    let pm := drop pm
                    some ({ pm with mem := Function.update pm.mem stack (b.lay (pm.mem stack)) },
                      .ok ⟨sp, manifest, entry, stackBase + b.spOff⟩)

end Verkos.Stam
