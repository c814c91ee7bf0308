import Verkos.Stam.Sched
import Verkos.Stam.Tcp
import Verkos.Lib.Tally

/-!
# File objects and pipes

`file.c` keeps thirty-two file objects and eight pipes in fixed pools. An object is free or has a
kind, and it counts how many descriptors name it; the last one that is closed frees it, and if it
was an end of a pipe closes that end.

`Fs.Sound h` says that the pools are right for `h f` holders of each object `f`: the count is the
number of holders, an object nobody holds is free and no other is, and a pipe has an end open exactly
when there is an object for it. Every operation of `file.c` takes sound pools to sound pools and
changes the holders of at most two objects; which of the holders are descriptors is the business of
the system calls.
-/

namespace Verkos.Stam

open Verkos.Lib
open Function

/-- `NPIPE`. -/
abbrev nPipe : Nat := 8
/-- `NFILE`. -/
abbrev nFile : Nat := 32
/-- `PIPE_SIZE`. -/
abbrev pipeSize : Nat := 4096
theorem neZero4096 : NeZero 4096 := ⟨by decide⟩
/-- `NMEM`. -/
abbrev nMem : Nat := 4
/-- `NAME_MAX`. -/
abbrev nameMax : Nat := 32

/-- `FILE_FREE` and the rest. -/
inductive Kind
  | free
  | console
  | pipeR
  | pipeW
  | initrd
  | mem
  | fat
  | fatDir
  | udp
  | tcp
deriving DecidableEq, Repr

/-- `pipe_t`. -/
structure Pipe where
  buf : Fin pipeSize → UInt8
  head : Fin pipeSize
  tail : Fin pipeSize
  readers : Int
  writers : Int
  used : Bool

/-- `memfile_t`, without its contents. -/
structure MemFile where
  name : List UInt8
  len : Nat
  used : Bool

/-- What `file_open` looks at of a `fat_file_t`. -/
structure FatFile where
  size : Nat
  isDir : Bool

/-- `struct file`. -/
structure File where
  refs : Int
  kind : Kind
  pipe : Option (Fin nPipe)
  mem : Option (Fin nMem)
  ro : Option Nat
  roLen : Nat
  fat : FatFile
  sock : Option Nat
  conn : Option (Fin Tcp.nTcp)
  writable : Bool
  pos : Nat

/-- The pools of `file.c`. -/
structure Fs where
  files : Fin nFile → File
  pipes : Fin nPipe → Pipe
  mems : Fin nMem → MemFile
  consoleFile : Option (Fin nFile)

/-- A pipe one of whose ends is closed; it goes out of use with the second. -/
def Pipe.closeEnd (x : Pipe) (kind : Kind) : Pipe :=
  let x' := if kind = .pipeR then { x with readers := x.readers - 1 }
    else { x with writers := x.writers - 1 }
  { x' with used := x'.used && !decide (x'.readers ≤ 0 ∧ x'.writers ≤ 0) }

namespace Fs

def setFile (s : Fs) (f : Fin nFile) (x : File) : Fs :=
  { s with files := Function.update s.files f x }

def setPipe (s : Fs) (p : Fin nPipe) (x : Pipe) : Fs :=
  { s with pipes := Function.update s.pipes p x }

def setMem (s : Fs) (m : Fin nMem) (x : MemFile) : Fs :=
  { s with mems := Function.update s.mems m x }

/-- The first free object. -/
def findFree (s : Fs) : Option (Fin nFile) :=
  (List.finRange nFile).find? fun f => (s.files f).kind == .free

/-- `file_alloc`. It leaves `fat` and `writable` as they were. -/
def fileAlloc (s : Fs) (kind : Kind) (p : Option (Fin nPipe)) : Fs × Option (Fin nFile) :=
  match s.findFree with
  | some f =>
    (s.setFile f { s.files f with
      kind := kind, refs := 1, pipe := p, mem := none, ro := none, roLen := 0, pos := 0,
      sock := none, conn := none }, some f)
  | none => (s, none)

/-- `file_alloc` for a kind that is no end of a pipe, and what the caller then fills in. -/
def allocWith (s : Fs) (kind : Kind) (fill : File → File) : Fs × Except Int (Fin nFile) :=
  match s.fileAlloc kind none with
  | (s₁, some f) => (s₁.setFile f (fill (s₁.files f)), .ok f)
  | (s₁, none) => (s₁, .error (-24))

end Fs

/-- `OPEN_READ`, `OPEN_WRITE`, `OPEN_APPEND`. -/
inductive OpenMode
  | read
  | write
  | append
deriving DecidableEq, Repr

/-- What there is under a name when `file_open` asks: whether a disk is mounted, what `fat_open`,
`fat_create` and `fat_truncate` make of it, and where `cpio_find` finds it in the archive. -/
structure Medium where
  mounted : Bool
  found : Option FatFile
  created : Option FatFile
  truncated : Option FatFile
  archived : Option (Nat × Nat)

/-- The part of `file_open` before the lock. The answer is the file on the disk, if there is one to
use, and whether it was opened for writing. -/
def Medium.lookUp (d : Medium) (absolute : Bool) (mode : OpenMode) :
    Except Int (Option (FatFile × Bool)) :=
  if d.mounted = false then .ok none
  else if mode = .read then .ok (d.found.map fun ff => (ff, false))
  else if absolute = false then .ok none
  else
    match d.found.filter fun ff => !ff.isDir with
    | some ff =>
      if mode = .write then
        match d.truncated with
        | some ff => .ok (some (ff, true))
        | none => .error (-5)
      else .ok (some (ff, true))
    | none =>
      match d.created with
      | some ff => .ok (some (ff, true))
      | none => .error (-2)

namespace Fs

/-- The memory file of a name, or else an unused one. -/
def findMem (s : Fs) (name : List UInt8) : Option (Fin nMem) :=
  (List.finRange nMem).find? fun m => (s.mems m).used && (s.mems m).name == name

def findUnusedMem (s : Fs) : Option (Fin nMem) :=
  (List.finRange nMem).find? fun m => !(s.mems m).used

/-- The memory file a name is written to: its name is cut to what there is room for. -/
def openMem (s : Fs) (m : Fin nMem) (name : List UInt8) (mode : OpenMode) : Fs :=
  s.setMem m
    { name := name.take (nameMax - 1)
      len := if mode = .write ∨ (s.mems m).used = false then 0 else (s.mems m).len
      used := true }

/-- An object for a file on the disk. -/
def openFat (s : Fs) (ff : FatFile) (kind : Kind) (mode : OpenMode) (writing : Bool) :
    Fs × Except Int (Fin nFile) :=
  s.allocWith kind fun x =>
    { x with
      fat := ff
      roLen := ff.size
      writable := writing || x.writable
      pos := if mode = .append then ff.size else 0 }

/-- `file_open`. A name that begins with a slash is absolute, and the slash is no part of it. -/
def fileOpen (s : Fs) (d : Medium) (path : List UInt8) (mode : OpenMode) :
    Fs × Except Int (Fin nFile) :=
  let absolute := path.head? == some 47
  let name := if absolute then path.tail else path
  match d.lookUp absolute mode with
  | .error e => (s, .error e)
  | .ok (some (ff, true)) => s.openFat ff .fat mode true
  | .ok fat =>
    if mode ≠ .read then
      match (s.findMem name).orElse fun _ => s.findUnusedMem with
      | none => (s, .error (-24))
      | some m =>
        let s₁ := s.openMem m name mode
        s₁.allocWith .mem fun x =>
          { x with mem := some m, pos := if mode = .append then (s₁.mems m).len else 0 }
    else
      match s.findMem name, d.archived, fat with
      | some m, _, _ => s.allocWith .mem fun x => { x with mem := some m, pos := 0 }
      | none, some (at', len), _ =>
        s.allocWith .initrd fun x => { x with ro := some at', roLen := len, pos := 0 }
      | none, none, some (ff, _) => s.openFat ff (if ff.isDir then .fatDir else .fat) .read false
      | none, none, none => (s, .error (-2))

/-- `file_console`. -/
def fileConsole (s : Fs) : Fs × Option (Fin nFile) :=
  match s.consoleFile with
  | some f => (s.setFile f { s.files f with refs := (s.files f).refs + 1 }, some f)
  | none =>
    match s.fileAlloc .console none with
    | (s₁, r) => ({ s₁ with consoleFile := r }, r)

/-- The first pipe that is not in use. -/
def findPipe (s : Fs) : Option (Fin nPipe) :=
  (List.finRange nPipe).find? fun p => !(s.pipes p).used

/-- A pipe that is taken into use. -/
def takePipe (s : Fs) (p : Fin nPipe) : Fs :=
  s.setPipe p { s.pipes p with used := true, head := 0, tail := 0, readers := 1, writers := 1 }

def dropPipe (s : Fs) (p : Fin nPipe) : Fs := s.setPipe p { s.pipes p with used := false }

/-- `file_pipe`, with the undoing of its failures. -/
def filePipe (s : Fs) : Fs × Option (Fin nFile × Fin nFile) :=
  match s.findPipe with
  | none => (s, none)
  | some p =>
    match (s.takePipe p).fileAlloc .pipeR (some p) with
    | (s₁, none) => (s₁.dropPipe p, none)
    | (s₁, some r) =>
      match s₁.fileAlloc .pipeW (some p) with
      | (s₂, some w) => (s₂, some (r, w))
      | (s₂, none) =>
        ((s₂.setFile r { s₂.files r with kind := .free, refs := 0 }).dropPipe p, none)

/-- `file_ref`. -/
def fileRef (s : Fs) (f : Fin nFile) : Fs :=
  s.setFile f { s.files f with refs := (s.files f).refs + 1 }

/-- The end of a pipe that an object was is closed. -/
def closeEnd (s : Fs) (kind : Kind) (p : Fin nPipe) : Fs :=
  s.setPipe p ((s.pipes p).closeEnd kind)

/-- `if (f == console_file) console_file = 0`. -/
def forget (s : Fs) (f : Fin nFile) : Fs :=
  { s with consoleFile := if s.consoleFile = some f then none else s.consoleFile }

/-- `file_close`, as far as the pools go. -/
def fileClose (s : Fs) (f : Fin nFile) : Fs :=
  let x := s.files f
  if 0 < x.refs - 1 then s.setFile f { x with refs := x.refs - 1 }
  else
    let s₁ := (s.forget f).setFile f { x with
      refs := x.refs - 1, kind := .free, pipe := none, sock := none, conn := none }
    match x.pipe with
    | some p => s₁.closeEnd x.kind p
    | none => s₁

/-- `file_udp`, with what `udp_open` returned. -/
def fileUdp (s : Fs) (sock : Option Nat) : Fs × Except Int (Fin nFile) :=
  match sock with
  | none => (s, .error (-105))
  | some _ => s.allocWith .udp fun x => { x with sock := sock }

/-- `file_tcp_adopt`. -/
def fileTcpAdopt (s : Fs) (conn : Option (Fin Tcp.nTcp)) : Fs × Except Int (Fin nFile) :=
  match conn with
  | none => (s, .error (-22))
  | some _ => s.allocWith .tcp fun x => { x with conn := conn }

/-- `file_tcp`, with what `tcp_open` returned. -/
def fileTcp (s : Fs) (conn : Option (Fin Tcp.nTcp)) : Fs × Except Int (Fin nFile) :=
  match conn with
  | none => (s, .error (-105))
  | some _ => s.fileTcpAdopt conn

end Fs

@[simp] theorem Fs.setPipe_setPipe (s : Fs) (p : Fin nPipe) (x y : Pipe) :
    (s.setPipe p x).setPipe p y = s.setPipe p y := by
  simp [Fs.setPipe]

@[simp] theorem Fs.setFile_setFile (s : Fs) (f : Fin nFile) (x y : File) :
    (s.setFile f x).setFile f y = s.setFile f y := by
  simp [Fs.setFile]

theorem Fs.setFile_setPipe (s : Fs) (f : Fin nFile) (x : File) (p : Fin nPipe) (y : Pipe) :
    (s.setFile f x).setPipe p y = (s.setPipe p y).setFile f x := rfl

/-! ## Sound pools -/

/-- The kinds that are an end of a pipe. -/
def Kind.IsEnd (k : Kind) : Prop := k = .pipeR ∨ k = .pipeW

instance (k : Kind) : Decidable k.IsEnd := inferInstanceAs (Decidable (_ ∨ _))

theorem Kind.not_isEnd_free : ¬Kind.free.IsEnd := by
  decide

/-- The count a pipe keeps for an end. -/
def Pipe.ends (x : Pipe) (k : Kind) : Int := if k = .pipeR then x.readers else x.writers

/-- One if an object is the end `k` of the pipe `p`. -/
def File.endOf (k : Kind) (p : Fin nPipe) (x : File) : Nat :=
  if x.kind = k ∧ x.pipe = some p then 1 else 0

/-- An object that is right for `n` holders. -/
structure File.Fits (x : File) (n : Nat) : Prop where
  refs : x.refs = n
  free : x.kind = .free ↔ n = 0
  plain : x.kind ≠ .free → ¬x.kind.IsEnd → x.pipe = none
  ends : x.kind.IsEnd → x.pipe ≠ none

/-- The pools are right for `h f` holders of each object `f`. -/
structure Fs.Sound (s : Fs) (h : Fin nFile → Nat) : Prop where
  fits : ∀ f, (s.files f).Fits (h f)
  count : ∀ k p, k.IsEnd → (tally (File.endOf k p) s.files : Int) =
    if (s.pipes p).used then (s.pipes p).ends k else 0
  single : ∀ k p, k.IsEnd → (s.pipes p).used = true → (s.pipes p).ends k ≤ 1
  console : ∀ f, s.consoleFile = some f → (s.files f).kind ≠ .free

variable {k k₀ : Kind} {p : Fin nPipe} {x : File}

theorem File.endOf_eq_zero (hk : k.IsEnd) (h : ¬x.kind.IsEnd) : x.endOf k p = 0 := by
  unfold File.endOf
  rw [if_neg]
  rintro ⟨he, -⟩
  exact h (he ▸ hk)

theorem File.Fits.not_isEnd (h : x.Fits 0) : ¬x.kind.IsEnd := by
  rw [h.free.2 rfl]
  exact Kind.not_isEnd_free

theorem Pipe.closeEnd_ends (x : Pipe) (hk : k.IsEnd) (hk0 : k₀.IsEnd) :
    (x.closeEnd k₀).ends k = if k = k₀ then x.ends k - 1 else x.ends k := by
  rcases hk with rfl | rfl <;> rcases hk0 with rfl | rfl <;> rfl

theorem Pipe.closeEnd_used (x : Pipe) (hk0 : k₀.IsEnd) (hx : x.used = true) :
    (x.closeEnd k₀).used = true ∨
      (x.closeEnd k₀).used = false ∧ ∀ k, k.IsEnd → (x.closeEnd k₀).ends k ≤ 0 := by
  cases hu : (x.closeEnd k₀).used with
  | true => exact .inl rfl
  | false =>
    refine .inr ⟨rfl, fun k hk => ?_⟩
    rcases hk with rfl | rfl <;> rcases hk0 with rfl | rfl <;>
      simp [Pipe.closeEnd, Pipe.ends, hx] at hu ⊢ <;> omega

namespace Fs.Sound

variable {s : Fs} {h : Fin nFile → Nat} {f : Fin nFile}

section

variable (hs : s.Sound h)
include hs

theorem setFile {n : Nat} (hx : x.Fits n)
    (hw : ∀ k p, k.IsEnd → x.endOf k p = (s.files f).endOf k p)
    (hc : s.consoleFile = some f → x.kind ≠ .free) : (s.setFile f x).Sound (update h f n) := by
  refine ⟨fun g => ?_, fun k p hk => ?_, hs.single, fun g hg => ?_⟩
  · by_cases hgf : g = f
    · subst hgf
      simp only [Fs.setFile, update_self]
      exact hx
    · simp only [Fs.setFile, update_of_ne hgf]
      exact hs.fits g
  · have hu := tally_update (File.endOf k p) s.files f x
    have hkeep : tally (File.endOf k p) (s.setFile f x).files = tally (File.endOf k p) s.files := by
      have := hw k p hk
      change tally (File.endOf k p) (update s.files f x) = _
      omega
    rw [hkeep]
    exact hs.count k p hk
  · by_cases hgf : g = f
    · subst hgf
      simp only [Fs.setFile, update_self]
      exact hc hg
    · simp only [Fs.setFile, update_of_ne hgf]
      exact hs.console g hg

theorem setRefs {n : Nat} (hk : x.kind = (s.files f).kind) (hp : x.pipe = (s.files f).pipe)
    (hr : x.refs = n) (hn : n = 0 ↔ h f = 0) : (s.setFile f x).Sound (update h f n) := by
  have hf := hs.fits f
  refine hs.setFile ⟨hr, ?_, ?_, ?_⟩ (fun k p _ => ?_) (fun hc => ?_)
  · rw [hk, hf.free, hn]
  · rw [hk, hp]
    exact hf.plain
  · rw [hk, hp]
    exact hf.ends
  · unfold File.endOf
    rw [hk, hp]
  · rw [hk]
    exact hs.console f hc

theorem setPipe {x : Pipe}
    (hx : ∀ k, k.IsEnd → (if x.used then x.ends k else 0) = if (s.pipes p).used then (s.pipes p).ends k else 0) :
    (s.setPipe p x).Sound h := by
  refine ⟨hs.fits, fun k q hk => ?_, fun k q hk hu => ?_, hs.console⟩
  · by_cases hqp : q = p
    · subst hqp
      simp only [Fs.setPipe, update_self, hx k hk]
      exact hs.count k q hk
    · simp only [Fs.setPipe, update_of_ne hqp]
      exact hs.count k q hk
  · by_cases hqp : q = p
    · subst hqp
      simp only [Fs.setPipe, update_self] at hu ⊢
      have hx' := hx k hk
      rw [if_pos hu] at hx'
      split at hx'
      · rename_i hold
        rw [hx']
        exact hs.single k q hk hold
      · omega
    · simp only [Fs.setPipe, update_of_ne hqp] at hu ⊢
      exact hs.single k q hk hu

theorem forget (f : Fin nFile) : (s.forget f).Sound h := by
  refine ⟨hs.fits, hs.count, hs.single, fun g hg => ?_⟩
  unfold Fs.forget at hg
  dsimp only at hg
  split at hg
  · cases hg
  · exact hs.console g hg

theorem setMem (m : Fin nMem) (x : MemFile) : (s.setMem m x).Sound h :=
  ⟨hs.fits, hs.count, hs.single, hs.console⟩

theorem findFree_some (hf : s.findFree = some f) : h f = 0 := by
  have hk := List.find?_some hf
  simp only [beq_iff_eq] at hk
  exact (hs.fits f).free.1 hk

theorem fileAlloc (kind : Kind) (hk : kind ≠ .free) (he : ¬kind.IsEnd) :
    match s.fileAlloc kind none with
    | (s1, some f) => h f = 0 ∧ s1.Sound (update h f 1)
    | (s1, none) => s1.Sound h := by
  unfold Fs.fileAlloc
  cases hf : s.findFree with
  | none => exact hs
  | some f =>
    have hz := hs.findFree_some hf
    have hfit := hs.fits f
    rw [hz] at hfit
    refine ⟨hz, hs.setFile ⟨rfl, ?_, fun _ _ => rfl, fun h => (he h).elim⟩ (fun k p hk' => ?_)
      (fun _ => hk)⟩
    · exact ⟨fun h => (hk h).elim, fun h => (nomatch h)⟩
    · rw [File.endOf_eq_zero hk' he, File.endOf_eq_zero hk' hfit.not_isEnd]

end

end Fs.Sound

/-- What a call that makes an object leaves: one new holder of an object nobody held, or nothing. -/
def Fs.Makes (h : Fin nFile → Nat) : Fs × Except Int (Fin nFile) → Prop
  | (s, .ok f) => h f = 0 ∧ s.Sound (Function.update h f 1)
  | (s, .error e) => e < 0 ∧ s.Sound h

namespace Fs.Sound

variable {s : Fs} {h : Fin nFile → Nat} {f : Fin nFile}

theorem allocWith (hs : s.Sound h) {kind : Kind} {fill : File → File} (hk : kind ≠ .free)
    (he : ¬kind.IsEnd)
    (hfill : ∀ x, (fill x).kind = x.kind ∧ (fill x).pipe = x.pipe ∧ (fill x).refs = x.refs) :
    Fs.Makes h (s.allocWith kind fill) := by
  have ha := hs.fileAlloc kind hk he
  unfold Fs.allocWith
  rcases hr : s.fileAlloc kind none with ⟨s1, _ | f⟩
  · rw [hr] at ha
    exact ⟨by decide, ha⟩
  · rw [hr] at ha
    obtain ⟨hz, hs1⟩ := ha
    obtain ⟨hk', hp', hr'⟩ := hfill (s1.files f)
    have hone : (s1.files f).refs = 1 := by
      have := (hs1.fits f).refs
      rw [update_self] at this
      exact this
    have hset := hs1.setRefs (n := 1) hk' hp' (hr'.trans hone) (by simp)
    rw [update_idem] at hset
    exact ⟨hz, hset⟩

theorem openFat (hs : s.Sound h) (ff : FatFile) {kind : Kind} (mode : OpenMode) (writing : Bool)
    (hk : kind ≠ .free) (he : ¬kind.IsEnd) : Fs.Makes h (s.openFat ff kind mode writing) :=
  hs.allocWith hk he fun _ => ⟨rfl, rfl, rfl⟩

theorem lookUp_error {d : Medium} {absolute : Bool} {mode : OpenMode} {e : Int}
    (h : d.lookUp absolute mode = .error e) : e < 0 := by
  unfold Medium.lookUp at h
  split at h
  · cases h
  · split at h
    · cases h
    · split at h
      · cases h
      · split at h
        · split at h
          · split at h
            · cases h
            · cases h
              decide
          · cases h
        · split at h
          · cases h
          · cases h
            decide

section

variable (hs : s.Sound h)
include hs

theorem fileOpen (d : Medium) (path : List UInt8) (mode : OpenMode) :
    Fs.Makes h (s.fileOpen d path mode) := by
  unfold Fs.fileOpen
  dsimp only
  split
  · rename_i e he
    exact ⟨lookUp_error he, hs⟩
  · exact hs.openFat _ mode true (by decide) (by decide)
  · split
    · split
      · exact ⟨by decide, hs⟩
      · exact (hs.setMem _ _).allocWith (by decide) (by decide) fun _ => ⟨rfl, rfl, rfl⟩
    · split
      · exact hs.allocWith (by decide) (by decide) fun _ => ⟨rfl, rfl, rfl⟩
      · exact hs.allocWith (by decide) (by decide) fun _ => ⟨rfl, rfl, rfl⟩
      · refine hs.openFat _ .read false ?_ ?_
        · split <;> decide
        · split <;> decide
      · exact ⟨by decide, hs⟩

theorem fileUdp (sock : Option Nat) : Fs.Makes h (s.fileUdp sock) := by
  cases sock with
  | none => exact ⟨by decide, hs⟩
  | some n =>
    change Fs.Makes h (s.allocWith .udp fun x => { x with sock := some n })
    exact hs.allocWith (by decide) (by decide) fun _ => ⟨rfl, rfl, rfl⟩

theorem fileTcpAdopt (conn : Option (Fin Tcp.nTcp)) : Fs.Makes h (s.fileTcpAdopt conn) := by
  cases conn with
  | none => exact ⟨by decide, hs⟩
  | some c =>
    change Fs.Makes h (s.allocWith .tcp fun x => { x with conn := some c })
    exact hs.allocWith (by decide) (by decide) fun _ => ⟨rfl, rfl, rfl⟩

theorem fileTcp (conn : Option (Fin Tcp.nTcp)) : Fs.Makes h (s.fileTcp conn) := by
  cases conn with
  | none => exact ⟨by decide, hs⟩
  | some c => exact hs.fileTcpAdopt (some c)

theorem fileRef (hf : 0 < h f) : (s.fileRef f).Sound (update h f (h f + 1)) := by
  refine hs.setRefs rfl rfl ?_ (by omega)
  change (s.files f).refs + 1 = _
  rw [(hs.fits f).refs]
  rfl

theorem fileConsole : match s.fileConsole with
    | (s1, some f) => s1.Sound (update h f (h f + 1))
    | (s1, none) => s1.Sound h := by
  unfold Fs.fileConsole
  cases hc : s.consoleFile with
  | some f =>
    have hpos : 0 < h f := by
      have := hs.console f hc
      rw [ne_eq, (hs.fits f).free] at this
      omega
    exact hs.fileRef hpos
  | none =>
    have ha := hs.fileAlloc .console (by decide) (by decide)
    rcases hr : s.fileAlloc .console none with ⟨s1, _ | f⟩
    · rw [hr] at ha
      exact ⟨ha.fits, ha.count, ha.single, fun g hg => (nomatch hg)⟩
    · rw [hr] at ha
      obtain ⟨hz, hs1⟩ := ha
      simp only [hz, Nat.zero_add]
      refine ⟨hs1.fits, hs1.count, hs1.single, fun g hg => ?_⟩
      obtain rfl := Option.some.inj hg
      rw [ne_eq, (hs1.fits f).free, update_self]
      exact Nat.one_ne_zero

end

theorem findPipe_some (hp : s.findPipe = some p) : (s.pipes p).used = false := by
  have := List.find?_some hp
  simpa using this

section

variable (hs : s.Sound h)
include hs

theorem tally_unused (hp : (s.pipes p).used = false) (hk : k.IsEnd) :
    tally (File.endOf k p) s.files = 0 := by
  have hcount := hs.count k p hk
  rw [hp, if_neg Bool.false_ne_true] at hcount
  exact Int.ofNat_eq_zero.1 hcount

/-- Two free objects become the ends of a pipe that was not in use. -/
theorem twoEnds {r w : Fin nFile} {y : File} {q : Pipe} (hp : (s.pipes p).used = false)
    (hr : h r = 0) (hw : h w = 0) (hrw : w ≠ r)
    (hx : x.refs = 1 ∧ x.kind = .pipeR ∧ x.pipe = some p)
    (hy : y.refs = 1 ∧ y.kind = .pipeW ∧ y.pipe = some p)
    (hq : q.used = true ∧ q.readers = 1 ∧ q.writers = 1) :
    (((s.setPipe p q).setFile r x).setFile w y).Sound (update (update h r 1) w 1) := by
  have hfitr := hs.fits r
  have hfitw := hs.fits w
  rw [hr] at hfitr
  rw [hw] at hfitw
  have hfiles : (((s.setPipe p q).setFile r x).setFile w y).files =
      update (update s.files r x) w y := rfl
  refine ⟨fun g => ?_, fun k p' hk => ?_, fun k p' hk hu => ?_, fun g hg => ?_⟩
  · rw [hfiles]
    by_cases hgw : g = w
    · subst hgw
      rw [update_self, update_self]
      exact ⟨hy.1, by simp [hy.2.1], fun _ he => (he (.inr hy.2.1)).elim, fun _ => by simp [hy.2.2]⟩
    · rw [update_of_ne hgw, update_of_ne hgw]
      by_cases hgr : g = r
      · subst hgr
        rw [update_self, update_self]
        exact ⟨hx.1, by simp [hx.2.1], fun _ he => (he (.inl hx.2.1)).elim, fun _ => by simp [hx.2.2]⟩
      · rw [update_of_ne hgr, update_of_ne hgr]
        exact hs.fits g
  · -- one object more of each end of this pipe, and none of any other
    have hu1 := tally_update (File.endOf k p') s.files r x
    have hu2 := tally_update (File.endOf k p') (update s.files r x) w y
    rw [update_of_ne hrw] at hu2
    rw [File.endOf_eq_zero hk hfitr.not_isEnd] at hu1
    rw [File.endOf_eq_zero hk hfitw.not_isEnd] at hu2
    have hnew : File.endOf k p' x + File.endOf k p' y = if p' = p then 1 else 0 := by
      unfold File.endOf
      rw [hx.2.1, hx.2.2, hy.2.1, hy.2.2]
      rcases hk with rfl | rfl
      · by_cases hpp : p' = p
        · simp [hpp]
        · simp [hpp, Ne.symm hpp]
      · by_cases hpp : p' = p
        · simp [hpp]
        · simp [hpp, Ne.symm hpp]
    rw [hfiles]
    by_cases hpp : p' = p
    · subst hpp
      have hz := hs.tally_unused hp hk
      rw [if_pos rfl] at hnew
      have hone : tally (File.endOf k p') (update (update s.files r x) w y) = 1 := by
        omega
      have hends : q.ends k = 1 := by
        unfold Pipe.ends
        split
        · exact hq.2.1
        · exact hq.2.2
      simp [hone, Fs.setFile, Fs.setPipe, hq.1, hends]
    · rw [if_neg hpp] at hnew
      have hsame : tally (File.endOf k p') (update (update s.files r x) w y) =
          tally (File.endOf k p') s.files := by
        omega
      simp only [hsame, Fs.setFile, Fs.setPipe, update_of_ne hpp]
      exact hs.count k p' hk
  · by_cases hpp : p' = p
    · subst hpp
      simp only [Fs.setFile, Fs.setPipe, update_self]
      unfold Pipe.ends
      split
      · exact hq.2.1.le
      · exact hq.2.2.le
    · simp only [Fs.setFile, Fs.setPipe, update_of_ne hpp] at hu ⊢
      exact hs.single k p' hk hu
  · rw [hfiles]
    have hgk := hs.console g hg
    by_cases hgw : g = w
    · subst hgw
      rw [update_self, hy.2.1]
      decide
    · rw [update_of_ne hgw]
      by_cases hgr : g = r
      · subst hgr
        rw [update_self, hx.2.1]
        decide
      · rw [update_of_ne hgr]
        exact hgk

theorem setFree (hz : h f = 0) (hk : x.kind = .free) (hr : x.refs = 0) :
    (s.setFile f x).Sound h := by
  have hold := hs.fits f
  rw [hz] at hold
  have hend : ¬x.kind.IsEnd := hk ▸ Kind.not_isEnd_free
  have hset := hs.setFile (f := f) (x := x) (n := 0)
    ⟨hr, by simp [hk], fun he => (he hk).elim, fun he => (hend he).elim⟩
    (fun k p hk' => by rw [File.endOf_eq_zero hk' hend, File.endOf_eq_zero hk' hold.not_isEnd])
    (fun hc => (hs.console f hc (hold.free.2 rfl)).elim)
  rw [← hz, update_eq_self] at hset
  exact hset

theorem undone {x : Pipe} (hp : (s.pipes p).used = false) (hx : x.used = false) :
    (s.setPipe p x).Sound h := by
  refine hs.setPipe fun k _ => ?_
  rw [hx, hp]
  rfl

theorem filePipe : match s.filePipe with
    | (s1, some (r, w)) => h r = 0 ∧ h w = 0 ∧ w ≠ r ∧
        s1.Sound (update (update h r 1) w 1)
    | (s1, none) => s1.Sound h := by
  unfold Fs.filePipe
  cases hp : s.findPipe with
  | none => exact hs
  | some p =>
    have hunused := findPipe_some hp
    dsimp only
    rw [Fs.fileAlloc, show (s.takePipe p).findFree = s.findFree from rfl]
    cases hr : s.findFree with
    | none =>
      simp only [Fs.takePipe, Fs.dropPipe, Fs.setPipe_setPipe]
      exact hs.undone hunused rfl
    | some r =>
      have hzr := hs.findFree_some hr
      dsimp only
      rw [Fs.fileAlloc]
      cases hw : Fs.findFree (Fs.setFile (s.takePipe p) r _) with
      | none =>
        simp only [Fs.takePipe, Fs.dropPipe, Fs.setFile_setPipe, Fs.setPipe_setPipe,
          Fs.setFile_setFile]
        exact Fs.Sound.setFree (hs.undone hunused rfl) hzr rfl rfl
      | some w =>
        have hkind := List.find?_some hw
        simp only [beq_iff_eq] at hkind
        have hwr : w ≠ r := by
          rintro rfl
          simp [Fs.setFile] at hkind
        have hzw : h w = 0 := by
          simp only [Fs.setFile, update_of_ne hwr] at hkind
          exact (hs.fits w).free.1 hkind
        exact ⟨hzr, hzw, hwr, hs.twoEnds hunused hzr hzw hwr ⟨rfl, rfl, rfl⟩ ⟨rfl, rfl, rfl⟩
          ⟨rfl, rfl, rfl⟩⟩

theorem endClosed (hone : h f = 1) (hk0 : (s.files f).kind = k₀) (he0 : k₀.IsEnd)
    (hp : (s.files f).pipe = some p) (hc : s.consoleFile ≠ some f) (hk : x.kind = .free)
    (hr : x.refs = 0) : ((s.setFile f x).closeEnd k₀ p).Sound (update h f 0) := by
  have hend : ¬x.kind.IsEnd := hk ▸ Kind.not_isEnd_free
  have htally : ∀ k q, k.IsEnd → tally (File.endOf k q) (update s.files f x) +
      (if k = k₀ ∧ q = p then 1 else 0) = tally (File.endOf k q) s.files := by
    intro k q hkq
    have hu := tally_update (File.endOf k q) s.files f x
    rw [File.endOf_eq_zero hkq hend] at hu
    have hold : File.endOf k q (s.files f) = if k = k₀ ∧ q = p then 1 else 0 := by
      unfold File.endOf
      rw [hk0, hp]
      simp only [Option.some.injEq, eq_comm]
    omega
  have hused : (s.pipes p).used = true := by
    by_contra hn
    have hz := hs.tally_unused (Bool.eq_false_iff.2 hn) he0
    have := htally k₀ p he0
    rw [if_pos ⟨rfl, rfl⟩] at this
    omega
  refine ⟨fun g => ?_, fun k q hkq => ?_, fun k q hkq hu => ?_, fun g hg => ?_⟩
  · by_cases hgf : g = f
    · subst hgf
      simp only [Fs.closeEnd, Fs.setPipe, Fs.setFile, update_self]
      exact ⟨hr, by simp [hk], fun he => (he hk).elim, fun he => (hend he).elim⟩
    · simp only [Fs.closeEnd, Fs.setPipe, Fs.setFile, update_of_ne hgf]
      exact hs.fits g
  · have ht := htally k q hkq
    have hcount := hs.count k q hkq
    change (tally (File.endOf k q) (update s.files f x) : Int) = _
    by_cases hqp : q = p
    · subst hqp
      have hends := (s.pipes q).closeEnd_ends hkq he0
      rw [if_pos hused] at hcount
      simp only [Fs.closeEnd, Fs.setPipe, Fs.setFile, update_self]
      have hnew : (tally (File.endOf k q) (update s.files f x) : Int) =
          ((s.pipes q).closeEnd k₀).ends k := by
        rw [hends]
        by_cases hkk : k = k₀
        · rw [if_pos ⟨hkk, rfl⟩] at ht
          rw [if_pos hkk]
          omega
        · rw [if_neg fun he => hkk he.1] at ht
          rw [if_neg hkk]
          omega
      rcases (s.pipes q).closeEnd_used he0 hused with hu | ⟨hu, hle⟩
      · rw [if_pos hu]
        exact hnew
      · -- nothing is open, so nothing is counted
        have := hle k hkq
        rw [if_neg (by rw [hu]; decide)]
        omega
    · rw [if_neg fun he => hqp he.2] at ht
      simp only [Fs.closeEnd, Fs.setPipe, Fs.setFile, update_of_ne hqp]
      rw [← hcount]
      omega
  · by_cases hqp : q = p
    · subst hqp
      have hle := hs.single k q hkq hused
      simp only [Fs.closeEnd, Fs.setPipe, Fs.setFile, update_self]
      rw [(s.pipes q).closeEnd_ends hkq he0]
      split <;> omega
    · simp only [Fs.closeEnd, Fs.setPipe, Fs.setFile, update_of_ne hqp] at hu ⊢
      exact hs.single k q hkq hu
  · have hgf : g ≠ f := by
      rintro rfl
      exact hc hg
    simp only [Fs.closeEnd, Fs.setPipe, Fs.setFile, update_of_ne hgf]
    exact hs.console g hg

theorem fileClose (hf : 0 < h f) : (s.fileClose f).Sound (update h f (h f - 1)) := by
  have hfit := hs.fits f
  unfold Fs.fileClose
  dsimp only
  split
  · rename_i hmore
    refine hs.setRefs rfl rfl ?_ ?_
    · change (s.files f).refs - 1 = _
      rw [hfit.refs]
      omega
    · rw [hfit.refs] at hmore
      omega
  · rename_i hlast
    have hone : h f = 1 := by
      rw [hfit.refs] at hlast
      omega
    rw [hone]
    have hforget := hs.forget f
    have hnot : (s.forget f).consoleFile ≠ some f := by
      unfold Fs.forget
      dsimp only
      split
      · exact fun he => nomatch he
      · assumption
    have hzero : (s.files f).refs - 1 = (0 : Nat) := by
      rw [hfit.refs, hone]
      rfl
    cases hp : (s.files f).pipe with
    | none =>
      have hold : ¬(s.files f).kind.IsEnd := fun he => hfit.ends he hp
      refine hforget.setFile ⟨hzero, by simp, fun he => (he rfl).elim,
        fun he => (Kind.not_isEnd_free he).elim⟩ (fun k p hk => ?_) (fun hc => (hnot hc).elim)
      rw [File.endOf_eq_zero hk Kind.not_isEnd_free]
      exact (File.endOf_eq_zero hk hold).symm
    | some p =>
      have hend : (s.files f).kind.IsEnd := by
        by_contra hn
        have hlive : (s.files f).kind ≠ .free := by
          rw [ne_eq, hfit.free, hone]
          exact Nat.one_ne_zero
        rw [hfit.plain hlive hn] at hp
        cases hp
      exact hforget.endClosed hone rfl hend hp hnot rfl hzero

end

end Fs.Sound

end Verkos.Stam
