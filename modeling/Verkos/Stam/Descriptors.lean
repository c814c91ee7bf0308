import Verkos.Stam.File

/-!
# Descriptors

A process names file objects by the eight slots of its descriptor table, and an object counts how
many slots of any process name it. The calls that change a table are `openat`, `dup`, `dup3`,
`pipe2`, `socket`, `accept` and `close`, and `fork` and `exit`, each with branches that take back
what they had done when there is no descriptor or no object left.

Here the calls are made one at a time, by any process, in any order and with any outcome of what
they ask of the disk, the network and the memory. In every state that can be reached the counts are
right.
-/

namespace Verkos.Stam

open Verkos.Lib
open Function

attribute [local instance] neZero4096

/-- A descriptor of a process. -/
abbrev FdSlot := Fin maxThreads × Fin nfd

/-- The pools, the descriptor tables, and which processes there are. -/
structure Procs where
  fs : Fs
  fd : FdSlot → Option (Fin nFile)
  state : Fin maxThreads → ThreadState
  nextId : Nat

namespace Procs

def setFd (k : Procs) (s : FdSlot) (f : Option (Fin nFile)) : Procs :=
  { k with fd := Function.update k.fd s f }

def withFs (k : Procs) (fs : Fs) : Procs := { k with fs }

/-- `fd_get`. -/
def fdGet (k : Procs) (t : Fin maxThreads) (fd : Nat) : Option (Fin nFile) :=
  if h : fd < nfd then k.fd (t, ⟨fd, h⟩) else none

/-- `fd_alloc`. -/
def fdAlloc (k : Procs) (t : Fin maxThreads) (f : Fin nFile) : Procs × Option (Fin nfd) :=
  match (List.finRange nfd).find? fun i => (k.fd (t, i)).isNone with
  | some i => (k.setFd (t, i) (some f), some i)
  | none => (k, none)

/-- A descriptor for an object that was just made; without one left the object is closed again. -/
def install (k : Procs) (t : Fin maxThreads) : Fs × Except Int (Fin nFile) → Procs × Int
  | (fs, .error e) => (k.withFs fs, e)
  | (fs, .ok f) =>
    match (k.withFs fs).fdAlloc t f with
    | (k₁, some i) => (k₁, i)
    | (k₁, none) => (k₁.withFs (k₁.fs.fileClose f), -24)

/-- `SYS_CLOSE`. -/
def sysClose (k : Procs) (t : Fin maxThreads) (a : Nat) : Procs × Int :=
  if h : a < nfd then
    match k.fd (t, ⟨a, h⟩) with
    | some f => ((k.withFs (k.fs.fileClose f)).setFd (t, ⟨a, h⟩) none, 0)
    | none => (k, -9)
  else (k, -9)

/-- `SYS_DUP`. -/
def sysDup (k : Procs) (t : Fin maxThreads) (a : Nat) : Procs × Int :=
  match k.fdGet t a with
  | none => (k, -9)
  | some f =>
    match (k.withFs (k.fs.fileRef f)).fdAlloc t f with
    | (k₁, some i) => (k₁, i)
    | (k₁, none) => (k₁.withFs (k₁.fs.fileClose f), -24)

/-- `SYS_DUP3`. -/
def sysDup3 (k : Procs) (t : Fin maxThreads) (a b : Nat) : Procs × Int :=
  match k.fdGet t a with
  | none => (k, -9)
  | some f =>
    if h : b < nfd then
      if a = b then (k, -22)
      else
        let fs := k.fs.fileRef f
        let fs₁ := match k.fd (t, ⟨b, h⟩) with
          | some g => fs.fileClose g
          | none => fs
        ((k.withFs fs₁).setFd (t, ⟨b, h⟩) (some f), b)
    else (k, -9)

/-- The mode `SYS_OPENAT` makes of its flags: `O_APPEND` first, then `O_WRONLY` or `O_CREAT`. -/
def openMode (flags : Nat) : OpenMode :=
  if flags.testBit 10 then .append
  else if flags.testBit 0 || flags.testBit 6 then .write
  else .read

/-- `SYS_OPENAT`, with the name if it could be read. -/
def sysOpenat (k : Procs) (t : Fin maxThreads) (name : Option (List UInt8)) (flags : Nat)
    (d : Medium) : Procs × Int :=
  match name with
  | none => (k, -14)
  | some path => k.install t (k.fs.fileOpen d path (openMode flags))

/-- `SYS_PIPE2`, and whether the caller may have the two numbers written where it asked. -/
def sysPipe2 (k : Procs) (t : Fin maxThreads) (ok : Bool) : Procs × Int :=
  if ok = false then (k, -14)
  else
    match k.fs.filePipe with
    | (fs, none) => (k.withFs fs, -24)
    | (fs, some (r, w)) =>
      match (k.withFs fs).fdAlloc t r with
      | (k₁, none) => (k₁.withFs ((k₁.fs.fileClose r).fileClose w), -24)
      | (k₁, some rf) =>
        match k₁.fdAlloc t w with
        | (k₂, some _) => (k₂, 0)
        | (k₂, none) =>
          let k₃ := k₂.setFd (t, rf) none
          (k₃.withFs ((k₃.fs.fileClose r).fileClose w), -24)

/-- `sys_socket`, with what `udp_open` or `tcp_open` returns. -/
def sysSocket (k : Procs) (t : Fin maxThreads) (domain type : Nat) (present : Bool)
    (udp : Option Nat) (tcp : Option (Fin Tcp.nTcp)) : Procs × Int :=
  if domain ≠ 2 then (k, -97)
  else if present = false then (k, -97)
  else if type % 16 ≠ 2 ∧ type % 16 ≠ 1 then (k, -93)
  else k.install t (if type % 16 = 1 then k.fs.fileTcp tcp else k.fs.fileUdp udp)

/-- `file_tcp_conn` of a descriptor. -/
def connOf (k : Procs) (t : Fin maxThreads) (fd : Nat) : Option (Fin Tcp.nTcp) :=
  (k.fdGet t fd).bind fun f => if (k.fs.files f).kind = .tcp then (k.fs.files f).conn else none

/-- `sys_accept`, whether the address may be written if one was asked for, and what `tcp_accept`
returns. -/
def sysAccept (k : Procs) (t : Fin maxThreads) (fd : Nat) (addr : Option Bool)
    (conn : Option (Fin Tcp.nTcp)) : Procs × Int :=
  if k.connOf t fd = none then (k, -88)
  else if addr = some false then (k, -14)
  else if conn = none then (k, -11)
  else k.install t (k.fs.fileTcpAdopt conn)

/-- `syscall_open_stdio` for one descriptor. -/
def openConsole (k : Procs) (s : FdSlot) : Procs :=
  if k.fd s = none then (k.withFs k.fs.fileConsole.1).setFd s k.fs.fileConsole.2 else k

/-- `syscall_open_stdio`. -/
def openStdio (k : Procs) (t : Fin maxThreads) : Procs :=
  ((List.finRange nfd).filter (·.val < 3)).foldl (fun k i => k.openConsole (t, i)) k

/-- `alloc_slot`. -/
def allocSlot (k : Procs) : Option (Fin maxThreads) :=
  (List.finRange maxThreads).find? fun t => k.state t == .free

/-- `slot_init`: no descriptor is left from the slot's last occupant. -/
def slotInit (k : Procs) (c : Fin maxThreads) : Procs :=
  { k with
    fd := fun s => if s.1 = c then none else k.fd s
    nextId := k.nextId + 1 }

def setState (k : Procs) (t : Fin maxThreads) (st : ThreadState) : Procs :=
  { k with state := Function.update k.state t st }

/-- `thread_create`, and whether there was memory for a stack. -/
def threadCreate (k : Procs) (stack : Bool) : Procs :=
  match k.allocSlot with
  | none => k
  | some c => if stack then (k.slotInit c).setState c .runnable else k.setState c .free

/-- `t->fd[i] = file_ref(current->fd[i])`. -/
def dupFd (t c : Fin maxThreads) (k : Procs) (i : Fin nfd) : Procs :=
  match k.fd (t, i) with
  | some f => (k.withFs (k.fs.fileRef f)).setFd (c, i) (some f)
  | none => k.setFd (c, i) none

/-- `thread_fork`. -/
def threadFork (k : Procs) (t : Fin maxThreads) (stack : Bool) : Procs × Option (Fin maxThreads) :=
  match k.allocSlot with
  | none => (k, none)
  | some c =>
    if stack then
      (((List.finRange nfd).foldl (dupFd t c) (k.slotInit c)).setState c .runnable, some c)
    else (k.setState c .free, none)

/-- `do_fork`, and whether there was memory for a copy of the space. -/
def doFork (k : Procs) (t : Fin maxThreads) (space stack : Bool) : Procs × Int :=
  if space = false then (k, -12)
  else
    match k.threadFork t stack with
    | (k₁, some _) => (k₁, k.nextId)
    | (k₁, none) => (k₁, -11)

/-- `file_close(current->fd[i]); current->fd[i] = 0`. -/
def closeFd (t : Fin maxThreads) (k : Procs) (i : Fin nfd) : Procs :=
  match k.fd (t, i) with
  | some f => (k.withFs (k.fs.fileClose f)).setFd (t, i) none
  | none => k.setFd (t, i) none

/-- `thread_exit`. -/
def threadExit (k : Procs) (t : Fin maxThreads) : Procs :=
  (List.finRange nfd).foldl (closeFd t) (k.setState t .zombie)

end Procs

/-- A call by a process, with the outcome of whatever it asks for outside the pools. -/
inductive FdCall
  | openat (name : Option (List UInt8)) (flags : Nat) (d : Medium)
  | dup (a : Nat)
  | dup3 (a b : Nat)
  | pipe2 (ok : Bool)
  | socket (domain type : Nat) (present : Bool) (udp : Option Nat) (tcp : Option (Fin Tcp.nTcp))
  | accept (fd : Nat) (addr : Option Bool) (conn : Option (Fin Tcp.nTcp))
  | close (a : Nat)
  | fork (space stack : Bool)
  | exit
  | openStdio
  | create (stack : Bool)
  /-- `release_slot` of a child that has finished. -/
  | reap (c : Fin maxThreads)

namespace Procs

/-- A process that has not finished. -/
def Alive (k : Procs) (t : Fin maxThreads) : Prop := k.state t ≠ .free ∧ k.state t ≠ .zombie

/-- What a call by `t` does. -/
def call (k : Procs) (t : Fin maxThreads) : FdCall → Procs
  | .openat name flags d => (k.sysOpenat t name flags d).1
  | .dup a => (k.sysDup t a).1
  | .dup3 a b => (k.sysDup3 t a b).1
  | .pipe2 ok => (k.sysPipe2 t ok).1
  | .socket domain type present udp tcp => (k.sysSocket t domain type present udp tcp).1
  | .accept fd addr conn => (k.sysAccept t fd addr conn).1
  | .close a => (k.sysClose t a).1
  | .fork space stack => (k.doFork t space stack).1
  | .exit => k.threadExit t
  | .openStdio => k.openStdio t
  | .create stack => k.threadCreate stack
  | .reap c => if k.state c = .zombie then k.setState c .free else k

end Procs

/-- An object nobody has used. -/
def noFile : File := ⟨0, .free, none, none, none, 0, ⟨0, false⟩, none, none, false, 0⟩

def noPipe : Pipe := ⟨fun _ => 0, 0, 0, 0, 0, false⟩

/-- The thread that `sched_init` adopts. -/
def bootThread : Fin maxThreads := ⟨0, maxThreads_pos⟩

/-- The machine as `sched_init` leaves it: one thread, and nothing open. -/
def bootProcs : Procs where
  fs := ⟨fun _ => noFile, fun _ => noPipe, fun _ => ⟨[], 0, false⟩, none⟩
  fd := fun _ => none
  state := fun t => if t = bootThread then .running else .free
  nextId := 1

/-- What can be reached by calls of processes that have not finished. -/
inductive Procs.Run : Procs → Prop
  | boot : Run bootProcs
  | call {k : Procs} {t : Fin maxThreads} (c : FdCall) : Run k → k.Alive t → Run (k.call t c)

/-- Some descriptor names the object. -/
def Procs.Named (k : Procs) (f : Fin nFile) : Prop := ∃ s, k.fd s = some f

/-- An object that is an end of a pipe. -/
def Procs.EndOf (k : Procs) (kind : Kind) (p : Fin nPipe) (f : Fin nFile) : Prop :=
  (k.fs.files f).kind = kind ∧ (k.fs.files f).pipe = some p

/-- What `file_read` asks of an empty pipe to tell its end from a wait. -/
def Procs.AtEnd (k : Procs) (p : Fin nPipe) : Prop := (k.fs.pipes p).writers ≤ 0

/-- The counts are right. -/
structure Procs.Counted (k : Procs) : Prop where
  free_iff : ∀ f, (k.fs.files f).kind = .free ↔ ¬k.Named f
  refs : ∀ f, (k.fs.files f).refs = (Finset.univ.filter fun s => k.fd s = some f).card
  readers : ∀ p, (k.fs.pipes p).used = true →
    ((k.fs.pipes p).readers = 1 ↔ ∃ f, k.EndOf .pipeR p f)
  writers : ∀ p, (k.fs.pipes p).used = true →
    ((k.fs.pipes p).writers = 1 ↔ ∃ f, k.EndOf .pipeW p f)
  atEnd : ∀ p, (k.fs.pipes p).used = true →
    (k.AtEnd p ↔ ¬∃ s f, k.fd s = some f ∧ k.EndOf .pipeW p f)

/-! ## Holders -/

/-- How many descriptors name an object. -/
def holders (fd : FdSlot → Option (Fin nFile)) (f : Fin nFile) : Nat :=
  tally (fun x => if x = some f then 1 else 0) fd

theorem holders_update (fd : FdSlot → Option (Fin nFile)) (s : FdSlot) (x : Option (Fin nFile))
    (f : Fin nFile) : holders (update fd s x) f + (if fd s = some f then 1 else 0) =
      holders fd f + if x = some f then 1 else 0 :=
  tally_update _ fd s x

variable {fd : FdSlot → Option (Fin nFile)} {s : FdSlot} {f : Fin nFile} {c : Fin maxThreads}

theorem holders_fill (f : Fin nFile) (h : fd s = none) :
    holders (update fd s (some f)) = update (holders fd) f (holders fd f + 1) := by
  funext g
  have hu := holders_update fd s (some f) g
  rw [h] at hu
  by_cases hg : g = f
  · subst hg
    simpa using hu
  · simpa [hg, Ne.symm hg] using hu

theorem holders_clear (h : fd s = some f) :
    holders (update fd s none) = update (holders fd) f (holders fd f - 1) := by
  funext g
  have hu := holders_update fd s none g
  rw [h] at hu
  by_cases hg : g = f
  · subst hg
    simp at hu
    rw [update_self]
    omega
  · simpa [hg, Ne.symm hg] using hu

theorem holders_pos (h : fd s = some f) : 0 < holders fd f := by
  refine (tally_pos_iff _ _).2 ⟨s, ?_⟩
  rw [if_pos h]
  exact Nat.one_pos

theorem holders_eq_card (fd : FdSlot → Option (Fin nFile)) (f : Fin nFile) :
    holders fd f = (Finset.univ.filter fun s => fd s = some f).card := by
  simp [holders, tally]

theorem moveHolder {h : Fin nFile → Nat} (f : Fin nFile) {g : Fin nFile} (hg : 0 < h g) :
    update (update h g (h g - 1)) f (update h g (h g - 1) f + 1) =
      update (update h f (h f + 1)) g (update h f (h f + 1) g - 1) := by
  by_cases hgf : g = f
  · subst hgf
    simp only [update_self, update_idem]
    congr 1
    omega
  · rw [update_of_ne hgf, update_of_ne (Ne.symm hgf), update_comm hgf]

/-! ## The calls -/

namespace Procs

/-- The pools are right for the descriptors. -/
def Sound (k : Procs) : Prop := k.fs.Sound (holders k.fd)

variable {k : Procs} {t : Fin maxThreads}

theorem fdAlloc_cases (k : Procs) (t : Fin maxThreads) (f : Fin nFile) :
    (∃ i, k.fd (t, i) = none ∧ k.fdAlloc t f = (k.setFd (t, i) (some f), some i)) ∨
      k.fdAlloc t f = (k, none) := by
  unfold fdAlloc
  cases hi : (List.finRange nfd).find? fun i => (k.fd (t, i)).isNone with
  | none => exact .inr rfl
  | some i =>
    have hnone := List.find?_some hi
    simp only [Option.isNone_iff_eq_none] at hnone
    exact .inl ⟨i, hnone, rfl⟩

theorem Sound.install {res : Fs × Except Int (Fin nFile)}
    (hr : Fs.Makes (holders k.fd) res) : (k.install t res).1.Sound := by
  obtain ⟨fs, e | f⟩ := res
  · exact hr.2
  · obtain ⟨hz, hs⟩ := hr
    unfold Procs.install
    rcases (k.withFs fs).fdAlloc_cases t f with ⟨i, hi, he⟩ | he
    · simp only [he]
      change k.fd (t, i) = none at hi
      change fs.Sound (holders (update k.fd (t, i) (some f)))
      rw [holders_fill f hi, hz]
      exact hs
    · simp only [he]
      have hc := hs.fileClose (f := f) (by simp)
      rw [update_self, update_idem, Nat.sub_self, ← hz, update_eq_self] at hc
      exact hc

theorem Sound.sysClose (h : k.Sound) (a : Nat) : (k.sysClose t a).1.Sound := by
  unfold Procs.sysClose
  split
  · split
    · rename_i ha f hf
      change (k.fs.fileClose f).Sound (holders (update k.fd _ none))
      rw [holders_clear hf]
      exact Fs.Sound.fileClose h (holders_pos hf)
    · exact h
  · exact h

theorem fdGet_some {a : Nat} (h : k.fdGet t a = some f) : ∃ s, k.fd s = some f := by
  unfold fdGet at h
  split at h
  · exact ⟨_, h⟩
  · cases h

theorem Sound.sysDup (h : k.Sound) (a : Nat) : (k.sysDup t a).1.Sound := by
  unfold Procs.sysDup
  cases hf : k.fdGet t a with
  | none => exact h
  | some f =>
    obtain ⟨s, hs⟩ := fdGet_some hf
    have href := Fs.Sound.fileRef h (holders_pos hs)
    rcases (k.withFs (k.fs.fileRef f)).fdAlloc_cases t f with ⟨i, hi, he⟩ | he
    · simp only [he]
      change k.fd (t, i) = none at hi
      change (k.fs.fileRef f).Sound (holders (update k.fd (t, i) (some f)))
      rw [holders_fill f hi]
      exact href
    · simp only [he]
      have hc := href.fileClose (f := f) (by simp)
      rw [update_self, update_idem, Nat.add_sub_cancel, update_eq_self] at hc
      exact hc

theorem Sound.sysDup3 (h : k.Sound) (a b : Nat) : (k.sysDup3 t a b).1.Sound := by
  unfold Procs.sysDup3
  cases hf : k.fdGet t a with
  | none => exact h
  | some f =>
    obtain ⟨s, hs⟩ := fdGet_some hf
    have href := Fs.Sound.fileRef h (holders_pos hs)
    dsimp only
    split
    · rename_i hb
      split
      · exact h
      · cases hg : k.fd (t, ⟨b, hb⟩) with
        | none =>
          change (k.fs.fileRef f).Sound (holders (update k.fd _ (some f)))
          rw [holders_fill f hg]
          exact href
        | some g =>
          -- the slot is emptied and filled again; in which order the object is counted is one
          have hpos : 0 < update (holders k.fd) f (holders k.fd f + 1) g := by
            by_cases hgf : g = f
            · subst hgf
              simp
            · rw [update_of_ne hgf]
              exact holders_pos hg
          have hc := href.fileClose hpos
          have hfd : update k.fd (t, ⟨b, hb⟩) (some f) =
              update (update k.fd (t, ⟨b, hb⟩) none) (t, ⟨b, hb⟩) (some f) := by
            rw [update_idem]
          change ((k.fs.fileRef f).fileClose g).Sound (holders (update k.fd _ (some f)))
          rw [hfd, holders_fill f (update_self _ _ _), holders_clear hg]
          rw [moveHolder f (holders_pos hg)]
          exact hc
    · exact h

theorem closeBoth {fs : Fs} {h : Fin nFile → Nat} {r w : Fin nFile} (hr : h r = 0) (hw : h w = 0)
    (hwr : w ≠ r) (hs : fs.Sound (update (update h r 1) w 1)) :
    ((fs.fileClose r).fileClose w).Sound h := by
  have hc := hs.fileClose (f := r) (by simp [update_of_ne (Ne.symm hwr)])
  have hc' := hc.fileClose (f := w) (by simp [update_of_ne hwr])
  convert hc' using 1
  funext x
  simp only [update_apply]
  split_ifs <;> simp_all

theorem Sound.sysPipe2 (h : k.Sound) (ok : Bool) : (k.sysPipe2 t ok).1.Sound := by
  unfold Procs.sysPipe2
  split
  · exact h
  · have hp := Fs.Sound.filePipe h
    rcases hfp : k.fs.filePipe with ⟨fs, _ | ⟨r, w⟩⟩
    · rw [hfp] at hp
      exact hp
    · rw [hfp] at hp
      obtain ⟨hr, hw, hwr, hs⟩ := hp
      dsimp only
      rcases (k.withFs fs).fdAlloc_cases t r with ⟨i, hi, he⟩ | he
      · simp only [he]
        change k.fd (t, i) = none at hi
        rcases ((k.withFs fs).setFd (t, i) (some r)).fdAlloc_cases t w with ⟨j, hj, he'⟩ | he'
        · simp only [he']
          change update k.fd (t, i) (some r) (t, j) = none at hj
          change fs.Sound (holders (update (update k.fd (t, i) (some r)) (t, j) (some w)))
          rw [holders_fill w hj, holders_fill r hi, hr, update_of_ne hwr, hw]
          exact hs
        · simp only [he']
          have hback : update (update k.fd (t, i) (some r)) (t, i) none = k.fd := by
            rw [update_idem, ← hi, update_eq_self]
          change ((fs.fileClose r).fileClose w).Sound (holders (update
            (update k.fd (t, i) (some r)) (t, i) none))
          rw [hback]
          exact closeBoth hr hw hwr hs
      · simp only [he]
        exact closeBoth hr hw hwr hs

theorem Sound.sysSocket (h : k.Sound) (domain type : Nat) (present : Bool) (udp : Option Nat)
    (tcp : Option (Fin Tcp.nTcp)) : (k.sysSocket t domain type present udp tcp).1.Sound := by
  unfold Procs.sysSocket
  split
  · exact h
  · split
    · exact h
    · split
      · exact h
      · apply Sound.install
        split
        · exact Fs.Sound.fileTcp h tcp
        · exact Fs.Sound.fileUdp h udp

theorem Sound.sysAccept (h : k.Sound) (fd : Nat) (addr : Option Bool)
    (conn : Option (Fin Tcp.nTcp)) : (k.sysAccept t fd addr conn).1.Sound := by
  unfold Procs.sysAccept
  split
  · exact h
  · split
    · exact h
    · split
      · exact h
      · exact .install (Fs.Sound.fileTcpAdopt h conn)

theorem Sound.sysOpenat (h : k.Sound) (name : Option (List UInt8)) (flags : Nat) (d : Medium) :
    (k.sysOpenat t name flags d).1.Sound := by
  cases name with
  | none => exact h
  | some path => exact .install (Fs.Sound.fileOpen h d path _)

theorem Sound.openConsole (h : k.Sound) (s : FdSlot) : (k.openConsole s).Sound := by
  unfold Procs.openConsole
  split
  · rename_i hs
    have hc := Fs.Sound.fileConsole h
    rcases hr : k.fs.fileConsole with ⟨fs, _ | f⟩
    · rw [hr] at hc
      change fs.Sound (holders (update k.fd s none))
      rw [← hs, update_eq_self]
      exact hc
    · rw [hr] at hc
      change fs.Sound (holders (update k.fd s (some f)))
      rw [holders_fill f hs]
      exact hc
  · exact h

theorem Sound.foldl {α : Type} {step : Procs → α → Procs} (hstep : ∀ k a, k.Sound → (step k a).Sound) :
    ∀ (l : List α) {k : Procs}, k.Sound → (l.foldl step k).Sound
  | [], _, h => h
  | a :: l, _, h => .foldl hstep l (hstep _ a h)

theorem Sound.openStdio (h : k.Sound) : (k.openStdio t).Sound :=
  Sound.foldl (fun _ i hk => hk.openConsole (t, i)) _ h

theorem Sound.setState (h : k.Sound) (t : Fin maxThreads) (st : ThreadState) :
    (k.setState t st).Sound := h

theorem Sound.closeFd (h : k.Sound) (i : Fin nfd) : (closeFd t k i).Sound := by
  unfold Procs.closeFd
  cases hf : k.fd (t, i) with
  | none =>
    change k.fs.Sound (holders (update k.fd (t, i) none))
    rw [← hf, update_eq_self]
    exact h
  | some f =>
    change (k.fs.fileClose f).Sound (holders (update k.fd (t, i) none))
    rw [holders_clear hf]
    exact Fs.Sound.fileClose h (holders_pos hf)

theorem Sound.threadExit (h : k.Sound) : (k.threadExit t).Sound :=
  Sound.foldl (fun _ i hk => hk.closeFd i) _ (h.setState t .zombie)

/-- A process that is not there, or is there no more, has no descriptors. -/
def DeadEmpty (k : Procs) : Prop := ∀ t, ¬k.Alive t → ∀ i, k.fd (t, i) = none

/-- Nothing but the pools and the descriptors of `t` has changed. -/
def Frame (t : Fin maxThreads) (k k' : Procs) : Prop :=
  k'.state = k.state ∧ ∀ s : FdSlot, s.1 ≠ t → k'.fd s = k.fd s

theorem Frame.refl (t : Fin maxThreads) (k : Procs) : Frame t k k := ⟨rfl, fun _ _ => rfl⟩

theorem Frame.trans {k1 k2 : Procs} (h : Frame t k k1) (h' : Frame t k1 k2) : Frame t k k2 :=
  ⟨h'.1.trans h.1, fun s hs => (h'.2 s hs).trans (h.2 s hs)⟩

theorem frame_setFd (k : Procs) (t : Fin maxThreads) (i : Fin nfd) (x : Option (Fin nFile)) :
    Frame t k (k.setFd (t, i) x) := by
  refine ⟨rfl, fun s hs => update_of_ne ?_ _ _⟩
  rintro rfl
  exact hs rfl

theorem frame_withFs (k : Procs) (t : Fin maxThreads) (fs : Fs) : Frame t k (k.withFs fs) :=
  ⟨rfl, fun _ _ => rfl⟩

theorem frame_fdAlloc (k : Procs) (t : Fin maxThreads) (f : Fin nFile) :
    Frame t k (k.fdAlloc t f).1 := by
  rcases k.fdAlloc_cases t f with ⟨i, -, he⟩ | he
  · rw [he]
    exact frame_setFd k t i _
  · rw [he]
    exact .refl t k

theorem frame_install (k : Procs) (t : Fin maxThreads) (res : Fs × Except Int (Fin nFile)) :
    Frame t k (k.install t res).1 := by
  obtain ⟨fs, e | f⟩ := res
  · exact frame_withFs k t fs
  · have ha := (frame_withFs k t fs).trans (frame_fdAlloc (k.withFs fs) t f)
    unfold install
    rcases he : (k.withFs fs).fdAlloc t f with ⟨k1, _ | i⟩
    · rw [he] at ha
      simp only [he]
      exact ha.trans (frame_withFs _ t _)
    · rw [he] at ha
      simp only [he]
      exact ha

theorem DeadEmpty.frame {k' : Procs} (h : k.DeadEmpty) (ht : k.Alive t) (hf : Frame t k k') :
    k'.DeadEmpty := by
  intro u hu i
  have hdead : ¬k.Alive u := by
    unfold Alive at hu ⊢
    rw [hf.1] at hu
    exact hu
  have hut : u ≠ t := by
    rintro rfl
    exact hdead ht
  rw [hf.2 (u, i) hut]
  exact h u hdead i

theorem frame_sysClose (k : Procs) (t : Fin maxThreads) (a : Nat) : Frame t k (k.sysClose t a).1 := by
  unfold sysClose
  split
  · split
    · exact (frame_withFs k t _).trans (frame_setFd _ t _ _)
    · exact .refl t k
  · exact .refl t k

theorem frame_sysDup (k : Procs) (t : Fin maxThreads) (a : Nat) : Frame t k (k.sysDup t a).1 := by
  unfold sysDup
  split
  · exact .refl t k
  · rename_i f _
    have ha := (frame_withFs k t (k.fs.fileRef f)).trans (frame_fdAlloc _ t f)
    rcases he : (k.withFs (k.fs.fileRef f)).fdAlloc t f with ⟨k1, _ | i⟩
    · rw [he] at ha
      exact ha.trans (frame_withFs _ t _)
    · rw [he] at ha
      exact ha

theorem frame_sysDup3 (k : Procs) (t : Fin maxThreads) (a b : Nat) :
    Frame t k (k.sysDup3 t a b).1 := by
  unfold sysDup3
  split
  · exact .refl t k
  · split
    · split
      · exact .refl t k
      · exact (frame_withFs k t _).trans (frame_setFd _ t _ _)
    · exact .refl t k

theorem frame_sysPipe2 (k : Procs) (t : Fin maxThreads) (ok : Bool) :
    Frame t k (k.sysPipe2 t ok).1 := by
  unfold sysPipe2
  split
  · exact .refl t k
  · rcases k.fs.filePipe with ⟨fs, _ | ⟨r, w⟩⟩
    · exact frame_withFs k t fs
    · have hr := (frame_withFs k t fs).trans (frame_fdAlloc _ t r)
      dsimp only
      rcases he : (k.withFs fs).fdAlloc t r with ⟨k1, _ | i⟩
      · rw [he] at hr
        exact hr.trans (frame_withFs _ t _)
      · rw [he] at hr
        have hw := hr.trans (frame_fdAlloc k1 t w)
        dsimp only
        rcases he' : k1.fdAlloc t w with ⟨k2, _ | j⟩
        · rw [he'] at hw
          exact (hw.trans (frame_setFd _ t _ _)).trans (frame_withFs _ t _)
        · rw [he'] at hw
          exact hw

theorem frame_sysSocket (k : Procs) (t : Fin maxThreads) (domain type : Nat) (present : Bool)
    (udp : Option Nat) (tcp : Option (Fin Tcp.nTcp)) :
    Frame t k (k.sysSocket t domain type present udp tcp).1 := by
  unfold sysSocket
  split
  · exact .refl t k
  · split
    · exact .refl t k
    · split
      · exact .refl t k
      · exact frame_install k t _

theorem frame_sysAccept (k : Procs) (t : Fin maxThreads) (fd : Nat) (addr : Option Bool)
    (conn : Option (Fin Tcp.nTcp)) : Frame t k (k.sysAccept t fd addr conn).1 := by
  unfold sysAccept
  split
  · exact .refl t k
  · split
    · exact .refl t k
    · split
      · exact .refl t k
      · exact frame_install k t _

theorem frame_sysOpenat (k : Procs) (t : Fin maxThreads) (name : Option (List UInt8)) (flags : Nat)
    (d : Medium) : Frame t k (k.sysOpenat t name flags d).1 := by
  cases name with
  | none => exact .refl t k
  | some path => exact frame_install k t _

theorem Frame.foldl {step : Procs → Fin nfd → Procs} (hstep : ∀ k i, Frame t k (step k i)) :
    ∀ (l : List (Fin nfd)) (k : Procs), Frame t k (l.foldl step k)
  | [], k => .refl t k
  | i :: l, k => (hstep k i).trans (.foldl hstep l _)

theorem frame_openStdio (k : Procs) (t : Fin maxThreads) : Frame t k (k.openStdio t) := by
  refine .foldl (fun k i => ?_) _ k
  unfold openConsole
  split
  · exact (frame_withFs k t _).trans (frame_setFd _ t _ _)
  · exact Frame.refl t k

/-! ## `fork` and `exit` -/

theorem closeFd_fd (k : Procs) (t : Fin maxThreads) (i : Fin nfd) :
    (closeFd t k i).fd = update k.fd (t, i) none := by
  unfold closeFd
  split <;> rfl

theorem frame_closeFd (k : Procs) (t : Fin maxThreads) (i : Fin nfd) : Frame t k (closeFd t k i) := by
  unfold closeFd
  split
  · exact (frame_withFs k t _).trans (frame_setFd _ t _ _)
  · exact frame_setFd k t i _

theorem closeAll_fd (t : Fin maxThreads) (l : List (Fin nfd)) (k : Procs) (i : Fin nfd)
    (h : i ∈ l ∨ k.fd (t, i) = none) : (l.foldl (closeFd t) k).fd (t, i) = none := by
  induction l generalizing k with
  | nil => exact h.resolve_left List.not_mem_nil
  | cons j l ih =>
    refine ih (closeFd t k j) ?_
    rw [closeFd_fd]
    by_cases hij : i = j
    · subst hij
      exact .inr (update_self _ _ _)
    · rcases h with h | h
      · exact .inl ((List.mem_cons.1 h).resolve_left hij)
      · refine .inr ?_
        rw [update_of_ne (by simp [hij]), h]

theorem DeadEmpty.threadExit (h : k.DeadEmpty) : (k.threadExit t).DeadEmpty := by
  have hf := Frame.foldl (t := t) (fun k i => frame_closeFd k t i) (List.finRange nfd)
    (k.setState t .zombie)
  intro u hu i
  by_cases hut : u = t
  · subst hut
    exact closeAll_fd u _ _ i (.inl (List.mem_finRange i))
  · have hdead : ¬k.Alive u := by
      unfold Alive at hu ⊢
      rw [show (k.threadExit t).state u = k.state u from ?_] at hu
      · exact hu
      · unfold Procs.threadExit
        rw [hf.1]
        exact update_of_ne hut _ _
    have hrow : (k.threadExit t).fd (u, i) = k.fd (u, i) := hf.2 (u, i) hut
    rw [hrow]
    exact h u hdead i

theorem allocSlot_some (h : k.allocSlot = some c) : k.state c = .free := by
  have := List.find?_some h
  simpa using this

theorem slotInit_fd (h : k.DeadEmpty) (hc : k.state c = .free) : (k.slotInit c).fd = k.fd := by
  funext s
  change (if s.1 = c then none else k.fd s) = k.fd s
  split
  · rename_i hs
    subst hs
    exact (h s.1 (fun ha => ha.1 hc) s.2).symm
  · rfl

theorem Sound.slotInit (h : k.Sound) (hd : k.DeadEmpty)
    (hc : k.state c = .free) : (k.slotInit c).Sound := by
  unfold Sound
  rw [slotInit_fd hd hc]
  exact h

theorem Sound.dupAll (l : List (Fin nfd)) {k : Procs} (hl : l.Nodup)
    (h : k.Sound) (hnone : ∀ i ∈ l, k.fd (c, i) = none) : (l.foldl (dupFd t c) k).Sound := by
  induction l generalizing k with
  | nil => exact h
  | cons i l ih =>
    obtain ⟨hil, hl'⟩ := List.nodup_cons.1 hl
    have hi := hnone i List.mem_cons_self
    have hrest : ∀ x, ∀ j ∈ l, update k.fd (c, i) x (c, j) = none := by
      intro x j hj
      rw [update_of_ne]
      · exact hnone j (List.mem_cons_of_mem _ hj)
      · intro he
        cases he
        exact hil hj
    refine ih hl' ?_ ?_
    · unfold Procs.dupFd
      cases hf : k.fd (t, i) with
      | none =>
        change k.fs.Sound (holders (update k.fd (c, i) none))
        rw [← hi, update_eq_self]
        exact h
      | some f =>
        change (k.fs.fileRef f).Sound (holders (update k.fd (c, i) (some f)))
        rw [holders_fill f hi]
        exact Fs.Sound.fileRef h (holders_pos hf)
    · unfold Procs.dupFd
      cases k.fd (t, i) with
      | none => exact hrest none
      | some f => exact hrest (some f)

theorem frame_dupFd (k : Procs) (t c : Fin maxThreads) (i : Fin nfd) : Frame c k (dupFd t c k i) := by
  unfold dupFd
  split
  · exact (frame_withFs k c _).trans (frame_setFd _ c _ _)
  · exact frame_setFd k c i _

theorem DeadEmpty.enliven {k' : Procs} (h : k.DeadEmpty) (hf : Frame c k k') :
    (k'.setState c .runnable).DeadEmpty := by
  intro u hu i
  have huc : u ≠ c := by
    rintro rfl
    refine hu ⟨?_, ?_⟩
    · change update k'.state u .runnable u ≠ .free
      rw [update_self]
      decide
    · change update k'.state u .runnable u ≠ .zombie
      rw [update_self]
      decide
  have hdead : ¬k.Alive u := by
    unfold Alive at hu ⊢
    change ¬(update k'.state c .runnable u ≠ .free ∧
      update k'.state c .runnable u ≠ .zombie) at hu
    rw [update_of_ne huc, hf.1] at hu
    exact hu
  change k'.fd (u, i) = none
  rw [hf.2 (u, i) huc]
  exact h u hdead i

theorem frame_slotInit (k : Procs) (c : Fin maxThreads) : Frame c k (k.slotInit c) :=
  ⟨rfl, fun _ hs => if_neg hs⟩

/-! ## Runs -/

/-- What a run keeps. -/
structure Inv (k : Procs) : Prop where
  sound : k.Sound
  dead : k.DeadEmpty

theorem Inv.stayDead (h : k.Inv) (hc : ¬k.Alive c) : (k.setState c .free).Inv := by
  refine ⟨h.sound, fun u hu i => ?_⟩
  by_cases huc : u = c
  · subst huc
    exact h.dead u hc i
  · refine h.dead u (fun ha => hu ?_) i
    unfold Alive
    change update k.state c .free u ≠ .free ∧ update k.state c .free u ≠ .zombie
    rw [update_of_ne huc]
    exact ha

theorem Inv.create (h : k.Inv) (stack : Bool) : (k.threadCreate stack).Inv := by
  unfold threadCreate
  cases hc : k.allocSlot with
  | none => exact h
  | some c =>
    have hfree := allocSlot_some hc
    dsimp only
    split
    · exact ⟨(h.sound.slotInit h.dead hfree).setState c _, h.dead.enliven (frame_slotInit k c)⟩
    · exact h.stayDead fun ha => ha.1 hfree

theorem Inv.threadFork (h : k.Inv) (stack : Bool) : (k.threadFork t stack).1.Inv := by
  unfold Procs.threadFork
  cases hc : k.allocSlot with
  | none => exact h
  | some c =>
    have hfree := allocSlot_some hc
    dsimp only
    split
    · have hempty : ∀ i ∈ List.finRange nfd, (k.slotInit c).fd (c, i) = none := fun _ _ => if_pos rfl
      have hsound := (h.sound.slotInit h.dead hfree).dupAll (t := t) _ (List.nodup_finRange nfd) hempty
      have hframe := (frame_slotInit k c).trans
        (.foldl (fun k i => frame_dupFd k t c i) (List.finRange nfd) _)
      exact ⟨hsound.setState c _, h.dead.enliven hframe⟩
    · exact h.stayDead fun ha => ha.1 hfree

theorem Inv.doFork (h : k.Inv) (space stack : Bool) : (k.doFork t space stack).1.Inv := by
  have hf := h.threadFork (t := t) stack
  unfold Procs.doFork
  split
  · exact h
  · rcases he : k.threadFork t stack with ⟨k1, _ | c⟩
    · rw [he] at hf
      exact hf
    · rw [he] at hf
      exact hf

theorem Inv.call (h : k.Inv) (ht : k.Alive t) (c : FdCall) : (k.call t c).Inv := by
  cases c with
  | openat name flags d =>
    exact ⟨h.sound.sysOpenat name flags d, h.dead.frame ht (frame_sysOpenat k t name flags d)⟩
  | dup a => exact ⟨h.sound.sysDup a, h.dead.frame ht (frame_sysDup k t a)⟩
  | dup3 a b => exact ⟨h.sound.sysDup3 a b, h.dead.frame ht (frame_sysDup3 k t a b)⟩
  | pipe2 ok => exact ⟨h.sound.sysPipe2 ok, h.dead.frame ht (frame_sysPipe2 k t ok)⟩
  | socket domain type present udp tcp =>
    exact ⟨h.sound.sysSocket domain type present udp tcp,
      h.dead.frame ht (frame_sysSocket k t domain type present udp tcp)⟩
  | accept fd addr conn =>
    exact ⟨h.sound.sysAccept fd addr conn, h.dead.frame ht (frame_sysAccept k t fd addr conn)⟩
  | close a => exact ⟨h.sound.sysClose a, h.dead.frame ht (frame_sysClose k t a)⟩
  | fork space stack => exact h.doFork space stack
  | exit => exact ⟨h.sound.threadExit, h.dead.threadExit⟩
  | openStdio => exact ⟨h.sound.openStdio, h.dead.frame ht (frame_openStdio k t)⟩
  | create stack => exact h.create stack
  | reap c =>
    change (if k.state c = .zombie then k.setState c .free else k).Inv
    split
    · rename_i hz
      exact h.stayDead fun ha => ha.2 hz
    · exact h

theorem inv_boot : bootProcs.Inv := by
  have hh : holders bootProcs.fd = fun _ => 0 := by
    funext f
    simp [holders, tally, bootProcs]
  refine ⟨?_, fun _ _ _ => rfl⟩
  unfold Sound
  rw [hh]
  refine ⟨fun f => ⟨rfl, by simp [bootProcs, noFile], fun hf => (hf rfl).elim,
    fun he => (Kind.not_isEnd_free he).elim⟩, fun q p hq => ?_, fun _ _ _ hu => Bool.noConfusion hu,
    by rintro _ ⟨⟩⟩
  have hz : tally (File.endOf q p) bootProcs.fs.files = 0 := by
    refine Finset.sum_eq_zero fun f _ => ?_
    exact File.endOf_eq_zero hq Kind.not_isEnd_free
  rw [hz]
  rfl

theorem Run.inv (h : Run k) : k.Inv := by
  induction h with
  | boot => exact inv_boot
  | call c _ ht ih => exact ih.call ht c

/-! ## What the counts say -/

theorem Sound.named_iff (h : k.Sound) (f : Fin nFile) : k.Named f ↔ (k.fs.files f).kind ≠ .free := by
  rw [ne_eq, (h.fits f).free, ← ne_eq, ← Nat.pos_iff_ne_zero]
  unfold holders Named
  rw [tally_pos_iff]
  constructor
  · rintro ⟨s, hs⟩
    refine ⟨s, ?_⟩
    rw [if_pos hs]
    exact Nat.one_pos
  · rintro ⟨s, hs⟩
    refine ⟨s, ?_⟩
    by_contra hn
    rw [if_neg hn] at hs
    exact Nat.lt_irrefl 0 hs

/-- An end is counted once, and only while there is an object for it. -/
theorem Sound.ends_eq_one (h : k.Sound) {q : Kind} (hq : q.IsEnd) {p : Fin nPipe}
    (hu : (k.fs.pipes p).used = true) : ((k.fs.pipes p).ends q = 1 ↔ ∃ f, k.EndOf q p f) ∧
      ((k.fs.pipes p).ends q ≤ 0 ↔ ¬∃ f, k.EndOf q p f) := by
  have hc := h.count q p hq
  have hle := h.single q p hq hu
  rw [if_pos hu] at hc
  have hex : 0 < tally (File.endOf q p) k.fs.files ↔ ∃ f, k.EndOf q p f := by
    rw [tally_pos_iff]
    refine exists_congr fun f => ?_
    unfold File.endOf EndOf
    split
    · rename_i he
      exact ⟨fun _ => he, fun _ => Nat.one_pos⟩
    · rename_i hn
      exact ⟨fun hp => (Nat.lt_irrefl 0 hp).elim, fun he => (hn he).elim⟩
  rw [← hex]
  constructor
  · omega
  · omega

theorem Sound.counted (h : k.Sound) : k.Counted where
  free_iff := fun f => by
    rw [h.named_iff f]
    exact Classical.not_not.symm
  refs := fun f => by
    rw [(h.fits f).refs, holders_eq_card]
  readers := fun p hu => (h.ends_eq_one (.inl rfl) hu).1
  writers := fun p hu => (h.ends_eq_one (.inr rfl) hu).1
  atEnd := fun p hu => by
    have hz := (h.ends_eq_one (.inr rfl) hu).2
    change (k.fs.pipes p).writers ≤ 0 ↔ _ at hz
    unfold AtEnd
    rw [hz]
    refine not_congr ⟨fun ⟨f, hf⟩ => ?_, fun ⟨_, f, _, hf⟩ => ⟨f, hf⟩⟩
    have hlive : (k.fs.files f).kind ≠ .free := by
      rw [hf.1]
      decide
    obtain ⟨s, hs⟩ := (h.named_iff f).2 hlive
    exact ⟨s, f, hs, hf⟩

end Procs

/-- In every state that calls of any processes can reach, one at a time and however each turns out:
an object is free exactly when no descriptor names it and counts the descriptors that do, a pipe has
an end open exactly when there is an object for it, and a reader of an empty pipe is at its end
exactly when no descriptor names a write end. -/
theorem descriptors_counted {k : Procs} (h : Procs.Run k) : k.Counted :=
  h.inv.sound.counted

/-- The first process opens the console and a pipe, forks, and closes its write end: the child's is
left. -/
theorem descriptors_counted_fork : ∃ k, Procs.Run k ∧ (k.fs.files 0).refs = 6 ∧
    (k.fs.files 2).refs = 1 ∧ (k.fs.pipes 0).writers = 1 ∧ k.Counted := by
  have h1 := Procs.Run.boot.call (t := bootThread) .openStdio ⟨by decide, by decide⟩
  have h2 := h1.call (t := bootThread) (.pipe2 true) ⟨by decide +kernel, by decide +kernel⟩
  have h3 := h2.call (t := bootThread) (.fork true true) ⟨by decide +kernel, by decide +kernel⟩
  have h4 := h3.call (t := bootThread) (.close 4) ⟨by decide +kernel, by decide +kernel⟩
  exact ⟨_, h4, by decide +kernel, by decide +kernel, by decide +kernel, descriptors_counted h4⟩

end Verkos.Stam
