import Mathlib.Data.List.Basic
import Mathlib.Tactic.Common

/-!
# Services, and the children that run them

urverk keeps one table of services and is the parent of everything it starts. `World` has the table,
the children that have not been reaped, the markers of the services that are turned off, and, for
the statements about runs, the names of the services in the order they were started.

A child knows which service it was forked for only here; urverk has nothing but the `pid` in the
table. Names and commands are byte strings, a pid is a number above zero, and zero in the table
means that the service is not running.
-/

namespace Verkos.Urverk

abbrev Name := List UInt8

/-- `MAX_SVC`. -/
def maxSvc : Nat := 32

/-- `RESPAWN_NO`, `RESPAWN_ON_FAILURE`, `RESPAWN_ALWAYS`. -/
inductive Respawn
  | no
  | onFailure
  | always
deriving DecidableEq

/-- `TYPE_SIMPLE`, `TYPE_ONESHOT`, `TYPE_TIMER`, `TYPE_SOCKET`. -/
inductive SvcType
  | simple
  | oneshot
  | timer
  | socket
deriving DecidableEq

/-- `svc_t`, the fields that decide what is started and when. `lfd` is whether urverk holds the
service's port. -/
structure Svc where
  name : Name
  pre : List UInt8 := []
  exec : List UInt8
  needs : List UInt8 := []
  type : SvcType := .simple
  respawn : Respawn := .no
  everySec : Int := 0
  atHour : Int := 0
  atMin : Int := 0
  nextRun : Int := 0
  lfd : Bool := false
  pid : Nat := 0
  ready : Bool := false
  started : Bool := false
  restarts : Int := 0
  window : Int := 0
deriving DecidableEq

/-- A child of urverk that has not been reaped: the service it was forked for, if any, and once
it has exited whether that was with status 0. -/
structure Kid where
  pid : Nat
  svc : Option Nat
  status : Option Bool
deriving DecidableEq

structure World where
  svcs : List Svc
  kids : List Kid
  disabled : List Name
  starts : List Name

/-! ## Text -/

/-- A blank or a tab. -/
def isBlank (b : UInt8) : Bool := b == 32 || b == 9

/-- The words of a line, the one being read in `cur`. -/
def wordsFrom (cur : List UInt8) : List UInt8 → List (List UInt8)
  | [] => if cur = [] then [] else [cur]
  | b :: l =>
    if isBlank b then if cur = [] then wordsFrom [] l else cur :: wordsFrom [] l
    else wordsFrom (cur ++ [b]) l

/-- `split_args`, and the `strtok` loop of `deps_ready`. -/
def words (l : List UInt8) : List (List UInt8) := wordsFrom [] l

/-- `"%console%"`. -/
def consoleMark : List UInt8 := [37, 99, 111, 110, 115, 111, 108, 101, 37]

/-- The first mark replaced; the answer is `none` where there is no mark. -/
def replaceMark (con : List UInt8) : List UInt8 → Option (List UInt8)
  | [] => none
  | b :: l =>
    if consoleMark <+: b :: l then some (con ++ (b :: l).drop consoleMark.length)
    else (replaceMark con l).map (b :: ·)

/-- `expand_console`, with the kernel's console: the result has room for 255 bytes. -/
def expandConsole (con cmd : List UInt8) : List UInt8 :=
  match replaceMark con cmd with
  | some out => out.take 255
  | none => cmd

/-- There is something to run: `argv[0]` is not null. -/
def Svc.hasCommand (con : List UInt8) (s : Svc) : Bool := !(words (expandConsole con s.exec)).isEmpty

/-- `svc_by_name`. -/
def svcByName (svcs : List Svc) (name : Name) : Option Nat := svcs.findIdx? fun s => s.name == name

/-! ## Starting and stopping -/

namespace World

def setSvc (w : World) (i : Nat) (s : Svc) : World := { w with svcs := w.svcs.set i s }

/-- The pid is nobody's. -/
def Fresh (w : World) (p : Nat) : Prop := 0 < p ∧ ∀ k ∈ w.kids, k.pid ≠ p

instance (w : World) (p : Nat) : Decidable (w.Fresh p) := inferInstanceAs (Decidable (_ ∧ _))

/-- `start_service`, after its `pre` command has been waited for; `fork` is what `fork` returns,
`none` for a failure. -/
def startService (con : List UInt8) (w : World) (i : Nat) (fork : Option Nat) : World :=
  match w.svcs[i]? with
  | none => w
  | some s =>
    if s.hasCommand con then
      match fork with
      | none => w
      | some p =>
        { w with
          svcs := w.svcs.set i
            { s with pid := p, started := true, ready := if s.type = .simple then true else s.ready }
          kids := ⟨p, some i, none⟩ :: w.kids
          starts := w.starts ++ [s.name] }
    else w

/-- The child is reaped. -/
def reaped (w : World) (p : Nat) : World := { w with kids := w.kids.filter fun k => k.pid ≠ p }

/-- `stop_service`. The child dies of the SIGTERM or of the SIGKILL and is reaped, unless a
signal to urverk itself interrupts the last `waitpid`, whose result is not looked at. -/
def stopService (w : World) (i : Nat) (interrupted : Bool) : World :=
  match w.svcs[i]? with
  | none => w
  | some s =>
    if s.pid = 0 then w
    else
      let w' := if interrupted then w else w.reaped s.pid
      w'.setSvc i { s with pid := 0 }

/-- `svc_by_pid`. -/
def svcByPid (w : World) (p : Nat) : Option Nat := w.svcs.findIdx? fun s => s.pid == p

end World

/-- `timer_schedule`, with what `mktime` makes of an hour and a minute of today. -/
def timerSchedule (mktime : Int → Int → Int → Int) (now : Int) (s : Svc) : Svc :=
  if 0 < s.everySec then { s with nextRun := now + s.everySec }
  else
    let t := mktime now s.atHour s.atMin
    { s with nextRun := if t ≤ now then t + 86400 else t }

/-- `socket_listen`, with whether a port could be taken. -/
def socketListen (ok : Bool) (s : Svc) : Svc := if ok then { s with lfd := true } else s

/-- `should_respawn`, without the question whether a shutdown is wanted: the service afterwards,
and the answer. -/
def shouldRespawn (clean : Bool) (now : Int) (s : Svc) : Svc × Bool :=
  if s.respawn = .no then (s, false)
  else if s.respawn = .onFailure ∧ clean = true then (s, false)
  else
    let s := if 60 < now - s.window then { s with window := now, restarts := 0 } else s
    let s := { s with restarts := s.restarts + 1 }
    if 5 < s.restarts then ({ s with respawn := .no }, false) else (s, true)

/-! ## The table read back -/

variable {w : World} {i j p : Nat} {s : Svc} {con : List UInt8}

theorem World.setSvc_self (h : i < w.svcs.length) : (w.setSvc i s).svcs[i]? = some s :=
  List.getElem?_set_self h

theorem World.setSvc_of_ne (h : j ≠ i) : (w.setSvc i s).svcs[j]? = w.svcs[j]? :=
  List.getElem?_set_ne h.symm

theorem svcByName_some {svcs : List Svc} {name : Name} (h : svcByName svcs name = some i) :
    ∃ s, svcs[i]? = some s ∧ s.name = name := by
  obtain ⟨hi, hp, -⟩ := List.findIdx?_eq_some_iff_getElem.1 h
  exact ⟨svcs[i], List.getElem?_eq_getElem hi, by simpa using hp⟩

theorem World.svcByPid_some (h : w.svcByPid p = some i) : ∃ s, w.svcs[i]? = some s ∧ s.pid = p := by
  obtain ⟨hi, hp, -⟩ := List.findIdx?_eq_some_iff_getElem.1 h
  exact ⟨w.svcs[i], List.getElem?_eq_getElem hi, by simpa using hp⟩

theorem World.svcByPid_none (h : w.svcByPid p = none) (hs : w.svcs[i]? = some s) : s.pid ≠ p := by
  have := List.findIdx?_eq_none_iff.1 h s (List.mem_of_getElem? hs)
  simpa using this

end Verkos.Urverk
