import Verkos.Urverk.Boot

/-!
# The supervise loop

`stage2` polls the control socket and the activation sockets, handles what the poll reported, looks
at the timers and reaps. One `Op` is one of these operations, or something that happens to urverk
from outside: a child exits, an orphan is handed over, a signal asks for a shutdown. What a
poll reports is decided before the first of the reports is handled, and so is the time for a
pass over the timers.

A service whose pid is in the table is running or not yet reaped, and a child that was forked for a
service is in the table, along every run in which a connection is not handled for a service
that a command of the same pass has started.
-/

namespace Verkos.Urverk

/-! ## Control commands -/

/-- `ctl_handle`'s commands, as far as they do something to a service. -/
inductive Command
  | stop (name : Name)
  | start (name : Name)
  | enable (name : Name)
  | disable (name : Name)
  | shutdown
  | other
deriving DecidableEq

/-- The text of a command: a verb and, after a blank, its argument. -/
def parseCommand (text : List UInt8) : Command :=
  let line := (text.take 255).takeWhile fun b => b ≠ 13 ∧ b ≠ 10 ∧ b ≠ 0
  let verb := line.takeWhile fun b => b ≠ 32
  match line.dropWhile fun b => b ≠ 32 with
  | [] =>
    if verb = ascii "reboot" ∨ verb = ascii "poweroff" ∨ verb = ascii "halt" then .shutdown
    else .other
  | _ :: rest =>
    let arg := rest.dropWhile fun b => b = 32
    if verb = ascii "stop" then .stop arg
    else if verb = ascii "start" ∨ verb = ascii "restart" then .start arg
    else if verb = ascii "enable" then .enable arg
    else if verb = ascii "disable" then .disable arg
    else if verb = ascii "reboot" ∨ verb = ascii "poweroff" ∨ verb = ascii "halt" then .shutdown
    else .other

/-! ## The loop -/

/-- Where the loop is: at its top, between the reports of a poll (the control socket's, and
then those of the services listed), at a timer, or reaping. -/
inductive Phase
  | top
  | events (ctl : Bool) (conns : List Nat)
  | timers (now : Int) (i : Nat)
  | reaping
deriving DecidableEq

structure Init where
  w : World
  phase : Phase
  shutdown : Bool

/-- An operation. What the system answers is part of it: the result of a fork, whether the last
`waitpid` of a stop was interrupted, whether a marker could be written or a port taken. -/
inductive Op
  | poll (ctl : Bool) (conns : List Nat)
  | command (text : List UInt8) (interrupted marked : Bool) (fork : Option Nat)
  | connection (fork : Option Nat)
  | clock (now : Int)
  | timer (fork : Option Nat)
  | reap (p : Nat) (now : Int) (listens : Bool) (fork : Option Nat)
  | pass
  | exit (p : Nat) (clean : Bool)
  | adopt (p : Nat)
  | signal
deriving DecidableEq

/-- The services whose sockets are polled. -/
def polled (w : World) : List Nat :=
  (List.range w.svcs.length).filter fun i =>
    match w.svcs[i]? with
    | some s => s.type = .socket ∧ s.lfd = true ∧ s.pid = 0
    | none => false

/-- A pid that a fork returns is nobody's. -/
def forkOk (w : World) (fork : Option Nat) : Bool :=
  match fork with
  | some p => decide (w.Fresh p)
  | none => true

/-- `start_service` in the loop. -/
def run (con : List UInt8) (w : World) (i : Nat) (fork : Option Nat) : Option World :=
  if forkOk w fork then some (w.startService con i fork) else none

/-- `stop_service` and then no respawn. -/
def stopFor (w : World) (i : Nat) (interrupted : Bool) : World :=
  let w := w.stopService i interrupted
  match w.svcs[i]? with
  | some s => w.setSvc i { s with respawn := .no }
  | none => w

/-- `ctl_handle`. -/
def ctlHandle (con : List UInt8) (w : World) (cmd : Command) (interrupted marked : Bool)
    (fork : Option Nat) : Option World :=
  match cmd with
  | .stop name =>
    match svcByName w.svcs name with
    | none => some w
    | some i => some (stopFor w i interrupted)
  | .start name =>
    match svcByName w.svcs name with
    | none => some w
    | some i =>
      let w := w.stopService i interrupted
      match w.svcs[i]? with
      | none => some w
      | some s => run con (w.setSvc i { s with restarts := 0 }) i fork
  | .enable name =>
    match svcByName w.svcs name with
    | none => some w
    | some _ => some { w with disabled := w.disabled.filter fun n => n ≠ name }
  | .disable name =>
    match svcByName w.svcs name with
    | none => some w
    | some i =>
      some (stopFor (if marked then { w with disabled := name :: w.disabled } else w) i interrupted)
  | .shutdown | .other => some w

/-- A connection on an activation socket. -/
def onConnection (con : List UInt8) (w : World) (i : Nat) (fork : Option Nat) : Option World :=
  match w.svcs[i]? with
  | none => some w
  | some s => run con (w.setSvc i { s with lfd := false }) i fork

/-- The timer is due. -/
def due (now : Int) (s : Svc) : Bool :=
  decide (s.type = .timer ∧ s.pid = 0 ∧ s.nextRun ≠ 0 ∧ s.nextRun ≤ now)

/-- One turn of the loop over the timers: a timer that is due is run as a simple service, and its
next run is set. -/
def onTimer (con : List UInt8) (mktime : Int → Int → Int → Int) (w : World) (now : Int) (i : Nat)
    (fork : Option Nat) : Option World :=
  match w.svcs[i]? with
  | none => some w
  | some s =>
    if due now s then
      (run con (w.setSvc i { s with type := .simple }) i fork).map fun w =>
        match w.svcs[i]? with
        | none => w
        | some s => w.setSvc i (timerSchedule mktime now { s with type := .timer })
    else some w

/-- A child that has exited is reaped. -/
def onReap (con : List UInt8) (w : World) (shutdown : Bool) (p : Nat) (clean : Bool) (now : Int)
    (listens : Bool) (fork : Option Nat) : Option World :=
  let w := w.reaped p
  match w.svcByPid p with
  | none => some w
  | some i =>
    match w.svcs[i]? with
    | none => some w
    | some s =>
      let s := { s with pid := 0 }
      match s.type with
      | .oneshot => some (w.setSvc i { s with ready := clean })
      | .timer => some (w.setSvc i s)
      | type =>
        if type = .socket ∧ shutdown = false then some (w.setSvc i (socketListen listens s))
        else if shutdown then some (w.setSvc i s)
        else
          let (s, again) := shouldRespawn clean now s
          if again then run con (w.setSvc i s) i fork else some (w.setSvc i s)

/-- A child exits. -/
def World.exited (w : World) (p : Nat) (clean : Bool) : World :=
  { w with kids := w.kids.map fun k =>
      if k.pid = p ∧ k.status = none then { k with status := some clean } else k }

section Loop

variable (con : List UInt8) (mktime : Int → Int → Int → Int)

/-- One operation; `none` when it is not what comes next. -/
def step (st : Init) : Op → Option Init
  | .poll ctl conns =>
    if st.phase = .top ∧ st.shutdown = false ∧ conns.Sublist (polled st.w) then
      some { st with phase := .events ctl conns }
    else none
  | .command text interrupted marked fork =>
    match st.phase with
    | .events true conns =>
      let cmd := parseCommand text
      (ctlHandle con st.w cmd interrupted marked fork).map fun w =>
        { w, phase := .events false conns, shutdown := st.shutdown || decide (cmd = .shutdown) }
    | _ => none
  | .connection fork =>
    match st.phase with
    | .events false (i :: conns) =>
      (onConnection con st.w i fork).map fun w => { st with w, phase := .events false conns }
    | _ => none
  | .clock now => if st.phase = .events false [] then some { st with phase := .timers now 0 } else none
  | .timer fork =>
    match st.phase with
    | .timers now i =>
      if i < st.w.svcs.length then
        (onTimer con mktime st.w now i fork).map fun w => { st with w, phase := .timers now (i + 1) }
      else some { st with phase := .reaping }
    | _ => none
  | .reap p now listens fork =>
    if st.phase = .reaping ∧ 0 < p then
      match st.w.kids.find? fun k => k.pid = p with
      | some ⟨_, _, some clean⟩ =>
        (onReap con st.w st.shutdown p clean now listens fork).map fun w => { st with w }
      | _ => none
    else none
  | .pass => if st.phase = .reaping then some { st with phase := .top } else none
  | .exit p clean => some { st with w := st.w.exited p clean }
  | .adopt p =>
    if st.w.Fresh p then some { st with w := { st.w with kids := ⟨p, none, none⟩ :: st.w.kids } }
    else none
  | .signal => some { st with shutdown := true }

/-- What an operation does, where it is the one that comes next. -/
inductive Move (st : Init) : Op → Init → Prop
  | poll {ctl : Bool} {conns : List Nat} (hphase : st.phase = .top)
    (hconns : conns.Sublist (polled st.w)) :
    Move st (.poll ctl conns) { st with phase := .events ctl conns }
  | command {text : List UInt8} {interrupted marked : Bool} {fork : Option Nat} {conns : List Nat}
    {w : World} {shutdown : Bool} (hphase : st.phase = .events true conns)
    (hw : ctlHandle con st.w (parseCommand text) interrupted marked fork = some w) :
    Move st (.command text interrupted marked fork) { w, phase := .events false conns, shutdown }
  | connection {fork : Option Nat} {i : Nat} {conns : List Nat} {w : World}
    (hphase : st.phase = .events false (i :: conns)) (hw : onConnection con st.w i fork = some w) :
    Move st (.connection fork) { st with w, phase := .events false conns }
  | clock {now : Int} : Move st (.clock now) { st with phase := .timers now 0 }
  | timer {fork : Option Nat} {now : Int} {i : Nat} {w : World}
    (hw : onTimer con mktime st.w now i fork = some w) :
    Move st (.timer fork) { st with w, phase := .timers now (i + 1) }
  | timersDone {fork : Option Nat} : Move st (.timer fork) { st with phase := .reaping }
  | reap {p : Nat} {now : Int} {listens clean : Bool} {fork : Option Nat} {w : World}
    (hphase : st.phase = .reaping) (hp : 0 < p)
    (hw : onReap con st.w st.shutdown p clean now listens fork = some w) :
    Move st (.reap p now listens fork) { st with w }
  | pass : Move st .pass { st with phase := .top }
  | exit {p : Nat} {clean : Bool} : Move st (.exit p clean) { st with w := st.w.exited p clean }
  | adopt {p : Nat} (hp : st.w.Fresh p) :
    Move st (.adopt p) { st with w := { st.w with kids := ⟨p, none, none⟩ :: st.w.kids } }
  | signal : Move st .signal { st with shutdown := true }

theorem step_move {st st' : Init} {op : Op} (h : step con mktime st op = some st') :
    Move con mktime st op st' := by
  cases op with
  | poll ctl conns =>
    simp only [step] at h
    split at h
    · rename_i hphase
      cases h
      exact .poll hphase.1 hphase.2.2
    · cases h
  | command text interrupted marked fork =>
    simp only [step] at h
    split at h
    · rename_i conns hphase
      obtain ⟨w, hw, rfl⟩ := Option.map_eq_some_iff.1 h
      exact .command hphase hw
    · cases h
  | connection fork =>
    simp only [step] at h
    split at h
    · rename_i i conns hphase
      obtain ⟨w, hw, rfl⟩ := Option.map_eq_some_iff.1 h
      exact .connection hphase hw
    · cases h
  | clock now =>
    simp only [step] at h
    split at h <;> cases h
    exact .clock
  | timer fork =>
    simp only [step] at h
    split at h
    · split at h
      · obtain ⟨w, hw, rfl⟩ := Option.map_eq_some_iff.1 h
        exact .timer hw
      · cases h
        exact .timersDone
    · cases h
  | reap p now listens fork =>
    simp only [step] at h
    split at h
    · rename_i hphase
      split at h
      · obtain ⟨w, hw, rfl⟩ := Option.map_eq_some_iff.1 h
        exact .reap hphase.1 hphase.2 hw
      · cases h
    · cases h
  | pass =>
    simp only [step] at h
    split at h <;> cases h
    exact .pass
  | exit p clean =>
    cases h
    exact .exit
  | adopt p =>
    simp only [step] at h
    split at h
    · rename_i hp
      cases h
      exact .adopt hp
    · cases h
  | signal =>
    cases h
    exact .signal

/-- A run of the loop. -/
inductive Run : Init → List Op → Init → Prop
  | nil (st : Init) : Run st [] st
  | cons {st st' st'' : Init} {op : Op} {ops : List Op} : step con mktime st op = some st' →
    Run st' ops st'' → Run st (op :: ops) st''

end Loop

end Verkos.Urverk
