import Verkos.Urverk.Service
import Verkos.Lib.Fold

/-!
# What urverk starts at boot

`load_services` fills the table from the service directory and the built-in daemons, and `start_all`
brings it up: round after round it handles whatever has its needs met, and when a round finds
nothing it starts the rest anyway.

`BootEnv` is everything that `start_all` asks the machine: what a fork returns, whether a `pre`
command ends, how a oneshot is doing when its thirty seconds are over, whether a port can be
taken. Which services come up in order is decided by the needs and by the oneshots alone:
`Startable`. The rounds handle exactly those, each once and each as its type says. What is left over goes to
`start_service` whatever its type, which is right for a service that is to be run and for no
other.
-/

namespace Verkos.Urverk

/-! ## The table -/

def ascii (s : String) : List UInt8 := s.toList.map fun c => UInt8.ofNat c.toNat

/-- A service of the table before anything has happened to it: the `memset` of `load_service`. -/
def cleared (s : Svc) : Svc :=
  { s with
    nextRun := 0, lfd := false, pid := 0, ready := false, started := false, restarts := 0
    window := 0 }

/-- `load_service`, of a file that says this; `svc_disabled` is the marker. -/
def loadService (disabled : List Name) (svcs : List Svc) (file : Svc) : List Svc :=
  if maxSvc ≤ svcs.length then svcs
  else if file.exec = [] then svcs
  else if file.name ∈ disabled then
    svcs ++ [{ cleared file with respawn := .no, started := true, ready := true }]
  else svcs ++ [cleared file]

def vdhcp : Svc where
  name := ascii "vdhcp"
  exec := ascii "/usr/sbin/vdhcp"
  respawn := .always

def sshd : Svc where
  name := ascii "sshd"
  pre := ascii "/usr/bin/ssh-keygen -A"
  exec := ascii "/usr/sbin/sshd -D -e"
  respawn := .onFailure

def console : Svc where
  name := ascii "console"
  exec := ascii "/usr/bin/vgetty --autologin root --keep-baud %console% 115200,38400,9600 linux"
  respawn := .always

/-- `builtin`. -/
def builtin : List Svc := [vdhcp, sshd, console]

/-- `add_builtins`. -/
def addBuiltins (svcs : List Svc) : List Svc :=
  builtin.foldl (fun svcs b =>
    if maxSvc ≤ svcs.length then svcs
    else if (svcByName svcs b.name).isSome then svcs
    else svcs ++ [b]) svcs

/-- `load_services`: the service files in the order of their names, or no directory at all. -/
def loadServices (disabled : List Name) (dir : Option (List Svc)) : List Svc :=
  match dir with
  | none => addBuiltins []
  | some files => addBuiltins (files.foldl (loadService disabled) [])

/-- The table grows by a file's service, by one that is turned off, or by a built-in one that no
file has. -/
theorem loadServices_rec {P : List Svc → Prop} {disabled : List Name} {dir : Option (List Svc)}
    (nil : P []) (file : ∀ svcs file, P svcs → svcs.length < maxSvc → file.name ∉ disabled →
      P (svcs ++ [cleared file]))
    (off : ∀ svcs file, P svcs → svcs.length < maxSvc → file.name ∈ disabled →
      P (svcs ++ [{ cleared file with respawn := .no, started := true, ready := true }]))
    (known : ∀ svcs, ∀ b ∈ builtin, P svcs → svcs.length < maxSvc → svcByName svcs b.name = none →
      P (svcs ++ [b])) : P (loadServices disabled dir) := by
  have hbuiltins : ∀ svcs, P svcs → P (addBuiltins svcs) := by
    intro svcs h
    refine List.foldlRecOn (motive := P) builtin _ h fun svcs h b hb => ?_
    split
    · exact h
    · rename_i hroom
      split
      · exact h
      · rename_i hnew
        exact known svcs b hb h (by omega) (by simpa using hnew)
  cases dir with
  | none => exact hbuiltins _ nil
  | some files =>
    apply hbuiltins
    refine List.foldlRecOn (motive := P) files _ nil fun svcs h f _ => ?_
    unfold loadService
    split
    · exact h
    · rename_i hroom
      split
      · exact h
      · split
        · rename_i hoff
          exact off svcs f h (by omega) hoff
        · rename_i hon
          exact file svcs f h (by omega) hon

/-! ## `start_all` -/

/-- What `start_all` asks the machine, by the service it asks for. A pid that `fork` returns is not
that of a child there is. -/
structure BootEnv where
  con : List UInt8
  mktime : Int → Int → Int → Int
  now : Nat → Int
  fork : List Kid → Nat → Option Nat
  fresh : ∀ kids i p, fork kids i = some p → 0 < p ∧ ∀ k ∈ kids, k.pid ≠ p
  /-- The `pre` command comes to an end. -/
  preEnds : Nat → Bool
  /-- How the oneshot exits in its thirty seconds, `none` if it does not. -/
  oneshot : Nat → Option Bool
  /-- A port can be taken for the socket service. -/
  listens : Nat → Bool

/-- What is done for a service at boot: `start_service` with or without a child coming of it, a
timer armed, a port asked for and taken or not. -/
inductive Act
  | ran (child : Bool)
  | armed
  | listened (taken : Bool)
deriving DecidableEq

/-- A service handled: by the fallback or in a round, and the table it was handled in. -/
structure Handled where
  svc : Nat
  act : Act
  fallback : Bool
  before : List Svc
deriving DecidableEq

structure Boot where
  w : World
  log : List Handled

/-- `deps_ready`. -/
def depsReady (svcs : List Svc) (s : Svc) : Bool :=
  (words s.needs).all fun x =>
    match svcByName svcs x with
    | none => true
    | some j => match svcs[j]? with
      | none => true
      | some d => d.ready

section Start

variable (env : BootEnv)

/-- The service's `pre` command, if it has one, never ends. -/
def hangs (i : Nat) (s : Svc) : Bool := !(words s.pre).isEmpty && !env.preEnds i

/-- `start_service` at boot; `none` when it does not return. -/
def bootService (b : Boot) (i : Nat) (s : Svc) (fallback : Bool) : Option Boot :=
  if hangs env i s then none
  else
    let fork := env.fork b.w.kids i
    some ⟨b.w.startService env.con i fork,
      b.log ++ [⟨i, .ran (s.hasCommand env.con && fork.isSome), fallback, b.w.svcs⟩]⟩

/-- The wait for a oneshot that has just been started. -/
def awaitOneshot (w : World) (i : Nat) : World :=
  match w.svcs[i]? with
  | none => w
  | some s =>
    if s.pid = 0 then w
    else match env.oneshot i with
      | some clean => (w.reaped s.pid).setSvc i { s with pid := 0, ready := clean }
      | none => w.setSvc i { s with ready := true }

/-- What a round does for a service whose needs are met. -/
def handle (b : Boot) (i : Nat) (s : Svc) : Option Boot :=
  match s.type with
  | .timer =>
    some ⟨b.w.setSvc i { timerSchedule env.mktime (env.now i) s with started := true, ready := true },
      b.log ++ [⟨i, .armed, false, b.w.svcs⟩]⟩
  | .socket =>
    some ⟨b.w.setSvc i { socketListen (env.listens i) s with started := true, ready := true },
      b.log ++ [⟨i, .listened (env.listens i), false, b.w.svcs⟩]⟩
  | .simple => bootService env b i s false
  | .oneshot => (bootService env b i s false).map fun b => ⟨awaitOneshot env b.w i, b.log⟩

/-- A round as far as it has come. -/
structure Round where
  b : Boot
  startedAny : Bool
  pending : Bool

/-- One turn of the inner loop. -/
def visit (r : Round) (i : Nat) : Option Round :=
  match r.b.w.svcs[i]? with
  | none => some r
  | some s =>
    if s.started then some r
    else if depsReady r.b.w.svcs s then (handle env r.b i s).map fun b => ⟨b, true, r.pending⟩
    else some { r with pending := true }

/-- A round. -/
def sweep (b : Boot) : Option Round :=
  (List.range b.w.svcs.length).foldlM (visit env) ⟨b, false, false⟩

/-- One turn of the fallback's loop. -/
def startAnyway (b : Boot) (i : Nat) : Option Boot :=
  match b.w.svcs[i]? with
  | none => some b
  | some s => if s.started then some b else bootService env b i s true

/-- The rounds that are left, and the fallback. -/
def rounds : Nat → Boot → Option Boot
  | 0, b => some b
  | k + 1, b =>
    match sweep env b with
    | none => none
    | some r =>
      if r.pending = false then some r.b
      else if r.startedAny = false then
        (List.range r.b.w.svcs.length).foldlM (startAnyway env) r.b
      else rounds k r.b

/-- `start_all`; `none` when it does not return. -/
def startAll (w : World) : Option Boot := rounds env (maxSvc + 2) ⟨w, []⟩

/-! ## The rule of the boot -/

/-- What handling a service that is not started keeps, in a round or by the fallback. -/
structure BootInvariant (P : World → Prop) : Prop where
  handle : ∀ {b b' : Boot} {i : Nat} {s : Svc}, P b.w → b.w.svcs[i]? = some s → s.started = false →
    handle env b i s = some b' → P b'.w
  anyway : ∀ {b b' : Boot} {i : Nat} {s : Svc}, P b.w → b.w.svcs[i]? = some s → s.started = false →
    bootService env b i s true = some b' → P b'.w

variable {env} {P : World → Prop} {b b' : Boot} {i : Nat}

section

variable (hp : BootInvariant env P)
include hp

theorem BootInvariant.sweep (h : P b.w) {r : Round} (hr : sweep env b = some r) : P r.b.w := by
  refine Lib.Fold.range_partial (P := fun _ r => P r.b.w) h (fun i _ r r' h hr => ?_) hr
  unfold visit at hr
  split at hr
  · cases hr
    exact h
  · rename_i s hs
    split at hr
    · cases hr
      exact h
    · rename_i hu
      split at hr
      · obtain ⟨b1, hb1, hr⟩ := Option.map_eq_some_iff.1 hr
        subst hr
        exact hp.handle h hs (by simpa using hu) hb1
      · cases hr
        exact h

theorem BootInvariant.startAnyway (h : P b.w) (hb : startAnyway env b i = some b') : P b'.w := by
  unfold Urverk.startAnyway at hb
  split at hb
  · cases hb
    exact h
  · rename_i s hs
    split at hb
    · cases hb
      exact h
    · rename_i hu
      exact hp.anyway h hs (by simpa using hu) hb

theorem BootInvariant.rounds (k : Nat) (h : P b.w) (hb : rounds env k b = some b') : P b'.w := by
  induction k generalizing b with
  | zero =>
    cases hb
    exact h
  | succ k ih =>
    rw [Urverk.rounds] at hb
    split at hb
    · cases hb
    · rename_i r hr
      have hsweep := hp.sweep h hr
      split at hb
      · cases hb
        exact hsweep
      · split at hb
        · exact Lib.Fold.range_partial (P := fun _ b => P b.w) hsweep
            (fun _ _ _ _ h hb => hp.startAnyway h hb) hb
        · exact ih hsweep hb

theorem BootInvariant.startAll {w : World} (h : P w) (hb : startAll env w = some b) : P b.w :=
  hp.rounds (b := ⟨w, []⟩) _ h hb

end

end Start

end Verkos.Urverk
