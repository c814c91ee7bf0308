import Mathlib.Data.List.Basic
import Mathlib.Data.UInt

/-!
# The state machine of vdhcp

`run_interface` in DHCP mode: ask for the address of last time, or discover and request one, probe
it, put it on the interface, and then wait three times: until T1, until T2 while it asks the
server that gave the lease, and until the lease is over while it asks every server.

Time is a clock of whole seconds, and it passes only while the program waits: in `select` for a
reply (`retransmit`), for a conflict or the end of T1 (`bound_wait`), or asleep (`nap`). Everything
between two waits happens at once, the probe and the announcement of an address included. An input
is what ends or disturbs a wait, or what the program learns in between: whether a packet could be
sent, whether the probe was answered. A signal may come in between as well, and is then seen only
where the program looks.
-/

namespace Verkos.Vdhcp

/-- `struct lease`, less what `parse` reads for the routes, the resolver and the hook alone. -/
structure Lease where
  ip : UInt32 := 0
  mask : UInt32 := 0
  router : UInt32 := 0
  serverId : UInt32 := 0
  dns : List UInt32 := []
  lease : UInt32 := 0
  t1 : UInt32 := 0
  t2 : UInt32 := 0
  acquired : Int := 0
  deriving DecidableEq

def dhcpOffer : Int := 2
def dhcpAck : Int := 5
def dhcpNak : Int := 6

/-- `(int)`, of an unsigned value. -/
def toInt (d : UInt32) : Int := d.toInt32.toInt

/-- The lease time of an ACK, which is an hour when it has none. -/
def granted (ls : Lease) : UInt32 := if ls.lease = 0 then 3600 else ls.lease

/-- `set_timers`. -/
def setTimers (now : Int) (ls : Lease) : Lease :=
  let lease := granted ls
  { ls with
    lease := lease
    t1 := if ls.t1 = 0 ∨ lease ≤ ls.t1 then lease / 2 else ls.t1
    t2 := if ls.t2 = 0 ∨ lease ≤ ls.t2 then lease - lease / 8 else ls.t2
    acquired := now }

/-- `inherit`. -/
def inherit (ls cur : Lease) : Lease :=
  { ls with
    router := if ls.router = 0 then cur.router else ls.router
    mask := if ls.mask = 0 then cur.mask else ls.mask
    dns := if ls.dns = [] then cur.dns else ls.dns }

/-! ## One exchange -/

/-- What comes from outside. `reply` has the transaction's id, and is what `parse` makes of it:
its message type, or -1, and the lease it fills in. -/
inductive Input
  | tick
  | sent (ok : Bool)
  | reply (type : Int) (ls : Lease)
  /-- A packet that is no answer to the request: `raw_recv` and `udp_recv` go round. -/
  | other
  /-- A signal that does not end the program. -/
  | interrupted
  | term
  | probe (used : Bool)
  | conflict

/-- Where `retransmit` is: about to send, or waiting for `w` seconds until some time. -/
inductive Stage
  | send
  | recv (w upto : Int)
  deriving DecidableEq

structure Exchange where
  deadline : Int
  wait : Int
  stage : Stage
  deriving DecidableEq

/-- What `retransmit` returns: a reply, -1 or -2. -/
inductive Outcome
  | reply (type : Int) (ls : Lease)
  | failed
  | terminated

inductive Progress
  | goesOn (x : Exchange)
  | returns (o : Outcome)

namespace Exchange

/-- `wait_readable` said -1: the end of the body of `retransmit`, and the head of its loop. -/
def timedOut (x : Exchange) (now : Int) (term : Bool) : Progress :=
  if x.deadline ≤ now then .returns .failed
  else if term then .returns .terminated
  else .goesOn { x with wait := if x.wait < 64 then x.wait * 2 else 64, stage := .send }

/-- `retransmit`, from one input to the next; for a `tick`, `now` is the new time. -/
def step (x : Exchange) (now : Int) (term : Bool) : Input → Option Progress
  | .sent ok =>
    match x.stage with
    | .send =>
      let budget := x.deadline - now
      let w := if x.wait < budget then x.wait else budget
      some (if ok = false ∨ w ≤ 0 then .returns .failed
        else .goesOn { x with stage := .recv w (now + w) })
    | .recv .. => none
  | .tick =>
    match x.stage with
    | .send => none
    | .recv _ u => some (if now < u then .goesOn x else x.timedOut now term)
  | .interrupted =>
    match x.stage with
    | .send => none
    | .recv .. => some (if term then .returns .terminated else x.timedOut now term)
  | .other =>
    match x.stage with
    | .send => none
    | .recv w _ => some (.goesOn { x with stage := .recv w (now + w) })
  | .reply type ls =>
    match x.stage with
    | .send => none
    | .recv .. => some (.returns (.reply type ls))
  | .term =>
    match x.stage with
    | .send => some (.goesOn x)
    | .recv .. => some (.returns .terminated)
  | .probe _ => none
  | .conflict => none

end Exchange

/-! ## The machine -/

/-- What an exchange is for. -/
inductive Request
  | reboot
  | discover
  | request (ip : UInt32)
  | renew
  | rebind
  deriving DecidableEq

inductive Phase
  | exchange (r : Request) (x : Exchange)
  | napping (upto : Int)
  | probing (ls : Lease)
  | waiting (upto : Int)
  | done
  deriving DecidableEq

/-- What was learned about an address. -/
inductive Heard
  | ack (ip lease : UInt32)
  | nak (ip : UInt32)
  | declined (ip : UInt32)
  deriving DecidableEq

def Heard.about : Heard → UInt32
  | .ack ip _ => ip
  | .nak ip => ip
  | .declined ip => ip

/-- The variables of `run_interface`, the address of the interface and, for the statements about a
run only, what was heard and when, the last of it first. -/
structure St where
  clock : Int
  term : Bool
  ifaddr : UInt32
  bound : Bool
  cur : Lease
  tryReboot : Bool
  saved : UInt32
  phase : Phase
  heard : List (Int × Heard)
  deriving DecidableEq

/-- Settings of the run: `-1`, and whether the ARP socket could be opened. -/
structure Conf where
  oneshot : Bool
  arp : Bool

namespace St

def hear (st : St) (h : Heard) : St := { st with heard := (st.clock, h) :: st.heard }

/-- Past the main loop. -/
def finish (st : St) : St :=
  { st with phase := .done, ifaddr := if st.term && st.bound then 0 else st.ifaddr }

/-- A call of `retransmit`. -/
def ask (st : St) (r : Request) (total : Int) : St :=
  if st.term then st.finish
  else { st with phase := .exchange r ⟨st.clock + total, 4, .send⟩ }

/-- The head of the main loop. -/
def restart (st : St) : St :=
  if st.term then st.finish
  else if st.tryReboot then st.ask .reboot 8
  else st.ask .discover 60

/-- `if (nap(secs)) break; continue;` -/
def nap (st : St) (secs : Int) : St :=
  if st.term then st.finish else { st with phase := .napping (st.clock + secs) }

def renew (st : St) : St := st.ask .renew (toInt (st.cur.t2 - st.cur.t1))

def rebind (st : St) : St := st.ask .rebind (toInt (st.cur.lease - st.cur.t2))

/-- The head of the inner loop: `bound_wait`. -/
def boundWait (st : St) : St :=
  if st.term then st.finish
  else if st.cur.t1 = 0 then st.renew
  else { st with phase := .waiting (st.clock + st.cur.t1.toNat) }

/-- `set_timers`, `apply_lease` and `cur = ls`. -/
def apply (st : St) (ls : Lease) : St :=
  { st with cur := setTimers st.clock ls, ifaddr := ls.ip, bound := true }

/-- `deconfigure`, `bound = 0` and out of the inner loop. -/
def lose (st : St) : St := restart { st with ifaddr := 0, bound := false }

/-- The probe was not answered, or it was. -/
def probed (c : Conf) (st : St) (ls : Lease) (used : Bool) : St :=
  if used then (st.hear (.declined ls.ip)).nap 10
  else if c.oneshot then (st.apply ls).finish
  else (st.apply ls).boundWait

/-- The address a request is for. -/
def asked (st : St) : Request → Option UInt32
  | .reboot => some st.saved
  | .discover => none
  | .request ip => some ip
  | .renew => some st.cur.ip
  | .rebind => some st.cur.ip

/-- What a reply says about an address. -/
def said (st : St) (r : Request) (type : Int) (ls : Lease) : St :=
  if type = dhcpAck ∧ ls.ip ≠ 0 then st.hear (.ack ls.ip (granted ls))
  else if type = dhcpNak then
    match st.asked r with
    | some ip => st.hear (.nak ip)
    | none => st
  else st

/-- What `run_interface` does with a reply. -/
def replied (st : St) (r : Request) (type : Int) (ls : Lease) : St :=
  match r with
  | .reboot =>
    if type = dhcpAck ∧ ls.ip ≠ 0 then { st with tryReboot := false, phase := .probing ls }
    else restart { st with tryReboot := false }
  | .discover =>
    if type = dhcpAck ∧ ls.ip ≠ 0 then { st with phase := .probing ls }
    else if type = dhcpOffer ∧ ls.ip ≠ 0 then st.ask (.request ls.ip) 30
    else st.nap 3
  | .request _ =>
    if type = dhcpAck ∧ ls.ip ≠ 0 then { st with phase := .probing ls } else st.nap 3
  | .renew =>
    if type = dhcpAck ∧ ls.ip ≠ 0 then (st.apply (inherit ls st.cur)).boundWait else st.rebind
  | .rebind =>
    if type = dhcpAck ∧ ls.ip ≠ 0 then (st.apply (inherit ls st.cur)).boundWait else st.lose

/-- And with none. -/
def unanswered (st : St) : Request → St
  | .reboot => restart { st with tryReboot := false }
  | .discover => st.nap 3
  | .request _ => st.nap 3
  | .renew => st.rebind
  | .rebind => st.lose

/-- Behind a call of `retransmit`. -/
def returned (st : St) (r : Request) : Outcome → St
  | .reply type ls => (st.said r type ls).replied r type ls
  | .failed => st.unanswered r
  | .terminated => st.finish

/-- An input in a phase, the clock and the signal having been seen to. -/
def react (c : Conf) (st : St) (i : Input) : Option St :=
  match st.phase with
  | .exchange r x => (x.step st.clock st.term i).map fun
    | .goesOn x => { st with phase := .exchange r x }
    | .returns o => st.returned r o
  | .napping u =>
    match i with
    | .tick => some (if st.clock < u then st else st.restart)
    | .interrupted => some st
    | .term => some st.finish
    | _ => none
  | .probing ls =>
    match i with
    | .probe used => some (st.probed c ls used)
    | .term => some st
    | _ => none
  | .waiting u =>
    match i with
    | .tick => some (if st.clock < u then st else st.renew)
    | .interrupted => some st
    | .other => some st
    | .term => some st.finish
    | .conflict => if c.arp then some (st.hear (.declined st.cur.ip)).lose else none
    | _ => none
  | .done => none

/-- One input. -/
def step (c : Conf) (st : St) (i : Input) : Option St :=
  match i with
  | .tick => react c { st with clock := st.clock + 1 } .tick
  | .term => react c { st with term := true } .term
  | i => react c st i

/-- The head of the main loop for the first time; `load_lease` found a lease or did not. -/
def start (clock : Int) (term : Bool) (saved : Option UInt32) : St :=
  restart { clock, term, ifaddr := 0, bound := false, cur := {}, tryReboot := saved.isSome,
            saved := saved.getD 0, phase := .done, heard := [] }

end St

end Verkos.Vdhcp
