import Verkos.Lib.Serial
import Mathlib.Data.List.FinRange
import Mathlib.Logic.Function.Basic

/-!
# TCP, the client half and the listener

`tcp.c` keeps six sockets and decides everything it does from a segment and the socket the segment
is for. `Sock.input` is that decision for one socket, in the order `tcp_input` makes it; `Table`
is the six sockets with the wire behind them, and `Table.input` finds the socket first.

Frames are dispatched by whoever waits for one, so between two looks of a call that waits at the
table any frames may have arrived. What is here of the calls is what each does between two waits.
-/

namespace Verkos.Stam.Tcp

open Verkos.Lib

abbrev Ip := BitVec 32
abbrev Port := BitVec 16
abbrev Seq := BitVec 32

/-- `NTCP`. -/
abbrev nTcp : Nat := 6
theorem neZero6 : NeZero 6 := ⟨by decide⟩
/-- `RXBUF`. -/
abbrev rxBuf : Nat := 4096
/-- `MSS`. -/
abbrev mss : Nat := 1400
/-- `RETRIES`. -/
abbrev retries : Nat := 6

inductive State
  | free
  | listen
  | synSent
  | synRcvd
  | established
  | closeWait
  | finWait
  | closed
deriving DecidableEq, Repr

/-- A socket. `rx` is as much of the buffer as `rxlen` says is in use. -/
structure Sock where
  state : State
  lport : Port
  rport : Port
  rip : Ip
  sndNxt : Seq
  sndUna : Seq
  rcvNxt : Seq
  rx : List UInt8
  finSeen : Bool
  reset : Bool
  parent : Option (Fin nTcp)
deriving DecidableEq, Repr

/-- The flags of a segment that anything here sets or looks at. -/
structure Flags where
  fin : Bool := false
  syn : Bool := false
  rst : Bool := false
  psh : Bool := false
  ack : Bool := false
deriving DecidableEq, Repr

/-- A segment, without the header fields that can be worked out from the rest. -/
structure Seg where
  sport : Port
  dport : Port
  seq : Seq
  ack : Seq
  flags : Flags
  window : BitVec 16
  withMss : Bool
  data : List UInt8
deriving DecidableEq, Repr

/-! ## Bytes -/

/-- `put16`. -/
def put16 (v : BitVec 16) : List UInt8 := [UInt8.ofNat (v.toNat / 256), UInt8.ofNat v.toNat]

/-- `put32`. -/
def put32 (v : BitVec 32) : List UInt8 :=
  [UInt8.ofNat (v.toNat / 16777216), UInt8.ofNat (v.toNat / 65536), UInt8.ofNat (v.toNat / 256),
    UInt8.ofNat v.toNat]

/-- `get16` at an offset. -/
def get16 (p : List UInt8) (at' : Nat) : BitVec 16 :=
  BitVec.ofNat 16 ((p.getD at' 0).toNat * 256 + (p.getD (at' + 1) 0).toNat)

/-- `get32` at an offset. -/
def get32 (p : List UInt8) (at' : Nat) : BitVec 32 :=
  BitVec.ofNat 32 ((p.getD at' 0).toNat * 16777216 + (p.getD (at' + 1) 0).toNat * 65536 +
    (p.getD (at' + 2) 0).toNat * 256 + (p.getD (at' + 3) 0).toNat)

/-- `sum_add`. A segment is shorter than a frame, so the sum does not leave its 32 bits. -/
def sumAdd (sum : Nat) : List UInt8 → Nat
  | a :: b :: rest => sumAdd (sum + a.toNat * 256 + b.toNat) rest
  | [a] => sum + a.toNat * 256
  | [] => sum

def foldOnce (sum : Nat) : Nat := sum % 65536 + sum / 65536

/-- `sum_fold`. A 32-bit sum is down to sixteen bits after two rounds, and a third changes
nothing. -/
def sumFold (sum : Nat) : Nat := 65535 - foldOnce (foldOnce sum)

/-- `net_ip_checksum_with_pseudo` for TCP. -/
def checksum (src dst : Ip) (seg : List UInt8) : Nat :=
  sumFold (sumAdd (sumAdd 0 (put32 src ++ put32 dst ++ [0, 6] ++
    put16 (BitVec.ofNat 16 seg.length))) seg)

def Flags.byte (f : Flags) : UInt8 :=
  UInt8.ofNat ((if f.fin then 1 else 0) + (if f.syn then 2 else 0) + (if f.rst then 4 else 0) +
    (if f.psh then 8 else 0) + (if f.ack then 16 else 0))

def Flags.ofByte (b : UInt8) : Flags where
  fin := b.toNat.testBit 0
  syn := b.toNat.testBit 1
  rst := b.toNat.testBit 2
  psh := b.toNat.testBit 3
  ack := b.toNat.testBit 4

/-- The header up to the checksum, and what follows the checksum. -/
def Seg.front (g : Seg) : List UInt8 :=
  put16 g.sport ++ put16 g.dport ++ put32 g.seq ++ put32 g.ack ++
    [if g.withMss then 96 else 80, g.flags.byte] ++ put16 g.window

def Seg.back (g : Seg) : List UInt8 :=
  [0, 0] ++ (if g.withMss then [2, 4] ++ put16 (BitVec.ofNat 16 mss) else []) ++ g.data

/-- The bytes `send_seg` hands to the network. -/
def Seg.encode (src dst : Ip) (g : Seg) : List UInt8 :=
  g.front ++ put16 (BitVec.ofNat 16 (checksum src dst (g.front ++ [0, 0] ++ g.back))) ++ g.back

/-- What `tcp_input` reads out of a segment, if it does not drop it at once. -/
def decode (src my : Ip) (seg : List UInt8) : Option Seg :=
  let hlen := (seg.getD 12 0).toNat / 16 * 4
  if seg.length < 20 then none
  else if hlen < 20 ∨ seg.length < hlen then none
  else if checksum src my seg ≠ 0 then none
  else some {
    sport := get16 seg 0
    dport := get16 seg 2
    seq := get32 seg 4
    ack := get32 seg 8
    flags := Flags.ofByte (seg.getD 13 0)
    window := get16 seg 14
    withMss := decide (hlen ≠ 20)
    data := seg.drop hlen }

/-! ## One socket -/

/-- The state behind a FIN. -/
def State.finished : State → State
  | .established => .closeWait
  | .finWait => .closed
  | st => st

namespace Sock

/-- `send_seg`: the window is what is free in the receive buffer. -/
def sendSeg (s : Sock) (flags : Flags) (seq : Seq) (data : List UInt8) (withMss : Bool) : Seg where
  sport := s.lport
  dport := s.rport
  seq := seq
  ack := s.rcvNxt
  flags := flags
  window := BitVec.ofNat 16 (rxBuf - s.rx.length)
  withMss := withMss
  data := data

/-- `send_seg(s, F_ACK, s->snd_nxt, 0, 0, 0)`. -/
def sendAck (s : Sock) : Seg := s.sendSeg { ack := true } s.sndNxt [] false

/-- An acknowledgement only moves forward, and not past what was sent. -/
def onAck (s : Sock) (g : Seg) : Sock :=
  if g.flags.ack && Serial.ge g.ack s.sndUna && Serial.ge s.sndNxt g.ack then
    { s with sndUna := g.ack }
  else s

/-- How much of a segment's data there is room for. -/
def room (s : Sock) (g : Seg) : Nat := min g.data.length (rxBuf - s.rx.length)

/-- Data that starts where it is wanted goes into the buffer as far as there is room. -/
def take (s : Sock) (g : Seg) : Sock :=
  if g.seq = s.rcvNxt then
    { s with
      rx := s.rx ++ g.data.take (s.room g)
      rcvNxt := s.rcvNxt + BitVec.ofNat 32 (s.room g) }
  else s

/-- Acknowledged either way. -/
def onData (s : Sock) (g : Seg) : Sock × List Seg :=
  if g.data = [] then (s, []) else (s.take g, [(s.take g).sendAck])

def ended (s : Sock) (g : Seg) : Sock :=
  { s with rcvNxt := g.seq + BitVec.ofNat 32 g.data.length + 1, finSeen := true }

def onFin (s : Sock) (g : Seg) : Sock × List Seg :=
  if g.flags.fin && Serial.ge s.rcvNxt g.seq then
    ({ s.ended g with state := s.state.finished }, [(s.ended g).sendAck])
  else (s, [])

/-- A segment for a connection that is past its handshake. -/
def stream (s : Sock) (g : Seg) : Sock × List Seg :=
  let (s₁, out₁) := (s.onAck g).onData g
  let (s₂, out₂) := s₁.onFin g
  (s₂, out₁ ++ out₂)

/-- `tcp_input` once it has the socket. The segment that ends a passive handshake may carry data. -/
def input (s : Sock) (g : Seg) : Sock × List Seg :=
  if g.flags.rst then ({ s with reset := true, state := .closed }, [])
  else match s.state with
    | .synSent =>
      if !g.flags.syn || !g.flags.ack || g.ack != s.sndNxt then (s, [])
      else
        let s₁ := { s with sndUna := g.ack, rcvNxt := g.seq + 1, state := .established }
        (s₁, [s₁.sendAck])
    | .synRcvd =>
      if !g.flags.ack || g.ack != s.sndNxt then (s, [])
      else { s with sndUna := g.ack, state := .established }.stream g
    | _ => s.stream g

end Sock

/-! ## The table -/

/-- A segment and where it was sent. -/
structure Sent where
  dst : Ip
  seg : Seg
deriving DecidableEq, Repr

/-- The sockets, the next port a connection is given, and everything that was ever sent. -/
structure Table where
  socks : Fin nTcp → Sock
  nextPort : Port
  wire : List Sent

/-- A frame for this machine: the TCP part, the sender, and what the counter reads as it is
handled. -/
structure Arrival where
  bytes : List UInt8
  src : Ip
  count : BitVec 64

namespace Table

def set (T : Table) (i : Fin nTcp) (s : Sock) : Table :=
  { T with socks := Function.update T.socks i s }

def send (T : Table) (dst : Ip) (gs : List Seg) : Table :=
  { T with wire := T.wire ++ gs.map (Sent.mk dst) }

/-- The first socket that will do. -/
def find (T : Table) (p : Sock → Bool) : Option (Fin nTcp) :=
  (List.finRange nTcp).find? fun i => p (T.socks i)

end Table

/-- The four-tuple identifies a connection. -/
def Sock.matches (src : Ip) (g : Seg) (s : Sock) : Bool :=
  s.state != .free && s.state != .listen && s.lport == g.dport && s.rport == g.sport &&
    s.rip == src

def Sock.listensOn (port : Port) (s : Sock) : Bool := s.state == .listen && s.lport == port

def Sock.isFree (s : Sock) : Bool := s.state == .free

/-- The connection a SYN opens, in the backlog of the listener `l`. -/
def synSock (src : Ip) (g : Seg) (l : Fin nTcp) (iss : Seq) : Sock where
  state := .synRcvd
  lport := g.dport
  rport := g.sport
  rip := src
  sndNxt := iss + 1
  sndUna := iss
  rcvNxt := g.seq + 1
  rx := []
  finSeen := false
  reset := false
  parent := some l

namespace Table

/-- A SYN for a listener takes a free socket, or is dropped in silence. -/
def syn (T : Table) (src : Ip) (g : Seg) (iss : Seq) : Table :=
  match T.find (Sock.listensOn g.dport), T.find Sock.isFree with
  | some l, some c =>
    let s := synSock src g l iss
    (T.set c s).send src [s.sendSeg { syn := true, ack := true } iss [] true]
  | _, _ => T

/-- A segment, once it has been read. -/
def deliver (T : Table) (src : Ip) (g : Seg) (iss : Seq) : Table :=
  match T.find (Sock.matches src g) with
  | some i => (T.set i ((T.socks i).input g).1).send (T.socks i).rip ((T.socks i).input g).2
  | none => if g.flags.syn && !g.flags.ack then T.syn src g iss else T

/-- `tcp_input`. -/
def input (my : Ip) (T : Table) (a : Arrival) : Table :=
  match decode a.src my a.bytes with
  | none => T
  | some g => T.deliver a.src g (a.count.truncate 32)

end Table

/-! ## The calls -/

def freshSock (s : Sock) : Sock :=
  { s with
    state := .closed
    rx := []
    finSeen := false
    reset := false
    lport := 0
    rport := 0
    rip := 0
    parent := none }

/-- `tcp_open`. -/
def tcpOpen (T : Table) : Table × Option (Fin nTcp) :=
  match T.find Sock.isFree with
  | some i => (T.set i (freshSock (T.socks i)), some i)
  | none => (T, none)

/-- Whether another socket listens on a port. -/
def portTaken (T : Table) (i : Fin nTcp) (port : Port) : Bool :=
  (List.finRange nTcp).any fun j => j != i && (T.socks j).listensOn port

/-- `tcp_bind`. -/
def tcpBind (T : Table) (i : Fin nTcp) (port : Port) : Table × Int :=
  if (T.socks i).state ≠ .closed then (T, -22)
  else if portTaken T i port then (T, -98)
  else (T.set i { T.socks i with lport := port }, 0)

/-- `tcp_listen`. -/
def tcpListen (present : Bool) (T : Table) (i : Fin nTcp) : Table × Int :=
  let s := T.socks i
  if s.state ≠ .closed ∨ present = false then (T, -22)
  else if s.lport = 0 then (T, -22)
  else if portTaken T i s.lport then (T, -98)
  else (T.set i { s with rport := 0, rip := 0, parent := none, state := .listen }, 0)

/-- A connection in the backlog of `l` that has finished its handshake. -/
def Sock.acceptable (l : Fin nTcp) (s : Sock) : Bool :=
  s.parent == some l && (s.state == .established || s.state == .closeWait)

/-- One look of `tcp_accept` at the table. -/
def acceptOnce (T : Table) (l : Fin nTcp) : Table × Option (Fin nTcp) :=
  match T.find (Sock.acceptable l) with
  | some c => (T.set c { T.socks c with parent := none }, some c)
  | none => (T, none)

def giveUp (T : Table) (i : Fin nTcp) : Table × Int :=
  (T.set i { T.socks i with state := .closed }, -110)

/-- The port after `p`, from 40000 on. -/
def portAfter (p : Port) : Port := if p + 1 < 40000 then 40000 else p + 1

def connecting (s : Sock) (ip : Ip) (port lport : Port) (iss : Seq) : Sock :=
  { s with
    sndUna := iss
    sndNxt := iss + 1
    rcvNxt := 0
    rip := ip
    rport := port
    lport := lport
    state := .synSent }

/-- `sent ? (long)sent : error`. -/
def sentOr (sent : Nat) (error : Int) : Int := if sent = 0 then error else sent

/-- What `tcp_recv` does when it looks at the socket: the bytes and a result, or `none` to go on
waiting. -/
def recvOnce (T : Table) (i : Fin nTcp) (max : Nat) : Table × Option (Int × List UInt8) :=
  let s := T.socks i
  if s.rx ≠ [] then
    let n := min s.rx.length max
    (T.set i { s with rx := s.rx.drop n }, some (n, s.rx.take n))
  else if s.reset then (T, some (-104, []))
  else if s.finSeen then (T, some (0, []))
  else (T, none)

def freed (T : Table) (i : Fin nTcp) : Table := T.set i { T.socks i with state := .free }

/-- The FIN of `tcp_close` and the state behind it. -/
def closing (T : Table) (i : Fin nTcp) : Table :=
  let s := T.socks i
  (T.send s.rip [s.sendSeg { fin := true, ack := true } s.sndNxt [] false]).set i
    { s with
      sndNxt := s.sndNxt + 1
      state := if s.state = .closeWait then .closed else .finWait }

end Verkos.Stam.Tcp
