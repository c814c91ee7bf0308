import Mathlib.Data.List.FinRange
import Mathlib.Logic.Function.Basic
import Verkos.Lib.OnesComplement

/-!
# UDP sockets

`net.c` keeps eight sockets, each with room for one datagram. A frame goes through `net_poll`,
`handle_ipv4` and `handle_udp` to the first open socket of the port, and `udp_recvfrom` takes it
from there. ICMP, TCP and ARP leave the sockets alone, so what they do is not here.

A waiting datagram also says which of the frames that have arrived it came in, and what was
returned by `udp_recvfrom` is kept in a list: both only for the statements about a run.
-/

namespace Verkos.Stam.Udp

open Lib Lib.Bytes

/-! ## Bytes on the wire -/

def put16 (v : UInt16) : List UInt8 := big 2 v.toNat
def put32 (v : UInt32) : List UInt8 := big 4 v.toNat

/-- `get16`, at an offset. -/
def get16 (off : Nat) (l : List UInt8) : UInt16 := UInt16.ofNat (ofBig (part off 2 l))
def get32 (off : Nat) (l : List UInt8) : UInt32 := UInt32.ofNat (ofBig (part off 4 l))

/-- `p[off]`. -/
def byte (off : Nat) (l : List UInt8) : Nat := (l.getD off 0).toNat

/-- `sum_add`. -/
def sumAdd (sum : Nat) : List UInt8 → Nat
  | [] => sum
  | [a] => (sum + 256 * a.toNat) % 2 ^ 32
  | a :: b :: rest => sumAdd ((sum + (256 * a.toNat + b.toNat)) % 2 ^ 32) rest

/-- `sum_fold`: the complement, in sixteen bits. -/
def sumFold (sum : Nat) : UInt16 := UInt16.ofNat (65535 - OnesComplement.fold sum)

/-- `checksum`. -/
def checksum (l : List UInt8) : UInt16 := sumFold (sumAdd 0 l)

/-! ## Sockets -/

/-- `NSOCK`. -/
abbrev nSock : Nat := 8

/-- `DGRAM_MAX`. -/
def dgramMax : Nat := 1472

def etIpv4 : UInt16 := 0x0800
def ipUdp : Nat := 17
def broadcast : UInt32 := 0xffffffff

/-- What a socket holds: `data[0..len)` and where it is from; `origin` is the number of the frame. -/
structure Dgram where
  fromIp : UInt32
  fromPort : UInt16
  data : List UInt8
  origin : Nat
  deriving DecidableEq

/-- `struct udp_sock`; `waiting` is `have` and what goes with it. -/
structure Sock where
  used : Bool
  port : UInt16
  waiting : Option Dgram
  deriving DecidableEq

/-- What `udp_recvfrom` returned. -/
structure Delivery where
  port : UInt16
  fromIp : UInt32
  fromPort : UInt16
  data : List UInt8
  origin : Nat
  deriving DecidableEq

structure Net where
  up : Bool
  myIp : UInt32
  socks : Fin nSock → Sock
  nextEphemeral : UInt16
  arrived : List (List UInt8)
  delivered : List Delivery

namespace Net

def set (net : Net) (i : Fin nSock) (s : Sock) : Net :=
  { net with socks := Function.update net.socks i s }

/-- `port_taken`. -/
def portTaken (net : Net) (p : UInt16) : Bool :=
  (List.finRange nSock).any fun i => (net.socks i).used && (net.socks i).port == p

/-- `udp_open`. -/
def udpOpen (net : Net) : Net × Option (Fin nSock) :=
  if net.up = false then (net, none)
  else
    match (List.finRange nSock).find? fun i => !(net.socks i).used with
    | some i => (net.set i ⟨true, 0, none⟩, some i)
    | none => (net, none)

/-- `udp_close`. -/
def udpClose (net : Net) (i : Fin nSock) : Net := net.set i ⟨false, 0, none⟩

/-- The loop over the ephemeral ports: the first that is free, and the next one to try. -/
def ephemeral (net : Net) : Nat → UInt16 → UInt16 × Option UInt16
  | 0, next => (next, none)
  | tries + 1, next =>
    let next' := if next + 1 = 0 then 49152 else next + 1
    if net.portTaken next then ephemeral net tries next' else (next', some next)

/-- `udp_bind`; `false` is -1. -/
def udpBind (net : Net) (i : Fin nSock) (port : UInt16) : Net × Bool :=
  if (net.socks i).used = false then (net, false)
  else if port = 0 then
    match net.ephemeral 4096 net.nextEphemeral with
    | (next, some p) => (({ net with nextEphemeral := next }).set i { net.socks i with port := p }, true)
    | (next, none) => ({ net with nextEphemeral := next }, false)
  else if net.portTaken port then (net, false)
  else (net.set i { net.socks i with port }, true)

/-- `udp_recvfrom`: what it returns, `none` for -1. -/
def udpRecvfrom (net : Net) (i : Fin nSock) (max : Nat) :
    Net × Option (List UInt8 × UInt32 × UInt16) :=
  if (net.socks i).used = false then (net, none)
  else
    match (net.socks i).waiting with
    | none => (net, none)
    | some d =>
      let data := d.data.take max
      let out : Delivery := ⟨(net.socks i).port, d.fromIp, d.fromPort, data, d.origin⟩
      ({ net.set i { net.socks i with waiting := none } with delivered := out :: net.delivered },
        some (data, d.fromIp, d.fromPort))

end Net

/-! ## Out -/

/-- A hardware address. -/
abbrev Mac := { l : List UInt8 // l.length = 6 }

/-- `udp_send_from`: the frame, unless the payload is too long. -/
def udpSendFrom (myMac dstMac : Mac) (srcIp : UInt32) (srcPort : UInt16) (dstIp : UInt32)
    (dstPort : UInt16) (buf : List UInt8) : Option (List UInt8) :=
  if dgramMax < buf.length then none
  else
    let eth := dstMac.1 ++ myMac.1 ++ put16 etIpv4
    let ulen := UInt16.ofNat (8 + buf.length)
    let ip (c : UInt16) := ([0x45, 0] ++ put16 (UInt16.ofNat (20 + 8 + buf.length)) ++
      put16 (srcPort ^^^ dstPort) ++ [0, 0, 64, 17]) ++ (put16 c ++ (put32 srcIp ++ put32 dstIp))
    let udp (c : UInt16) := (put16 srcPort ++ put16 dstPort ++ put16 ulen) ++ (put16 c ++ buf)
    let pseudo := put32 srcIp ++ put32 dstIp ++ [0, 17] ++ put16 ulen
    let c := sumFold (sumAdd (sumAdd 0 pseudo) (udp 0))
    some (eth ++ (ip (checksum (ip 0)) ++ udp (if c = 0 then 0xffff else c)))

/-! ## In -/

/-- The checks of `handle_ipv4`: the protocol, who it is from, who it is for, and what is in it. -/
def ipv4Read (r : List UInt8) : Option (Nat × UInt32 × UInt32 × List UInt8) :=
  let n := r.length
  if n < 14 + 20 then none
  else
    let ip := r.drop 14
    let ihl := byte 0 ip % 16 * 4
    if byte 0 ip / 16 ≠ 4 ∨ ihl < 20 then none
    else if n < 14 + ihl then none
    else if checksum (ip.take ihl) ≠ 0 then none
    else
      let total := (get16 2 ip).toNat
      if total < ihl ∨ n < 14 + total then none
      else some (byte 9 ip, get32 12 ip, get32 16 ip, part ihl (total - ihl) ip)

/-- The checks of `handle_udp`: the ports and the payload. -/
def udpRead (u : List UInt8) : Option (UInt16 × UInt16 × List UInt8) :=
  if u.length < 8 then none
  else
    let ulen := (get16 4 u).toNat
    if ulen < 8 ∨ u.length < ulen then none
    else some (get16 0 u, get16 2 u, part 8 (ulen - 8) u)

namespace Net

/-- The socket that a datagram for a port goes to. -/
def listener (net : Net) (dport : UInt16) : Option (Fin nSock) :=
  (List.finRange nSock).find? fun i => (net.socks i).used && (net.socks i).port == dport

/-- `handle_udp`. -/
def handleUdp (net : Net) (u : List UInt8) (src : UInt32) (origin : Nat) : Net :=
  match udpRead u with
  | none => net
  | some (sport, dport, payload) =>
    match net.listener dport with
    | none => net
    | some i =>
      match (net.socks i).waiting with
      | some _ => net
      | none =>
        net.set i { net.socks i with waiting := some ⟨src, sport, payload.take dgramMax, origin⟩ }

/-- `handle_ipv4`, for the sockets. -/
def handleIpv4 (net : Net) (r : List UInt8) (origin : Nat) : Net :=
  match ipv4Read r with
  | none => net
  | some (proto, src, dst, payload) =>
    if net.myIp ≠ 0 ∧ dst ≠ net.myIp ∧ dst ≠ broadcast then net
    else if proto = ipUdp then net.handleUdp payload src origin
    else net

/-- `net_poll`, with one frame; it is the next one to arrive. -/
def poll (net : Net) (r : List UInt8) : Net :=
  let net := { net with arrived := net.arrived ++ [r] }
  if r.length < 14 then net
  else if get16 12 r = etIpv4 then net.handleIpv4 r (net.arrived.length - 1)
  else net

end Net

/-! ## Runs -/

inductive Op
  | frame (r : List UInt8)
  | udpOpen
  | udpBind (i : Fin nSock) (port : UInt16)
  | udpRecvfrom (i : Fin nSock) (max : Nat)
  | udpClose (i : Fin nSock)

namespace Net

def step (net : Net) : Op → Option Net
  | .frame r => some (net.poll r)
  | .udpOpen => some net.udpOpen.1
  | .udpBind i port => some (net.udpBind i port).1
  | .udpRecvfrom i max => some (net.udpRecvfrom i max).1
  | .udpClose i => some (net.udpClose i)

/-- No socket is open, and nothing has arrived. -/
def init (up : Bool) (myIp : UInt32) : Net where
  up
  myIp
  socks := fun _ => ⟨false, 0, none⟩
  nextEphemeral := 49152
  arrived := []
  delivered := []

end Net

end Verkos.Stam.Udp
