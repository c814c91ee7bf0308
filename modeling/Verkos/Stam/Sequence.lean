import Verkos.Stam.Agreement

/-!
# What is outstanding

A connection has at most one segment that is not acknowledged, and a SYN or FIN beside it. `tcp_send`
gives a segment its numbers when it goes out, and leaves them given when a later `send_seg` fails; it
takes them back when the tries have run out, also where a part of the segment was acknowledged
meanwhile. After the first the numbers that are outstanding add up, after the second `snd_una` is
ahead of `snd_nxt`, and the next segment can be counted as acknowledged by what came for the last.

A run is the atomic steps of all the calls on all the sockets with segments arriving in between.
Beside the table it keeps which call of `tcp_send` each socket is in, the acknowledgements that
arrived for the socket since the present segment went out, and the segments that were counted.
-/

namespace Verkos.Stam.Tcp

open Verkos.Lib
open Function
open Option (some.injEq some.inj map_eq_some_iff ite_none_right_eq_some any_eq_true)
open Table (find_some set_socks_of_ne set_socks_self)
open Serial (ge_iff ge_self)

attribute [local instance] neZero6

/-- A segment `tcp_send` counted as acknowledged: the number behind it, and the acknowledgements that
had arrived since it went out. -/
structure Counted where
  last : Seq
  heard : List Seq

structure Traffic where
  w : World
  doing : Fin nTcp → Option Sending
  heard : Fin nTcp → List Seq
  counted : List Counted

inductive TrafficEvent
  /-- A segment arrives, or a step of another call. -/
  | other (e : Event)
  /-- `tcp_send` with its first `send_seg`, if it comes to it, and whether that went through. -/
  | sends (i : Fin nTcp) (buf : List UInt8) (ok : Bool)
  /-- A look behind a `net_poll`, with the `send_seg` of the next segment. -/
  | looks (i : Fin nTcp) (ok : Bool)
  /-- The deadline of a try, with the `send_seg` of the next. -/
  | expires (i : Fin nTcp) (ok : Bool)

/-- The socket a step is a caller's on. -/
def Event.slot : Event → Option (Fin nTcp)
  | .arrives _ | .opens => none
  | .binds i _ | .listens i _ | .accepts i | .connects i _ _ _ | .sendsSyn i _ | .abandons i
  | .sendsFin i | .frees i => some i

namespace Traffic

variable (my : Ip) (t : Traffic)

def sock (i : Fin nTcp) : Sock := t.w.tab.socks i

/-- Whether an arrival is a segment with an acknowledgement for the socket. -/
def acks (a : Arrival) (i : Fin nTcp) : Option Seq :=
  match decode a.src my a.bytes with
  | none => none
  | some g =>
    if g.flags.ack ∧ g.flags.rst = false ∧ t.w.tab.find (Sock.matches a.src g) = some i then
      some g.ack
    else none

/-- What has been heard behind a step of another call. -/
def hears : Event → Fin nTcp → List Seq
  | .arrives a, i => (t.acks my a i).toList ++ t.heard i
  | _, i => t.heard i

/-- A `send_seg` of the segment: the call waits, or ends where it did not go through. -/
def transmit (i : Fin nTcp) (d : Sending) (ok : Bool) : Traffic :=
  let s := t.sock i
  if ok then
    { t with
      w := t.w.withTab
        (t.w.tab.send s.rip [s.sendSeg { ack := true, psh := true } d.seq d.data false])
      doing := Function.update t.doing i (some d) }
  else { t with doing := Function.update t.doing i none }

/-- A segment takes its numbers and goes out. -/
def begin (i : Fin nTcp) (buf : List UInt8) (sent : Nat) (ok : Bool) : Traffic :=
  let s := t.sock i
  let d : Sending := ⟨buf, sent, s.sndNxt, 0, true⟩
  Traffic.transmit
    { t with
      w := t.w.withTab (t.w.tab.set i { s with sndNxt := d.last })
      heard := Function.update t.heard i [] } i d ok

/-- `tcp_send` gets to its loop, and the loop has something to do. -/
def Goes (i : Fin nTcp) (buf : List UInt8) : Prop :=
  (t.sock i).reset = false ∧ ((t.sock i).state = .established ∨ (t.sock i).state = .closeWait) ∧
    buf ≠ []

instance (i : Fin nTcp) (buf : List UInt8) : Decidable (t.Goes i buf) := by
  unfold Goes
  infer_instance

def finish (i : Fin nTcp) : Traffic := { t with doing := Function.update t.doing i none }

def look (i : Fin nTcp) (d : Sending) (ok : Bool) : Traffic :=
  if (t.sock i).reset then t.finish i
  else if Serial.ge (t.sock i).sndUna d.last then
    let t' : Traffic := { t with counted := t.counted ++ [⟨d.last, t.heard i⟩] }
    if d.sent + d.data.length < d.buf.length then t'.begin i d.buf (d.sent + d.data.length) ok
    else t'.finish i
  else t

/-- The segment's numbers are given back. -/
def rollBack (i : Fin nTcp) (d : Sending) : Traffic :=
  { t with w := t.w.withTab (t.w.tab.set i { t.sock i with sndNxt := d.seq }) }

def expire (i : Fin nTcp) (d : Sending) (ok : Bool) : Traffic :=
  if d.tries + 1 < retries then t.transmit i { d with tries := d.tries + 1 } ok
  else (t.rollBack i d).finish i

/-- Calls on one socket come after each other. -/
def step : TrafficEvent → Option Traffic
  | .other e =>
    if (e.slot.bind t.doing).isSome then none
    else (t.w.step my e).map fun w => { t with w, heard := t.hears my e }
  | .sends i buf ok =>
    if t.w.held i ∧ (t.doing i).isNone then some (if t.Goes i buf then t.begin i buf 0 ok else t)
    else none
  | .looks i ok => (t.doing i).map fun d => t.look i d ok
  | .expires i ok => (t.doing i).map fun d => t.expire i d ok

/-- How many numbers are outstanding. -/
def outstanding (i : Fin nTcp) : Nat := ((t.sock i).sndNxt - (t.sock i).sndUna).toNat

/-- The connection is there, and its SYN is not all there is of it. -/
def PastSynSent (i : Fin nTcp) : Prop :=
  (t.sock i).state ≠ .free ∧ (t.sock i).state ≠ .listen ∧ (t.sock i).state ≠ .synSent

end Traffic

/-- The machine as it starts. -/
def bootTraffic : Traffic := ⟨boot, fun _ => none, fun _ => [], []⟩

/-- What can be reached by steps that each meet `ok`. -/
inductive Flows (my : Ip) (ok : Traffic → TrafficEvent → Prop) : Traffic → Prop
  | start : Flows my ok bootTraffic
  | step {t t' : Traffic} {e : TrafficEvent} : Flows my ok t → ok t e → t.step my e = some t' →
      Flows my ok t'

namespace Traffic

/-- At most a segment and a FIN are outstanding, and what was counted as acknowledged has been. -/
structure InSequence (t : Traffic) : Prop where
  few : ∀ i, t.PastSynSent i → t.outstanding i ≤ 1401
  heard : ∀ c ∈ t.counted, ∃ a ∈ c.heard, Serial.ge a c.last = true

/-- The connection of a socket goes on in the step: it is not the one that makes it. -/
def Continues (t : Traffic) (i : Fin nTcp) : TrafficEvent → Prop
  | .other (.connects j _ _ _) => i ≠ j
  | _ => (t.sock i).state ≠ .free

/-- `snd_una` of every connection is not behind where it was. -/
def Forward (t t' : Traffic) (e : TrafficEvent) : Prop :=
  ∀ i, t.Continues i e → Serial.ge (t'.sock i).sndUna (t.sock i).sndUna = true

/-- A segment is sent where it and what is outstanding fit the bound, and a FIN likewise; numbers are
taken back that nobody has acknowledged. -/
def Clean (t : Traffic) : TrafficEvent → Prop
  | .sends i buf _ => t.Goes i buf → t.outstanding i + min buf.length mss ≤ 1401
  | .expires i _ => ∀ d ∈ t.doing i, retries ≤ d.tries + 1 →
      Serial.ge d.seq (t.sock i).sndUna = true
  | .other (.sendsFin i) => t.outstanding i + 1 ≤ 1401
  | _ => True

instance (t : Traffic) (e : TrafficEvent) : Decidable (t.Clean e) := by
  unfold Clean
  split <;> infer_instance

end Traffic

/-! ## Numbers -/

theorem outstanding_ack {n u a : Seq} (h : (n - u).toNat ≤ 1401) (ha : Serial.ge a u = true)
    (hn : Serial.ge n a = true) : (n - a).toNat ≤ 1401 := by
  rw [ge_iff] at ha hn
  bv_omega

theorem ge_of_outstanding {n u : Seq} (h : (n - u).toNat ≤ 1401) : Serial.ge n u = true := by
  rw [ge_iff]
  omega

theorem outstanding_back {s u : Seq} {len : Nat} (hlen : len ≤ mss)
    (h : (s + BitVec.ofNat 32 len - u).toNat ≤ 1401) (hs : Serial.ge s u = true) :
    (s - u).toNat ≤ 1401 := by
  rw [ge_iff] at hs
  unfold mss at hlen
  bv_omega

theorem outstanding_more {n u : Seq} {len : Nat} (hlen : len ≤ mss)
    (h : (n - u).toNat + len ≤ 1401) :
    (n + BitVec.ofNat 32 len - u).toNat = (n - u).toNat + len := by
  unfold mss at hlen
  bv_omega

/-! ## One segment -/

namespace Sock

theorem stream_snd (s : Sock) (g : Seg) :
    (s.stream g).1.sndNxt = s.sndNxt ∧ (s.stream g).1.sndUna = (s.onAck g).sndUna := by
  have hd := (s.onAck g).onData_snd g
  have hf := ((s.onAck g).onData g).1.onFin_snd g
  exact ⟨hf.1.trans (hd.1.trans (s.onAck_sndNxt g)), hf.2.trans hd.2⟩

/-- What a segment may do to the numbers: `snd_una` becomes what it acknowledges. -/
structure Acks (s : Sock) (g : Seg) (s' : Sock) : Prop where
  ack : g.flags.ack = true
  rst : g.flags.rst = false
  una : s'.sndUna = g.ack
  takes : g.ack = s.sndNxt ∨ Serial.ge g.ack s.sndUna = true ∧ Serial.ge s.sndNxt g.ack = true

theorem onAck_una (s : Sock) (g : Seg) : (s.onAck g).sndUna = s.sndUna ∨
    (s.onAck g).sndUna = g.ack ∧ g.flags.ack = true ∧ Serial.ge g.ack s.sndUna = true ∧
      Serial.ge s.sndNxt g.ack = true := by
  unfold onAck
  split
  · next h =>
    rw [Bool.and_eq_true, Bool.and_eq_true] at h
    exact .inr ⟨rfl, h.1.1, h.1.2, h.2⟩
  · exact .inl rfl

theorem stream_acks (s : Sock) (g : Seg) (hr : g.flags.rst = false) :
    (s.stream g).1.sndUna = s.sndUna ∨ s.Acks g (s.stream g).1 := by
  have hs := (s.stream_snd g).2
  rcases s.onAck_una g with hsame | ⟨hu, hf, htakes⟩
  · exact .inl (hs.trans hsame)
  · exact .inr ⟨hf, hr, hs.trans hu, .inr htakes⟩

theorem input_acks (s : Sock) (g : Seg) : (s.input g).1.sndNxt = s.sndNxt ∧
    ((s.input g).1.sndUna = s.sndUna ∨ s.Acks g (s.input g).1) := by
  unfold input
  cases hr : g.flags.rst with
  | true => exact ⟨rfl, .inl rfl⟩
  | false =>
    rw [if_neg (by decide)]
    split
    · split
      · exact ⟨rfl, .inl rfl⟩
      · next h =>
        simp only [Bool.or_eq_true, Bool.not_eq_true', bne_iff_ne, not_or, Bool.not_eq_false,
          not_not] at h
        exact ⟨rfl, .inr ⟨h.1.2, hr, rfl, .inl h.2⟩⟩
    · split
      · exact ⟨rfl, .inl rfl⟩
      · next h =>
        simp only [Bool.or_eq_true, Bool.not_eq_true', bne_iff_ne, not_or, Bool.not_eq_false,
          not_not] at h
        obtain ⟨hn, hu⟩ := Sock.stream_snd { s with sndUna := g.ack, state := .established } g
        refine ⟨hn, .inr ⟨h.1, hr, hu.trans ?_, .inl h.2⟩⟩
        rcases Sock.onAck_una { s with sndUna := g.ack, state := .established } g with hsame | ⟨hu', -⟩
        · exact hsame
        · exact hu'
    · exact ⟨(s.stream_snd g).1, s.stream_acks g hr⟩

theorem Acks.few {s s' : Sock} {g : Seg} (h : s.Acks g s') (hn : s'.sndNxt = s.sndNxt)
    (hfew : (s.sndNxt - s.sndUna).toNat ≤ 1401) :
    (s'.sndNxt - s'.sndUna).toNat ≤ 1401 ∧ Serial.ge s'.sndUna s.sndUna = true := by
  rw [hn, h.una]
  rcases h.takes with heq | ⟨ha, hge⟩
  · rw [heq, BitVec.sub_self]
    exact ⟨by decide, ge_of_outstanding hfew⟩
  · exact ⟨outstanding_ack hfew ha hge, ha⟩

end Sock

/-! ## One step -/

namespace Traffic

/-- What is outstanding fits the bound on every socket, and the segment a call waits for is
acknowledged only when an acknowledgement of it was heard. -/
structure Inv (t : Traffic) : Prop where
  few : ∀ i, t.outstanding i ≤ 1401
  live : ∀ i d, t.doing i = some d → (t.sock i).Live
  last : ∀ i d, t.doing i = some d → (t.sock i).sndNxt = d.last
  waits : ∀ i d, t.doing i = some d → (t.sock i).sndUna = d.last → d.last ∈ t.heard i
  heard : ∀ c ∈ t.counted, ∃ a ∈ c.heard, Serial.ge a c.last = true

/-- The numbers of a socket stay, and a connection stays one. -/
structure Kept (s s' : Sock) : Prop where
  sndNxt : s'.sndNxt = s.sndNxt
  sndUna : s'.sndUna = s.sndUna
  live : s.Live → s'.Live

theorem Kept.refl (s : Sock) : Kept s s := ⟨rfl, rfl, id⟩

/-- What a segment that arrives does to one socket. -/
theorem arrive_sock (my : Ip) (t : Traffic) (a : Arrival) (i : Fin nTcp) :
    (t.w.arrive my a).tab.socks i = t.sock i ∨
      (∃ g, (t.w.arrive my a).tab.socks i = ((t.sock i).input g).1 ∧ (t.sock i).Live ∧
        (g.flags.ack = true → g.flags.rst = false → t.acks my a i = some g.ack)) ∨
      ∃ src g l iss, (t.sock i).state = .free ∧
        (t.w.arrive my a).tab.socks i = synSock src g l iss := by
  change (t.w.tab.input my a).socks i = _ ∨ _
  unfold World.arrive Table.input acks
  cases hd : decode a.src my a.bytes with
  | none => exact .inl rfl
  | some g =>
    dsimp only
    unfold Table.deliver
    cases hm : t.w.tab.find (Sock.matches a.src g) with
    | some j =>
      by_cases hij : i = j
      · subst hij
        refine .inr (.inl ⟨g, ?_, Sock.live_of_matches (find_some hm), fun ha hr => ?_⟩)
        · exact set_socks_self _ _ _
        · exact if_pos ⟨ha, hr, rfl⟩
      · exact .inl (set_socks_of_ne _ _ hij)
    | none =>
      dsimp only
      split
      · unfold Table.syn
        split
        · next l c _ hc =>
          have hfree := find_some hc
          simp only [Sock.isFree, beq_iff_eq] at hfree
          by_cases hic : i = c
          · subst hic
            exact .inr (.inr ⟨a.src, g, l, a.count.truncate 32, hfree, set_socks_self _ _ _⟩)
          · exact .inl (set_socks_of_ne _ _ hic)
        · exact .inl rfl
      · exact .inl rfl

/-- What a step of another call does to one socket. -/
def Moved (e : Event) (i : Fin nTcp) (s s' : Sock) : Prop :=
  Kept s s' ∨ e.slot = some i ∧
    (s'.sndNxt = s.sndNxt ∧ s'.sndUna = s.sndUna ∨
      (∃ ip port iss, e = .connects i ip port iss) ∧ s'.sndNxt = s'.sndUna + 1 ∨
      e = .sendsFin i ∧ s'.sndNxt = s.sndNxt + 1 ∧ s'.sndUna = s.sndUna)

theorem Kept.set {T : Table} {j : Fin nTcp} {s : Sock} (h : Kept (T.socks j) s) (i : Fin nTcp) :
    Kept (T.socks i) ((T.set j s).socks i) := by
  by_cases hij : i = j
  · subst hij
    rw [set_socks_self]
    exact h
  · rw [set_socks_of_ne _ _ hij]
    exact .refl _

theorem Moved.set {e : Event} {T : Table} {j : Fin nTcp} {s : Sock} (h : Moved e j (T.socks j) s)
    (i : Fin nTcp) : Moved e i (T.socks i) ((T.set j s).socks i) := by
  by_cases hij : i = j
  · subst hij
    rw [set_socks_self]
    exact h
  · rw [set_socks_of_ne _ _ hij]
    exact .inl (.refl _)

theorem step_moved {my : Ip} {w w' : World} {e : Event} (h : w.step my e = some w')
    (he : ∀ a, e ≠ .arrives a) (i : Fin nTcp) : Moved e i (w.tab.socks i) (w'.tab.socks i) := by
  cases e with
  | arrives a => exact (he a rfl).elim
  | opens =>
    obtain rfl := some.inj h
    unfold World.opened tcpOpen
    cases hf : w.tab.find Sock.isFree with
    | none => exact .inl (.refl _)
    | some j =>
      have hfree := find_some hf
      simp only [Sock.isFree, beq_iff_eq] at hfree
      have hk : Kept (w.tab.socks j) (freshSock (w.tab.socks j)) :=
        ⟨rfl, rfl, fun hl => (hl.1 hfree).elim⟩
      exact .inl (hk.set i)
  | binds j port =>
    simp only [World.step, ite_none_right_eq_some, some.injEq] at h
    rw [← h.2]
    change Moved _ i _ ((tcpBind w.tab j port).1.socks i)
    unfold tcpBind
    split_ifs
    · exact .inl (.refl _)
    · exact .inl (.refl _)
    · have hk : Kept (w.tab.socks j) { w.tab.socks j with lport := port } := ⟨rfl, rfl, id⟩
      exact .inl (hk.set i)
  | listens j present =>
    simp only [World.step, ite_none_right_eq_some, some.injEq] at h
    rw [← h.2]
    change Moved _ i _ ((tcpListen present w.tab j).1.socks i)
    unfold tcpListen
    dsimp only
    split_ifs
    · exact .inl (.refl _)
    · exact .inl (.refl _)
    · exact .inl (.refl _)
    · have hm : Moved (.listens j present) j (w.tab.socks j)
          { w.tab.socks j with rport := 0, rip := 0, parent := none, state := .listen } :=
        .inr ⟨rfl, .inl ⟨rfl, rfl⟩⟩
      exact hm.set i
  | accepts l =>
    simp only [World.step, ite_none_right_eq_some, some.injEq] at h
    rw [← h.2]
    unfold World.accept acceptOnce
    cases w.tab.find (Sock.acceptable l) with
    | none => exact .inl (.refl _)
    | some c =>
      have hk : Kept (w.tab.socks c) { w.tab.socks c with parent := none } := ⟨rfl, rfl, id⟩
      exact .inl (hk.set i)
  | connects j ip port iss =>
    simp only [World.step, ite_none_right_eq_some, some.injEq] at h
    rw [← h.2]
    have hm : Moved (.connects j ip port iss) j (w.tab.socks j)
        (connecting (w.tab.socks j) ip port w.tab.nextPort iss) :=
      .inr ⟨rfl, .inr (.inl ⟨⟨ip, port, iss, rfl⟩, rfl⟩)⟩
    exact hm.set i
  | sendsSyn j iss =>
    simp only [World.step, ite_none_right_eq_some, some.injEq] at h
    rw [← h.2]
    exact .inl (.refl _)
  | abandons j =>
    simp only [World.step, ite_none_right_eq_some, some.injEq] at h
    rw [← h.2]
    have hm : Moved (.abandons j) j (w.tab.socks j) { w.tab.socks j with state := .closed } :=
      .inr ⟨rfl, .inl ⟨rfl, rfl⟩⟩
    exact hm.set i
  | sendsFin j =>
    simp only [World.step, ite_none_right_eq_some, some.injEq] at h
    rw [← h.2]
    have hm : Moved (.sendsFin j) j (w.tab.socks j) { w.tab.socks j with
        sndNxt := (w.tab.socks j).sndNxt + 1
        state := if (w.tab.socks j).state = .closeWait then .closed else .finWait } :=
      .inr ⟨rfl, .inr (.inr ⟨rfl, rfl, rfl⟩)⟩
    exact hm.set i
  | frees j =>
    simp only [World.step, ite_none_right_eq_some, some.injEq] at h
    rw [← h.2]
    have hm : Moved (.frees j) j (w.tab.socks j) { w.tab.socks j with state := .free } :=
      .inr ⟨rfl, .inl ⟨rfl, rfl⟩⟩
    exact hm.set i

/-! ## The invariant over one step -/

namespace Inv

variable {t t' : Traffic} {my : Ip} {i : Fin nTcp}

theorem una_of_ge (h : t.Inv) {d : Sending} (hd : t.doing i = some d)
    (hge : Serial.ge (t.sock i).sndUna d.last = true) : (t.sock i).sndUna = d.last := by
  have hfew := h.few i
  unfold outstanding at hfew
  rw [h.last i d hd] at hfew
  rw [ge_iff] at hge
  bv_omega

/-- A step of another call. -/
theorem moved (h : t.Inv) {w : World} {e : Event} (hs : t.w.step my e = some w)
    (he : ∀ a, e ≠ .arrives a) (hslot : (e.slot.bind t.doing).isSome = false)
    (hfin : ∀ i, e = .sendsFin i → t.outstanding i + 1 ≤ 1401) :
    Inv { t with w, heard := t.hears my e } := by
  have hheard : t.hears my e = t.heard := by
    funext i
    cases e with
    | arrives a => exact (he a rfl).elim
    | _ => rfl
  have hidle : ∀ i, e.slot = some i → t.doing i = none := by
    intro i hi
    rw [hi] at hslot
    simpa using hslot
  have hkept : ∀ i d, t.doing i = some d → Kept (t.sock i) (w.tab.socks i) := by
    intro i d hd
    rcases step_moved hs he i with hk | ⟨hi, -⟩
    · exact hk
    · rw [hidle i hi] at hd
      cases hd
  rw [hheard]
  refine ⟨fun i => ?_, fun i d hd => (hkept i d hd).live (h.live i d hd),
    fun i d hd => (hkept i d hd).sndNxt.trans (h.last i d hd),
    fun i d hd hu => h.waits i d hd ((hkept i d hd).sndUna.symm.trans hu), h.heard⟩
  have hfew := h.few i
  have hf := hfin i
  unfold outstanding at hfew hf ⊢
  change ((w.tab.socks i).sndNxt - (w.tab.socks i).sndUna).toNat ≤ 1401
  rcases step_moved hs he i with hk | ⟨-, ⟨hn, hu⟩ | ⟨-, hn⟩ | ⟨hfin, hn, hu⟩⟩
  · rw [hk.sndNxt, hk.sndUna]
    exact hfew
  · rw [hn, hu]
    exact hfew
  · rw [hn]
    bv_omega
  · have hf := hf hfin
    rw [hn, hu]
    change ((t.sock i).sndNxt + 1 - (t.sock i).sndUna).toNat ≤ 1401
    bv_omega

theorem arrives (h : t.Inv) (a : Arrival) :
    Inv { t with w := t.w.arrive my a, heard := t.hears my (.arrives a) } := by
  have hmem : ∀ i x, x ∈ t.heard i → x ∈ t.hears my (.arrives a) i :=
    fun i x hx => List.mem_append_right _ hx
  refine ⟨fun i => ?_, fun i d hd => ?_, fun i d hd => ?_, fun i d hd hu => ?_, h.heard⟩
  · change ((((t.w.arrive my a).tab.socks i).sndNxt) - ((t.w.arrive my a).tab.socks i).sndUna).toNat ≤ 1401
    rcases arrive_sock my t a i with hs | ⟨g, hs, -, -⟩ | ⟨src, g, l, iss, -, hs⟩
    · rw [hs]
      exact h.few i
    · rw [hs]
      obtain ⟨hn, hu | ha⟩ := (t.sock i).input_acks g
      · rw [hn, hu]
        exact h.few i
      · exact (ha.few hn (h.few i)).1
    · rw [hs]
      change (iss + 1 - iss).toNat ≤ 1401
      bv_omega
  · change ((t.w.arrive my a).tab.socks i).Live
    rcases arrive_sock my t a i with hs | ⟨g, hs, -, -⟩ | ⟨src, g, l, iss, hfree, -⟩
    · rw [hs]
      exact h.live i d hd
    · rw [hs]
      exact (Sock.input_live g (h.live i d hd)).1
    · exact ((h.live i d hd).1 hfree).elim
  · change ((t.w.arrive my a).tab.socks i).sndNxt = d.last
    rcases arrive_sock my t a i with hs | ⟨g, hs, -, -⟩ | ⟨src, g, l, iss, hfree, -⟩
    · rw [hs]
      exact h.last i d hd
    · rw [hs, ((t.sock i).input_acks g).1]
      exact h.last i d hd
    · exact ((h.live i d hd).1 hfree).elim
  · change ((t.w.arrive my a).tab.socks i).sndUna = d.last at hu
    rcases arrive_sock my t a i with hs | ⟨g, hs, -, hacks⟩ | ⟨src, g, l, iss, hfree, -⟩
    · rw [hs] at hu
      exact hmem i _ (h.waits i d hd hu)
    · rw [hs] at hu
      rcases ((t.sock i).input_acks g).2 with hsame | ha
      · exact hmem i _ (h.waits i d hd (hsame.symm.trans hu))
      · refine List.mem_append_left _ ?_
        rw [hacks ha.ack ha.rst, ← hu, ha.una]
        exact List.mem_singleton_self _
    · exact ((h.live i d hd).1 hfree).elim

theorem finish (h : t.Inv) (i : Fin nTcp) : (t.finish i).Inv := by
  have hdoing : ∀ j d, (t.finish i).doing j = some d → t.doing j = some d := by
    intro j d hd
    change update t.doing i none j = some d at hd
    by_cases hj : j = i
    · subst hj
      rw [update_self] at hd
      cases hd
    · rwa [update_of_ne hj] at hd
  exact ⟨h.few, fun j d hd => h.live j d (hdoing j d hd), fun j d hd => h.last j d (hdoing j d hd),
    fun j d hd => h.waits j d (hdoing j d hd), h.heard⟩

/-- A call that waits for a segment, beside what holds of the others. -/
theorem transmit (h : (t.finish i).Inv) {d : Sending} (hlive : (t.sock i).Live)
    (hlast : (t.sock i).sndNxt = d.last)
    (hwaits : (t.sock i).sndUna = d.last → d.last ∈ t.heard i) (ok : Bool) :
    (t.transmit i d ok).Inv := by
  cases ok with
  | false => exact h
  | true =>
    have hdoing : ∀ j d', (t.transmit i d true).doing j = some d' →
        (t.finish i).doing j = some d' ∨ j = i ∧ d' = d := by
      intro j d' hd
      change update t.doing i (some d) j = some d' at hd
      by_cases hj : j = i
      · subst hj
        rw [update_self] at hd
        exact .inr ⟨rfl, (some.inj hd).symm⟩
      · rw [update_of_ne hj] at hd
        exact .inl ((update_of_ne hj _ _).trans hd)
    refine ⟨h.few, fun j d' hd => ?_, fun j d' hd => ?_, fun j d' hd => ?_, h.heard⟩
    · rcases hdoing j d' hd with hd | ⟨rfl, -⟩
      · exact h.live j d' hd
      · exact hlive
    · rcases hdoing j d' hd with hd | ⟨rfl, rfl⟩
      · exact h.last j d' hd
      · exact hlast
    · rcases hdoing j d' hd with hd | ⟨rfl, rfl⟩
      · exact h.waits j d' hd
      · exact hwaits

/-- Other numbers in a socket that no call waits on, within the bound. -/
theorem withNxt (h : t.Inv) (hi : t.doing i = none) {n : Seq} {heard : Fin nTcp → List Seq}
    (hheard : ∀ j, j ≠ i → heard j = t.heard j) (hn : (n - (t.sock i).sndUna).toNat ≤ 1401) :
    Inv { t with w := t.w.withTab (t.w.tab.set i { t.sock i with sndNxt := n }), heard } := by
  have hother : ∀ j, j ≠ i → (t.w.tab.set i { t.sock i with sndNxt := n }).socks j = t.sock j :=
    fun j hj => set_socks_of_ne _ _ hj
  have hne : ∀ j d, t.doing j = some d → j ≠ i := by
    rintro j d hd rfl
    rw [hi] at hd
    cases hd
  refine ⟨fun j => ?_, fun j d hd => ?_, fun j d hd => ?_, fun j d hd => ?_, h.heard⟩
  · change (((t.w.tab.set i { t.sock i with sndNxt := n }).socks j).sndNxt -
      ((t.w.tab.set i { t.sock i with sndNxt := n }).socks j).sndUna).toNat ≤ 1401
    by_cases hj : j = i
    · subst hj
      rw [set_socks_self]
      exact hn
    · rw [hother j hj]
      exact h.few j
  · change ((t.w.tab.set i { t.sock i with sndNxt := n }).socks j).Live
    rw [hother j (hne j d hd)]
    exact h.live j d hd
  · change ((t.w.tab.set i { t.sock i with sndNxt := n }).socks j).sndNxt = d.last
    rw [hother j (hne j d hd)]
    exact h.last j d hd
  · change ((t.w.tab.set i { t.sock i with sndNxt := n }).socks j).sndUna = d.last → d.last ∈ heard j
    rw [hother j (hne j d hd), hheard j (hne j d hd)]
    exact h.waits j d hd

theorem begin (h : (t.finish i).Inv) (hlive : (t.sock i).Live) {buf : List UInt8} {sent : Nat}
    (hsent : sent < buf.length) (hfit : t.outstanding i + min (buf.length - sent) mss ≤ 1401)
    (ok : Bool) : (t.begin i buf sent ok).Inv := by
  obtain ⟨d, hd⟩ : ∃ d : Sending, d = ⟨buf, sent, (t.sock i).sndNxt, 0, true⟩ := ⟨_, rfl⟩
  have hlen : d.data.length = min (buf.length - sent) mss := by rw [d.data_length, hd]
  have hlast : d.last = (t.sock i).sndNxt + BitVec.ofNat 32 d.data.length := by rw [Sending.last, hd]
  rw [← hlen] at hfit
  have hmss : d.data.length ≤ mss := by omega
  have hpos : 0 < d.data.length := by
    have : 0 < mss := by decide
    omega
  have hmore := outstanding_more hmss hfit
  rw [← hlast] at hmore
  have hset := @Inv.withNxt (t.finish i) i h (update_self _ _ _) d.last
    (update t.heard i []) (fun j hj => update_of_ne hj _ _) (by
      change (d.last - (t.sock i).sndUna).toNat ≤ 1401
      rw [hmore]
      exact hfit)
  unfold Traffic.begin
  dsimp only
  rw [← hd]
  refine Inv.transmit (t := { t with
    w := t.w.withTab (t.w.tab.set i { t.sock i with sndNxt := d.last })
    heard := update t.heard i [] }) hset ?_ ?_ (fun hu => ?_) ok
  · change ((t.w.tab.set i _).socks i).Live
    rw [set_socks_self]
    exact hlive
  · change ((t.w.tab.set i _).socks i).sndNxt = d.last
    rw [set_socks_self]
  · change ((t.w.tab.set i _).socks i).sndUna = d.last at hu
    rw [set_socks_self] at hu
    change (t.sock i).sndUna = d.last at hu
    rw [← hu, BitVec.sub_self] at hmore
    change 0 = _ at hmore
    omega

/-- What was counted so far and one more. -/
theorem counts (h : t.Inv) {c : Counted} (hc : ∃ a ∈ c.heard, Serial.ge a c.last = true) :
    Inv { t with counted := t.counted ++ [c] } := by
  refine ⟨h.few, h.live, h.last, h.waits, fun c' hc' => ?_⟩
  rcases List.mem_append.1 hc' with hc' | hc'
  · exact h.heard c' hc'
  · rw [List.mem_singleton.1 hc']
    exact hc

theorem look (h : t.Inv) {d : Sending} (hd : t.doing i = some d) (ok : Bool) :
    (t.look i d ok).Inv := by
  unfold Traffic.look
  split_ifs with hreset hge hmore
  · exact h.finish i
  · have hu := h.una_of_ge hd hge
    have hcounted := h.counts (c := ⟨d.last, t.heard i⟩) ⟨_, h.waits i d hd hu, ge_self _⟩
    refine (hcounted.finish i).begin (h.live i d hd) hmore ?_ ok
    change ((t.sock i).sndNxt - (t.sock i).sndUna).toNat + _ ≤ 1401
    rw [h.last i d hd, hu, BitVec.sub_self]
    change 0 + _ ≤ 1401
    have : mss ≤ 1401 := by decide
    omega
  · have hu := h.una_of_ge hd hge
    exact (h.counts (c := ⟨d.last, t.heard i⟩) ⟨_, h.waits i d hd hu, ge_self _⟩).finish i
  · exact h

theorem expire (h : t.Inv) {d : Sending} (hd : t.doing i = some d)
    (hback : retries ≤ d.tries + 1 → Serial.ge d.seq (t.sock i).sndUna = true) (ok : Bool) :
    (t.expire i d ok).Inv := by
  unfold Traffic.expire
  split_ifs with hlt
  · exact (h.finish i).transmit (d := { d with tries := d.tries + 1 }) (h.live i d hd)
      (h.last i d hd) (h.waits i d hd) ok
  · have hlen : d.data.length ≤ mss := by
      rw [d.data_length]
      omega
    have hfew := h.few i
    unfold outstanding at hfew
    rw [h.last i d hd] at hfew
    exact (h.finish i).withNxt (update_self _ _ _) (fun j _ => rfl)
      (outstanding_back hlen hfew (hback (Nat.le_of_not_lt hlt)))

theorem step (h : t.Inv) {e : TrafficEvent} (hc : t.Clean e) (hs : t.step my e = some t') :
    t'.Inv := by
  cases e with
  | other e =>
    simp only [Traffic.step] at hs
    split_ifs at hs with hslot
    obtain ⟨w, hw, rfl⟩ := map_eq_some_iff.1 hs
    by_cases ha : ∃ a, e = .arrives a
    · obtain ⟨a, rfl⟩ := ha
      obtain rfl := some.inj hw
      exact h.arrives a
    · refine h.moved hw (fun a he => ha ⟨a, he⟩) (by simpa using hslot) ?_
      rintro i rfl
      exact hc
  | sends i buf ok =>
    simp only [Traffic.step, ite_none_right_eq_some, some.injEq] at hs
    obtain ⟨⟨-, hidle⟩, rfl⟩ := hs
    split_ifs with hgo
    · have hlive : (t.sock i).Live := by
        rcases hgo.2.1 with hst | hst <;> exact ⟨by rw [hst]; decide, by rw [hst]; decide⟩
      exact (h.finish i).begin hlive (List.length_pos_of_ne_nil hgo.2.2) (hc hgo) ok
    · exact h
  | looks i ok =>
    obtain ⟨d, hd, rfl⟩ := map_eq_some_iff.1 hs
    exact h.look hd ok
  | expires i ok =>
    obtain ⟨d, hd, rfl⟩ := map_eq_some_iff.1 hs
    exact h.expire hd (hc d hd) ok

end Inv

section Una

variable (t : Traffic) (i j : Fin nTcp) (ok : Bool)

theorem transmit_sock (d : Sending) : (t.transmit i d ok).sock j = t.sock j := by
  cases ok <;> rfl

theorem set_una (n : Seq) :
    ((t.w.tab.set i { t.sock i with sndNxt := n }).socks j).sndUna = (t.sock j).sndUna := by
  by_cases hj : j = i
  · subst hj
    rw [set_socks_self]
  · rw [set_socks_of_ne _ _ hj]
    rfl

theorem begin_una (buf : List UInt8) (sent : Nat) :
    ((t.begin i buf sent ok).sock j).sndUna = (t.sock j).sndUna := by
  unfold Traffic.begin
  dsimp only
  rw [transmit_sock]
  exact t.set_una i j _

theorem look_una (d : Sending) : ((t.look i d ok).sock j).sndUna = (t.sock j).sndUna := by
  unfold Traffic.look
  split_ifs
  · rfl
  · exact begin_una { t with counted := t.counted ++ [⟨d.last, t.heard i⟩] } i j ok _ _
  · rfl
  · rfl

theorem expire_una (d : Sending) : ((t.expire i d ok).sock j).sndUna = (t.sock j).sndUna := by
  unfold Traffic.expire
  split_ifs
  · rw [transmit_sock]
  · exact t.set_una i j _

end Una

theorem Inv.forward {t t' : Traffic} {my : Ip} (h : t.Inv) {e : TrafficEvent}
    (hs : t.step my e = some t') : t.Forward t' e := by
  intro i hi
  have hsame : (t'.sock i).sndUna = (t.sock i).sndUna →
      Serial.ge (t'.sock i).sndUna (t.sock i).sndUna = true := fun hu => by
    rw [hu]
    exact ge_self _
  cases e with
  | other e =>
    simp only [Traffic.step] at hs
    split_ifs at hs with hslot
    obtain ⟨w, hw, rfl⟩ := map_eq_some_iff.1 hs
    by_cases ha : ∃ a, e = .arrives a
    · obtain ⟨a, rfl⟩ := ha
      obtain rfl := some.inj hw
      change Serial.ge ((t.w.arrive my a).tab.socks i).sndUna _ = true
      rcases arrive_sock my t a i with hs' | ⟨g, hs', -, -⟩ | ⟨src, g, l, iss, hfree, -⟩
      · rw [hs']
        exact ge_self _
      · rw [hs']
        obtain ⟨hn, hu | hacks⟩ := (t.sock i).input_acks g
        · rw [hu]
          exact ge_self _
        · exact (hacks.few hn (h.few i)).2
      · exact (hi hfree).elim
    · rcases step_moved hw (fun a he => ha ⟨a, he⟩) i with hk | ⟨-, ⟨-, hu⟩ | ⟨⟨ip, port, iss, rfl⟩, -⟩ | ⟨-, -, hu⟩⟩
      · exact hsame hk.sndUna
      · exact hsame hu
      · exact (hi rfl).elim
      · exact hsame hu
  | sends j buf ok =>
    simp only [Traffic.step, ite_none_right_eq_some, some.injEq] at hs
    obtain ⟨-, rfl⟩ := hs
    refine hsame ?_
    split_ifs
    · exact t.begin_una j i ok buf 0
    · rfl
  | looks j ok =>
    obtain ⟨d, -, rfl⟩ := map_eq_some_iff.1 hs
    exact hsame (t.look_una j i ok d)
  | expires j ok =>
    obtain ⟨d, -, rfl⟩ := map_eq_some_iff.1 hs
    exact hsame (t.expire_una j i ok d)

theorem boot_inv : bootTraffic.Inv where
  few i := by
    change ((0 : Seq) - 0).toNat ≤ 1401
    decide
  live i d hd := nomatch hd
  last i d hd := nomatch hd
  waits i d hd := nomatch hd
  heard c hc := nomatch hc

end Traffic

/-- Some steps that each meet `ok`. -/
def Traffic.steps (my : Ip) (ok : Traffic → TrafficEvent → Prop) [∀ t e, Decidable (ok t e)]
    (t : Traffic) (es : List TrafficEvent) : Option Traffic :=
  es.foldlM (fun t e => if ok t e then t.step my e else none) t

theorem Flows.steps {my : Ip} {ok : Traffic → TrafficEvent → Prop} [∀ t e, Decidable (ok t e)] :
    ∀ (es : List TrafficEvent) {t t' : Traffic}, Flows my ok t → t.steps my ok es = some t' →
      Flows my ok t'
  | [], t, t', h, hs => by
    obtain rfl : t = t' := some.inj hs
    exact h
  | e :: es, t, t', h, hs => by
    obtain ⟨t₁, h1, hs1⟩ := Option.bind_eq_some_iff.1 (show (if ok t e then t.step my e else none).bind
      (fun t₁ => t₁.steps my ok es) = some t' from hs)
    rw [ite_none_right_eq_some] at h1
    exact Flows.steps es (h.step h1.1 h1.2) hs1

/-- A segment from the peer's port 80 to the first port this end connects from. -/
def fromServer (ack : Seq) (flags : Flags) : TrafficEvent :=
  .other (.arrives ⟨Seg.encode peerIp myIp ⟨80, 40000, 100, ack, flags, 0, false, []⟩, peerIp, 0⟩)

/-- A connection to the peer's port 80, with 8 as the first number. -/
def connected : List TrafficEvent :=
  [.other .opens, .other (.connects 0 peerIp 80 7), fromServer 8 { syn := true, ack := true }]

/-- A byte is sent and the acknowledgement does not come. -/
def partlyAcked : List TrafficEvent :=
  connected ++ [TrafficEvent.sends 0 [65, 66] true, fromServer 9 { ack := true }] ++
    List.replicate retries (.expires 0 true)

theorem flows_of_test {p : Traffic → Bool} {es : List TrafficEvent}
    (h : (bootTraffic.steps myIp (fun _ _ => True) es).any p = true) :
    ∃ t, Flows myIp (fun _ _ => True) t ∧ p t = true := by
  obtain ⟨t, ht, hp⟩ := (any_eq_true _ _).1 h
  exact ⟨t, Flows.steps _ .start ht, hp⟩

theorem pastSynSent_of_established {t : Traffic} {i : Fin nTcp}
    (h : (t.sock i).state = .established) : t.PastSynSent i := by
  refine ⟨?_, ?_, ?_⟩ <;> rw [h] <;> decide

end Verkos.Stam.Tcp
