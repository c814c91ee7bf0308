import Verkos.Stam.Backlog

/-!
# The end of a stream

The other end of a connection has bytes to say and then a FIN, and the segments it says them in may
be cut anywhere, come in any order and come again. `tcp_input` takes data only where it is wanted
and only as far as there is room; it takes a FIN whenever the segment does not begin ahead of what
is wanted, whether or not the data before the FIN was taken. So a segment that overlaps what is
there already, or does not fit, can end the stream before its last bytes.

A run is segments arriving at one socket, or anywhere else in the table, with looks of `tcp_recv` at
the socket in between. It keeps everything `tcp_recv` has returned.
-/

namespace Verkos.Stam.Tcp

open Verkos.Lib
open List

attribute [local instance] neZero6

/-- What the other end has to say: the bytes behind its SYN, and then a FIN. -/
structure Peer where
  irs : Seq
  bytes : List UInt8

namespace Peer

/-- The sequence number of a position in the stream. -/
def num (P : Peer) (pos : Nat) : Seq := Serial.num (P.irs + 1) pos

/-- The segment says what the stream has at `pos`. A SYN has the number before the first byte, and
a FIN comes behind the last. -/
structure At (P : Peer) (pos : Nat) (g : Seg) : Prop where
  seq : (if g.flags.syn then g.seq + 1 else g.seq) = P.num pos
  syn : g.flags.syn = true → pos = 0
  fits : pos + g.data.length ≤ P.bytes.length
  data : g.data = (P.bytes.drop pos).take g.data.length
  fin : g.flags.fin = true → pos + g.data.length = P.bytes.length

/-- A segment that is consistent with the stream. -/
def Sends (P : Peer) (g : Seg) : Prop := g.flags.rst = false ∧ ∃ pos, P.At pos g

/-- A socket whose connection to this end has been asked for, or made, and has carried nothing. -/
structure Opens (P : Peer) (s : Sock) : Prop where
  state : s.state = .synSent ∨ s.state = .synRcvd ∨ s.state = .established
  next : s.state ≠ .synSent → s.rcvNxt = P.irs + 1
  rx : s.rx = []
  finSeen : s.finSeen = false
  reset : s.reset = false

end Peer

/-- The table, and what `tcp_recv` has returned. -/
structure Reading where
  tab : Table
  results : List (Int × List UInt8)

inductive ReadEvent
  | arrives (a : Arrival)
  /-- One look of `tcp_recv` with room for so many bytes. -/
  | looks (max : Nat)

/-- The bytes of some results. -/
def bytesOf (results : List (Int × List UInt8)) : List UInt8 := (results.map Prod.snd).flatten

namespace Reading

def step (my : Ip) (i : Fin nTcp) (w : Reading) : ReadEvent → Reading
  | .arrives a => { w with tab := w.tab.input my a }
  | .looks max =>
    match recvOnce w.tab i max with
    | (T, some r) => ⟨T, w.results ++ [r]⟩
    | (T, none) => { w with tab := T }

def sock (w : Reading) (i : Fin nTcp) : Sock := w.tab.socks i

/-- What `tcp_recv` has returned, and what waits for it. -/
def received (w : Reading) (i : Fin nTcp) : List UInt8 := bytesOf w.results ++ (w.sock i).rx

/-- An arrival that is a segment for the socket. -/
def Reaches (my : Ip) (i : Fin nTcp) (w : Reading) (a : Arrival) (g : Seg) : Prop :=
  decode a.src my a.bytes = some g ∧ w.tab.find (Sock.matches a.src g) = some i

/-- Whatever reaches the socket is consistent with the stream. -/
def FromPeer (my : Ip) (i : Fin nTcp) (P : Peer) (w : Reading) : ReadEvent → Prop
  | .arrives a => ∀ g, w.Reaches my i a g → P.Sends g
  | .looks _ => True

/-- `tcp_recv` has returned a prefix of the stream, and where it returned zero it had returned all of
it. -/
def Honest (P : Peer) (w : Reading) : Prop :=
  bytesOf w.results <+: P.bytes ∧
    ∀ before r after, w.results = before ++ r :: after → r.1 = 0 → bytesOf before = P.bytes

end Reading

/-- What can be reached by steps that each meet `ok`, from a connection that has carried nothing. -/
inductive Reads (my : Ip) (i : Fin nTcp) (P : Peer) (ok : Reading → ReadEvent → Prop) : Reading → Prop
  | start {T : Table} : P.Opens (T.socks i) → Reads my i P ok ⟨T, []⟩
  | step {w : Reading} {e : ReadEvent} : Reads my i P ok w → w.FromPeer my i P e → ok w e →
      Reads my i P ok (w.step my i e)

/-- Whether a segment gets past the handshake. -/
def Sock.hears (s : Sock) (g : Seg) : Bool :=
  match s.state with
  | .synSent => false
  | .synRcvd => g.flags.ack && g.ack == s.sndNxt
  | _ => true

/-- Data with the number that is wanted is the data that is wanted, not that of another lap of the
sequence numbers. A FIN that does not begin ahead of what is wanted finds the stream complete, or
completes it: its data begins where it is wanted and fits. -/
structure Peer.InTime (P : Peer) (got : Nat) (s : Sock) (pos : Nat) (g : Seg) : Prop where
  atPos : P.At pos g
  data : g.data ≠ [] → g.seq = s.rcvNxt → g.flags.syn = false ∧ pos = got
  fin : g.flags.fin = true → Serial.ge s.rcvNxt g.seq = true → got = P.bytes.length ∨
    (g.flags.syn = false ∧ pos = got ∧ g.data.length ≤ rxBuf - s.rx.length)

/-- Every segment the socket hears is in time, and `tcp_recv` is not asked for nothing while bytes
wait for it. -/
def Reading.Timely (my : Ip) (i : Fin nTcp) (P : Peer) (w : Reading) : ReadEvent → Prop
  | .arrives a => ∀ g, w.Reaches my i a g → (w.sock i).hears g = true →
      ∃ pos, P.InTime (w.received i).length (w.sock i) pos g
  | .looks max => max = 0 → (w.sock i).rx = []

/-! ## One segment -/

/-- How a socket stands in the stream when `out` has been returned: what it has received is a prefix,
the number it wants next is that of the byte behind it, and once it has seen the FIN it has
everything. -/
structure Sock.Follows (P : Peer) (out : List UInt8) (s : Sock) : Prop where
  live : s.Live
  noReset : s.reset = false
  got : out ++ s.rx <+: P.bytes
  next : s.finSeen = false → s.state ≠ .synSent → s.rcvNxt = P.num (out ++ s.rx).length
  silent : s.state = .synSent → s.finSeen = false ∧ out ++ s.rx = []
  ended : s.finSeen = true → out ++ s.rx = P.bytes

theorem Peer.Opens.follows {P : Peer} {s : Sock} (h : P.Opens s) : s.Follows P [] := by
  refine ⟨?_, h.reset, ?_, fun _ hs => ?_, fun _ => ⟨h.finSeen, ?_⟩, fun hf => ?_⟩
  · rcases h.state with hs | hs | hs <;> exact ⟨by rw [hs]; decide, by rw [hs]; decide⟩
  · rw [h.rx]
    exact nil_prefix
  · rw [h.next hs, h.rx]
    exact (Serial.num_zero _).symm
  · rw [h.rx]
    rfl
  · rw [h.finSeen] at hf
    cases hf

namespace Sock.Follows

variable {P : Peer} {out : List UInt8} {s : Sock} {g : Seg} {pos : Nat}

theorem take_eq (h : s.Follows P out) : P.bytes.take (out ++ s.rx).length = out ++ s.rx :=
  (prefix_iff_eq_take.1 h.got).symm

theorem withUna (h : s.Follows P out) (una : Seq) : { s with sndUna := una }.Follows P out :=
  ⟨h.live, h.noReset, h.got, h.next, h.silent, h.ended⟩

theorem onAck (h : s.Follows P out) : (s.onAck g).Follows P out := by
  unfold Sock.onAck
  split
  · exact h.withUna g.ack
  · exact h

section

variable (h : s.Follows P out) (hs : s.state ≠ .synSent)
include h hs

theorem take (hd : g.data ≠ []) (ht : P.InTime (out ++ s.rx).length s pos g) :
    (s.take g).Follows P out := by
  unfold Sock.take
  split
  · rename_i hseq
    obtain ⟨-, rfl⟩ := ht.data hd hseq
    have hpiece : out ++ (s.rx ++ g.data.take (s.room g)) =
        P.bytes.take ((out ++ s.rx).length + s.room g) := by
      have hlen : s.room g ≤ g.data.length := Nat.min_le_left _ _
      rw [take_add, h.take_eq, ← append_assoc]
      congr 1
      conv_lhs => rw [ht.atPos.data]
      rw [take_take, Nat.min_eq_left hlen]
    have hroom : (g.data.take (s.room g)).length = s.room g := by
      rw [length_take]
      exact Nat.min_eq_left (Nat.min_le_left _ _)
    refine ⟨h.live, h.noReset, ?_, fun hf _ => ?_, fun hs' => (hs hs').elim, fun hf => ?_⟩
    · rw [hpiece]
      exact take_prefix _ _
    · change s.rcvNxt + BitVec.ofNat 32 (s.room g) = P.num _
      have hlen : (out ++ (s.rx ++ g.data.take (s.room g))).length =
          (out ++ s.rx).length + s.room g := by
        simp only [length_append, hroom]
        omega
      rw [h.next hf hs, hlen]
      exact (Serial.num_add _ _ _).symm
    · -- a complete stream has no more data
      have hfits := ht.atPos.fits
      rw [h.ended hf] at hfits
      have : g.data = [] := eq_nil_of_length_eq_zero (by omega)
      exact (hd this).elim
  · exact h

theorem onData (ht : P.InTime (out ++ s.rx).length s pos g) : (s.onData g).1.Follows P out := by
  unfold Sock.onData
  split
  · exact h
  · rename_i hd
    exact h.take hs hd ht

theorem complete (ht : P.InTime (out ++ s.rx).length s pos g) (hf : g.flags.fin = true)
    (hge : Serial.ge (s.onData g).1.rcvNxt g.seq = true) : out ++ (s.onData g).1.rx = P.bytes := by
  have hd := h.onData hs ht
  have hge' : Serial.ge s.rcvNxt g.seq = true := by
    by_cases hseq : g.seq = s.rcvNxt
    · rw [hseq]
      exact Serial.ge_self _
    · have hsame : (s.onData g).1.rcvNxt = s.rcvNxt := by
        unfold Sock.onData Sock.take
        rw [if_neg hseq]
        split <;> rfl
      rw [← hsame]
      exact hge
  have hgrow : s.rx.length ≤ (s.onData g).1.rx.length := by
    unfold Sock.onData Sock.take
    split
    · exact le_rfl
    · split
      · simp
      · exact le_rfl
  apply hd.got.eq_of_length_le
  rcases ht.fin hf hge' with hall | ⟨hsyn, rfl, hfits⟩
  · rw [length_append] at hall ⊢
    omega
  · cases hfin : s.finSeen with
    | true =>
      have hall := congrArg List.length (h.ended hfin)
      rw [length_append] at hall ⊢
      omega
    | false =>
      -- it begins where it is wanted, so it is taken, and all of it
      have hseq : g.seq = s.rcvNxt := by
        rw [h.next hfin hs, ← ht.atPos.seq, hsyn]
        rfl
      have hlast := ht.atPos.fin hf
      have hroom : s.room g = g.data.length := Nat.min_eq_left hfits
      by_cases hnil : g.data = []
      · simp only [Sock.onData, hnil, if_true, length_nil] at hlast ⊢
        omega
      · simp only [Sock.onData, hnil, if_false, Sock.take, hseq, if_true, hroom, take_length,
          length_append] at hlast ⊢
        omega

theorem onFin (hall : g.flags.fin = true → Serial.ge s.rcvNxt g.seq = true → out ++ s.rx = P.bytes) :
    (s.onFin g).1.Follows P out := by
  unfold Sock.onFin
  split
  · rename_i hc
    obtain ⟨hf, hge⟩ := Bool.and_eq_true_iff.1 hc
    have hst : s.state.finished ≠ .synSent := by
      intro he
      cases hst : s.state <;> rw [hst] at he <;> simp [State.finished] at he
      exact hs hst
    exact ⟨State.finished_live h.live, h.noReset, h.got, fun hfs => Bool.noConfusion hfs,
      fun he => (hst he).elim, fun _ => hall hf hge⟩
  · exact h

theorem stream (ht : P.InTime (out ++ s.rx).length s pos g) : (s.stream g).1.Follows P out := by
  have ha : (s.onAck g).Follows P out := h.onAck
  have hsa : (s.onAck g).state ≠ .synSent := by
    rw [Sock.onAck_state]
    exact hs
  have hta : P.InTime (out ++ (s.onAck g).rx).length (s.onAck g) pos g := by
    unfold Sock.onAck
    split
    · exact ⟨ht.atPos, ht.data, ht.fin⟩
    · exact ht
  have hsd : ((s.onAck g).onData g).1.state ≠ .synSent := by
    rw [Sock.onData_state]
    exact hsa
  exact (ha.onData hsa hta).onFin hsd fun hf hge => ha.complete hsa hta hf hge

end

theorem input (h : s.Follows P out) (hg : P.Sends g)
    (ht : s.hears g = true → ∃ pos, P.InTime (out ++ s.rx).length s pos g) :
    (s.input g).1.Follows P out := by
  obtain ⟨hrst, pos0, hat⟩ := hg
  unfold Sock.hears at ht
  unfold Sock.input
  rw [if_neg (by rw [hrst]; decide)]
  split
  · rename_i hst
    split
    · exact h
    · -- the SYN of the other end: nothing has been received, and its first byte is wanted
      rename_i hc
      simp only [Bool.or_eq_true, Bool.not_eq_true', not_or, Bool.not_eq_false] at hc
      obtain ⟨-, hnil⟩ := h.silent hst
      have hpos : g.seq + 1 = P.num 0 := by
        have hseq := hat.seq
        rw [if_pos hc.1.1, hat.syn hc.1.1] at hseq
        exact hseq
      refine ⟨⟨by simp, by simp⟩, h.noReset, h.got, fun _ _ => ?_, fun he => State.noConfusion he, h.ended⟩
      change g.seq + 1 = P.num (out ++ s.rx).length
      rw [hnil, hpos]
      rfl
  · rename_i hst
    split
    · exact h
    · rename_i hc
      simp only [Bool.or_eq_true, Bool.not_eq_true', bne_iff_ne, ne_eq, not_or, Bool.not_eq_false,
        Classical.not_not] at hc
      rw [hst] at ht
      obtain ⟨pos, hin⟩ := ht (by simp [hc])
      have hest : { s with sndUna := g.ack, state := .established }.Follows P out :=
        ⟨⟨by simp, by simp⟩, h.noReset, h.got, fun hf _ => h.next hf (by rw [hst]; decide),
          fun he => State.noConfusion he, h.ended⟩
      have hlate : P.InTime (out ++ s.rx).length
          { s with sndUna := g.ack, state := .established } pos g := ⟨hin.atPos, hin.data, hin.fin⟩
      exact hest.stream (by simp) hlate
  · rename_i hne hnr
    have hhear : s.hears g = true := by
      unfold Sock.hears
      split
      · rename_i he
        exact (hne he).elim
      · rename_i he
        exact (hnr he).elim
      · rfl
    obtain ⟨pos, hin⟩ := ht hhear
    exact h.stream hne hin

end Sock.Follows

/-! ## Runs -/

/-- What a run keeps. -/
structure Reading.Inv (i : Fin nTcp) (P : Peer) (w : Reading) : Prop where
  follows : (w.sock i).Follows P (bytesOf w.results)
  honest : ∀ before r after, w.results = before ++ r :: after → r.1 = 0 → bytesOf before = P.bytes

@[simp] theorem bytesOf_append (rs : List (Int × List UInt8)) (r : Int × List UInt8) :
    bytesOf (rs ++ [r]) = bytesOf rs ++ r.2 := by
  simp [bytesOf]

theorem Table.syn_socks_of_used {T : Table} {i : Fin nTcp} (src : Ip) (g : Seg) (iss : Seq)
    (h : (T.socks i).state ≠ .free) : (T.syn src g iss).socks i = T.socks i := by
  unfold Table.syn
  split
  · rename_i l c hl hc
    have hfree := Table.find_some hc
    simp only [Sock.isFree, beq_iff_eq] at hfree
    have hic : i ≠ c := by
      rintro rfl
      exact h hfree
    exact Table.set_socks_of_ne _ _ hic
  · rfl

namespace Reading.Inv

variable {my : Ip} {i : Fin nTcp} {P : Peer} {w : Reading}

theorem arrives (h : w.Inv i P) {a : Arrival} (hp : w.FromPeer my i P (.arrives a))
    (ht : w.Timely my i P (.arrives a)) : (w.step my i (.arrives a)).Inv i P := by
  refine ⟨?_, h.honest⟩
  change ((w.tab.input my a).socks i).Follows P (bytesOf w.results)
  unfold Table.input
  cases hd : decode a.src my a.bytes with
  | none => exact h.follows
  | some g =>
    change ((w.tab.deliver a.src g (a.count.truncate 32)).socks i).Follows P (bytesOf w.results)
    unfold Table.deliver
    cases hm : w.tab.find (Sock.matches a.src g) with
    | some j =>
      by_cases hij : i = j
      · subst hij
        simp only [Table.send_socks, Table.set_socks_self]
        exact h.follows.input (hp g ⟨hd, hm⟩) (ht g ⟨hd, hm⟩)
      · simp only [Table.send_socks, Table.set_socks_of_ne _ _ hij]
        exact h.follows
    | none =>
      by_cases hsyn : (g.flags.syn && !g.flags.ack) = true
      · simp only [hsyn, if_true, Table.syn_socks_of_used _ _ _ h.follows.live.1]
        exact h.follows
      · simp only [hsyn]
        exact h.follows

theorem honest_append (h : w.Inv i P) {r : Int × List UInt8}
    (hr : r.1 = 0 → bytesOf w.results = P.bytes) : ∀ before r' after,
      w.results ++ [r] = before ++ r' :: after → r'.1 = 0 → bytesOf before = P.bytes := by
  intro before r' after he hz
  rcases append_eq_append_iff.1 he with ⟨m, rfl, hm⟩ | ⟨m, hres, hm⟩
  · cases m with
    | nil =>
      obtain ⟨rfl, -⟩ := List.cons.inj hm
      rw [append_nil]
      exact hr hz
    | cons y m => simp at hm
  · cases m with
    | nil =>
      obtain ⟨rfl, -⟩ := List.cons.inj hm
      rw [append_nil] at hres
      rw [← hres]
      exact hr hz
    | cons y m =>
      obtain ⟨rfl, -⟩ := List.cons.inj hm
      exact h.honest before r' m hres hz

theorem looks (h : w.Inv i P) {max : Nat} (ht : w.Timely my i P (.looks max)) :
    (w.step my i (.looks max)).Inv i P := by
  have hf : (w.tab.socks i).Follows P (bytesOf w.results) := h.follows
  have hask : max = 0 → (w.tab.socks i).rx = [] := ht
  unfold Reading.step recvOnce
  by_cases hrx : (w.tab.socks i).rx = []
  · cases hfin : (w.tab.socks i).finSeen with
    | true =>
      have hall := hf.ended hfin
      rw [hrx, append_nil] at hall
      simp only [hrx, ne_eq, not_true_eq_false, if_false, hf.noReset, hfin, Bool.false_eq_true, if_true]
      refine ⟨?_, h.honest_append fun _ => hall⟩
      rw [bytesOf_append, append_nil]
      exact hf
    | false =>
      simp only [hrx, ne_eq, not_true_eq_false, if_false, hf.noReset, hfin, Bool.false_eq_true]
      exact h
  · simp only [ne_eq, hrx, not_false_eq_true, if_true]
    refine ⟨?_, h.honest_append fun hz => ?_⟩
    · have hsplit : bytesOf w.results ++ (w.tab.socks i).rx.take (min (w.tab.socks i).rx.length max) ++
          (w.tab.socks i).rx.drop (min (w.tab.socks i).rx.length max) =
          bytesOf w.results ++ (w.tab.socks i).rx := by
        rw [append_assoc, take_append_drop]
      rw [bytesOf_append]
      simp only [Reading.sock, Table.set_socks_self]
      constructor
      · exact hf.live
      · exact hf.noReset
      · rw [hsplit]
        exact hf.got
      · rw [hsplit]
        exact hf.next
      · rw [hsplit]
        exact hf.silent
      · rw [hsplit]
        exact hf.ended
    · have hpos : 0 < (w.tab.socks i).rx.length := length_pos_of_ne_nil hrx
      have hmax : max ≠ 0 := fun he => hrx (hask he)
      have hzero : min (w.tab.socks i).rx.length max = 0 := Int.ofNat_eq_zero.1 hz
      omega

end Reading.Inv

theorem Reads.inv {my : Ip} {i : Fin nTcp} {P : Peer} {w : Reading}
    (h : Reads my i P (Reading.Timely my i P) w) : w.Inv i P := by
  induction h with
  | start ho => exact ⟨ho.follows, fun before r after he => by simp at he⟩
  | @step w e _ hp ht ih =>
    cases e with
    | arrives a => exact ih.arrives hp ht
    | looks max => exact ih.looks ht

/-- In every run in which every segment the socket hears is in time: what `tcp_recv` has returned is
a prefix of the stream, and where it returned zero it had returned all of the stream. -/
theorem end_of_stream_honest {my : Ip} {i : Fin nTcp} {P : Peer} {w : Reading}
    (h : Reads my i P (Reading.Timely my i P) w) : w.Honest P :=
  ⟨(prefix_append _ _).trans h.inv.follows.got, h.inv.honest⟩

/-! ## A FIN that came too early -/

/-- A connection from port 40000 to port 80 of the other end, with nothing received. -/
def readerSock : Sock := ⟨.established, 40000, 80, peerIp, 8, 8, 100, [], false, false, none⟩

def readerTable : Table := ⟨fun j => if j = 0 then readerSock else noSock, 40001, []⟩

/-- The other end says two bytes. -/
def twoBytes : Peer := ⟨99, [1, 2]⟩

def fromPort80 (seq : Seq) (flags : Flags) (data : List UInt8) : Seg :=
  ⟨80, 40000, seq, 8, flags, 0, false, data⟩

def arrival (g : Seg) : Arrival := ⟨Seg.encode peerIp myIp g, peerIp, 0⟩

theorem twoBytes_opens : twoBytes.Opens (readerTable.socks 0) :=
  ⟨.inr (.inr rfl), fun _ => rfl, rfl, rfl, rfl⟩

/-- The first byte, the second with the FIN, and both with the FIN. -/
def first : Seg := fromPort80 100 { ack := true } [1]
def secondFin : Seg := fromPort80 101 { ack := true, fin := true } [2]
def bothFin : Seg := fromPort80 100 { ack := true, fin := true } [1, 2]

theorem twoBytes_first : twoBytes.At 0 first :=
  ⟨by decide, fun _ => rfl, by decide, by decide, by decide⟩

theorem twoBytes_secondFin : twoBytes.At 1 secondFin :=
  ⟨by decide, by decide, by decide, by decide, by decide⟩

theorem twoBytes_bothFin : twoBytes.At 0 bothFin :=
  ⟨by decide, fun _ => rfl, by decide, by decide, by decide⟩

theorem decode_arrival_first : decode (arrival first).src myIp (arrival first).bytes = some first := by
  decide +kernel

theorem decode_arrival_secondFin :
    decode (arrival secondFin).src myIp (arrival secondFin).bytes = some secondFin := by
  decide +kernel

theorem decode_arrival_bothFin :
    decode (arrival bothFin).src myIp (arrival bothFin).bytes = some bothFin := by
  decide +kernel

theorem Reading.fromPeer_arrival {w : Reading} {g : Seg} {pos : Nat} (hat : twoBytes.At pos g)
    (hr : g.flags.rst = false) (hd : decode (arrival g).src myIp (arrival g).bytes = some g) :
    w.FromPeer myIp 0 twoBytes (.arrives (arrival g)) := by
  intro g' hg
  obtain rfl := Option.some.inj (hd.symm.trans hg.1)
  exact ⟨hr, pos, hat⟩

/-- The byte, the rest with the FIN, and two looks. -/
theorem end_of_stream_honest_twoBytes : ∃ w, Reads myIp 0 twoBytes (Reading.Timely myIp 0 twoBytes) w ∧
    w.results = [(2, [1, 2]), (0, [])] ∧ w.Honest twoBytes := by
  have h0 : Reads myIp 0 twoBytes (Reading.Timely myIp 0 twoBytes) ⟨readerTable, []⟩ :=
    .start twoBytes_opens
  have h1 := h0.step (e := .arrives (arrival first))
    (Reading.fromPeer_arrival twoBytes_first rfl decode_arrival_first) (by
      intro g hg _
      obtain rfl := Option.some.inj (decode_arrival_first.symm.trans hg.1)
      exact ⟨0, twoBytes_first, fun _ _ => ⟨rfl, rfl⟩, fun hf => (nomatch hf)⟩)
  have h2 := h1.step (e := .arrives (arrival secondFin))
    (Reading.fromPeer_arrival twoBytes_secondFin rfl decode_arrival_secondFin) (by
      intro g hg _
      obtain rfl := Option.some.inj (decode_arrival_secondFin.symm.trans hg.1)
      exact ⟨1, twoBytes_secondFin, fun _ _ => ⟨rfl, by decide +kernel⟩,
        fun _ _ => .inr ⟨rfl, by decide +kernel, by decide +kernel⟩⟩)
  have h3 := h2.step (e := .looks 10) trivial (fun he => nomatch he)
  have h4 := h3.step (e := .looks 10) trivial (fun he => nomatch he)
  exact ⟨_, h4, by decide +kernel, end_of_stream_honest h4⟩

/-- The first byte is here and both come again, with the FIN: the second is not taken and the FIN
is. -/
theorem overlapping_fin_cuts : ∃ w, Reads myIp 0 twoBytes (fun _ _ => True) w ∧
    w.results = [(1, [1]), (0, [])] ∧ ¬w.Honest twoBytes := by
  have h0 : Reads myIp 0 twoBytes (fun _ _ => True) ⟨readerTable, []⟩ := .start twoBytes_opens
  have h1 := h0.step (e := .arrives (arrival first))
    (Reading.fromPeer_arrival twoBytes_first rfl decode_arrival_first) trivial
  have h2 := h1.step (e := .arrives (arrival bothFin))
    (Reading.fromPeer_arrival twoBytes_bothFin rfl decode_arrival_bothFin) trivial
  have h3 := h2.step (e := .looks 10) trivial trivial
  have h4 := h3.step (e := .looks 10) trivial trivial
  refine ⟨_, h4, by decide +kernel, fun hh => ?_⟩
  have hcut := hh.2 [(1, [1])] (0, []) [] (by decide +kernel) rfl
  exact absurd hcut (by decide)

end Verkos.Stam.Tcp
