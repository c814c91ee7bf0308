import Verkos.Stam.EndOfStream
import Mathlib.Logic.Relation

/-!
# What was sent and what the other end has

`tcp_send` gives a segment its numbers when it goes out, tries it a few times, and takes the numbers
back when nobody acknowledged it. The other end may have accepted some or all of it by then, or may
still: a segment that was sent can arrive any time later. So the next call uses numbers again whose
bytes the other end has, and unless its buffer begins with those same bytes the two ends disagree.

A run is the steps of one call after the other, with segments arriving at the socket in between and
the other end accepting what was sent: any part of any segment, again or late, as long as it begins
where the other end is. Beside the socket the run keeps the positions the wrapping numbers stand
for and, for each position, the byte it was last given.
-/

namespace Verkos.Stam.Tcp

open Verkos.Lib
open List

/-- A call of `tcp_send` and what it returned. -/
structure Call where
  buf : List UInt8
  ret : Int
deriving DecidableEq, Repr

/-- A call that is under way: what is acknowledged, the number of the segment that is not, how many
of its tries are over, and whether the present one waits. -/
structure Sending where
  buf : List UInt8
  sent : Nat
  seq : Seq
  tries : Nat
  waits : Bool

/-- The segment's share of the buffer. -/
def Sending.data (d : Sending) : List UInt8 :=
  (d.buf.drop d.sent).take (min (d.buf.length - d.sent) mss)

/-- The number behind the segment. -/
def Sending.last (d : Sending) : Seq := d.seq + BitVec.ofNat 32 d.data.length

/-- Both ends. `segs` is every data segment that was ever sent with the position of its first byte,
and `acc` what the other end has accepted; `nxt` and `una` are the positions of `snd_nxt` and
`snd_una`, and `given` has the byte each position was last given. -/
structure Line where
  sock : Sock
  doing : Option Sending
  calls : List Call
  segs : List (Nat × Seg)
  acc : List UInt8
  nxt : Nat
  una : Nat
  given : List UInt8

inductive SendEvent
  /-- A segment arrives; an acknowledgement in it is for the position `k`. -/
  | hears (g : Seg) (k : Nat)
  /-- `tcp_send` up to its first `send_seg`. -/
  | calls (buf : List UInt8)
  /-- A `send_seg`, and whether it got the segment out. -/
  | transmits (ok : Bool)
  /-- A look behind a `net_poll`. -/
  | looks
  /-- The deadline of a try. -/
  | expires
  /-- The other end gets a segment and accepts up to `m` bytes of it. -/
  | accepts (p : Nat) (g : Seg) (m : Nat)

namespace Line

/-- The next segment of a call takes its numbers. -/
def begin (w : Line) (buf : List UInt8) (sent : Nat) : Line :=
  let d : Sending := ⟨buf, sent, w.sock.sndNxt, 0, false⟩
  { w with
    sock := { w.sock with sndNxt := d.last }
    doing := some d
    nxt := w.nxt + d.data.length
    given := w.given.take w.nxt ++ d.data ++ w.given.drop (w.nxt + d.data.length) }

def finish (w : Line) (buf : List UInt8) (ret : Int) : Line :=
  { w with doing := none, calls := w.calls ++ [⟨buf, ret⟩] }

/-- The segment's numbers are given back. -/
def rollBack (w : Line) (d : Sending) : Line :=
  { w with sock := { w.sock with sndNxt := d.seq }, nxt := w.nxt - d.data.length }

/-- Whether the socket takes an acknowledgement. -/
def takesAck (w : Line) (g : Seg) : Bool :=
  !g.flags.rst && g.flags.ack && Serial.ge g.ack w.sock.sndUna && Serial.ge w.sock.sndNxt g.ack

def hear (w : Line) (g : Seg) (k : Nat) : Line :=
  { w with sock := (w.sock.input g).1, una := if w.takesAck g then k else w.una }

def call (w : Line) (buf : List UInt8) : Line :=
  if w.sock.reset then w.finish buf (-104)
  else if w.sock.state ≠ .established ∧ w.sock.state ≠ .closeWait then w.finish buf (-107)
  else if buf = [] then w.finish buf 0
  else w.begin buf 0

def transmit (w : Line) (d : Sending) : Bool → Line
  | true =>
    { w with
      doing := some { d with waits := true }
      segs := w.segs ++ [(w.nxt - d.data.length,
        w.sock.sendSeg { ack := true, psh := true } d.seq d.data false)] }
  | false => w.finish d.buf (sentOr d.sent (-101))

def look (w : Line) (d : Sending) : Line :=
  if w.sock.reset then w.finish d.buf (sentOr d.sent (-104))
  else if Serial.ge w.sock.sndUna d.last then
    if d.sent + d.data.length < d.buf.length then w.begin d.buf (d.sent + d.data.length)
    else w.finish d.buf (d.sent + d.data.length : Nat)
  else w

def expire (w : Line) (d : Sending) : Line :=
  if d.tries + 1 < retries then
    { w with doing := some { d with tries := d.tries + 1, waits := false } }
  else (w.rollBack d).finish d.buf (sentOr d.sent (-110))

/-- The other end accepts by number: what of the segment is behind the bytes it has. -/
def accept (base : Seq) (w : Line) (g : Seg) (m : Nat) : Line :=
  let off := (Serial.num base w.acc.length - g.seq).toNat
  if off < g.data.length then { w with acc := w.acc ++ (g.data.drop off).take m } else w

def step (base : Seq) (w : Line) : SendEvent → Option Line
  | .hears g k => some (w.hear g k)
  | .calls buf => if w.doing.isNone then some (w.call buf) else none
  | .transmits ok =>
    match w.doing with
    | some d => if d.waits then none else some (w.transmit d ok)
    | none => none
  | .looks =>
    match w.doing with
    | some d => if d.waits then some (w.look d) else none
    | none => none
  | .expires =>
    match w.doing with
    | some d => if d.waits then some (w.expire d) else none
    | none => none
  | .accepts p g m => if (p, g) ∈ w.segs then some (w.accept base g m) else none

/-- Acknowledgements are cumulative: the other end acknowledges what it has accepted, or had. -/
def FromPeer (base : Seq) (w : Line) : SendEvent → Prop
  | .hears g k => g.flags.ack = true → g.ack = Serial.num base k ∧ k ≤ w.acc.length
  | _ => True

/-- A connection on which nothing was sent yet. -/
structure Fresh (base : Seq) (w : Line) : Prop where
  state : w.sock.state = .established ∨ w.sock.state = .closeWait
  sndNxt : w.sock.sndNxt = base
  sndUna : w.sock.sndUna = base
  doing : w.doing = none
  calls : w.calls = []
  segs : w.segs = []
  acc : w.acc = []
  nxt : w.nxt = 0
  una : w.una = 0
  given : w.given = []

/-- The calls so far; the one under way has returned nothing. -/
def allCalls (w : Line) : List Call :=
  w.calls ++ (w.doing.map fun d => (⟨d.buf, 0⟩ : Call)).toList

end Line

/-- Calls, and how much of its buffer each contributed. -/
abbrev Shares := List (Call × Nat)

/-- The contributions, call by call. -/
def Shares.stream (cs : Shares) : List UInt8 := (cs.map fun x => x.1.buf.take x.2).flatten

/-- Each call contributed at least what it returned and at most its buffer, and what it returned has
been accepted where the contributions put it. -/
structure Shares.Fair (cs : Shares) (calls : List Call) (acc : List UInt8) : Prop where
  calls : cs.map Prod.fst = calls
  bounds : ∀ x ∈ cs, x.1.ret ≤ x.2 ∧ x.2 ≤ x.1.buf.length
  paid : ∀ before x after, cs = before ++ x :: after → 0 < x.1.ret →
    ((Shares.stream before).length : Int) + x.1.ret ≤ acc.length

/-- What the other end has accepted is a prefix of fair contributions. -/
def Line.Agrees (w : Line) : Prop :=
  ∃ cs : Shares, cs.Fair w.allCalls w.acc ∧ w.acc <+: cs.stream

/-- What can be reached by steps that each meet `ok`. -/
inductive Sends (base : Seq) (ok : Line → SendEvent → Prop) : Line → Prop
  | start {w : Line} : w.Fresh base → Sends base ok w
  | step {w w' : Line} {e : SendEvent} : Sends base ok w → w.FromPeer base e → ok w e →
      w.step base e = some w' → Sends base ok w'

/-- Positions beyond `snd_nxt` that were given a byte are given the same byte again: a call's buffer
begins with them. And nothing is half the sequence numbers away: what is not acknowledged, an
acknowledgement that is taken, a segment the other end accepts from. -/
def Line.Resends (base : Seq) (w : Line) : SendEvent → Prop
  | .calls buf =>
    w.sock.reset = false → w.sock.state = .established ∨ w.sock.state = .closeWait → buf ≠ [] →
      w.given.drop w.nxt <+: buf ∧ w.nxt + min buf.length mss < w.una + 2 ^ 31
  | .hears g k => w.takesAck g = true → w.nxt < k + 2 ^ 31
  | .accepts p g _ =>
    (Serial.num base w.acc.length - g.seq).toNat < g.data.length → w.acc.length < p + 2 ^ 31
  | _ => True

/-! ## Fair contributions -/

variable {n p sent m : Nat} {ret : Int}

namespace Shares

theorem stream_append (cs ds : Shares) : stream (cs ++ ds) = stream cs ++ stream ds := by
  simp [stream]

@[simp] theorem stream_singleton (c : Call) (n : Nat) : stream [(c, n)] = c.buf.take n := by
  simp [stream]

variable {cs : Shares} {calls : List Call} {acc acc' : List UInt8}

theorem Fair.nil : Fair [] [] acc :=
  ⟨rfl, fun _ hx => (nomatch hx), fun before x after he => by simp at he⟩

theorem Fair.mono (h : cs.Fair calls acc) (ha : acc.length ≤ acc'.length) : cs.Fair calls acc' := by
  refine ⟨h.calls, h.bounds, fun before x after he hr => ?_⟩
  have := h.paid before x after he hr
  omega

theorem Fair.append (h : cs.Fair calls acc) {c : Call} (hr : c.ret ≤ n)
    (hn : n ≤ c.buf.length) (hp : 0 < c.ret → (cs.stream.length : Int) + c.ret ≤ acc.length) :
    Fair (cs ++ [(c, n)]) (calls ++ [c]) acc := by
  refine ⟨?_, fun x hx => ?_, fun before x after he hx => ?_⟩
  · rw [map_append, h.calls]
    rfl
  · rcases mem_append.1 hx with hx | hx
    · exact h.bounds x hx
    · rw [mem_singleton.1 hx]
      exact ⟨hr, hn⟩
  · rcases eq_nil_or_concat after with rfl | ⟨after', y, rfl⟩
    · obtain ⟨rfl, he'⟩ := append_inj' he rfl
      obtain rfl := head_eq_of_cons_eq he'
      exact hp hx
    · have he' : cs ++ [(c, n)] = (before ++ x :: after') ++ [y] := by
        rw [he, concat_eq_append]
        simp
      obtain ⟨hcs, -⟩ := append_inj' he' rfl
      exact h.paid before x after' hcs hx

end Shares

/-! ## The invariant -/

/-- A segment that says what its positions were given. -/
structure Line.Carries (base : Seq) (w : Line) (p : Nat) (g : Seg) : Prop where
  seq : g.seq = Serial.num base p
  short : g.data.length ≤ mss
  fits : p + g.data.length ≤ w.given.length
  data : g.data = (w.given.drop p).take g.data.length
  near : p < w.acc.length + 2 ^ 31

/-- What holds whatever the caller is doing. -/
structure Line.Sound (base : Seq) (w : Line) : Prop where
  past : w.sock.state ≠ .synSent ∧ w.sock.state ≠ .synRcvd
  sndNxt : w.sock.sndNxt = Serial.num base w.nxt
  sndUna : w.sock.sndUna = Serial.num base w.una
  una : w.una ≤ w.acc.length
  acc : w.acc <+: w.given
  segs : ∀ x ∈ w.segs, w.Carries base x.1 x.2

/-- Between calls: the contributions end at `snd_nxt`, and the last of them can be drawn out to
everything that was given. -/
structure Line.Between (w : Line) : Prop where
  doing : w.doing = none
  nxt : w.nxt ≤ w.given.length
  short : w.given.length ≤ w.nxt + mss
  shares : ∃ cs ds : Shares, cs.Fair w.calls w.acc ∧ ds.Fair w.calls w.acc ∧
    cs.stream = w.given.take w.nxt ∧ ds.stream = w.given

/-- In a call: all its segments but the last have been accepted. -/
structure Line.During (base : Seq) (w : Line) (d : Sending) : Prop where
  doing : w.doing = some d
  sent : d.sent < d.buf.length
  nxt : w.nxt = w.given.length
  ahead : w.nxt < w.una + 2 ^ 31
  shares : ∃ cs : Shares, cs.Fair w.calls w.acc ∧
    w.given = cs.stream ++ d.buf.take (d.sent + d.data.length) ∧
    d.seq = Serial.num base (cs.stream.length + d.sent) ∧
    (0 < d.sent → cs.stream.length + d.sent ≤ w.acc.length)

structure Line.Inv (base : Seq) (w : Line) : Prop where
  sound : w.Sound base
  control : w.Between ∨ ∃ d, w.During base d

theorem Sending.data_length (d : Sending) : d.data.length = min (d.buf.length - d.sent) mss := by
  simp [Sending.data]

theorem Sending.take_add_data (d : Sending) :
    d.buf.take (d.sent + d.data.length) = d.buf.take d.sent ++ d.data := by
  rw [take_add, Sending.data_length]
  rfl

theorem Sending.sent_add_le (d : Sending) (h : d.sent < d.buf.length) :
    d.sent + d.data.length ≤ d.buf.length := by
  rw [d.data_length]
  omega

variable {w' : Line} {g : Seg} {buf : List UInt8}

namespace Line

variable {base : Seq} {w : Line} {d : Sending}

theorem Fresh.inv (h : w.Fresh base) : w.Inv base := by
  refine ⟨⟨?_, ?_, ?_, ?_, ?_, ?_⟩, .inl ⟨h.doing, ?_, ?_, [], [], ?_, ?_, ?_, ?_⟩⟩
  · rcases h.state with hs | hs <;> rw [hs] <;> exact ⟨by decide, by decide⟩
  · rw [h.sndNxt, h.nxt, Serial.num_zero]
  · rw [h.sndUna, h.una, Serial.num_zero]
  · rw [h.una]
    exact Nat.zero_le _
  · rw [h.acc]
    exact nil_prefix
  · rw [h.segs]
    exact fun _ hx => nomatch hx
  · rw [h.nxt]
    exact Nat.zero_le _
  · rw [h.given]
    exact Nat.zero_le _
  · rw [h.calls]
    exact .nil
  · rw [h.calls]
    exact .nil
  · rw [h.given, take_nil]
    rfl
  · rw [h.given]
    rfl

theorem Inv.agrees (h : w.Inv base) : w.Agrees := by
  rcases h.control with hb | ⟨d, hd⟩
  · obtain ⟨cs, ds, -, hds, -, hall⟩ := hb.shares
    refine ⟨ds, ?_, ?_⟩
    · simpa [Line.allCalls, hb.doing] using hds
    · rw [hall]
      exact h.sound.acc
  · obtain ⟨cs, hcs, hgiven, -, -⟩ := hd.shares
    refine ⟨cs ++ [(⟨d.buf, 0⟩, d.sent + d.data.length)], ?_, ?_⟩
    · have hall : w.allCalls = w.calls ++ [⟨d.buf, 0⟩] := by simp [Line.allCalls, hd.doing]
      rw [hall]
      exact hcs.append (Int.natCast_nonneg _) (d.sent_add_le hd.sent) (fun hr => absurd hr (by simp))
    · rw [Shares.stream_append, Shares.stream_singleton, ← hgiven]
      exact h.sound.acc

/-! ## The steps -/

theorem Carries.mono (h : w.Carries base p g)
    (hg : w.given <+: w'.given) (ha : w.acc.length ≤ w'.acc.length) : w'.Carries base p g := by
  obtain ⟨more, hmore⟩ := hg
  have hfits := h.fits
  refine ⟨h.seq, h.short, ?_, ?_, ?_⟩
  · rw [← hmore, length_append]
    omega
  · rw [← hmore, drop_append_of_le_length (by omega), take_append_of_le_length]
    · exact h.data
    · rw [length_drop]
      omega
  · have := h.near
    omega

/-- A new segment whose positions, as far as they were given bytes before, are given the same. -/
theorem begin_given (hn : w.nxt ≤ w.given.length)
    (hs : w.given.length ≤ w.nxt + mss) (hp : w.given.drop w.nxt <+: buf.drop sent) :
    (w.begin buf sent).given =
        w.given.take w.nxt ++ Sending.data ⟨buf, sent, w.sock.sndNxt, 0, false⟩ ∧
      w.given <+: (w.begin buf sent).given := by
  have hlen : (w.given.drop w.nxt).length ≤ (buf.drop sent).length := hp.length_le
  rw [length_drop, length_drop] at hlen
  have hdata : w.given.drop w.nxt <+: Sending.data ⟨buf, sent, w.sock.sndNxt, 0, false⟩ := by
    refine prefix_take_iff.2 ⟨hp, ?_⟩
    rw [length_drop]
    exact Nat.le_min.2 ⟨hlen, by omega⟩
  have hnone : w.given.drop (w.nxt + (Sending.data ⟨buf, sent, w.sock.sndNxt, 0, false⟩).length) = [] := by
    apply drop_eq_nil_of_le
    have := hdata.length_le
    rw [length_drop] at this
    omega
  have hgiven : (w.begin buf sent).given =
      w.given.take w.nxt ++ Sending.data ⟨buf, sent, w.sock.sndNxt, 0, false⟩ := by
    change w.given.take w.nxt ++ _ ++ w.given.drop _ = _
    rw [hnone, append_nil]
  refine ⟨hgiven, ?_⟩
  rw [hgiven]
  conv_lhs => rw [← take_append_drop w.nxt w.given]
  exact (prefix_append_right_inj _).2 hdata

section

variable (h : w.Sound base) (hn : w.nxt ≤ w.given.length) (hs : w.given.length ≤ w.nxt + mss)
include h hn hs

/-- The next segment of a call, when everything of the call before it has been accepted. -/
theorem Inv.begin {cs : Shares} (hp : w.given.drop w.nxt <+: buf.drop sent)
    (hsent : sent < buf.length) (hcs : cs.Fair w.calls w.acc)
    (hstream : cs.stream ++ buf.take sent = w.given.take w.nxt)
    (hacc : 0 < sent → cs.stream.length + sent ≤ w.acc.length)
    (hfar : w.nxt + min (buf.length - sent) mss < w.una + 2 ^ 31) :
    (w.begin buf sent).Inv base := by
  obtain ⟨hgiven, hgrow⟩ := begin_given hn hs hp
  have hnxt : cs.stream.length + sent = w.nxt := by
    have := congrArg List.length hstream
    rw [length_append, length_take, length_take] at this
    omega
  have hdl := Sending.data_length ⟨buf, sent, w.sock.sndNxt, 0, false⟩
  refine ⟨⟨h.past, ?_, h.sndUna, h.una, h.acc.trans hgrow, fun x hx => ?_⟩, .inr
    ⟨⟨buf, sent, w.sock.sndNxt, 0, false⟩, rfl, hsent, ?_, ?_, cs, hcs, ?_, ?_, hacc⟩⟩
  · change w.sock.sndNxt + _ = _
    rw [h.sndNxt]
    exact (Serial.num_add _ _ _).symm
  · exact (h.segs x hx).mono hgrow le_rfl
  · rw [hgiven, length_append, length_take, Nat.min_eq_left hn]
    rfl
  · change w.nxt + _ < _
    rw [hdl]
    exact hfar
  · rw [hgiven, Sending.take_add_data, ← hstream, append_assoc]
  · rw [hnxt]
    exact h.sndNxt

/-- A call ends where it is: with all it gave, or without its last segment. -/
theorem Inv.finish {cs ds : Shares} (hcs : cs.Fair w.calls w.acc)
    (hds : ds.Fair w.calls w.acc) (hm : ret ≤ m ∧ m ≤ buf.length) (hn' : ret ≤ n ∧ n ≤ buf.length)
    (hpc : 0 < ret → (cs.stream.length : Int) + ret ≤ w.acc.length)
    (hpd : 0 < ret → (ds.stream.length : Int) + ret ≤ w.acc.length)
    (hsc : cs.stream ++ buf.take m = w.given.take w.nxt) (hsd : ds.stream ++ buf.take n = w.given) :
    (w.finish buf ret).Inv base := by
  refine ⟨⟨h.past, h.sndNxt, h.sndUna, h.una, h.acc, fun x hx => ?_⟩, .inl ⟨rfl, hn, hs,
    cs ++ [(⟨buf, ret⟩, m)], ds ++ [(⟨buf, ret⟩, n)], hcs.append hm.1 hm.2 hpc,
    hds.append hn'.1 hn'.2 hpd, ?_, ?_⟩⟩
  · exact (h.segs x hx).mono (prefix_refl _) le_rfl
  · rw [Shares.stream_append, Shares.stream_singleton]
    exact hsc
  · rw [Shares.stream_append, Shares.stream_singleton]
    exact hsd

end

theorem Between.refuse (h : w.Sound base) (hb : w.Between)
    (hr : ret ≤ 0) : (w.finish buf ret).Inv base := by
  obtain ⟨cs, ds, hcs, hds, hsc, hsd⟩ := hb.shares
  refine Inv.finish h (m := 0) (n := 0) hb.nxt hb.short hcs hds ⟨hr, Nat.zero_le _⟩
    ⟨hr, Nat.zero_le _⟩ (fun hp => ?_) (fun hp => ?_) ?_ ?_
  · omega
  · omega
  · rw [take_zero, append_nil, hsc]
  · rw [take_zero, append_nil, hsd]

theorem Between.call (h : w.Sound base) (hb : w.Between)
    (hok : w.Resends base (.calls buf)) : (w.call buf).Inv base := by
  unfold Line.call
  split
  · exact hb.refuse h (by decide)
  · rename_i hreset
    split
    · exact hb.refuse h (by decide)
    · rename_i hst
      split
      · exact hb.refuse h le_rfl
      · rename_i hbuf
        have hstate : w.sock.state = .established ∨ w.sock.state = .closeWait := by
          by_contra hc
          exact hst ⟨fun he => hc (.inl he), fun he => hc (.inr he)⟩
        obtain ⟨hpre, hfar⟩ := hok (Bool.eq_false_iff.2 hreset) hstate hbuf
        obtain ⟨cs, -, hcs, -, hsc, -⟩ := hb.shares
        refine Inv.begin h hb.nxt hb.short hpre (length_pos_of_ne_nil hbuf) hcs ?_
          (fun hz => (Nat.lt_irrefl 0 hz).elim) hfar
        rw [take_zero, append_nil, hsc]

namespace During

theorem nxt_eq (hd : w.During base d) {cs : Shares}
    (hg : w.given = cs.stream ++ d.buf.take (d.sent + d.data.length)) :
    w.nxt = cs.stream.length + d.sent + d.data.length := by
  have hlen := congrArg List.length hg
  have hle := d.sent_add_le hd.sent
  rw [length_append, length_take] at hlen
  rw [hd.nxt]
  omega

section

variable (h : w.Sound base) (hd : w.During base d)
include h hd

/-- The tries of a segment change nothing else. -/
theorem again {d' : Sending} (hb : d'.buf = d.buf) (hs : d'.sent = d.sent) (hq : d'.seq = d.seq) :
    { w with doing := some d' }.Inv base := by
  have hdata : d'.data = d.data := by
    unfold Sending.data
    rw [hb, hs]
  refine ⟨⟨h.past, h.sndNxt, h.sndUna, h.una, h.acc, fun x hx => ?_⟩, .inr ⟨d', rfl, ?_, hd.nxt,
    hd.ahead, ?_⟩⟩
  · exact (h.segs x hx).mono (prefix_refl _) le_rfl
  · rw [hb, hs]
    exact hd.sent
  · rw [hb, hs, hq, hdata]
    exact hd.shares

theorem keep {error : Int} (he : error ≤ 0) : (w.finish d.buf (sentOr d.sent error)).Inv base := by
  obtain ⟨cs, hcs, hg, -, hacc⟩ := hd.shares
  have hle := d.sent_add_le hd.sent
  have hret : sentOr d.sent error ≤ (d.sent + d.data.length : Nat) := by
    unfold sentOr
    split <;> omega
  have hpaid : 0 < sentOr d.sent error →
      (cs.stream.length : Int) + sentOr d.sent error ≤ w.acc.length := by
    unfold sentOr
    split
    · omega
    · intro _
      have := hacc (by omega)
      omega
  have hall : w.given.take w.nxt = w.given := by
    rw [hd.nxt, take_length]
  exact Inv.finish h hd.nxt.le (by rw [hd.nxt]; exact Nat.le_add_right _ _) hcs hcs ⟨hret, hle⟩
    ⟨hret, hle⟩ hpaid hpaid (by rw [hall, hg]) hg.symm

theorem transmit (ok : Bool) : (w.transmit d ok).Inv base := by
  cases ok with
  | false => exact hd.keep h (by decide)
  | true =>
    obtain ⟨cs, hcs, hg, hseq, hacc⟩ := hd.shares
    have hnxt := hd.nxt_eq hg
    have hwait : { w with doing := some { d with waits := true } }.Inv base :=
      hd.again h rfl rfl rfl
    refine ⟨⟨h.past, h.sndNxt, h.sndUna, h.una, h.acc, fun x hx => ?_⟩, ?_⟩
    · rcases mem_append.1 hx with hx | hx
      · exact (h.segs x hx).mono (prefix_refl _) le_rfl
      · rw [mem_singleton.1 hx]
        have hpos : w.nxt - d.data.length = cs.stream.length + d.sent := by omega
        refine ⟨?_, ?_, ?_, ?_, ?_⟩
        · rw [hpos]
          exact hseq
        · change d.data.length ≤ mss
          rw [d.data_length]
          exact Nat.min_le_right _ _
        · change w.nxt - d.data.length + d.data.length ≤ w.given.length
          rw [← hd.nxt]
          omega
        · change d.data = (w.given.drop (w.nxt - d.data.length)).take d.data.length
          have hsplit : w.given = (cs.stream ++ d.buf.take d.sent) ++ d.data := by
            rw [hg, d.take_add_data, append_assoc]
          have hfront : (cs.stream ++ d.buf.take d.sent).length = w.nxt - d.data.length := by
            have := hd.sent
            rw [length_append, length_take]
            omega
          rw [hsplit, ← hfront, drop_left, take_length]
        · change w.nxt - d.data.length < w.acc.length + 2 ^ 31
          have := hd.ahead
          have := h.una
          omega
    · rcases hwait.control with hb | ⟨d', hd'⟩
      · exact nomatch hb.doing
      · exact .inr ⟨d', hd'.doing, hd'.sent, hd'.nxt, hd'.ahead, hd'.shares⟩

theorem look : (w.look d).Inv base := by
  unfold Line.look
  split
  · exact hd.keep h (by decide)
  · split
    · rename_i hge
      obtain ⟨cs, hcs, hg, hseq, hacc⟩ := hd.shares
      have hnxt := hd.nxt_eq hg
      have hle := d.sent_add_le hd.sent
      have hgl : w.acc.length ≤ w.given.length := h.acc.length_le
      have hlast : d.last = Serial.num base w.nxt := by
        unfold Sending.last
        rw [hseq, hnxt]
        exact (Serial.num_add _ _ _).symm
      have hua : w.nxt ≤ w.una := by
        have hahead := hd.ahead
        have huna := h.una
        have hn := hd.nxt
        rw [h.sndUna, hlast, Serial.ge_num ⟨by omega, by omega⟩] at hge
        exact hge
      have hall : w.nxt ≤ w.acc.length := hua.trans h.una
      have htake : w.given.take w.nxt = w.given := by
        rw [hd.nxt, take_length]
      split
      · rename_i hmore
        refine Inv.begin h hd.nxt.le (by rw [hd.nxt]; exact Nat.le_add_right _ _) ?_ hmore hcs ?_ ?_ ?_
        · rw [hd.nxt, drop_length]
          exact nil_prefix
        · rw [htake, hg]
        · omega
        · have hshort : min (d.buf.length - (d.sent + d.data.length)) mss ≤ 1400 :=
            Nat.min_le_right _ _
          omega
      · refine Inv.finish h hd.nxt.le (by rw [hd.nxt]; exact Nat.le_add_right _ _) hcs hcs
          ⟨le_rfl, hle⟩ ⟨le_rfl, hle⟩ ?_ ?_ ?_ hg.symm
        · omega
        · omega
        · rw [htake, hg]
    · exact ⟨h, .inr ⟨d, hd⟩⟩

theorem expire : (w.expire d).Inv base := by
  unfold Line.expire
  split
  · exact hd.again h rfl rfl rfl
  · obtain ⟨cs, hcs, hg, hseq, hacc⟩ := hd.shares
    have hnxt := hd.nxt_eq hg
    have hle := d.sent_add_le hd.sent
    have hback : (w.rollBack d).Sound base := by
      refine ⟨h.past, ?_, h.sndUna, h.una, h.acc, fun x hx => ?_⟩
      · change d.seq = Serial.num base (w.nxt - d.data.length)
        rw [hseq]
        congr 1
        omega
      · exact (h.segs x hx).mono (prefix_refl _) le_rfl
    have hret : sentOr d.sent (-110) ≤ d.sent := by
      unfold sentOr
      split <;> omega
    have hpaid : 0 < sentOr d.sent (-110) →
        (cs.stream.length : Int) + sentOr d.sent (-110) ≤ w.acc.length := by
      unfold sentOr
      split
      · omega
      · intro _
        have := hacc (by omega)
        omega
    have hshort : d.data.length ≤ mss := by
      rw [d.data_length]
      exact Nat.min_le_right _ _
    refine Inv.finish hback (m := d.sent) (n := d.sent + d.data.length) ?_ ?_ hcs hcs
      ⟨hret, hd.sent.le⟩ ⟨by omega, hle⟩ hpaid hpaid ?_ hg.symm
    · change w.nxt - d.data.length ≤ w.given.length
      rw [← hd.nxt]
      omega
    · change w.given.length ≤ w.nxt - d.data.length + mss
      rw [← hd.nxt]
      omega
    · change _ = w.given.take (w.nxt - d.data.length)
      have hsent := hd.sent
      have hfront : (cs.stream ++ d.buf.take d.sent).length = w.nxt - d.data.length := by
        rw [length_append, length_take]
        omega
      rw [hg, d.take_add_data, ← append_assoc, ← hfront, take_left]

end

end During

/-- More is accepted, and more of it acknowledged. -/
theorem Inv.progress (h : w.Inv base) {s : Sock} {acc : List UInt8} {una : Nat}
    (hpast : s.state ≠ .synSent ∧ s.state ≠ .synRcvd) (hnxt : s.sndNxt = w.sock.sndNxt)
    (huna : s.sndUna = Serial.num base una) (hle : una ≤ acc.length) (hacc : acc <+: w.given)
    (hmore : w.acc.length ≤ acc.length) (hfar : w.nxt < w.una + 2 ^ 31 → w.nxt < una + 2 ^ 31) :
    { w with sock := s, acc := acc, una := una }.Inv base := by
  refine ⟨⟨hpast, hnxt.trans h.sound.sndNxt, huna, hle, hacc, fun x hx => ?_⟩, ?_⟩
  · exact (h.sound.segs x hx).mono (prefix_refl _) hmore
  · rcases h.control with hb | ⟨d, hd⟩
    · obtain ⟨cs, ds, hcs, hds, hsc, hsd⟩ := hb.shares
      exact .inl ⟨hb.doing, hb.nxt, hb.short, cs, ds, hcs.mono hmore, hds.mono hmore, hsc, hsd⟩
    · obtain ⟨cs, hcs, hg, hseq, hp⟩ := hd.shares
      exact .inr ⟨d, hd.doing, hd.sent, hd.nxt, hfar hd.ahead, cs, hcs.mono hmore, hg, hseq,
        fun hz => (hp hz).trans hmore⟩

end Line

namespace Sock

@[simp] theorem onAck_sndNxt (s : Sock) (g : Seg) : (s.onAck g).sndNxt = s.sndNxt := by
  unfold onAck
  split <;> rfl

@[simp] theorem onData_snd (s : Sock) (g : Seg) :
    (s.onData g).1.sndNxt = s.sndNxt ∧ (s.onData g).1.sndUna = s.sndUna := by
  unfold onData take
  split
  · exact ⟨rfl, rfl⟩
  · split <;> exact ⟨rfl, rfl⟩

@[simp] theorem onFin_snd (s : Sock) (g : Seg) :
    (s.onFin g).1.sndNxt = s.sndNxt ∧ (s.onFin g).1.sndUna = s.sndUna := by
  unfold onFin
  split <;> exact ⟨rfl, rfl⟩

end Sock

namespace Line

variable {base : Seq} {w : Line}

/-- What a segment does to the sending half of the socket: an acknowledgement is taken or not. -/
theorem input_snd (w : Line) (g : Seg) (hp : w.sock.state ≠ .synSent ∧ w.sock.state ≠ .synRcvd) :
    ((w.sock.input g).1.state ≠ .synSent ∧ (w.sock.input g).1.state ≠ .synRcvd) ∧
      (w.sock.input g).1.sndNxt = w.sock.sndNxt ∧
      (w.sock.input g).1.sndUna = if w.takesAck g then g.ack else w.sock.sndUna := by
  unfold Sock.input
  cases hr : g.flags.rst with
  | true => exact ⟨⟨by simp, by simp⟩, rfl, by simp [takesAck, hr]⟩
  | false =>
    have hstream : ((w.sock.stream g).1.state ≠ .synSent ∧ (w.sock.stream g).1.state ≠ .synRcvd) ∧
        (w.sock.stream g).1.sndNxt = w.sock.sndNxt ∧
        (w.sock.stream g).1.sndUna = if w.takesAck g then g.ack else w.sock.sndUna := by
      have hst : ((w.sock.onAck g).onData g).1.state = w.sock.state := by simp
      refine ⟨?_, ?_, ?_⟩
      · change (((w.sock.onAck g).onData g).1.onFin g).1.state ≠ _ ∧
          (((w.sock.onAck g).onData g).1.onFin g).1.state ≠ _
        rcases Sock.onFin_state ((w.sock.onAck g).onData g).1 g with hf | hf
        · rw [hf, hst]
          exact hp
        · rw [hf, hst]
          cases hs : w.sock.state <;> simp_all [State.finished]
      · change (((w.sock.onAck g).onData g).1.onFin g).1.sndNxt = _
        simp
      · change (((w.sock.onAck g).onData g).1.onFin g).1.sndUna = _
        simp only [Sock.onFin_snd, Sock.onData_snd]
        simp only [Sock.onAck, takesAck, hr, Bool.not_false, Bool.true_and]
        split <;> rfl
    simp only [Bool.false_eq_true, if_false]
    split
    · rename_i hs
      exact (hp.1 hs).elim
    · rename_i hs
      exact (hp.2 hs).elim
    · exact hstream

theorem Inv.hear (h : w.Inv base) {k : Nat} (hp : w.FromPeer base (.hears g k))
    (hok : w.Resends base (.hears g k)) : (w.hear g k).Inv base := by
  obtain ⟨hpast, hnxt, huna⟩ := w.input_snd g h.sound.past
  unfold Line.hear
  cases ht : w.takesAck g with
  | false =>
    rw [ht] at huna
    exact h.progress hpast hnxt (huna.trans h.sound.sndUna) h.sound.una h.sound.acc le_rfl id
  | true =>
    rw [ht] at huna
    have hack : g.flags.ack = true := by
      simp only [takesAck, Bool.and_eq_true] at ht
      exact ht.1.1.2
    obtain ⟨hk, hle⟩ := hp hack
    exact h.progress hpast hnxt (huna.trans hk) hle h.sound.acc le_rfl fun _ => hok ht

theorem Inv.accept (h : w.Inv base) (hm : (p, g) ∈ w.segs)
    (hok : w.Resends base (.accepts p g m)) : (w.accept base g m).Inv base := by
  unfold Line.accept
  dsimp only
  split
  · rename_i hoff
    have hc := h.sound.segs (p, g) hm
    have hnear : w.acc.length < p + 2 ^ 31 := hok hoff
    have hfar := hc.near
    have hshort : g.data.length ≤ 1400 := hc.short
    rw [hc.seq, Serial.toNat_num_sub] at hoff ⊢
    have hsub : (w.acc.length % 2 ^ 32 + (2 ^ 32 - p % 2 ^ 32)) % 2 ^ 32 = w.acc.length - p ∧
        p ≤ w.acc.length := by omega
    rw [hsub.1] at hoff ⊢
    have hnew : w.acc ++ (g.data.drop (w.acc.length - p)).take m <+: w.given := by
      have htake : w.acc = w.given.take w.acc.length := prefix_iff_eq_take.1 h.sound.acc
      have hrest : (g.data.drop (w.acc.length - p)).take m <+: w.given.drop w.acc.length := by
        refine ( take_prefix _ _).trans ?_
        rw [hc.data, drop_take, drop_drop, Nat.add_sub_of_le hsub.2]
        exact take_prefix _ _
      conv_rhs => rw [← take_append_drop w.acc.length w.given, ← htake]
      exact (prefix_append_right_inj _).2 hrest
    refine h.progress h.sound.past rfl h.sound.sndUna ?_ hnew ?_ id
    · rw [length_append]
      exact h.sound.una.trans (Nat.le_add_right _ _)
    · rw [length_append]
      exact Nat.le_add_right _ _
  · exact h

theorem Inv.during (h : w.Inv base) {d : Sending} (hd : w.doing = some d) : w.During base d := by
  rcases h.control with hb | ⟨d', hd'⟩
  · rw [hb.doing] at hd
    cases hd
  · rw [hd'.doing] at hd
    cases hd
    exact hd'

theorem Inv.step (h : w.Inv base) {e : SendEvent} (hp : w.FromPeer base e)
    (hok : w.Resends base e) (hs : w.step base e = some w') : w'.Inv base := by
  cases e with
  | hears g k =>
    cases hs
    exact h.hear hp hok
  | calls buf =>
    obtain ⟨hd, hw⟩ := Option.ite_none_right_eq_some.1 hs
    cases hw
    rcases h.control with hb | ⟨d, hd'⟩
    · exact hb.call h.sound hok
    · rw [hd'.doing] at hd
      cases hd
  | accepts p g m =>
    obtain ⟨hm, hw⟩ := Option.ite_none_right_eq_some.1 hs
    cases hw
    exact h.accept hm hok
  | transmits ok =>
    cases hd : w.doing with
    | none => simp [Line.step, hd] at hs
    | some d =>
      simp only [Line.step, hd, Option.ite_none_left_eq_some] at hs
      cases hs.2
      exact (h.during hd).transmit h.sound ok
  | looks =>
    cases hd : w.doing with
    | none => simp [Line.step, hd] at hs
    | some d =>
      simp only [Line.step, hd, Option.ite_none_right_eq_some] at hs
      cases hs.2
      exact (h.during hd).look h.sound
  | expires =>
    cases hd : w.doing with
    | none => simp [Line.step, hd] at hs
    | some d =>
      simp only [Line.step, hd, Option.ite_none_right_eq_some] at hs
      cases hs.2
      exact (h.during hd).expire h.sound

end Line

/-- In every run in which positions are only given again what they were given before and nothing is
half the sequence numbers away: what the other end has accepted is a prefix of what the calls
contributed, each between what it returned and its buffer, and what a call returned has been
accepted where it belongs. -/
theorem sender_agrees {base : Seq} {w : Line} (h : Sends base (Line.Resends base) w) : w.Agrees := by
  have hinv : w.Inv base := by
    induction h with
    | start hf => exact hf.inv
    | step _ hp hok hs ih => exact ih.step hp hok hs
  exact hinv.agrees

/-! ## Two calls that disagree -/

/-- A connection on which nothing was sent. -/
def quietLine : Line := ⟨readerSock, none, [], [], [], 0, 0, []⟩

theorem quietLine_fresh : quietLine.Fresh 8 :=
  ⟨.inl rfl, rfl, rfl, rfl, rfl, rfl, rfl, rfl, rfl, rfl⟩

/-- A segment that sends `data` at the first number. -/
def firstSeg (data : List UInt8) : Seg :=
  readerSock.sendSeg { ack := true, psh := true } 8 data false

/-- The other end acknowledges its first byte. -/
def ackOne : Seg := ⟨80, 40000, 100, 9, { ack := true }, 0, false, []⟩

instance (base : Seq) (w : Line) (e : SendEvent) : Decidable (w.FromPeer base e) :=
  match e with
  | .hears g _ => inferInstanceAs (Decidable (g.flags.ack = true → _ ∧ _))
  | .calls _ | .transmits _ | .looks | .expires | .accepts _ _ _ => isTrue trivial

instance (base : Seq) (w : Line) (e : SendEvent) : Decidable (w.Resends base e) :=
  match e with
  | .calls buf => inferInstanceAs (Decidable (_ = false → _ ∨ _ → buf ≠ [] → _ ∧ _))
  | .hears g k => inferInstanceAs (Decidable (w.takesAck g = true → w.nxt < k + 2 ^ 31))
  | .accepts p _ _ => inferInstanceAs (Decidable (_ → w.acc.length < p + 2 ^ 31))
  | .transmits _ | .looks | .expires => isTrue trivial

/-- A step that the other end can cause and that meets `ok`. -/
def Line.stepIf (base : Seq) (ok : Line → SendEvent → Prop) [∀ w e, Decidable (ok w e)] (w : Line)
    (e : SendEvent) : Option Line :=
  if w.FromPeer base e ∧ ok w e then w.step base e else none

def Line.steps (base : Seq) (ok : Line → SendEvent → Prop) [∀ w e, Decidable (ok w e)] (w : Line)
    (es : List SendEvent) : Option Line :=
  es.foldlM (Line.stepIf base ok) w

theorem Sends.steps {base : Seq} {ok : Line → SendEvent → Prop} [∀ w e, Decidable (ok w e)]
    (es : List SendEvent) {w : Line} (h : Sends base ok w) (hs : w.steps base ok es = some w') :
    Sends base ok w' := by
  induction es generalizing w with
  | nil =>
    cases hs
    exact h
  | cons e es ih =>
    obtain ⟨w1, h1, hs1⟩ := Option.bind_eq_some_iff.1 (show (w.stepIf base ok e).bind
      (fun w1 => w1.steps base ok es) = some w' from hs)
    obtain ⟨⟨hp, hok⟩, hstep⟩ := Option.ite_none_right_eq_some.1 h1
    exact ih (h.step hp hok hstep) hs1

/-- Six tries of one segment that nobody acknowledges in time. -/
def sixTries : List SendEvent :=
  [.transmits true, .expires, .transmits true, .expires, .transmits true, .expires,
    .transmits true, .expires, .transmits true, .expires, .transmits true, .expires]

/-- A byte is sent and accepted, but the call does not learn of it; the caller sends the same byte
again and another one behind it. -/
theorem sender_agrees_again : ∃ w, Sends 8 (Line.Resends 8) w ∧
    w.calls = [⟨[65], -110⟩, ⟨[65, 66], 2⟩] ∧ w.acc = [65, 66] ∧ w.Agrees := by
  have hs : (quietLine.steps 8 (Line.Resends 8) ([SendEvent.calls [65]] ++ sixTries ++
      [SendEvent.accepts 0 (firstSeg [65]) 1, SendEvent.calls [65, 66], SendEvent.transmits true,
        SendEvent.accepts 0 (firstSeg [65, 66]) 2, SendEvent.hears { ackOne with ack := 10 } 2, SendEvent.looks])).any
      (fun w => w.calls = [⟨[65], -110⟩, ⟨[65, 66], 2⟩] ∧ w.acc = [65, 66]) = true := by
    decide +kernel
  obtain ⟨w, hw, hc⟩ := (Option.any_eq_true _ _).1 hs
  have hrun := (Sends.start quietLine_fresh).steps _ hw
  have hfinal := of_decide_eq_true hc
  exact ⟨w, hrun, hfinal.1, hfinal.2, sender_agrees hrun⟩

/-- A byte is sent and accepted, but the call does not learn of it; the next call sends another byte
under the same number, and the acknowledgement of the first is taken for it. -/
theorem reused_number_disagrees : ∃ w, Sends 8 (fun _ _ => True) w ∧
    w.calls = [⟨[65], -110⟩, ⟨[66], 1⟩] ∧ w.acc = [65] ∧ ¬w.Agrees := by
  have hs : (quietLine.steps 8 (fun _ _ => True) ([SendEvent.calls [65]] ++ sixTries ++
      [SendEvent.accepts 0 (firstSeg [65]) 1, SendEvent.calls [66], SendEvent.transmits true, SendEvent.hears ackOne 1, SendEvent.looks])).any
      (fun w => w.allCalls = [⟨[65], -110⟩, ⟨[66], 1⟩] ∧ w.calls = [⟨[65], -110⟩, ⟨[66], 1⟩] ∧
        w.acc = [65]) = true := by
    decide +kernel
  obtain ⟨w, hw, hc⟩ := (Option.any_eq_true _ _).1 hs
  obtain ⟨hall, hcalls, hacc⟩ := of_decide_eq_true hc
  refine ⟨w, (Sends.start quietLine_fresh).steps _ hw, hcalls, hacc, fun ⟨cs, hf, hpre⟩ => ?_⟩
  rw [hacc] at hf hpre
  have hmap := hf.calls
  rw [hall] at hmap
  obtain ⟨⟨c1, n₁⟩, rest, rfl, rfl, hrest⟩ := map_eq_cons_iff.1 hmap
  obtain ⟨⟨c2, n₂⟩, rest', rfl, rfl, hrest'⟩ := map_eq_cons_iff.1 hrest
  obtain rfl := map_eq_nil_iff.1 hrest'
  -- the second call returned one, so the first contributed nothing and the second its byte
  have hpaid := hf.paid [(⟨[65], -110⟩, n₁)] (⟨[66], 1⟩, n₂) [] rfl Int.one_pos
  have hone := (hf.bounds (⟨[66], 1⟩, n₂) (by simp)).1
  have hzero : n₁ = 0 := by
    simp [Shares.stream] at hpaid
    exact hpaid
  subst hzero
  cases n₂ with
  | zero => simp at hone
  | succ n => simp [Shares.stream] at hpre

end Verkos.Stam.Tcp
