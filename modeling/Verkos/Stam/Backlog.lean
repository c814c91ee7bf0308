import Verkos.Stam.Tcp

/-!
# Who owns a socket

A socket that is in use is either held by the caller that opened or accepted it, or it is in the
backlog of a socket that listens. The backlog is kept backwards: a connection that arrived names
its listener's slot in `parent`, and nothing clears that name when the listener is closed. So a
connection can be left that nobody holds, and the next socket in the slot, listening on another
port, is handed it by `tcp_accept`.

The calls wait by polling and other callers run meanwhile, so a run here is made of the atomic
steps of the calls with segments arriving in between. Beside the table the run keeps what the code
does not: who holds what, how often a slot was opened, and for each connection that arrived the
port its SYN was sent to and who was listening then.
-/

namespace Verkos.Stam.Tcp

open Function
open Option (some.inj ite_none_right_eq_some any_eq_true)

/-- How a connection came to be: the port of its SYN, and for each slot that was listening then,
which of its occupants that was. -/
structure Birth where
  port : Port
  listening : Fin nTcp → Option Nat

/-- A connection that `tcp_accept` returned: for which listener, and how it came to be. -/
structure Accepted where
  listener : Fin nTcp
  occupant : Nat
  port : Port
  birth : Option Birth

/-- The table, and what the code does not keep. -/
structure World where
  tab : Table
  held : Fin nTcp → Bool
  occupant : Fin nTcp → Nat
  birth : Fin nTcp → Option Birth
  accepted : List Accepted

/-- The atomic steps of the calls, and a segment arriving. -/
inductive Event
  | arrives (a : Arrival)
  | opens
  | binds (i : Fin nTcp) (port : Port)
  | listens (i : Fin nTcp) (present : Bool)
  /-- One look of `tcp_accept`. -/
  | accepts (l : Fin nTcp)
  /-- `tcp_connect` up to its first SYN. -/
  | connects (i : Fin nTcp) (ip : Ip) (port : Port) (iss : Seq)
  /-- A SYN of `tcp_connect`. -/
  | sendsSyn (i : Fin nTcp) (iss : Seq)
  /-- `tcp_connect` was refused or gave up. -/
  | abandons (i : Fin nTcp)
  /-- `tcp_close` sends its FIN. -/
  | sendsFin (i : Fin nTcp)
  /-- `tcp_close` frees the slot. -/
  | frees (i : Fin nTcp)

namespace World

/-- Which of its occupants each listening slot has. -/
def listening (w : World) (j : Fin nTcp) : Option Nat :=
  if (w.tab.socks j).state = .listen then some (w.occupant j) else none

/-- What a segment leaves behind for the slot it took, if it took one. -/
def births (my : Ip) (w : World) (a : Arrival) (c : Fin nTcp) : Option Birth :=
  match decode a.src my a.bytes with
  | some g =>
    if (w.tab.socks c).state = .free ∧ ((w.tab.input my a).socks c).state ≠ .free then
      some ⟨g.dport, w.listening⟩
    else w.birth c
  | none => w.birth c

def arrive (my : Ip) (w : World) (a : Arrival) : World :=
  { w with tab := w.tab.input my a, birth := w.births my a }

def hold (w : World) (T : Table) (i : Fin nTcp) : World :=
  { w with tab := T, held := Function.update w.held i true }

/-- `tcp_open`: the slot has a new occupant. -/
def opened (w : World) : World :=
  match tcpOpen w.tab with
  | (T, some i) =>
    { w.hold T i with occupant := Function.update w.occupant i (w.occupant i + 1) }
  | (_, none) => w

/-- A look of `tcp_accept`: what it returns is held from then on. -/
def accept (w : World) (l : Fin nTcp) : World :=
  match acceptOnce w.tab l with
  | (T, some c) =>
    { w.hold T c with
      accepted := w.accepted ++ [⟨l, w.occupant l, (w.tab.socks l).lport, w.birth c⟩] }
  | (_, none) => w

/-- Another table and nothing else. -/
def withTab (w : World) (T : Table) : World := { w with tab := T }

def sendSyn (w : World) (i : Fin nTcp) (iss : Seq) : World :=
  let s := w.tab.socks i
  w.withTab (w.tab.send s.rip [s.sendSeg { syn := true } iss [] true])

def connect (w : World) (i : Fin nTcp) (ip : Ip) (port : Port) (iss : Seq) : World :=
  w.withTab { w.tab.set i (connecting (w.tab.socks i) ip port w.tab.nextPort iss) with
    nextPort := portAfter w.tab.nextPort }

def free (w : World) (i : Fin nTcp) : World :=
  { w with tab := freed w.tab i, held := Function.update w.held i false }

/-- A caller calls on what it holds, and each step is taken where the call has come to it. -/
def step (my : Ip) (w : World) : Event → Option World
  | .arrives a => some (w.arrive my a)
  | .opens => some w.opened
  | .binds i port => if w.held i then some (w.withTab (tcpBind w.tab i port).1) else none
  | .listens i present => if w.held i then some (w.withTab (tcpListen present w.tab i).1) else none
  | .accepts l =>
    if w.held l ∧ (w.tab.socks l).state = .listen then some (w.accept l) else none
  | .connects i ip port iss =>
    if w.held i ∧ (w.tab.socks i).state = .closed then some (w.connect i ip port iss) else none
  | .sendsSyn i iss => if w.held i then some (w.sendSyn i iss) else none
  | .abandons i =>
    if w.held i ∧ (w.tab.socks i).state ≠ .listen then some (w.withTab (giveUp w.tab i).1) else none
  | .sendsFin i =>
    if w.held i ∧ ((w.tab.socks i).state = .established ∨ (w.tab.socks i).state = .closeWait) then
      some (w.withTab (closing w.tab i))
    else none
  | .frees i => if w.held i then some (w.free i) else none

end World

/-- A slot nobody has used. -/
def noSock : Sock := ⟨.free, 0, 0, 0, 0, 0, 0, [], false, false, none⟩

/-- The table as the machine starts with it. -/
def bootTable : Table := ⟨fun _ => noSock, 40000, []⟩

def boot : World := ⟨bootTable, fun _ => false, fun _ => 0, fun _ => none, []⟩

/-- What can be reached by steps that each meet `ok`. -/
inductive Run (my : Ip) (ok : World → Event → Prop) : World → Prop
  | start : Run my ok boot
  | step {w w' : World} {e : Event} : Run my ok w → ok w e → w.step my e = some w' → Run my ok w'

/-- Every socket in use is held, or is in the backlog of one that listens. -/
def World.Owned (w : World) : Prop :=
  ∀ c, (w.tab.socks c).state ≠ .free → w.held c = true ∨
    ∃ l, (w.tab.socks c).parent = some l ∧ (w.tab.socks l).state = .listen

/-- Every connection `tcp_accept` returned was opened by a SYN to the listener's own port while that
listener was listening. -/
def World.AcceptsOwn (w : World) : Prop :=
  ∀ a ∈ w.accepted, ∃ b, a.birth = some b ∧ b.port = a.port ∧ b.listening a.listener = some a.occupant

/-- No listener is closed while a socket in use names it. -/
def KeepsBacklog (w : World) : Event → Prop
  | .frees i => (w.tab.socks i).state = .listen →
      ∀ c, (w.tab.socks c).state ≠ .free → (w.tab.socks c).parent ≠ some i
  | _ => True

/-! ## What the table's operations do to the sockets -/

@[simp] theorem Table.send_socks (T : Table) (dst : Ip) (gs : List Seg) :
    (T.send dst gs).socks = T.socks := rfl

@[simp] theorem Table.set_socks_self (T : Table) (i : Fin nTcp) (s : Sock) :
    (T.set i s).socks i = s := by
  simp [Table.set]

variable {i : Fin nTcp} {T : Table} {s : Sock} {g : Seg}

theorem Table.set_socks_of_ne (T : Table) {j : Fin nTcp} (s : Sock) (h : j ≠ i) :
    (T.set i s).socks j = T.socks j := by
  simp [Table.set, h]

theorem Table.find_some {p : Sock → Bool} (h : T.find p = some i) :
    p (T.socks i) = true := List.find?_some (p := fun i => p (T.socks i)) h

namespace Sock

@[simp] theorem onAck_state (s : Sock) (g : Seg) : (s.onAck g).state = s.state := by
  unfold onAck
  split <;> rfl

@[simp] theorem onAck_parent (s : Sock) (g : Seg) : (s.onAck g).parent = s.parent := by
  unfold onAck
  split <;> rfl

@[simp] theorem take_state (s : Sock) (g : Seg) : (s.take g).state = s.state := by
  unfold take
  split <;> rfl

@[simp] theorem take_parent (s : Sock) (g : Seg) : (s.take g).parent = s.parent := by
  unfold take
  split <;> rfl

@[simp] theorem onData_state (s : Sock) (g : Seg) : (s.onData g).1.state = s.state := by
  unfold onData
  split
  · rfl
  · exact take_state s g

@[simp] theorem onData_parent (s : Sock) (g : Seg) : (s.onData g).1.parent = s.parent := by
  unfold onData
  split
  · rfl
  · exact take_parent s g

theorem onFin_state (s : Sock) (g : Seg) :
    (s.onFin g).1.state = s.state ∨ (s.onFin g).1.state = s.state.finished := by
  unfold onFin
  split
  · exact .inr rfl
  · exact .inl rfl

@[simp] theorem onFin_parent (s : Sock) (g : Seg) : (s.onFin g).1.parent = s.parent := by
  unfold onFin
  split <;> rfl

/-- Neither free nor listening: a state a segment can be for. -/
def Live (s : Sock) : Prop := s.state ≠ .free ∧ s.state ≠ .listen

theorem State.finished_live {st : State} (h : st ≠ .free ∧ st ≠ .listen) :
    st.finished ≠ .free ∧ st.finished ≠ .listen := by
  cases st <;> simp_all [State.finished]

theorem stream_live (g : Seg) (h : s.Live) : (s.stream g).1.Live := by
  have hst : ((s.onAck g).onData g).1.state = s.state := by simp
  change ((((s.onAck g).onData g).1).onFin g).1.Live
  rcases onFin_state ((s.onAck g).onData g).1 g with hf | hf
  · unfold Live
    rw [hf, hst]
    exact h
  · unfold Live
    rw [hf, hst]
    exact State.finished_live h

theorem stream_parent (s : Sock) (g : Seg) : (s.stream g).1.parent = s.parent := by
  change ((((s.onAck g).onData g).1).onFin g).1.parent = s.parent
  simp

theorem input_live (g : Seg) (h : s.Live) :
    (s.input g).1.Live ∧ (s.input g).1.parent = s.parent := by
  unfold input
  split
  · exact ⟨⟨by simp, by simp⟩, rfl⟩
  · split
    · split
      · exact ⟨h, rfl⟩
      · exact ⟨⟨by simp, by simp⟩, rfl⟩
    · split
      · exact ⟨h, rfl⟩
      · exact ⟨stream_live g ⟨by simp, by simp⟩, stream_parent _ g⟩
    · exact ⟨stream_live g h, stream_parent s g⟩

theorem live_of_matches {src : Ip} (h : s.matches src g = true) : s.Live := by
  simp only [Sock.matches, Bool.and_eq_true, bne_iff_ne] at h
  exact ⟨h.1.1.1.1, h.1.1.1.2⟩

end Sock

/-- What a segment does to the table: nothing, something to a live socket that keeps its backlog,
or a free slot taken for a listener. -/
theorem Table.deliver_cases (T : Table) (src : Ip) (g : Seg) (iss : Seq) :
    (T.deliver src g iss).socks = T.socks ∨ (∃ i, (T.socks i).Live ∧
      (T.deliver src g iss).socks = update T.socks i ((T.socks i).input g).1) ∨
    ∃ c l, (T.socks c).state = .free ∧ (T.socks l).state = .listen ∧ (T.socks l).lport = g.dport ∧
      (T.deliver src g iss).socks = update T.socks c (synSock src g l iss) := by
  unfold Table.deliver
  cases hm : T.find (Sock.matches src g) with
  | some i => exact .inr (.inl ⟨i, Sock.live_of_matches (Table.find_some hm), rfl⟩)
  | none =>
    by_cases hs : (g.flags.syn && !g.flags.ack) = true
    · simp only [hs, if_true]
      unfold Table.syn
      split
      · rename_i l c hl hc
        have hl' := Table.find_some hl
        have hc' := Table.find_some hc
        simp only [Sock.listensOn, Bool.and_eq_true, beq_iff_eq] at hl'
        simp only [Sock.isFree, beq_iff_eq] at hc'
        exact .inr (.inr ⟨c, l, hc', hl'.1, hl'.2, rfl⟩)
      · exact .inl rfl
    · simp only [hs]
      exact .inl rfl

/-! ## The invariant -/

/-- A connection in the backlog of the listener it was opened for. -/
def World.InBacklog (w : World) (c : Fin nTcp) : Prop :=
  ∃ l b, (w.tab.socks c).parent = some l ∧ (w.tab.socks l).state = .listen ∧
    w.birth c = some b ∧ b.port = (w.tab.socks l).lport ∧ b.listening l = some (w.occupant l)

structure World.Inv (w : World) : Prop where
  used : ∀ c, (w.tab.socks c).state ≠ .free → w.held c = true ∨ w.InBacklog c
  heldUsed : ∀ c, w.held c = true → (w.tab.socks c).state ≠ .free
  heldOut : ∀ c, w.held c = true → (w.tab.socks c).parent = none
  accepts : w.AcceptsOwn

namespace World.Inv

variable {w : World} {my : Ip}

section

variable (h : w.Inv)
include h

theorem owned : w.Owned := by
  intro c hc
  rcases h.used c hc with hh | ⟨l, b, hp, hl, -⟩
  · exact .inl hh
  · exact .inr ⟨l, hp, hl⟩

theorem no_child {c : Fin nTcp} (hi : (w.tab.socks i).state ≠ .listen)
    (hc : (w.tab.socks c).state ≠ .free) : (w.tab.socks c).parent ≠ some i := by
  intro hp
  rcases h.used c hc with hh | ⟨l, b, hp', hl, -⟩
  · rw [h.heldOut c hh] at hp
    cases hp
  · obtain rfl := some.inj (hp.symm.trans hp')
    exact hi hl

/-- One slot changes, and nothing in use is in its backlog. -/
theorem change {w' : World} (i : Fin nTcp) (hsock : ∀ c, c ≠ i → w'.tab.socks c = w.tab.socks c)
    (hheld : ∀ c, c ≠ i → w'.held c = w.held c) (hbirth : ∀ c, c ≠ i → w'.birth c = w.birth c)
    (hocc : ∀ c, c ≠ i → w'.occupant c = w.occupant c)
    (hchild : ∀ c, (w.tab.socks c).state ≠ .free → (w.tab.socks c).parent ≠ some i)
    (hused : (w'.tab.socks i).state ≠ .free → w'.held i = true ∨ w'.InBacklog i)
    (hhold : w'.held i = true → (w'.tab.socks i).state ≠ .free ∧ (w'.tab.socks i).parent = none)
    (hacc : w'.AcceptsOwn) : w'.Inv := by
  refine ⟨fun c hc => ?_, fun c hc => ?_, fun c hc => ?_, hacc⟩
  · by_cases hci : c = i
    · rw [hci] at hc ⊢
      exact hused hc
    · rw [hsock c hci] at hc
      rcases h.used c hc with hh | ⟨l, b, hpl, hls, hb, hport, hlis⟩
      · exact .inl ((hheld c hci).trans hh)
      · have hli : l ≠ i := by
          rintro rfl
          exact hchild c hc hpl
        refine .inr ⟨l, b, ?_, ?_, ?_, ?_, ?_⟩
        · rw [hsock c hci, hpl]
        · rw [hsock l hli, hls]
        · rw [hbirth c hci, hb]
        · rw [hsock l hli, hport]
        · rw [hocc l hli, hlis]
  · by_cases hci : c = i
    · rw [hci] at hc ⊢
      exact (hhold hc).1
    · rw [hheld c hci] at hc
      rw [hsock c hci]
      exact h.heldUsed c hc
  · by_cases hci : c = i
    · rw [hci] at hc ⊢
      exact (hhold hc).2
    · rw [hheld c hci] at hc
      rw [hsock c hci]
      exact h.heldOut c hc

theorem withTab (hT : T.socks = w.tab.socks) : (w.withTab T).Inv := by
  obtain ⟨⟨socks, port, wire⟩, held, occupant, birth, accepted⟩ := w
  obtain ⟨socks', port', wire'⟩ := T
  cases hT
  exact ⟨h.used, h.heldUsed, h.heldOut, h.accepts⟩

theorem atHeld (hi : w.held i = true) (hl : (w.tab.socks i).state ≠ .listen) (hs : s.state ≠ .free)
    (hp : s.parent = none) (hT : T.socks = update w.tab.socks i s) : (w.withTab T).Inv := by
  have hself : (w.withTab T).tab.socks i = s := by
    change T.socks i = s
    rw [hT, update_self]
  refine h.change i (fun c hc => ?_) (fun _ _ => rfl) (fun _ _ => rfl) (fun _ _ => rfl)
    (fun c hc => h.no_child hl hc) (fun _ => .inl hi) (fun _ => ?_) h.accepts
  · change T.socks c = w.tab.socks c
    rw [hT, update_of_ne hc]
  · rw [hself]
    exact ⟨hs, hp⟩

/-- A segment for a live socket: it stays live and where it is. -/
theorem arrive_live {a : Arrival} (hi : (w.tab.socks i).Live)
    (hT : (w.tab.input my a).socks = update w.tab.socks i ((w.tab.socks i).input g).1)
    (hb : ∀ c, (w.tab.socks c).state ≠ .free ∨ ((w.tab.input my a).socks c).state = .free → w.births my a c = w.birth c) :
    (w.arrive my a).Inv := by
  obtain ⟨hlive, hpar⟩ := Sock.input_live g hi
  have hself : (w.arrive my a).tab.socks i = ((w.tab.socks i).input g).1 := by
    change (w.tab.input my a).socks i = _
    rw [hT, update_self]
  have hne : ∀ c, c ≠ i → (w.arrive my a).tab.socks c = w.tab.socks c := by
    intro c hc
    change (w.tab.input my a).socks c = _
    rw [hT, update_of_ne hc]
  have hbirth : ∀ c, (w.arrive my a).birth c = w.birth c := by
    intro c
    apply hb
    by_cases hc : (w.tab.socks c).state = .free
    · have hci : c ≠ i := fun he => hi.1 (he ▸ hc)
      exact .inr ((congrArg Sock.state (hne c hci)).trans hc)
    · exact .inl hc
  refine h.change i hne (fun _ _ => rfl) (fun c _ => hbirth c) (fun _ _ => rfl)
    (fun c hc => h.no_child hi.2 hc) (fun _ => ?_) (fun hh => ?_) h.accepts
  · rcases h.used i hi.1 with hh | ⟨l, b, hpl, hls, hbl, hport, hlis⟩
    · exact .inl hh
    · have hli : l ≠ i := by
        rintro rfl
        exact hi.2 hls
      refine .inr ⟨l, b, ?_, ?_, (hbirth i).trans hbl, ?_, hlis⟩
      · rw [hself, hpar, hpl]
      · rw [hne l hli, hls]
      · rw [hne l hli, hport]
  · rw [hself]
    exact ⟨hlive.1, hpar.trans (h.heldOut i hh)⟩

/-- A SYN: a free slot becomes a connection in the backlog of the listener. -/
theorem arrive_syn {a : Arrival} {iss : Seq} {c l : Fin nTcp} (hc : (w.tab.socks c).state = .free)
    (hl : (w.tab.socks l).state = .listen) (hport : (w.tab.socks l).lport = g.dport)
    (hT : (w.tab.input my a).socks = update w.tab.socks c (synSock a.src g l iss))
    (hb : ∀ c', c' ≠ c → w.births my a c' = w.birth c')
    (hbc : w.births my a c = some ⟨g.dport, w.listening⟩) : (w.arrive my a).Inv := by
  have hself : (w.arrive my a).tab.socks c = synSock a.src g l iss := by
    change (w.tab.input my a).socks c = _
    rw [hT, update_self]
  have hne : ∀ c', c' ≠ c → (w.arrive my a).tab.socks c' = w.tab.socks c' := by
    intro c' hc'
    change (w.tab.input my a).socks c' = _
    rw [hT, update_of_ne hc']
  have hlc : l ≠ c := by
    rintro rfl
    rw [hc] at hl
    cases hl
  have hnl : (w.tab.socks c).state ≠ .listen := by
    rw [hc]
    decide
  refine h.change c hne (fun _ _ => rfl) (fun c' hc' => hb c' hc') (fun _ _ => rfl)
    (fun c' hc' => h.no_child hnl hc') (fun _ => .inr ?_) (fun hh => ?_) h.accepts
  · refine ⟨l, ⟨g.dport, w.listening⟩, ?_, ?_, hbc, ?_, ?_⟩
    · rw [hself]
      rfl
    · rw [hne l hlc, hl]
    · rw [hne l hlc, hport]
    · change w.listening l = some (w.occupant l)
      simp [World.listening, hl]
  · exact (h.heldUsed c hh hc).elim

theorem arrive (a : Arrival) : (w.arrive my a).Inv := by
  cases hd : decode a.src my a.bytes with
  | none =>
    have ht : w.tab.input my a = w.tab := by simp [Table.input, hd]
    have hb : w.births my a = w.birth := by
      funext c
      simp [World.births, hd]
    unfold World.arrive
    rw [ht, hb]
    exact h
  | some g =>
    have htab : w.tab.input my a = w.tab.deliver a.src g (a.count.truncate 32) := by
      simp [Table.input, hd]
    have hold : ∀ c, (w.tab.socks c).state ≠ .free ∨ ((w.tab.input my a).socks c).state = .free →
        w.births my a c = w.birth c := by
      intro c hc
      simp only [World.births, hd]
      rw [if_neg fun hn => hc.elim (fun h => h hn.1) hn.2]
    have hcases := w.tab.deliver_cases a.src g (a.count.truncate 32)
    rw [← htab] at hcases
    rcases hcases with hT | ⟨i, hi, hT⟩ | ⟨c, l, hfree, hl, hport, hT⟩
    · have hb : w.births my a = w.birth := by
        funext c
        apply hold
        rw [hT]
        exact (em _).symm
      unfold World.arrive
      rw [hb]
      exact h.withTab hT
    · exact h.arrive_live hi hT hold
    · have hself : ((w.tab.input my a).socks c).state ≠ .free := by
        rw [hT, update_self]
        exact fun he => nomatch he
      refine h.arrive_syn hfree hl hport hT (fun c' hc' => hold c' ?_) ?_
      · rw [hT, update_of_ne hc']
        exact (em _).symm
      · simp only [World.births, hd]
        rw [if_pos ⟨hfree, hself⟩]

theorem opened : w.opened.Inv := by
  unfold World.opened tcpOpen
  cases hf : w.tab.find Sock.isFree with
  | none => exact h
  | some i =>
    have hi := Table.find_some hf
    simp only [Sock.isFree, beq_iff_eq] at hi
    have hnl : (w.tab.socks i).state ≠ .listen := by
      rw [hi]
      decide
    refine h.change i (fun c hc => Table.set_socks_of_ne _ _ hc)
      (fun c hc => update_of_ne hc _ _) (fun _ _ => rfl)
      (fun c hc => update_of_ne hc _ _) (fun c hc => h.no_child hnl hc) (fun _ => ?_)
      (fun _ => ?_) h.accepts
    · exact .inl (update_self _ _ _)
    · rw [show (World.tab _).socks i = freshSock (w.tab.socks i) from Table.set_socks_self _ _ _]
      exact ⟨by simp [freshSock], rfl⟩

theorem accept (l : Fin nTcp) : (w.accept l).Inv := by
  unfold World.accept acceptOnce
  cases hf : w.tab.find (Sock.acceptable l) with
  | none => exact h
  | some c =>
    have hc := Table.find_some hf
    simp only [Sock.acceptable, Bool.and_eq_true, beq_iff_eq, Bool.or_eq_true] at hc
    have hused : (w.tab.socks c).state ≠ .free := by
      rcases hc.2 with hs | hs <;> rw [hs] <;> decide
    have hnl : (w.tab.socks c).state ≠ .listen := by
      rcases hc.2 with hs | hs <;> rw [hs] <;> decide
    obtain ⟨b, hb, hport, hlis⟩ : ∃ b, w.birth c = some b ∧ b.port = (w.tab.socks l).lport ∧
        b.listening l = some (w.occupant l) := by
      rcases h.used c hused with hh | ⟨l', b, hp, -, hb⟩
      · rw [h.heldOut c hh] at hc
        exact (nomatch hc.1)
      · obtain rfl := some.inj (hc.1.symm.trans hp)
        exact ⟨b, hb⟩
    refine h.change c (fun c' hc' => Table.set_socks_of_ne _ _ hc')
      (fun c' hc' => update_of_ne hc' _ _) (fun _ _ => rfl) (fun _ _ => rfl)
      (fun c' hc' => h.no_child hnl hc') (fun _ => ?_) (fun _ => ?_) (fun x hx => ?_)
    · exact .inl (update_self _ _ _)
    · rw [show (World.tab _).socks c = { w.tab.socks c with parent := none } from
        Table.set_socks_self _ _ _]
      exact ⟨hused, rfl⟩
    · rcases List.mem_append.1 hx with hx | hx
      · exact h.accepts x hx
      · rw [List.mem_singleton.1 hx]
        exact ⟨b, hb, hport, hlis⟩

theorem free (hq : KeepsBacklog w (.frees i)) : (w.free i).Inv := by
  refine h.change i (fun c hc => Table.set_socks_of_ne _ _ hc)
    (fun c hc => update_of_ne hc _ _) (fun _ _ => rfl) (fun _ _ => rfl)
    (fun c hc => ?_) (fun hs => ?_) (fun hh => ?_) h.accepts
  · by_cases hl : (w.tab.socks i).state = .listen
    · exact hq hl c hc
    · exact h.no_child hl hc
  · rw [show (w.free i).tab.socks i = { w.tab.socks i with state := .free } from
      Table.set_socks_self _ _ _] at hs
    exact (hs rfl).elim
  · rw [show (w.free i).held i = false from update_self _ _ _] at hh
    cases hh

theorem binds {port : Port} (hi : w.held i = true) : (w.withTab (tcpBind w.tab i port).1).Inv := by
  unfold tcpBind
  split
  · exact h.withTab rfl
  · rename_i hc
    split
    · exact h.withTab rfl
    · have hst : (w.tab.socks i).state = .closed := Classical.not_not.1 hc
      exact h.atHeld (s := { w.tab.socks i with lport := port }) hi (by rw [hst]; decide)
        (h.heldUsed i hi) (h.heldOut i hi) rfl

theorem listens {present : Bool} (hi : w.held i = true) :
    (w.withTab (tcpListen present w.tab i).1).Inv := by
  unfold tcpListen
  dsimp only
  split
  · exact h.withTab rfl
  · rename_i hc
    split
    · exact h.withTab rfl
    · split
      · exact h.withTab rfl
      · have hst : (w.tab.socks i).state = .closed := by
          by_contra hne
          exact hc (.inl hne)
        exact h.atHeld (s := { w.tab.socks i with rport := 0, rip := 0, parent := none, state := .listen })
          hi (by rw [hst]; decide) (by simp) rfl rfl

theorem step {e : Event} {w' : World} (hq : KeepsBacklog w e) (hs : w.step my e = some w') :
    w'.Inv := by
  cases e with
  | arrives a =>
    cases hs
    exact h.arrive a
  | opens =>
    cases hs
    exact h.opened
  | binds i port =>
    obtain ⟨hi, hw⟩ := ite_none_right_eq_some.1 hs
    cases hw
    exact h.binds hi
  | listens i present =>
    obtain ⟨hi, hw⟩ := ite_none_right_eq_some.1 hs
    cases hw
    exact h.listens hi
  | accepts l =>
    obtain ⟨hi, hw⟩ := ite_none_right_eq_some.1 hs
    cases hw
    exact h.accept l
  | connects i ip port iss =>
    obtain ⟨hi, hw⟩ := ite_none_right_eq_some.1 hs
    cases hw
    exact h.atHeld (s := connecting (w.tab.socks i) ip port w.tab.nextPort iss) hi.1
      (by rw [hi.2]; decide) (by simp [connecting]) (h.heldOut i hi.1) rfl
  | sendsSyn i iss =>
    obtain ⟨hi, hw⟩ := ite_none_right_eq_some.1 hs
    cases hw
    exact h.withTab rfl
  | abandons i =>
    obtain ⟨hi, hw⟩ := ite_none_right_eq_some.1 hs
    cases hw
    exact h.atHeld (s := { w.tab.socks i with state := .closed }) hi.1 hi.2 (by simp)
      (h.heldOut i hi.1) rfl
  | sendsFin i =>
    obtain ⟨hi, hw⟩ := ite_none_right_eq_some.1 hs
    cases hw
    have hnl : (w.tab.socks i).state ≠ .listen := by
      rcases hi.2 with hst | hst <;> rw [hst] <;> decide
    refine h.atHeld (T := closing w.tab i) (s := (closing w.tab i).socks i) hi.1 hnl ?_ ?_ ?_
    · rw [closing, Table.set_socks_self]
      change (if (w.tab.socks i).state = .closeWait then State.closed else State.finWait) ≠ .free
      split <;> decide
    · rw [closing, Table.set_socks_self]
      exact h.heldOut i hi.1
    · rw [closing, Table.set_socks_self]
      rfl
  | frees i =>
    obtain ⟨hi, hw⟩ := ite_none_right_eq_some.1 hs
    cases hw
    exact h.free hq

end

end World.Inv

theorem boot_inv : boot.Inv where
  used := fun _ hc => (hc rfl).elim
  heldUsed := fun _ hc => nomatch hc
  heldOut := fun _ hc => nomatch hc
  accepts := fun _ hx => nomatch hx

/-- In every run in which no listener is closed while its backlog is not empty: every socket in use
is held or in the backlog of a socket that listens, and every connection accepted so far was opened
by a SYN to its listener's own port while that listener was listening. -/
theorem sockets_owned {my : Ip} {w : World} (h : Run my KeepsBacklog w) :
    w.Owned ∧ w.AcceptsOwn := by
  have hinv : w.Inv := by
    induction h with
    | start => exact boot_inv
    | step _ hq hs ih => exact ih.step hq hs
  exact ⟨hinv.owned, hinv.accepts⟩

/-! ## A listener closed too early -/

/-- What a call may do in between, as far as the run is concerned: everything but free a slot. -/
def Permits (ok : World → Event → Prop) : Prop := ∀ w e, (∀ i, e ≠ .frees i) → ok w e

theorem permits_keepsBacklog : Permits KeepsBacklog := by
  intro w e he
  cases e with
  | frees i => exact (he i rfl).elim
  | _ => trivial

/-- The events one after the other, as far as they can be taken. -/
def World.steps (my : Ip) (w : World) (es : List Event) : Option World := es.foldlM (World.step my) w

theorem Run.steps {my : Ip} {ok : World → Event → Prop} : ∀ (es : List Event) {w w' : World},
    (∀ e ∈ es, ∀ w, ok w e) → Run my ok w → w.steps my es = some w' → Run my ok w'
  | [], w, w', _, h, hs => by
    cases hs
    exact h
  | e :: es, w, w', hok, h, hs => by
    obtain ⟨w1, h1, hs1⟩ := Option.bind_eq_some_iff.1 (show (w.step my e).bind
      (fun w1 => w1.steps my es) = some w' from hs)
    exact .steps es (fun e' he' => hok e' (List.mem_cons_of_mem _ he'))
      (h.step (hok e List.mem_cons_self w) h1) hs1

def myIp : Ip := 0x0a00020f

def peerIp : Ip := 0x0a000202

/-- A segment from the peer's port 5000 to port 80, handled when the counter reads 7. -/
def toPort80 (seq ack : Seq) (flags : Flags) : Arrival :=
  ⟨Seg.encode peerIp myIp ⟨5000, 80, seq, ack, flags, 0, false, []⟩, peerIp, 7⟩

/-- A listener on port 80 and a connection in its backlog. -/
def handshake : List Event :=
  [.opens, .binds 0 80, .listens 0 true, .arrives (toPort80 100 0 { syn := true }),
    .arrives (toPort80 101 8 { ack := true })]

/-- Accepted before the listener is closed. -/
theorem sockets_owned_accepted : ∃ w, Run myIp KeepsBacklog w ∧ (w.Owned ∧ w.AcceptsOwn) ∧
    w.accepted ≠ [] := by
  have hs : (boot.steps myIp (handshake ++ [Event.accepts 0])).any (fun w => !w.accepted.isEmpty) = true := by
    decide +kernel
  obtain ⟨w, hw, hacc⟩ := (any_eq_true _ _).1 hs
  have hrun : Run myIp KeepsBacklog w := by
    refine .steps _ (fun e he w' => permits_keepsBacklog w' e fun i hi => ?_) .start hw
    subst hi
    simp [handshake] at he
  exact ⟨w, hrun, sockets_owned hrun, by simpa using hacc⟩

/-- The listener on port 80 is closed with a connection in its backlog, which is then nobody's; a
listener on port 81 takes the slot and accepts it. -/
theorem closed_listener_leaks : (∃ w, Run myIp (fun _ _ => True) w ∧ ¬w.Owned) ∧
      ∃ w, Run myIp (fun _ _ => True) w ∧ ¬w.AcceptsOwn := by
  have h1 : (boot.steps myIp (handshake ++ [Event.frees 0])).any (fun w =>
      (w.tab.socks 1).state == .established && !w.held 1 && (w.tab.socks 0).state == .free &&
        (w.tab.socks 1).parent == some 0) = true := by
    decide +kernel
  have h2 : (boot.steps myIp (handshake ++ [Event.frees 0, Event.opens, Event.binds 0 81, Event.listens 0 true,
      Event.accepts 0])).any (fun w => w.accepted.any fun a =>
        a.port == 81 && a.birth.any fun b => b.port == 80) = true := by
    decide +kernel
  constructor
  · obtain ⟨w, hw, hc⟩ := (any_eq_true _ _).1 h1
    simp only [Bool.and_eq_true, beq_iff_eq, Bool.not_eq_true'] at hc
    refine ⟨w, .steps _ (fun _ _ _ => trivial) .start hw, fun ho => ?_⟩
    rcases ho 1 (by rw [hc.1.1.1]; decide) with hh | ⟨l, hp, hl⟩
    · rw [hc.1.1.2] at hh
      cases hh
    · obtain rfl := some.inj (hc.2.symm.trans hp)
      rw [hc.1.2] at hl
      cases hl
  · obtain ⟨w, hw, hc⟩ := (any_eq_true _ _).1 h2
    refine ⟨w, .steps _ (fun _ _ _ => trivial) .start hw, fun ho => ?_⟩
    obtain ⟨a, ha, hab⟩ := List.any_eq_true.1 hc
    obtain ⟨b, hb, hport, -⟩ := ho a ha
    simp only [hb, Option.any_some, Bool.and_eq_true, beq_iff_eq] at hab
    rw [hab.1, hab.2] at hport
    exact absurd hport (by decide)

end Verkos.Stam.Tcp
