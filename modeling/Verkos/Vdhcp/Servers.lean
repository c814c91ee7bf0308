import Verkos.Lib.Steps
import Verkos.Vdhcp.Client

/-!
# A handshake among several servers

The replies to a DISCOVER and to the REQUEST behind it have one transaction id, and they wait in the
queue of one socket until the program reads them. `raw_recv` ends with the first of them, and only
then `run_interface` looks at its type, and at its server never. So the first reply that is read
after an OFFER was taken decides, and the address is bound when that is the ACK of the server that
made the OFFER.
-/

namespace Verkos.Vdhcp

open Lib (exec)

/-- A reply of the exchange: its type, and the lease that `parse` fills in. -/
abbrev Reply := Int × Lease

/-- The program, and what its socket has received. -/
structure Net where
  st : St
  queue : List Reply

inductive Event
  | arrives (r : Reply)
  /-- `recv`, of the first reply in the queue. -/
  | reads
  | input (i : Input)

/-- In `select`, waiting for a reply. -/
def St.listening (st : St) : Prop :=
  match st.phase with
  | .exchange _ ⟨_, _, .recv ..⟩ => True
  | _ => False

instance (st : St) : Decidable st.listening := by unfold St.listening; split <;> infer_instance

namespace Net

/-- `select` comes back at once while there is something to read. -/
def step (c : Conf) (n : Net) : Event → Option Net
  | .arrives r => some { n with queue := n.queue ++ [r] }
  | .reads =>
    match n.queue with
    | [] => none
    | r :: q => (n.st.step c (.reply r.1 r.2)).map (⟨·, q⟩)
  | .input (.reply ..) => none
  | .input .tick =>
    if n.st.listening ∧ n.queue ≠ [] then none else (n.st.step c .tick).map (⟨·, n.queue⟩)
  | .input .interrupted =>
    if n.st.listening ∧ n.queue ≠ [] then none else (n.st.step c .interrupted).map (⟨·, n.queue⟩)
  | .input i => (n.st.step c i).map (⟨·, n.queue⟩)

/-- A step from the REQUEST to the end of the probe, and none behind. -/
def shake (c : Conf) (n : Net) (e : Event) : Option Net :=
  match n.st.phase with
  | .exchange (.request _) _ => n.step c e
  | .probing _ => n.step c e
  | _ => none

/-- The address is on the interface. -/
def Bound (n : Net) (ip : UInt32) : Prop := n.st.bound = true ∧ n.st.cur.ip = ip ∧ n.st.ifaddr = ip

end Net

def Event.arrived : Event → List Reply
  | .arrives r => [r]
  | _ => []

def arrivals (es : List Event) : List Reply := es.flatMap Event.arrived

/-- Packets can be sent, nobody answers the probe, and the program is not told to end. -/
def Event.Calm : Event → Prop
  | .input (.sent ok) => ok = true
  | .input (.probe used) => used = false
  | .input .term => False
  | _ => True

/-- An ACK of the server that made the OFFER. -/
def Own (off : Lease) (r : Reply) : Prop :=
  r.1 = dhcpAck ∧ r.2.ip ≠ 0 ∧ r.2.serverId = off.serverId

/-- What the servers may rely on once `off` was taken from the queue and `q` left in it: an address
that is probed, and so any that is bound, is that of an ACK of the server that made the OFFER; and
when there is such an ACK, the address is bound or a few steps will do it. -/
structure Survives (c : Conf) (off : Lease) (q : List Reply) (n : Net) (es : List Event)
    (n' : Net) : Prop where
  own : ∀ ls, n'.st.phase = .probing ls → ∃ r ∈ q ++ arrivals es, Own off r ∧ r.2 = ls
  bound : n.st.term = false → (∀ e ∈ es, e.Calm) → (∃ r ∈ q ++ arrivals es, Own off r) →
    ∃ fs n'' r, exec (Net.shake c) n' fs = some n'' ∧ (∀ e ∈ fs, e.Calm) ∧ arrivals fs = [] ∧
      r ∈ q ++ arrivals es ∧ Own off r ∧ n''.Bound r.2.ip

/-! ## From the REQUEST to the end of the probe -/

/-- Nothing was read of what came, `rs`, or the first of it is being probed, or bound. -/
def Going (rs : List Reply) (calm : Prop) (n : Net) : Prop :=
  match n.st.phase with
  | .exchange (.request _) x => n.queue = rs ∧ (calm → n.st.term = false ∧ 0 < x.wait ∧
      (x.stage = .send → n.st.clock < x.deadline))
  | .probing ls => rs.head? = some (dhcpAck, ls) ∧ (calm → n.st.term = false)
  | _ => calm → ∀ r, rs.head? = some r → n.Bound r.2.ip

variable {c : Conf} {off ls : Lease} {rs q : List Reply} {calm : Prop} {n n' n₁ : Net} {e : Event}
  {es : List Event} {st st' : St} {ip : UInt32} {x : Exchange}

theorem Going.over (hph : ∀ ip x, n.st.phase ≠ .exchange (.request ip) x) (hpr : ∀ ls, n.st.phase ≠ .probing ls)
    (h : calm → ∀ r, rs.head? = some r → n.Bound r.2.ip) : Going rs calm n := by
  unfold Going
  split
  · exact absurd ‹_› (hph _ _)
  · exact absurd ‹_› (hpr _)
  · exact h

theorem Going.gone (h : calm → rs = []) (hph : ∀ ip x, st.phase ≠ .exchange (.request ip) x)
    (hpr : ∀ ls, st.phase ≠ .probing ls) : Going rs calm ⟨st, q⟩ :=
  .over hph hpr fun hc r hr => by rw [h hc] at hr; cases hr

theorem Going.nap (h : calm → rs = []) (secs : Int) : Going rs calm ⟨st.nap secs, q⟩ := by
  unfold St.nap
  split <;> exact .gone h (by simp [St.finish]) (by simp [St.finish])

variable {i : Input} {now : Int} {term : Bool} {r : Reply}

/-- What is left behind a step of an exchange. -/
theorem react_exchange {r : Request} {st' : St} (hph : st.phase = .exchange r x)
    (h : St.react c st i = some st') : (∃ y, x.step st.clock st.term i = some (.goesOn y) ∧
      st' = { st with phase := .exchange r y }) ∨
    ∃ o, x.step st.clock st.term i = some (.returns o) ∧ st' = st.returned r o := by
  simp only [St.react, hph, Option.map_eq_some_iff] at h
  obtain ⟨p, hp, rfl⟩ := h
  cases p with
  | goesOn y => exact .inl ⟨y, hp, rfl⟩
  | returns o => exact .inr ⟨o, hp, rfl⟩

theorem step_goesOn {y : Exchange} (hw : 0 < x.wait)
    (hi : i ≠ .term) (h : x.step now term i = some (.goesOn y)) :
    0 < y.wait ∧ (y.stage = .send → now < y.deadline) := by
  cases i <;> grind [Exchange.step, Exchange.timedOut]

theorem step_returns {o : Outcome}
    (hi : ∀ t ls, i ≠ .reply t ls) (h : x.step now term i = some (.returns o)) :
    (o = .failed ∨ o = .terminated) ∧ ((Event.input i).Calm → term = false → 0 < x.wait →
      (x.stage = .send → now < x.deadline) → i = .tick ∨ i = .interrupted) := by
  cases i <;> grind [Exchange.step, Exchange.timedOut, Event.Calm]

theorem Going.react (hs : St.react c st i = some st') (hph : st.phase = .exchange (.request ip) x)
    (hx : calm → st.term = false ∧ 0 < x.wait ∧ (x.stage = .send → st.clock < x.deadline))
    (hi : ∀ t ls, i ≠ .reply t ls) (hcalm : calm → (Event.input i).Calm)
    (hwait : i = .tick ∨ i = .interrupted → rs = []) : Going rs calm ⟨st', rs⟩ := by
  obtain ⟨y, hy, rfl⟩ | ⟨o, ho, rfl⟩ := react_exchange hph hs
  · refine ⟨rfl, fun hc => ⟨(hx hc).1, step_goesOn (hx hc).2.1 ?_ hy⟩⟩
    rintro rfl
    exact hcalm hc
  · obtain ⟨hor, hret⟩ := step_returns hi ho
    have hrs : calm → rs = [] := fun hc =>
      hwait (hret (hcalm hc) (hx hc).1 (hx hc).2.1 (hx hc).2.2)
    obtain rfl | rfl := hor
    · exact .nap hrs 3
    · exact .gone hrs (by simp [St.returned, St.finish]) (by simp [St.returned, St.finish])

theorem probed_bound (ht : st.term = false) : Net.Bound ⟨st.probed c ls false, q⟩ ls.ip := by
  have hip : ∀ now, (setTimers now ls).ip = ls.ip := fun _ => rfl
  simp only [St.probed, St.boundWait, St.renew, St.ask, St.finish, St.apply, Net.Bound]
  grind

theorem Going.probed (ht : calm → st.term = false) {type : Int} :
    Going ((type, ls) :: rs) calm ⟨st.probed c ls false, q⟩ := by
  refine .over ?_ ?_ fun hc r hr => ?_
  · simp only [St.probed, St.boundWait, St.renew, St.ask, St.finish]
    grind
  · simp only [St.probed, St.boundWait, St.renew, St.ask, St.finish]
    grind
  · cases hr
    exact probed_bound (ht hc)

theorem reads_own {w u : Int} (hph : n.st.phase = .exchange (.request ip) x)
    (hx : x.stage = .recv w u) (hq : n.queue = r :: q) (hr : Own off r) :
    ∃ st', n.step c .reads = some ⟨st', q⟩ ∧ st'.phase = .probing r.2 ∧ st'.term = n.st.term := by
  obtain ⟨ht, hip, -⟩ := hr
  simp [Net.step, hq, St.step, St.react, hph, Exchange.step, hx, St.returned, St.said, St.replied,
    St.hear, ht, hip]

theorem step_input (h : n.step c (.input i) = some n') :
    (∀ t ls, i ≠ .reply t ls) ∧ (i = .tick ∨ i = .interrupted → n.st.listening → n.queue = []) ∧
      ∃ st', n.st.step c i = some st' ∧ n' = ⟨st', n.queue⟩ := by
  cases i <;> simp only [Net.step, Option.ite_none_left_eq_some, Option.map_eq_some_iff] at h <;>
    grind

theorem Going.step (h : Going rs calm n) (hs : n.shake c e = some n')
    (hown : ∀ r, (rs ++ e.arrived).head? = some r → Own off r) (hcalm : calm → e.Calm) :
    Going (rs ++ e.arrived) calm n' := by
  obtain ⟨st, q⟩ := n
  unfold Net.shake at hs
  unfold Going at h
  dsimp only at h hs
  split at hs
  case h_1 ip x hph =>
    simp only [hph] at h
    obtain ⟨rfl, hx⟩ := h
    cases e with
    | arrives r =>
      cases hs
      simp only [Going, hph]
      exact ⟨rfl, hx⟩
    | reads =>
      cases q with
      | nil => cases hs
      | cons r q =>
        have hr := hown r (by simp)
        cases hstage : x.stage with
        | send => simp [Net.step, St.step, St.react, hph, Exchange.step, hstage] at hs
        | recv w u =>
          obtain ⟨st', hst, hph', hterm⟩ := reads_own (c := c) (n := ⟨st, r :: q⟩) hph hstage rfl hr
          obtain rfl := Option.some.inj (hst.symm.trans hs)
          simp only [Going, hph', hterm]
          exact ⟨by simp [← hr.1, Event.arrived], fun hc => (hx hc).1⟩
    | input i =>
      obtain ⟨hi, hwait, st', hst, rfl⟩ := step_input hs
      -- A clock that ticks, or a signal, ends only a wait in `select`.
      have hidle : i = .tick ∨ i = .interrupted → (∃ w u, x.stage = .recv w u) ∧ q = [] := by
        intro hti
        cases hstage : x.stage with
        | send =>
          obtain rfl | rfl := hti <;>
            simp [St.step, St.react, hph, Exchange.step, hstage] at hst
        | recv w u =>
          refine ⟨⟨w, u, rfl⟩, hwait hti ?_⟩
          obtain ⟨d, b, stage⟩ := x
          cases hstage
          simp [St.listening, hph]
      have hnil : (Event.input i).arrived = [] := rfl
      rw [hnil, List.append_nil]
      cases i with
      | tick =>
        obtain ⟨⟨w, u, hrecv⟩, hq⟩ := hidle (.inl rfl)
        exact Going.react (c := c) hst hph (fun hc => ⟨(hx hc).1, (hx hc).2.1, by simp [hrecv]⟩) hi hcalm
          fun _ => hq
      | term => exact Going.react (c := c) hst hph (fun hc => (hcalm hc).elim) hi hcalm (by simp)
      | _ => exact Going.react (c := c) hst hph hx hi hcalm fun h => (hidle h).2
  case h_2 ls hph =>
    simp only [hph] at h
    obtain ⟨hhead, ht⟩ := h
    obtain ⟨rest, rfl⟩ : ∃ rest, rs = (dhcpAck, ls) :: rest := by
      cases rs <;> simp_all
    cases e with
    | arrives r =>
      cases hs
      simp only [Going, hph]
      exact ⟨rfl, ht⟩
    | reads =>
      cases q with
      | nil => cases hs
      | cons r q => simp [Net.step, St.step, St.react, hph] at hs
    | input i =>
      obtain ⟨hi, hwait, st', hst, rfl⟩ := step_input hs
      have hnil : (Event.input i).arrived = [] := rfl
      rw [hnil, List.append_nil]
      cases i with
      | term =>
        simp only [St.step, St.react, hph, Option.some.injEq] at hst
        subst hst
        exact ⟨rfl, fun hc => (hcalm hc).elim⟩
      | probe used =>
        simp only [St.step, St.react, hph, Option.some.injEq] at hst
        subst hst
        cases used with
        | true => exact .nap (fun hc => absurd (hcalm hc) (by simp [Event.Calm])) 10
        | false => exact .probed ht
      | _ => simp [St.step, St.react, hph] at hst
  case h_3 => cases hs

theorem Going.exec (h : Going rs calm n) (hs : exec (Net.shake c) n es = some n')
    (hown : ∀ r, (rs ++ arrivals es).head? = some r → Own off r)
    (hcalm : calm → ∀ e ∈ es, e.Calm) : Going (rs ++ arrivals es) calm n' := by
  induction es generalizing n rs with
  | nil =>
    cases hs
    simpa [arrivals] using h
  | cons e es ih =>
    obtain ⟨n₁, he, hs⟩ := Option.bind_eq_some_iff.1 hs
    have hcat : rs ++ arrivals (e :: es) = rs ++ e.arrived ++ arrivals es := by simp [arrivals]
    rw [hcat] at hown ⊢
    refine ih (h.step he (fun r hr => hown r ?_) fun hc => hcalm hc e (by simp)) hs hown
      fun hc e he => hcalm hc e (List.mem_cons_of_mem _ he)
    rw [List.head?_append, hr]
    rfl

theorem Going.bound (h : Going (r :: rs) True n) (hr : Own off r) :
    ∃ fs n', Lib.exec (Net.shake c) n fs = some n' ∧ (∀ e ∈ fs, e.Calm) ∧ arrivals fs = [] ∧
      n'.Bound r.2.ip := by
  -- The probe, with the ACK and its reading in front where they are still to come.
  have hprobe : ∀ {n : Net}, n.st.phase = .probing r.2 → n.st.term = false →
      ∃ n', Lib.exec (Net.shake c) n [.input (.probe false)] = some n' ∧ n'.Bound r.2.ip :=
    fun {n} hph ht => ⟨⟨St.probed c n.st r.2 false, n.queue⟩,
      by simp [Lib.exec, Net.shake, Net.step, St.step, St.react, hph], probed_bound ht⟩
  have hread : ∀ {n : Net} {ip : UInt32} {x : Exchange} {w u : Int},
      n.st.phase = .exchange (.request ip) x → x.stage = .recv w u → n.queue = r :: rs →
      n.st.term = false → ∃ n', Lib.exec (Net.shake c) n [.reads, .input (.probe false)] = some n' ∧
        n'.Bound r.2.ip := by
    intro n ip x w u hph hx hq ht
    obtain ⟨st', hst, hph', hterm⟩ := reads_own (c := c) hph hx hq hr
    obtain ⟨n', hn', hb⟩ := hprobe (n := ⟨st', rs⟩) hph' (hterm.trans ht)
    refine ⟨n', ?_, hb⟩
    rw [Lib.exec, Net.shake, hph]
    exact Option.bind_eq_some_iff.2 ⟨_, hst, hn'⟩
  unfold Going at h
  split at h
  case h_1 ip x hph =>
    obtain ⟨hq, hx⟩ := h
    obtain ⟨ht, hw, hsend⟩ := hx trivial
    cases hstage : x.stage with
    | send =>
      have hlt := hsend hstage
      obtain ⟨n₁, hn1, x1, w, u, hph1, hx1, hq1, ht1⟩ : ∃ n₁,
          n.step c (.input (.sent true)) = some n₁ ∧ ∃ x1 w u,
            n₁.st.phase = .exchange (.request ip) x1 ∧ x1.stage = .recv w u ∧
            n₁.queue = r :: rs ∧ n₁.st.term = false := by
        have hpos : ¬ (if x.wait < x.deadline - n.st.clock then x.wait
            else x.deadline - n.st.clock) ≤ 0 := by split <;> omega
        simp [Net.step, St.step, St.react, hph, Exchange.step, hstage, hpos, hq, ht]
      obtain ⟨n', hn', hb⟩ := hread hph1 hx1 hq1 ht1
      refine ⟨.input (.sent true) :: [.reads, .input (.probe false)], n', ?_, by simp [Event.Calm],
        rfl, hb⟩
      rw [Lib.exec, Net.shake, hph]
      exact Option.bind_eq_some_iff.2 ⟨n₁, hn1, hn'⟩
    | recv w u =>
      obtain ⟨n', hn', hb⟩ := hread hph hstage hq ht
      exact ⟨_, n', hn', by simp [Event.Calm], rfl, hb⟩
  case h_2 ls hph =>
    obtain ⟨rfl, hterm⟩ : r = (dhcpAck, ls) ∧ _ := by simpa using h
    obtain ⟨n', hn', hb⟩ := hprobe hph hterm
    exact ⟨_, n', hn', by simp [Event.Calm], rfl, hb⟩
  case h_3 => exact ⟨[], n, rfl, by simp, rfl, h trivial r rfl⟩

theorem taken {off : Lease} (hph : n.st.phase = .exchange .discover x)
    (hq : n.queue = (dhcpOffer, off) :: q) (hip : off.ip ≠ 0) (hs : n.step c .reads = some n₁)
    (hcalm : calm → n.st.term = false) : Going q calm n₁ := by
  simp only [Net.step, hq] at hs
  obtain ⟨st', hst, rfl⟩ := Option.map_eq_some_iff.1 hs
  obtain ⟨y, hy, -⟩ | ⟨o, ho, rfl⟩ := react_exchange (c := c) hph hst
  · simp only [Exchange.step] at hy
    split at hy <;> cases hy
  · simp only [Exchange.step] at ho
    split at ho <;> cases ho
    have hrep : n.st.returned .discover (.reply dhcpOffer off) = n.st.ask (.request off.ip) 30 := by
      simp [St.returned, St.said, St.replied, dhcpAck, dhcpOffer, dhcpNak, hip]
    rw [hrep, St.ask]
    split
    · exact .over (by simp [St.finish]) (by simp [St.finish]) fun hc => by simp_all [hcalm hc]
    · exact ⟨rfl, fun hc => ⟨hcalm hc, by simp, fun _ => by dsimp only; omega⟩⟩

/-- When the first reply behind the OFFER that was taken is the ACK of its server, the handshake
comes to its end with that server's address. -/
theorem handshake_survives (c : Conf) {n n₁ n' : Net} {x : Exchange} {off : Lease}
    {q : List Reply} {es : List Event} (hph : n.st.phase = .exchange .discover x)
    (hq : n.queue = (dhcpOffer, off) :: q) (hip : off.ip ≠ 0) (htake : n.step c .reads = some n₁)
    (hrun : Lib.exec (Net.shake c) n₁ es = some n')
    (hfirst : ∀ r, (q ++ arrivals es).head? = some r → Own off r) : Survives c off q n es n' := by
  have hgoing : ∀ calm : Prop, (calm → n.st.term = false) → (calm → ∀ e ∈ es, e.Calm) →
      Going (q ++ arrivals es) calm n' := fun _ ht hcalm =>
    (taken hph hq hip htake ht).exec hrun hfirst hcalm
  constructor
  · intro ls hls
    have hg := hgoing False False.elim False.elim
    simp only [Going, hls] at hg
    exact ⟨_, List.mem_of_mem_head? hg.1, hfirst _ hg.1, rfl⟩
  · intro ht hcalm ⟨r, hr, _⟩
    have hg := hgoing True (fun _ => ht) fun _ => hcalm
    obtain ⟨r0, rs, hrs⟩ := List.exists_cons_of_ne_nil (List.ne_nil_of_mem hr)
    have h0 := hfirst r0 (by rw [hrs]; rfl)
    rw [hrs] at hg ⊢
    obtain ⟨fs, n'', hfs, hc, ha, hb⟩ := hg.bound (c := c) h0
    exact ⟨fs, n'', r0, hfs, hc, ha, by simp, h0, hb⟩

/-- Behind the DISCOVER, with these OFFERs in the queue. -/
def offered (q : List Reply) : Net :=
  ⟨{ St.start 0 false none with phase := .exchange .discover ⟨60, 4, .recv 4 4⟩ }, q⟩

/-- The REQUEST is sent, server 1 acknowledges it, and the first reply is read. -/
def answered : List Event :=
  [.input (.sent true), .arrives (dhcpAck, { ip := 9, serverId := 1, lease := 60 }), .reads]

theorem handshake_survives_one : ∃ n', Survives ⟨false, true⟩ { ip := 9, serverId := 1 } []
    (offered [(dhcpOffer, { ip := 9, serverId := 1 })]) answered n' :=
  ⟨_, handshake_survives _ rfl rfl (by decide) rfl rfl fun r hr => by
    cases hr
    exact ⟨rfl, by decide, rfl⟩⟩

/-- The OFFER of a second server is what is read as the answer to the REQUEST. -/
theorem not_handshake_survives : ¬ ∀ (c : Conf) (n n₁ n' : Net) (x : Exchange) (off : Lease)
    (q : List Reply) (es : List Event), n.st.phase = .exchange .discover x →
    n.queue = (dhcpOffer, off) :: q → off.ip ≠ 0 → n.step c .reads = some n₁ →
    Lib.exec (Net.shake c) n₁ es = some n' → Survives c off q n es n' := by
  intro h
  have hs := h ⟨false, true⟩ (offered [(dhcpOffer, { ip := 9, serverId := 1 }),
    (dhcpOffer, { ip := 8, serverId := 2 })]) _ _ _ _ _ answered rfl rfl (by decide) rfl rfl
  obtain ⟨fs, n'', r, hfs, -, -, -, -, hb, -⟩ := hs.bound rfl
    (by simp [answered, Event.Calm]) ⟨(dhcpAck, { ip := 9, serverId := 1, lease := 60 }),
      by simp [answered, arrivals, Event.arrived], rfl, by decide, rfl⟩
  cases fs with
  | nil =>
    cases hfs
    cases hb
  | cons e fs => cases hfs

end Verkos.Vdhcp
