import Verkos.Lib.Steps
import Verkos.Vdhcp.Client

/-!
# An address on the interface has a lease

The time that an address stays without a new ACK is the sum of the three waits, and `waits_le_iff`
says when that is at most the lease: `set_timers` sees to it that T1 and T2 are within the lease,
and not that they are in order. Two more things let an address stay too long. A NAK to a renewal is
taken for no answer, and a packet that is no answer starts the wait for one anew.
-/

namespace Verkos.Vdhcp

open Lib (Run exec run_of_exec)
open Option (some.injEq some.inj map_eq_some_iff)

/-! ## The three waits -/

/-- T1 is not behind T2; or it is, by so little and T2 so early that both differences are negative
as an `int`. -/
def Ordered (ls : Lease) : Prop :=
  ls.t1.toNat ≤ ls.t2.toNat ∨
    ls.t1.toNat ≤ ls.t2.toNat + 2 ^ 31 ∧ ls.t2.toNat + 2 ^ 31 ≤ ls.lease.toNat

instance (ls : Lease) : Decidable (Ordered ls) := by unfold Ordered; infer_instance

/-- Until T1, from there until T2, from there to the end. -/
def waits (ls : Lease) : Int :=
  ls.t1.toNat + max (toInt (ls.t2 - ls.t1)) 0 + max (toInt (ls.lease - ls.t2)) 0

theorem toInt_eq (d : UInt32) : toInt d = if d.toNat < 2 ^ 31 then (d.toNat : Int) else d.toNat - 2 ^ 32 := by
  have h : toInt d = d.toBitVec.toInt := rfl
  rw [h, BitVec.toInt_eq_toNat_cond]
  have hd : d.toBitVec.toNat = d.toNat := rfl
  rw [hd]
  split <;> split <;> omega

variable {ls : Lease} {r : Request} {type limit : Int} {x : Exchange} {i : Input} {st' : St}

theorem waits_le_iff (h1 : ls.t1 ≤ ls.lease) (h2 : ls.t2 ≤ ls.lease) :
    waits ls ≤ ls.lease.toNat ↔ Ordered ls := by
  have h1' : ls.t1.toNat ≤ ls.lease.toNat := h1
  have h2' : ls.t2.toNat ≤ ls.lease.toNat := h2
  have hl := ls.lease.toNat_lt
  unfold waits Ordered
  rw [toInt_eq, toInt_eq, UInt32.toNat_sub_of_le _ _ h2, UInt32.toNat_sub]
  by_cases hle : ls.t1.toNat ≤ ls.t2.toNat
  · have hmod : (2 ^ 32 - ls.t1.toNat + ls.t2.toNat) % 2 ^ 32 = ls.t2.toNat - ls.t1.toNat := by
      omega
    rw [hmod]
    split <;> split <;> omega
  · have hmod : (2 ^ 32 - ls.t1.toNat + ls.t2.toNat) % 2 ^ 32 =
        2 ^ 32 - (ls.t1.toNat - ls.t2.toNat) := by
      omega
    rw [hmod]
    split <;> split <;> omega

theorem setTimers_le (now : Int) (ls : Lease) : (setTimers now ls).t1 ≤ (setTimers now ls).lease ∧
      (setTimers now ls).t2 ≤ (setTimers now ls).lease := by
  have hdiv : ∀ a : UInt32, a / 2 ≤ a ∧ a - a / 8 ≤ a := by
    intro a
    have h8 : a / 8 ≤ a := by
      apply UInt32.le_iff_toNat_le.2
      rw [UInt32.toNat_div]
      exact Nat.div_le_self _ _
    constructor <;> apply UInt32.le_iff_toNat_le.2
    · rw [UInt32.toNat_div]
      exact Nat.div_le_self _ _
    · rw [UInt32.toNat_sub_of_le _ _ h8]
      exact Nat.sub_le _ _
  unfold setTimers
  dsimp only
  constructor
  · split
    · exact (hdiv _).1
    · rename_i h
      exact UInt32.le_of_lt (UInt32.not_le.1 fun hle => h (.inr hle))
  · split
    · exact (hdiv _).2
    · rename_i h
      exact UInt32.le_of_lt (UInt32.not_le.1 fun hle => h (.inr hle))

/-- What `set_timers` leaves keeps an address no longer than its lease if and only if T1 and T2 are
in order. -/
theorem setTimers_waits (now : Int) (ls : Lease) :
    waits (setTimers now ls) ≤ (granted ls).toNat ↔ Ordered (setTimers now ls) :=
  waits_le_iff (setTimers_le now ls).1 (setTimers_le now ls).2

/-! ## What a run is to keep -/

/-- The last that was heard of the address is an ACK, and its lease is not over. -/
def Leased (st : St) (a : UInt32) : Prop :=
  ∃ t lease, st.heard.find? (fun e => e.2.about = a) = some (t, .ack a lease) ∧
    st.clock ≤ t + lease.toNat

/-- No address without a lease. -/
def Honest (st : St) : Prop := st.ifaddr ≠ 0 → Leased st st.ifaddr

/-- An address is taken with timers that are in order, no NAK comes to a renewal, and nothing that
is no answer comes when a part of the wait for one is over. -/
def Sound (c : Conf) (st : St) (i : Input) : Prop :=
  match st.phase, i with
  | .probing ls, .probe false => c.oneshot = false → Ordered (setTimers st.clock ls)
  | .exchange .renew _, .reply type ls =>
    type ≠ dhcpNak ∧ (type = dhcpAck → ls.ip ≠ 0 → Ordered (setTimers st.clock ls))
  | .exchange .rebind _, .reply type ls =>
    type = dhcpAck → ls.ip ≠ 0 → Ordered (setTimers st.clock ls)
  | .exchange .renew ⟨_, _, .recv w u⟩, .other => u = st.clock + w
  | .exchange .rebind ⟨_, _, .recv w u⟩, .other => u = st.clock + w
  | _, _ => True

/-! ## The invariant -/

/-- The address of `cur` is on the interface, by the ACK that `cur` came with. -/
structure Carried (st : St) : Prop where
  addr : st.ifaddr = st.cur.ip
  heard : st.heard.find? (fun e => e.2.about = st.cur.ip) =
    some (st.cur.acquired, .ack st.cur.ip st.cur.lease)
  fits : waits st.cur ≤ st.cur.lease.toNat

/-- An exchange that is over by the limit, if nothing starts a wait anew. -/
structure Within (x : Exchange) (now limit : Int) : Prop where
  deadline : x.deadline ≤ limit
  inTime : now ≤ limit
  recv : ∀ w u, x.stage = .recv w u → now < u ∧ u ≤ limit

/-- When the wait for the server that gave the lease is over. -/
def renewed (ls : Lease) : Int := ls.acquired + ls.t1.toNat + max (toInt (ls.t2 - ls.t1)) 0

def Inv (st : St) : Prop :=
  match st.phase with
  | .exchange .renew x => Carried st ∧ Within x st.clock (renewed st.cur)
  | .exchange .rebind x => Carried st ∧ Within x st.clock (st.cur.acquired + waits st.cur)
  | .waiting u => Carried st ∧ st.clock < u ∧ u ≤ st.cur.acquired + st.cur.t1.toNat
  | .done => Honest st
  | .exchange .reboot _ => st.ifaddr = 0
  | .exchange .discover _ => st.ifaddr = 0
  | .exchange (.request _) _ => st.ifaddr = 0
  | .napping _ => st.ifaddr = 0
  | .probing ls =>
    st.ifaddr = 0 ∧ ∃ rest, st.heard = (st.clock, .ack ls.ip (granted ls)) :: rest

variable {st : St} {c : Conf}

theorem Carried.honest (h : Carried st) (hc : st.clock ≤ st.cur.acquired + waits st.cur) :
    Honest st := by
  intro _
  have hfits := h.fits
  exact ⟨st.cur.acquired, st.cur.lease, by rw [h.addr]; exact h.heard, by omega⟩

theorem renewed_le (ls : Lease) :
    ls.acquired + ls.t1.toNat ≤ renewed ls ∧ renewed ls ≤ ls.acquired + waits ls := by
  unfold renewed waits
  omega

theorem Inv.honest (h : Inv st) : Honest st := by
  have hle := renewed_le st.cur
  have idle : st.ifaddr = 0 → Honest st := fun h0 hne => absurd h0 hne
  unfold Inv at h
  split at h
  · exact h.1.honest (by have := h.2.inTime; omega)
  · exact h.1.honest h.2.inTime
  · exact h.1.honest (by omega)
  · exact h
  · exact idle h
  · exact idle h
  · exact idle h
  · exact idle h
  · exact idle h.1

/-! ## The pieces of the machine keep it -/

theorem finish_inv (h : Honest st) : Inv st.finish := by
  show Honest st.finish
  unfold St.finish Honest
  dsimp only
  split
  · exact fun hne => absurd rfl hne
  · exact h

theorem idle_honest (h : st.ifaddr = 0) : Honest st := fun hne => absurd h hne

theorem ask_inv {total : Int} (h : st.ifaddr = 0) (hr : r ≠ .renew ∧ r ≠ .rebind) :
    Inv (st.ask r total) := by
  unfold St.ask
  split
  · exact finish_inv (idle_honest h)
  · cases r with
    | reboot | discover | request ip => exact h
    | renew => exact absurd rfl hr.1
    | rebind => exact absurd rfl hr.2

theorem restart_inv (h : st.ifaddr = 0) : Inv st.restart := by
  unfold St.restart
  split
  · exact finish_inv (idle_honest h)
  · split
    · exact ask_inv h ⟨nofun, nofun⟩
    · exact ask_inv h ⟨nofun, nofun⟩

theorem nap_inv {secs : Int} (h : st.ifaddr = 0) : Inv (st.nap secs) := by
  unfold St.nap
  split
  · exact finish_inv (idle_honest h)
  · exact h

theorem lose_inv (st : St) : Inv st.lose := restart_inv rfl

theorem renew_inv (h : Carried st) (hc : st.clock ≤ st.cur.acquired + st.cur.t1.toNat) :
    Inv st.renew := by
  have hle := renewed_le st.cur
  have hnow : st.clock ≤ renewed st.cur := by omega
  unfold St.renew St.ask
  split
  · exact finish_inv (h.honest (by omega))
  · refine ⟨⟨h.addr, h.heard, h.fits⟩, ?_, hnow, nofun⟩
    show st.clock + toInt (st.cur.t2 - st.cur.t1) ≤ renewed st.cur
    unfold renewed
    omega

theorem rebind_inv (h : Carried st) (hc : st.clock ≤ renewed st.cur) : Inv st.rebind := by
  have hle := renewed_le st.cur
  have hnow : st.clock ≤ st.cur.acquired + waits st.cur := by omega
  unfold St.rebind St.ask
  split
  · exact finish_inv (h.honest hnow)
  · refine ⟨⟨h.addr, h.heard, h.fits⟩, ?_, hnow, nofun⟩
    show st.clock + toInt (st.cur.lease - st.cur.t2) ≤ st.cur.acquired + waits st.cur
    unfold renewed at hc
    unfold waits
    omega

theorem boundWait_inv (h : Carried st) (hc : st.clock = st.cur.acquired) : Inv st.boundWait := by
  have hle := renewed_le st.cur
  unfold St.boundWait
  split
  · exact finish_inv (h.honest (by omega))
  · split
    · exact renew_inv h (by omega)
    · rename_i h0
      have hpos : 0 < st.cur.t1.toNat := Nat.pos_of_ne_zero fun hz => h0 (UInt32.toNat_inj.1 hz)
      refine ⟨⟨h.addr, h.heard, h.fits⟩, ?_, ?_⟩
      · show st.clock < st.clock + st.cur.t1.toNat
        omega
      · show st.clock + st.cur.t1.toNat ≤ st.cur.acquired + st.cur.t1.toNat
        omega

variable {rest : List (Int × Heard)} {now : Int} {term : Bool}

theorem apply_carried (ho : Ordered (setTimers st.clock ls))
    (hh : st.heard = (st.clock, .ack ls.ip (granted ls)) :: rest) : Carried (st.apply ls) where
  addr := rfl
  heard := by
    show st.heard.find? _ = _
    rw [hh]
    exact List.find?_cons_of_pos (by simp [Heard.about, St.apply, setTimers])
  fits := (setTimers_waits _ _).2 ho

/-! ## A step and a run -/

theorem said_ack (hack : type = dhcpAck ∧ ls.ip ≠ 0) :
    st.said r type ls = st.hear (.ack ls.ip (granted ls)) := by
  unfold St.said
  rw [if_pos hack]

theorem said_ifaddr (st : St) (r : Request) (type : Int) (ls : Lease) :
    (st.said r type ls).ifaddr = st.ifaddr := by
  unfold St.said
  split
  · rfl
  · split
    · split <;> rfl
    · rfl

theorem returned_idle (h : st.ifaddr = 0) (hr : r ≠ .renew ∧ r ≠ .rebind)
    (o : Outcome) : Inv (st.returned r o) := by
  cases o with
  | terminated => exact finish_inv (idle_honest h)
  | failed =>
    cases r with
    | reboot => exact restart_inv h
    | discover | request ip => exact nap_inv h
    | renew => exact absurd rfl hr.1
    | rebind => exact absurd rfl hr.2
  | reply type ls =>
    have hs : (st.said r type ls).ifaddr = 0 := (said_ifaddr st r type ls).trans h
    show Inv ((st.said r type ls).replied r type ls)
    cases r with
    | reboot =>
      unfold St.replied
      dsimp only
      split
      · rename_i hack
        exact ⟨hs, st.heard, by rw [said_ack hack]; rfl⟩
      · exact restart_inv hs
    | discover =>
      unfold St.replied
      dsimp only
      split
      · rename_i hack
        exact ⟨hs, st.heard, by rw [said_ack hack]; rfl⟩
      · split
        · exact ask_inv hs ⟨nofun, nofun⟩
        · exact nap_inv hs
    | request ip =>
      unfold St.replied
      dsimp only
      split
      · rename_i hack
        exact ⟨hs, st.heard, by rw [said_ack hack]; rfl⟩
      · exact nap_inv hs
    | renew => exact absurd rfl hr.1
    | rebind => exact absurd rfl hr.2

theorem renewed_inv (hack : type = dhcpAck ∧ ls.ip ≠ 0) (ho : Ordered (setTimers st.clock ls)) :
    Inv (((st.said r type ls).apply (inherit ls (st.said r type ls).cur)).boundWait) := by
  rw [said_ack hack]
  have hcar : Carried ((st.hear (.ack ls.ip (granted ls))).apply (inherit ls st.cur)) :=
    apply_carried ho rfl
  exact boundWait_inv hcar rfl

/-- Behind a request for the address that is carried, if a NAK comes only to the last of them. -/
theorem returned_carried {o : Outcome} (h : Carried st)
    (hnow : st.clock ≤ st.cur.acquired + waits st.cur)
    (hr : r = .renew ∧ st.clock ≤ renewed st.cur ∨ r = .rebind)
    (ho : ∀ type ls, o = .reply type ls → (r = .renew → type ≠ dhcpNak) ∧
        (type = dhcpAck → ls.ip ≠ 0 → Ordered (setTimers st.clock ls))) :
    Inv (st.returned r o) := by
  cases o with
  | terminated => exact finish_inv (h.honest hnow)
  | failed =>
    rcases hr with ⟨rfl, hle⟩ | rfl
    · exact rebind_inv h hle
    · exact lose_inv st
  | reply type ls =>
    obtain ⟨hnak, hord⟩ := ho type ls rfl
    show Inv ((st.said r type ls).replied r type ls)
    by_cases hack : type = dhcpAck ∧ ls.ip ≠ 0
    · have hinv := renewed_inv (r := r) hack (hord hack.1 hack.2)
      rcases hr with ⟨rfl, -⟩ | rfl
      · unfold St.replied
        dsimp only
        rw [if_pos hack]
        exact hinv
      · unfold St.replied
        dsimp only
        rw [if_pos hack]
        exact hinv
    · rcases hr with ⟨rfl, hle⟩ | rfl
      · have hsaid : st.said .renew type ls = st := by
          unfold St.said
          rw [if_neg hack, if_neg (hnak rfl)]
        unfold St.replied
        dsimp only
        rw [if_neg hack, hsaid]
        exact rebind_inv h hle
      · unfold St.replied
        dsimp only
        rw [if_neg hack]
        exact lose_inv _

/-- The time after an input. -/
def St.after (st : St) (i : Input) : Int :=
  match i with
  | .tick => st.clock + 1
  | _ => st.clock

/-- It goes on within the limit, or has returned by then. -/
def Progress.Within (p : Progress) (now limit : Int) : Prop :=
  match p with
  | .goesOn x => Vdhcp.Within x now limit
  | .returns _ => now ≤ limit

theorem timedOut_within (term : Bool) (hx : x.deadline ≤ limit)
    (hnow : now ≤ limit) : (x.timedOut now term).Within now limit := by
  unfold Exchange.timedOut
  by_cases hd : x.deadline ≤ now
  · rw [if_pos hd]
    exact hnow
  · rw [if_neg hd]
    cases term with
    | true => exact hnow
    | false => exact ⟨hx, hnow, nofun⟩

/-- An exchange stays within its limit, if nothing makes it wait anew. -/
theorem Within.step {p : Progress}
    (h : Within x st.clock limit) (hp : x.step (st.after i) term i = some p)
    (hother : ∀ w u, i = .other → x.stage = .recv w u → u = st.clock + w) :
    p.Within (st.after i) limit := by
  have hdead := h.deadline
  have hnow := h.inTime
  cases i with
  | probe used | conflict => simp [Exchange.step] at hp
  | sent ok =>
    change x.step st.clock term (.sent ok) = some p at hp
    cases hx : x.stage with
    | recv w u => simp [Exchange.step, hx] at hp
    | send =>
      simp only [Exchange.step, hx, some.injEq] at hp
      subst hp
      show Progress.Within (if _ then _ else _) st.clock limit
      set w := if x.wait < x.deadline - st.clock then x.wait else x.deadline - st.clock with hw
      have hle : w ≤ x.deadline - st.clock := by
        rw [hw]
        split <;> omega
      by_cases hret : ok = false ∨ w ≤ 0
      · rw [if_pos hret]
        exact hnow
      · rw [if_neg hret]
        refine ⟨hdead, hnow, fun w' u' he => ?_⟩
        injection he with h1 h2
        show st.clock < u' ∧ u' ≤ limit
        have hpos : ¬w ≤ 0 := fun hle => hret (.inr hle)
        change st.clock + w = u' at h2
        omega
  | tick =>
    change x.step (st.clock + 1) term .tick = some p at hp
    cases hx : x.stage with
    | send => simp [Exchange.step, hx] at hp
    | recv w u =>
      obtain ⟨hlt, hle⟩ := h.recv w u hx
      simp only [Exchange.step, hx, some.injEq] at hp
      subst hp
      show Progress.Within (if st.clock + 1 < u then _ else _) (st.clock + 1) limit
      by_cases hu : st.clock + 1 < u
      · rw [if_pos hu]
        refine ⟨hdead, by omega, fun w' u' he => ?_⟩
        rw [hx] at he
        injection he with h1 h2
        omega
      · rw [if_neg hu]
        exact timedOut_within _ hdead (by omega)
  | interrupted =>
    cases hx : x.stage with
    | send => simp [Exchange.step, hx] at hp
    | recv w u =>
      simp only [Exchange.step, hx, some.injEq] at hp
      subst hp
      cases term with
      | true => exact hnow
      | false => exact timedOut_within _ hdead hnow
  | other =>
    cases hx : x.stage with
    | send => simp [Exchange.step, hx] at hp
    | recv w u =>
      obtain ⟨hlt, hle⟩ := h.recv w u hx
      have hu := hother w u rfl hx
      simp only [Exchange.step, hx, some.injEq] at hp
      subst hp
      refine ⟨hdead, hnow, fun w' u' he => ?_⟩
      injection he with h1 h2
      change st.clock + w = u' at h2
      show st.clock < u' ∧ u' ≤ limit
      omega
  | reply type ls =>
    cases hx : x.stage with
    | send => simp [Exchange.step, hx] at hp
    | recv w u =>
      simp only [Exchange.step, hx, some.injEq] at hp
      subst hp
      exact hnow
  | term =>
    cases hx : x.stage with
    | send =>
      simp only [Exchange.step, hx, some.injEq] at hp
      subst hp
      exact h
    | recv w u =>
      simp only [Exchange.step, hx, some.injEq] at hp
      subst hp
      exact hnow

theorem step_reply
    (h : x.step now term i = some (.returns (.reply type ls))) : i = .reply type ls := by
  have htimed : ∀ now term, x.timedOut now term ≠ .returns (.reply type ls) := by
    intro now term
    unfold Exchange.timedOut
    split
    · nofun
    · split <;> nofun
  cases i with
  | probe used | conflict => simp [Exchange.step] at h
  | reply type' ls' =>
    cases hx : x.stage with
    | send => simp [Exchange.step, hx] at h
    | recv w u =>
      simp only [Exchange.step, hx, some.injEq, Progress.returns.injEq,
        Outcome.reply.injEq] at h
      rw [h.1, h.2]
  | sent ok =>
    cases hx : x.stage with
    | recv w u => simp [Exchange.step, hx] at h
    | send =>
      simp only [Exchange.step, hx, some.injEq] at h
      split_ifs at h <;> cases h
  | tick | interrupted =>
    cases hx : x.stage with
    | send => simp [Exchange.step, hx] at h
    | recv w u =>
      simp only [Exchange.step, hx, some.injEq] at h
      split at h
      · cases h
      · exact absurd h (htimed _ _)
  | other | term =>
    cases hx : x.stage with
    | send => simp [Exchange.step, hx] at h
    | recv w u => simp [Exchange.step, hx] at h

/-- Whether the signal has come, after an input. -/
def St.signalled (st : St) (i : Input) : Bool :=
  match i with
  | .term => true
  | _ => st.term

/-- The state in which an input is reacted to. -/
def St.seen (st : St) (i : Input) : St := { st with clock := st.after i, term := st.signalled i }

theorem step_eq (st : St) (i : Input) : St.step c st i = St.react c (st.seen i) i := by
  cases i <;> rfl

theorem Carried.seen (h : Carried st) (i : Input) : Carried (st.seen i) := ⟨h.addr, h.heard, h.fits⟩

/-- An exchange that is about the address that is carried. -/
theorem exchange_carried
    (hph : st.phase = .exchange r x) (h : Carried st) (hw : Within x st.clock limit)
    (hr : r = .renew ∧ limit = renewed st.cur ∨ r = .rebind ∧ limit = st.cur.acquired + waits st.cur)
    (hs : Sound c st i) (hstep : St.react c (st.seen i) i = some st') : Inv st' := by
  have hle := renewed_le st.cur
  have hlim : limit ≤ st.cur.acquired + waits st.cur := by omega
  have hphase : (st.seen i).phase = .exchange r x := hph
  simp only [St.react, hphase] at hstep
  obtain ⟨p, hp, hst'⟩ := map_eq_some_iff.1 hstep
  have hwithin := hw.step (p := p) (i := i) hp fun w u hi hx => by
    subst hi
    obtain ⟨d, wt, sg⟩ := x
    dsimp only at hx
    subst hx
    rcases hr with ⟨rfl, -⟩ | ⟨rfl, -⟩
    · simpa [Sound, hph] using hs
    · simpa [Sound, hph] using hs
  cases p with
  | goesOn x' =>
    subst hst'
    rcases hr with ⟨rfl, rfl⟩ | ⟨rfl, rfl⟩
    · exact ⟨⟨h.addr, h.heard, h.fits⟩, hwithin⟩
    · exact ⟨⟨h.addr, h.heard, h.fits⟩, hwithin⟩
  | returns o =>
    subst hst'
    have hnow : st.after i ≤ limit := hwithin
    refine returned_carried (h.seen i) (le_trans hnow hlim) ?_ fun type ls ho => ?_
    · rcases hr with ⟨rfl, rfl⟩ | ⟨rfl, rfl⟩
      · exact .inl ⟨rfl, hnow⟩
      · exact .inr rfl
    · subst ho
      obtain rfl := step_reply hp
      rcases hr with ⟨rfl, -⟩ | ⟨rfl, -⟩
      · simp only [Sound, hph] at hs
        exact ⟨fun _ => hs.1, hs.2⟩
      · simp only [Sound, hph] at hs
        exact ⟨nofun, hs⟩

theorem exchange_idle
    (hph : st.phase = .exchange r x) (h : st.ifaddr = 0) (hr : r ≠ .renew ∧ r ≠ .rebind)
    (hstep : St.react c (st.seen i) i = some st') : Inv st' := by
  have hphase : (st.seen i).phase = .exchange r x := hph
  have h0 : (st.seen i).ifaddr = 0 := h
  simp only [St.react, hphase] at hstep
  obtain ⟨p, -, rfl⟩ := map_eq_some_iff.1 hstep
  cases p with
  | returns o => exact returned_idle h0 hr o
  | goesOn x' =>
    cases r with
    | reboot | discover | request ip => exact h0
    | renew => exact absurd rfl hr.1
    | rebind => exact absurd rfl hr.2

/-- The probe of an address that an ACK has just been heard of. -/
theorem probed_inv {used : Bool} (h : st.ifaddr = 0)
    (hh : st.heard = (st.clock, .ack ls.ip (granted ls)) :: rest)
    (ho : used = false → c.oneshot = false → Ordered (setTimers st.clock ls)) :
    Inv (st.probed c ls used) := by
  unfold St.probed
  cases used with
  | true => exact nap_inv h
  | false =>
    by_cases hone : c.oneshot = true
    · rw [if_neg Bool.false_ne_true, if_pos hone]
      apply finish_inv
      intro _
      refine ⟨st.clock, granted ls, ?_, ?_⟩
      · show st.heard.find? _ = _
        rw [hh]
        exact List.find?_cons_of_pos (by simp [Heard.about, St.apply])
      · show st.clock ≤ st.clock + (granted ls).toNat
        omega
    · rw [if_neg Bool.false_ne_true, if_neg hone]
      exact boundWait_inv (apply_carried (ho rfl (by simpa using hone)) hh) rfl

theorem step_inv (h : Inv st) (hs : Sound c st i)
    (hstep : St.step c st i = some st') : Inv st' := by
  rw [step_eq] at hstep
  cases hph : st.phase with
  | exchange r x =>
    unfold Inv at h
    rw [hph] at h
    cases r with
    | reboot | discover | request ip => exact exchange_idle hph h ⟨nofun, nofun⟩ hstep
    | renew => exact exchange_carried hph h.1 h.2 (.inl ⟨rfl, rfl⟩) hs hstep
    | rebind => exact exchange_carried hph h.1 h.2 (.inr ⟨rfl, rfl⟩) hs hstep
  | napping u =>
    have hidle : st.ifaddr = 0 := by
      simpa only [Inv, hph] using h
    have h0 : (st.seen i).ifaddr = 0 := hidle
    have hphase : (st.seen i).phase = .napping u := hph
    simp only [St.react, hphase] at hstep
    cases i with
    | tick =>
      obtain rfl := some.inj hstep
      split
      · exact (by unfold Inv; rw [hphase]; exact h0)
      · exact restart_inv h0
    | interrupted =>
      obtain rfl := some.inj hstep
      exact (by unfold Inv; rw [hphase]; exact h0)
    | term =>
      obtain rfl := some.inj hstep
      exact finish_inv (idle_honest h0)
    | sent ok | reply type ls | other | probe used | conflict => cases hstep
  | probing ls =>
    obtain ⟨h0, rest, hh⟩ : st.ifaddr = 0 ∧
        ∃ rest, st.heard = (st.clock, .ack ls.ip (granted ls)) :: rest := by
      simpa only [Inv, hph] using h
    have hphase : (st.seen i).phase = .probing ls := hph
    simp only [St.react, hphase] at hstep
    cases i with
    | probe used =>
      obtain rfl := some.inj hstep
      have h0' : (st.seen (.probe used)).ifaddr = 0 := h0
      refine probed_inv h0' hh fun hu => ?_
      subst hu
      have ho : c.oneshot = false → Ordered (setTimers st.clock ls) := by
        simpa only [Sound, hph] using hs
      exact ho
    | term =>
      obtain rfl := some.inj hstep
      unfold Inv
      rw [hphase]
      exact ⟨h0, rest, hh⟩
    | tick | sent ok | reply type ls | other | interrupted | conflict => cases hstep
  | waiting u =>
    obtain ⟨hcar, hlt, hle⟩ : Carried st ∧ st.clock < u ∧ u ≤ st.cur.acquired + st.cur.t1.toNat := by
      simpa only [Inv, hph] using h
    have hcar' := hcar.seen i
    have hphase : (st.seen i).phase = .waiting u := hph
    have hrenewed := renewed_le st.cur
    simp only [St.react, hphase] at hstep
    have stays : (st.seen i).clock < u → Inv (st.seen i) := by
      intro hnow
      unfold Inv
      rw [hphase]
      exact ⟨hcar', hnow, hle⟩
    cases i with
    | tick =>
      obtain rfl := some.inj hstep
      split
      · rename_i hnow
        exact stays hnow
      · refine renew_inv hcar' ?_
        show st.clock + 1 ≤ st.cur.acquired + st.cur.t1.toNat
        omega
    | interrupted | other =>
      obtain rfl := some.inj hstep
      exact stays hlt
    | term =>
      obtain rfl := some.inj hstep
      refine finish_inv (hcar'.honest ?_)
      show st.clock ≤ st.cur.acquired + waits st.cur
      omega
    | conflict =>
      dsimp only at hstep
      split at hstep
      · obtain rfl := some.inj hstep
        exact lose_inv _
      · cases hstep
    | sent ok | reply type ls | probe used => cases hstep
  | done => simp [St.react, St.seen, hph] at hstep

theorem start_inv (clock : Int) (term : Bool) (saved : Option UInt32) :
    Inv (St.start clock term saved) := restart_inv rfl

/-- In every run whose steps are sound, an address on the interface has a lease all the time. -/
theorem address_leased (c : Conf) (clock : Int) (term : Bool) (saved : Option UInt32)
    (is : List Input) (st : St) (h : Run (St.step c) (Sound c) (St.start clock term saved) is st) :
    Honest st :=
  (h.invariant (fun _ _ _ hi hs hstep => step_inv hi hs hstep) (start_inv clock term saved)).honest

/-- An hour's lease, put on the interface. -/
theorem address_leased_hour : ∃ st, st.ifaddr = 9 ∧ Honest st :=
  ⟨_, rfl, address_leased ⟨false, false⟩ 7 false none
    [.sent true, .reply dhcpAck { ip := 9, lease := 3600 }, .probe false] _
    (.cons trivial rfl (.cons trivial rfl (.cons (fun _ => by decide) rfl (.nil _))))⟩

/-- A lease of forty seconds with T1 behind T2: the renewal is over before it has begun, and the
request to any server has thirty seconds from then on. -/
def late : Lease := { ip := 9, lease := 40, t1 := 30, t2 := 10 }

def lateRun : List Input :=
  ([.sent true, .reply dhcpOffer late, .sent true, .reply dhcpAck late, .probe false] : List Input) ++
    List.replicate 30 Input.tick ++ [Input.sent true, Input.sent true] ++
    List.replicate 4 Input.tick ++ [Input.sent true] ++ List.replicate 7 Input.tick

theorem address_unleased : ¬∀ c clock term saved is st,
      Run (St.step c) (fun _ _ => True) (St.start clock term saved) is st → Honest st := by
  intro h
  have hrun : ((exec (St.step ⟨false, false⟩) (St.start 0 false none) lateRun).map fun st =>
      (st.clock, st.ifaddr, st.heard)) = some (41, 9, [(0, .ack 9 40)]) := by decide
  obtain ⟨st, hst, hlast⟩ := map_eq_some_iff.1 hrun
  obtain ⟨hclock, haddr, hheard⟩ : st.clock = 41 ∧ st.ifaddr = 9 ∧ st.heard = [(0, .ack 9 40)] := by
    simpa using hlast
  obtain ⟨t, lease, hfind, hle⟩ := h _ _ _ _ _ _ (run_of_exec hst) (by rw [haddr]; decide)
  rw [hheard, haddr] at hfind
  obtain ⟨rfl, rfl⟩ : 0 = t ∧ 40 = lease := by
    simpa [Heard.about] using hfind
  rw [hclock] at hle
  exact absurd hle (by decide)

end Verkos.Vdhcp
