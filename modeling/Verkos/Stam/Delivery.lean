import Verkos.Stam.Datagrams

/-!
# Sockets over a run

No two open sockets have one port, so a datagram has one socket to go to. `Inv` follows a datagram
from the frame it came in to the socket where it waits and out to the program: it is that of a
frame of its own, waiting once or returned once. A frame that is not quite a datagram, and a socket
that gets another port while one waits, are the two ways to lose this.
-/

namespace Verkos.Stam.Udp

open Lib Lib.Bytes
open Option (some.inj)

/-- What was returned came in a frame: a datagram for this machine and the port, of which the data
is the beginning. -/
def Genuine (net : Net) (e : Delivery) : Prop :=
  ∃ r d, net.arrived[e.origin]? = some r ∧ Carries r d ∧
    (d.dst = net.myIp ∨ d.dst = broadcast) ∧ d.dport = e.port ∧ e.port ≠ 0 ∧ e.fromIp = d.src ∧
    e.fromPort = d.sport ∧ e.data <+: d.payload

/-- What `udp_recvfrom` would return, if there were room. -/
def Dgram.out (d : Dgram) (port : UInt16) : Delivery := ⟨port, d.fromIp, d.fromPort, d.data, d.origin⟩

/-- What is taken from a frame is a datagram in one piece, with the right checksum, for this machine
and a port; and no socket gets a port while a datagram waits in it. -/
def Sound (net : Net) : Op → Prop
  | .frame r => ∀ d, net.accepts r = some d → net.taker d ≠ none →
    OnePiece r ∧ UdpRight r ∧ (d.dst = net.myIp ∨ d.dst = broadcast) ∧ d.dport ≠ 0
  | .udpBind i port => (net.socks i).waiting ≠ none → (net.udpBind i port).2 = false
  | _ => True

/-! ## One socket for a port -/

/-- No two open sockets have one port. -/
def Ports (net : Net) : Prop :=
  ∀ i j, (net.socks i).used = true → (net.socks j).used = true → (net.socks i).port ≠ 0 →
    (net.socks i).port = (net.socks j).port → i = j

variable {net : Net} {i : Fin nSock}

@[simp] theorem set_self (net : Net) (i : Fin nSock) (s : Sock) : (net.set i s).socks i = s :=
  Function.update_self ..

theorem set_other (net : Net) {i j : Fin nSock} (s : Sock) (h : j ≠ i) :
    (net.set i s).socks j = net.socks j :=
  Function.update_of_ne h ..

variable {s : Sock} {p : UInt16} {net' : Net} {op : Op} {e : Delivery} {d : Datagram}

theorem Ports.set (h : Ports net) (hs : s.used = true → s.port ≠ 0 →
      ∀ j ≠ i, (net.socks j).used = true → (net.socks j).port ≠ s.port) : Ports (net.set i s) := by
  intro j k hj hk hne heq
  by_cases hji : j = i
  · subst hji
    by_cases hki : k = j
    · exact hki.symm
    · rw [set_self] at hj hne heq
      rw [set_other _ _ hki] at hk heq
      exact absurd heq.symm (hs hj hne k hki hk)
  · rw [set_other _ _ hji] at hj hne heq
    by_cases hki : k = i
    · subst hki
      rw [set_self] at hk heq
      exact absurd heq (hs hk (heq ▸ hne) j hji hj)
    · rw [set_other _ _ hki] at hk heq
      exact h j k hj hk hne heq

theorem not_portTaken (h : net.portTaken p = false) (j : Fin nSock)
    (hj : (net.socks j).used = true) : (net.socks j).port ≠ p := by
  intro hp
  unfold Net.portTaken at h
  rw [List.any_eq_false] at h
  exact h j (List.mem_finRange j) (by simp [hj, hp])

theorem ephemeral_free {tries : Nat} {next next' : UInt16}
    (h : net.ephemeral tries next = (next', some p)) : net.portTaken p = false := by
  induction tries generalizing next with
  | zero => cases h
  | succ tries ih =>
    unfold Net.ephemeral at h
    dsimp only at h
    by_cases ht : net.portTaken next = true
    · rw [if_pos ht] at h
      exact ih h
    · rw [if_neg ht] at h
      obtain ⟨-, hp⟩ := Prod.mk.inj h
      obtain rfl := some.inj hp
      simpa using ht

/-- `udp_bind` gives the socket a port that is free, or leaves the sockets alone. -/
theorem udpBind_spec (net : Net) (i : Fin nSock) (port : UInt16) :
    (∃ next p, net.portTaken p = false ∧ (net.udpBind i port).2 = true ∧ (net.udpBind i port).1 =
        ({ net with nextEphemeral := next }).set i { net.socks i with port := p }) ∨
      ∃ next, (net.udpBind i port).1 = { net with nextEphemeral := next } := by
  unfold Net.udpBind
  split_ifs with hused hport htaken
  · exact .inr ⟨_, rfl⟩
  · cases he : net.ephemeral 4096 net.nextEphemeral with
    | mk next o =>
      cases o with
      | none => exact .inr ⟨_, rfl⟩
      | some p => exact .inl ⟨_, p, ephemeral_free he, rfl, rfl⟩
  · exact .inr ⟨_, rfl⟩
  · exact .inl ⟨net.nextEphemeral, port, by simpa using htaken, rfl, rfl⟩

theorem udpOpen_spec (net : Net) :
    net.udpOpen.1 = net ∨ ∃ i, net.udpOpen.1 = net.set i ⟨true, 0, none⟩ := by
  unfold Net.udpOpen
  split_ifs
  · exact .inl rfl
  · cases (List.finRange nSock).find? fun i => !(net.socks i).used with
    | none => exact .inl rfl
    | some i => exact .inr ⟨i, rfl⟩

/-- `udp_recvfrom` returns what waits in an open socket, and says so in the list. -/
theorem udpRecvfrom_spec (net : Net) (i : Fin nSock) (max : Nat) :
    (net.udpRecvfrom i max = (net, none)) ∨
      ∃ d, (net.socks i).used = true ∧ (net.socks i).waiting = some d ∧ net.udpRecvfrom i max =
          ({ net.set i { net.socks i with waiting := none } with
              delivered := Dgram.out { d with data := d.data.take max } (net.socks i).port ::
                net.delivered },
            some (d.data.take max, d.fromIp, d.fromPort)) := by
  unfold Net.udpRecvfrom
  split_ifs with hused
  · exact .inl rfl
  · cases hw : (net.socks i).waiting with
    | none => exact .inl rfl
    | some d => exact .inr ⟨d, by simpa using hused, rfl, rfl⟩

theorem Ports.same (h : Ports net) (hused : s.used = (net.socks i).used)
    (hport : s.port = (net.socks i).port) : Ports (net.set i s) := by
  apply h.set
  intro hs hne j hji hj heq
  rw [hport] at heq hne
  rw [hused] at hs
  exact hji (h j i hj hs (heq ▸ hne) heq)

theorem Ports.step (h : Ports net) (hstep : net.step op = some net') : Ports net' := by
  cases op with
  | frame r =>
    obtain rfl := some.inj hstep
    rw [Net.poll_eq]
    dsimp only
    cases net.accepts r with
    | none => exact h
    | some d =>
      dsimp only
      cases net.taker d with
      | none => exact h
      | some i =>
        have h' : Ports { net with arrived := net.arrived ++ [r] } := h
        exact h'.same rfl rfl
  | udpOpen =>
    obtain rfl := some.inj hstep
    rcases udpOpen_spec net with heq | ⟨i, heq⟩
    · rw [heq]
      exact h
    · rw [heq]
      exact h.set fun _ hne => absurd rfl hne
  | udpBind i port =>
    obtain rfl := some.inj hstep
    rcases udpBind_spec net i port with ⟨next, p, hfree, -, heq⟩ | ⟨next, heq⟩
    · rw [heq]
      have h' : Ports { net with nextEphemeral := next } := h
      exact h'.set fun _ _ j _ hj => not_portTaken hfree j hj
    · rw [heq]
      exact h
  | udpRecvfrom i max =>
    obtain rfl := some.inj hstep
    rcases udpRecvfrom_spec net i max with heq | ⟨d, -, -, heq⟩
    · rw [heq]
      exact h
    · rw [heq]
      have h' : Ports (net.set i { net.socks i with waiting := none }) := h.same rfl rfl
      exact h'
  | udpClose i =>
    obtain rfl := some.inj hstep
    exact h.set fun hs => absurd hs Bool.false_ne_true

theorem ports_init (up : Bool) (myIp : UInt32) : Ports (Net.init up myIp) :=
  fun _ _ hi => absurd hi Bool.false_ne_true

theorem ports_run {up : Bool} {myIp : UInt32} {ops : List Op} {ok : Net → Op → Prop}
    (h : Run Net.step ok (Net.init up myIp) ops net) : Ports net :=
  h.invariant (fun _ _ _ hi _ hstep => hi.step hstep) (ports_init up myIp)

theorem Ports.listener_eq (h : Ports net) (hused : (net.socks i).used = true)
    (hport : (net.socks i).port ≠ 0) : net.listener (net.socks i).port = some i := by
  unfold Net.listener
  cases hfind : (List.finRange nSock).find? fun j =>
      (net.socks j).used && (net.socks j).port == (net.socks i).port with
  | none =>
    have hno := List.find?_eq_none.1 hfind i (List.mem_finRange i)
    simp [hused] at hno
  | some j =>
    have hj := List.find?_some hfind
    simp only [Bool.and_eq_true, beq_iff_eq] at hj
    rw [h j i hj.1 hused (by rw [hj.2]; exact hport) hj.2]

/-! ## From the frame to the program -/

structure Inv (net : Net) : Prop where
  waiting : ∀ i d, (net.socks i).waiting = some d → Genuine net (d.out (net.socks i).port)
  delivered : ∀ e ∈ net.delivered, Genuine net e
  once : (net.delivered.map Delivery.origin).Nodup
  fresh : ∀ i d, (net.socks i).waiting = some d → d.origin ∉ net.delivered.map Delivery.origin
  apart : ∀ i j d d', (net.socks i).waiting = some d → (net.socks j).waiting = some d' →
    d.origin = d'.origin → i = j

theorem Inv.quiet (h : Inv net) (hs : s.waiting = none) : Inv (net.set i s) := by
  have hold : ∀ j d, ((net.set i s).socks j).waiting = some d →
      (net.socks j).waiting = some d ∧ ((net.set i s).socks j).port = (net.socks j).port := by
    intro j d hj
    by_cases hji : j = i
    · subst hji
      rw [set_self, hs] at hj
      cases hj
    · rw [set_other _ _ hji] at hj ⊢
      exact ⟨hj, rfl⟩
  constructor
  · intro j d hj
    obtain ⟨hw, hp⟩ := hold j d hj
    rw [hp]
    exact h.waiting j d hw
  · exact h.delivered
  · exact h.once
  · intro j d hj
    exact h.fresh j d (hold j d hj).1
  · intro j k d d' hj hk
    exact h.apart j k d d' (hold j d hj).1 (hold k d' hk).1

theorem Genuine.lt (h : Genuine net e) : e.origin < net.arrived.length := by
  obtain ⟨r, d, hr, -⟩ := h
  exact (List.getElem?_eq_some_iff.1 hr).1

theorem Genuine.more (h : Genuine net e) (r : List UInt8) :
    Genuine { net with arrived := net.arrived ++ [r] } e := by
  have hlt := h.lt
  obtain ⟨r', d, hr, hrest⟩ := h
  exact ⟨r', d, by rw [List.getElem?_append_left hlt]; exact hr, hrest⟩

theorem Inv.more (h : Inv net) (r : List UInt8) :
    Inv { net with arrived := net.arrived ++ [r] } where
  waiting i d hi := (h.waiting i d hi).more r
  delivered e he := (h.delivered e he).more r
  once := h.once
  fresh := h.fresh
  apart := h.apart

theorem taker_spec (h : net.taker d = some i) :
    (net.socks i).used = true ∧ (net.socks i).port = d.dport ∧ (net.socks i).waiting = none := by
  unfold Net.taker at h
  obtain ⟨hfind, hw⟩ := Option.filter_eq_some_iff.1 h
  have hi := List.find?_some hfind
  simp only [Bool.and_eq_true, beq_iff_eq] at hi
  exact ⟨hi.1, hi.2, Option.isNone_iff_eq_none.1 hw⟩

theorem Inv.taken (h : Inv net) {r : List UInt8} (hacc : net.accepts r = some d)
    (htake : net.taker d = some i) (hs : Sound net (.frame r)) :
    Inv (({ net with arrived := net.arrived ++ [r] }).set i { net.socks i with
      waiting := some ⟨d.src, d.sport, d.payload.take dgramMax, net.arrived.length⟩ }) := by
  obtain ⟨hused, hport, hw⟩ := taker_spec htake
  obtain ⟨hpiece, hsum, hdst, hne⟩ := hs d hacc (by rw [htake]; exact nofun)
  have h' := h.more r
  have hnew : Genuine { net with arrived := net.arrived ++ [r] }
      (Dgram.out ⟨d.src, d.sport, d.payload.take dgramMax, net.arrived.length⟩ (net.socks i).port) := by
    refine ⟨r, d, ?_, Net.accepts_carries hacc hpiece hsum, hdst, hport.symm, ?_, rfl, rfl,
      List.take_prefix _ _⟩
    · exact List.getElem?_concat_length
    · show (net.socks i).port ≠ 0
      rw [hport]
      exact hne
  have hlt : ∀ j d', (net.socks j).waiting = some d' → d'.origin < net.arrived.length :=
    fun j d' hj => (h.waiting j d' hj).lt
  constructor
  · intro j d' hj
    by_cases hji : j = i
    · subst hji
      rw [set_self] at hj ⊢
      obtain rfl := some.inj hj
      exact hnew
    · rw [set_other _ _ hji] at hj ⊢
      exact h'.waiting j d' hj
  · exact h'.delivered
  · exact h.once
  · intro j d' hj
    by_cases hji : j = i
    · subst hji
      rw [set_self] at hj
      obtain rfl := some.inj hj
      intro hmem
      obtain ⟨e, he, heq⟩ := List.mem_map.1 hmem
      have hlt' := (h.delivered e he).lt
      change e.origin = net.arrived.length at heq
      omega
    · rw [set_other _ _ hji] at hj
      exact h.fresh j d' hj
  · intro j k dj dk hj hk heq
    by_cases hji : j = i
    · subst hji
      by_cases hki : k = j
      · exact hki.symm
      · rw [set_self] at hj
        rw [set_other _ _ hki] at hk
        obtain rfl := some.inj hj
        have hlt' := hlt k dk hk
        change net.arrived.length = dk.origin at heq
        omega
    · rw [set_other _ _ hji] at hj
      by_cases hki : k = i
      · subst hki
        rw [set_self] at hk
        obtain rfl := some.inj hk
        have hlt' := hlt j dj hj
        change dj.origin = net.arrived.length at heq
        omega
      · rw [set_other _ _ hki] at hk
        exact h.apart j k dj dk hj hk heq

theorem Inv.returned (h : Inv net) {d : Dgram} (hw : (net.socks i).waiting = some d) (max : Nat) :
    Inv { net.set i { net.socks i with waiting := none } with
      delivered := Dgram.out { d with data := d.data.take max } (net.socks i).port ::
        net.delivered } := by
  have hquiet : Inv (net.set i { net.socks i with waiting := none }) := h.quiet rfl
  have hother : ∀ j d', ((net.set i { net.socks i with waiting := none }).socks j).waiting = some d' →
      j ≠ i ∧ (net.socks j).waiting = some d' := by
    intro j d' hj
    by_cases hji : j = i
    · subst hji
      rw [set_self] at hj
      cases hj
    · rw [set_other _ _ hji] at hj
      exact ⟨hji, hj⟩
  constructor
  · exact hquiet.waiting
  · intro e he
    rcases List.mem_cons.1 he with rfl | he
    · obtain ⟨r, g, hr, hc, hdst, hport, hne, hip, hsp, hdata⟩ := h.waiting i d hw
      exact ⟨r, g, hr, hc, hdst, hport, hne, hip, hsp, (List.take_prefix max d.data).trans hdata⟩
    · exact h.delivered e he
  · rw [List.map_cons]
    exact List.nodup_cons.2 ⟨h.fresh i d hw, h.once⟩
  · intro j d' hj
    obtain ⟨hji, hj'⟩ := hother j d' hj
    rw [List.map_cons, List.mem_cons, not_or]
    refine ⟨fun heq => hji (h.apart j i d' d hj' hw heq), h.fresh j d' hj'⟩
  · exact hquiet.apart

theorem Inv.step (h : Inv net) (hs : Sound net op)
    (hstep : net.step op = some net') : Inv net' := by
  cases op with
  | frame r =>
    obtain rfl := some.inj hstep
    rw [Net.poll_eq]
    dsimp only
    cases hacc : net.accepts r with
    | none => exact h.more r
    | some d =>
      dsimp only
      cases htake : net.taker d with
      | none => exact h.more r
      | some i => exact h.taken hacc htake hs
  | udpOpen =>
    obtain rfl := some.inj hstep
    rcases udpOpen_spec net with heq | ⟨i, heq⟩
    · rw [heq]
      exact h
    · rw [heq]
      exact h.quiet rfl
  | udpBind i port =>
    obtain rfl := some.inj hstep
    rcases udpBind_spec net i port with ⟨next, p, -, hok, heq⟩ | ⟨next, heq⟩
    · rw [heq]
      have h' : Inv { net with nextEphemeral := next } :=
        ⟨h.waiting, h.delivered, h.once, h.fresh, h.apart⟩
      apply h'.quiet
      by_contra hw
      exact absurd (hok.symm.trans (hs hw)) (by decide)
    · rw [heq]
      exact ⟨h.waiting, h.delivered, h.once, h.fresh, h.apart⟩
  | udpRecvfrom i max =>
    obtain rfl := some.inj hstep
    rcases udpRecvfrom_spec net i max with heq | ⟨d, -, hw, heq⟩
    · rw [heq]
      exact h
    · rw [heq]
      exact h.returned hw max
  | udpClose i =>
    obtain rfl := some.inj hstep
    exact h.quiet rfl

theorem inv_init (up : Bool) (myIp : UInt32) : Inv (Net.init up myIp) :=
  ⟨nofun, nofun, .nil, nofun, nofun⟩

/-! ## Both ways -/

/-- A payload that is sent here is returned by the socket of its port. -/
def Arrives (net : Net) : Prop :=
  ∀ (myMac dstMac : Mac) (srcIp : UInt32) (srcPort dstPort : UInt16) (buf : List UInt8),
    buf.length ≤ dgramMax → ∀ i, (net.socks i).used = true → (net.socks i).port = dstPort →
    dstPort ≠ 0 → (net.socks i).waiting = none →
    ∃ f, udpSendFrom myMac dstMac srcIp srcPort net.myIp dstPort buf = some f ∧
      ∀ max, buf.length ≤ max → ((net.poll f).udpRecvfrom i max).2 = some (buf, srcIp, srcPort)

/-- Everything that was returned came in a frame of its own, and a call that returns something has
it recorded. -/
structure Delivers (net : Net) : Prop where
  genuine : ∀ e ∈ net.delivered, Genuine net e
  once : (net.delivered.map Delivery.origin).Nodup
  recorded : ∀ i max data fromIp fromPort,
    (net.udpRecvfrom i max).2 = some (data, fromIp, fromPort) →
    ∃ origin, (net.udpRecvfrom i max).1.delivered =
      ⟨(net.socks i).port, fromIp, fromPort, data, origin⟩ :: net.delivered

theorem Ports.arrives (h : Ports net) : Arrives net := by
  intro myMac dstMac srcIp srcPort dstPort buf hbuf i hused hport hne hw
  obtain ⟨f, hf, hacc, -⟩ :=
    @accepts_sent srcIp net.myIp srcPort dstPort buf net myMac dstMac hbuf rfl
  refine ⟨f, hf, fun max hmax => ?_⟩
  have htake : net.taker ⟨srcIp, net.myIp, srcPort, dstPort, buf⟩ = some i := by
    have hlisten := h.listener_eq hused (hport ▸ hne)
    rw [hport] at hlisten
    unfold Net.taker
    dsimp only
    rw [hlisten]
    simp [Option.filter, hw]
  rw [Net.poll_eq, hacc]
  dsimp only
  rw [htake]
  dsimp only
  rcases udpRecvfrom_spec (Net.set { net with arrived := net.arrived ++ [f] } i { net.socks i with
      waiting := some ⟨srcIp, srcPort, buf.take dgramMax, net.arrived.length⟩ }) i max
    with heq | ⟨d, -, hd, heq⟩
  · unfold Net.udpRecvfrom at heq
    rw [set_self, if_neg (by simp [hused])] at heq
    cases congrArg Prod.snd heq
  · rw [set_self] at hd
    obtain rfl := some.inj hd
    rw [heq]
    dsimp only
    rw [List.take_of_length_le hbuf, List.take_of_length_le hmax]

theorem recorded (net : Net) (i : Fin nSock) (max : Nat) (data : List UInt8) (fromIp : UInt32)
    (fromPort : UInt16) (h : (net.udpRecvfrom i max).2 = some (data, fromIp, fromPort)) :
    ∃ origin, (net.udpRecvfrom i max).1.delivered =
      ⟨(net.socks i).port, fromIp, fromPort, data, origin⟩ :: net.delivered := by
  rcases udpRecvfrom_spec net i max with heq | ⟨d, -, -, heq⟩
  · rw [heq] at h
    cases h
  · rw [heq] at h ⊢
    simp only [Option.some.injEq, Prod.mk.injEq] at h
    obtain ⟨rfl, rfl, rfl⟩ := h
    exact ⟨d.origin, rfl⟩

/-- After every run a payload that is sent arrives; and after every run whose steps are sound, what
was returned came as a datagram for that socket, each once. -/
theorem datagrams_delivered (up : Bool) (myIp : UInt32) (ops : List Op) (net : Net)
    (h : Run Net.step (fun _ _ => True) (Net.init up myIp) ops net) :
    Arrives net ∧ (Run Net.step Sound (Net.init up myIp) ops net → Delivers net) := by
  refine ⟨(ports_run h).arrives, fun hsound => ?_⟩
  have hinv : Inv net :=
    hsound.invariant (fun _ _ _ hi hs hstep => hi.step hs hstep) (inv_init up myIp)
  exact ⟨hinv.delivered, hinv.once, recorded net⟩

/-- A socket of port 7 to which nothing has come. -/
theorem datagrams_delivered_open : ∃ net, (net.socks 0).port = 7 ∧ Arrives net :=
  ⟨_, rfl, (datagrams_delivered true 0x0a00020f [.udpOpen, .udpBind 0 7] _
    (.cons trivial rfl (.cons trivial rfl (.nil _)))).1⟩

/-- One byte to port 7, with a checksum that is wrong. -/
def damaged : List UInt8 :=
  [0, 0, 0, 0, 0, 0, 0, 0, 0, 0, 0, 0, 8, 0] ++
    [69, 0, 0, 29, 0, 14, 0, 0, 64, 17, 98, 178, 10, 0, 2, 2, 10, 0, 2, 15] ++
    [0, 9, 0, 7, 0, 9, 0, 1, 42]

theorem damaged_delivered :
    ¬∀ up myIp ops net, Run Net.step (fun _ _ => True) (Net.init up myIp) ops net →
      Arrives net ∧ Delivers net := by
  intro h
  have hrun : (exec Net.step (Net.init true 0x0a00020f)
      [.udpOpen, .udpBind 0 7, .frame damaged, .udpRecvfrom 0 100]).map
        (fun net => (net.arrived, net.delivered)) =
      some ([damaged], [⟨7, 0x0a000202, 9, [42], 0⟩]) := by decide
  obtain ⟨net, hnet, hlast⟩ := Option.map_eq_some_iff.1 hrun
  obtain ⟨harr, hdel⟩ := Prod.mk.inj hlast
  obtain ⟨-, hd⟩ := h _ _ _ _ (run_of_exec hnet)
  obtain ⟨r, d, hr, hc, -⟩ := hd.genuine ⟨7, 0x0a000202, 9, [42], 0⟩ (by rw [hdel]; exact List.mem_singleton_self _)
  rw [harr] at hr
  obtain rfl := some.inj hr
  exact absurd hc.udpSum (by decide)

end Verkos.Stam.Udp
