import Mathlib.Logic.Relation
import Verkos.Stam.Udp

/-!
# Polling within polling

`net_poll` hands frames to their handlers. A handler that sends needs a hardware address, asking for
it waits in `net_arp_resolve`, and that polls again. What is active on the thread's stack is kept as
a list here, the innermost first; of the rest of the machine only the ARP cache and the clock
matter. What TCP does with a segment is left open, except that it sends at most two.
-/

namespace Verkos.Stam.Nesting

open Verkos.Lib Udp

/-- The addresses in use, and the ticks in a second. -/
structure Config where
  myIp : UInt32
  myMask : UInt32
  gwIp : UInt32
  hz : Nat

/-! ## The ARP cache -/

/-- The addresses of `arp[ARP_N]`, `none` for an entry that is not in use. -/
abbrev Cache := Fin 4 → Option UInt32

theorem neZero4 : NeZero 4 := ⟨by decide⟩
attribute [local instance] neZero4

namespace Cache

/-- `arp_lookup`. -/
def lookup (arp : Cache) (ip : UInt32) : Bool := (List.finRange 4).any fun i => arp i = some ip

/-- `arp_learn`; when it is full, the first is replaced. -/
def learn (arp : Cache) (ip : UInt32) : Cache :=
  if arp.lookup ip then arp
  else Function.update arp (((List.finRange 4).find? fun i => arp i = none).getD 0) (some ip)

end Cache

/-! ## Handlers -/

/-- `handle_arp`, for the cache. It answers without an address to ask for. -/
def handleArp (arp : Cache) (r : List UInt8) : Cache :=
  if r.length < 42 ∨ get16 16 r ≠ etIpv4 ∨ byte 18 r ≠ 6 ∨ byte 19 r ≠ 4 then arp
  else arp.learn (get32 28 r)

/-- The addresses `handle_icmp` has something to send to. -/
def handleIcmp (cfg : Config) (ic : List UInt8) (src : UInt32) : List UInt32 :=
  let n := ic.length
  if n < 8 ∨ checksum ic ≠ 0 ∨ byte 0 ic ≠ 8 ∨ cfg.myIp = 0 then []
  -- the buffer for the answer holds 72 bytes of it
  else if 72 < (if 14 + 20 + 8 + dgramMax < n then dgramMax else n) then []
  else [src]

/-- What `handle_ipv4` comes to send, and where. -/
def HandleIpv4 (cfg : Config) (r : List UInt8) (dsts : List UInt32) : Prop :=
  match ipv4Read r with
  | none => dsts = []
  | some (proto, src, dst, payload) =>
    if cfg.myIp ≠ 0 ∧ dst ≠ cfg.myIp ∧ dst ≠ broadcast then dsts = []
    else if proto = 1 then dsts = handleIcmp cfg payload src
    else if proto = 6 then ∃ k ≤ 2, dsts = List.replicate k src
    else dsts = []

/-- `route_mac`, as far as the address to ask for. -/
def Config.nextHop (cfg : Config) (ip : UInt32) : UInt32 :=
  if cfg.myMask ≠ 0 ∧ (ip ^^^ cfg.myIp) &&& cfg.myMask ≠ 0 then cfg.gwIp else ip

/-! ## The stack -/

/-- A function that is active: `net_poll` with the frames it may still take, a handler with the
addresses it has still to send to, and `net_arp_resolve` with its deadline. -/
inductive Active where
  | poll (guard : Nat)
  | handle (dsts : List UInt32)
  | resolve (ip : UInt32) (deadline : Nat)

structure Net where
  arp : Cache
  ticks : Nat
  stack : List Active

variable (cfg : Config)

/-- What can happen next: any frame may come, or none. A frame that is handed to `handle_ipv4` is
named by what is sent for it. -/
inductive Step : Option (List UInt32) → Net → Net → Prop
  | tick (a t s) : Step none ⟨a, t, s⟩ ⟨a, t + 1, s⟩
  | stop (a t k s) : Step none ⟨a, t, .poll k :: s⟩ ⟨a, t, s⟩
  | other (a t k s) (r : List UInt8) (hn : 14 ≤ r.length) (ht : get16 12 r ≠ etIpv4) :
    Step none ⟨a, t, .poll (k + 1) :: s⟩
      ⟨if get16 12 r = 0x0806 then handleArp a r else a, t, .poll k :: s⟩
  | ipv4 (a t k s) (r : List UInt8) (dsts : List UInt32) (hn : 14 ≤ r.length)
    (ht : get16 12 r = etIpv4) (hr : HandleIpv4 cfg r dsts) :
    Step (some dsts) ⟨a, t, .poll (k + 1) :: s⟩ ⟨a, t, .handle dsts :: .poll k :: s⟩
  | handled (a t s) : Step none ⟨a, t, .handle [] :: s⟩ ⟨a, t, s⟩
  -- sent; or given up, for want of a next hop or because the request does not get out
  | sent (a t s dst dsts) : Step none ⟨a, t, .handle (dst :: dsts) :: s⟩ ⟨a, t, .handle dsts :: s⟩
  | ask (a t s dst dsts) (h0 : cfg.nextHop dst ≠ 0) (h : ¬a.lookup (cfg.nextHop dst)) :
    Step none ⟨a, t, .handle (dst :: dsts) :: s⟩
      ⟨a, t, .resolve (cfg.nextHop dst) (t + cfg.hz) :: .handle dsts :: s⟩
  | again (a t s ip deadline) (ht : t < deadline) :
    Step none ⟨a, t, .resolve ip deadline :: s⟩ ⟨a, t, .poll 32 :: .resolve ip deadline :: s⟩
  | resolved (a t s ip deadline) (h : a.lookup ip ∨ deadline ≤ t) :
    Step none ⟨a, t, .resolve ip deadline :: s⟩ ⟨a, t, s⟩

def Active.isPoll : Active → Bool
  | .poll _ => true
  | _ => false

/-- How many times `net_poll` is active. -/
def Net.depth (net : Net) : Nat := net.stack.countP Active.isPoll

/-- A call from outside: of `net_poll`, or of `net_arp_resolve`. -/
def Net.Begins (net : Net) : Prop :=
  net.stack = [.poll 32] ∨ ∃ ip deadline, net.stack = [.resolve ip deadline]

/-- `net_poll` is active no more than so many times, in runs with a condition on the steps. -/
def Bounded (P : Net → Option (List UInt32) → Prop) : Prop :=
  ∃ bound, ∀ a b : Net, a.Begins →
    Relation.ReflTransGen (fun a b => ∃ l, Step cfg l a b ∧ P a l) a b → b.depth ≤ bound

/-- Nothing has to be asked for to send to an address. -/
def Known (arp : Cache) (dst : UInt32) : Prop := cfg.nextHop dst = 0 ∨ arp.lookup (cfg.nextHop dst)

/-- While an address is being resolved, no frame is handled that needs another one. -/
def Calm (net : Net) (l : Option (List UInt32)) : Prop :=
  (∃ ip deadline, .resolve ip deadline ∈ net.stack) → ∀ dsts, l = some dsts →
    ∀ dst ∈ dsts, Known cfg net.arp dst

/-! ## Calm runs -/

/-- What is active when nothing has been asked for, or has asked for what is. -/
def Base (s : List Active) : Prop := s = [] ∨ ∃ ds k, s = [.handle ds, .poll k]

/-- What is active in a calm run: a second `net_poll` at most, and a handler in it has nothing to
ask for. -/
inductive Shape (arp : Cache) : List Active → Prop
  | empty : Shape arp []
  | poll {k} : Shape arp [.poll k]
  | handle {ds k} : Shape arp [.handle ds, .poll k]
  | resolve {ip d s} (h : Base s) : Shape arp (.resolve ip d :: s)
  | polling {k ip d s} (h : Base s) : Shape arp (.poll k :: .resolve ip d :: s)
  | handling {ds k ip d s} (h : Base s) (hk : ∀ dst ∈ ds, Known cfg arp dst) :
    Shape arp (.handle ds :: .poll k :: .resolve ip d :: s)

variable {cfg}

theorem Shape.step {a b : Net} {l : Option (List UInt32)} (h : Step cfg l a b) (hc : Calm cfg a l)
    (hs : Shape cfg a.arp a.stack) : Shape cfg b.arp b.stack := by
  cases h with
  | tick => exact hs
  | stop =>
    cases hs with
    | poll => exact .empty
    | polling h => exact .resolve h
  | other =>
    cases hs with
    | poll => exact .poll
    | polling h => exact .polling h
  | ipv4 =>
    cases hs with
    | poll => exact .handle
    | polling h => exact .handling h (hc ⟨_, _, .tail _ (.head _)⟩ _ rfl)
  | handled =>
    cases hs with
    | handle => exact .poll
    | handling h => exact .polling h
  | sent =>
    cases hs with
    | handle => exact .handle
    | handling h hk => exact .handling h fun dst hd => hk dst (.tail _ hd)
  | ask _ _ _ dst _ h0 hmiss =>
    cases hs with
    | handle => exact .resolve (.inr ⟨_, _, rfl⟩)
    | handling h hk => exact ((hk dst (.head _)).elim h0 hmiss).elim
  | again =>
    cases hs with
    | resolve h => exact .polling h
  | resolved =>
    cases hs with
    | resolve h =>
      obtain rfl | ⟨ds, k, rfl⟩ := h
      · exact .empty
      · exact .handle

theorem Shape.depth_le {net : Net} (hs : Shape cfg net.arp net.stack) : net.depth ≤ 2 := by
  unfold Net.depth
  have hbase : ∀ s, Base s → s.countP Active.isPoll ≤ 1 := by
    rintro s (rfl | ⟨ds, k, rfl⟩)
    · exact Nat.zero_le 1
    · exact Nat.le_refl 1
  generalize net.stack = s at hs
  cases hs with
  | empty => exact Nat.zero_le 2
  | poll | handle => exact Nat.le_succ 1
  | resolve h => exact (hbase _ h).trans (Nat.le_succ 1)
  | polling h | handling h => simpa [List.countP_cons, Active.isPoll] using hbase _ h

theorem bounded_of_calm (cfg : Config) : Bounded cfg (Calm cfg) := by
  refine ⟨2, fun a b ha hrun => Shape.depth_le (?_ : Shape cfg b.arp b.stack)⟩
  induction hrun with
  | refl =>
    rcases ha with ha | ⟨ip, d, ha⟩ <;> rw [ha]
    · exact .poll
    · exact .resolve (.inl rfl)
  | tail _ h ih =>
    obtain ⟨l, hstep, hc⟩ := h
    exact ih.step hstep hc

/-! ## Echo requests from a neighbour that is not in the cache -/

namespace Echo

/-- 10.0.2.15/24. -/
def config : Config := ⟨0x0a00020f, 0xffffff00, 0x0a000202, 100⟩

/-- From 10.0.2.99. -/
def request : List UInt8 :=
  [0, 0, 0, 0, 0, 0, 0, 0, 0, 0, 0, 0, 8, 0] ++
    [0x45, 0, 0, 28, 0, 0, 0, 0, 64, 1, 0x62, 0x70, 10, 0, 2, 99, 10, 0, 2, 15] ++
    [8, 0, 0xf7, 0xff, 0, 0, 0, 0]

theorem handle_request : HandleIpv4 config request [0x0a000263] := by
  have hread : ipv4Read request =
      some (1, 0x0a000263, 0x0a00020f, [8, 0, 0xf7, 0xff, 0, 0, 0, 0]) := by decide
  rw [HandleIpv4, hread]
  decide

/-- With `n` requests, `net_poll` is active once more than `n` times. -/
theorem nests (n : Nat) : ∃ s, s.countP Active.isPoll = n ∧ Relation.ReflTransGen
    (fun a b => ∃ l, Step config l a b ∧ True) ⟨fun _ => none, 0, [.poll 32]⟩
    ⟨fun _ => none, 0, .poll 32 :: s⟩ := by
  induction n with
  | zero => exact ⟨[], rfl, .refl⟩
  | succ n ih =>
    obtain ⟨s, hs, hrun⟩ := ih
    refine ⟨.resolve (config.nextHop 0x0a000263) (0 + 100) :: .handle [] :: .poll 31 :: s,
      by simp [List.countP_cons, Active.isPoll, hs], ?_⟩
    refine ((hrun.tail ⟨_, .ipv4 _ _ 31 _ request _ ?_ ?_ handle_request, trivial⟩).tail
      ⟨_, .ask _ _ _ _ _ ?_ ?_, trivial⟩).tail ⟨_, .again _ _ _ _ _ ?_, trivial⟩
    all_goals decide

end Echo

theorem not_bounded : ¬∀ cfg : Config, Bounded cfg fun _ _ => True := by
  intro h
  obtain ⟨bound, h⟩ := h Echo.config
  obtain ⟨s, hs, hrun⟩ := Echo.nests bound
  have hle := h _ _ (.inl rfl) hrun
  rw [Net.depth, List.countP_cons_of_pos rfl, hs] at hle
  omega

end Verkos.Stam.Nesting
