import Verkos.Urverk.Boot
import Mathlib.Tactic.IntervalCases

/-!
# The order of a boot

Which services come up in order is a matter of the table and of how the oneshots do: `Startable` is
the least set of services whose needs are in it and get ready, or were ready before. The rounds of
`start_all` handle those and no others, each as its type says; what is left when a round makes no
progress goes through the fallback, which runs it.
-/

namespace Verkos.Urverk

open Option (some.injEq some.inj map_some)

/-! ## What a boot should do -/

/-- The service is ready when it has been handled; a oneshot that fails is not. -/
def BecomesReady (env : BootEnv) (i : Nat) (s : Svc) : Prop :=
  s.type = .oneshot → env.oneshot i ≠ some false

/-- Every known service that `s` needs is ready. -/
def NeedsReady (svcs : List Svc) (s : Svc) : Prop :=
  ∀ x ∈ words s.needs, ∀ j d, svcByName svcs x = some j → svcs[j]? = some d → d.ready = true

/-- The service comes up in order: everything it needs was ready before, or comes up in order and
gets ready. -/
inductive Startable (env : BootEnv) (svcs : List Svc) : Nat → Prop
  | intro {i : Nat} {s : Svc} (hs : svcs[i]? = some s) (hstarted : s.started = false)
    (hneeds : ∀ x j d, x ∈ words s.needs → svcByName svcs x = some j → svcs[j]? = some d →
      ¬ (d.started = true ∧ d.ready = true) → Startable env svcs j)
    (hready : ∀ x j d, x ∈ words s.needs → svcByName svcs x = some j → svcs[j]? = some d →
      ¬ (d.started = true ∧ d.ready = true) → BecomesReady env j d) : Startable env svcs i

/-- How a service of this type is handled: it is run, or armed, or listens for a connection. -/
def proper : SvcType → Act
  | .simple | .oneshot => .ran true
  | .timer => .armed
  | .socket => .listened true

/-- Every service not marked started before is handled exactly once and as its type says, and
whatever is not left to the fallback has what it needs. -/
structure InOrder (w : World) (b : Boot) : Prop where
  once : ∀ i s, w.svcs[i]? = some s →
    (b.log.filter fun e => e.svc = i).map Handled.act = if s.started then [] else [proper s.type]
  needs : ∀ e ∈ b.log, e.fallback = false → ∀ s, e.before[e.svc]? = some s → NeedsReady e.before s

/-- What has to be so for a service that is not marked started: one that is to be run has a
command, and a `pre` that ends; a timer and a socket service come up in order, and the socket
service gets its port. -/
def Fit (env : BootEnv) (svcs : List Svc) (i : Nat) (s : Svc) : Prop :=
  match s.type with
  | .simple | .oneshot => s.hasCommand env.con = true ∧ hangs env i s = false
  | .timer => Startable env svcs i
  | .socket => Startable env svcs i ∧ env.listens i = true

/-- A table as it is loaded: what is not marked started is not running and not ready. -/
def Loaded (svcs : List Svc) : Prop :=
  ∀ s ∈ svcs, s.started = false → s.pid = 0 ∧ s.ready = false

theorem builtin_cleared {b : Svc} (hb : b ∈ builtin) : cleared b = b := by
  simp only [builtin, List.mem_cons, List.not_mem_nil, or_false] at hb
  rcases hb with rfl | rfl | rfl <;> rfl

/-! ## Handling one service -/

/-- What is written in the service's file. -/
structure SameDef (s s' : Svc) : Prop where
  name : s'.name = s.name
  pre : s'.pre = s.pre
  exec : s'.exec = s.exec
  needs : s'.needs = s.needs
  type : s'.type = s.type

theorem SameDef.refl (s : Svc) : SameDef s s := ⟨rfl, rfl, rfl, rfl, rfl⟩

theorem SameDef.trans {a b c : Svc} (h : SameDef a b) (h' : SameDef b c) : SameDef a c where
  name := h'.name.trans h.name
  pre := h'.pre.trans h.pre
  exec := h'.exec.trans h.exec
  needs := h'.needs.trans h.needs
  type := h'.type.trans h.type

/-- A service that is run has a command. -/
def Runnable (con : List UInt8) (s : Svc) : Prop :=
  s.type = .simple ∨ s.type = .oneshot → s.hasCommand con = true

/-- What a round does for a service of this definition. -/
def actOf (env : BootEnv) (i : Nat) (s : Svc) : Act :=
  match s.type with
  | .simple | .oneshot => .ran (s.hasCommand env.con)
  | .timer => .armed
  | .socket => .listened (env.listens i)

variable {svcs : List Svc} {fallback : Bool} {act : Act}

section Handling

variable {env : BootEnv} {b b' : Boot} {w w₀ : World} {i j : Nat} {s s' s₀ : Svc}

theorem depsReady_iff : depsReady svcs s = true ↔ NeedsReady svcs s := by
  unfold depsReady NeedsReady
  rw [List.all_eq_true]
  refine forall₂_congr fun x _ => ?_
  cases hj : svcByName svcs x with
  | none => simp
  | some j =>
    obtain ⟨d, hd, -⟩ := svcByName_some hj
    simp only [hd, some.injEq]
    refine ⟨?_, fun h => h j d rfl hd⟩
    rintro hr _ d' rfl hd'
    rw [hd, some.injEq] at hd'
    rwa [← hd']

theorem SameDef.hasCommand (h : SameDef s s') (con : List UInt8) :
    s'.hasCommand con = s.hasCommand con := by
  rw [Svc.hasCommand, Svc.hasCommand, h.exec]

theorem SameDef.hangs (h : SameDef s s') : Urverk.hangs env i s' = Urverk.hangs env i s := by
  rw [Urverk.hangs, Urverk.hangs, h.pre]

theorem SameDef.actOf (h : SameDef s s') : Urverk.actOf env i s' = Urverk.actOf env i s := by
  simp only [Urverk.actOf, h.type, h.hasCommand]

/-- The table has one new row and the log one new line. -/
structure Turn (b b' : Boot) (i : Nat) (act : Act) (fallback : Bool) (s' : Svc) : Prop where
  svcs : b'.w.svcs = b.w.svcs.set i s'
  log : b'.log = b.log ++ [⟨i, act, fallback, b.w.svcs⟩]

theorem set_self (hs : svcs[i]? = some s) : svcs.set i s = svcs := by
  obtain ⟨hi, rfl⟩ := List.getElem?_eq_some_iff.1 hs
  exact List.set_getElem_self hi

theorem startService_some {con : List UInt8} {p : Nat} (hs : w.svcs[i]? = some s)
    (hc : s.hasCommand con = true) : w.startService con i (some p) = { w with
        svcs := w.svcs.set i
          { s with pid := p, started := true, ready := if s.type = .simple then true else s.ready }
        kids := ⟨p, some i, none⟩ :: w.kids
        starts := w.starts ++ [s.name] } := by
  simp only [World.startService, hs, hc, if_true]

theorem startService_idle {con : List UInt8} {fork : Option Nat} (hs : w.svcs[i]? = some s)
    (hc : s.hasCommand con = false ∨ fork = none) : w.startService con i fork = w := by
  rcases hc with hc | rfl
  · simp [World.startService, hs, hc]
  · simp [World.startService, hs]

/-- What `start_service` does to the service, when `fork` works. -/
structure Ran (con : List UInt8) (s s' : Svc) : Prop where
  same : SameDef s s'
  idle : s.hasCommand con = false → s' = s
  started : s.hasCommand con = true → s'.started = true ∧ s'.pid ≠ 0
  ready : s.hasCommand con = true → (s'.ready = true ↔ s.type = .simple ∨ s.ready = true)

theorem bootService_spec (hs : b.w.svcs[i]? = some s) (hfork : ∀ kids i, env.fork kids i ≠ none)
    (h : bootService env b i s fallback = some b') :
    hangs env i s = false ∧ ∃ s', Turn b b' i (.ran (s.hasCommand env.con)) fallback s' ∧
      Ran env.con s s' := by
  unfold bootService at h
  split at h
  · cases h
  · rename_i hh
    cases h
    refine ⟨by simpa using hh, ?_⟩
    obtain ⟨p, hp⟩ := Option.ne_none_iff_exists'.1 (hfork b.w.kids i)
    obtain ⟨hpos, -⟩ := env.fresh _ _ _ hp
    cases hc : s.hasCommand env.con with
    | false =>
      refine ⟨s, ⟨?_, by simp⟩, .refl s, fun _ => rfl, fun h => ?_, fun h => ?_⟩
      · dsimp only
        rw [startService_idle hs (.inl hc), set_self hs]
      · rw [hc] at h
        cases h
      · rw [hc] at h
        cases h
    | true =>
      let s' : Svc :=
        { s with pid := p, started := true, ready := if s.type = .simple then true else s.ready }
      refine ⟨s', ⟨?_, by simp [hp]⟩, ⟨rfl, rfl, rfl, rfl, rfl⟩, fun h => ?_,
        fun _ => ⟨rfl, Nat.pos_iff_ne_zero.1 hpos⟩, fun _ => ?_⟩
      · dsimp only
        rw [hp, startService_some hs hc]
      · rw [hc] at h
        cases h
      · by_cases ht : s.type = .simple <;> simp [s', ht]

theorem awaitOneshot_spec (env : BootEnv) (hs : w.svcs[i]? = some s) : ∃ s',
    (awaitOneshot env w i).svcs = w.svcs.set i s' ∧ SameDef s s' ∧ s'.started = s.started ∧
      (s.pid = 0 → s' = s) ∧ (s.pid ≠ 0 → (s'.ready = true ↔ env.oneshot i ≠ some false)) := by
  unfold awaitOneshot
  simp only [hs]
  by_cases hp : s.pid = 0
  · exact ⟨s, by rw [if_pos hp, set_self hs], .refl s, rfl, fun _ => rfl, fun h => absurd hp h⟩
  · rw [if_neg hp]
    cases ho : env.oneshot i with
    | none =>
      exact ⟨{ s with ready := true }, rfl, ⟨rfl, rfl, rfl, rfl, rfl⟩, rfl, fun h => absurd h hp,
        fun _ => by simp⟩
    | some clean =>
      exact ⟨{ s with pid := 0, ready := clean }, rfl, ⟨rfl, rfl, rfl, rfl, rfl⟩, rfl,
        fun h => absurd h hp, fun _ => by simp⟩

/-- What a round does to a service that was not ready. -/
structure Done (env : BootEnv) (i : Nat) (s s' : Svc) : Prop where
  same : SameDef s s'
  ready : s'.ready = true → BecomesReady env i s
  started : Runnable env.con s → s'.started = true
  up : s'.started = true → BecomesReady env i s → s'.ready = true
  idle : s'.started = false → s' = s

theorem handle_spec (hs : b.w.svcs[i]? = some s) (hzero : s.pid = 0 ∧ s.ready = false)
    (hu : s.started = false) (hfork : ∀ kids i, env.fork kids i ≠ none)
    (h : handle env b i s = some b') :
    (s.type = .simple ∨ s.type = .oneshot → hangs env i s = false) ∧
      ∃ s', Turn b b' i (actOf env i s) false s' ∧ Done env i s s' := by
  unfold handle at h
  cases ht : s.type with
  | timer =>
    rw [ht] at h
    cases h
    refine ⟨nofun, _, ⟨rfl, by simp [actOf, ht]⟩, ?_, fun _ => ?_, fun _ => rfl, fun _ _ => rfl, nofun⟩
    · unfold timerSchedule
      split <;> exact ⟨rfl, rfl, rfl, rfl, rfl⟩
    · simp [BecomesReady, ht]
  | socket =>
    rw [ht] at h
    cases h
    refine ⟨nofun, _, ⟨rfl, by simp [actOf, ht]⟩, ?_, fun _ => ?_, fun _ => rfl, fun _ _ => rfl, nofun⟩
    · unfold socketListen
      split <;> exact ⟨rfl, rfl, rfl, rfl, rfl⟩
    · simp [BecomesReady, ht]
  | simple =>
    rw [ht] at h
    obtain ⟨hh, s', hturn, hran⟩ := bootService_spec hs hfork h
    refine ⟨fun _ => hh, s', by simpa [actOf, ht] using hturn, hran.same, fun _ => ?_,
      fun hr => (hran.started (hr (.inl ht))).1, fun hst _ => ?_, fun hns => ?_⟩
    · simp [BecomesReady, ht]
    · cases hc : s.hasCommand env.con with
      | false =>
        rw [hran.idle hc, hu] at hst
        cases hst
      | true => exact (hran.ready hc).2 (.inl ht)
    · cases hc : s.hasCommand env.con with
      | false => exact hran.idle hc
      | true =>
        rw [(hran.started hc).1] at hns
        cases hns
  | oneshot =>
    rw [ht] at h
    obtain ⟨b1, hb1, h⟩ := Option.map_eq_some_iff.1 h
    subst h
    obtain ⟨hh, s1, hturn, hran⟩ := bootService_spec hs hfork hb1
    have hi : i < b.w.svcs.length := (List.getElem?_eq_some_iff.1 hs).1
    have hs1 : b1.w.svcs[i]? = some s1 := by rw [hturn.svcs, List.getElem?_set_self hi]
    obtain ⟨s', hsvcs, hsame, hst', hstay, hpos⟩ := awaitOneshot_spec env hs1
    have hidle : s.hasCommand env.con = false → s' = s := by
      intro hc
      obtain rfl := hran.idle hc
      exact hstay hzero.1
    refine ⟨fun _ => hh, s', ⟨?_, by simpa [actOf, ht] using hturn.log⟩, hran.same.trans hsame,
      ?_, fun hr => ?_, fun hst hb => ?_, ?_⟩
    · dsimp only
      rw [hsvcs, hturn.svcs, List.set_set]
    · intro hr _
      cases hc : s.hasCommand env.con with
      | false =>
        rw [hidle hc, hzero.2] at hr
        cases hr
      | true => exact (hpos (hran.started hc).2).1 hr
    · rw [hst', (hran.started (hr (.inr ht))).1]
    · cases hc : s.hasCommand env.con with
      | false =>
        rw [hidle hc, hu] at hst
        cases hst
      | true => exact (hpos (hran.started hc).2).2 (hb ht)
    · intro hns
      cases hc : s.hasCommand env.con with
      | false => exact hidle hc
      | true =>
        rw [hst', (hran.started hc).1] at hns
        cases hns

end Handling

/-! ## What the rounds keep -/

/-- A row of the table, between the rounds. -/
structure Row (env : BootEnv) (svcs : List Svc) (i : Nat) (s₀ s : Svc) : Prop where
  same : SameDef s₀ s
  kept : s₀.started = true → s = s₀
  zero : s.started = false → s.pid = 0 ∧ s.ready = false
  ready : s.ready = true → s₀.started = false → BecomesReady env i s₀
  up : s.started = true → s₀.started = false →
    Startable env svcs i ∧ (BecomesReady env i s₀ → s.ready = true)

/-- A line of the log. -/
structure Line (env : BootEnv) (svcs : List Svc) (e : Handled) (s₀ : Svc) : Prop where
  started : s₀.started = false
  ends : (∃ child, e.act = .ran child) → hangs env e.svc s₀ = false
  round : e.fallback = false → e.act = actOf env e.svc s₀ ∧ Startable env svcs e.svc
  needs : e.fallback = false → ∀ s, e.before[e.svc]? = some s → NeedsReady e.before s
  fallback : e.fallback = true → e.act = .ran (s₀.hasCommand env.con)

/-- What has been handled so far. -/
structure Logged (env : BootEnv) (w₀ : World) (b : Boot) : Prop where
  length : b.w.svcs.length = w₀.svcs.length
  line : ∀ e ∈ b.log, ∃ s₀, w₀.svcs[e.svc]? = some s₀ ∧ Line env w₀.svcs e s₀

/-- A service has a line in the log when it has been started since the beginning, and one only. -/
def Once (w₀ : World) (b : Boot) (i : Nat) : Prop :=
  ∀ s₀ s, w₀.svcs[i]? = some s₀ → b.w.svcs[i]? = some s →
    b.log.countP (fun e => e.svc = i) = if s.started = true ∧ s₀.started = false then 1 else 0

/-- And the table, as long as it is the rounds that handle it. -/
structure Sound (env : BootEnv) (w₀ : World) (b : Boot) : Prop extends Logged env w₀ b where
  row : ∀ i s₀ s, w₀.svcs[i]? = some s₀ → b.w.svcs[i]? = some s → Row env w₀.svcs i s₀ s
  once : ∀ i s₀, w₀.svcs[i]? = some s₀ → Runnable env.con s₀ → Once w₀ b i

section Rounds

variable {env : BootEnv} {b b' : Boot} {w₀ : World} {i : Nat} {s s' : Svc}

theorem Sound.begin (h : Loaded w₀.svcs) : Sound env w₀ ⟨w₀, []⟩ where
  length := rfl
  line := nofun
  once i _ _ _ s₀ s h0 hs := by
    rw [h0, some.injEq] at hs
    subst hs
    simp
  row i s₀ s h0 hs := by
    rw [h0, some.injEq] at hs
    subst hs
    have hz := h s₀ (List.mem_of_getElem? h0)
    refine ⟨.refl s₀, fun _ => rfl, hz, fun hr hu => ?_, fun hst hu => ?_⟩
    · rw [(hz hu).2] at hr
      cases hr
    · rw [hst] at hu
      cases hu

theorem exists_row {l l' : List Svc} (h : l'.length = l.length) (hs : l'[i]? = some s) :
    ∃ s₀, l[i]? = some s₀ := by
  have hi : i < l.length := h ▸ (List.getElem?_eq_some_iff.1 hs).1
  exact ⟨l[i], List.getElem?_eq_getElem hi⟩

theorem Sound.svcByName (h : Sound env w₀ b) (x : Name) :
    Urverk.svcByName b.w.svcs x = Urverk.svcByName w₀.svcs x := by
  have hnames : b.w.svcs.map Svc.name = w₀.svcs.map Svc.name := by
    apply List.ext_getElem?
    intro j
    rw [List.getElem?_map, List.getElem?_map]
    cases hj : b.w.svcs[j]? with
    | none =>
      rw [List.getElem?_eq_none_iff, h.length, ← List.getElem?_eq_none_iff] at hj
      rw [hj]
    | some d =>
      obtain ⟨d0, hd0⟩ := exists_row h.length hj
      rw [hd0, map_some, map_some, (h.row j d0 d hd0 hj).same.name]
  have hfind : ∀ l : List Svc, Urverk.svcByName l x = (l.map Svc.name).findIdx? (· == x) := by
    intro l
    rw [Urverk.svcByName, List.findIdx?_map]
    rfl
  rw [hfind, hfind, hnames]

theorem Sound.startable (h : Sound env w₀ b) (hs : b.w.svcs[i]? = some s)
    (hu : s.started = false) (hneeds : NeedsReady b.w.svcs s) : Startable env w₀.svcs i := by
  obtain ⟨s₀, hs0⟩ := exists_row h.length hs
  have hrow := h.row i s₀ s hs0 hs
  have hu0 : s₀.started = false := by
    cases hst : s₀.started with
    | false => rfl
    | true =>
      rw [hrow.kept hst, hst] at hu
      cases hu
  have hdep : ∀ x j d0, x ∈ words s₀.needs → Urverk.svcByName w₀.svcs x = some j →
      w₀.svcs[j]? = some d0 → ¬ (d0.started = true ∧ d0.ready = true) →
      Startable env w₀.svcs j ∧ BecomesReady env j d0 := by
    intro x j d0 hx hj hd0 hnot
    obtain ⟨d, hd⟩ := exists_row h.length.symm hd0
    have hdrow := h.row j d0 d hd0 hd
    have hready : d.ready = true :=
      hneeds x (by rwa [hrow.same.needs]) j d (by rw [h.svcByName, hj]) hd
    have hd0u : d0.started = false := by
      cases hst : d0.started with
      | false => rfl
      | true =>
        rw [hdrow.kept hst] at hready
        exact absurd ⟨hst, hready⟩ hnot
    have hst : d.started = true := by
      cases hst : d.started with
      | true => rfl
      | false =>
        rw [(hdrow.zero hst).2] at hready
        cases hready
    exact ⟨(hdrow.up hst hd0u).1, hdrow.ready hready hd0u⟩
  exact .intro hs0 hu0 (fun x j d hx hj hd hn => (hdep x j d hx hj hd hn).1)
    (fun x j d hx hj hd hn => (hdep x j d hx hj hd hn).2)

/-- One more line of the log. -/
theorem Logged.turn (h : Logged env w₀ b) {s₀ : Svc}
    (hs0 : w₀.svcs[i]? = some s₀) (hturn : Turn b b' i act fallback s')
    (hline : Line env w₀.svcs ⟨i, act, fallback, b.w.svcs⟩ s₀) : Logged env w₀ b' where
  length := by rw [hturn.svcs, List.length_set, h.length]
  line e he := by
    rw [hturn.log, List.mem_append, List.mem_singleton] at he
    rcases he with he | rfl
    · exact h.line e he
    · exact ⟨s₀, hs0, hline⟩

/-- A service that was not started and is now has its line. -/
theorem Once.turn {j : Nat} (h : Once w₀ b j)
    (hs : b.w.svcs[i]? = some s) (hu : s.started = false) (hturn : Turn b b' i act fallback s')
    (hst : i = j → s'.started = true ∧ ∀ s₀, w₀.svcs[i]? = some s₀ → s₀.started = false) :
    Once w₀ b' j := by
  intro r0 r hr0 hr
  have hi : i < b.w.svcs.length := (List.getElem?_eq_some_iff.1 hs).1
  rw [hturn.svcs] at hr
  rw [hturn.log, List.countP_append, List.countP_singleton]
  by_cases hj : i = j
  · subst hj
    obtain ⟨hstarted, hu0⟩ := hst rfl
    rw [List.getElem?_set_self hi, some.injEq] at hr
    subst hr
    rw [h r0 s hr0 hs, hu, hstarted, hu0 r0 hr0]
    simp
  · rw [List.getElem?_set_ne hj] at hr
    rw [h r0 r hr0 hr]
    simp [hj]

theorem Sound.turn (h : Sound env w₀ b) (hs : b.w.svcs[i]? = some s) (hu : s.started = false)
    (hneeds : NeedsReady b.w.svcs s) (hturn : Turn b b' i (actOf env i s) false s')
    (hdone : Done env i s s')
    (hends : s.type = .simple ∨ s.type = .oneshot → hangs env i s = false) : Sound env w₀ b' := by
  obtain ⟨s₀, hs0⟩ := exists_row h.length hs
  have hrow := h.row i s₀ s hs0 hs
  have hi : i < b.w.svcs.length := (List.getElem?_eq_some_iff.1 hs).1
  have hstart := h.startable hs hu hneeds
  have hu0 : s₀.started = false := by
    cases hst : s₀.started with
    | false => rfl
    | true =>
      rw [hrow.kept hst, hst] at hu
      cases hu
  have hbecomes : BecomesReady env i s₀ ↔ BecomesReady env i s := by
    rw [BecomesReady, BecomesReady, hrow.same.type]
  have hline : Line env w₀.svcs ⟨i, actOf env i s, false, b.w.svcs⟩ s₀ := by
    refine ⟨hu0, fun ⟨child, hact⟩ => ?_, fun _ => ⟨hrow.same.actOf, hstart⟩, fun _ r hr => ?_, nofun⟩
    · rw [← hrow.same.hangs]
      apply hends
      dsimp only [actOf] at hact
      cases ht : s.type <;> simp [ht] at hact ⊢
    · rw [hs, some.injEq] at hr
      subst hr
      exact hneeds
  have hrun : Runnable env.con s₀ → Runnable env.con s := by
    intro hr ht
    rw [hrow.same.hasCommand]
    exact hr (by rwa [← hrow.same.type])
  refine ⟨h.toLogged.turn hs0 hturn hline, fun j r0 r hr0 hr => ?_, fun j r0 hr0 hr => ?_⟩
  rotate_left
  · refine (h.once j r0 hr0 hr).turn hs hu hturn ?_
    rintro rfl
    rw [hs0, some.injEq] at hr0
    subst hr0
    refine ⟨hdone.started (hrun hr), fun r hr' => ?_⟩
    rw [hs0, some.injEq] at hr'
    rwa [← hr']
  rw [hturn.svcs] at hr
  by_cases hj : i = j
  · subst hj
    rw [hs0, some.injEq] at hr0
    subst hr0
    rw [List.getElem?_set_self hi, some.injEq] at hr
    subst hr
    refine ⟨hrow.same.trans hdone.same, fun hst => ?_, fun hst => ?_, fun hr _ => ?_, fun hst _ => ?_⟩
    · rw [hu0] at hst
      cases hst
    · rw [hdone.idle hst]
      exact hrow.zero hu
    · exact hbecomes.2 (hdone.ready hr)
    · exact ⟨hstart, fun hb => hdone.up hst (hbecomes.1 hb)⟩
  · rw [List.getElem?_set_ne hj] at hr
    exact h.row j r0 r hr0 hr

/-! ## If the boot ends -/

theorem Sound.visit (hfork : ∀ kids i, env.fork kids i ≠ none) {r r' : Round}
    (h : Sound env w₀ r.b) (hv : visit env r i = some r') : Sound env w₀ r'.b := by
  unfold Urverk.visit at hv
  cases hs : r.b.w.svcs[i]? with
  | none =>
    rw [hs] at hv
    cases hv
    exact h
  | some s =>
    simp only [hs] at hv
    split at hv
    · cases hv
      exact h
    · rename_i hu
      rw [Bool.not_eq_true] at hu
      split at hv
      · rename_i hneeds
        obtain ⟨b', hb', hv⟩ := Option.map_eq_some_iff.1 hv
        cases hv
        obtain ⟨s₀, hs0⟩ := exists_row h.length hs
        obtain ⟨hends, s', hturn, hdone⟩ :=
          handle_spec hs ((h.row i s₀ s hs0 hs).zero hu) hu hfork hb'
        exact h.turn hs hu (depsReady_iff.1 hneeds) hturn hdone hends
      · cases hv
        exact h

theorem Sound.sweep (hfork : ∀ kids i, env.fork kids i ≠ none) {r : Round} (h : Sound env w₀ b)
    (hr : sweep env b = some r) : Sound env w₀ r.b :=
  Lib.Fold.range_partial (P := fun _ r => Sound env w₀ r.b) h
    (fun _ _ _ _ h hv => h.visit hfork hv) hr

/-- What the fallback keeps beside the log. -/
structure Left (env : BootEnv) (w₀ : World) (b : Boot) : Prop extends Logged env w₀ b where
  same : ∀ (i : Nat) s₀ s, w₀.svcs[i]? = some s₀ → b.w.svcs[i]? = some s → SameDef s₀ s
  kept : ∀ (i : Nat) s₀ s, w₀.svcs[i]? = some s₀ → b.w.svcs[i]? = some s →
    s₀.started = true → s = s₀

theorem Sound.left (h : Sound env w₀ b) : Left env w₀ b where
  toLogged := h.toLogged
  same i s₀ s h0 hs := (h.row i s₀ s h0 hs).same
  kept i s₀ s h0 hs := (h.row i s₀ s h0 hs).kept

theorem Left.unstarted (h : Left env w₀ b) {s₀ : Svc} (hs0 : w₀.svcs[i]? = some s₀)
    (hs : b.w.svcs[i]? = some s) (hu : s.started = false) : s₀.started = false := by
  cases hst : s₀.started with
  | false => rfl
  | true =>
    rw [h.kept i s₀ s hs0 hs hst, hst] at hu
    cases hu

section

variable (hfork : ∀ kids i, env.fork kids i ≠ none)
include hfork

theorem Left.run (h : Left env w₀ b) (hs : b.w.svcs[i]? = some s) (hu : s.started = false)
    (hb : bootService env b i s true = some b') : Left env w₀ b' ∧
      ∃ s', Turn b b' i (.ran (s.hasCommand env.con)) true s' ∧ Ran env.con s s' := by
  obtain ⟨s₀, hs0⟩ := exists_row h.length hs
  have hsame := h.same i s₀ s hs0 hs
  have hi : i < b.w.svcs.length := (List.getElem?_eq_some_iff.1 hs).1
  obtain ⟨hends, s', hturn, hran⟩ := bootService_spec hs hfork hb
  have hu0 := h.unstarted hs0 hs hu
  have hline : Line env w₀.svcs ⟨i, .ran (s.hasCommand env.con), true, b.w.svcs⟩ s₀ :=
    ⟨hu0, fun _ => by rw [← hsame.hangs]; exact hends, nofun, nofun,
      fun _ => by dsimp only; rw [hsame.hasCommand]⟩
  refine ⟨⟨h.toLogged.turn hs0 hturn hline, fun j r0 r hr0 hr => ?_, fun j r0 r hr0 hr hst => ?_⟩,
    s', hturn, hran⟩
  · rw [hturn.svcs] at hr
    by_cases hj : i = j
    · subst hj
      rw [hs0, some.injEq] at hr0
      rw [List.getElem?_set_self hi, some.injEq] at hr
      rw [← hr0, ← hr]
      exact hsame.trans hran.same
    · rw [List.getElem?_set_ne hj] at hr
      exact h.same j r0 r hr0 hr
  · rw [hturn.svcs] at hr
    by_cases hj : i = j
    · subst hj
      rw [hs0, some.injEq] at hr0
      rw [← hr0, hu0] at hst
      cases hst
    · rw [List.getElem?_set_ne hj] at hr
      exact h.kept j r0 r hr0 hr hst

theorem Left.startAnyway (h : Left env w₀ b) (hb : startAnyway env b i = some b') :
    Left env w₀ b' := by
  unfold Urverk.startAnyway at hb
  split at hb
  · cases hb
    exact h
  · rename_i s hs
    split at hb
    · cases hb
      exact h
    · rename_i hu
      exact (h.run hfork hs (by simpa using hu) hb).1

theorem Sound.rounds {k : Nat} (h : Sound env w₀ b) (hb : rounds env k b = some b') :
    Left env w₀ b' := by
  induction k generalizing b with
  | zero =>
    cases hb
    exact h.left
  | succ k ih =>
    unfold Urverk.rounds at hb
    cases hr : Urverk.sweep env b with
    | none =>
      rw [hr] at hb
      cases hb
    | some r =>
      have hsound := h.sweep hfork hr
      simp only [hr] at hb
      split at hb
      · cases hb
        exact hsound.left
      · split at hb
        · exact Lib.Fold.range_partial (P := fun _ b => Left env w₀ b) hsound.left
            (fun _ _ _ _ h hv => h.startAnyway hfork hv) hb
        · exact ih hsound hb

end

end Rounds

/-! ## That the boot ends -/

/-- The services that are not marked started. -/
def waiting (svcs : List Svc) : Nat := svcs.countP fun s => !s.started

theorem waiting_set {i : Nat} {s s' : Svc} (hs : svcs[i]? = some s)
    (hu : s.started = false) (hu' : s'.started = true) :
    waiting (svcs.set i s') + 1 = waiting svcs := by
  unfold waiting
  induction svcs generalizing i with
  | nil => cases hs
  | cons a l ih =>
    cases i with
    | zero =>
      obtain rfl : a = s := by simpa using hs
      simp [hu, hu']
    | succ i =>
      have := ih (i := i) (by simpa using hs)
      rw [List.set_cons_succ, List.countP_cons, List.countP_cons]
      omega

/-- Every line of the log is what the type of its service asks for. -/
def Proper (w₀ : World) (b : Boot) : Prop :=
  ∀ e ∈ b.log, ∀ s₀, w₀.svcs[e.svc]? = some s₀ → e.act = proper s₀.type

/-- Every service is marked started. -/
def AllUp (b : Boot) : Prop := ∀ (i : Nat) s, b.w.svcs[i]? = some s → s.started = true

/-- What is left is all to be run. -/
def RunOnly (b : Boot) : Prop :=
  ∀ (i : Nat) s, b.w.svcs[i]? = some s → s.started = false → s.type = .simple ∨ s.type = .oneshot

/-- A boot that has ended well. -/
structure Finished (env : BootEnv) (w₀ : World) (b : Boot) : Prop extends Left env w₀ b where
  proper : Proper w₀ b
  once : ∀ (i : Nat) s₀, w₀.svcs[i]? = some s₀ → s₀.started = false → Once w₀ b i
  up : AllUp b

/-- A round so far, as far as its end is concerned. -/
structure Sweeping (env : BootEnv) (w₀ : World) (b : Boot) (k : Nat) (r : Round) : Prop where
  sound : Sound env w₀ r.b
  proper : Proper w₀ r.b
  up : r.pending = false → ∀ i < k, ∀ s, r.b.w.svcs[i]? = some s → s.started = true
  fewer : waiting r.b.w.svcs + (if r.startedAny then 1 else 0) ≤ waiting b.w.svcs
  stuck : r.startedAny = false → r.b = b ∧
    ∀ i < k, ∀ s, b.w.svcs[i]? = some s → s.started = false → ¬ NeedsReady b.w.svcs s

section Total

variable {env : BootEnv} {b b' : Boot} {w₀ : World} {i k : Nat} {s s' s₀ : Svc} {r : Round}
variable (hfork : ∀ kids i, env.fork kids i ≠ none)
variable (hfit : ∀ i s, w₀.svcs[i]? = some s → s.started = false → Fit env w₀.svcs i s)

theorem Fit.run (h : Fit env w₀.svcs i s) (ht : s.type = .simple ∨ s.type = .oneshot) :
    s.hasCommand env.con = true ∧ hangs env i s = false := by
  unfold Fit at h
  rcases ht with ht | ht <;> simpa [ht] using h

theorem Fit.actOf (h : Fit env w₀.svcs i s) : Urverk.actOf env i s = Urverk.proper s.type := by
  unfold Fit at h
  unfold Urverk.actOf Urverk.proper
  cases ht : s.type <;> simp_all

theorem Fit.startable (h : Fit env w₀.svcs i s) (ht : s.type = .timer ∨ s.type = .socket) :
    Startable env w₀.svcs i := by
  unfold Fit at h
  rcases ht with ht | ht
  · simpa [ht] using h
  · simp only [ht] at h
    exact h.1

theorem SameDef.fit (h : SameDef s s') (hf : Fit env w₀.svcs i s) : Fit env w₀.svcs i s' := by
  unfold Fit at hf ⊢
  rw [h.type, h.hasCommand, h.hangs]
  exact hf

theorem Proper.turn (h : Proper w₀ b) (hturn : Turn b b' i act fallback s')
    (hact : ∀ s₀, w₀.svcs[i]? = some s₀ → act = Urverk.proper s₀.type) : Proper w₀ b' := by
  intro e he
  rw [hturn.log, List.mem_append, List.mem_singleton] at he
  rcases he with he | rfl
  · exact h e he
  · exact hact

theorem bootService_ends (b : Boot) (fallback : Bool) (hh : hangs env i s = false) :
    ∃ b', bootService env b i s fallback = some b' := by
  unfold bootService
  rw [hh]
  exact ⟨_, rfl⟩

theorem handle_ends (hf : Fit env w₀.svcs i s) : ∃ b', handle env b i s = some b' := by
  unfold handle
  cases ht : s.type with
  | timer | socket => exact ⟨_, rfl⟩
  | simple => exact bootService_ends b false (hf.run (.inl ht)).2
  | oneshot =>
    obtain ⟨b', hb'⟩ := bootService_ends b false (hf.run (.inr ht)).2
    exact ⟨⟨awaitOneshot env b'.w i, b'.log⟩, by rw [hb']; rfl⟩

include hfork hfit

theorem Sweeping.visit (h : Sweeping env w₀ b k r) :
    ∃ r', visit env r k = some r' ∧ Sweeping env w₀ b (k + 1) r' := by
  have hpast : ∀ i, i < k + 1 → i < k ∨ i = k := fun i hi => Nat.lt_succ_iff_lt_or_eq.1 hi
  unfold Urverk.visit
  cases hs : r.b.w.svcs[k]? with
  | none =>
    refine ⟨r, rfl, h.sound, h.proper, fun hp i hi s hsi => ?_, h.fewer, fun hst => ?_⟩
    · rcases hpast i hi with hi | rfl
      · exact h.up hp i hi s hsi
      · rw [hs] at hsi
        cases hsi
    · obtain ⟨hb, hall⟩ := h.stuck hst
      refine ⟨hb, fun i hi s hsi => ?_⟩
      rcases hpast i hi with hi | rfl
      · exact hall i hi s hsi
      · rw [← hb, hs] at hsi
        cases hsi
  | some s =>
    dsimp only
    split
    · rename_i hst
      refine ⟨r, rfl, h.sound, h.proper, fun hp i hi d hd => ?_, h.fewer, fun hany => ?_⟩
      · rcases hpast i hi with hi | rfl
        · exact h.up hp i hi d hd
        · rw [hs, some.injEq] at hd
          rwa [← hd]
      · obtain ⟨hb, hall⟩ := h.stuck hany
        refine ⟨hb, fun i hi d hd hu => ?_⟩
        rcases hpast i hi with hi | rfl
        · exact hall i hi d hd hu
        · rw [← hb, hs, some.injEq] at hd
          rw [← hd, hst] at hu
          cases hu
    · rename_i hu
      rw [Bool.not_eq_true] at hu
      split
      · rename_i hneeds
        -- handled: its row is started now, and there is one less to wait for
        obtain ⟨s₀, hs0⟩ := exists_row h.sound.length hs
        have hrow := h.sound.row k s₀ s hs0 hs
        have hu0 := h.sound.left.unstarted hs0 hs hu
        have hfits := hrow.same.fit (hfit k s₀ hs0 hu0)
        have hk : k < r.b.w.svcs.length := (List.getElem?_eq_some_iff.1 hs).1
        obtain ⟨b', hb'⟩ := handle_ends (b := r.b) hfits
        obtain ⟨hends, s', hturn, hdone⟩ := handle_spec hs (hrow.zero hu) hu hfork hb'
        have hst' : s'.started = true := hdone.started fun ht => (hfits.run ht).1
        refine ⟨⟨b', true, r.pending⟩, by rw [hb']; rfl,
          h.sound.turn hs hu (depsReady_iff.1 hneeds) hturn hdone hends,
          h.proper.turn hturn fun r0 hr0 => ?_, fun hp i hi d hd => ?_, ?_, nofun⟩
        · rw [hs0, some.injEq] at hr0
          rw [← hr0, hfits.actOf, hrow.same.type]
        · dsimp only at hd
          rw [hturn.svcs] at hd
          rcases hpast i hi with hi | rfl
          · rw [List.getElem?_set_ne (by omega)] at hd
            exact h.up hp i hi d hd
          · rw [List.getElem?_set_self hk, some.injEq] at hd
            rwa [← hd]
        · have hset := waiting_set hs hu hst'
          have hle := h.fewer
          dsimp only
          rw [hturn.svcs, if_pos rfl]
          omega
      · rename_i hneeds
        refine ⟨{ r with pending := true }, rfl, h.sound, h.proper, nofun, h.fewer, fun hany => ?_⟩
        obtain ⟨hb, hall⟩ := h.stuck hany
        refine ⟨hb, fun i hi d hd hud => ?_⟩
        rcases hpast i hi with hi | rfl
        · exact hall i hi d hd hud
        · rw [← hb, hs, some.injEq] at hd
          rw [← hd, ← hb, ← depsReady_iff]
          exact hneeds

theorem Sound.sweep_ends (h : Sound env w₀ b) (hp : Proper w₀ b) :
    ∃ r, Urverk.sweep env b = some r ∧ Sweeping env w₀ b b.w.svcs.length r := by
  refine Lib.Fold.range_total (P := Sweeping env w₀ b) ?_ fun k _ r hr => hr.visit hfork hfit
  exact ⟨h, hp, fun _ i hi => absurd hi (Nat.not_lt_zero i), by simp,
    fun _ => ⟨rfl, fun i hi => absurd hi (Nat.not_lt_zero i)⟩⟩

omit hfork hfit in
/-- When no service that is left has its needs met, none that comes up in order is left. -/
theorem Sound.stuck (h : Sound env w₀ b)
    (hstuck : ∀ (i : Nat) s, b.w.svcs[i]? = some s → s.started = false →
      ¬ NeedsReady b.w.svcs s) (hi : Startable env w₀.svcs i) :
    ∀ s, b.w.svcs[i]? = some s → s.started = true := by
  induction hi with
  | @intro i s₀ hs0 hu0 hneeds hready ih =>
    intro s hs
    by_contra hu
    rw [Bool.not_eq_true] at hu
    refine hstuck i s hs hu fun x hx j d hj hd => ?_
    have hrow := h.row i s₀ s hs0 hs
    obtain ⟨d0, hd0⟩ := exists_row h.length hd
    have hdrow := h.row j d0 d hd0 hd
    rw [hrow.same.needs] at hx
    rw [h.svcByName] at hj
    by_cases hdone : d0.started = true ∧ d0.ready = true
    · rw [hdrow.kept hdone.1]
      exact hdone.2
    · have hst := ih x j d0 hx hj hd0 hdone d hd
      have hd0u : d0.started = false := by
        cases hneeds x j d0 hx hj hd0 hdone with
        | intro hd1 hu1 _ _ =>
          rw [hd0, some.injEq] at hd1
          rwa [hd1]
      exact (hdrow.up hst hd0u).2 (hready x j d0 hx hj hd0 hdone)

/-- The fallback so far. -/
structure Falling (env : BootEnv) (w₀ : World) (k : Nat) (b : Boot) : Prop
    extends Left env w₀ b where
  proper : Proper w₀ b
  once : ∀ (i : Nat) s₀, w₀.svcs[i]? = some s₀ → s₀.started = false → Once w₀ b i
  runOnly : RunOnly b
  up : ∀ i < k, ∀ s, b.w.svcs[i]? = some s → s.started = true

theorem Falling.startAnyway (h : Falling env w₀ k b) :
    ∃ b', startAnyway env b k = some b' ∧ Falling env w₀ (k + 1) b' := by
  have hpast : ∀ i, i < k + 1 → i < k ∨ i = k := fun i hi => Nat.lt_succ_iff_lt_or_eq.1 hi
  unfold Urverk.startAnyway
  cases hs : b.w.svcs[k]? with
  | none =>
    refine ⟨b, rfl, h.toLeft, h.proper, h.once, h.runOnly, fun i hi s hsi => ?_⟩
    rcases hpast i hi with hi | rfl
    · exact h.up i hi s hsi
    · rw [hs] at hsi
      cases hsi
  | some s =>
    dsimp only
    split
    · rename_i hst
      refine ⟨b, rfl, h.toLeft, h.proper, h.once, h.runOnly, fun i hi d hd => ?_⟩
      rcases hpast i hi with hi | rfl
      · exact h.up i hi d hd
      · rw [hs, some.injEq] at hd
        rwa [← hd]
    · rename_i hu
      rw [Bool.not_eq_true] at hu
      obtain ⟨s₀, hs0⟩ := exists_row h.length hs
      have hsame := h.same k s₀ s hs0 hs
      have hu0 := h.unstarted hs0 hs hu
      have hrun := (hsame.fit (hfit k s₀ hs0 hu0)).run (h.runOnly k s hs hu)
      have hk : k < b.w.svcs.length := (List.getElem?_eq_some_iff.1 hs).1
      obtain ⟨b', hb'⟩ := bootService_ends b true hrun.2
      obtain ⟨hleft, s', hturn, hran⟩ := h.toLeft.run hfork hs hu hb'
      have hst' := (hran.started hrun.1).1
      refine ⟨b', hb', hleft, h.proper.turn hturn fun r0 hr0 => ?_, fun i r0 hr0 hur0 => ?_,
        fun i d hd hud => ?_, fun i hi d hd => ?_⟩
      · rw [hs0, some.injEq] at hr0
        rw [← hr0, hrun.1, ← hsame.type]
        rcases h.runOnly k s hs hu with ht | ht <;> rw [ht] <;> rfl
      · refine (h.once i r0 hr0 hur0).turn hs hu hturn ?_
        rintro rfl
        refine ⟨hst', fun r hr => ?_⟩
        rw [hr0, some.injEq] at hr
        rwa [← hr]
      · rw [hturn.svcs] at hd
        by_cases hik : k = i
        · subst hik
          rw [List.getElem?_set_self hk, some.injEq] at hd
          rw [← hd, hst'] at hud
          cases hud
        · rw [List.getElem?_set_ne hik] at hd
          exact h.runOnly i d hd hud
      · rw [hturn.svcs] at hd
        rcases hpast i hi with hi | rfl
        · rw [List.getElem?_set_ne (by omega)] at hd
          exact h.up i hi d hd
        · rw [List.getElem?_set_self hk, some.injEq] at hd
          rwa [← hd]

omit hfork in
theorem Sound.once_of_fit (h : Sound env w₀ b) (i : Nat) (s₀ : Svc) (hs0 : w₀.svcs[i]? = some s₀)
    (hu0 : s₀.started = false) : Once w₀ b i :=
  h.once i s₀ hs0 fun ht => ((hfit i s₀ hs0 hu0).run ht).1

theorem Sound.rounds_end (fuel : Nat) (h : Sound env w₀ b) (hp : Proper w₀ b)
    (hfuel : waiting b.w.svcs < fuel) :
    ∃ b', Urverk.rounds env fuel b = some b' ∧ Finished env w₀ b' := by
  induction fuel generalizing b with
  | zero => exact absurd hfuel (Nat.not_lt_zero _)
  | succ fuel ih =>
    obtain ⟨r, hr, hsweep⟩ := h.sweep_ends hfork hfit hp
    have hlen : r.b.w.svcs.length = b.w.svcs.length :=
      hsweep.sound.length.trans h.length.symm
    rw [Urverk.rounds, hr]
    dsimp only
    by_cases hpend : r.pending = false
    · rw [if_pos hpend]
      refine ⟨r.b, rfl, hsweep.sound.left, hsweep.proper, hsweep.sound.once_of_fit hfit,
        fun i s hs => hsweep.up hpend i ?_ s hs⟩
      rw [← hlen]
      exact (List.getElem?_eq_some_iff.1 hs).1
    · rw [if_neg hpend]
      by_cases hany : r.startedAny = false
      · rw [if_pos hany]
        obtain ⟨hb, hall⟩ := hsweep.stuck hany
        have hstuck : ∀ (i : Nat) s, b.w.svcs[i]? = some s → s.started = false →
            ¬ NeedsReady b.w.svcs s :=
          fun i s hs => hall i (List.getElem?_eq_some_iff.1 hs).1 s hs
        have hrunOnly : RunOnly b := by
          intro i s hs hu
          obtain ⟨s₀, hs0⟩ := exists_row h.length hs
          have hfits := hfit i s₀ hs0 (h.left.unstarted hs0 hs hu)
          have hno : ¬ (s₀.type = .timer ∨ s₀.type = .socket) := by
            intro ht
            rw [h.stuck hstuck (hfits.startable ht) s hs] at hu
            cases hu
          rw [(h.row i s₀ s hs0 hs).same.type]
          cases ht : s₀.type <;> simp_all
        have hfall : Falling env w₀ 0 r.b := by
          rw [hb]
          exact ⟨h.left, hp, h.once_of_fit hfit, hrunOnly, fun i hi => absurd hi (Nat.not_lt_zero i)⟩
        obtain ⟨b', hb', hend⟩ := Lib.Fold.range_total (n := r.b.w.svcs.length)
          (P := Falling env w₀) hfall fun k _ b hk => hk.startAnyway hfork hfit
        refine ⟨b', hb', hend.toLeft, hend.proper, hend.once, fun i s hs => hend.up i ?_ s hs⟩
        rw [hsweep.sound.length, ← hend.length]
        exact (List.getElem?_eq_some_iff.1 hs).1
      · rw [if_neg hany]
        have hless := hsweep.fewer
        rw [if_pos (by simpa using hany)] at hless
        exact ih hsweep.sound hsweep.proper (by omega)

end Total

/-! ## The law -/

theorem Finished.inOrder {env : BootEnv} {w₀ : World} {b : Boot} (h : Finished env w₀ b) :
    InOrder w₀ b where
  once i s₀ hs0 := by
    cases hst : s₀.started with
    | true =>
      rw [if_pos rfl, List.map_eq_nil_iff, List.filter_eq_nil_iff]
      intro e he hei
      obtain ⟨r0, hr0, hline⟩ := h.line e he
      rw [of_decide_eq_true hei, hs0, some.injEq] at hr0
      have hu := hline.started
      rw [← hr0, hst] at hu
      cases hu
    | false =>
      obtain ⟨s, hs⟩ := exists_row h.length.symm hs0
      have hcount := h.once i s₀ hs0 hst s₀ s hs0 hs
      rw [h.up i s hs, hst, if_pos ⟨rfl, rfl⟩, List.countP_eq_length_filter] at hcount
      obtain ⟨e, he⟩ := List.length_eq_one_iff.1 hcount
      have hmem : e ∈ b.log ∧ e.svc = i := by
        have : e ∈ b.log.filter fun e => e.svc = i := by rw [he]; simp
        simpa using this
      rw [he, if_neg (by simp), List.map_singleton, h.proper e hmem.1 s₀ (by rw [hmem.2, hs0])]
  needs e he hf := by
    obtain ⟨s₀, -, hline⟩ := h.line e he
    exact hline.needs hf

theorem InOrder.fit {env : BootEnv} {w₀ : World} {b : Boot} (h : InOrder w₀ b)
    (hl : Left env w₀ b) {i : Nat} {s₀ : Svc} (hs0 : w₀.svcs[i]? = some s₀)
    (hu0 : s₀.started = false) : Fit env w₀.svcs i s₀ := by
  have hact := h.once i s₀ hs0
  rw [hu0, if_neg (by simp)] at hact
  obtain ⟨e, he, hea⟩ := List.map_eq_singleton_iff.1 hact
  have hmem : e ∈ b.log ∧ e.svc = i := by
    have : e ∈ b.log.filter fun e => e.svc = i := by rw [he]; simp
    simpa using this
  obtain ⟨r0, hr0, hline⟩ := hl.line e hmem.1
  obtain rfl : s₀ = r0 := by
    rw [hmem.2, hs0, some.injEq] at hr0
    exact hr0
  have hround : (∃ child, e.act = .ran child) ∨
      e.act = actOf env i s₀ ∧ Startable env w₀.svcs i := by
    cases hf : e.fallback with
    | true => exact .inl ⟨_, hline.fallback hf⟩
    | false => exact .inr (hmem.2 ▸ hline.round hf)
  have hcommand : (s₀.type = .simple ∨ s₀.type = .oneshot) → e.act = .ran true →
      s₀.hasCommand env.con = true ∧ hangs env i s₀ = false := by
    intro ht hr
    refine ⟨?_, hmem.2 ▸ hline.ends ⟨true, hr⟩⟩
    cases hf : e.fallback with
    | true => simpa [hr] using (hline.fallback hf).symm
    | false =>
      have := (hline.round hf).1
      rcases ht with ht | ht <;> simpa [hr, actOf, ht] using this.symm
  unfold Fit
  cases ht : s₀.type with
  | simple => exact hcommand (.inl ht) (by rw [hea, ht]; rfl)
  | oneshot => exact hcommand (.inr ht) (by rw [hea, ht]; rfl)
  | timer =>
    rw [ht] at hea
    rcases hround with ⟨child, hr⟩ | ⟨-, hstart⟩
    · rw [hea] at hr
      cases hr
    · exact hstart
  | socket =>
    rw [ht] at hea
    rcases hround with ⟨child, hr⟩ | ⟨ha, hstart⟩
    · rw [hea] at hr
      cases hr
    · refine ⟨hstart, ?_⟩
      rw [hea] at ha
      simpa [actOf, ht, proper] using ha.symm

/-- With every fork succeeding, the boot ends with every service handled once, as its type says and
in order, exactly when every service that is to be run can be and every timer and socket service
comes up in order; and outside the fallback nothing is ever handled before what it needs. -/
theorem boot_in_order {env : BootEnv} {w : World} (hfork : ∀ kids i, env.fork kids i ≠ none)
    (hload : Loaded w.svcs) (hlen : w.svcs.length ≤ maxSvc) :
    ((∃ b, startAll env w = some b ∧ InOrder w b) ↔
      ∀ i s, w.svcs[i]? = some s → s.started = false → Fit env w.svcs i s) ∧
    ∀ b, startAll env w = some b → ∀ e ∈ b.log, e.fallback = false →
      ∀ s, e.before[e.svc]? = some s → NeedsReady e.before s := by
  refine ⟨⟨?_, fun hfit => ?_⟩, fun b hb e he hf => ?_⟩
  · rintro ⟨b, hb, horder⟩ i s hs hu
    exact horder.fit ((Sound.begin hload).rounds hfork hb) hs hu
  · have hwait : waiting w.svcs ≤ w.svcs.length := List.countP_le_length
    obtain ⟨b, hb, hfin⟩ := Sound.rounds_end hfork hfit (maxSvc + 2) (Sound.begin hload) nofun
      (Nat.lt_of_le_of_lt hwait (by omega))
    exact ⟨b, hb, hfin.inOrder⟩
  · obtain ⟨s₀, -, hline⟩ := ((Sound.begin hload).rounds hfork hb).line e he
    exact hline.needs hf

theorem pid_le_sum {kids : List Kid} {k : Kid} (hk : k ∈ kids) : k.pid ≤ (kids.map Kid.pid).sum := by
  induction kids with
  | nil => cases hk
  | cons a kids ih =>
    rw [List.map_cons, List.sum_cons]
    rcases List.mem_cons.1 hk with rfl | hk
    · exact Nat.le_add_right _ _
    · exact Nat.le_add_left_of_le (ih hk)

/-- A machine on which everything works but the first service, which exits with a failure. -/
def calm : BootEnv where
  con := ascii "ttyS0"
  mktime now _ _ := now
  now _ := 1000
  fork kids _ := some ((kids.map Kid.pid).sum + 1)
  fresh kids i p hp := by
    obtain rfl : (kids.map Kid.pid).sum + 1 = p := some.inj hp
    refine ⟨Nat.succ_pos _, fun k hk => ?_⟩
    have := pid_le_sum hk
    omega
  preEnds _ := true
  oneshot i := if i = 0 then some false else none
  listens _ := true

/-- A oneshot, and a timer that has to wait for it. -/
def backups (needs : String) : World where
  svcs := [{ name := ascii "mount", exec := ascii "/sbin/mount -a", type := .oneshot },
    { name := ascii "backup", exec := ascii "/sbin/backup", type := .timer, everySec := 3600
      needs := ascii needs }]
  kids := []
  disabled := []
  starts := []

theorem backups_loaded (needs : String) : Loaded (backups needs).svcs := by
  intro s hs _
  simp only [backups, List.mem_cons, List.not_mem_nil, or_false] at hs
  rcases hs with rfl | rfl <;> exact ⟨rfl, rfl⟩

/-- A timer that needs nothing is armed whatever becomes of the oneshot. -/
theorem boot_in_order_armed : ∃ b, startAll calm (backups "") = some b ∧ InOrder (backups "") b := by
  refine ((boot_in_order (fun _ _ => Option.some_ne_none _)
    (backups_loaded "") (by decide)).1).2 fun i s hs hu => ?_
  have hi : i < 2 := (List.getElem?_eq_some_iff.1 hs).1
  interval_cases i
  · obtain rfl := some.inj hs
    exact show _ ∧ _ by decide
  · obtain rfl := some.inj hs
    exact .intro hs hu (fun _ _ _ hx => nomatch hx) (fun _ _ _ hx => nomatch hx)

/-- A timer that needs a oneshot that fails is not armed: the fallback runs it. -/
theorem fallback_runs_timer :
    ¬ ∃ b, startAll calm (backups "mount") = some b ∧ InOrder (backups "mount") b := by
  rintro ⟨b, hb, horder⟩
  have hlog : (startAll calm (backups "mount")).map (fun b =>
      (b.log.filter fun e => e.svc = 1).map Handled.act) = some [.ran true] := by decide
  rw [hb, map_some, some.injEq, horder.once 1 _ rfl] at hlog
  exact absurd hlog (by decide)

end Verkos.Urverk
