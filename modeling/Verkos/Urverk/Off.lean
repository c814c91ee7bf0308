import Verkos.Urverk.Tracks

/-!
# A service that is turned off

`stop` reaps the child itself and leaves the service without a pid, so the reaper never comes to ask
whether to respawn it; `disable` also leaves a marker that `load_service` looks for at every boot.
Neither disarms a timer nor gives up a port, and `add_builtins` looks for no marker.

`Settled` is what a service must be like for a stop to last: nothing in the loop starts it. `Host`
is the machine urverk runs on, with its reboots; the markers and the log of what has been started
outlive the boot.
-/

namespace Verkos.Urverk

open Option (some.inj map_eq_some_iff bind_eq_some_iff)

/-! ## What the loop leaves alone -/

/-- Nothing but a command starts the service, once it has been stopped if it is the one that is
`stopping`. -/
def Settled (stopping : Bool) (s : Svc) : Prop :=
  match s.type with
  | .oneshot => True
  | .timer => s.nextRun = 0
  | .socket => s.lfd = false ∧ (stopping = true ∨ s.pid = 0)
  | .simple => stopping = true ∨ s.pid = 0 ∨ s.respawn = .no

instance (stopping : Bool) (s : Svc) : Decidable (Settled stopping s) := by
  unfold Settled
  split <;> infer_instance

/-- The services of the name are settled, when the first of them is stopped. -/
def Stoppable (name : Name) (w : World) : Prop :=
  ∀ (i : Nat) s, w.svcs[i]? = some s → s.name = name →
    Settled (decide (svcByName w.svcs name = some i)) s

instance (name : Name) (w : World) : Decidable (Stoppable name w) :=
  decidable_of_iff (∀ i : Fin w.svcs.length, w.svcs[i].name = name →
      Settled (decide (svcByName w.svcs name = some i.1)) w.svcs[i]) <| by
    refine ⟨fun h i s hs hn => ?_, fun h i hn => h i _ (List.getElem?_eq_getElem i.2) hn⟩
    obtain ⟨hi, rfl⟩ := List.getElem?_eq_some_iff.1 hs
    exact h ⟨i, hi⟩ hn

/-- Services of the name are as `P` says, none has been started since the log was `starts`, and
there is a marker if it is to be so after a reboot. -/
structure Off (name : Name) (P : Svc → Prop) (starts : List Name) (reboots : Bool) (w : World) :
    Prop where
  rows : ∀ s ∈ w.svcs, s.name = name → P s
  starts : ∃ l, w.starts = starts ++ l ∧ name ∉ l
  marker : reboots = true → name ∈ w.disabled

/-- The services that a poll has reported have a listener. -/
def Listening (st : Init) : Prop :=
  ∀ ctl conns, st.phase = .events ctl conns →
    conns.Nodup ∧ ∀ i ∈ conns, ∃ s, st.w.svcs[i]? = some s ∧ s.type = .socket ∧ s.lfd = true

variable {fork : Option Nat} {cmd : Command} {interrupted marked : Bool} {st st' : Init}

section Rows

variable {con : List UInt8} {mktime : Int → Int → Int → Int} {name : Name} {P : Svc → Prop}
  {starts : List Name} {reboots : Bool} {w w' : World} {i : Nat} {s s' : Svc}

namespace Off

section

variable (h : Off name P starts reboots w)
include h

theorem congr (hsvcs : w'.svcs = w.svcs) (hstarts : w'.starts = w.starts)
    (hdisabled : w'.disabled = w.disabled) : Off name P starts reboots w' :=
  ⟨hsvcs ▸ h.rows, hstarts ▸ h.starts, hdisabled ▸ h.marker⟩

theorem setSvc (hs' : s'.name = name → P s') : Off name P starts reboots (w.setSvc i s') where
  rows t ht := by
    rcases List.mem_or_eq_of_mem_set ht with ht | rfl
    · exact h.rows t ht
    · exact hs'
  starts := h.starts
  marker := h.marker

theorem startService (hs : w.svcs[i]? = some s) (hne : s.name ≠ name) (fork : Option Nat) :
    Off name P starts reboots (w.startService con i fork) := by
  unfold World.startService
  simp only [hs]
  split
  · cases fork with
    | none => exact h
    | some p =>
      refine ⟨fun t ht => ?_, ?_, h.marker⟩
      · rcases List.mem_or_eq_of_mem_set ht with ht | rfl
        · exact h.rows t ht
        · exact fun hn => absurd hn hne
      · obtain ⟨l, hl, hn⟩ := h.starts
        refine ⟨l ++ [s.name], ?_, ?_⟩
        · dsimp only
          rw [hl, List.append_assoc]
        · rw [List.mem_append, List.mem_singleton, not_or]
          exact ⟨hn, hne.symm⟩
  · exact h

theorem run (hs : w.svcs[i]? = some s) (hne : s.name ≠ name) (hr : run con w i fork = some w') :
    Off name P starts reboots w' := by
  unfold Urverk.run at hr
  split at hr
  · cases hr
    exact h.startService hs hne fork
  · cases hr

theorem setSvc_run (hr : Urverk.run con (w.setSvc i s') i fork = some w') (hi : i < w.svcs.length)
    (hne : s'.name ≠ name) : Off name P starts reboots w' :=
  run (h.setSvc fun hn => absurd hn hne) (World.setSvc_self hi) hne hr

end

end Off

/-- What a poll has looked at is still so. -/
def Kept (w w' : World) : Prop :=
  ∀ (j : Nat) s, w.svcs[j]? = some s → ∃ s', w'.svcs[j]? = some s' ∧ s'.name = s.name ∧
    s'.type = s.type ∧ s'.lfd = s.lfd

namespace Kept

theorem refl (w : World) : Kept w w := fun _ s hs => ⟨s, hs, rfl, rfl, rfl⟩

theorem trans {w'' : World} (h : Kept w w') (h' : Kept w' w'') : Kept w w'' := by
  intro j s hs
  obtain ⟨s', hs', hn, ht, hl⟩ := h j s hs
  obtain ⟨s'', hs'', hn', ht', hl'⟩ := h' j s' hs'
  exact ⟨s'', hs'', hn'.trans hn, ht'.trans ht, hl'.trans hl⟩

theorem set (hs : w.svcs[i]? = some s) (hsvcs : w'.svcs = w.svcs.set i s') (hn : s'.name = s.name)
    (ht : s'.type = s.type) (hl : s'.lfd = s.lfd) : Kept w w' := by
  intro j t hj
  rw [hsvcs]
  by_cases hij : i = j
  · subst hij
    obtain rfl : s = t := some.inj (hs.symm.trans hj)
    exact ⟨s', List.getElem?_set_self (List.getElem?_eq_some_iff.1 hs).1, hn, ht, hl⟩
  · exact ⟨t, by rw [List.getElem?_set_ne hij, hj], rfl, rfl, rfl⟩

theorem startService (w : World) (i : Nat) (fork : Option Nat) :
    Kept w (w.startService con i fork) := by
  cases hs : w.svcs[i]? with
  | none =>
    simp only [World.startService, hs]
    exact refl w
  | some s =>
    unfold World.startService
    simp only [hs]
    split
    · cases fork with
      | none => exact refl w
      | some p => exact set hs rfl rfl rfl rfl
    · exact refl w

theorem run (hr : run con w i fork = some w') : Kept w w' := by
  unfold Urverk.run at hr
  split at hr
  · cases hr
    exact startService w i fork
  · cases hr

end Kept

theorem stopService_svcs (hs : w.svcs[i]? = some s) (interrupted : Bool) :
    (w.stopService i interrupted).svcs = w.svcs.set i { s with pid := 0 } := by
  unfold World.stopService
  simp only [hs]
  split
  · rename_i hp
    rw [← hp, set_self hs]
  · cases interrupted <;> rfl

theorem stopService_rest (w : World) (i : Nat) (interrupted : Bool) :
    (w.stopService i interrupted).starts = w.starts ∧
      (w.stopService i interrupted).disabled = w.disabled := by
  unfold World.stopService
  split
  · exact ⟨rfl, rfl⟩
  · split
    · exact ⟨rfl, rfl⟩
    · cases interrupted <;> exact ⟨rfl, rfl⟩

theorem stopFor_svcs (hs : w.svcs[i]? = some s) (interrupted : Bool) :
    (stopFor w i interrupted).svcs = w.svcs.set i { s with pid := 0, respawn := .no } := by
  have hi : i < w.svcs.length := (List.getElem?_eq_some_iff.1 hs).1
  have hsvcs := stopService_svcs hs interrupted
  unfold stopFor
  dsimp only
  rw [hsvcs, List.getElem?_set_self hi]
  dsimp only [World.setSvc]
  rw [hsvcs, List.set_set]

theorem stopFor_rest (w : World) (i : Nat) (interrupted : Bool) :
    (stopFor w i interrupted).starts = w.starts ∧
      (stopFor w i interrupted).disabled = w.disabled := by
  unfold stopFor
  dsimp only
  split <;> exact stopService_rest w i interrupted

/-! ## One operation -/

theorem Settled.stopped {stopping : Bool} (h : Settled stopping s) :
    Settled false { s with pid := 0, respawn := .no } := by
  unfold Settled at h ⊢
  cases ht : s.type <;> simp_all

theorem timerSchedule_name (now : Int) (s : Svc) : (timerSchedule mktime now s).name = s.name := by
  unfold timerSchedule
  split <;> rfl

theorem shouldRespawn_name (clean : Bool) (now : Int) (s : Svc) :
    (shouldRespawn clean now s).1.name = s.name := by
  unfold shouldRespawn
  split
  · rfl
  · split
    · rfl
    · dsimp only
      split <;> split <;> rfl

theorem Settled.socket (h : Settled false s) (ht : s.type = .socket) : s.pid = 0 := by
  simp only [Settled, ht] at h
  simpa using h.2

theorem Settled.simple (h : Settled false s) (ht : s.type = .simple) (hp : s.pid ≠ 0) :
    s.respawn = .no := by
  simp only [Settled, ht] at h
  simpa [hp] using h

/-- Services of the name are settled and have not been started since. -/
abbrev Quiet (name : Name) (starts : List Name) (reboots : Bool) (w : World) : Prop :=
  Off name (Settled false) starts reboots w

namespace Off

theorem set_svcs (h : Off name P starts reboots w) (hsvcs : w'.svcs = w.svcs.set i s')
    (hrest : w'.starts = w.starts ∧ w'.disabled = w.disabled) (hs' : s'.name = name → P s') :
    Off name P starts reboots w' := by
  have hset : Off name P starts reboots (w.setSvc i s') := h.setSvc hs'
  exact hset.congr hsvcs hrest.1 hrest.2

section

variable (h : Quiet name starts reboots w)
include h

theorem stopFor (i : Nat) (interrupted : Bool) :
    Quiet name starts reboots (stopFor w i interrupted) := by
  cases hs : w.svcs[i]? with
  | none =>
    have hstop : w.stopService i interrupted = w := by
      unfold World.stopService
      simp only [hs]
    unfold Urverk.stopFor
    dsimp only
    rw [hstop, hs]
    exact h
  | some s =>
    refine h.set_svcs (stopFor_svcs hs interrupted) (stopFor_rest w i interrupted) fun hn => ?_
    exact (h.rows s (List.mem_of_getElem? hs) hn).stopped

theorem ctlHandle (hcmd : cmd ≠ .start name) (henable : reboots = true → cmd ≠ .enable name)
    (hr : ctlHandle con w cmd interrupted marked fork = some w') :
    Quiet name starts reboots w' := by
  cases cmd with
  | stop x =>
    simp only [Urverk.ctlHandle] at hr
    split at hr
    · cases hr
      exact h
    · cases hr
      exact h.stopFor _ _
  | start x =>
    simp only [Urverk.ctlHandle] at hr
    split at hr
    · cases hr
      exact h
    · rename_i i hi
      obtain ⟨s, hs, hx⟩ := svcByName_some hi
      have hlt : i < w.svcs.length := (List.getElem?_eq_some_iff.1 hs).1
      have hne : s.name ≠ name := by
        rintro rfl
        exact hcmd (by rw [hx])
      have hsvcs := stopService_svcs hs interrupted
      have hself : (w.stopService i interrupted).svcs[i]? = some { s with pid := 0 } := by
        rw [hsvcs, List.getElem?_set_self hlt]
      rw [hself] at hr
      dsimp only at hr
      have hstop : Quiet name starts reboots (w.stopService i interrupted) :=
        h.set_svcs hsvcs (stopService_rest w i interrupted) fun hn => absurd hn hne
      exact hstop.setSvc_run hr (List.getElem?_eq_some_iff.1 hself).1 hne
  | enable x =>
    simp only [Urverk.ctlHandle] at hr
    split at hr <;> cases hr
    · exact h
    · refine ⟨h.rows, h.starts, fun hb => List.mem_filter.2 ⟨h.marker hb, ?_⟩⟩
      have hne : name ≠ x := fun he => henable hb (by rw [he])
      simpa using hne
  | disable x =>
    simp only [Urverk.ctlHandle] at hr
    split at hr
    · cases hr
      exact h
    · cases hr
      apply stopFor
      split
      · exact ⟨h.rows, h.starts, fun hb => List.mem_cons_of_mem x (h.marker hb)⟩
      · exact h
  | shutdown | other =>
    cases hr
    exact h

theorem onConnection (hs : w.svcs[i]? = some s) (ht : s.type = .socket) (hlfd : s.lfd = true)
    (hr : onConnection con w i fork = some w') : Quiet name starts reboots w' := by
  have hne : s.name ≠ name := by
    intro hn
    have hset := h.rows s (List.mem_of_getElem? hs) hn
    simp [Settled, ht, hlfd] at hset
  have hi : i < w.svcs.length := (List.getElem?_eq_some_iff.1 hs).1
  simp only [Urverk.onConnection, hs] at hr
  exact h.setSvc_run hr hi hne

theorem onTimer {now : Int} (hr : onTimer con mktime w now i fork = some w') :
    Quiet name starts reboots w' := by
  unfold Urverk.onTimer at hr
  split at hr
  · cases hr
    exact h
  · rename_i s hs
    have hi : i < w.svcs.length := (List.getElem?_eq_some_iff.1 hs).1
    split at hr
    · rename_i hdue
      obtain ⟨ht, -, hnext, -⟩ := of_decide_eq_true hdue
      have hne : s.name ≠ name := by
        intro hn
        have hset := h.rows s (List.mem_of_getElem? hs) hn
        simp [Settled, ht, hnext] at hset
      obtain ⟨w1, hw1, hr⟩ := map_eq_some_iff.1 hr
      have hrun : Quiet name starts reboots w1 := h.setSvc_run hw1 hi hne
      obtain ⟨s1, hs1, hname, -, -⟩ := Kept.run hw1 i _ (World.setSvc_self hi)
      rw [hs1] at hr
      subst hr
      refine hrun.setSvc fun hn => absurd ?_ hne
      rw [timerSchedule_name] at hn
      exact hname.symm.trans hn
    · cases hr
      exact h

end

theorem reaped (h : Off name P starts reboots w) (p : Nat) : Off name P starts reboots (w.reaped p) :=
  h.congr rfl rfl rfl

theorem onReap (h : Quiet name starts reboots w) {shutdown clean listens : Bool} {p : Nat} {now : Int}
    (hp : p ≠ 0)
    (hr : onReap con w shutdown p clean now listens fork = some w') : Quiet name starts reboots w' := by
  unfold Urverk.onReap at hr
  dsimp only at hr
  split at hr
  · cases hr
    exact h.reaped p
  · rename_i i hi
    obtain ⟨s, hs, hsp⟩ := World.svcByPid_some hi
    have hlt : i < w.svcs.length := (List.getElem?_eq_some_iff.1 hs).1
    have hset : s.name = name → Settled false s := h.rows s (List.mem_of_getElem? hs)
    rw [show (w.reaped p).svcs[i]? = some s from hs] at hr
    dsimp only at hr
    split at hr
    · rename_i ht
      cases hr
      refine (h.reaped p).setSvc fun _ => ?_
      simp [Settled, ht]
    · rename_i ht
      cases hr
      refine (h.reaped p).setSvc fun hn => ?_
      have := hset hn
      simpa [Settled, ht] using this
    · rename_i hno hnt
      split at hr
      · rename_i hsock
        cases hr
        refine (h.reaped p).setSvc fun hn => ?_
        have hn : s.name = name := by
          rw [← hn]
          unfold socketListen
          split <;> rfl
        exact absurd (hsp.symm.trans ((hset hn).socket hsock.1)) hp
      · split at hr
        · cases hr
          refine (h.reaped p).setSvc fun hn => ?_
          have := hset hn
          unfold Settled at this ⊢
          cases ht : s.type <;> simp_all
        · rename_i hnosock hshut
          have ht : s.type = .simple := by
            cases ht : s.type
            · rfl
            · exact absurd ht hno
            · exact absurd ht hnt
            · exact absurd ⟨ht, by simpa using hshut⟩ hnosock
          have hname := shouldRespawn_name clean now { s with pid := 0 }
          by_cases hn : s.name = name
          · have hresp : s.respawn = .no := (hset hn).simple ht (hsp ▸ hp)
            simp only [shouldRespawn, hresp, if_true] at hr
            cases hr
            exact (h.reaped p).setSvc fun _ => by simp [Settled, ht]
          · split at hr
            · exact (h.reaped p).setSvc_run hr hlt fun hn' => hn (hname.symm.trans hn')
            · cases hr
              exact (h.reaped p).setSvc fun hn' => absurd (hname.symm.trans hn') hn

end Off

namespace Kept

theorem stopService (w : World) (i : Nat) (interrupted : Bool) :
    Kept w (w.stopService i interrupted) := by
  cases hs : w.svcs[i]? with
  | none =>
    simp only [World.stopService, hs]
    exact refl w
  | some s => exact set hs (stopService_svcs hs interrupted) rfl rfl rfl

theorem stopFor (w : World) (i : Nat) (interrupted : Bool) : Kept w (stopFor w i interrupted) := by
  have hstop := stopService w i interrupted
  unfold Urverk.stopFor
  dsimp only
  split
  · rename_i s hs
    exact hstop.trans (set hs rfl rfl rfl rfl)
  · exact hstop

theorem ctlHandle (hr : ctlHandle con w cmd interrupted marked fork = some w') : Kept w w' := by
  cases cmd with
  | stop x =>
    simp only [Urverk.ctlHandle] at hr
    split at hr <;> cases hr
    · exact refl w
    · exact stopFor w _ _
  | start x =>
    simp only [Urverk.ctlHandle] at hr
    split at hr
    · cases hr
      exact refl w
    · rename_i i _
      have hstop := stopService w i interrupted
      split at hr
      · cases hr
        exact hstop
      · rename_i s hs
        have hset : Kept (w.stopService i interrupted)
            ((w.stopService i interrupted).setSvc i { s with restarts := 0 }) :=
          set hs rfl rfl rfl rfl
        exact (hstop.trans hset).trans (run hr)
  | enable x =>
    simp only [Urverk.ctlHandle] at hr
    split at hr <;> cases hr <;> exact refl w
  | disable x =>
    simp only [Urverk.ctlHandle] at hr
    split at hr
    · cases hr
      exact refl w
    · cases hr
      split
      · exact stopFor { w with disabled := x :: w.disabled } _ _
      · exact stopFor w _ _
  | shutdown | other =>
    cases hr
    exact refl w

end Kept

/-! ## A run -/

theorem Listening.kept (h : Listening st) (hw : Kept st.w st'.w)
    (hp : ∀ ctl conns, st'.phase = .events ctl conns → ∃ ctl', st.phase = .events ctl' conns) :
    Listening st' := by
  intro ctl conns hphase
  obtain ⟨ctl', hphase'⟩ := hp ctl conns hphase
  obtain ⟨hnodup, hall⟩ := h ctl' conns hphase'
  refine ⟨hnodup, fun i hi => ?_⟩
  obtain ⟨s, hs, ht, hl⟩ := hall i hi
  obtain ⟨s', hs', -, ht', hl'⟩ := hw i s hs
  exact ⟨s', hs', ht'.trans ht, hl'.trans hl⟩

theorem Listening.elsewhere (hp : ∀ ctl conns, st.phase ≠ .events ctl conns) :
    Listening st := fun ctl conns hphase => absurd hphase (hp ctl conns)

theorem mem_polled {w : World} {i : Nat} (h : i ∈ polled w) :
    ∃ s, w.svcs[i]? = some s ∧ s.type = .socket ∧ s.lfd = true := by
  obtain ⟨-, h⟩ := List.mem_filter.1 h
  split at h
  · rename_i s hs
    have := of_decide_eq_true h
    exact ⟨s, hs, this.1, this.2.1⟩
  · cases h

theorem Listening.step {op : Op} (h : Listening st)
    (hs : step con mktime st op = some st') : Listening st' := by
  cases step_move con mktime hs with
  | @poll ctl conns hphase hconns =>
    intro ctl' conns' hphase'
    cases hphase'
    refine ⟨(List.nodup_range.filter _).sublist hconns, fun i hi => ?_⟩
    exact mem_polled (hconns.subset hi)
  | command hphase hw =>
    refine h.kept (Kept.ctlHandle hw) fun ctl conns hp => ?_
    cases hp
    exact ⟨true, hphase⟩
  | @connection fork i conns w hphase hw =>
    obtain ⟨hnodup, hall⟩ := h false (i :: conns) hphase
    obtain ⟨hi, hnodup⟩ := List.nodup_cons.1 hnodup
    intro ctl' conns' hp
    cases hp
    refine ⟨hnodup, fun j hj => ?_⟩
    obtain ⟨s, hs, ht, hl⟩ := hall j (List.mem_cons_of_mem i hj)
    have hij : j ≠ i := fun he => hi (he ▸ hj)
    obtain ⟨r, hr, -, -⟩ := hall i List.mem_cons_self
    simp only [Urverk.onConnection, hr] at hw
    obtain ⟨s', hs', -, ht', hl'⟩ := Kept.run hw j s (by rw [World.setSvc_of_ne hij]; exact hs)
    exact ⟨s', hs', ht'.trans ht, hl'.trans hl⟩
  | clock | timer _ => exact Listening.elsewhere nofun
  | timersDone | pass => exact .elsewhere nofun
  | reap hphase _ _ =>
    exact .elsewhere fun _ _ hp => Phase.noConfusion (hphase.symm.trans hp)
  | exit | adopt _ | signal => exact h.kept (.refl st.w) fun ctl _ hp => ⟨ctl, hp⟩

/-- The command is one that starts a service of the name. -/
def Op.Starts (name : Name) : Op → Prop
  | .command text _ _ _ => parseCommand text = .start name
  | _ => False

/-- The command is one that takes the marker of the name away. -/
def Op.Enables (name : Name) : Op → Prop
  | .command text _ _ _ => parseCommand text = .enable name
  | _ => False

theorem Off.step {op : Op} (h : Quiet name starts reboots st.w) (hl : Listening st)
    (hop : ¬ op.Starts name) (henable : reboots = true → ¬ op.Enables name)
    (hs : step con mktime st op = some st') : Quiet name starts reboots st'.w := by
  cases step_move con mktime hs with
  | poll _ _ | clock | timersDone | pass | signal => exact h
  | command _ hw => exact h.ctlHandle hop henable hw
  | @connection fork i conns w hphase hw =>
    obtain ⟨s, hs, ht, hlfd⟩ := (hl false (i :: conns) hphase).2 i List.mem_cons_self
    exact h.onConnection hs ht hlfd hw
  | timer hw => exact h.onTimer hw
  | reap _ hp hw => exact h.onReap (Nat.pos_iff_ne_zero.1 hp) hw
  | exit | adopt _ => exact h.congr rfl rfl rfl

/-! ## A boot -/

/-- A service that a boot passes over. -/
def Passed (s : Svc) : Prop := s.started = true ∧ Settled false s

namespace Off

variable {env : BootEnv} {b b' : Boot}

theorem bootService (h : Off name P starts reboots b.w) (hs : b.w.svcs[i]? = some s)
    (hne : s.name ≠ name) {fallback : Bool} (hb : bootService env b i s fallback = some b') :
    Off name P starts reboots b'.w ∧ Kept b.w b'.w := by
  unfold Urverk.bootService at hb
  split at hb
  · cases hb
  · cases hb
    exact ⟨h.startService hs hne _, .startService _ _ _⟩

theorem awaitOneshot (h : Off name P starts reboots w) (hs : w.svcs[i]? = some s)
    (hne : s.name ≠ name) : Off name P starts reboots (awaitOneshot env w i) := by
  simp only [Urverk.awaitOneshot, hs]
  split
  · exact h
  · split
    · exact (h.reaped s.pid).setSvc fun hn => absurd hn hne
    · exact h.setSvc fun hn => absurd hn hne

theorem handle (h : Off name P starts reboots b.w) (hs : b.w.svcs[i]? = some s)
    (hne : s.name ≠ name) (hb : handle env b i s = some b') : Off name P starts reboots b'.w := by
  unfold Urverk.handle at hb
  split at hb
  · cases hb
    exact h.setSvc fun hn => absurd ((timerSchedule_name _ s).symm.trans hn) hne
  · cases hb
    refine h.setSvc fun hn => absurd (Eq.trans ?_ hn) hne
    unfold socketListen
    split <;> rfl
  · exact (h.bootService hs hne hb).1
  · obtain ⟨b1, hb1, hb⟩ := map_eq_some_iff.1 hb
    subst hb
    obtain ⟨hoff, hkept⟩ := h.bootService hs hne hb1
    obtain ⟨s1, hs1, hname, -, -⟩ := hkept i s hs
    exact hoff.awaitOneshot hs1 (hname ▸ hne)

theorem invariant (env : BootEnv) (name : Name) (starts : List Name) (reboots : Bool) :
    BootInvariant env (Off name Passed starts reboots) := by
  have hne : ∀ {w : World} {i : Nat} {s : Svc}, Off name Passed starts reboots w →
      w.svcs[i]? = some s → s.started = false → s.name ≠ name := by
    intro w i s h hs hu hn
    have hst := (h.rows s (List.mem_of_getElem? hs) hn).1
    rw [hu] at hst
    cases hst
  exact ⟨fun h hs hu hb => h.handle hs (hne h hs hu) hb,
    fun h hs hu hb => (h.bootService hs (hne h hs hu) hb).1⟩

end Off

theorem Settled.of_still (hp : s.pid = 0) (hnext : s.nextRun = 0) (hlfd : s.lfd = false) :
    Settled false s := by
  unfold Settled
  split <;> simp [hp, hnext, hlfd]

/-- What is turned off and comes from a file is passed over. -/
theorem loadServices_passed {disabled : List Name} {dir : Option (List Svc)}
    (hoff : name ∈ disabled)
    (hfile : ∀ s ∈ loadServices disabled dir, s.name = name → s ∉ builtin) :
    ∀ s ∈ loadServices disabled dir, s.name = name → Passed s := by
  have hrow : ∀ s ∈ loadServices disabled dir, s.name = name → s ∈ builtin ∨ Passed s := by
    apply loadServices_rec (P := fun svcs => ∀ s ∈ svcs, s.name = name → s ∈ builtin ∨ Passed s)
    · exact List.forall_mem_nil _
    · intro svcs file h _ hon s hs hn
      rcases List.mem_append.1 hs with hs | hs
      · exact h s hs hn
      · rw [List.mem_singleton] at hs
        subst hs
        exact absurd (hn ▸ hoff) hon
    · intro svcs file h _ _ s hs hn
      rcases List.mem_append.1 hs with hs | hs
      · exact h s hs hn
      · rw [List.mem_singleton] at hs
        subst hs
        exact .inr ⟨rfl, .of_still rfl rfl rfl⟩
    · intro svcs b hb h _ _ s hs hn
      rcases List.mem_append.1 hs with hs | hs
      · exact h s hs hn
      · rw [List.mem_singleton] at hs
        exact .inl (hs ▸ hb)
  intro s hs hn
  exact (hrow s hs hn).resolve_left (hfile s hs hn)

end Rows

/-! ## Reboots -/

/-- The machine: what a boot asked of it, and where urverk is. -/
structure Host where
  env : BootEnv
  st : Init

inductive Event
  | op (op : Op)
  | boot (env : BootEnv) (dir : Option (List Svc)) (kids : List Kid)

/-- The table of a new boot. The markers are on the disk. -/
def Host.rebooted (h : Host) (dir : Option (List Svc)) (kids : List Kid) : World :=
  { boot h.st.w.disabled dir kids with starts := h.st.w.starts }

/-- One operation of the loop, or a boot up to where the loop begins. -/
def Host.step (h : Host) : Event → Option Host
  | .op op => (Urverk.step h.env.con h.env.mktime h.st op).map fun st => { h with st }
  | .boot env dir kids => (startAll env (h.rebooted dir kids)).map fun b => ⟨env, ⟨b.w, .top, false⟩⟩

/-- A machine that is off. -/
def Host.down (env : BootEnv) (disabled : List Name) : Host :=
  ⟨env, ⟨⟨[], [], disabled, []⟩, .top, true⟩⟩

inductive Life : Host → List Event → Host → Prop
  | nil (h : Host) : Life h [] h
  | cons {h h' h'' : Host} {e : Event} {es : List Event} : h.step e = some h' → Life h' es h'' →
    Life h (e :: es) h''

/-- Until `name` is turned on again: no command starts it. Across reboots, none takes its
marker away either, and at no boot is it a built-in service. -/
def Event.Leaves (name : Name) (reboots : Bool) (h : Host) : Event → Prop
  | .op o => ¬ o.Starts name ∧ (reboots = true → ¬ o.Enables name)
  | .boot _ dir _ =>
    reboots = true ∧ ∀ s ∈ loadServices h.st.w.disabled dir, s.name = name → s ∉ builtin

/-- A life in which `name` is left turned off. -/
inductive LeftOff (name : Name) (reboots : Bool) : Host → List Event → Host → Prop
  | nil (h : Host) : LeftOff name reboots h [] h
  | cons {h h' h'' : Host} {e : Event} {es : List Event} : e.Leaves name reboots h →
    h.step e = some h' → LeftOff name reboots h' es h'' → LeftOff name reboots h (e :: es) h''

/-- Between the one and the other no service of the name has been started. -/
def NotStarted (name : Name) (h h' : Host) : Prop :=
  ∃ l, h'.st.w.starts = h.st.w.starts ++ l ∧ name ∉ l

section Life

variable {name : Name} {starts : List Name} {reboots : Bool} {h h' : Host} {es : List Event}

theorem Host.step_listening {e : Event} (hl : Listening h.st) (hs : h.step e = some h') :
    Listening h'.st := by
  cases e with
  | op op =>
    obtain ⟨st, hst, rfl⟩ := map_eq_some_iff.1 hs
    exact hl.step hst
  | boot env dir kids =>
    obtain ⟨b, -, rfl⟩ := map_eq_some_iff.1 hs
    exact .elsewhere nofun

theorem Life.listening (hlife : Life h es h') (hl : Listening h.st) : Listening h'.st := by
  induction hlife with
  | nil => exact hl
  | cons hs _ ih => exact ih (Host.step_listening hl hs)

theorem Off.event {e : Event} (hoff : Quiet name starts reboots h.st.w) (hl : Listening h.st)
    (he : e.Leaves name reboots h) (hs : h.step e = some h') :
    Quiet name starts reboots h'.st.w := by
  cases e with
  | op op =>
    obtain ⟨st, hst, rfl⟩ := map_eq_some_iff.1 hs
    exact hoff.step hl he.1 he.2 hst
  | boot env dir kids =>
    obtain ⟨b, hb, rfl⟩ := map_eq_some_iff.1 hs
    obtain ⟨rfl, hfile⟩ := he
    have hload : Off name Passed starts true (h.rebooted dir kids) :=
      ⟨loadServices_passed (hoff.marker rfl) hfile, hoff.starts, hoff.marker⟩
    have hboot := (Off.invariant env name starts true).startAll hload hb
    exact ⟨fun s hs hn => (hboot.rows s hs hn).2, hboot.starts, hboot.marker⟩

theorem LeftOff.quiet (hlife : LeftOff name reboots h es h')
    (hoff : Quiet name starts reboots h.st.w) (hl : Listening h.st) :
    Quiet name starts reboots h'.st.w := by
  induction hlife with
  | nil => exact hoff
  | cons he hs _ ih => exact ih (hoff.event hl he hs) (Host.step_listening hl hs)

theorem Stoppable.stopFor {w : World} (hstop : Stoppable name w) {i : Nat}
    (hi : svcByName w.svcs name = some i) (interrupted : Bool) :
    ∀ s ∈ (stopFor w i interrupted).svcs, s.name = name → Settled false s := by
  obtain ⟨s, hs, hname⟩ := svcByName_some hi
  intro t ht hn
  obtain ⟨j, hj⟩ := List.getElem?_of_mem ht
  rw [stopFor_svcs hs] at hj
  by_cases hij : i = j
  · subst hij
    rw [List.getElem?_set_self (List.getElem?_eq_some_iff.1 hs).1, Option.some.injEq] at hj
    subst hj
    exact (hstop i s hs hname).stopped
  · rw [List.getElem?_set_ne hij] at hj
    have hset := hstop j t hj hn
    have hno : svcByName w.svcs name ≠ some j := fun he => hij (some.inj (hi.symm.trans he))
    rwa [decide_eq_false hno] at hset

theorem svcByName_none {svcs : List Svc} (hi : svcByName svcs name = none) :
    ∀ s ∈ svcs, s.name ≠ name := fun s hs => by
  simpa using List.findIdx?_eq_none_iff.1 hi s hs

/-- What a stop leaves, and a disabling whose marker is written. -/
theorem Stoppable.quiet {con : List UInt8} {w w' : World} (hstop : Stoppable name w)
    (hcmd : cmd = .stop name ∧ reboots = false ∨ cmd = .disable name ∧ reboots = marked ∧
      (svcByName w.svcs name).isSome = true)
    (hr : ctlHandle con w cmd interrupted marked fork = some w') :
    Quiet name w'.starts reboots w' := by
  have hself : ∀ starts : List Name, ∃ l, starts = starts ++ l ∧ name ∉ l :=
    fun starts => ⟨[], (List.append_nil starts).symm, List.not_mem_nil⟩
  rcases hcmd with ⟨rfl, rfl⟩ | ⟨rfl, rfl, hsome⟩
  · simp only [ctlHandle] at hr
    split at hr <;> cases hr
    · rename_i hi
      exact ⟨fun s hs hn => absurd hn (svcByName_none hi s hs), hself _, by rintro ⟨⟩⟩
    · rename_i i hi
      exact ⟨hstop.stopFor hi interrupted, hself _, by rintro ⟨⟩⟩
  · obtain ⟨i, hi⟩ := Option.isSome_iff_exists.1 hsome
    simp only [ctlHandle, hi] at hr
    cases hr
    cases reboots with
    | true =>
      refine ⟨hstop.stopFor (w := { w with disabled := name :: w.disabled }) hi interrupted,
        hself _, fun _ => ?_⟩
      rw [if_pos rfl, (stopFor_rest _ i interrupted).2]
      exact List.mem_cons_self
    | false => exact ⟨hstop.stopFor hi interrupted, hself _, by rintro ⟨⟩⟩

end Life

/-- After a `stop` that finds the services of the name settled, none of them is started in that
boot until a command starts it; and after a `disable` that finds them so none is in that boot,
nor, if the marker could be written, in a later one at which it is not a built-in service, until
a command starts it or takes the marker away. -/
theorem off_means_off {env : BootEnv} {disabled : List Name} {es : List Event} {h h' : Host}
    {name : Name} {text : List UInt8} {interrupted marked : Bool} {fork : Option Nat}
    (hlife : Life (.down env disabled) es h)
    (hs : h.step (.op (.command text interrupted marked fork)) = some h')
    (hstop : Stoppable name h.st.w) : (parseCommand text = .stop name →
      ∀ es' h'', LeftOff name false h' es' h'' → NotStarted name h' h'') ∧
    (parseCommand text = .disable name → (svcByName h.st.w.svcs name).isSome = true →
      ∀ es' h'', LeftOff name marked h' es' h'' → NotStarted name h' h'') := by
  have hl : Listening h.st := hlife.listening (.elsewhere nofun)
  have hl' : Listening h'.st := Host.step_listening hl hs
  obtain ⟨st, hst, rfl⟩ := map_eq_some_iff.1 hs
  cases step_move _ _ hst with
  | command hphase hw =>
    refine ⟨fun hcmd es' h'' hrest => ?_, fun hcmd hsome es' h'' hrest => ?_⟩
    · exact (hrest.quiet (hstop.quiet (.inl ⟨hcmd, rfl⟩) hw) hl').starts
    · exact (hrest.quiet (hstop.quiet (.inr ⟨hcmd, rfl, hsome⟩) hw) hl').starts

theorem Life.of_foldlM {es : List Event} {h h' : Host} (hf : es.foldlM Host.step h = some h') :
    Life h es h' := by
  induction es generalizing h with
  | nil =>
    cases hf
    exact .nil _
  | cons e es ih =>
    obtain ⟨h1, hs, hf⟩ := bind_eq_some_iff.1 hf
    exact .cons hs (ih hf)

/-- A service that is always brought back. -/
def app : Svc where
  name := ascii "app"
  exec := ascii "/usr/bin/app"
  respawn := .always

/-- It is disabled while it runs, and the machine is booted again. -/
theorem off_means_off_app : ∃ h h' h'',
    Life (.down calm []) [.boot calm (some [app]) [], .op (.poll true [])] h ∧
    h.step (.op (.command (ascii "disable app") false true none)) = some h' ∧
    LeftOff (ascii "app") true h' [.boot calm (some [app]) []] h'' ∧
    NotStarted (ascii "app") h' h'' := by
  let before := [Event.boot calm (some [app]) [], .op (.poll true [])].foldlM Host.step (.down calm [])
  let disable := fun h : Host => h.step (.op (.command (ascii "disable app") false true none))
  let again := fun h : Host => h.step (.boot calm (some [app]) [])
  have hfacts : (before.bind fun h => (disable h).bind fun h' => (again h').map fun h'' =>
      (h, h', h'')).map (fun r : Host × Host × Host => decide (Stoppable (ascii "app") r.1.st.w ∧
        (svcByName r.1.st.w.svcs (ascii "app")).isSome = true ∧
        ∀ s ∈ loadServices r.2.1.st.w.disabled (some [app]), s.name = ascii "app" → s ∉ builtin)) =
      some true := by decide
  obtain ⟨⟨h, h', h''⟩, hr, hfacts⟩ := map_eq_some_iff.1 hfacts
  obtain ⟨g, hbefore, hr⟩ := bind_eq_some_iff.1 hr
  obtain ⟨g', hdisable, hr⟩ := bind_eq_some_iff.1 hr
  obtain ⟨g'', hagain, hr⟩ := map_eq_some_iff.1 hr
  cases hr
  obtain ⟨hstop, hsome, hfile⟩ := of_decide_eq_true hfacts
  have hlife := Life.of_foldlM hbefore
  have hleft : LeftOff (ascii "app") true h' [.boot calm (some [app]) []] h'' :=
    .cons ⟨rfl, hfile⟩ hagain (.nil h'')
  exact ⟨h, h', h'', hlife, hdisable, hleft,
    (off_means_off hlife hdisable hstop).2 (by decide) hsome _ _ hleft⟩

theorem NotStarted.not_mem_drop {name : Name} {h h' : Host} (hn : NotStarted name h h') :
    name ∉ h'.st.w.starts.drop h.st.w.starts.length := by
  obtain ⟨l, hl, hmem⟩ := hn
  rwa [hl, List.drop_left]

/-- A timer that needs nothing. -/
def backup : Svc where
  name := ascii "backup"
  exec := ascii "/sbin/backup"
  type := .timer
  everySec := 3600

/-- A timer that has been stopped goes off in its time, and the ssh server that has been disabled
is started at the next boot: no command is given in between. -/
theorem off_is_not_off :
    (¬ ∀ h h' h'', Life (.down calm []) [.boot calm (some [backup]) [], .op (.poll true [])] h →
      h.step (.op (.command (ascii "stop backup") false false none)) = some h' →
      Life h' [.op (.clock 5000), .op (.timer (some 50))] h'' → NotStarted (ascii "backup") h' h'') ∧
    ¬ ∀ h h' h'', Life (.down calm []) [.boot calm none [], .op (.poll true [])] h →
      h.step (.op (.command (ascii "disable sshd") false true none)) = some h' →
      Life h' [.boot calm none []] h'' → NotStarted (ascii "sshd") h' h'' := by
  have hrun : ∀ {es es' : List Event} {cmd : Event} {name : Name},
      (((es.foldlM Host.step (.down calm [])).bind fun h => (h.step cmd).bind fun h' =>
        (es'.foldlM Host.step h').map fun h'' => (h, h', h'')).map fun r : Host × Host × Host =>
          decide (name ∈ r.2.2.st.w.starts.drop r.2.1.st.w.starts.length)) = some true →
      ¬ ∀ h h' h'', Life (.down calm []) es h → h.step cmd = some h' → Life h' es' h'' →
        NotStarted name h' h'' := by
    intro es es' cmd name hfacts hall
    obtain ⟨⟨h, h', h''⟩, hr, hmem⟩ := map_eq_some_iff.1 hfacts
    obtain ⟨g, hbefore, hr⟩ := bind_eq_some_iff.1 hr
    obtain ⟨g', hcmd, hr⟩ := bind_eq_some_iff.1 hr
    obtain ⟨g'', hafter, hr⟩ := map_eq_some_iff.1 hr
    cases hr
    have hn := hall h h' h'' (Life.of_foldlM hbefore) hcmd (Life.of_foldlM hafter)
    exact hn.not_mem_drop (of_decide_eq_true hmem)
  exact ⟨hrun (by decide), hrun (by decide)⟩

end Verkos.Urverk
