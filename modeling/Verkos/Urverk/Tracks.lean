import Verkos.Urverk.Order
import Verkos.Urverk.Supervise
import Mathlib.Data.List.Nodup

/-!
# One child per service

`Tracks` ties the table to the children: a pid in the table is that of a child that was forked for
the service, and a child that was forked for a service is in the table. Starting a service keeps
it if the service has no pid, and that is what every caller of `start_service` looks at, except
that the loop looks at the pid of a socket service when it polls and not when it handles the
connection.
-/

namespace Verkos.Urverk

open Option (some.injEq map_eq_some_iff bind_eq_some_iff map_some)

/-- The table and the children agree. -/
structure Tracks (w : World) : Prop where
  pid : ∀ (i : Nat) s, w.svcs[i]? = some s → s.pid ≠ 0 → ∃ k ∈ w.kids, k.pid = s.pid ∧ k.svc = some i
  kid : ∀ k ∈ w.kids, ∀ i, k.svc = some i → ∃ s, w.svcs[i]? = some s ∧ s.pid = k.pid
  one : (w.kids.map Kid.pid).Nodup
  pos : ∀ k ∈ w.kids, 0 < k.pid

/-- Each live child that was forked for a service is the pid of exactly one service; no service
has two; and a pid in the table is that of a child not yet reaped. -/
structure OneInstance (w : World) : Prop where
  tracked : ∀ k ∈ w.kids, k.svc ≠ none → k.status = none →
    ∃ (i : Nat) (s : Svc), w.svcs[i]? = some s ∧ s.pid = k.pid ∧
      ∀ (j : Nat) t, w.svcs[j]? = some t → t.pid = k.pid → j = i
  one : ∀ k ∈ w.kids, ∀ k' ∈ w.kids, k.svc ≠ none → k.svc = k'.svc → k.status = none →
    k'.status = none → k = k'
  unreaped : ∀ (i : Nat) s, w.svcs[i]? = some s → s.pid ≠ 0 → ∃ k ∈ w.kids, k.pid = s.pid

/-- A connection that comes to a fork is for a service that is not running, and no signal cuts a
stop short. -/
def Guarded (st : Init) : Op → Prop
  | .connection fork => ∀ i conns, st.phase = .events false (i :: conns) →
    ∀ s, st.w.svcs[i]? = some s → fork = none ∨ s.pid = 0
  | .command _ interrupted _ _ => interrupted = false
  | _ => True

/-- A run whose operations are all guarded. -/
inductive GuardedRun (con : List UInt8) (mktime : Int → Int → Int → Int) :
    Init → List Op → Init → Prop
  | nil (st : Init) : GuardedRun con mktime st [] st
  | cons {st st' st'' : Init} {op : Op} {ops : List Op} : Guarded st op →
    step con mktime st op = some st' → GuardedRun con mktime st' ops st'' →
    GuardedRun con mktime st (op :: ops) st''

variable {svcs : List Svc} {fork : Option Nat} {st st' : Init}

section Pieces

variable {con : List UInt8} {mktime : Int → Int → Int → Int} {w w' : World} {i p : Nat} {s s' : Svc}

namespace Tracks

theorem kid_eq (h : Tracks w) {k k' : Kid} (hk : k ∈ w.kids) (hk' : k' ∈ w.kids)
    (hp : k.pid = k'.pid) : k = k' :=
  List.inj_on_of_nodup_map h.one hk hk' hp

theorem oneInstance (h : Tracks w) : OneInstance w where
  tracked k hk hsvc _ := by
    obtain ⟨i, hi⟩ := Option.ne_none_iff_exists'.1 hsvc
    obtain ⟨s, hs, hp⟩ := h.kid k hk i hi
    refine ⟨i, s, hs, hp, fun j t ht htp => ?_⟩
    have hpos := h.pos k hk
    obtain ⟨k', hk', hp', hj⟩ := h.pid j t ht (by omega)
    obtain rfl := h.kid_eq hk hk' (by omega)
    rw [hi, some.injEq] at hj
    exact hj.symm
  one k hk k' hk' hsvc heq _ _ := by
    obtain ⟨i, hi⟩ := Option.ne_none_iff_exists'.1 hsvc
    obtain ⟨s, hs, hp⟩ := h.kid k hk i hi
    obtain ⟨s', hs', hp'⟩ := h.kid k' hk' i (heq ▸ hi)
    rw [hs, some.injEq] at hs'
    subst hs'
    exact h.kid_eq hk hk' (by omega)
  unreaped i s hs hp := by
    obtain ⟨k, hk, hkp, -⟩ := h.pid i s hs hp
    exact ⟨k, hk, hkp⟩

theorem congr (h : Tracks w) (hkids : w'.kids = w.kids)
    (hpids : w'.svcs.map Svc.pid = w.svcs.map Svc.pid) : Tracks w' := by
  have hrow : ∀ (j : Nat), (w'.svcs[j]?).map Svc.pid = (w.svcs[j]?).map Svc.pid := fun j => by
    rw [← List.getElem?_map, ← List.getElem?_map, hpids]
  refine ⟨fun j s hs hp => ?_, fun k hk j hj => ?_, hkids ▸ h.one, hkids ▸ h.pos⟩
  · have hj := hrow j
    rw [hs, map_some] at hj
    obtain ⟨t, ht, htp⟩ := map_eq_some_iff.1 hj.symm
    rw [hkids, ← htp]
    exact h.pid j t ht (htp ▸ hp)
  · obtain ⟨t, ht, htp⟩ := h.kid k (hkids ▸ hk) j hj
    have hj := hrow j
    rw [ht, map_some] at hj
    obtain ⟨s, hs, hsp⟩ := map_eq_some_iff.1 hj
    exact ⟨s, hs, hsp.trans htp⟩

theorem map_pid_set (hs : svcs[i]? = some s) (hp : s'.pid = s.pid) :
    (svcs.set i s').map Svc.pid = svcs.map Svc.pid := by
  rw [List.map_set, hp]
  obtain ⟨hi, rfl⟩ := List.getElem?_eq_some_iff.1 hs
  apply List.ext_getElem?
  intro j
  by_cases hj : i = j
  · subst hj
    rw [List.getElem?_set_self (by simpa using hi)]
    simp [hi]
  · rw [List.getElem?_set_ne hj]

theorem setSvc (h : Tracks w) (hs : w.svcs[i]? = some s) (hp : s'.pid = s.pid) :
    Tracks (w.setSvc i s') :=
  h.congr rfl (map_pid_set hs hp)

theorem startService (h : Tracks w) (hs : w.svcs[i]? = some s) (hp : s.pid = 0)
    (hfork : ∀ p, fork = some p → w.Fresh p) : Tracks (w.startService con i fork) := by
  unfold World.startService
  simp only [hs]
  split
  · cases fork with
    | none => exact h
    | some p =>
      obtain ⟨hpos, hfresh⟩ := hfork p rfl
      have hi : i < w.svcs.length := (List.getElem?_eq_some_iff.1 hs).1
      refine ⟨fun j t ht htp => ?_, fun k hk j hj => ?_, ?_, fun k hk => ?_⟩
      · dsimp only at ht ⊢
        by_cases hij : i = j
        · subst hij
          rw [List.getElem?_set_self hi, some.injEq] at ht
          subst ht
          exact ⟨_, List.mem_cons_self, rfl, rfl⟩
        · rw [List.getElem?_set_ne hij] at ht
          obtain ⟨k, hk, hkp, hkj⟩ := h.pid j t ht htp
          exact ⟨k, List.mem_cons_of_mem _ hk, hkp, hkj⟩
      · dsimp only at hk ⊢
        rcases List.mem_cons.1 hk with rfl | hk
        · rw [some.injEq] at hj
          subst hj
          exact ⟨_, List.getElem?_set_self hi, rfl⟩
        · obtain ⟨t, ht, htp⟩ := h.kid k hk j hj
          have hij : i ≠ j := by
            rintro rfl
            rw [hs, some.injEq] at ht
            have := h.pos k hk
            rw [← ht, hp] at htp
            omega
          exact ⟨t, by rw [List.getElem?_set_ne hij]; exact ht, htp⟩
      · dsimp only
        rw [List.map_cons, List.nodup_cons, List.mem_map]
        refine ⟨?_, h.one⟩
        rintro ⟨k, hk, hkp⟩
        exact hfresh k hk hkp
      · rcases List.mem_cons.1 hk with rfl | hk
        · exact hpos
        · exact h.pos k hk
  · exact h

theorem clear (h : Tracks w) (hs : w.svcs[i]? = some s) (hpid : s.pid ≠ 0) (hs' : s'.pid = 0) :
    Tracks ((w.reaped s.pid).setSvc i s') := by
  have hi : i < w.svcs.length := (List.getElem?_eq_some_iff.1 hs).1
  obtain ⟨k0, hk0, hk0p, hk0i⟩ := h.pid i s hs hpid
  have hmem : ∀ k, k ∈ (w.reaped s.pid).kids ↔ k ∈ w.kids ∧ k.pid ≠ s.pid := fun k => by
    simp [World.reaped]
  refine ⟨fun j t ht htp => ?_, fun k hk j hj => ?_, ?_, fun k hk => ?_⟩
  · by_cases hij : j = i
    · subst hij
      rw [World.setSvc_self (w := w.reaped s.pid) hi, some.injEq] at ht
      subst ht
      exact absurd hs' htp
    · rw [World.setSvc_of_ne hij] at ht
      obtain ⟨k, hk, hkp, hkj⟩ := h.pid j t ht htp
      refine ⟨k, (hmem k).2 ⟨hk, fun he => ?_⟩, hkp, hkj⟩
      obtain rfl := h.kid_eq hk hk0 (he.trans hk0p.symm)
      rw [hk0i, some.injEq] at hkj
      exact hij hkj.symm
  · obtain ⟨hk, hne⟩ := (hmem k).1 hk
    obtain ⟨t, ht, htp⟩ := h.kid k hk j hj
    have hij : j ≠ i := by
      rintro rfl
      rw [hs, some.injEq] at ht
      rw [ht] at hne
      exact hne htp.symm
    exact ⟨t, by rw [World.setSvc_of_ne hij]; exact ht, htp⟩
  · exact h.one.sublist (List.Sublist.map _ List.filter_sublist)
  · exact h.pos k ((hmem k).1 hk).1

theorem reaped (h : Tracks w) (hp : ∀ (i : Nat) s, w.svcs[i]? = some s → s.pid ≠ p) :
    Tracks (w.reaped p) := by
  have hmem : ∀ k, k ∈ (w.reaped p).kids ↔ k ∈ w.kids ∧ k.pid ≠ p := fun k => by
    simp [World.reaped]
  refine ⟨fun j t ht htp => ?_, fun k hk j hj => h.kid k ((hmem k).1 hk).1 j hj, ?_, fun k hk => ?_⟩
  · obtain ⟨k, hk, hkp, hkj⟩ := h.pid j t ht htp
    exact ⟨k, (hmem k).2 ⟨hk, fun he => hp j t ht (hkp ▸ he)⟩, hkp, hkj⟩
  · exact h.one.sublist (List.Sublist.map _ List.filter_sublist)
  · exact h.pos k ((hmem k).1 hk).1

theorem stopService (h : Tracks w) (i : Nat) : Tracks (w.stopService i false) := by
  unfold World.stopService
  split
  · exact h
  · rename_i s hs
    split
    · exact h
    · rename_i hp
      exact h.clear hs hp rfl

end Tracks

theorem forkOk_fresh (h : forkOk w fork = true) (p : Nat) (hp : fork = some p) : w.Fresh p := by
  subst hp
  simpa [forkOk] using h

theorem Tracks.run (h : Tracks w) (hs : w.svcs[i]? = some s) (hp : s.pid = 0)
    (hr : run con w i fork = some w') : Tracks w' := by
  unfold Urverk.run at hr
  split at hr
  · rename_i hf
    cases hr
    exact h.startService hs hp (forkOk_fresh hf)
  · cases hr

/-! ## One operation -/

namespace Tracks

theorem stopFor (h : Tracks w) (i : Nat) : Tracks (stopFor w i false) := by
  have hw := h.stopService i
  unfold Urverk.stopFor
  dsimp only
  split
  · rename_i s hs
    exact hw.setSvc hs rfl
  · exact hw

theorem stopService_pid (w : World) (i : Nat) (interrupted : Bool) :
    ∀ s, (w.stopService i interrupted).svcs[i]? = some s → s.pid = 0 := by
  intro s hs
  unfold World.stopService at hs
  cases ht : w.svcs[i]? with
  | none =>
    simp only [ht] at hs
    cases hs
  | some t =>
    simp only [ht] at hs
    have hi : i < w.svcs.length := (List.getElem?_eq_some_iff.1 ht).1
    split at hs
    · rename_i hp
      rw [ht, some.injEq] at hs
      rwa [← hs]
    · split at hs
      · rw [World.setSvc_self hi, some.injEq] at hs
        rw [← hs]
      · rw [World.setSvc_self (w := w.reaped t.pid) hi, some.injEq] at hs
        rw [← hs]

theorem ctlHandle (h : Tracks w) {cmd : Command} {marked : Bool}
    (hr : ctlHandle con w cmd false marked fork = some w') : Tracks w' := by
  cases cmd with
  | stop name =>
    simp only [Urverk.ctlHandle] at hr
    split at hr
    · cases hr
      exact h
    · cases hr
      exact h.stopFor _
  | start name =>
    simp only [Urverk.ctlHandle] at hr
    split at hr
    · cases hr
      exact h
    · rename_i i _
      have hw := h.stopService i
      split at hr
      · cases hr
        exact hw
      · rename_i s hs
        have hzero := stopService_pid w i false s hs
        have hi : i < (w.stopService i false).svcs.length := (List.getElem?_eq_some_iff.1 hs).1
        have hset : Tracks ((w.stopService i false).setSvc i { s with restarts := 0 }) :=
          hw.setSvc hs rfl
        exact hset.run (World.setSvc_self hi) hzero hr
  | enable name =>
    simp only [Urverk.ctlHandle] at hr
    split at hr <;> cases hr
    · exact h
    · exact h.congr rfl rfl
  | disable name =>
    simp only [Urverk.ctlHandle] at hr
    split at hr
    · cases hr
      exact h
    · cases hr
      apply stopFor
      split
      · exact h.congr rfl rfl
      · exact h
  | shutdown | other =>
    cases hr
    exact h

theorem onConnection (h : Tracks w) (hp : ∀ s, w.svcs[i]? = some s → fork = none ∨ s.pid = 0)
    (hr : onConnection con w i fork = some w') : Tracks w' := by
  unfold Urverk.onConnection at hr
  split at hr
  · cases hr
    exact h
  · rename_i s hs
    have hi : i < w.svcs.length := (List.getElem?_eq_some_iff.1 hs).1
    have hset : Tracks (w.setSvc i { s with lfd := false }) := h.setSvc hs rfl
    rcases hp s hs with rfl | hp
    · cases hr
      rwa [startService_idle (World.setSvc_self hi) (.inr rfl)]
    · exact hset.run (World.setSvc_self hi) hp hr

theorem onTimer (h : Tracks w) {now : Int}
    (hr : onTimer con mktime w now i fork = some w') : Tracks w' := by
  unfold Urverk.onTimer at hr
  split at hr
  · cases hr
    exact h
  · rename_i s hs
    have hi : i < w.svcs.length := (List.getElem?_eq_some_iff.1 hs).1
    split at hr
    · rename_i hdue
      have hzero : s.pid = 0 := (of_decide_eq_true hdue).2.1
      obtain ⟨w1, hw1, hr⟩ := map_eq_some_iff.1 hr
      have hset : Tracks (w.setSvc i { s with type := .simple }) := h.setSvc hs rfl
      have ht : Tracks w1 := hset.run (World.setSvc_self hi) hzero hw1
      subst hr
      split
      · exact ht
      · rename_i s1 hs1
        refine ht.setSvc hs1 ?_
        unfold timerSchedule
        split <;> rfl
    · cases hr
      exact h

theorem shouldRespawn_pid (clean : Bool) (now : Int) (s : Svc) :
    (shouldRespawn clean now s).1.pid = s.pid := by
  unfold shouldRespawn
  split
  · rfl
  · split
    · rfl
    · dsimp only
      split <;> split <;> rfl

theorem onReap (h : Tracks w) {shutdown clean listens : Bool} {now : Int}
    (hp : p ≠ 0) (hr : onReap con w shutdown p clean now listens fork = some w') : Tracks w' := by
  unfold Urverk.onReap at hr
  dsimp only at hr
  split at hr
  · rename_i hnone
    cases hr
    exact h.reaped fun i s hs => World.svcByPid_none (w := w.reaped p) hnone hs
  · rename_i i hi
    obtain ⟨s, hs, hsp⟩ := World.svcByPid_some hi
    have hs : w.svcs[i]? = some s := hs
    have hlt : i < w.svcs.length := (List.getElem?_eq_some_iff.1 hs).1
    have hclear : ∀ {s' : Svc}, s'.pid = 0 → Tracks ((w.reaped p).setSvc i s') := by
      intro s' hs'
      rw [← hsp]
      exact h.clear hs (by omega) hs'
    rw [show (w.reaped p).svcs[i]? = some s from hs] at hr
    dsimp only at hr
    split at hr
    · cases hr
      exact hclear rfl
    · cases hr
      exact hclear rfl
    · split at hr
      · cases hr
        apply hclear
        unfold socketListen
        split <;> rfl
      · split at hr
        · cases hr
          exact hclear rfl
        · have hpid := shouldRespawn_pid clean now { s with pid := 0 }
          split at hr
          · exact (hclear hpid).run (World.setSvc_self (w := w.reaped p) hlt) hpid hr
          · cases hr
            exact hclear hpid

theorem exited (h : Tracks w) (p : Nat) (clean : Bool) : Tracks (w.exited p clean) := by
  have hkid : ∀ k : Kid, (if k.pid = p ∧ k.status = none then { k with status := some clean }
      else k).pid = k.pid ∧ (if k.pid = p ∧ k.status = none then { k with status := some clean }
      else k).svc = k.svc := by
    intro k
    split <;> exact ⟨rfl, rfl⟩
  refine ⟨fun i s hs hp => ?_, fun k' hk' i hi => ?_, ?_, fun k' hk' => ?_⟩
  · obtain ⟨k, hk, hkp, hki⟩ := h.pid i s hs hp
    exact ⟨_, List.mem_map_of_mem hk, (hkid k).1.trans hkp, (hkid k).2.trans hki⟩
  · obtain ⟨k, hk, rfl⟩ := List.mem_map.1 hk'
    rw [(hkid k).2] at hi
    rw [(hkid k).1]
    exact h.kid k hk i hi
  · have hmap : (w.exited p clean).kids.map Kid.pid = w.kids.map Kid.pid := by
      rw [World.exited, List.map_map]
      exact List.map_congr_left fun k _ => (hkid k).1
    rw [hmap]
    exact h.one
  · obtain ⟨k, hk, rfl⟩ := List.mem_map.1 hk'
    rw [(hkid k).1]
    exact h.pos k hk

theorem adopt (h : Tracks w) (hp : w.Fresh p) :
    Tracks { w with kids := ⟨p, none, none⟩ :: w.kids } := by
  refine ⟨fun i s hs hsp => ?_, fun k hk i hi => ?_, ?_, fun k hk => ?_⟩
  · obtain ⟨k, hk, hkp, hki⟩ := h.pid i s hs hsp
    exact ⟨k, List.mem_cons_of_mem _ hk, hkp, hki⟩
  · rcases List.mem_cons.1 hk with rfl | hk
    · cases hi
    · exact h.kid k hk i hi
  · dsimp only
    rw [List.map_cons, List.nodup_cons, List.mem_map]
    exact ⟨fun ⟨k, hk, hkp⟩ => hp.2 k hk hkp, h.one⟩
  · rcases List.mem_cons.1 hk with rfl | hk
    · exact hp.1
    · exact h.pos k hk

end Tracks

theorem Tracks.step {op : Op} (h : Tracks st.w) (hg : Guarded st op)
    (hs : step con mktime st op = some st') : Tracks st'.w := by
  cases step_move con mktime hs with
  | poll _ _ | clock | timersDone | pass | signal => exact h
  | @command text interrupted _ _ _ _ _ _ hw =>
    obtain rfl : interrupted = false := hg
    exact h.ctlHandle hw
  | connection hphase hw => exact h.onConnection (hg _ _ hphase) hw
  | timer hw => exact h.onTimer hw
  | reap _ hp hw => exact h.onReap (Nat.pos_iff_ne_zero.1 hp) hw
  | exit => exact h.exited _ _
  | adopt hp => exact h.adopt hp

theorem Tracks.guarded {ops : List Op} (h : Tracks st.w)
    (hr : GuardedRun con mktime st ops st') : Tracks st'.w := by
  induction hr with
  | nil => exact h
  | cons hg hs _ ih => exact ih (h.step hg hs)

/-! ## At boot -/

/-- What is not started is not running. -/
def Idle (w : World) : Prop := ∀ s ∈ w.svcs, s.started = false → s.pid = 0

theorem Idle.set (h : ∀ s ∈ svcs, s.started = false → s.pid = 0)
    (hs' : s'.started = false → s'.pid = 0) :
    ∀ s ∈ svcs.set i s', s.started = false → s.pid = 0 := by
  intro t ht
  rcases List.mem_or_eq_of_mem_set ht with ht | rfl
  · exact h t ht
  · exact hs'

/-- What a boot keeps. -/
structure Booting (w : World) : Prop where
  tracks : Tracks w
  idle : Idle w

namespace Booting

variable {env : BootEnv} {b b' : Boot}

theorem setSvc (h : Booting w) (hs : w.svcs[i]? = some s) (hp : s'.pid = s.pid)
    (hs' : s'.started = true) : Booting (w.setSvc i s') :=
  ⟨h.tracks.setSvc hs hp, Idle.set h.idle fun hu => by rw [hs'] at hu; cases hu⟩

theorem bootService (h : Booting b.w) (hs : b.w.svcs[i]? = some s) (hu : s.started = false)
    {fallback : Bool} (hb : bootService env b i s fallback = some b') : Booting b'.w := by
  unfold Urverk.bootService at hb
  split at hb
  · cases hb
  · cases hb
    have hzero := h.idle s (List.mem_of_getElem? hs) hu
    refine ⟨h.tracks.startService hs hzero fun p hp => env.fresh _ _ _ hp, ?_⟩
    dsimp only
    cases hc : s.hasCommand env.con with
    | false =>
      rw [startService_idle hs (.inl hc)]
      exact h.idle
    | true =>
      cases hf : env.fork b.w.kids i with
      | none =>
        rw [startService_idle hs (.inr rfl)]
        exact h.idle
      | some p =>
        rw [startService_some hs hc]
        exact Idle.set h.idle nofun

theorem awaitOneshot (h : Booting w) : Booting (awaitOneshot env w i) := by
  unfold Urverk.awaitOneshot
  cases hs : w.svcs[i]? with
  | none => exact h
  | some s =>
    dsimp only
    split
    · exact h
    · rename_i hp
      have hst : s.started = true := by
        by_contra hu
        exact hp (h.idle s (List.mem_of_getElem? hs) (by simpa using hu))
      split
      · exact ⟨h.tracks.clear hs hp rfl, Idle.set h.idle fun _ => rfl⟩
      · exact h.setSvc hs rfl hst

theorem handle (h : Booting b.w) (hs : b.w.svcs[i]? = some s) (hu : s.started = false)
    (hb : handle env b i s = some b') : Booting b'.w := by
  unfold Urverk.handle at hb
  split at hb
  · cases hb
    refine h.setSvc hs ?_ rfl
    unfold timerSchedule
    split <;> rfl
  · cases hb
    refine h.setSvc hs ?_ rfl
    unfold socketListen
    split <;> rfl
  · exact h.bootService hs hu hb
  · obtain ⟨b1, hb1, hb⟩ := map_eq_some_iff.1 hb
    subst hb
    exact (h.bootService hs hu hb1).awaitOneshot

theorem invariant (env : BootEnv) : BootInvariant env Booting where
  handle h hs hu hb := h.handle hs hu hb
  anyway h hs hu hb := h.bootService hs hu hb

end Booting

end Pieces

/-! ## The table as it is loaded -/

/-- No service is running. -/
def Still (svcs : List Svc) : Prop := ∀ s ∈ svcs, s.pid = 0

theorem Still.append {s : Svc} (h : Still svcs) (hs : s.pid = 0) : Still (svcs ++ [s]) := by
  intro t ht
  rcases List.mem_append.1 ht with ht | ht
  · exact h t ht
  · rwa [List.mem_singleton.1 ht]

theorem Still.loadServices (disabled : List Name) (dir : Option (List Svc)) :
    Still (loadServices disabled dir) := by
  apply loadServices_rec (P := Still)
  · exact List.forall_mem_nil _
  · exact fun svcs file h _ _ => h.append rfl
  · exact fun svcs file h _ _ => h.append rfl
  · intro svcs b hb h _ _
    exact h.append (by rw [← builtin_cleared hb]; rfl)

/-- urverk as it comes up, with the children it was given. -/
def boot (disabled : List Name) (dir : Option (List Svc)) (kids : List Kid) : World where
  svcs := loadServices disabled dir
  kids
  disabled
  starts := []

theorem Booting.boot {disabled : List Name} {dir : Option (List Svc)} {kids : List Kid}
    (hkids : ∀ k ∈ kids, 0 < k.pid ∧ k.svc = none) (hone : (kids.map Kid.pid).Nodup) :
    Booting (boot disabled dir kids) where
  tracks := {
    pid := fun _ s hs hp => absurd (Still.loadServices disabled dir s (List.mem_of_getElem? hs)) hp
    kid := fun k hk i hi => by
      rw [(hkids k hk).2] at hi
      cases hi
    one := hone
    pos := fun k hk => (hkids k hk).1 }
  idle s hs _ := Still.loadServices disabled dir s hs

/-! ## The law -/

/-- Along every run of the loop, from every boot, in which no connection is handled for a service
that is running and no stop is cut short by a signal: each live child that was forked for a
service is the pid of exactly one service, no service has two, and a pid in the table is that of
a child not yet reaped. -/
theorem one_instance {env : BootEnv} {disabled : List Name} {dir : Option (List Svc)}
    {kids : List Kid} (hkids : ∀ k ∈ kids, 0 < k.pid ∧ k.svc = none)
    (hone : (kids.map Kid.pid).Nodup) {b : Boot}
    (hb : startAll env (boot disabled dir kids) = some b) {shutdown : Bool} {ops : List Op}
    {st : Init} (hr : GuardedRun env.con env.mktime ⟨b.w, .top, shutdown⟩ ops st) :
    OneInstance st.w := by
  have hboot : Booting b.w := (Booting.invariant env).startAll (Booting.boot hkids hone) hb
  exact (hboot.tracks.guarded hr).oneInstance

/-- A service that waits for a connection, beside the built-in ones. -/
def web : Svc where
  name := ascii "web"
  exec := ascii "/usr/sbin/httpd"
  type := .socket

theorem Run.of_foldlM {con : List UInt8} {mktime : Int → Int → Int → Int} {ops : List Op}
    (h : ops.foldlM (step con mktime) st = some st') : Run con mktime st ops st' := by
  induction ops generalizing st with
  | nil =>
    cases h
    exact .nil _
  | cons op ops ih =>
    obtain ⟨st1, hst1, h⟩ := bind_eq_some_iff.1 h
    exact .cons hst1 (ih h)

/-- The first connection starts the service, and it is one child. -/
theorem one_instance_connected : ∃ b st, startAll calm (boot [] (some [web]) []) = some b ∧
    Run calm.con calm.mktime ⟨b.w, .top, false⟩ [.poll false [0], .connection (some 100)] st ∧
    OneInstance st.w := by
  let poll := fun b : Boot => step calm.con calm.mktime ⟨b.w, .top, false⟩ (.poll false [0])
  let connection := fun st => step calm.con calm.mktime st (.connection (some 100))
  have hpolled : ((startAll calm (boot [] (some [web]) [])).bind poll).map (fun st =>
      (st.phase, (st.w.svcs[0]?).map Svc.pid, (connection st).isSome)) =
      some (.events false [0], some 0, true) := by decide
  obtain ⟨st, hst, hat⟩ := map_eq_some_iff.1 hpolled
  obtain ⟨b, hb, hpoll⟩ := bind_eq_some_iff.1 hst
  rw [Prod.mk.injEq, Prod.mk.injEq] at hat
  obtain ⟨hphase, hpid, hsome⟩ := hat
  obtain ⟨st', hconn⟩ := Option.isSome_iff_exists.1 hsome
  have hguard : Guarded st (.connection (some 100)) := by
    intro i conns hi s hs
    rw [hphase] at hi
    cases hi
    rw [hs] at hpid
    exact .inr (Option.some.inj hpid)
  refine ⟨b, st', hb, .cons hpoll (.cons hconn (.nil st')), ?_⟩
  have hpoll_guard : Guarded ⟨b.w, .top, false⟩ (.poll false [0]) := trivial
  exact one_instance (List.forall_mem_nil _) List.nodup_nil hb
    (.cons hpoll_guard hpoll (.cons hguard hconn (.nil st')))

/-- The control socket and the service's own are reported by one poll: the command starts the
service, and the connection starts it once more. -/
theorem connection_starts_another : ¬ ∀ b st, startAll calm (boot [] (some [web]) []) = some b →
    Run calm.con calm.mktime ⟨b.w, .top, false⟩
      [.poll true [0], .command (ascii "start web") false false (some 100), .connection (some 101)]
      st → OneInstance st.w := by
  intro h
  let run := fun b : Boot => [Op.poll true [0],
    .command (ascii "start web") false false (some 100), .connection (some 101)].foldlM
      (step calm.con calm.mktime) ⟨b.w, .top, false⟩
  have hkids : ((startAll calm (boot [] (some [web]) [])).bind run).map (fun st => st.w.kids.take 2) =
      some [⟨101, some 0, none⟩, ⟨100, some 0, none⟩] := by decide
  obtain ⟨st, hst, hk⟩ := map_eq_some_iff.1 hkids
  obtain ⟨b, hb, hrun⟩ := bind_eq_some_iff.1 hst
  have hmem : ∀ k ∈ [(⟨101, some 0, none⟩ : Kid), ⟨100, some 0, none⟩], k ∈ st.w.kids := fun k hm =>
    List.mem_of_mem_take (hk ▸ hm)
  have := (h b st hb (Run.of_foldlM hrun)).one _ (hmem _ List.mem_cons_self) _
    (hmem _ (List.mem_cons_of_mem _ List.mem_cons_self)) nofun rfl rfl rfl
  cases this

end Verkos.Urverk
