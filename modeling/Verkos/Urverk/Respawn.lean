import Verkos.Lib.Window
import Verkos.Urverk.Off

/-!
# What is brought back

`should_respawn` asks the policy of a service and counts in a window of a minute, and a service that
needs more than five restarts in one is given up on. The policy is a field of the service that `stop`,
`disable` and giving up overwrite, and `start` sets the count to zero.

`history` is what a run is for one service: its exits as the reaper finds them, and the commands.
Until it is turned off or given up on, a service is brought back as its definition says
(`respawn_law`), and however it is treated, not more than ten times a minute unless an operator
starts it in between.
-/

namespace Verkos.Urverk

open Lib Lib.Window
open Option (some.inj map_eq_some_iff)

/-! ## The history of a service -/

/-- What happens to a service: an exit that the reaper finds, with whether a start could succeed
then and whether the service runs again; an operator's `start` or `restart`; `stop` or `disable`. -/
inductive Happened
  | exit (clean : Bool) (now : Int) (able again : Bool)
  | start
  | off
deriving DecidableEq

/-- The policy asks for a restart after such an exit. -/
def Respawn.asks : Respawn → Bool → Bool
  | .no, _ => false
  | .onFailure, clean => !clean
  | .always, _ => true

/-- The restarts counted, with the window they are counted in, when the policy is `P`. -/
def counts (P : Respawn) (l : Limiter) : Happened → Limiter
  | .exit clean now _ _ => if P.asks clean then l.count 60 now else l
  | .start => { l with counted := 0 }
  | .off => l

def ledger (P : Respawn) (hs : List Happened) : Limiter := hs.foldl (counts P) ⟨0, 0⟩

/-- Neither turned off nor given up on. -/
def InForce (P : Respawn) (hs : List Happened) : Prop :=
  .off ∉ hs ∧ ∀ l, l <+: hs → (ledger P l).counted ≤ 5

/-- The times of the restarts. -/
def restarts (hs : List Happened) : List Int :=
  hs.filterMap fun
    | .exit _ now _ true => some now
    | _ => none

/-- The times of the exits. -/
def exits (hs : List Happened) : List Int :=
  hs.filterMap fun
    | .exit _ now _ _ => some now
    | _ => none

/-- What a command is for the service at `i`. -/
def commanded (w : World) (i : Nat) : Command → List Happened
  | .start name => if svcByName w.svcs name = some i then [.start] else []
  | .stop name | .disable name => if svcByName w.svcs name = some i then [.off] else []
  | _ => []

section Loop

variable (con : List UInt8) (mktime : Int → Int → Int → Int)

/-- The exit status that the reaper finds. -/
def statusOf (w : World) (p : Nat) : Bool :=
  decide ((w.kids.find? fun k => k.pid = p).bind Kid.status = some true)

/-- What an operation is for the service at `i`, while no shutdown is wanted. -/
def happened (i : Nat) (st : Init) (op : Op) (st' : Init) : List Happened :=
  match op with
  | .command text _ _ _ => commanded st.w i (parseCommand text)
  | .reap p now _ fork =>
    if st.w.svcByPid p = some i ∧ st.shutdown = false then
      [.exit (statusOf st.w p) now (fork.isSome && (st.w.svcs[i]?).any (Svc.hasCommand con))
        ((st'.w.svcs[i]?).any fun s => s.pid ≠ 0)]
    else []
  | _ => []

/-- The history of the service at `i` in a run. -/
def history (i : Nat) : Init → List Op → List Happened
  | _, [] => []
  | st, op :: ops =>
    match step con mktime st op with
    | none => []
    | some st' => happened con i st op st' ++ history i st' ops

end Loop

/-! ## What an operation leaves alone -/

/-- The fields that decide whether a service is brought back are the same. -/
structure SamePolicy (s s' : Svc) : Prop where
  type : s'.type = s.type
  exec : s'.exec = s.exec
  respawn : s'.respawn = s.respawn
  restarts : s'.restarts = s.restarts
  window : s'.window = s.window

theorem SamePolicy.refl (s : Svc) : SamePolicy s s := ⟨rfl, rfl, rfl, rfl, rfl⟩

theorem SamePolicy.trans {s s' s'' : Svc} (h : SamePolicy s s') (h' : SamePolicy s' s'') :
    SamePolicy s s'' :=
  ⟨h'.type.trans h.type, h'.exec.trans h.exec, h'.respawn.trans h.respawn,
    h'.restarts.trans h.restarts, h'.window.trans h.window⟩

/-- The service at `i` is as before, as far as its policy goes. -/
def Held (i : Nat) (w w' : World) : Prop :=
  ∀ s, w.svcs[i]? = some s → ∃ s', w'.svcs[i]? = some s' ∧ SamePolicy s s'

variable {now : Int} {clean listens : Bool} {p : Nat} {st st' : Init} {hs : List Happened}

section Ops

variable {con : List UInt8} {mktime : Int → Int → Int → Int} {i j : Nat} {w w' : World} {s s' : Svc}
  {fork : Option Nat}

namespace Held

theorem refl (i : Nat) (w : World) : Held i w w := fun s hs => ⟨s, hs, .refl s⟩

theorem trans {w'' : World} (h : Held i w w') (h' : Held i w' w'') : Held i w w'' := by
  intro s hs
  obtain ⟨s', hs', hp⟩ := h s hs
  obtain ⟨s'', hs'', hp'⟩ := h' s' hs'
  exact ⟨s'', hs'', hp.trans hp'⟩

theorem of_svcs (h : w'.svcs = w.svcs) : Held i w w' := fun s hs => ⟨s, by rw [h, hs], .refl s⟩

theorem set (hs : w.svcs[j]? = some s) (hsvcs : w'.svcs = w.svcs.set j s')
    (hp : j = i → SamePolicy s s') : Held i w w' := by
  intro t ht
  rw [hsvcs]
  by_cases hij : j = i
  · subst hij
    obtain rfl : s = t := some.inj (hs.symm.trans ht)
    exact ⟨s', List.getElem?_set_self (List.getElem?_eq_some_iff.1 hs).1, hp rfl⟩
  · exact ⟨t, by rw [List.getElem?_set_ne hij, ht], .refl t⟩

theorem startService (w : World) (j : Nat) (fork : Option Nat) :
    Held i w (w.startService con j fork) := by
  unfold World.startService
  cases hs : w.svcs[j]? with
  | none => exact refl i w
  | some s =>
    dsimp only
    split
    · cases fork with
      | none => exact refl i w
      | some p => exact set hs rfl fun _ => ⟨rfl, rfl, rfl, rfl, rfl⟩
    · exact refl i w

theorem run (hr : Urverk.run con w j fork = some w') : Held i w w' := by
  unfold Urverk.run at hr
  split at hr
  · cases hr
    exact startService w j fork
  · cases hr

theorem stopService (w : World) (j : Nat) (interrupted : Bool) :
    Held i w (w.stopService j interrupted) := by
  cases hs : w.svcs[j]? with
  | none =>
    have hstop : w.stopService j interrupted = w := by
      unfold World.stopService
      rw [hs]
    rw [hstop]
    exact refl i w
  | some s => exact set hs (stopService_svcs hs interrupted) fun _ => ⟨rfl, rfl, rfl, rfl, rfl⟩

theorem stopFor (hij : j ≠ i) (w : World) (interrupted : Bool) :
    Held i w (stopFor w j interrupted) := by
  have hstop := stopService (i := i) w j interrupted
  unfold Urverk.stopFor
  dsimp only
  split
  · rename_i s hs
    exact hstop.trans (set hs rfl fun h => absurd h hij)
  · exact hstop

theorem onConnection (hij : j ≠ i) (hr : onConnection con w j fork = some w') : Held i w w' := by
  unfold Urverk.onConnection at hr
  split at hr
  · cases hr
    exact refl i w
  · rename_i s hs
    have hset : Held i w (w.setSvc j { s with lfd := false }) := set hs rfl fun h => absurd h hij
    exact hset.trans (run hr)

theorem onTimer (hi : ∀ s, w.svcs[i]? = some s → s.type = .simple)
    (hr : onTimer con mktime w now j fork = some w') : Held i w w' := by
  unfold Urverk.onTimer at hr
  split at hr
  · cases hr
    exact refl i w
  · rename_i s hs
    split at hr
    · rename_i hdue
      have hij : j ≠ i := by
        rintro rfl
        have ht := (of_decide_eq_true hdue).1
        rw [hi s hs] at ht
        cases ht
      obtain ⟨w1, hw1, rfl⟩ := map_eq_some_iff.1 hr
      have hset : Held i w (w.setSvc j { s with type := .simple }) :=
        set hs rfl fun h => absurd h hij
      have hrun := hset.trans (run hw1)
      split
      · exact hrun
      · rename_i s1 hs1
        exact hrun.trans (set hs1 rfl fun h => absurd h hij)
    · cases hr
      exact refl i w

theorem onReap {shutdown : Bool} (hi : ∀ s, w.svcs[i]? = some s → s.type = .simple)
    (hp : w.svcByPid p = some i → shutdown = true)
    (hr : onReap con w shutdown p clean now listens fork = some w') : Held i w w' := by
  unfold Urverk.onReap at hr
  dsimp only at hr
  split at hr
  · cases hr
    exact of_svcs rfl
  · rename_i j hj
    cases hs : w.svcs[j]? with
    | none =>
      rw [show (w.reaped p).svcs[j]? = none from hs] at hr
      cases hr
      exact of_svcs rfl
    | some s =>
      rw [show (w.reaped p).svcs[j]? = some s from hs] at hr
      dsimp only at hr
      have hset : ∀ s' : Svc, (j = i → SamePolicy s s') → Held i w ((w.reaped p).setSvc j s') :=
        fun s' hsame => set hs rfl hsame
      by_cases hij : j = i
      · -- A simple service that exits while urverk shuts down.
        have hshut := hp (by rw [← hij]; exact hj)
        have ht := hi s (by rw [← hij]; exact hs)
        simp only [ht, hshut, reduceCtorEq, false_and, if_false, if_true] at hr
        cases hr
        exact hset _ fun _ => ⟨ht.symm, rfl, rfl, rfl, rfl⟩
      · have hother : ∀ s', Held i w ((w.reaped p).setSvc j s') := fun s' =>
          hset s' fun h => absurd h hij
        split at hr
        · cases hr
          exact hother _
        · cases hr
          exact hother _
        · split at hr
          · cases hr
            exact hother _
          · split at hr
            · cases hr
              exact hother _
            · split at hr
              · exact (hother _).trans (run hr)
              · cases hr
                exact hother _

end Held

/-! ## What an operation does -/

/-- The window as the service keeps it. -/
def Svc.limiter (s : Svc) : Limiter := ⟨s.window, s.restarts⟩

theorem shouldRespawn_quiet (h : s.respawn.asks clean = false) :
    shouldRespawn clean now s = (s, false) := by
  unfold shouldRespawn
  cases hr : s.respawn <;> cases clean <;> simp_all [Respawn.asks]

/-- Where it asks, one more is counted, and the sixth in a window is the last. -/
theorem shouldRespawn_asked (h : s.respawn.asks clean = true) : shouldRespawn clean now s =
      ({ s with
          window := (s.limiter.count 60 now).opened
          restarts := (s.limiter.count 60 now).counted
          respawn := if 5 < (s.limiter.count 60 now).counted then .no else s.respawn },
        decide ((s.limiter.count 60 now).counted ≤ 5)) := by
  have hno : s.respawn ≠ .no := by
    intro hr
    rw [hr] at h
    cases h
  have hclean : ¬(s.respawn = .onFailure ∧ clean = true) := by
    rintro ⟨hr, rfl⟩
    rw [hr] at h
    cases h
  unfold shouldRespawn
  rw [if_neg hno, if_neg hclean, Svc.limiter, Limiter.count]
  dsimp only
  by_cases hnew : 60 < now - s.window
  · rw [if_pos hnew, if_pos hnew]
    rfl
  · rw [if_neg hnew, if_neg hnew]
    dsimp only
    split_ifs with hmany
    · rw [decide_eq_false (by omega)]
    · rw [decide_eq_true (by omega)]

theorem shouldRespawn_def (clean : Bool) (now : Int) (s : Svc) :
    (shouldRespawn clean now s).1.type = s.type ∧ (shouldRespawn clean now s).1.exec = s.exec := by
  cases ha : s.respawn.asks clean with
  | false =>
    rw [shouldRespawn_quiet ha]
    exact ⟨rfl, rfl⟩
  | true =>
    rw [shouldRespawn_asked ha]
    exact ⟨rfl, rfl⟩

theorem shouldRespawn_congr (clean : Bool) (now : Int) (h : SamePolicy s s') :
    SamePolicy (shouldRespawn clean now s).1 (shouldRespawn clean now s').1 ∧
      (shouldRespawn clean now s').2 = (shouldRespawn clean now s).2 := by
  have hasks : s'.respawn.asks clean = s.respawn.asks clean := by rw [h.respawn]
  have hlim : s'.limiter = s.limiter := by rw [Svc.limiter, Svc.limiter, h.window, h.restarts]
  cases ha : s.respawn.asks clean with
  | false =>
    rw [shouldRespawn_quiet ha, shouldRespawn_quiet (hasks.trans ha)]
    exact ⟨h, rfl⟩
  | true =>
    rw [shouldRespawn_asked ha, shouldRespawn_asked (hasks.trans ha), hlim, h.respawn]
    exact ⟨⟨h.type, h.exec, rfl, rfl, rfl⟩, rfl⟩

/-- The service is started, if a fork works and there is something to run. -/
theorem run_self (hs : w.svcs[i]? = some s) (hpid : s.pid = 0) (hr : run con w i fork = some w') :
    ∃ s', w'.svcs[i]? = some s' ∧ SamePolicy s s' ∧
      decide (s'.pid ≠ 0) = (fork.isSome && s.hasCommand con) := by
  obtain ⟨s', hs', hp⟩ := Held.run (i := i) hr s hs
  refine ⟨s', hs', hp, ?_⟩
  unfold Urverk.run at hr
  split_ifs at hr with hfork
  obtain rfl := some.inj hr
  by_cases hidle : s.hasCommand con = false ∨ fork = none
  · rw [startService_idle hs hidle, hs] at hs'
    obtain rfl := some.inj hs'
    rw [hpid]
    rcases hidle with hc | rfl
    · rw [hc, Bool.and_false]
      rfl
    · rfl
  · rw [not_or, Bool.not_eq_false] at hidle
    obtain ⟨hc, hsome⟩ := hidle
    obtain ⟨q, rfl⟩ := Option.ne_none_iff_exists'.1 hsome
    rw [startService_some hs hc] at hs'
    rw [List.getElem?_set_self (List.getElem?_eq_some_iff.1 hs).1, Option.some.injEq] at hs'
    have hq : 0 < q := (of_decide_eq_true hfork).1
    rw [← hs', hc]
    exact decide_eq_true (Nat.pos_iff_ne_zero.1 hq)

/-- An exit of a simple service, while no shutdown is wanted. -/
theorem onReap_simple (hs : w.svcs[i]? = some s)
    (ht : s.type = .simple) (hp : w.svcByPid p = some i) :
    onReap con w false p clean now listens fork =
      if (shouldRespawn clean now { s with pid := 0 }).2 then
        Urverk.run con ((w.reaped p).setSvc i (shouldRespawn clean now { s with pid := 0 }).1) i fork
      else some ((w.reaped p).setSvc i (shouldRespawn clean now { s with pid := 0 }).1) := by
  unfold Urverk.onReap
  dsimp only
  rw [show (w.reaped p).svcByPid p = some i from hp]
  dsimp only
  rw [show (w.reaped p).svcs[i]? = some s from hs]
  obtain ⟨name, pre, exec, needs, type, respawn, everySec, atHour, atMin, nextRun, lfd, pid, ready,
    started, restarts, window⟩ := s
  obtain rfl : type = .simple := ht
  rfl

theorem onReap_self (hs : w.svcs[i]? = some s) (ht : s.type = .simple) (hp : w.svcByPid p = some i)
    (hr : onReap con w false p clean now listens fork = some w') :
    ∃ s', w'.svcs[i]? = some s' ∧ SamePolicy (shouldRespawn clean now s).1 s' ∧
      decide (s'.pid ≠ 0) = (fork.isSome && s.hasCommand con && (shouldRespawn clean now s).2) := by
  have hi : i < (w.reaped p).svcs.length := (List.getElem?_eq_some_iff.1 hs).1
  have hzero : SamePolicy s { s with pid := 0 } := ⟨rfl, rfl, rfl, rfl, rfl⟩
  obtain ⟨hsame, hanswer⟩ := shouldRespawn_congr clean now hzero
  have hpid : (shouldRespawn clean now { s with pid := 0 }).1.pid = 0 :=
    Tracks.shouldRespawn_pid clean now _
  have hexec : (shouldRespawn clean now { s with pid := 0 }).1.exec = s.exec :=
    (shouldRespawn_def clean now _).2
  rw [onReap_simple hs ht hp] at hr
  generalize shouldRespawn clean now { s with pid := 0 } = res at hr hsame hanswer hpid hexec
  have hself : ((w.reaped p).setSvc i res.1).svcs[i]? = some res.1 := World.setSvc_self hi
  rw [← hanswer]
  split_ifs at hr with hagain
  · obtain ⟨s', hs', hp', hran⟩ := run_self hself hpid hr
    refine ⟨s', hs', hsame.trans hp', ?_⟩
    have hcommand : res.1.hasCommand con = s.hasCommand con := by
      rw [Svc.hasCommand, Svc.hasCommand, hexec]
    rw [hran, hcommand, hagain, Bool.and_true]
  · obtain rfl := some.inj hr
    refine ⟨res.1, hself, hsame, ?_⟩
    rw [hpid, Bool.eq_false_iff.2 hagain, Bool.and_false]
    rfl

/-- What is left of a service after a piece of its history. -/
def Svc.after (s : Svc) : Happened → Svc
  | .exit clean now _ _ => (shouldRespawn clean now s).1
  | .start => { s with restarts := 0 }
  | .off => { s with respawn := .no }

theorem stopFor_self (hs : w.svcs[i]? = some s) (interrupted : Bool) :
    ∃ s', (stopFor w i interrupted).svcs[i]? = some s' ∧ SamePolicy (s.after .off) s' := by
  refine ⟨{ s with pid := 0, respawn := .no }, ?_, ⟨rfl, rfl, rfl, rfl, rfl⟩⟩
  rw [stopFor_svcs hs, List.getElem?_set_self (List.getElem?_eq_some_iff.1 hs).1]

theorem Held.same (h : Held i w w') (hs : w.svcs[i]? = some s) :
    ∃ s', w'.svcs[i]? = some s' ∧ SamePolicy ([].foldl Svc.after s) s' := h s hs

theorem ctlHandle_self {cmd : Command} {interrupted marked : Bool} (hs : w.svcs[i]? = some s)
    (hr : ctlHandle con w cmd interrupted marked fork = some w') :
    ∃ s', w'.svcs[i]? = some s' ∧ SamePolicy ((commanded w i cmd).foldl Svc.after s) s' := by
  cases cmd with
  | stop name =>
    unfold Urverk.ctlHandle at hr
    rw [commanded]
    cases hj : svcByName w.svcs name with
    | none =>
      simp only [hj] at hr
      obtain rfl := some.inj hr
      exact (Held.refl i w).same hs
    | some j =>
      simp only [hj] at hr
      obtain rfl := some.inj hr
      split_ifs with hij
      · obtain rfl := some.inj hij
        exact stopFor_self hs interrupted
      · exact (Held.stopFor (fun h => hij (congrArg some h)) w interrupted).same hs
  | start name =>
    unfold Urverk.ctlHandle at hr
    rw [commanded]
    cases hj : svcByName w.svcs name with
    | none =>
      simp only [hj] at hr
      obtain rfl := some.inj hr
      exact (Held.refl i w).same hs
    | some j =>
      simp only [hj] at hr
      have hstop := Held.stopService (i := i) w j interrupted
      split at hr
      · rename_i hnone
        obtain rfl := some.inj hr
        split_ifs with hij
        · obtain rfl := some.inj hij
          obtain ⟨s1, hs1, -⟩ := hstop s hs
          rw [hnone] at hs1
          cases hs1
        · exact hstop.same hs
      · rename_i s1 hs1
        split_ifs with hij
        · obtain rfl := some.inj hij
          obtain ⟨s2, hs2, hp⟩ := hstop s hs
          obtain rfl : s1 = s2 := some.inj (hs1.symm.trans hs2)
          have hself := World.setSvc_self (w := w.stopService j interrupted)
            (s := { s1 with restarts := 0 }) (List.getElem?_eq_some_iff.1 hs1).1
          obtain ⟨s', hs', hp'⟩ := Held.run hr _ hself
          refine ⟨s', hs', SamePolicy.trans ?_ hp'⟩
          exact ⟨hp.type, hp.exec, hp.respawn, rfl, hp.window⟩
        · have hset : Held i (w.stopService j interrupted)
              ((w.stopService j interrupted).setSvc j { s1 with restarts := 0 }) :=
            Held.set hs1 rfl fun h => absurd (congrArg some h) hij
          exact ((hstop.trans hset).trans (Held.run hr)).same hs
  | enable name =>
    unfold Urverk.ctlHandle at hr
    dsimp only at hr
    split at hr <;> cases hr
    · exact (Held.refl i w).same hs
    · exact (Held.of_svcs rfl).same hs
  | disable name =>
    unfold Urverk.ctlHandle at hr
    rw [commanded]
    cases hj : svcByName w.svcs name with
    | none =>
      simp only [hj] at hr
      obtain rfl := some.inj hr
      exact (Held.refl i w).same hs
    | some j =>
      simp only [hj] at hr
      obtain rfl := some.inj hr
      generalize hw1 : (if marked = true then { w with disabled := name :: w.disabled } else w) = w1
      have hsvcs : w1.svcs = w.svcs := by
        rw [← hw1]
        split <;> rfl
      have hs1 : w1.svcs[i]? = some s := by rw [hsvcs, hs]
      split_ifs with hij
      · obtain rfl := some.inj hij
        exact stopFor_self hs1 interrupted
      · exact (Held.stopFor (fun h => hij (congrArg some h)) w1 interrupted).same hs1
  | shutdown | other =>
    obtain rfl := some.inj hr
    exact (Held.refl i w).same hs

/-- An answer of the reaper is that of `should_respawn`. -/
def Answers (s : Svc) : Happened → Prop
  | .exit clean now able again => again = (able && (shouldRespawn clean now s).2)
  | _ => True

theorem step_happened {op : Op} (hl : Listening st)
    (hs : st.w.svcs[i]? = some s) (ht : s.type = .simple) (h : step con mktime st op = some st') :
    ∃ s', st'.w.svcs[i]? = some s' ∧ SamePolicy ((happened con i st op st').foldl Svc.after s) s' ∧
      ∀ e ∈ happened con i st op st', Answers s e := by
  have hi : ∀ t, st.w.svcs[i]? = some t → t.type = .simple := by
    intro t hti
    obtain rfl := some.inj (hs.symm.trans hti)
    exact ht
  have hheld : happened con i st op st' = [] → Held i st.w st'.w → ∃ s', st'.w.svcs[i]? = some s' ∧
      SamePolicy ((happened con i st op st').foldl Svc.after s) s' ∧
      ∀ e ∈ happened con i st op st', Answers s e := by
    intro hnil hheld
    obtain ⟨s', hs', hp⟩ := hheld s hs
    rw [hnil]
    exact ⟨s', hs', hp, List.forall_mem_nil _⟩
  cases op with
  | command text interrupted marked fork =>
    cases step_move con mktime h with
    | command hphase hw =>
      obtain ⟨s', hs', hp⟩ := ctlHandle_self hs hw
      refine ⟨s', hs', hp, fun e he => ?_⟩
      rw [happened] at he
      unfold commanded at he
      split at he
      · split_ifs at he
        · rw [List.mem_singleton.1 he]
          trivial
        · cases he
      · split_ifs at he
        · rw [List.mem_singleton.1 he]
          trivial
        · cases he
      · split_ifs at he
        · rw [List.mem_singleton.1 he]
          trivial
        · cases he
      · cases he
  | reap p now listens fork =>
    simp only [step] at h
    split_ifs at h with hphase
    split at h
    · rename_i pid svc clean hkid
      obtain ⟨w, hw, rfl⟩ := map_eq_some_iff.1 h
      have hstatus : statusOf st.w p = clean := by
        rw [statusOf, hkid]
        cases clean <;> rfl
      by_cases hp : st.w.svcByPid p = some i ∧ st.shutdown = false
      · rw [hp.2] at hw
        obtain ⟨s', hs', hsame, hran⟩ := onReap_self hs ht hp.1 hw
        have hhap : happened con i st (.reap p now listens fork) { st with w } =
            [.exit clean now (fork.isSome && s.hasCommand con) (decide (s'.pid ≠ 0))] := by
          rw [happened, if_pos hp, hstatus, hs, hs']
          rfl
        rw [hhap]
        refine ⟨s', hs', hsame, fun e he => ?_⟩
        rw [List.mem_singleton.1 he]
        exact hran
      · refine hheld (if_neg hp) (.onReap hi (fun hpid => ?_) hw)
        by_contra hno
        exact hp ⟨hpid, by simpa using hno⟩
    · cases h
  | poll ctl conns =>
    cases step_move con mktime h with
    | poll => exact hheld rfl (.refl i st.w)
  | connection fork =>
    cases step_move con mktime h with
    | @connection _ j conns w hphase hw =>
      refine hheld rfl (.onConnection (fun hj => ?_) hw)
      obtain ⟨r, hr, hsock, -⟩ := (hl false (j :: conns) hphase).2 j List.mem_cons_self
      rw [hi r (hj ▸ hr)] at hsock
      cases hsock
  | clock now =>
    cases step_move con mktime h with
    | clock => exact hheld rfl (.refl i st.w)
  | timer fork =>
    cases step_move con mktime h with
    | timer hw => exact hheld rfl (.onTimer hi hw)
    | timersDone => exact hheld rfl (.refl i st.w)
  | pass =>
    cases step_move con mktime h with
    | pass => exact hheld rfl (.refl i st.w)
  | exit p clean =>
    cases step_move con mktime h with
    | exit => exact hheld rfl (.of_svcs rfl)
  | adopt p =>
    cases step_move con mktime h with
    | adopt => exact hheld rfl (.of_svcs rfl)
  | signal =>
    cases step_move con mktime h with
    | signal => exact hheld rfl (.refl i st.w)

/-! ## A run -/

/-- The reaper answers all along a history as `should_respawn` does. -/
def Follows : Svc → List Happened → Prop
  | _, [] => True
  | s, e :: hs => Answers s e ∧ Follows (s.after e) hs

theorem SamePolicy.after (h : SamePolicy s s') (e : Happened) : SamePolicy (s.after e) (s'.after e) := by
  cases e with
  | exit clean now able again => exact (shouldRespawn_congr clean now h).1
  | start => exact ⟨h.type, h.exec, h.respawn, rfl, h.window⟩
  | off => exact ⟨h.type, h.exec, rfl, h.restarts, h.window⟩

theorem Follows.congr (h : SamePolicy s s') (hf : Follows s' hs) : Follows s hs := by
  induction hs generalizing s s' with
  | nil => trivial
  | cons e hs ih =>
    refine ⟨?_, ih (h.after e) hf.2⟩
    cases e with
    | exit clean now able again =>
      have hanswer : again = (able && (shouldRespawn clean now s').2) := hf.1
      rw [(shouldRespawn_congr clean now h).2] at hanswer
      exact hanswer
    | start | off => trivial

theorem follows_append {hs' : List Happened} :
    Follows s (hs ++ hs') ↔ Follows s hs ∧ Follows (hs.foldl Svc.after s) hs' := by
  induction hs generalizing s with
  | nil => exact (and_iff_right trivial).symm
  | cons e hs ih =>
    rw [List.cons_append, Follows, Follows, ih, List.foldl_cons, and_assoc]

theorem after_type (s : Svc) (e : Happened) : (s.after e).type = s.type := by
  cases e with
  | exit clean now able again => exact (shouldRespawn_def clean now s).1
  | start | off => rfl

theorem foldl_after_type (hs : List Happened) (s : Svc) : (hs.foldl Svc.after s).type = s.type := by
  induction hs generalizing s with
  | nil => rfl
  | cons e hs ih => rw [List.foldl_cons, ih, after_type]

theorem happened_follows {op : Op}
    (h : ∀ e ∈ happened con i st op st', Answers s e) : Follows s (happened con i st op st') := by
  have hshort : (happened con i st op st').length ≤ 1 := by
    unfold happened commanded
    split
    · split
      · split_ifs <;> simp
      · split_ifs <;> simp
      · split_ifs <;> simp
      · simp
    · split_ifs <;> simp
    · simp
  cases hh : happened con i st op st' with
  | nil => trivial
  | cons e hs =>
    rw [hh, List.length_cons] at hshort
    rw [List.eq_nil_of_length_eq_zero (show hs.length = 0 by omega)]
    exact ⟨h e (by rw [hh]; exact List.mem_cons_self), trivial⟩

theorem history_follows {ops : List Op} (hrun : Run con mktime st ops st')
    (hl : Listening st) (hs : st.w.svcs[i]? = some s) (ht : s.type = .simple) :
    Follows s (history con mktime i st ops) := by
  induction hrun generalizing s with
  | nil => trivial
  | @cons st st1 st' op ops hstep hrun ih =>
    obtain ⟨s1, hs1, hp, hanswers⟩ := step_happened hl hs ht hstep
    rw [history, hstep]
    rw [follows_append]
    have ht1 : s1.type = .simple := by rw [hp.type, foldl_after_type, ht]
    exact ⟨happened_follows hanswers, (ih (hl.step hstep) hs1 ht1).congr hp⟩

/-! ## While the policy is in force -/

theorem after_exit {able again : Bool}
    (hcount : (counts s.respawn s.limiter (.exit clean now able again)).counted ≤ 5) :
    (s.after (.exit clean now able again)).respawn = s.respawn ∧
      (s.after (.exit clean now able again)).limiter =
        counts s.respawn s.limiter (.exit clean now able again) := by
  rw [counts] at hcount ⊢
  rw [Svc.after]
  cases ha : s.respawn.asks clean with
  | false =>
    rw [shouldRespawn_quiet ha]
    exact ⟨rfl, rfl⟩
  | true =>
    rw [ha, if_pos rfl] at hcount
    rw [shouldRespawn_asked ha, if_pos rfl]
    exact ⟨if_neg (by omega), rfl⟩

/-- As long as a service is neither turned off nor given up on, it has its policy, and counts as the
ledger does. -/
theorem foldl_after (hoff : .off ∉ hs)
    (hcount : ∀ l, l <+: hs → (l.foldl (counts s.respawn) s.limiter).counted ≤ 5) :
    (hs.foldl Svc.after s).respawn = s.respawn ∧
      (hs.foldl Svc.after s).limiter = hs.foldl (counts s.respawn) s.limiter := by
  induction hs generalizing s with
  | nil => exact ⟨rfl, rfl⟩
  | cons e hs ih =>
    rw [List.mem_cons, not_or] at hoff
    have hone : (s.after e).respawn = s.respawn ∧
        (s.after e).limiter = counts s.respawn s.limiter e := by
      cases e with
      | exit clean now able again =>
        exact after_exit (hcount [.exit clean now able again] ⟨hs, rfl⟩)
      | start => exact ⟨rfl, rfl⟩
      | off => exact absurd rfl hoff.1
    have hrest := ih (s := s.after e) hoff.2 fun l hl => by
      rw [hone.1, hone.2]
      exact hcount (e :: l) (List.prefix_cons_inj e |>.2 hl)
    rw [hone.1, hone.2] at hrest
    exact hrest

theorem Follows.law {before after : List Happened} {able again : Bool}
    (hf : Follows s (before ++ Happened.exit clean now able again :: after)) (hlim : s.limiter = ⟨0, 0⟩)
    (hforce : InForce s.respawn before) : again = (able && (s.respawn.asks clean &&
      decide ((ledger s.respawn (before ++ [Happened.exit clean now able again])).counted ≤ 5))) := by
  obtain ⟨hresp, hledger⟩ := foldl_after (s := s) hforce.1 (by rw [hlim]; exact hforce.2)
  have hanswer : again = (able && (shouldRespawn clean now (before.foldl Svc.after s)).2) :=
    ((follows_append.1 hf).2).1
  rw [hlim] at hledger
  rw [hanswer, ledger, List.foldl_append, List.foldl_cons, List.foldl_nil, ← hledger, counts]
  congr 1
  cases ha : s.respawn.asks clean with
  | false =>
    rw [shouldRespawn_quiet (by rw [hresp, ha])]
    rfl
  | true =>
    rw [shouldRespawn_asked (by rw [hresp, ha]), if_pos rfl, Bool.true_and]

/-! ## Restarts in a minute -/

theorem Follows.admitted (hf : Follows s hs) (hstart : .start ∉ hs) :
    ∃ ts, ts.Sublist (exits hs) ∧ (restarts hs).Sublist (admitted 60 5 s.limiter ts) := by
  induction hs generalizing s with
  | nil => exact ⟨[], .slnil, .slnil⟩
  | cons e hs ih =>
    rw [List.mem_cons, not_or] at hstart
    obtain ⟨ts, hts, hres⟩ := ih hf.2 hstart.2
    cases e with
    | start => exact absurd rfl hstart.1
    | off => exact ⟨ts, hts, hres⟩
    | exit clean now able again =>
      have hanswer : again = (able && (shouldRespawn clean now s).2) := hf.1
      rw [Svc.after] at hres
      cases ha : s.respawn.asks clean with
      | false =>
        rw [shouldRespawn_quiet ha] at hanswer hres
        rw [Bool.and_false] at hanswer
        subst hanswer
        exact ⟨ts, hts.cons now, hres⟩
      | true =>
        rw [shouldRespawn_asked ha] at hanswer hres
        refine ⟨now :: ts, hts.cons_cons now, ?_⟩
        rw [Window.admitted]
        cases again with
        | false =>
          split_ifs
          · exact hres.cons now
          · exact hres
        | true =>
          have hle : (s.limiter.count 60 now).counted ≤ (5 : Nat) :=
            of_decide_eq_true (Bool.and_eq_true_iff.1 hanswer.symm).2
          rw [if_pos hle]
          exact hres.cons_cons now

theorem after_restarts (hs : 0 ≤ s.restarts) (e : Happened) : 0 ≤ (s.after e).restarts := by
  cases e with
  | exit clean now able again =>
    rw [Svc.after]
    cases ha : s.respawn.asks clean with
    | false => rwa [shouldRespawn_quiet ha]
    | true =>
      rw [shouldRespawn_asked ha]
      exact count_nonneg hs now
  | start => exact le_rfl
  | off => exact hs

theorem foldl_after_restarts (hs : List Happened) (h : 0 ≤ s.restarts) :
    0 ≤ (hs.foldl Svc.after s).restarts := by
  induction hs generalizing s with
  | nil => exact h
  | cons e hs ih => exact ih (after_restarts h e)

theorem Follows.ten {before piece after : List Happened} (hf : Follows s (before ++ piece ++ after))
    (hzero : 0 ≤ s.restarts) (hstart : .start ∉ piece)
    (htimes : (exits (before ++ piece ++ after)).Pairwise (· ≤ ·)) (a : Int) :
    (within 60 a (restarts piece)).length ≤ 10 := by
  have hpiece := (follows_append.1 (follows_append.1 hf).1).2
  obtain ⟨ts, hts, hres⟩ := hpiece.admitted hstart
  have hsub : (exits piece).Sublist (exits (before ++ piece ++ after)) := by
    rw [exits, exits, List.filterMap_append, List.filterMap_append]
    exact (List.sublist_append_right _ _).trans (List.sublist_append_left _ _)
  have hbound : (within 60 a
      (Lib.Window.admitted 60 5 (before.foldl Svc.after s).limiter ts)).length ≤ 2 * 5 :=
    length_admitted_le (foldl_after_restarts before hzero) (htimes.sublist (hts.trans hsub)) a
  exact (hres.filter _).length_le.trans hbound

/-! ## From the boot on -/

section Boot

variable {env : BootEnv} {b b' : Boot}

theorem Held.bootService {fallback : Bool} (hb : bootService env b j s fallback = some b') :
    Held i b.w b'.w := by
  unfold Urverk.bootService at hb
  split_ifs at hb
  obtain rfl := some.inj hb
  exact .startService _ _ _

theorem Held.awaitOneshot (w : World) (j : Nat) : Held i w (awaitOneshot env w j) := by
  unfold Urverk.awaitOneshot
  cases hs : w.svcs[j]? with
  | none => exact .refl i w
  | some s =>
    dsimp only
    split_ifs
    · exact .refl i w
    · split
      · exact .set hs rfl fun _ => ⟨rfl, rfl, rfl, rfl, rfl⟩
      · exact .set hs rfl fun _ => ⟨rfl, rfl, rfl, rfl, rfl⟩

theorem Held.handle (hs : b.w.svcs[j]? = some s) (hb : handle env b j s = some b') :
    Held i b.w b'.w := by
  unfold Urverk.handle at hb
  split at hb
  · obtain rfl := some.inj hb
    refine .set hs rfl fun _ => ?_
    unfold timerSchedule
    split_ifs <;> exact ⟨rfl, rfl, rfl, rfl, rfl⟩
  · obtain rfl := some.inj hb
    refine .set hs rfl fun _ => ?_
    unfold socketListen
    split_ifs <;> exact ⟨rfl, rfl, rfl, rfl, rfl⟩
  · exact .bootService hb
  · obtain ⟨b1, hb1, rfl⟩ := map_eq_some_iff.1 hb
    exact (Held.bootService hb1).trans (Held.awaitOneshot _ _)

theorem Held.boot (env : BootEnv) (i : Nat) (w : World) : BootInvariant env (Held i w) where
  handle h hs _ hb := h.trans (.handle hs hb)
  anyway h _ _ hb := h.trans (.bootService hb)

end Boot

theorem loadServices_limiter (disabled : List Name) (dir : Option (List Svc)) :
    ∀ s ∈ loadServices disabled dir, s.limiter = ⟨0, 0⟩ := by
  have hconcat : ∀ (svcs : List Svc) (s : Svc), (∀ t ∈ svcs, t.limiter = ⟨0, 0⟩) →
      s.limiter = ⟨0, 0⟩ → ∀ t ∈ svcs ++ [s], t.limiter = ⟨0, 0⟩ := by
    intro svcs s hall hs t ht
    rcases List.mem_append.1 ht with ht | ht
    · exact hall t ht
    · rwa [List.mem_singleton.1 ht]
  apply loadServices_rec (P := fun svcs => ∀ s ∈ svcs, s.limiter = ⟨0, 0⟩)
  · exact List.forall_mem_nil _
  · exact fun svcs file h _ _ => hconcat svcs _ h rfl
  · exact fun svcs file h _ _ => hconcat svcs _ h rfl
  · intro svcs b hb h _ _
    refine hconcat svcs b h ?_
    rcases List.mem_cons.1 hb with rfl | hb
    · rfl
    · rcases List.mem_cons.1 hb with rfl | hb
      · rfl
      · rw [List.mem_singleton.1 hb]
        rfl

/-- The service at `i` is a simple one, defined with this policy and not turned off. -/
def Defined (disabled : List Name) (dir : Option (List Svc)) (i : Nat) (P : Respawn) : Prop :=
  ∃ d, (loadServices disabled dir)[i]? = some d ∧ d.type = .simple ∧ d.respawn = P ∧
    d.name ∉ disabled

/-- A history is as the policy says: as long as it is in force, an exit is followed by a restart
exactly when the policy asks for it and no more than five are counted; and ten restarts are the most
in a minute in which an operator does not start the service. -/
structure Lawful (P : Respawn) (hs : List Happened) : Prop where
  answers : ∀ before clean now able again after,
    hs = before ++ Happened.exit clean now able again :: after → InForce P before →
      again = (able && (P.asks clean &&
        decide ((ledger P (before ++ [Happened.exit clean now able again])).counted ≤ 5)))
  ten : ∀ before piece after, hs = before ++ piece ++ after → (exits hs).Pairwise (· ≤ ·) →
    .start ∉ piece → ∀ a, (within 60 a (restarts piece)).length ≤ 10

/-- From every boot, along every run. -/
theorem respawn_law {env : BootEnv} {disabled : List Name} {dir : Option (List Svc)}
    {kids : List Kid} {i : Nat} {P : Respawn} (hdef : Defined disabled dir i P) {b : Boot}
    (hb : startAll env (boot disabled dir kids) = some b) {ops : List Op} {st : Init}
    (hrun : Run env.con env.mktime ⟨b.w, .top, false⟩ ops st) :
    Lawful P (history env.con env.mktime i ⟨b.w, .top, false⟩ ops) := by
  obtain ⟨d, hd, ht, rfl, -⟩ := hdef
  obtain ⟨s, hs, hp⟩ := (Held.boot env i (boot disabled dir kids)).startAll (Held.refl i _) hb d hd
  have hf : Follows d (history env.con env.mktime i ⟨b.w, .top, false⟩ ops) :=
    (history_follows hrun (Listening.elsewhere nofun) hs (hp.type.trans ht)).congr hp
  have hlim := loadServices_limiter disabled dir d (List.mem_of_getElem? hd)
  constructor
  · intro before clean now able again after heq hforce
    rw [heq] at hf
    exact hf.law hlim hforce
  · intro before piece after heq htimes hstart a
    rw [heq] at hf htimes
    exact hf.ten (le_of_eq (congrArg Limiter.counted hlim).symm) hstart htimes a

end Ops

/-- The rest of a pass, from the report of the control socket to the reaper, with four services. -/
def restOfPass (now : Int) : List Op := .clock now :: List.replicate 5 (.timer none)

/-- A service exits and is reaped, with the pid that a fork would return. -/
def exitAndReap (p q : Nat) (now : Int) : List Op := [.exit p false, .reap p now false (some q)]

theorem respawn_law_app : ∃ b st, startAll calm (boot [] (some [app]) []) = some b ∧
    Run calm.con calm.mktime ⟨b.w, .top, false⟩ (Op.poll false [] :: restOfPass 100 ++ exitAndReap 1 101 100)
      st ∧ Lawful .always (history calm.con calm.mktime 0 ⟨b.w, .top, false⟩
      (Op.poll false [] :: restOfPass 100 ++ exitAndReap 1 101 100)) := by
  have hsome : ((startAll calm (boot [] (some [app]) [])).bind fun b =>
      (Op.poll false [] :: restOfPass 100 ++ exitAndReap 1 101 100).foldlM (step calm.con calm.mktime)
        ⟨b.w, .top, false⟩).isSome = true := by decide
  obtain ⟨st, hst⟩ := Option.isSome_iff_exists.1 hsome
  obtain ⟨b, hb, hfold⟩ := Option.bind_eq_some_iff.1 hst
  have hrun := Run.of_foldlM hfold
  exact ⟨b, st, hb, hrun, respawn_law ⟨cleared app, by decide, rfl, rfl, List.not_mem_nil⟩ hb hrun⟩

/-- Five exits in one second, from the instance `p` on. -/
def five (p q : Nat) : List Op :=
  exitAndReap p q 100 ++ exitAndReap q (q + 1) 100 ++ exitAndReap (q + 1) (q + 2) 100 ++
    exitAndReap (q + 2) (q + 3) 100 ++ exitAndReap (q + 3) (q + 4) 100

/-- An operator who restarts the service twice lets it be brought back eleven times in one second;
and a service that has been stopped and started again is not brought back, whatever its policy. -/
theorem respawn_law_not : ((startAll calm (boot [] (some [app]) [])).map fun b =>
      (within 60 100 (restarts (history calm.con calm.mktime 0 ⟨b.w, .top, false⟩
        (Op.poll false [] :: restOfPass 100 ++ five 1 101 ++ Op.pass ::
          .poll true [] :: .command (ascii "restart app") false false (some 200) ::
          restOfPass 100 ++ five 200 201 ++ Op.pass ::
          .poll true [] :: .command (ascii "restart app") false false (some 300) ::
          restOfPass 100 ++ exitAndReap 300 301 100)))).length) = some 11 ∧
    ((startAll calm (boot [] (some [app]) [])).map fun b =>
      history calm.con calm.mktime 0 ⟨b.w, .top, false⟩
        (Op.poll true [] :: .command (ascii "stop app") false false none :: restOfPass 100 ++ Op.pass ::
          .poll true [] :: .command (ascii "start app") false false (some 200) :: restOfPass 100 ++
          exitAndReap 200 201 100)) = some [.off, .start, .exit false 100 true false] := by
  decide +kernel

end Verkos.Urverk
