import Verkos.Stam.Exit

/-!
# Who collects a zombie

A finished process keeps its slot until its parent asks for it, and the parent is known by its
id. `thread_exit` does not look at the children of the process that exits: they keep the id of a
process that is about to be gone, and no later call can release their slots.

Along every run in which a process collects its children before it exits, every zombie has a
parent that is still there. The run may switch anywhere and a parent may collect a child that
has not left its processor yet; the only thing such a child still does is to schedule.
-/

namespace Verkos.Stam

attribute [local instance] neZero1

namespace Sched

variable {n : Nat}

/-- Neither free nor a zombie. -/
def Live (th : Thread n) : Prop := th.state ≠ .free ∧ th.state ≠ .zombie

/-- The thread whose id is the parent of the one in slot `t`. -/
def ParentOf (s : Sched n) (u t : Fin maxThreads) : Prop :=
  Live (s.threads u) ∧ (s.threads u).id = (s.threads t).parent

/-- Every zombie has a parent, and whenever the parent is on a processor its next scan releases
the slot of a finished child. -/
def Collectable (s : Sched n) : Prop :=
  ∀ t, (s.threads t).state = .zombie →
    (∃ u, s.ParentOf u t) ∧
    ∀ c, s.ParentOf (s.current c) t → ∃ t', (s.threads t').state = .zombie ∧
      s.ParentOf (s.current c) t' ∧ ((s.threadReap c).threads t').state = .free

/-- A processor that stands on a slot collected under it is in the last lines of `thread_exit`
and does nothing a program does. -/
def Possible (s : Sched n) : Step n → Prop
  | .work c _ _ | .create c _ _ _ | .exit c | .block c _ _ _ _ | .wait c _ | .reap c =>
    (s.threads (s.current c)).state ≠ .free
  | _ => True

instance (s : Sched n) : (st : Step n) → Decidable (s.Possible st)
  | .work _ _ _ | .create _ _ _ _ | .exit _ | .block _ _ _ _ _ | .wait _ _ | .reap _ =>
    inferInstanceAs (Decidable (_ ≠ _))
  | .tick _ _ | .setpgid _ _ | .exitStep _ _ | .wakePipe _ | .wakeConsole | .signal _ =>
    inferInstanceAs (Decidable True)

/-- A process that exits has no child left, running or finished. -/
def Orderly (s : Sched n) : Step n → Prop
  | .exit c => s.Ordinary c →
    ∀ t, (s.threads t).state ≠ .free → (s.threads t).parent ≠ (s.threads (s.current c)).id
  | _ => True

instance (s : Sched n) : (st : Step n) → Decidable (s.Orderly st)
  | .exit _ => inferInstanceAs (Decidable (_ → ∀ _, _))
  | .work _ _ _ | .create _ _ _ _ | .block _ _ _ _ _ | .wait _ _ | .reap _ | .tick _ _
  | .setpgid _ _ | .exitStep _ _ | .wakePipe _ | .wakeConsole | .signal _ =>
    inferInstanceAs (Decidable True)

/-- Every step of the run is possible, and satisfies `p`, in the state it is made in. -/
def Along (p : Sched n → Step n → Prop) (s : Sched n) : List (Step n) → Prop
  | [] => True
  | st :: steps => s.Possible st ∧ p s st ∧ (s.step st).Along p steps

instance decidableAlong (p : Sched n → Step n → Prop) [∀ s st, Decidable (p s st)] :
    (s : Sched n) → (steps : List (Step n)) → Decidable (s.Along p steps)
  | _, [] => inferInstanceAs (Decidable True)
  | s, st :: steps =>
    have := decidableAlong p (s.step st) steps
    inferInstanceAs (Decidable (_ ∧ _ ∧ _))

/-! ## Families -/

/-- An idle thread never ends, and one of them is a child of the boot thread, which has no
parent; a zombie is in `thread_exit`; every other thread has a parent. -/
structure Family (s : Sched n) : Prop where
  home : ∀ t, (s.threads t).home ≠ none → Live (s.threads t)
  idle : ∀ c t, (s.cpus c).idle = some t → (s.threads t).home ≠ none
  exiting : ∀ t, (s.threads t).state = .zombie → (s.threads t).exit ≠ none
  root : Fin n → ∃ t, (s.threads t).home ≠ none ∧ (s.threads t).parent = 0
  parent : ∀ t, (s.threads t).state ≠ .free → (s.threads t).home = none →
    ((s.threads t).id = 0 ∧ Live (s.threads t)) ∨ ∃ u, s.ParentOf u t

/-- What makes up a family is as it was in this slot. -/
structure SameThread (th th' : Thread n) : Prop where
  id : th'.id = th.id
  parent : th'.parent = th.parent
  home : th'.home = th.home
  live : Live th' ↔ Live th
  free : th'.state = .free ↔ th.state = .free
  exit : th'.exit = none ↔ th.exit = none

/-- And in every slot. -/
structure SameFamily (s s' : Sched n) : Prop where
  threads : ∀ t, SameThread (s.threads t) (s'.threads t)
  idle : ∀ c, (s'.cpus c).idle = (s.cpus c).idle

variable {s s' s'' : Sched n} {c : Fin n} {t u : Fin maxThreads}

theorem SameThread.refl (th : Thread n) : SameThread th th := ⟨rfl, rfl, rfl, .rfl, .rfl, .rfl⟩

theorem SameThread.trans {a b c : Thread n} (h : SameThread a b) (h' : SameThread b c) :
    SameThread a c where
  id := h'.id.trans h.id
  parent := h'.parent.trans h.parent
  home := h'.home.trans h.home
  live := h'.live.trans h.live
  free := h'.free.trans h.free
  exit := h'.exit.trans h.exit

theorem SameThread.zombie {th th' : Thread n} (h : SameThread th th') (hz : th'.state = .zombie) :
    th.state = .zombie := by
  by_contra hne
  have hfree : th.state ≠ .free := fun hf => by
    rw [h.free.2 hf] at hz
    cases hz
  exact (h.live.2 ⟨hfree, hne⟩).2 hz

theorem SameFamily.refl (s : Sched n) : SameFamily s s := ⟨fun _ => .refl _, fun _ => rfl⟩

theorem SameFamily.trans (h : SameFamily s s') (h' : SameFamily s' s'') : SameFamily s s'' :=
  ⟨fun t => (h.threads t).trans (h'.threads t), fun c => (h'.idle c).trans (h.idle c)⟩

theorem SameFamily.parentOf (h : SameFamily s s') (hp : s.ParentOf u t) : s'.ParentOf u t :=
  ⟨(h.threads u).live.2 hp.1, by rw [(h.threads u).id, (h.threads t).parent, hp.2]⟩

theorem Family.same (hf : Family s) (h : SameFamily s s') : Family s' where
  home t ht := (h.threads t).live.2 (hf.home t ((h.threads t).home ▸ ht))
  idle c t ht := (h.threads t).home ▸ hf.idle c t (h.idle c ▸ ht)
  exiting t ht he := hf.exiting t ((h.threads t).zombie ht) ((h.threads t).exit.1 he)
  root c := by
    obtain ⟨t, ht, hp⟩ := hf.root c
    exact ⟨t, (h.threads t).home ▸ ht, (h.threads t).parent.trans hp⟩
  parent t ht hh := by
    rcases hf.parent t (fun hfree => ht ((h.threads t).free.2 hfree))
      ((h.threads t).home ▸ hh) with ⟨hid, hl⟩ | ⟨u, hu⟩
    · exact .inl ⟨(h.threads t).id.trans hid, (h.threads t).live.2 hl⟩
    · exact .inr ⟨u, h.parentOf hu⟩

/-! ## Steps that keep every family as it is -/

theorem same_setThread {th : Thread n} (h : SameThread (s.threads t) th) :
    SameFamily s (s.setThread t th) where
  threads t' := by
    by_cases ht : t' = t
    · subst ht
      rw [setThread_self]
      exact h
    · rw [setThread_of_ne ht]
      exact .refl _
  idle _ := rfl

theorem same_wakeWhere (s : Sched n) (forget : Bool) (p : Thread n → Bool) :
    SameFamily s (s.wakeWhere forget p) where
  threads t := by
    rcases wakeWhere_cases s forget p t with h | ⟨hb, w, h⟩
    · rw [h]
      exact .refl _
    · rw [h]
      refine ⟨rfl, rfl, rfl, ?_, ?_, .rfl⟩
      · simp [Live, hb]
      · simp [hb]
  idle _ := rfl

theorem same_switchTo {next : Fin maxThreads} (hlive : Live (s.threads next)) :
    SameFamily s (s.switchTo c next) where
  threads t := by
    by_cases ht : t = next
    · subst ht
      rw [switchTo_threads_next]
      exact ⟨rfl, rfl, rfl, by simp [Live, hlive.1, hlive.2], by simp [hlive.1], .rfl⟩
    · by_cases hp : t = s.current c
      · subst hp
        rw [switchTo_threads_prev ht]
        have hstate : (s.outgoing c (s.current c)).state =
            if (s.threads (s.current c)).state = .running then .runnable
            else (s.threads (s.current c)).state := rfl
        refine ⟨rfl, rfl, rfl, ?_, ?_, leave_eq_none⟩
        · unfold Live
          rw [hstate]
          split <;> simp_all
        · rw [hstate]
          split <;> simp_all
      · rw [switchTo_threads_of_ne ht hp]
        exact .refl _
  idle c' := by
    simp only [switchTo_idle]

theorem Family.pick_live (h : Family s) {prev next : Fin maxThreads}
    (hp : s.pick c prev = some next) : Live (s.threads next) := by
  unfold pick at hp
  split at hp
  · rename_i t hr
    split at hp
    · cases hp
    · cases hp
      have hfound := List.find?_some hr
      simp only [decide_eq_true_eq] at hfound
      simp [Live, hfound.1]
  · split at hp
    · cases hp
    · split at hp
      · cases hp
      · rename_i t hi
        split at hp
        · cases hp
        · cases hp
          exact h.home _ (h.idle c _ hi)

theorem Family.scheduleLocked (h : Family s) (c : Fin n) (now : Nat) :
    SameFamily s (s.scheduleLocked c now) := by
  have hw : SameFamily s (s.wakeSleepers now) := same_wakeWhere s _ _
  unfold Sched.scheduleLocked
  dsimp only
  split
  · exact hw
  · rename_i next hp
    exact hw.trans (same_switchTo ((h.same hw).pick_live hp))

theorem Family.sleep (h : Family s) (th : Thread n) (hth : SameThread (s.threads (s.current c)) th)
    (now : Nat) : SameFamily s ((s.setThread (s.current c) th).scheduleLocked c now) :=
  have hset := same_setThread hth
  hset.trans ((h.same hset).scheduleLocked c now)

theorem same_state {th th' : Thread n} (hth : Live th) (hid : th'.id = th.id)
    (hparent : th'.parent = th.parent) (hhome : th'.home = th.home) (hstate : Live th')
    (hexit : th'.exit = th.exit) : SameThread th th' where
  id := hid
  parent := hparent
  home := hhome
  live := iff_of_true hstate hth
  free := iff_of_false hstate.1 hth.1
  exit := by rw [hexit]

theorem Family.exitStep (h : Family s) (c : Fin n) (now : Nat) :
    SameFamily s (s.exitStep c now) := by
  unfold Sched.exitStep
  dsimp only
  split
  · exact .refl s
  · rename_i he
    exact same_setThread ⟨rfl, rfl, rfl, .rfl, .rfl, by simp [closeFd, he]⟩
  · rename_i he
    exact same_setThread ⟨rfl, rfl, rfl, .rfl, .rfl, by simp [he]⟩
  · rename_i he
    have hw := same_wakeWhere s false
      fun th => decide (th.id = (s.threads (s.current c)).parent ∧ th.waitReason = .child)
    have hcur := hw.threads (s.current c)
    exact hw.trans (same_setThread ⟨hcur.id.symm, hcur.parent.symm, hcur.home.symm,
      hcur.live.symm, hcur.free.symm, by rw [hcur.exit, he]; simp⟩)
  · exact h.scheduleLocked c now
  · exact .refl s

theorem Family.ordinary_live (h : Family s) (ho : s.Ordinary c)
    (hfree : (s.threads (s.current c)).state ≠ .free) : Live (s.threads (s.current c)) :=
  ⟨hfree, fun hz => h.exiting _ hz ho.1⟩

theorem Family.threadBlock (h : Family s) (c : Fin n) (reason : WaitReason)
    (object wakeAt now : Nat) : SameFamily s (s.threadBlock c reason object wakeAt now) := by
  unfold Sched.threadBlock
  dsimp only
  split
  · rename_i hr
    have hlive : Live (s.threads (s.current c)) := by simp [Live, hr]
    apply h.sleep
    cases reason <;> exact same_state hlive rfl rfl rfl (by simp [Live, blocked]) rfl
  · exact .refl s

/-! ## Steps that change a family -/

theorem Family.threadCreate (h : Family s) (hlive : Live (s.threads (s.current c)))
    (space stackLow : Nat) (forked : Bool) : Family (s.threadCreate c space stackLow forked) := by
  unfold Sched.threadCreate
  cases ha : s.allocSlot with
  | none => exact h
  | some t =>
    have hfree : (s.threads t).state = .free := by simpa using List.find?_some ha
    dsimp only
    have hne : ∀ u, Live (s.threads u) → u ≠ t := by
      rintro u hu rfl
      exact hu.1 hfree
    have hold : ∀ {t'}, (∃ u, s.ParentOf u t') → t' ≠ t → ∀ {th : Thread n} {k : Nat},
        ∃ u, ({ s with nextId := k }.setThread t th).ParentOf u t' := by
      rintro t' ⟨u, hu⟩ ht' th k
      refine ⟨u, ?_⟩
      rw [ParentOf, setThread_of_ne (hne u hu.1), setThread_of_ne ht']
      exact hu
    refine ⟨fun t' ht' => ?_, fun c' t' hi => ?_, fun t' hz => ?_, fun c' => ?_, fun t' hs hh => ?_⟩
    · by_cases he : t' = t
      · subst he
        rw [setThread_self] at ht'
        exact absurd rfl ht'
      · rw [setThread_of_ne he] at ht' ⊢
        exact h.home t' ht'
    · have hhome := h.idle c' t' hi
      rwa [setThread_of_ne (hne t' (h.home t' hhome))]
    · by_cases he : t' = t
      · subst he
        rw [setThread_self] at hz
        cases hz
      · rw [setThread_of_ne he] at hz ⊢
        exact h.exiting t' hz
    · obtain ⟨t', ht', hp⟩ := h.root c'
      refine ⟨t', ?_⟩
      rw [setThread_of_ne (hne t' (h.home t' ht'))]
      exact ⟨ht', hp⟩
    · by_cases he : t' = t
      · subst he
        refine .inr ⟨s.current c, ?_⟩
        rw [ParentOf, setThread_of_ne (hne _ hlive), setThread_self]
        exact ⟨hlive, rfl⟩
      · rw [setThread_of_ne he] at hs hh ⊢
        rcases h.parent t' hs hh with hroot | hu
        · exact .inl hroot
        · exact .inr (hold hu he)

/-- A process with no children ends: it was nobody's parent, and its own parent is another. -/
theorem Family.threadExit (h : Family s) (ho : s.Ordinary c)
    (hfree : (s.threads (s.current c)).state ≠ .free) (hnone : ∀ t, (s.threads t).state ≠ .free →
      (s.threads t).parent ≠ (s.threads (s.current c)).id) : Family (s.threadExit c) := by
  have hself : ∀ t', t' ≠ s.current c →
      (s.threadExit c).threads t' = s.threads t' := fun t' ht' => setThread_of_ne ht'
  have hcur : (s.threadExit c).threads (s.current c) =
      { s.threads (s.current c) with
        state := .zombie, space := 0, exit := some (.closing 0 (s.threads (s.current c)).space) } :=
    setThread_self
  have hkeep : ∀ {t' u}, (s.threads t').state ≠ .free → s.ParentOf u t' →
      (s.threadExit c).ParentOf u t' := by
    intro t' u ht' hu
    have hne : u ≠ s.current c := by
      rintro rfl
      exact hnone t' ht' hu.2.symm
    rw [ParentOf, hself u hne]
    by_cases he : t' = s.current c
    · subst he
      rw [hcur]
      exact hu
    · rw [hself t' he]
      exact hu
  refine ⟨fun t' ht' => ?_, fun c' t' hi => ?_, fun t' hz => ?_, fun c' => ?_, fun t' hs hh => ?_⟩
  · by_cases he : t' = s.current c
    · subst he
      rw [hcur] at ht'
      exact absurd ho.2 ht'
    · rw [hself t' he] at ht' ⊢
      exact h.home t' ht'
  · by_cases he : t' = s.current c
    · subst he
      rw [hcur]
      exact h.idle c' _ hi
    · rw [hself t' he]
      exact h.idle c' t' hi
  · by_cases he : t' = s.current c
    · subst he
      rw [hcur]
      nofun
    · rw [hself t' he] at hz ⊢
      exact h.exiting t' hz
  · obtain ⟨t', ht', hp⟩ := h.root c'
    have he : t' ≠ s.current c := by
      rintro rfl
      exact ht' ho.2
    refine ⟨t', ?_⟩
    rw [hself t' he]
    exact ⟨ht', hp⟩
  · by_cases he : t' = s.current c
    · subst he
      rcases h.parent _ hfree ho.2 with ⟨hid, -⟩ | ⟨u, hu⟩
      · -- the boot thread does not end: an idle thread is its child
        obtain ⟨t, ht, hp⟩ := h.root c
        exact absurd (hp.trans hid.symm) (hnone t (h.home t ht).1)
      · exact .inr ⟨u, hkeep hfree hu⟩
    · rw [hself t' he] at hs hh ⊢
      rcases h.parent t' hs hh with hroot | ⟨u, hu⟩
      · exact .inl hroot
      · exact .inr ⟨u, hkeep hs hu⟩

theorem Family.releaseSlot (h : Family s) (hz : (s.threads t).state = .zombie) :
    Family (s.releaseSlot t) := by
  have hself : ∀ t', t' ≠ t → (s.releaseSlot t).threads t' = s.threads t' :=
    fun t' ht' => setThread_of_ne ht'
  have hfree : ((s.releaseSlot t).threads t).state = .free := by
    rw [Sched.releaseSlot, setThread_self]
  have hhome : (s.threads t).home = none := by
    by_contra hne
    exact (h.home t hne).2 hz
  have hhome' : ((s.releaseSlot t).threads t).home = none := by
    rw [Sched.releaseSlot, setThread_self]
    exact hhome
  have hne : ∀ u, Live (s.threads u) → u ≠ t := by
    rintro u hu rfl
    exact hu.2 hz
  refine ⟨fun t' ht' => ?_, fun c' t' hi => ?_, fun t' hz' => ?_, fun c' => ?_, fun t' hs hh => ?_⟩
  · by_cases he : t' = t
    · subst he
      exact absurd hhome' ht'
    · rw [hself t' he] at ht' ⊢
      exact h.home t' ht'
  · have ht' := h.idle c' t' hi
    rwa [hself t' (hne t' (h.home t' ht'))]
  · by_cases he : t' = t
    · subst he
      rw [hfree] at hz'
      cases hz'
    · rw [hself t' he] at hz' ⊢
      exact h.exiting t' hz'
  · obtain ⟨t', ht', hp⟩ := h.root c'
    refine ⟨t', ?_⟩
    rw [hself t' (hne t' (h.home t' ht'))]
    exact ⟨ht', hp⟩
  · by_cases he : t' = t
    · subst he
      exact absurd hfree hs
    · rw [hself t' he] at hs hh ⊢
      rcases h.parent t' hs hh with hroot | ⟨u, hu⟩
      · exact .inl hroot
      · refine .inr ⟨u, ?_⟩
        rw [ParentOf, hself u (hne u hu.1), hself t' he]
        exact hu

theorem Family.threadReap (h : Family s) (c : Fin n) : Family (s.threadReap c) := by
  unfold Sched.threadReap
  cases hz : s.zombieChild (s.threads (s.current c)).id with
  | none => exact h
  | some t => exact h.releaseSlot (zombieChild_some hz).2

theorem Family.threadWait (h : Family s) (hlive : Live (s.threads (s.current c))) (now : Nat) :
    Family (s.threadWait c now) := by
  unfold Sched.threadWait
  dsimp only
  cases hz : s.zombieChild (s.threads (s.current c)).id with
  | some t => exact h.releaseSlot (zombieChild_some hz).2
  | none =>
    dsimp only
    split
    · refine h.same (h.sleep { s.threads (s.current c) with
        waitReason := .child, state := .blocked } ?_ now)
      exact same_state hlive rfl rfl rfl (by simp [Live]) rfl
    · exact h

/-! ## Runs -/

theorem Family.step (h : Family s) {st : Step n} (hp : s.Possible st) (ho : s.Orderly st) :
    Family (s.step st) := by
  cases st with
  | tick c now => exact h.same (h.scheduleLocked c now)
  | work c space fd =>
    simp only [Sched.step]
    split
    · exact h.same (same_setThread ⟨rfl, rfl, rfl, .rfl, .rfl, .rfl⟩)
    · exact h
  | create c space stackLow forked =>
    simp only [Sched.step]
    split
    · next hord => exact h.threadCreate (h.ordinary_live hord hp) space stackLow forked
    · exact h
  | setpgid t pgid => exact h.same (same_setThread ⟨rfl, rfl, rfl, .rfl, .rfl, .rfl⟩)
  | exit c =>
    simp only [Sched.step]
    split
    · next hord => exact h.threadExit hord hp (ho hord)
    · exact h
  | exitStep c now => exact h.same (h.exitStep c now)
  | block c reason object wakeAt now =>
    simp only [Sched.step]
    split
    · exact h.same (h.threadBlock c reason object wakeAt now)
    · exact h
  | wakePipe object =>
    simp only [Sched.step, threadWakePipe]
    exact h.same (same_wakeWhere s _ _)
  | wakeConsole =>
    simp only [Sched.step, threadWakeConsole]
    exact h.same (same_wakeWhere s _ _)
  | signal pid =>
    simp only [Sched.step, threadSignal]
    exact h.same (same_wakeWhere s _ _)
  | wait c now =>
    simp only [Sched.step]
    split
    · next hord => exact h.threadWait (h.ordinary_live hord hp) now
    · exact h
  | reap c =>
    simp only [Sched.step]
    split
    · exact h.threadReap c
    · exact h

theorem Family.run (h : Family s) {steps : List (Step n)} (hs : s.Along Orderly steps) :
    Family (s.run steps) := by
  induction steps generalizing s with
  | nil => exact h
  | cons st steps ih => exact ih (h.step hs.1 hs.2.1) hs.2.2

theorem Family.collectable (h : Family s) : s.Collectable := by
  intro t hz
  have hhome : (s.threads t).home = none := by
    by_contra hne
    exact (h.home t hne).2 hz
  refine ⟨?_, fun c hc => ?_⟩
  · rcases h.parent t (by rw [hz]; nofun) hhome with ⟨-, hlive⟩ | hu
    · exact absurd hz hlive.2
    · exact hu
  · cases hs : s.zombieChild (s.threads (s.current c)).id with
    | none => exact absurd hz (zombieChild_none hs hc.2.symm)
    | some t' =>
      obtain ⟨hparent, hz'⟩ := zombieChild_some hs
      refine ⟨t', hz', ⟨hc.1, hparent.symm⟩, ?_⟩
      rw [Sched.threadReap, hs]
      exact congrArg Thread.state setThread_self

theorem boot_family (hn : n ≤ maxCpus) : Family (boot hn) where
  home t ht := by
    have hs := (boot_state hn t).2.2 ht
    rcases hs with hs | hs <;> simp [Live, hs]
  idle c t hi := by
    obtain rfl : idleSlot hn c = t := Option.some.inj hi
    rw [boot_idleSlot]
    rintro ⟨⟩
  exiting t hz := absurd hz (boot_state hn t).1
  root c := by
    have hpos : 0 < n := Nat.lt_of_le_of_lt (Nat.zero_le _) c.isLt
    refine ⟨idleSlot hn ⟨0, hpos⟩, ?_⟩
    rw [boot_idleSlot]
    exact ⟨by rintro ⟨⟩, rfl⟩
  parent t hs hh := by
    simp only [boot] at hs hh ⊢
    split at hs
    · rename_i h0
      rw [if_pos h0]
      exact .inl ⟨rfl, by simp [Live]⟩
    · rename_i h0
      rw [if_neg h0] at hh
      split at hs
      · rename_i hlt
        rw [dif_pos hlt] at hh
        cases hh
      · exact absurd rfl hs

/-- Every zombie can be collected, along every run in which no process exits that still has a
child. -/
theorem zombies_collectable (hn : n ≤ maxCpus) (steps : List (Step n))
    (h : (boot hn).Along Orderly steps) : ((boot hn).run steps).Collectable :=
  ((boot_family hn).run h).collectable

/-- One processor: the boot thread forks a child, which forks, waits for its own child, collects
it and exits. -/
def patientParent : List (Step 1) :=
  ([.create 0 0 5 true, .tick 0 0, .tick 0 0, .create 0 0 6 true, .wait 0 0, .exit 0] :
      List (Step 1)) ++ List.replicate 11 (.exitStep 0 0 : Step 1) ++
    ([.tick 0 0, .tick 0 0, .wait 0 0, .exit 0] : List (Step 1))

/-- The run keeps the rule and ends with the child a zombie. -/
theorem zombies_collectable_patient : ((boot one_le_maxCpus).run patientParent).Collectable ∧
      (((boot one_le_maxCpus).run patientParent).threads child1).state = .zombie :=
  ⟨zombies_collectable one_le_maxCpus patientParent (by decide +kernel), by decide +kernel⟩

/-- The child forks, exits at once and is collected in the end; its own child exits in between. -/
def hastyParent : List (Step 1) :=
  ([.create 0 0 5 true, .tick 0 0, .tick 0 0, .create 0 0 6 true, .exit 0] : List (Step 1)) ++
    List.replicate 11 (.exitStep 0 0 : Step 1) ++ [(.exit 0 : Step 1)] ++
    List.replicate 11 (.exitStep 0 0 : Step 1) ++ [(.reap 0 : Step 1)]

/-- The slot of the second process that is forked when there is one processor. -/
def grandchild : Fin maxThreads := ⟨3, three_lt_maxThreads⟩

/-- A zombie is left whose parent is the id of nobody at all. -/
theorem orphan_not_collectable : ¬ ((boot one_le_maxCpus).run hastyParent).Collectable ∧
      (((boot one_le_maxCpus).run hastyParent).threads grandchild).state = .zombie ∧
      ∀ u, (((boot one_le_maxCpus).run hastyParent).threads u).id ≠
        (((boot one_le_maxCpus).run hastyParent).threads grandchild).parent := by
  have hz : (((boot one_le_maxCpus).run hastyParent).threads grandchild).state = .zombie := by
    decide +kernel
  have hnone : ∀ u, (((boot one_le_maxCpus).run hastyParent).threads u).id ≠
      (((boot one_le_maxCpus).run hastyParent).threads grandchild).parent := by
    decide +kernel
  refine ⟨fun h => ?_, hz, hnone⟩
  obtain ⟨u, hu⟩ := (h grandchild hz).1
  exact hnone u hu.2

end Sched

end Verkos.Stam
