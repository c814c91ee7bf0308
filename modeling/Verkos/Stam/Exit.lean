import Verkos.Stam.Sched

/-!
# How a process ends

`thread_exit` marks its slot a zombie, lets go of the lock, and only then closes the
descriptors, gives the address space back and wakes the parent. The slot table is shared by
every processor: a tick may take the exiting thread off its processor at any point of that,
`next_runnable` never picks a zombie again, and the parent may be scanning for a zombie on
another processor.

A step of the machine is one section of `sched.c` under the scheduler's lock, or one piece of
the work `thread_exit` does outside it. A thread that is not in `thread_exit` may do anything
a program can make the kernel do; one that is does the next piece of the exit and nothing
else. An idle thread only schedules.

The exit completes along every run that keeps two rules, and a third that is about blocking:
no switch away from a thread between its zombie mark and its last piece of work, no scan by a
parent whose finished child has not left its processor, and no thread that blocks and goes on
running because `schedule_locked` found nothing else.
-/

namespace Verkos.Stam

open Option (some.inj some_ne_none)

attribute [local instance] neZero2

namespace Sched

variable {n : Nat}

/-! ## The sections of `sched.c` -/

/-- `alloc_slot`. -/
def allocSlot (s : Sched n) : Option (Fin maxThreads) :=
  (List.finRange maxThreads).find? fun t => decide ((s.threads t).state = .free)

/-- `thread_create` and `thread_fork`: a slot, initialised and then made runnable. A forked
child has its parent's descriptors. -/
def threadCreate (s : Sched n) (c : Fin n) (space stackLow : Nat) (forked : Bool) : Sched n :=
  match s.allocSlot with
  | none => s
  | some t =>
    let cur := s.threads (s.current c)
    let th : Thread n :=
      { state := .runnable, id := s.nextId, parent := cur.id, waitReason := .none
        waitObject := 0, wakeAt := 0, pgid := cur.pgid, home := none, space, userTable := 0
        stackLow, fd := if forked then cur.fd else fun _ => 0, exit := none }
    { s with nextId := s.nextId + 1 }.setThread t th

/-- A program opens, closes and duplicates its descriptors and replaces its space. -/
def work (s : Sched n) (c : Fin n) (space : Nat) (fd : Fin nfd → Nat) : Sched n :=
  s.setThread (s.current c) { s.threads (s.current c) with space, fd }

/-- `thread_setpgid`, at the slot it finds. -/
def threadSetpgid (s : Sched n) (t : Fin maxThreads) (pgid : Int) : Sched n :=
  s.setThread t { s.threads t with pgid }

/-- `thread_exit`, the section that marks the zombie. -/
def threadExit (s : Sched n) (c : Fin n) : Sched n :=
  let th := s.threads (s.current c)
  s.setThread (s.current c)
    { th with state := .zombie, space := 0, exit := some (.closing 0 th.space) }

/-- Closing descriptor `i`, and what is next. -/
def closeFd (th : Thread n) (i space : Nat) : Thread n :=
  { th with
    fd := fun j => if j.val = i then 0 else th.fd j
    exit := some (if i + 1 < nfd then .closing (i + 1) space else .freeing space) }

/-- `thread_exit`, the section that wakes a parent waiting for a child. -/
def wakeParent (s : Sched n) (parent : Int) : Sched n :=
  s.wakeWhere false fun th => decide (th.id = parent ∧ th.waitReason = .child)

/-- The next piece of `thread_exit` by the thread on `c`. -/
def exitStep (s : Sched n) (c : Fin n) (now : Nat) : Sched n :=
  let t := s.current c
  let th := s.threads t
  match th.exit with
  | none => s
  | some (.closing i space) => s.setThread t (closeFd th i space)
  | some (.freeing _) => s.setThread t { th with exit := some .waking }
  | some .waking =>
    (s.wakeParent th.parent).setThread t { th with exit := some .spinning }
  | some .spinning => s.scheduleLocked c now
  | some .gone => s

/-- The state `thread_block_on_console`, `thread_block_on_pipe` and
`thread_block_on_pipe_until` leave the thread in. A console wait keeps the deadline and the
object it finds. -/
def blocked (th : Thread n) (reason : WaitReason) (object wakeAt : Nat) : Thread n :=
  match reason with
  | .console => { th with state := .blocked, waitReason := .console }
  | _ => { th with state := .blocked, waitReason := .pipe, waitObject := object, wakeAt }

/-- The three blocking calls: only a thread that is running may be put to sleep. -/
def threadBlock (s : Sched n) (c : Fin n) (reason : WaitReason) (object wakeAt now : Nat) :
    Sched n :=
  let th := s.threads (s.current c)
  if th.state = .running then
    (s.setThread (s.current c) (blocked th reason object wakeAt)).scheduleLocked c now
  else s

/-- `thread_wake_pipe`. -/
def threadWakePipe (s : Sched n) (object : Nat) : Sched n :=
  s.wakeWhere true fun th => decide (th.waitReason = .pipe ∧ th.waitObject = object)

/-- `thread_wake_console`. -/
def threadWakeConsole (s : Sched n) : Sched n :=
  s.wakeWhere false fun th => decide (th.waitReason = .console)

/-- `thread_signal`: what it does to who runs. -/
def threadSignal (s : Sched n) (pid : Int) : Sched n :=
  s.wakeWhere false fun th => decide (if pid < 0 then th.pgid = -pid else th.id = pid)

/-- `release_slot`. -/
def releaseSlot (s : Sched n) (t : Fin maxThreads) : Sched n :=
  s.setThread t { s.threads t with
    stackLow := 0, parent := -1, id := -1, space := 0, waitReason := .none, waitObject := 0
    state := .free, exit := none }

/-- The finished child that the scan of `thread_wait` and `thread_reap` comes to first. -/
def zombieChild (s : Sched n) (id : Int) : Option (Fin maxThreads) :=
  (List.finRange maxThreads).find? fun t =>
    decide ((s.threads t).parent = id ∧ (s.threads t).state = .zombie)

/-- `have_children`. -/
def haveChildren (s : Sched n) (id : Int) : Bool :=
  (List.finRange maxThreads).any fun t =>
    decide ((s.threads t).parent = id ∧ (s.threads t).state ≠ .free)

/-- The caller of `thread_wait` marked asleep. -/
def waitMarked (s : Sched n) (c : Fin n) : Sched n :=
  s.setThread (s.current c)
    { s.threads (s.current c) with waitReason := .child, state := .blocked }

/-- One turn of `thread_wait`'s loop. -/
def threadWait (s : Sched n) (c : Fin n) (now : Nat) : Sched n :=
  let id := (s.threads (s.current c)).id
  match s.zombieChild id with
  | some t => s.releaseSlot t
  | none => if s.haveChildren id then (s.waitMarked c).scheduleLocked c now else s

/-- `thread_reap`. -/
def threadReap (s : Sched n) (c : Fin n) : Sched n :=
  match s.zombieChild (s.threads (s.current c)).id with
  | some t => s.releaseSlot t
  | none => s

/-! ## Runs -/

/-- What can happen on the machine that touches the slot table. -/
inductive Step (n : Nat)
  | tick (c : Fin n) (now : Nat)
  | work (c : Fin n) (space : Nat) (fd : Fin nfd → Nat)
  | create (c : Fin n) (space stackLow : Nat) (forked : Bool)
  | setpgid (t : Fin maxThreads) (pgid : Int)
  | exit (c : Fin n)
  | exitStep (c : Fin n) (now : Nat)
  | block (c : Fin n) (reason : WaitReason) (object wakeAt now : Nat)
  | wakePipe (object : Nat)
  | wakeConsole
  | signal (pid : Int)
  | wait (c : Fin n) (now : Nat)
  | reap (c : Fin n)

/-- The thread on `c` is a process outside `thread_exit`. -/
def Ordinary (s : Sched n) (c : Fin n) : Prop :=
  (s.threads (s.current c)).exit = none ∧ (s.threads (s.current c)).home = none

instance (s : Sched n) (c : Fin n) : Decidable (s.Ordinary c) := inferInstanceAs (Decidable (_ ∧ _))

def step (s : Sched n) : Step n → Sched n
  | .tick c now => s.scheduleLocked c now
  | .work c space fd => if s.Ordinary c then s.work c space fd else s
  | .create c space stackLow forked =>
    if s.Ordinary c then s.threadCreate c space stackLow forked else s
  | .setpgid t pgid => s.threadSetpgid t pgid
  | .exit c => if s.Ordinary c then s.threadExit c else s
  | .exitStep c now => s.exitStep c now
  | .block c reason object wakeAt now =>
    if s.Ordinary c then s.threadBlock c reason object wakeAt now else s
  | .wakePipe object => s.threadWakePipe object
  | .wakeConsole => s.threadWakeConsole
  | .signal pid => s.threadSignal pid
  | .wait c now => if s.Ordinary c then s.threadWait c now else s
  | .reap c => if s.Ordinary c then s.threadReap c else s

/-- A run of the machine. -/
def run (s : Sched n) (steps : List (Step n)) : Sched n := steps.foldl step s

/-- The slot a step gives to `release_slot`. -/
def collects (s : Sched n) : Step n → Option (Fin maxThreads)
  | .wait c _ => if s.Ordinary c then s.zombieChild (s.threads (s.current c)).id else none
  | .reap c => if s.Ordinary c then s.zombieChild (s.threads (s.current c)).id else none
  | _ => none

/-- A slot nobody has. -/
def freeThread (n : Nat) : Thread n :=
  { state := .free, id := -1, parent := -1, waitReason := .none, waitObject := 0, wakeAt := 0
    pgid := 0, home := none, space := 0, userTable := 0, stackLow := 0, fd := fun _ => 0
    exit := none }

/-- The slot of a processor's idle thread: after the boot thread, in the order they come. -/
def idleSlot (hn : n ≤ maxCpus) (c : Fin n) : Fin maxThreads :=
  ⟨1 + c, by have := c.isLt; simp only [maxThreads]; omega⟩

/-- The slots when every processor is up: the boot thread in the first, on the first
processor, and an idle thread for each processor after it. -/
def boot (hn : n ≤ maxCpus) : Sched n where
  threads t :=
    if t.val = 0 then { freeThread n with state := .running, id := 0 }
    else if h : t.val - 1 < n then
      { freeThread n with
        state := if t.val = 1 then .runnable else .running
        id := t.val
        parent := if t.val = 1 then 0 else -1
        home := some ⟨t.val - 1, h⟩ }
    else freeThread n
  cpus c :=
    { cur := if c.val = 0 then ⟨0, by decide⟩ else idleSlot hn c
      idle := some (idleSlot hn c)
      userTable := 0 }
  nextId := 1 + n

/-! ## What is claimed of an exit -/

/-- The space a thread has and has not given back. -/
def unreleased (th : Thread n) : Nat :=
  match th.exit with
  | some (.closing _ space) => space
  | some (.freeing space) => space
  | _ => th.space

/-- Every zombie that no processor is on has closed its descriptors and given its space back,
and its parent is not asleep waiting for it. -/
def Finished (s : Sched n) : Prop :=
  ∀ t, (s.threads t).state = .zombie → ¬ s.Executing t →
    (∀ i, (s.threads t).fd i = 0) ∧ unreleased (s.threads t) = 0 ∧
    ∀ p, (s.threads p).id = (s.threads t).parent →
      ¬ ((s.threads p).state = .blocked ∧ (s.threads p).waitReason = .child)

/-- A step never frees the stack of a thread some processor is on. -/
def StackSafe (s : Sched n) (st : Step n) : Prop :=
  ∀ t, s.collects st = some t → ¬ s.Executing t

/-! ## The rules a run keeps -/

/-- Between the zombie mark and the last piece of `thread_exit`. -/
def midExit (th : Thread n) : Prop :=
  match th.exit with
  | some (.closing _ _) | some (.freeing _) | some .waking => True
  | _ => False

instance (th : Thread n) : Decidable (midExit th) :=
  match h : th.exit with
  | some (.closing _ _) | some (.freeing _) | some .waking => isTrue (by simp only [midExit, h])
  | some .spinning | some .gone | none => isFalse (by simp only [midExit, h, not_false_eq_true])

/-- `schedule_locked` on `c` switches. -/
def Switches (s : Sched n) (c : Fin n) (now : Nat) : Prop :=
  ((s.wakeSleepers now).pick c (s.current c)).isSome

instance (s : Sched n) (c : Fin n) (now : Nat) : Decidable (s.Switches c now) :=
  inferInstanceAs (Decidable (_ = true))

/-- Every finished child of the thread on `c` has left its processor. -/
def ChildrenGone (s : Sched n) (c : Fin n) : Prop :=
  ∀ t, (s.threads t).parent = (s.threads (s.current c)).id → (s.threads t).state = .zombie →
    (s.threads t).exit = some .gone

instance (s : Sched n) (c : Fin n) : Decidable (s.ChildrenGone c) :=
  inferInstanceAs (Decidable (∀ _, _))

/-- The rules, step by step. A tick does not take a thread off its processor in the middle of
its exit; a parent does not scan while a finished child of its own is still on a processor;
and a thread that goes to sleep is switched away from. -/
def Meets (s : Sched n) : Step n → Prop
  | .tick c now => midExit (s.threads (s.current c)) → ¬ s.Switches c now
  | .block c reason object wakeAt now =>
    s.Ordinary c → (s.threads (s.current c)).state = .running →
      (s.setThread (s.current c)
        (blocked (s.threads (s.current c)) reason object wakeAt)).Switches c now
  | .wait c now => s.Ordinary c → s.ChildrenGone c ∧
    (s.zombieChild (s.threads (s.current c)).id = none →
      s.haveChildren (s.threads (s.current c)).id = true → (s.waitMarked c).Switches c now)
  | .reap c => s.Ordinary c → s.ChildrenGone c
  | _ => True

instance (s : Sched n) : (st : Step n) → Decidable (s.Meets st)
  | .tick _ _ => inferInstanceAs (Decidable (_ → _))
  | .block _ _ _ _ _ => inferInstanceAs (Decidable (_ → _ → _))
  | .wait _ _ => inferInstanceAs (Decidable (_ → _ ∧ (_ → _ → _)))
  | .reap _ => inferInstanceAs (Decidable (_ → _))
  | .work _ _ _ | .create _ _ _ _ | .setpgid _ _ | .exit _ | .exitStep _ _ | .wakePipe _
  | .wakeConsole | .signal _ => inferInstanceAs (Decidable True)

/-- Every step of the run meets the rules in the state it is made in. -/
def AllMeet (s : Sched n) : List (Step n) → Prop
  | [] => True
  | st :: steps => s.Meets st ∧ (s.step st).AllMeet steps

instance decidableAllMeet : (s : Sched n) → (steps : List (Step n)) → Decidable (s.AllMeet steps)
  | _, [] => inferInstanceAs (Decidable True)
  | s, st :: steps =>
    have := decidableAllMeet (s.step st) steps
    inferInstanceAs (Decidable (_ ∧ _))

/-! ## The invariant -/

/-- What a thread that has entered `thread_exit` has already let go of. -/
def Phase (th : Thread n) : Prop :=
  match th.exit with
  | none => True
  | some (.closing i _) => th.space = 0 ∧ ∀ j, j.val < i → th.fd j = 0
  | some _ => th.space = 0 ∧ ∀ j, th.fd j = 0

/-- What holds of every slot by itself: an idle thread runs or may run, a zombie is a thread
in `thread_exit`, and it has let go of what its progress says. -/
structure ThreadOk (th : Thread n) : Prop where
  keeper : th.home ≠ none → th.state = .runnable ∨ th.state = .running
  zombie : th.state = .zombie ↔ th.exit ≠ none
  phase : Phase th

/-- What holds of the table whatever the thread on a processor is about to do: a thread is on
one processor, an idle thread on its own; a thread in `thread_exit` is on a processor until it
is gone; and whoever sleeps for a child sleeps because of one that will still wake it. -/
structure Core (s : Sched n) : Prop where
  ok : ∀ t, ThreadOk (s.threads t)
  one : ∀ c c', s.current c = s.current c' → c = c'
  atHome : ∀ c h, (s.threads (s.current c)).home = some h → h = c
  idle : ∀ c t, (s.cpus c).idle = some t → (s.threads t).home = some c
  window : ∀ t e, (s.threads t).exit = some e → e ≠ .gone → s.Executing t
  off : ∀ t, (s.threads t).exit = some .gone → ¬ s.Executing t
  waiting : ∀ t p, (s.threads t).state = .zombie → (s.threads p).id = (s.threads t).parent →
    (s.threads p).state = .blocked → (s.threads p).waitReason = .child → midExit (s.threads t)

/-- The thread on `c` is running, or finished and still there. -/
def OnCpu (s : Sched n) (c : Fin n) : Prop :=
  (s.threads (s.current c)).state = .running ∨ (s.threads (s.current c)).state = .zombie

/-- The invariant between two steps. -/
structure Inv (s : Sched n) : Prop extends Core s where
  onCpu : ∀ c, s.OnCpu c

section Table

variable {s : Sched n} {c c' : Fin n} {t : Fin maxThreads} {th : Thread n}

theorem ThreadOk.exit_eq_none (h : ThreadOk th) (hs : th.state ≠ .zombie) : th.exit = none := by
  by_contra he
  exact hs (h.zombie.mpr he)

theorem setThread_self : (s.setThread t th).threads t = th := by
  simp [setThread]

theorem setThread_of_ne {t' : Fin maxThreads} (h : t' ≠ t) :
    (s.setThread t th).threads t' = s.threads t' := by
  simp [setThread, Function.update_of_ne h]

/-- One slot changes and no processor moves. -/
theorem Core.setThread (h : Core s) (hok : ThreadOk th) (hhome : th.home = (s.threads t).home)
    (hwindow : ∀ e, th.exit = some e → e ≠ .gone → s.Executing t)
    (hoff : th.exit = some .gone → ¬ s.Executing t)
    (hchild : th.state = .zombie → ¬ midExit th → ∀ p, p ≠ t → (s.threads p).id = th.parent →
      ¬ ((s.threads p).state = .blocked ∧ (s.threads p).waitReason = .child))
    (hparent : th.state = .blocked → th.waitReason = .child → ∀ z, z ≠ t →
      (s.threads z).state = .zombie → (s.threads z).parent = th.id → midExit (s.threads z)) :
    Core (s.setThread t th) := by
  have hhomes : ∀ t', ((s.setThread t th).threads t').home = (s.threads t').home := by
    intro t'
    by_cases ht : t' = t
    · subst ht; rw [setThread_self, hhome]
    · rw [setThread_of_ne ht]
  refine ⟨fun t' => ?_, h.one, fun c h' => ?_, fun c t' hi => ?_, fun t' e => ?_, fun t' => ?_,
    fun z p hz hid hb hw => ?_⟩
  · by_cases ht : t' = t
    · subst ht; rw [setThread_self]; exact hok
    · rw [setThread_of_ne ht]; exact h.ok t'
  · rw [hhomes]; exact h.atHome c h'
  · rw [hhomes]; exact h.idle c t' hi
  · by_cases ht : t' = t
    · subst ht; rw [setThread_self]; exact hwindow e
    · rw [setThread_of_ne ht]; exact h.window t' e
  · by_cases ht : t' = t
    · subst ht; rw [setThread_self]; exact hoff
    · rw [setThread_of_ne ht]; exact h.off t'
  · by_cases hzt : z = t
    · subst hzt
      rw [setThread_self] at hz hid ⊢
      by_cases hpt : p = z
      · subst hpt
        rw [setThread_self, hz] at hb
        cases hb
      · rw [setThread_of_ne hpt] at hid hb hw
        by_contra hm
        exact hchild hz hm p hpt hid ⟨hb, hw⟩
    · rw [setThread_of_ne hzt] at hz hid ⊢
      by_cases hpt : p = t
      · subst hpt
        rw [setThread_self] at hid hb hw
        exact hparent hb hw z hzt hz hid.symm
      · rw [setThread_of_ne hpt] at hid hb hw
        exact h.waiting z p hz hid hb hw

/-- What waking does to one slot. -/
theorem wakeWhere_cases (s : Sched n) (forget : Bool) (p : Thread n → Bool) (t : Fin maxThreads) :
    (s.wakeWhere forget p).threads t = s.threads t ∨
      (s.threads t).state = .blocked ∧ ∃ w, (s.wakeWhere forget p).threads t =
        { s.threads t with state := .runnable, wakeAt := w } := by
  simp only [wakeWhere]
  split
  · next h => exact .inr ⟨h.1, _, rfl⟩
  · exact .inl rfl

theorem Core.wakeWhere (h : Core s) (forget : Bool) (p : Thread n → Bool) :
    Core (s.wakeWhere forget p) := by
  have hexit : ∀ t, ((s.wakeWhere forget p).threads t).exit = (s.threads t).exit := by
    intro t
    rcases wakeWhere_cases s forget p t with he | ⟨-, w, he⟩ <;> rw [he]
  have hhome : ∀ t, ((s.wakeWhere forget p).threads t).home = (s.threads t).home := by
    intro t
    rcases wakeWhere_cases s forget p t with he | ⟨-, w, he⟩ <;> rw [he]
  refine ⟨fun t => ?_, h.one, fun c h' => ?_, fun c t hi => ?_, fun t e => ?_, fun t => ?_,
    fun z q hz hid hb hw => ?_⟩
  · rcases wakeWhere_cases s forget p t with he | ⟨hb, w, he⟩
    · rw [he]; exact h.ok t
    · rw [he]
      have hnone := (h.ok t).exit_eq_none (by rw [hb]; decide)
      exact ⟨fun _ => .inl rfl, ⟨fun hz => (by cases hz), fun hne => absurd hnone hne⟩,
        (h.ok t).phase⟩
  · rw [hhome]; exact h.atHome c h'
  · rw [hhome]; exact h.idle c t hi
  · rw [hexit]; exact h.window t e
  · rw [hexit]; exact h.off t
  · rcases wakeWhere_cases s forget p z with he | ⟨-, w, he⟩
    · rw [he] at hz hid ⊢
      rcases wakeWhere_cases s forget p q with heq | ⟨-, w, heq⟩
      · rw [heq] at hid hb hw
        exact h.waiting z q hz hid hb hw
      · rw [heq] at hb
        cases hb
    · rw [he] at hz
      cases hz

theorem OnCpu.wakeWhere (h : s.OnCpu c) (forget : Bool) (p : Thread n → Bool) :
    (s.wakeWhere forget p).OnCpu c := by
  rcases wakeWhere_cases s forget p (s.current c) with he | ⟨hb, -⟩
  · have hcur : (s.wakeWhere forget p).current c = s.current c := rfl
    rw [OnCpu, hcur, he]
    exact h
  · rcases h with h | h <;> rw [hb] at h <;> cases h

end Table

/-! ## A switch keeps the table -/

section Switching

variable {s : Sched n} {c c' : Fin n} {next : Fin maxThreads}

theorem leave_eq_none {e : Option ExitAt} : leave e = none ↔ e = none := by
  cases e with
  | none => simp [leave]
  | some e => cases e <;> simp [leave]

theorem outgoing_ok (h : ThreadOk (s.threads (s.current c))) :
    ThreadOk (s.outgoing c (s.current c)) := by
  obtain ⟨hkeeper, hzombie, hphase⟩ := h
  generalize hth : s.threads (s.current c) = th at hkeeper hzombie hphase
  refine ⟨fun hh => ?_, ?_, ?_⟩
  · simp only [outgoing, hth] at hh ⊢
    rcases hkeeper hh with hs | hs
    · exact .inl (by rw [hs]; decide)
    · exact .inl (by rw [hs]; rfl)
  · simp only [outgoing, hth, ne_eq, leave_eq_none]
    rw [← ne_eq, ← hzombie]
    split
    · next hs => rw [hs]; decide
    · exact Iff.rfl
  · simp only [Phase, outgoing, hth]
    simp only [Phase] at hphase
    cases he : th.exit with
    | none => trivial
    | some e => rw [he] at hphase; cases e <;> exact hphase

theorem outgoing_midExit (t : Fin maxThreads) :
    midExit (s.outgoing c t) ↔ midExit (s.threads t) := by
  simp only [midExit, outgoing]
  cases he : (s.threads t).exit with
  | none => exact Iff.rfl
  | some e => cases e <;> exact Iff.rfl

theorem executing_switchTo {t : Fin maxThreads} :
    (s.switchTo c next).Executing t ↔ t = next ∨ ∃ c', c' ≠ c ∧ s.current c' = t := by
  constructor
  · rintro ⟨c', hc'⟩
    by_cases hcc : c' = c
    · subst hcc
      rw [switchTo_current_self] at hc'
      exact .inl hc'.symm
    · rw [switchTo_current_of_ne hcc] at hc'
      exact .inr ⟨c', hcc, hc'⟩
  · rintro (rfl | ⟨c', hcc, hc'⟩)
    · exact ⟨c, switchTo_current_self⟩
    · exact ⟨c', by rw [switchTo_current_of_ne hcc]; exact hc'⟩

theorem switchTo_home (t : Fin maxThreads) :
    ((s.switchTo c next).threads t).home = (s.threads t).home := by
  by_cases ht : t = next
  · subst ht; rw [switchTo_threads_next]
  · by_cases hp : t = s.current c
    · subst hp; rw [switchTo_threads_prev ht]; rfl
    · rw [switchTo_threads_of_ne ht hp]

theorem switchTo_idle (c' : Fin n) : ((s.switchTo c next).cpus c').idle = (s.cpus c').idle := by
  by_cases hc : c' = c
  · subst hc; simp [switchTo, setCpu, setThread]
  · simp [switchTo, setCpu, setThread, Function.update_of_ne hc]

/-- A switch to a thread nobody is on, away from one that is not in the middle of its exit. -/
theorem Core.switchTo (h : Core s) (hne : s.current c ≠ next) (hfree : ¬ s.Executing next)
    (hstate : (s.threads next).state = .runnable ∨ (s.threads next).state = .running)
    (hhome : (s.threads next).home = none ∨ (s.threads next).home = some c)
    (hleave : ¬ midExit (s.threads (s.current c))) : Core (s.switchTo c next) := by
  have hnz : (s.threads next).state ≠ .zombie := by
    rcases hstate with hs | hs <;> rw [hs] <;> decide
  have hnone : (s.threads next).exit = none := (h.ok next).exit_eq_none hnz
  refine ⟨fun t => ?_, fun c1 c2 hcc => ?_, fun c1 h' hh => ?_, fun c1 t hi => ?_,
    fun t e he hg => ?_, fun t hg hx => ?_, fun z p hz hid hb hw => ?_⟩
  · by_cases ht : t = next
    · subst ht
      rw [switchTo_threads_next]
      exact ⟨fun _ => .inr rfl, ⟨fun hz => (by cases hz), fun hx => absurd hnone hx⟩,
        (h.ok t).phase⟩
    · by_cases hp : t = s.current c
      · subst hp
        rw [switchTo_threads_prev ht]
        exact outgoing_ok (h.ok _)
      · rw [switchTo_threads_of_ne ht hp]
        exact h.ok t
  · by_cases h1 : c1 = c
    · by_cases h2 : c2 = c
      · rw [h1, h2]
      · subst h1
        rw [switchTo_current_self, switchTo_current_of_ne h2] at hcc
        exact absurd ⟨c2, hcc.symm⟩ hfree
    · by_cases h2 : c2 = c
      · subst h2
        rw [switchTo_current_self, switchTo_current_of_ne h1] at hcc
        exact absurd ⟨c1, hcc⟩ hfree
      · rw [switchTo_current_of_ne h1, switchTo_current_of_ne h2] at hcc
        exact h.one c1 c2 hcc
  · rw [switchTo_home] at hh
    by_cases h1 : c1 = c
    · subst h1
      rw [switchTo_current_self] at hh
      rcases hhome with hn | hn
      · rw [hn] at hh; cases hh
      · rw [hn] at hh; exact (some.inj hh).symm
    · rw [switchTo_current_of_ne h1] at hh
      exact h.atHome c1 h' hh
  · rw [switchTo_home]
    rw [switchTo_idle] at hi
    exact h.idle c1 t hi
  · rw [executing_switchTo]
    by_cases ht : t = next
    · exact .inl ht
    · by_cases hp : t = s.current c
      · -- the outgoing thread: in the middle of its exit it does not leave, and then it is gone
        subst hp
        rw [switchTo_threads_prev ht] at he
        simp only [midExit] at hleave
        simp only [outgoing] at he
        cases hx : (s.threads (s.current c)).exit with
        | none => rw [hx] at he; cases he
        | some e' =>
          rw [hx] at he hleave
          cases e' with
          | closing i sp | freeing sp | waking => exact absurd trivial hleave
          | spinning | gone => exact absurd (some.inj he).symm hg
      · rw [switchTo_threads_of_ne ht hp] at he
        obtain ⟨c1, hc1⟩ := h.window t e he hg
        refine .inr ⟨c1, fun hcc => ?_, hc1⟩
        subst hcc
        exact hp hc1.symm
  · rw [executing_switchTo] at hx
    by_cases ht : t = next
    · subst ht
      rw [switchTo_threads_next] at hg
      have hg' : (s.threads t).exit = some .gone := hg
      rw [hnone] at hg'
      cases hg'
    · rcases hx with hx | ⟨c1, hc1, hcur⟩
      · exact ht hx
      · by_cases hp : t = s.current c
        · exact hc1 (h.one c1 c (hcur.trans hp))
        · rw [switchTo_threads_of_ne ht hp] at hg
          exact h.off t hg ⟨c1, hcur⟩
  · have hpn : p ≠ next := by
      rintro rfl
      rw [switchTo_threads_next] at hb
      cases hb
    have hzn : z ≠ next := by
      rintro rfl
      rw [switchTo_threads_next] at hz
      cases hz
    -- neither the parent nor the child has changed in what the rule reads
    have hparent : ((s.switchTo c next).threads p).id = (s.threads p).id ∧
        (s.threads p).state = .blocked ∧ (s.threads p).waitReason = .child := by
      by_cases hp : p = s.current c
      · subst hp
        rw [switchTo_threads_prev hpn] at hb hw ⊢
        refine ⟨rfl, ?_⟩
        simp only [outgoing] at hb hw
        split at hb
        · cases hb
        · exact ⟨hb, hw⟩
      · rw [switchTo_threads_of_ne hpn hp] at hb hw ⊢
        exact ⟨rfl, hb, hw⟩
    rw [hparent.1] at hid
    by_cases hp : z = s.current c
    · subst hp
      rw [switchTo_threads_prev hzn] at hz hid ⊢
      rw [outgoing_midExit]
      simp only [outgoing] at hz hid
      split at hz
      · cases hz
      · exact h.waiting _ p hz hid hparent.2.1 hparent.2.2
    · rw [switchTo_threads_of_ne hzn hp] at hz hid ⊢
      exact h.waiting z p hz hid hparent.2.1 hparent.2.2

end Switching

/-! ## `schedule_locked` -/

section Scheduling

variable {s : Sched n} {c : Fin n} {next : Fin maxThreads}

/-- Whoever is picked is not on a processor and may run on this one. -/
theorem pick_spec (h : Core s) (hon : ∀ c', c' ≠ c → s.OnCpu c')
    (hp : s.pick c (s.current c) = some next) : s.current c ≠ next ∧ ¬ s.Executing next ∧
      ((s.threads next).state = .runnable ∨ (s.threads next).state = .running) ∧
      ((s.threads next).home = none ∨ (s.threads next).home = some c) := by
  unfold pick at hp
  cases hr : s.nextRunnable c (s.current c) with
  | some t =>
    simp only [hr] at hp
    split at hp
    · cases hp
    · next hne =>
      obtain rfl := some.inj hp
      have hfound := List.find?_some hr
      simp only [decide_eq_true_eq] at hfound
      refine ⟨Ne.symm hne, ?_, .inl hfound.1, hfound.2⟩
      rintro ⟨c', hc'⟩
      by_cases hcc : c' = c
      · subst hcc
        exact hne hc'.symm
      · have hrun := hon c' hcc
        rw [OnCpu, hc', hfound.1] at hrun
        rcases hrun with hrun | hrun <;> cases hrun
  | none =>
    simp only [hr] at hp
    split at hp
    · cases hp
    · cases hi : (s.cpus c).idle with
      | none => simp only [hi] at hp; cases hp
      | some t =>
        simp only [hi] at hp
        split at hp
        · cases hp
        · next hne =>
          obtain rfl := some.inj hp
          have hhome := h.idle c t hi
          refine ⟨Ne.symm hne, ?_, (h.ok t).keeper (by rw [hhome]; exact some_ne_none c),
            .inr hhome⟩
          rintro ⟨c', hc'⟩
          have hcc := h.atHome c' c (by rw [hc']; exact hhome)
          subst hcc
          exact hne hc'.symm

/-- `schedule_locked` keeps the table, if it does not take a thread off in the middle of its
exit, and leaves a running or finished thread on every processor, if the one it was called by
is that or is switched away from. -/
theorem Core.scheduleLocked (h : Core s) (hon : ∀ c', c' ≠ c → s.OnCpu c') (now : Nat)
    (hmid : midExit (s.threads (s.current c)) → ¬ s.Switches c now)
    (hstay : ¬ s.Switches c now → s.OnCpu c) : Inv (s.scheduleLocked c now) := by
  have hw : Core (s.wakeSleepers now) := h.wakeWhere _ _
  have hon' : ∀ c', c' ≠ c → (s.wakeSleepers now).OnCpu c' := fun c' hc =>
    (hon c' hc).wakeWhere _ _
  have hcur : (s.wakeSleepers now).current c = s.current c := rfl
  unfold Sched.scheduleLocked
  dsimp only
  rw [hcur]
  cases hp : (s.wakeSleepers now).pick c (s.current c) with
  | none =>
    have hno : ¬ s.Switches c now := by rw [Switches, hp]; simp
    refine ⟨hw, fun c' => ?_⟩
    by_cases hc : c' = c
    · subst hc
      exact (hstay hno).wakeWhere _ _
    · exact hon' c' hc
  | some next =>
    have hyes : s.Switches c now := by rw [Switches, hp]; rfl
    obtain ⟨hne, hfree, hstate, hhome⟩ := pick_spec hw hon' hp
    have hleave : ¬ midExit ((s.wakeSleepers now).threads ((s.wakeSleepers now).current c)) := by
      intro hm
      refine hmid ?_ hyes
      rcases wakeWhere_cases s true _ (s.current c) with he | ⟨-, w, he⟩
      · rw [hcur, wakeSleepers, he] at hm
        exact hm
      · rw [hcur, wakeSleepers, he] at hm
        exact hm
    refine ⟨hw.switchTo hne hfree hstate hhome hleave, fun c' => ?_⟩
    by_cases hc : c' = c
    · subst hc
      rw [OnCpu, switchTo_current_self, switchTo_threads_next]
      exact .inl rfl
    · -- the thread on another processor is neither of the two
      have hcn : (s.wakeSleepers now).current c' ≠ next := fun he => hfree ⟨c', he⟩
      have hcp : (s.wakeSleepers now).current c' ≠ (s.wakeSleepers now).current c := fun he =>
        hc (hw.one c' c he)
      rw [OnCpu, switchTo_current_of_ne hc, switchTo_threads_of_ne hcn hcp]
      exact hon' c' hc

end Scheduling

/-! ## One lemma per step -/

section Steps

variable {s : Sched n} {c : Fin n}

theorem Inv.setCurrent (h : Inv s) {th : Thread n} (hc : Core (s.setThread (s.current c) th))
    (hs : th.state = .running ∨ th.state = .zombie) : Inv (s.setThread (s.current c) th) := by
  refine ⟨hc, fun c' => ?_⟩
  by_cases hcc : s.current c' = s.current c
  · have hcur : (s.setThread (s.current c) th).current c' = s.current c := hcc
    rw [OnCpu, hcur, setThread_self]
    exact hs
  · have hcur : (s.setThread (s.current c) th).current c' = s.current c' := rfl
    rw [OnCpu, hcur, setThread_of_ne hcc]
    exact h.onCpu c'

theorem Inv.setOther (h : Inv s) {t : Fin maxThreads} {th : Thread n}
    (hc : Core (s.setThread t th)) (ht : ¬ s.Executing t) : Inv (s.setThread t th) := by
  refine ⟨hc, fun c' => ?_⟩
  have hcur : (s.setThread t th).current c' = s.current c' := rfl
  have hne : s.current c' ≠ t := fun he => ht ⟨c', he⟩
  rw [OnCpu, hcur, setThread_of_ne hne]
  exact h.onCpu c'

theorem Inv.wakeWhere (h : Inv s) (forget : Bool) (p : Thread n → Bool) :
    Inv (s.wakeWhere forget p) :=
  ⟨h.toCore.wakeWhere forget p, fun c => (h.onCpu c).wakeWhere forget p⟩

theorem Inv.running (h : Inv s) (ho : s.Ordinary c) :
    (s.threads (s.current c)).state = .running := by
  rcases h.onCpu c with hs | hs
  · exact hs
  · exact absurd ho.1 ((h.ok _).zombie.mp hs)

theorem Inv.tick (h : Inv s) (now : Nat) (hm : s.Meets (.tick c now)) :
    Inv (s.scheduleLocked c now) :=
  h.toCore.scheduleLocked (fun c' _ => h.onCpu c') now hm (fun _ => h.onCpu c)

/-- The thread that is put in the slot is not in `thread_exit`. -/
theorem Core.setLive (h : Core s) {t : Fin maxThreads} {th : Thread n} (hexit : th.exit = none)
    (hz : th.state ≠ .zombie) (hhome : th.home = (s.threads t).home)
    (hkeeper : th.home ≠ none → th.state = .runnable ∨ th.state = .running)
    (hparent : th.state = .blocked → th.waitReason = .child → ∀ z, z ≠ t →
      (s.threads z).state = .zombie → (s.threads z).parent = th.id → midExit (s.threads z)) :
    Core (s.setThread t th) := by
  refine h.setThread ⟨hkeeper, ⟨fun hs => absurd hs hz, fun he => absurd hexit he⟩, ?_⟩ hhome
    (fun e he => ?_) (fun he => ?_) (fun hs => absurd hs hz) hparent
  · simp only [Phase, hexit]
  · rw [hexit] at he
    cases he
  · rw [hexit] at he
    cases he

theorem Inv.work (h : Inv s) (ho : s.Ordinary c) (space : Nat) (fd : Fin nfd → Nat) :
    Inv (s.work c space fd) := by
  have hrun := h.running ho
  refine h.setCurrent (h.toCore.setLive ho.1 ?_ rfl (h.ok _).keeper ?_) (.inl hrun)
  · show (s.threads (s.current c)).state ≠ .zombie
    rw [hrun]
    decide
  · intro hb
    have hb' : (s.threads (s.current c)).state = .blocked := hb
    rw [hrun] at hb'
    cases hb'

theorem Inv.threadSetpgid (h : Inv s) (t : Fin maxThreads) (pgid : Int) :
    Inv (s.threadSetpgid t pgid) := by
  have hok := h.ok t
  have hcore : Core (s.threadSetpgid t pgid) :=
    h.toCore.setThread ⟨hok.keeper, hok.zombie, hok.phase⟩ rfl (h.window t) (h.off t)
      (fun hz hm p _ hid hbw => hm (h.waiting t p hz hid hbw.1 hbw.2))
      (fun hb hw z _ hz hid => h.waiting z t hz hid.symm hb hw)
  refine ⟨hcore, fun c' => ?_⟩
  have hstate : ((s.threadSetpgid t pgid).threads (s.current c')).state =
      (s.threads (s.current c')).state := by
    by_cases ht : s.current c' = t
    · rw [Sched.threadSetpgid, ht, setThread_self]
    · rw [Sched.threadSetpgid, setThread_of_ne ht]
  have hcur : (s.threadSetpgid t pgid).current c' = s.current c' := rfl
  rw [OnCpu, hcur, hstate]
  exact h.onCpu c'

theorem Inv.not_executing (h : Inv s) {t : Fin maxThreads} (hr : (s.threads t).state ≠ .running)
    (hz : (s.threads t).state ≠ .zombie) : ¬ s.Executing t := by
  rintro ⟨c', rfl⟩
  rcases h.onCpu c' with hs | hs
  · exact hr hs
  · exact hz hs

theorem Inv.threadCreate (h : Inv s) (c : Fin n) (space stackLow : Nat) (forked : Bool) :
    Inv (s.threadCreate c space stackLow forked) := by
  unfold Sched.threadCreate
  cases ha : s.allocSlot with
  | none => exact h
  | some t =>
    have hfree : (s.threads t).state = .free := by
      have hfound := List.find?_some ha
      simpa using hfound
    have hhome : (s.threads t).home = none := by
      by_contra hne
      rcases (h.ok t).keeper hne with hs | hs <;> rw [hfree] at hs <;> cases hs
    have hoff : ¬ s.Executing t :=
      h.not_executing (by rw [hfree]; decide) (by rw [hfree]; decide)
    -- the next id is not part of what the invariant reads
    have hid : Inv { s with nextId := s.nextId + 1 } :=
      ⟨⟨h.ok, h.one, h.atHome, h.idle, h.window, h.off, h.waiting⟩, h.onCpu⟩
    exact hid.setOther (hid.toCore.setLive rfl (fun hz => by cases hz) hhome.symm
      (fun _ => .inl rfl) (fun hb => by cases hb)) hoff

theorem Inv.threadExit (h : Inv s) (ho : s.Ordinary c) : Inv (s.threadExit c) := by
  refine h.setCurrent (h.toCore.setThread ⟨fun hh => absurd ho.2 hh, ?_, ?_⟩ rfl ?_ ?_ ?_ ?_)
    (.inr rfl)
  · exact ⟨fun _ => some_ne_none _, fun _ => rfl⟩
  · exact ⟨rfl, fun j hj => absurd hj (Nat.not_lt_zero _)⟩
  · exact fun _ _ _ => ⟨c, rfl⟩
  · exact fun he => by cases he
  · exact fun _ hm => absurd trivial hm
  · exact fun hb => by cases hb

theorem closeFd_phase {th : Thread n} {i space : Nat} (h : Phase th)
    (he : th.exit = some (.closing i space)) : Phase (closeFd th i space) := by
  simp only [Phase, he] at h
  obtain ⟨hsp, hfd⟩ := h
  have hclosed : ∀ j : Fin nfd, j.val < i + 1 → (if j.val = i then 0 else th.fd j) = 0 := by
    intro j hj
    split
    · rfl
    · exact hfd j (by omega)
  by_cases hlast : i + 1 < nfd
  · simp only [Phase, closeFd, if_pos hlast]
    exact ⟨hsp, hclosed⟩
  · simp only [Phase, closeFd, if_neg hlast]
    exact ⟨hsp, fun j => hclosed j (by have := j.isLt; omega)⟩

/-- The thread on `c` goes one phase further in its exit. -/
theorem Inv.advance (h : Inv s) {th : Thread n} {e : ExitAt} (hth : th.exit = some e)
    (hgone : e ≠ .gone) (hphase : Phase th) (hz : th.state = .zombie) (hhome : th.home = none)
    (hhome' : (s.threads (s.current c)).home = none)
    (hchild : ¬ midExit th → ∀ p, p ≠ s.current c → (s.threads p).id = th.parent →
      ¬ ((s.threads p).state = .blocked ∧ (s.threads p).waitReason = .child)) :
    Inv (s.setThread (s.current c) th) := by
  refine h.setCurrent (h.toCore.setThread ⟨fun hh => absurd hhome hh, ?_, hphase⟩
    (hhome.trans hhome'.symm) (fun _ _ _ => ⟨c, rfl⟩) (fun he => ?_) (fun _ => hchild)
    (fun hb => ?_)) (.inr hz)
  · exact ⟨fun _ => by rw [hth]; exact some_ne_none e, fun _ => hz⟩
  · rw [hth] at he
    exact absurd (some.inj he) hgone
  · rw [hz] at hb
    cases hb

theorem Inv.exitStep (h : Inv s) (c : Fin n) (now : Nat) : Inv (s.exitStep c now) := by
  unfold Sched.exitStep
  dsimp only
  cases he : (s.threads (s.current c)).exit with
  | none => exact h
  | some e =>
    have hok := h.ok (s.current c)
    have hz : (s.threads (s.current c)).state = .zombie :=
      hok.zombie.mpr (by rw [he]; exact some_ne_none e)
    have hhome : (s.threads (s.current c)).home = none := by
      by_contra hne
      rcases hok.keeper hne with hs | hs <;> rw [hz] at hs <;> cases hs
    have hphase := hok.phase
    cases e with
    | closing i space =>
      have hnext : ∃ e, (closeFd (s.threads (s.current c)) i space).exit = some e ∧ e ≠ .gone ∧
          midExit (closeFd (s.threads (s.current c)) i space) := by
        by_cases hlast : i + 1 < nfd
        · exact ⟨.closing (i + 1) space, by simp only [closeFd, if_pos hlast], by simp,
            by simp only [midExit, closeFd, if_pos hlast]⟩
        · exact ⟨.freeing space, by simp only [closeFd, if_neg hlast], by simp,
            by simp only [midExit, closeFd, if_neg hlast]⟩
      obtain ⟨e, hex, hgone, hmid⟩ := hnext
      exact h.advance hex hgone (closeFd_phase hphase he) hz hhome hhome (fun hm => absurd hmid hm)
    | freeing space =>
      simp only [Phase, he] at hphase
      exact h.advance rfl (by simp) hphase hz hhome hhome (fun hm => absurd trivial hm)
    | waking =>
      simp only [Phase, he] at hphase
      have hw : Inv (s.wakeParent (s.threads (s.current c)).parent) := h.wakeWhere _ _
      have hcur : (s.wakeParent (s.threads (s.current c)).parent).current c = s.current c := rfl
      have hsame : ((s.wakeParent (s.threads (s.current c)).parent).threads (s.current c)).home =
          none := by
        rcases wakeWhere_cases s false _ (s.current c) with hcase | ⟨-, w, hcase⟩
        · rw [wakeParent, hcase]; exact hhome
        · rw [wakeParent, hcase]; exact hhome
      refine hw.advance rfl (by simp) hphase hz hhome hsame (fun _ p _ hid hbw => ?_)
      -- whoever was asleep for a child with this id has just been woken
      simp only [wakeParent, Sched.wakeWhere] at hid hbw
      split at hbw
      · cases hbw.1
      · next hno =>
        rw [if_neg hno] at hid
        exact hno ⟨hbw.1, by simp only [decide_eq_true_eq]; exact ⟨hid, hbw.2⟩⟩
    | spinning =>
      refine h.toCore.scheduleLocked (fun c' _ => h.onCpu c') now (fun hm => ?_)
        (fun _ => h.onCpu c)
      simp only [midExit, he] at hm
    | gone => exact h

theorem Inv.threadBlock (h : Inv s) (ho : s.Ordinary c) {reason : WaitReason}
    {object wakeAt now : Nat} (hm : s.Meets (.block c reason object wakeAt now)) :
    Inv (s.threadBlock c reason object wakeAt now) := by
  have hrun := h.running ho
  have hsw := hm ho hrun
  unfold Sched.threadBlock
  dsimp only
  rw [if_pos hrun]
  generalize hth : blocked (s.threads (s.current c)) reason object wakeAt = th at hsw ⊢
  have hfields : th.exit = none ∧ th.state = .blocked ∧ th.waitReason ≠ .child ∧ th.home = none := by
    rw [← hth]
    cases reason <;> exact ⟨ho.1, rfl, by simp [blocked], ho.2⟩
  obtain ⟨hexit, hb, hreason, hhome⟩ := hfields
  have hcore : Core (s.setThread (s.current c) th) :=
    h.toCore.setLive hexit (by rw [hb]; decide) (hhome.trans ho.2.symm)
      (fun hh => absurd hhome hh) (fun _ hw => absurd hw hreason)
  refine hcore.scheduleLocked (fun c' hc => ?_) now (fun hmid => ?_) (fun hno => absurd hsw hno)
  · have hne : s.current c' ≠ s.current c := fun he => hc (h.one c' c he)
    have hcur : (s.setThread (s.current c) th).current c' = s.current c' := rfl
    rw [OnCpu, hcur, setThread_of_ne hne]
    exact h.onCpu c'
  · have hcur : (s.setThread (s.current c) th).current c = s.current c := rfl
    rw [hcur, setThread_self, midExit, hexit] at hmid
    exact absurd hmid id

theorem zombieChild_some {id : Int} {t : Fin maxThreads} (h : s.zombieChild id = some t) :
    (s.threads t).parent = id ∧ (s.threads t).state = .zombie := by
  simpa using List.find?_some h

theorem zombieChild_none {id : Int} (h : s.zombieChild id = none) {t : Fin maxThreads}
    (hp : (s.threads t).parent = id) : (s.threads t).state ≠ .zombie := by
  intro hz
  have hno := List.find?_eq_none.mp h t (List.mem_finRange t)
  simp only [decide_eq_true_eq] at hno
  exact hno ⟨hp, hz⟩

theorem Inv.releaseSlot (h : Inv s) {t : Fin maxThreads} (hg : (s.threads t).exit = some .gone) :
    Inv (s.releaseSlot t) := by
  have hz : (s.threads t).state = .zombie :=
    (h.ok t).zombie.mpr (by rw [hg]; exact some_ne_none _)
  have hhome : (s.threads t).home = none := by
    by_contra hne
    rcases (h.ok t).keeper hne with hs | hs <;> rw [hz] at hs <;> cases hs
  exact h.setOther (h.toCore.setLive rfl (fun hs => by cases hs) rfl (fun hh => absurd hhome hh)
    (fun hb => by cases hb)) (h.off t hg)

theorem Inv.threadReap (h : Inv s) (hm : s.ChildrenGone c) : Inv (s.threadReap c) := by
  unfold Sched.threadReap
  cases hz : s.zombieChild (s.threads (s.current c)).id with
  | none => exact h
  | some t =>
    obtain ⟨hp, hs⟩ := zombieChild_some hz
    exact h.releaseSlot (hm t hp hs)

theorem Inv.threadWait (h : Inv s) (ho : s.Ordinary c) {now : Nat} (hm : s.Meets (.wait c now)) :
    Inv (s.threadWait c now) := by
  obtain ⟨hgone, hsw⟩ := hm ho
  unfold Sched.threadWait
  dsimp only
  cases hz : s.zombieChild (s.threads (s.current c)).id with
  | some t =>
    obtain ⟨hp, hs⟩ := zombieChild_some hz
    exact h.releaseSlot (hgone t hp hs)
  | none =>
    dsimp only
    split
    · next hhave =>
      -- the scan has just found no finished child, so nobody is slept for in vain
      have hcore : Core (s.waitMarked c) :=
        h.toCore.setLive ho.1 (fun hs => by cases hs) rfl (fun hh => absurd ho.2 hh)
          (fun _ _ z _ hzs hzp => absurd hzs (zombieChild_none hz hzp))
      refine hcore.scheduleLocked (fun c' hc => ?_) now (fun hmid => ?_)
        (fun hno => absurd (hsw hz hhave) hno)
      · have hne : s.current c' ≠ s.current c := fun he => hc (h.one c' c he)
        have hcur : (s.waitMarked c).current c' = s.current c' := rfl
        rw [OnCpu, hcur, waitMarked, setThread_of_ne hne]
        exact h.onCpu c'
      · have hcur : (s.waitMarked c).current c = s.current c := rfl
        have hexit : ((s.waitMarked c).threads (s.current c)).exit = none := by
          rw [waitMarked, setThread_self]
          exact ho.1
        rw [hcur, midExit, hexit] at hmid
        exact absurd hmid id
    · exact h

theorem inv_step (h : Inv s) {st : Step n} (hm : s.Meets st) : Inv (s.step st) := by
  cases st with
  | tick c now => exact h.tick now hm
  | work c space fd =>
    simp only [step]
    split
    · next ho => exact h.work ho space fd
    · exact h
  | create c space stackLow forked =>
    simp only [step]
    split
    · exact h.threadCreate c space stackLow forked
    · exact h
  | setpgid t pgid => exact h.threadSetpgid t pgid
  | exit c =>
    simp only [step]
    split
    · next ho => exact h.threadExit ho
    · exact h
  | exitStep c now => exact h.exitStep c now
  | block c reason object wakeAt now =>
    simp only [step]
    split
    · next ho => exact h.threadBlock ho hm
    · exact h
  | wakePipe object =>
    simp only [step, threadWakePipe]
    exact h.wakeWhere _ _
  | wakeConsole =>
    simp only [step, threadWakeConsole]
    exact h.wakeWhere _ _
  | signal pid =>
    simp only [step, threadSignal]
    exact h.wakeWhere _ _
  | wait c now =>
    simp only [step]
    split
    · next ho => exact h.threadWait ho hm
    · exact h
  | reap c =>
    simp only [step]
    split
    · next ho => exact h.threadReap (hm ho)
    · exact h

theorem inv_run (h : Inv s) {steps : List (Step n)} (hm : s.AllMeet steps) : Inv (s.run steps) := by
  induction steps generalizing s with
  | nil => exact h
  | cons st steps ih => exact ih (inv_step h hm.1) hm.2

/-- In a state that keeps the invariant every exit whose thread has left its processor is
complete. -/
theorem Inv.finished (h : Inv s) : s.Finished := by
  intro t hz hoff
  obtain ⟨e, he⟩ := Option.ne_none_iff_exists'.mp ((h.ok t).zombie.mp hz)
  have hgone : e = .gone := by
    by_contra hne
    exact hoff (h.window t e he hne)
  subst hgone
  have hphase := (h.ok t).phase
  simp only [Phase, he] at hphase
  refine ⟨hphase.2, ?_, fun p hid hbw => ?_⟩
  · simp only [unreleased, he]
    exact hphase.1
  · have hmid := h.waiting t p hz hid hbw.1 hbw.2
    simp only [midExit, he] at hmid

theorem Inv.stackSafe (h : Inv s) {st : Step n} (hm : s.Meets st) : s.StackSafe st := by
  have hscan : ∀ {c t}, s.Ordinary c → s.ChildrenGone c →
      s.zombieChild (s.threads (s.current c)).id = some t → ¬ s.Executing t := by
    intro c t _ hgone hz
    obtain ⟨hp, hs⟩ := zombieChild_some hz
    exact h.off t (hgone t hp hs)
  intro t hc
  cases st with
  | wait c now =>
    simp only [collects] at hc
    split at hc
    · next ho => exact hscan ho (hm ho).1 hc
    · cases hc
  | reap c =>
    simp only [collects] at hc
    split at hc
    · next ho => exact hscan ho (hm ho) hc
    · cases hc
  | _ => cases hc

end Steps

/-! ## The machine as it boots -/

section Boot

variable (hn : n ≤ maxCpus)

theorem boot_idleSlot (c : Fin n) : (boot hn).threads (idleSlot hn c) = { freeThread n with
      state := if c.val = 0 then .runnable else .running
      id := (1 + c.val : Nat)
      parent := if c.val = 0 then 0 else -1
      home := some c } := by
  have h0 : (idleSlot hn c).val ≠ 0 := by simp only [idleSlot]; omega
  have h1 : (idleSlot hn c).val - 1 < n := by simp only [idleSlot]; omega
  have h2 : (1 + c.val = 1) = (c.val = 0) := by simp
  simp only [boot, if_neg h0, dif_pos h1]
  simp only [idleSlot, h2, Nat.add_sub_cancel_left]

theorem boot_exit (t : Fin maxThreads) : ((boot hn).threads t).exit = none := by
  simp only [boot]
  split
  · rfl
  · split <;> rfl

theorem boot_state (t : Fin maxThreads) :
    ((boot hn).threads t).state ≠ .zombie ∧ ((boot hn).threads t).state ≠ .blocked ∧
      (((boot hn).threads t).home ≠ none → ((boot hn).threads t).state = .runnable ∨
        ((boot hn).threads t).state = .running) := by
  simp only [boot]
  split
  · exact ⟨fun hz => (by cases hz), fun hb => (by cases hb), fun hh => absurd rfl hh⟩
  · split
    · dsimp only
      split
      · exact ⟨fun hz => (by cases hz), fun hb => (by cases hb), fun _ => .inl rfl⟩
      · exact ⟨fun hz => (by cases hz), fun hb => (by cases hb), fun _ => .inr rfl⟩
    · exact ⟨fun hz => (by cases hz), fun hb => (by cases hb), fun hh => absurd rfl hh⟩

theorem boot_current (c : Fin n) : (boot hn).current c =
    if c.val = 0 then ⟨0, by decide⟩ else idleSlot hn c := rfl

theorem inv_boot : Inv (boot hn) := by
  have hvals : ∀ c, ((boot hn).current c).val = if c.val = 0 then 0 else 1 + c.val := by
    intro c
    rw [boot_current]
    split <;> rfl
  refine ⟨⟨fun t => ⟨(boot_state hn t).2.2, ?_, ?_⟩, fun c c' hc => ?_, fun c h hh => ?_,
    fun c t hi => ?_, fun t e he => ?_, fun t he => ?_, fun t p hz => ?_⟩, fun c => ?_⟩
  · exact ⟨fun hz => absurd hz (boot_state hn t).1, fun he => absurd (boot_exit hn t) he⟩
  · simp only [Phase, boot_exit]
  · have hv := congrArg Fin.val hc
    rw [hvals, hvals] at hv
    apply Fin.ext
    split at hv <;> split at hv <;> omega
  · rw [boot_current] at hh
    split at hh
    · cases hh
    · rw [boot_idleSlot] at hh
      exact (some.inj hh).symm
  · have ht : idleSlot hn c = t := some.inj hi
    rw [← ht, boot_idleSlot]
  · rw [boot_exit] at he
    cases he
  · rw [boot_exit] at he
    cases he
  · exact absurd hz (boot_state hn t).1
  · rw [OnCpu, boot_current]
    split
    · exact .inl rfl
    · next hc =>
      rw [boot_idleSlot, if_neg hc]
      exact .inl rfl

end Boot

/-- A process exit completes. In every run whose steps keep the rules, in every state it
reaches, a zombie that no processor is on has closed its descriptors, given its space back and
left no parent asleep; and no step that keeps the rules frees the stack of a thread a
processor is on. -/
theorem exit_completes (hn : n ≤ maxCpus) (steps : List (Step n)) (h : (boot hn).AllMeet steps) :
    ((boot hn).run steps).Finished ∧
      ∀ st, ((boot hn).run steps).Meets st → ((boot hn).run steps).StackSafe st := by
  have hinv := inv_run (inv_boot hn) h
  exact ⟨hinv.finished, fun _ hm => hinv.stackSafe hm⟩

/-- One processor: the boot thread forks and waits, the child opens its descriptors, takes a
space and exits through every piece of `thread_exit`, and the parent collects it. -/
def quietExit : List (Step 1) :=
  ([.create 0 0 5 true, .wait 0 0, .tick 0 0, .work 0 4 (fun _ => 7), .exit 0] : List (Step 1)) ++
    List.replicate 11 (.exitStep 0 0 : Step 1) ++ [(.wait 0 0 : Step 1)]

/-- The slot of the first process that is forked when there is one processor, and when there
are two. -/
def child1 : Fin maxThreads := ⟨2, by decide⟩

def child2 : Fin maxThreads := ⟨3, by decide⟩

theorem one_le_maxCpus : 1 ≤ maxCpus := by decide

theorem two_le_maxCpus : 2 ≤ maxCpus := by decide

/-- The rules hold along that run, and it ends with the child's slot free. -/
theorem exit_completes_quietExit : ((boot one_le_maxCpus).run quietExit).Finished ∧
      (((boot one_le_maxCpus).run quietExit).threads child1).state = .free :=
  ⟨(exit_completes one_le_maxCpus quietExit (by decide +kernel)).1, by decide +kernel⟩

/-- In every run whose steps keep the rules no two processors are on one thread, an idle thread is on
its own, and the thread a processor is on runs or has just exited. -/
theorem one_processor (hn : n ≤ maxCpus) (steps : List (Step n)) (h : (boot hn).AllMeet steps) :
    let s := (boot hn).run steps
    (∀ c c', s.current c = s.current c' → c = c') ∧
    (∀ c c', (s.threads (s.current c)).home = some c' → c' = c) ∧ ∀ c, s.OnCpu c := by
  have hinv := inv_run (inv_boot hn) h
  exact ⟨hinv.one, hinv.atHome, hinv.onCpu⟩

theorem one_processor_quietExit : ((boot one_le_maxCpus).run quietExit).OnCpu 0 :=
  (one_processor one_le_maxCpus quietExit (by decide +kernel)).2.2 0

/-- The same, with a tick right after the zombie mark. -/
def interruptedExit : List (Step 1) :=
  [.create 0 0 5 true, .wait 0 0, .tick 0 0, .work 0 4 (fun _ => 7), .exit 0, .tick 0 0]

/-- Two processors: the child runs and exits on the second while the parent is on the
first. -/
def exitElsewhere : List (Step 2) :=
  [.create 0 0 5 true, .tick 1 0, .exit 1]

/-- With a tick in the window the child is a zombie nobody runs whose descriptors are open;
and a parent on another processor collects the child that is still running there. -/
theorem exit_not_always_complete : ¬ ((boot one_le_maxCpus).run interruptedExit).Finished ∧
      ¬ ((boot two_le_maxCpus).run exitElsewhere).StackSafe (.reap 0) := by
  refine ⟨fun h => ?_, fun h => ?_⟩
  · have hfinished := h child1 (by decide +kernel) (by decide +kernel)
    exact absurd (hfinished.1 ⟨0, by decide⟩) (by decide +kernel)
  · exact h child2 (by decide +kernel) (by decide +kernel)

end Sched

end Verkos.Stam
