import Mathlib.Algebra.GroupWithZero.Nat
import Mathlib.Data.Fin.Basic
import Mathlib.Data.List.FinRange
import Mathlib.Logic.Function.Basic
import Mathlib.Tactic.Common

/-!
# The slot table and the switch

`sched.c` keeps every thread of the machine in one table and lets each processor take the next
runnable one. `Sched n` is that table with the `n` processors that are online: what each is
running, which thread it idles in, and which user table it is filling in. A slot that has
never been used is on the shelf like one that was given back, so the round robin over
`n_threads` slots and the one over the whole table visit the same threads in the same order.

`scheduleLocked` is `schedule_locked` in its two halves. `pick` decides and `switchTo`
performs; a development about where a preemption may land needs the second half with any
decision, one about what is decided needs both.
-/

namespace Verkos.Stam

/-- `MAX_CPUS`. -/
def maxCpus : Nat := 8

/-- `MAX_THREADS`: sixteen for processes, plus one idle thread per processor. -/
def maxThreads : Nat := 16 + maxCpus

theorem maxThreads_pos : 0 < maxThreads := by decide
theorem three_lt_maxThreads : 3 < maxThreads := by decide

/-- Of one processor and of two. -/
theorem neZero1 : NeZero 1 := ⟨by decide⟩
theorem neZero2 : NeZero 2 := ⟨by decide⟩

/-- `STACK_PAGES`. -/
def stackPages : Nat := 4

/-- `NFD`. -/
def nfd : Nat := 8

/-- `THREAD_RUNNABLE`, `THREAD_ZOMBIE`, `THREAD_BLOCKED`, `THREAD_FREE`, `THREAD_RUNNING`. -/
inductive ThreadState
  | runnable
  | zombie
  | blocked
  | free
  | running
deriving DecidableEq

/-- `wait_reason`: nothing yet, `WAIT_CHILD`, `WAIT_CONSOLE`, `WAIT_PIPE`. -/
inductive WaitReason
  | none
  | child
  | console
  | pipe
deriving DecidableEq

/-- How far a thread has come in `thread_exit`, with the local `space` for as long as it is
live: about to close descriptor `i`, about to give the space back, about to wake the parent,
in the loop that only schedules, and off its processor out of that loop. -/
inductive ExitAt
  | closing (i : Nat) (space : Nat)
  | freeing (space : Nat)
  | waking
  | spinning
  | gone
deriving DecidableEq

/-- `thread_t`, the fields that decide who runs and what an exit gives back. A space, a table
and a stack are addresses, zero for none; `exit` is where the thread's own kernel code stands
once it has entered `thread_exit`. -/
structure Thread (n : Nat) where
  state : ThreadState
  id : Int
  parent : Int
  waitReason : WaitReason
  waitObject : Nat
  wakeAt : Nat
  pgid : Int
  home : Option (Fin n)
  space : Nat
  userTable : Nat
  stackLow : Nat
  fd : Fin nfd → Nat
  exit : Option ExitAt

/-- `cpu_t`. -/
structure Cpu where
  cur : Fin maxThreads
  idle : Option (Fin maxThreads)
  userTable : Nat

/-- The table, the processors, and the next process id. -/
structure Sched (n : Nat) where
  threads : Fin maxThreads → Thread n
  cpus : Fin n → Cpu
  nextId : Nat

namespace Sched

variable {n : Nat}

def setThread (s : Sched n) (t : Fin maxThreads) (th : Thread n) : Sched n :=
  { s with threads := Function.update s.threads t th }

def setCpu (s : Sched n) (c : Fin n) (cpu : Cpu) : Sched n :=
  { s with cpus := Function.update s.cpus c cpu }

def setSpace (s : Sched n) (t : Fin maxThreads) (space : Nat) : Sched n :=
  s.setThread t { s.threads t with space }

/-- The thread processor `c` is on. -/
def current (s : Sched n) (c : Fin n) : Fin maxThreads := (s.cpus c).cur

/-- Some processor is on the thread. -/
def Executing (s : Sched n) (t : Fin maxThreads) : Prop := ∃ c, s.current c = t

instance (s : Sched n) (t : Fin maxThreads) : Decidable (s.Executing t) :=
  inferInstanceAs (Decidable (∃ _, _))

/-- Every blocked thread that `p` holds of becomes runnable; some wakers forget the deadline
too and some leave it. -/
def wakeWhere (s : Sched n) (forget : Bool) (p : Thread n → Bool) : Sched n :=
  { s with threads := fun t =>
    let th := s.threads t
    if th.state = .blocked ∧ p th = true then
      { th with state := .runnable, wakeAt := if forget then 0 else th.wakeAt }
    else th }

/-- The first loop of `schedule_locked`: whoever's sleep has run out. -/
def wakeSleepers (s : Sched n) (now : Nat) : Sched n :=
  s.wakeWhere true (fun th => decide (th.wakeAt ≠ 0 ∧ th.wakeAt ≤ now))

/-- The slots in the order `next_runnable` looks at them: the one after `after` first, and
`after` itself last. -/
def rotation (after : Fin maxThreads) : List (Fin maxThreads) :=
  (List.range maxThreads).map fun i => ⟨(after + (i + 1)) % maxThreads, Nat.mod_lt _ (by decide)⟩

/-- `next_runnable`. -/
def nextRunnable (s : Sched n) (c : Fin n) (after : Fin maxThreads) : Option (Fin maxThreads) :=
  (rotation after).find? fun t =>
    decide ((s.threads t).state = .runnable ∧
      ((s.threads t).home = none ∨ (s.threads t).home = some c))

/-- Whom `schedule_locked` switches to from `prev`, when it switches at all. -/
def pick (s : Sched n) (c : Fin n) (prev : Fin maxThreads) : Option (Fin maxThreads) :=
  match s.nextRunnable c prev with
  | some next => if next = prev then none else some next
  | none =>
    if (s.threads prev).state = .running then none
    else
      match (s.cpus c).idle with
      | none => none
      | some next => if next = prev then none else some next

/-- A thread that has nothing left to do but schedule is off its processor for good. -/
def leave : Option ExitAt → Option ExitAt
  | some .spinning => some .gone
  | e => e

/-- The outgoing thread: the table it was filling in goes with it. -/
def outgoing (s : Sched n) (c : Fin n) (prev : Fin maxThreads) : Thread n :=
  let th := s.threads prev
  { th with
    userTable := (s.cpus c).userTable
    state := if th.state = .running then .runnable else th.state
    exit := leave th.exit }

/-- The table the processor fills in after a switch: what the incoming thread was filling in,
and then, in a space of its own, that space (`mmu_switch_user`). -/
def incomingTable (prev next : Thread n) : Nat :=
  if next.space ≠ 0 ∧ next.space ≠ prev.space then next.space else next.userTable

/-- The second half of `schedule_locked`. -/
def switchTo (s : Sched n) (c : Fin n) (next : Fin maxThreads) : Sched n :=
  let prev := s.current c
  ((s.setThread prev (s.outgoing c prev)).setThread next
    { s.threads next with state := .running }).setCpu c
    { s.cpus c with
      cur := next
      userTable := incomingTable (s.threads prev) (s.threads next) }

/-- `schedule_locked`. -/
def scheduleLocked (s : Sched n) (c : Fin n) (now : Nat) : Sched n :=
  let s := s.wakeSleepers now
  match s.pick c (s.current c) with
  | none => s
  | some next => s.switchTo c next

/-! ## What a switch changes -/

section Switch

variable {s : Sched n} {c c' : Fin n} {t next : Fin maxThreads}

@[simp] theorem switchTo_current_self : (s.switchTo c next).current c = next := by
  simp [switchTo, setCpu, current]

theorem switchTo_current_of_ne (h : c' ≠ c) : (s.switchTo c next).current c' = s.current c' := by
  simp [switchTo, setCpu, setThread, current, Function.update_of_ne h]

theorem switchTo_threads_next : (s.switchTo c next).threads next =
    { s.threads next with state := .running } := by
  simp [switchTo, setCpu, setThread]

theorem switchTo_threads_prev (h : s.current c ≠ next) :
    (s.switchTo c next).threads (s.current c) = s.outgoing c (s.current c) := by
  simp [switchTo, setCpu, setThread, Function.update_of_ne h]

theorem switchTo_threads_of_ne (h : t ≠ next) (hp : t ≠ s.current c) :
    (s.switchTo c next).threads t = s.threads t := by
  simp [switchTo, setCpu, setThread, Function.update_of_ne h, Function.update_of_ne hp]

theorem switchTo_space : ((s.switchTo c next).threads t).space = (s.threads t).space := by
  by_cases ht : t = next
  · subst ht
    rw [switchTo_threads_next]
  · by_cases hp : t = s.current c
    · subst hp
      rw [switchTo_threads_prev ht]
      rfl
    · rw [switchTo_threads_of_ne ht hp]

end Switch

end Sched

end Verkos.Stam
