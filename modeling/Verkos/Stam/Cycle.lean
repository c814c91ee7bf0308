import Verkos.Stam.Cow

/-!
# Fork, exit and wait, over and over

A process that forks, lets the child exit and collects it has everything back on the list that the
child had: its pages, its tables, its stack. But the stack of the next child has to be in one piece,
and those come from the bump pointer alone, which goes one way. So every machine can fork only as
often as a stack fits between the bump pointer and the top of memory, however balanced the work is.
-/

namespace Verkos.Stam

open Verkos.Lib

attribute [local instance] neZero512

variable {pm pm' pm'' : Pmm}

/-! ## The bump pointer -/

/-- The bump pointer is not behind where it was, and memory has its size. -/
structure Pmm.Onward (pm pm' : Pmm) : Prop where
  next : pm.freeNext ≤ pm'.freeNext
  top : pm'.top = pm.top

namespace Pmm

theorem Onward.refl (pm : Pmm) : Onward pm pm := ⟨le_rfl, rfl⟩

theorem Onward.trans (h : Onward pm pm') (h' : Onward pm' pm'') : Onward pm pm'' :=
  ⟨h.next.trans h'.next, h'.top.trans h.top⟩

theorem onward_allocPage {p : Nat} (h : pm.allocPage = some (p, pm')) : Onward pm pm' := by
  unfold allocPage at h
  split at h
  · cases h
    exact ⟨le_rfl, rfl⟩
  · split_ifs at h with hfull
    cases h
    exact ⟨Nat.le_succ _, rfl⟩

theorem next_of_allocPages {n b : Nat} (h : pm.allocPages n = some (b, pm')) :
    pm'.freeNext = pm.freeNext + n ∧ pm'.top = pm.top ∧ pm'.freeNext ≤ pm'.top := by
  unfold allocPages at h
  split_ifs at h with hzero hfull
  cases h
  exact ⟨rfl, rfl, Nat.le_of_not_lt hfull⟩

theorem onward_pageRef (pm : Pmm) (p : Nat) : Onward pm (pm.pageRef p) := by
  unfold pageRef
  split
  · exact .refl pm
  · split_ifs
    · exact ⟨le_rfl, rfl⟩
    · exact .refl pm

theorem onward_pageUnref (pm : Pmm) (p : Nat) : Onward pm (pm.pageUnref p).1 := by
  unfold pageUnref
  split
  · exact .refl pm
  · split_ifs
    · exact ⟨le_rfl, rfl⟩
    · exact .refl pm

theorem onward_freePage (pm : Pmm) (p : Nat) : Onward pm (pm.freePage p) := ⟨le_rfl, rfl⟩

theorem onward_freePages (n : Nat) : ∀ (pm : Pmm) (p : Nat), Onward pm (pm.freePages p n) := by
  induction n with
  | zero => exact fun pm p => .refl pm
  | succ n ih => exact fun pm p => (onward_freePage pm p).trans (ih _ _)

theorem onward_dropPage (pm : Pmm) (p : Nat) : Onward pm (pm.dropPage p) := by
  unfold dropPage
  dsimp only
  split_ifs
  · exact (onward_pageUnref pm p).trans (onward_freePage _ p)
  · exact onward_pageUnref pm p

theorem onward_foldl {α : Type} {f : Pmm → α → Pmm} (hf : ∀ pm a, Onward pm (f pm a)) (l : List α)
    (pm : Pmm) : Onward pm (l.foldl f pm) := by
  induction l generalizing pm with
  | nil => exact .refl pm
  | cons a l ih => exact (hf pm a).trans (ih (f pm a))

end Pmm

namespace Space

open Pmm (Onward)

variable {src dst src' dst' : Space} {ok : Bool}

theorem onward_descend1 {i1 : Fin 512} (h : descend1 pm src i1 = (pm', src', ok)) :
    Onward pm pm' := by
  unfold descend1 at h
  split at h
  · cases h
    exact .refl pm
  · split at h
    · cases h
      exact .refl pm
    · next ha =>
      cases h
      exact Pmm.onward_allocPage ha

theorem onward_descend2 {i1 i2 : Fin 512} (h : descend2 pm src i1 i2 = (pm', src', ok)) :
    Onward pm pm' := by
  unfold descend2 at h
  split at h
  · cases h
    exact .refl pm
  · split at h
    · cases h
      exact .refl pm
    · next ha =>
      cases h
      exact Pmm.onward_allocPage ha

theorem onward_mapUserPageRaw {va : Va} {d : Desc}
    (h : mapUserPageRaw pm src va d = (pm', src', ok)) : Onward pm pm' := by
  unfold mapUserPageRaw at h
  split at h
  · next h1 =>
    cases h
    exact onward_descend1 h1
  · next h1 =>
    split at h
    · next h2 =>
      cases h
      exact (onward_descend1 h1).trans (onward_descend2 h2)
    · next h2 =>
      cases h
      exact (onward_descend1 h1).trans (onward_descend2 h2)

theorem onward_copyLoop {vas : List Va} (h : copyLoop pm src dst vas = (pm', src', dst', ok)) :
    Onward pm pm' := by
  induction vas generalizing pm src dst with
  | nil =>
    cases h
    exact Onward.refl _
  | cons va vas ih =>
    rw [copyLoop] at h
    split at h
    · exact ih h
    · next d _ =>
      dsimp only at h
      split at h
      · next hm =>
        cases h
        exact (Pmm.onward_pageRef _ d.page).trans (onward_mapUserPageRaw hm)
      · next hm =>
        exact ((Pmm.onward_pageRef _ d.page).trans (onward_mapUserPageRaw hm)).trans (ih h)

theorem onward_vmCopySpace {child : Option Space} (h : vmCopySpace pm src = (pm', src', child)) :
    Onward pm pm' := by
  unfold vmCopySpace at h
  split at h
  · cases h
    exact .refl pm
  · next ha =>
    have hpage := Pmm.onward_allocPage ha
    split at h
    · next hc =>
      cases h
      exact hpage.trans (onward_copyLoop hc)
    · next hc =>
      cases h
      exact hpage.trans (onward_copyLoop hc)

theorem onward_vmCowFault {va : Va} (h : vmCowFault pm src va = some (pm', src')) :
    Onward pm pm' := by
  unfold vmCowFault at h
  split at h
  · cases h
  · next d _ =>
    split_ifs at h
    · cases ha : pm.allocPage with
      | none => simp [ha] at h
      | some r =>
        obtain ⟨fresh, pm1⟩ := r
        simp only [ha, Option.some.injEq, Prod.mk.injEq] at h
        rw [← h.1]
        have hcopy : Onward pm1 { pm1 with mem := Function.update pm1.mem fresh (pm1.mem d.page) } :=
          ⟨le_rfl, rfl⟩
        exact ((Pmm.onward_allocPage ha).trans hcopy).trans (Pmm.onward_pageUnref _ d.page)
    · cases h
      exact .refl pm

theorem onward_vmFreeSpace (pm : Pmm) (sp : Space) : Onward pm (sp.vmFreeSpace pm) := by
  have h3 : ∀ i1 i2 (pm : Pmm), Onward pm (sp.freeTable3 pm i1 i2) := by
    intro i1 i2 pm
    unfold freeTable3
    split
    · exact .refl pm
    · refine (Pmm.onward_foldl (fun pm i3 => ?_) _ pm).trans (Pmm.onward_freePage _ _)
      split
      · exact .refl pm
      · exact pm.onward_dropPage _
  have h2 : ∀ i1 (pm : Pmm), Onward pm (sp.freeTable2 pm i1) := by
    intro i1 pm
    unfold freeTable2
    split
    · exact .refl pm
    · exact (Pmm.onward_foldl (fun pm i2 => h3 i1 i2 pm) _ pm).trans (Pmm.onward_freePage _ _)
  exact (Pmm.onward_foldl (fun pm i1 => h2 i1 pm) _ pm).trans (Pmm.onward_freePage _ _)

end Space

/-! ## The cycle -/

/-- What `do_fork` answers: the child, -12 or -11. -/
inductive ForkAnswer where
  | child (c : Fin maxThreads)
  | noCopy
  | noRoom
deriving DecidableEq, Repr

/-- A store by one of the two processes, with the fault it may take. -/
structure Write where
  byChild : Bool
  va : Va
  off : Nat
  value : Nat

namespace Kernel

/-- The answer of `do_fork` to a process with that address space. -/
def forkAnswer (k : Kernel) (sp : Space) : ForkAnswer :=
  match sp.vmCopySpace k.pm with
  | (_, _, none) => .noCopy
  | (pm, _, some _) =>
    match k.allocSlot with
    | none => .noRoom
    | some c =>
      match pm.allocPages stackPages with
      | none => .noRoom
      | some _ => .child c

/-- What parent and child write after the fork. -/
def write (i c : Fin maxThreads) (k : Kernel) (w : Write) : Kernel :=
  let j := if w.byChild then c else i
  (k.fault j w.va).store j w.va w.off w.value

/-- One turn of process `i`: it forks, both write, the child exits and the parent collects it. There
is no turn where the fork fails. -/
def cycle (i : Fin maxThreads) (writes : List Write) (k : Kernel) : Option Kernel :=
  match (k.slots i).space with
  | none => none
  | some sp =>
    match k.forkAnswer sp with
    | .child c => some (((writes.foldl (write i c) (k.fork i)).exit c).reap c)
    | _ => none

/-- So many turns after each other; `work` is what is written in each. -/
def cycles (i : Fin maxThreads) (work : Nat → List Write) (k : Kernel) : Nat → Option Kernel
  | 0 => some k
  | n + 1 => (cycles i work k n).bind (cycle i (work n))

/-- Process `i` runs, in a space of its own. -/
structure Runs (k : Kernel) (i : Fin maxThreads) : Prop where
  live : (k.slots i).live = true
  space : ∃ sp, (k.slots i).space = some sp

variable {k k' : Kernel} {i c : Fin maxThreads} {sp : Space}

/-! ### What a turn leaves -/

theorem setSlot_self (k : Kernel) (i : Fin maxThreads) (s : Slot) : (k.setSlot i s).slots i = s :=
  Function.update_self _ _ _

theorem Runs.setSpace (h : k.Runs i) (j : Fin maxThreads) (pm : Pmm) (sp : Space) :
    (Kernel.setSlot { k with pm } j { k.slots j with space := some sp }).Runs i := by
  by_cases hj : i = j
  · subst hj
    exact ⟨by rw [setSlot_self]; exact h.live, sp, by rw [setSlot_self]⟩
  · have hi : (Kernel.setSlot { k with pm } j { k.slots j with space := some sp }).slots i =
        k.slots i := Function.update_of_ne hj _ _
    exact ⟨by rw [hi]; exact h.live, by rw [hi]; exact h.space⟩

theorem Runs.setOther (h : k.Runs i) (hne : c ≠ i) (pm : Pmm) (s : Slot) :
    (Kernel.setSlot { k with pm } c s).Runs i := by
  have hi : (Kernel.setSlot { k with pm } c s).slots i = k.slots i := Function.update_of_ne hne.symm _ _
  exact ⟨by rw [hi]; exact h.live, by rw [hi]; exact h.space⟩

theorem allocSlot_unused (h : k.allocSlot = some c) : (k.slots c).used = false := by
  have := List.find?_some h
  simpa using this

theorem Runs.ne_of_unused (h : k.Runs i) (hc : (k.slots c).used = false) : c ≠ i := by
  rintro rfl
  have hlive := h.live
  unfold Slot.live at hlive
  rw [hc] at hlive
  cases hlive

theorem allocSlot_setSlot {pm : Pmm} {s : Slot} (h : s.used = (k.slots i).used) :
    (Kernel.setSlot { k with pm } i s).allocSlot = k.allocSlot := by
  have hused : ∀ j, ((Kernel.setSlot { k with pm } i s).slots j).used = (k.slots j).used := by
    intro j
    by_cases hj : j = i
    · subst hj
      exact (congrArg Slot.used (Function.update_self _ _ _)).trans h
    · exact congrArg Slot.used (Function.update_of_ne hj _ _)
  unfold allocSlot
  simp only [hused]

/-- A fork with a child: it has a slot of its own, and its stack is off the bump region. -/
theorem fork_child (hr : k.Runs i) (hsp : (k.slots i).space = some sp)
    (ha : k.forkAnswer sp = .child c) :
    c ≠ i ∧ (k.fork i).Runs i ∧ k.pm.freeNext + stackPages ≤ (k.fork i).pm.freeNext ∧
      (k.fork i).pm.top = k.pm.top ∧ (k.fork i).pm.freeNext ≤ k.pm.top := by
  unfold forkAnswer at ha
  split at ha
  · cases ha
  · next pm src dst hcopy =>
    split at ha
    · cases ha
    · next c' hslot =>
      split at ha
      · cases ha
      · next r hstack =>
        cases ha
        obtain ⟨b, pm'⟩ := r
        have hon := Space.onward_vmCopySpace hcopy
        obtain ⟨hnext, htop, hle⟩ := Pmm.next_of_allocPages hstack
        have hne := hr.ne_of_unused (allocSlot_unused hslot)
        have hparent : (Kernel.setSlot { k with pm } i { k.slots i with space := some src }).Runs i :=
          hr.setSpace i pm src
        have hslot' : (Kernel.setSlot { k with pm } i { k.slots i with space := some src }).allocSlot =
            some c := by
          rw [← hslot]
          exact allocSlot_setSlot rfl
        have hfork : k.fork i = Kernel.setSlot
            { Kernel.setSlot { k with pm } i { k.slots i with space := some src } with pm := pm' } c
            { used := true, zombie := false, space := some dst, stack := some b } := by
          unfold fork threadCreate
          rw [if_neg (by rw [hr.live]; decide), hsp]
          dsimp only
          rw [hcopy]
          dsimp only
          rw [hslot']
          dsimp only
          rw [show (Kernel.setSlot { k with pm } i { k.slots i with space := some src }).pm = pm
            from rfl, hstack]
        rw [hfork]
        refine ⟨hne, hparent.setOther hne _ _, ?_, htop.trans hon.top, ?_⟩
        · change k.pm.freeNext + stackPages ≤ pm'.freeNext
          have := hon.next
          omega
        · change pm'.freeNext ≤ k.pm.top
          rw [← hon.top, ← htop]
          exact hle

theorem fault_keeps (hr : k.Runs i) (j : Fin maxThreads) (va : Va) :
    (k.fault j va).Runs i ∧ k.pm.Onward (k.fault j va).pm := by
  unfold fault
  split_ifs
  · exact ⟨hr, .refl _⟩
  · split
    · exact ⟨hr, .refl _⟩
    · split
      · exact ⟨hr, .refl _⟩
      · next hfault => exact ⟨hr.setSpace j _ _, Space.onward_vmCowFault hfault⟩

theorem store_keeps (hr : k.Runs i) (j : Fin maxThreads) (va : Va) (off v : Nat) :
    (k.store j va off v).Runs i ∧ k.pm.Onward (k.store j va off v).pm := by
  unfold store
  split
  · exact ⟨hr, .refl _⟩
  · split_ifs
    · exact ⟨⟨hr.live, hr.space⟩, le_rfl, rfl⟩
    · exact ⟨hr, .refl _⟩

theorem writes_keep (ws : List Write) : ∀ {k : Kernel}, k.Runs i →
    (ws.foldl (write i c) k).Runs i ∧ k.pm.Onward (ws.foldl (write i c) k).pm := by
  induction ws with
  | nil => exact fun {k} hr => ⟨hr, .refl _⟩
  | cons w ws ih =>
    intro k hr
    obtain ⟨hr1, hon1⟩ := fault_keeps hr (if w.byChild then c else i) w.va
    obtain ⟨hr2, hon2⟩ := store_keeps hr1 (if w.byChild then c else i) w.va w.off w.value
    obtain ⟨hr3, hon3⟩ := ih hr2
    exact ⟨hr3, (hon1.trans hon2).trans hon3⟩

theorem exit_keeps (hr : k.Runs i) (hne : c ≠ i) :
    (k.exit c).Runs i ∧ k.pm.Onward (k.exit c).pm := by
  unfold exit
  split_ifs
  · exact ⟨hr, .refl _⟩
  · dsimp only
    split
    · exact ⟨hr.setOther hne k.pm _, .refl _⟩
    · exact ⟨hr.setOther hne _ _, Space.onward_vmFreeSpace _ _⟩

theorem reap_keeps (hr : k.Runs i) (hne : c ≠ i) :
    (k.reap c).Runs i ∧ k.pm.Onward (k.reap c).pm := by
  unfold reap
  split_ifs
  · split
    · exact ⟨hr.setOther hne k.pm _, .refl _⟩
    · exact ⟨hr.setOther hne _ _, Pmm.onward_freePages _ _ _⟩
  · exact ⟨hr, .refl _⟩

theorem cycle_spec {ws : List Write} (hr : k.Runs i) (h : k.cycle i ws = some k') :
    k'.Runs i ∧ k'.pm.top = k.pm.top ∧ k.pm.freeNext + stackPages ≤ k'.pm.freeNext ∧
      k.pm.freeNext + stackPages ≤ k.pm.top := by
  obtain ⟨sp, hsp⟩ := hr.space
  unfold cycle at h
  rw [hsp] at h
  dsimp only at h
  cases ha : k.forkAnswer sp with
  | noCopy | noRoom => simp [ha] at h
  | child c =>
    rw [ha] at h
    obtain rfl := Option.some.inj h
    obtain ⟨hne, hrun, hnext, htop, hle⟩ := fork_child hr hsp ha
    obtain ⟨hrun1, hon1⟩ := writes_keep ws (c := c) hrun
    obtain ⟨hrun2, hon2⟩ := exit_keeps hrun1 hne
    obtain ⟨hrun3, hon3⟩ := reap_keeps hrun2 hne
    have hon := (hon1.trans hon2).trans hon3
    exact ⟨hrun3, hon.top.trans htop, hnext.trans hon.next, hnext.trans hle⟩

/-- So many turns take so many stacks. -/
theorem cycles_spec {work : Nat → List Write} (hr : k.Runs i) :
    ∀ {n : Nat} {k' : Kernel}, k.cycles i work n = some k' →
      k'.Runs i ∧ k'.pm.top = k.pm.top ∧ k.pm.freeNext + n * stackPages ≤ k'.pm.freeNext ∧
        (0 < n → k.pm.freeNext + n * stackPages ≤ k.pm.top)
  | 0, k', h => by
    obtain rfl := Option.some.inj h
    exact ⟨hr, rfl, by omega, fun h => absurd h (by decide)⟩
  | n + 1, k', h => by
    obtain ⟨k1, h1, h2⟩ := Option.bind_eq_some_iff.1 h
    obtain ⟨hr1, htop1, hnext1, -⟩ := cycles_spec hr h1
    obtain ⟨hr2, htop2, hnext2, hle2⟩ := cycle_spec hr1 h2
    rw [htop1] at htop2 hle2
    refine ⟨hr2, htop2, ?_, fun _ => ?_⟩ <;> rw [Nat.succ_mul] <;> omega

theorem forkAnswer_child {pm' : Pmm} {src dst : Space} {r : Nat × Pmm}
    (hcopy : sp.vmCopySpace k.pm = (pm', src, some dst)) (hslot : k.allocSlot = some c)
    (hstack : pm'.allocPages stackPages = some r) : k.forkAnswer sp = .child c := by
  unfold forkAnswer
  rw [hcopy]
  dsimp only
  rw [hslot]
  dsimp only
  rw [hstack]

theorem cycle_of_child (hsp : (k.slots i).space = some sp) (ha : k.forkAnswer sp = .child c)
    (ws : List Write) : ∃ k', k.cycle i ws = some k' := by
  unfold cycle
  rw [hsp]
  dsimp only
  rw [ha]
  exact ⟨_, rfl⟩

theorem forkAnswer_of_cycle_none {ws : List Write} (hsp : (k.slots i).space = some sp)
    (h : k.cycle i ws = none) : k.forkAnswer sp = .noCopy ∨ k.forkAnswer sp = .noRoom := by
  unfold cycle at h
  rw [hsp] at h
  cases ha : k.forkAnswer sp with
  | noCopy => exact .inl rfl
  | noRoom => exact .inr rfl
  | child c => simp [ha] at h

end Kernel

/-- On every machine, however balanced the work of a process is, `do_fork` refuses it after as many
turns at most as stacks fit between the bump pointer and the top of memory. -/
theorem balanced_work_ends (k : Kernel) (i : Fin maxThreads) (work : Nat → List Write)
    (hr : k.Runs i) : ∃ n ≤ (k.pm.top - k.pm.freeNext) / stackPages, ∃ k' sp,
      k.cycles i work n = some k' ∧ (k'.slots i).space = some sp ∧
        (k'.forkAnswer sp = .noCopy ∨ k'.forkAnswer sp = .noRoom) := by
  have hends : ∃ n, k.cycles i work (n + 1) = none := by
    refine ⟨(k.pm.top - k.pm.freeNext) / stackPages, ?_⟩
    by_contra hne
    obtain ⟨k', h⟩ := Option.ne_none_iff_exists'.1 hne
    have hle := (Kernel.cycles_spec hr h).2.2.2 (Nat.succ_pos _)
    have hdm := Nat.lt_div_mul_add (a := k.pm.top - k.pm.freeNext) (show 0 < stackPages by decide)
    rw [Nat.succ_mul] at hle
    omega
  classical
  have hlast := Nat.find_spec hends
  have hbefore : ∀ n ≤ Nat.find hends, ∃ k', k.cycles i work n = some k' := by
    intro n hn
    cases n with
    | zero => exact ⟨k, rfl⟩
    | succ n => exact Option.ne_none_iff_exists'.1 (Nat.find_min hends hn)
  obtain ⟨k', hk'⟩ := hbefore _ le_rfl
  obtain ⟨hr', htop, hnext, hle⟩ := Kernel.cycles_spec hr hk'
  obtain ⟨sp, hsp⟩ := hr'.space
  refine ⟨Nat.find hends, ?_, k', sp, hk', hsp,
    @Kernel.forkAnswer_of_cycle_none k' i sp (work (Nat.find hends)) hsp ?_⟩
  · rw [Nat.le_div_iff_mul_le (by decide)]
    rcases Nat.eq_zero_or_pos (Nat.find hends) with h0 | hpos
    · rw [h0]
      omega
    · have := hle hpos
      omega
  · rw [Kernel.cycles, hk'] at hlast
    exact hlast

/-! ## A machine on which the first turn succeeds -/

theorem Pmm.allocPage_of_room (h : pm.freeNext + 1 ≤ pm.top) :
    ∃ p pm', pm.allocPage = some (p, pm') ∧ pm'.freeNext ≤ pm.freeNext + 1 ∧ pm'.top = pm.top := by
  unfold allocPage
  split
  · exact ⟨_, _, rfl, Nat.le_succ _, rfl⟩
  · rw [if_neg (by omega)]
    exact ⟨_, _, rfl, le_rfl, rfl⟩

theorem Pmm.pageRef_next (pm : Pmm) (p : Nat) :
    (pm.pageRef p).freeNext = pm.freeNext ∧ (pm.pageRef p).top = pm.top := by
  unfold pageRef
  split
  · exact ⟨rfl, rfl⟩
  · split_ifs
    · exact ⟨rfl, rfl⟩
    · exact ⟨rfl, rfl⟩

namespace Space

theorem mapUserPageRaw_of_room (dst : Space) (va : Va) (d : Desc) (h : pm.freeNext + 2 ≤ pm.top) :
    ∃ pm' dst', mapUserPageRaw pm dst va d = (pm', dst', true) ∧ pm'.freeNext ≤ pm.freeNext + 2 ∧
      pm'.top = pm.top := by
  have h1 : ∃ pm1 dst1, descend1 pm dst va.i1 = (pm1, dst1, true) ∧
      pm1.freeNext ≤ pm.freeNext + 1 ∧ pm1.top = pm.top := by
    unfold descend1
    split
    · exact ⟨_, _, rfl, Nat.le_succ _, rfl⟩
    · obtain ⟨p, pm1, ha, hnext, htop⟩ := Pmm.allocPage_of_room (show pm.freeNext + 1 ≤ pm.top by omega)
      rw [ha]
      exact ⟨_, _, rfl, hnext, htop⟩
  obtain ⟨pm1, dst1, hd1, hnext1, htop1⟩ := h1
  have h2 : ∃ pm2 dst2, descend2 pm1 dst1 va.i1 va.i2 = (pm2, dst2, true) ∧
      pm2.freeNext ≤ pm1.freeNext + 1 ∧ pm2.top = pm1.top := by
    unfold descend2
    split
    · exact ⟨_, _, rfl, Nat.le_succ _, rfl⟩
    · obtain ⟨p, pm2, ha, hnext, htop⟩ :=
        Pmm.allocPage_of_room (show pm1.freeNext + 1 ≤ pm1.top by omega)
      rw [ha]
      exact ⟨_, _, rfl, hnext, htop⟩
  obtain ⟨pm2, dst2, hd2, hnext2, htop2⟩ := h2
  refine ⟨pm2, dst2.setLeaf va d, ?_, by omega, htop2.trans htop1⟩
  unfold mapUserPageRaw
  rw [hd1]
  dsimp only
  rw [hd2]

/-- How many of the listed pages a space maps. -/
def mapped (sp : Space) (vas : List Va) : Nat := vas.countP fun va => (sp.walk va).isSome

theorem copyLoop_of_room : ∀ (vas : List Va) {pm : Pmm} {src : Space} (dst : Space),
    pm.freeNext + 2 * src.mapped vas ≤ pm.top → ∃ pm' src' dst',
      copyLoop pm src dst vas = (pm', src', dst', true) ∧
        pm'.freeNext ≤ pm.freeNext + 2 * src.mapped vas ∧ pm'.top = pm.top
  | [], pm, src, dst, _ => ⟨pm, src, dst, rfl, Nat.le_add_right _ _, rfl⟩
  | va :: vas, pm, src, dst, h => by
    rw [copyLoop]
    unfold mapped at h ⊢
    rw [List.countP_cons] at h ⊢
    cases hw : src.walk va with
    | none =>
      rw [hw] at h
      exact copyLoop_of_room vas dst h
    | some d =>
      have hone : (if (some d).isSome = true then 1 else 0) = 1 := rfl
      rw [hw, hone] at h
      rw [hone]
      obtain ⟨hnext0, htop0⟩ := pm.pageRef_next d.page
      obtain ⟨pm1, dst1, hm, hnext1, htop1⟩ := @mapUserPageRaw_of_room (pm.pageRef d.page) dst va
        { d with ro := true } (by omega)
      have hsame : (src.setLeaf va { d with ro := true }).mapped vas = src.mapped vas := by
        unfold mapped
        rw [setLeaf_walk _ (table3_ne_none_of_walk hw)]
        congr 1
        funext v
        by_cases hv : v = va
        · rw [hv, Function.update_self, hw]
          rfl
        · rw [Function.update_of_ne hv]
      obtain ⟨pm2, src2, dst2, hc, hnext2, htop2⟩ := copyLoop_of_room vas dst1
        (show pm1.freeNext + 2 * (src.setLeaf va { d with ro := true }).mapped vas ≤ pm1.top by
          rw [hsame]
          unfold mapped
          omega)
      refine ⟨pm2, src2, dst2, ?_, ?_, ?_⟩
      · dsimp only
        rw [hm]
        exact hc
      · rw [hsame] at hnext2
        unfold mapped at hnext2
        omega
      · rw [htop2, htop1, htop0]

/-- The copy of a space that maps one page. -/
theorem vmCopySpace_one {va : Va} {sp : Space} (h : ∀ v, v ≠ va → sp.walk v = none)
    (hroom : pm.freeNext + 3 ≤ pm.top) : ∃ pm' src dst,
      vmCopySpace pm sp = (pm', src, some dst) ∧ pm'.freeNext ≤ pm.freeNext + 3 ∧
        pm'.top = pm.top := by
  have hone : sp.mapped allVas ≤ 1 := by
    calc sp.mapped allVas ≤ allVas.count va := by
          refine List.countP_mono_left fun v _ hv => ?_
          by_contra hne
          rw [h v (by simpa using hne)] at hv
          cases hv
      _ ≤ 1 := List.nodup_iff_count_le_one.1 allVas_nodup va
  obtain ⟨l1, pm1, ha, hnext1, htop1⟩ := Pmm.allocPage_of_room (show pm.freeNext + 1 ≤ pm.top by omega)
  obtain ⟨pm2, src, dst, hc, hnext2, htop2⟩ := @copyLoop_of_room allVas pm1 sp (empty l1)
    (show pm1.freeNext + 2 * sp.mapped allVas ≤ pm1.top by omega)
  refine ⟨pm2, src, dst, ?_, by omega, htop2.trans htop1⟩
  unfold vmCopySpace
  rw [ha]
  dsimp only
  rw [hc]

end Space

/-- The process that runs on a machine otherwise idle: its page at address 0 and its tables. -/
def onePage : Space where
  l1 := 90
  l2 := fun i1 => if i1 = 0 then some 91 else none
  l3 := fun i1 i2 => if i1 = 0 ∧ i2 = 0 then some 92 else none
  leaf := fun va => if va = ⟨0, 0, 0⟩ then some ⟨93, true, false, 0⟩ else none

theorem onePage_walk (v : Va) (h : v ≠ ⟨0, 0, 0⟩) : onePage.walk v = none := by
  have hleaf : onePage.leaf v = none := if_neg h
  unfold Space.walk
  split
  · rfl
  · exact hleaf

def quietProcess : Fin maxThreads := ⟨0, maxThreads_pos⟩

/-- That machine, with 32 pages left. -/
def quietMachine : Kernel where
  pm := { start := 0, top := 130, freeNext := 98, freeList := [], refs := fun _ => 0
          mem := fun _ _ => 0 }
  slots := fun i => if i = quietProcess then ⟨true, false, some onePage, some 94⟩ else Slot.free

theorem quietMachine_runs : quietMachine.Runs quietProcess := ⟨rfl, onePage, rfl⟩

theorem balanced_work_ends_quiet : ∃ n ≤ (130 - 98) / stackPages, ∃ k' sp,
    quietMachine.cycles quietProcess (fun _ => []) n = some k' ∧
      (k'.slots quietProcess).space = some sp ∧
        (k'.forkAnswer sp = .noCopy ∨ k'.forkAnswer sp = .noRoom) :=
  balanced_work_ends quietMachine quietProcess (fun _ => []) quietMachine_runs

/-- The first turn succeeds there, and not every later one. -/
theorem balanced_work_not_for_ever : (∃ k', quietMachine.cycle quietProcess [] = some k') ∧
      ¬∀ n, ∃ k', quietMachine.cycles quietProcess (fun _ => []) n = some k' := by
  constructor
  · obtain ⟨pm', src, dst, hcopy, hnext, htop⟩ := @Space.vmCopySpace_one quietMachine.pm ⟨0, 0, 0⟩
      onePage onePage_walk (by decide)
    have hslot : quietMachine.allocSlot = some ⟨1, by decide⟩ := by decide
    have hstack : ∃ r, pm'.allocPages stackPages = some r := by
      unfold Pmm.allocPages
      rw [if_neg (by decide), if_neg (by
        have h1 : quietMachine.pm.freeNext = 98 := rfl
        have h2 : quietMachine.pm.top = 130 := rfl
        have h3 : stackPages = 4 := rfl
        omega)]
      exact ⟨_, rfl⟩
    obtain ⟨r, hr⟩ := hstack
    exact Kernel.cycle_of_child rfl (Kernel.forkAnswer_child hcopy hslot hr) []
  · intro h
    obtain ⟨k', hk'⟩ := h 9
    have hle := (Kernel.cycles_spec quietMachine_runs hk').2.2.2 (by decide)
    exact absurd hle (by decide)

end Verkos.Stam
