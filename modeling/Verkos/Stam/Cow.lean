import Verkos.Stam.Sched
import Verkos.Stam.Vm

/-!
# Copy-on-write over whole runs

The processes of the machine and what they may do to each other's memory: fork shares every
page and takes the write permission from both sides, a write fault copies or takes the
permission back, exec builds a fresh space and leaves the old one where it is, exit gives a
space back page by page.

`Kernel` is the slot table with the address space and the kernel stack of each slot, and the
allocator. `step` performs one operation to its end; an operation on a slot that is not in
the state the operation needs changes nothing. The invariant ties the allocator's ledger to
the table: the exclusive owners are the page tables and the kernel stacks, the holders of a
page are the slots that map it. There are at most twenty-four of those, which is what keeps
the saturating byte counts of `mmu.c` ahead of the mappings even though exec and the failing
branches of fork never give their share back.
-/

namespace Verkos.Stam

open Verkos.Lib
open Function

attribute [local instance] neZero512

/-- What a thread slot holds of memory: whether it is taken, whether its process has
finished, its address space (none for a kernel thread) and the first page of its stack (none
for a thread that was adopted). -/
structure Slot where
  used : Bool
  zombie : Bool
  space : Option Space
  stack : Option Nat

namespace Slot

/-- A slot on the shelf. -/
def free : Slot := { used := false, zombie := false, space := none, stack := none }

/-- The process in the slot may run. -/
def live (s : Slot) : Bool := s.used && !s.zombie

/-- How often the slot owns page `p`: its page tables and its kernel stack. -/
def owned (p : Nat) (s : Slot) : Nat :=
  (match s.space with
    | none => 0
    | some sp => sp.tables p) +
  (match s.stack with
    | none => 0
    | some b => if b ≤ p ∧ p < b + stackPages then 1 else 0)

/-- How often the slot maps page `p`. -/
def held (p : Nat) (s : Slot) : Nat :=
  match s.space with
  | none => 0
  | some sp => sp.frames p

/-- The descriptor the slot's process reaches at `va`. -/
def walk (s : Slot) (va : Va) : Option Desc :=
  match s.space with
  | none => none
  | some sp => sp.walk va

end Slot

/-- The allocator and the slot table. -/
structure Kernel where
  pm : Pmm
  slots : Fin maxThreads → Slot

variable {own held : Nat → Nat} {sp : Space} {pm1 : Pmm} {va : Va} {d : Desc}

namespace Kernel

/-- The machine when the allocator has been told its bounds (`pmm_init`) and has its counters
(`pmm_init_refs`). A machine whose counters found no room has no page left to run a program
on either. -/
def boot (start top : Nat) (mem : Nat → Nat → Nat) : Kernel where
  pm := { start, top, freeNext := start, freeList := [], refs := fun _ => 0, mem }
  slots _ := Slot.free

/-- `alloc_slot`: the first slot on the shelf. -/
def allocSlot (k : Kernel) : Option (Fin maxThreads) :=
  (List.finRange maxThreads).find? (fun i => !(k.slots i).used)

def setSlot (k : Kernel) (i : Fin maxThreads) (s : Slot) : Kernel :=
  { k with slots := Function.update k.slots i s }

/-- `sched_init`, `sched_cpu_init`: a slot for a thread that already has a stack. -/
def adopt (k : Kernel) : Kernel :=
  match k.allocSlot with
  | none => k
  | some i => k.setSlot i { Slot.free with used := true }

/-- `thread_create`, and the end of `thread_fork`: a slot, a stack, and the space given. -/
def threadCreate (k : Kernel) (space : Option Space) : Kernel :=
  match k.allocSlot with
  | none => k
  | some i =>
    match k.pm.allocPages stackPages with
    | none => k
    | some (b, pm) =>
      { k with pm }.setSlot i { used := true, zombie := false, space, stack := some b }

/-- `elf_load`'s loop: a page for each virtual page of each segment, in order. -/
def loadPages (pm : Pmm) (sp : Space) : List (Va × Bool) → Pmm × Space × Bool
  | [] => (pm, sp, true)
  | (va, executable) :: rest =>
    match pm.allocPage with
    | none => (pm, sp, false)
    | some (page, pm) =>
      match sp.mapUserPage pm va page executable with
      | (pm, sp, false) => (pm, sp, false)
      | (pm, sp, true) => loadPages pm sp rest

/-- The virtual page of the initial stack, `0x7f00100000`. -/
def stackVa : Va := ⟨508, 0, 256⟩

/-- The pages an executable is read into when it comes off the disk; none when it is in the
initrd. -/
def stage (pm : Pmm) (n : Nat) : Option (Nat × Pmm) :=
  if n = 0 then some (0, pm) else pm.allocPages n

/-- `do_execve` from the point where the image has been found: `disk` staging pages, whether
the file could be read into them, the pages of the image's segments, and whether the image
passes `elf_load`'s checks. The old space is not given back. -/
def execve (k : Kernel) (i : Fin maxThreads) (disk : Nat) (readOk : Bool)
    (pages : List (Va × Bool)) (elfOk : Bool) : Kernel :=
  if (k.slots i).live = false then k
  else
    match stage k.pm disk with
    | none => k
    | some (b, pm) =>
      if readOk = false then { k with pm := pm.freePages b disk }
      else
        match pm.allocPage with
        | none => { k with pm := pm.freePages b disk }
        | some (l1, pm) =>
          match loadPages pm (Space.empty l1) pages with
          | (pm, sp, ok) =>
            if ok = false ∨ elfOk = false then { k with pm := pm.freePages b disk }
            else
              match loadPages pm sp [(stackVa, false)] with
              | (pm, _, false) => { k with pm := pm.freePages b disk }
              | (pm, sp, true) =>
                { k with pm := pm.freePages b disk }.setSlot i { k.slots i with space := some sp }

/-- `initrd_program`: a kernel thread takes a space of its own before anything is mapped in
it, and keeps it whatever the loading comes to. Its failing branches keep the staging pages
too. -/
def startProgram (k : Kernel) (i : Fin maxThreads) (disk : Nat) (readOk : Bool)
    (pages : List (Va × Bool)) (elfOk : Bool) : Kernel :=
  if (k.slots i).live = false then k
  else
    match k.pm.allocPage with
    | none => k
    | some (l1, pm) =>
      match stage pm disk with
      | none => { k with pm }.setSlot i { k.slots i with space := some (Space.empty l1) }
      | some (b, pm) =>
        if readOk = false then
          { k with pm }.setSlot i { k.slots i with space := some (Space.empty l1) }
        else
          match loadPages pm (Space.empty l1) pages with
          | (pm, sp, ok) =>
            if ok = false ∨ elfOk = false then
              { k with pm }.setSlot i { k.slots i with space := some sp }
            else
              match loadPages (pm.freePages b disk) sp [(stackVa, false)] with
              | (pm, sp, _) => { k with pm }.setSlot i { k.slots i with space := some sp }

/-- `do_fork`: the copy, and a slot for the child. A copy that finds no slot is lost, and so
is one that ran out of memory half way. -/
def fork (k : Kernel) (i : Fin maxThreads) : Kernel :=
  if (k.slots i).live = false then k
  else
    match (k.slots i).space with
    | none => k
    | some sp =>
      match sp.vmCopySpace k.pm with
      | (pm, src, none) => { k with pm }.setSlot i { k.slots i with space := some src }
      | (pm, src, some dst) =>
        ({ k with pm }.setSlot i { k.slots i with space := some src }).threadCreate (some dst)

/-- A write by the process, or by the kernel on its behalf, to a page it may not write
(`vm_cow_fault`). -/
def fault (k : Kernel) (i : Fin maxThreads) (va : Va) : Kernel :=
  if (k.slots i).live = false then k
  else
    match (k.slots i).space with
    | none => k
    | some sp =>
      match sp.vmCowFault k.pm va with
      | none => k
      | some (pm, sp) => { k with pm }.setSlot i { k.slots i with space := some sp }

/-- A store by the process, at a word of a page its table lets it write. -/
def store (k : Kernel) (i : Fin maxThreads) (va : Va) (off v : Nat) : Kernel :=
  match (k.slots i).walk va with
  | none => k
  | some d =>
    if d.el0 = true ∧ d.ro = false then
      { k with pm := { k.pm with
        mem := Function.update k.pm.mem d.page (Function.update (k.pm.mem d.page) off v) } }
    else k

/-- What the process reads at a word of a page. -/
def load (k : Kernel) (i : Fin maxThreads) (va : Va) (off : Nat) : Option Nat :=
  ((k.slots i).walk va).map (fun d => k.pm.mem d.page off)

/-- `thread_exit`: the space goes back and the slot waits to be collected. -/
def exit (k : Kernel) (i : Fin maxThreads) : Kernel :=
  if (k.slots i).live = false then k
  else
    let gone := { k.slots i with zombie := true, space := none }
    match (k.slots i).space with
    | none => k.setSlot i gone
    | some sp => { k with pm := sp.vmFreeSpace k.pm }.setSlot i gone

/-- `release_slot`: the stack of a finished process goes back and the slot is free. -/
def reap (k : Kernel) (i : Fin maxThreads) : Kernel :=
  if (k.slots i).used = true ∧ (k.slots i).zombie = true then
    match (k.slots i).stack with
    | none => k.setSlot i Slot.free
    | some b => { k with pm := k.pm.freePages b stackPages }.setSlot i Slot.free
  else k

/-- `alloc_pages` for the kernel itself: its own tables, the `refs` bytes. Never returned. -/
def kalloc (k : Kernel) (n : Nat) : Kernel :=
  match k.pm.allocPages n with
  | none => k
  | some (_, pm) => { k with pm }

/-- What can happen on the machine that touches its memory. -/
inductive Op
  | kalloc (n : Nat)
  | adopt
  | create
  | start (i : Fin maxThreads) (disk : Nat) (readOk : Bool) (pages : List (Va × Bool))
      (elfOk : Bool)
  | exec (i : Fin maxThreads) (disk : Nat) (readOk : Bool) (pages : List (Va × Bool))
      (elfOk : Bool)
  | fork (i : Fin maxThreads)
  | fault (i : Fin maxThreads) (va : Va)
  | store (i : Fin maxThreads) (va : Va) (off v : Nat)
  | exit (i : Fin maxThreads)
  | reap (i : Fin maxThreads)

def step (k : Kernel) : Op → Kernel
  | .kalloc n => k.kalloc n
  | .adopt => k.adopt
  | .create => k.threadCreate none
  | .start i disk readOk pages elfOk => k.startProgram i disk readOk pages elfOk
  | .exec i disk readOk pages elfOk => k.execve i disk readOk pages elfOk
  | .fork i => k.fork i
  | .fault i va => k.fault i va
  | .store i va off v => k.store i va off v
  | .exit i => k.exit i
  | .reap i => k.reap i

/-- A run of the machine. -/
def run (k : Kernel) (ops : List Op) : Kernel := ops.foldl step k

/-! ## The invariant -/

/-- The allocator's book is the slot table; a process maps a page once; a page two processes
map is read-only in both. -/
structure Inv (k : Kernel) : Prop where
  ledger : Ledger k.pm (fun q => tally (Slot.owned q) k.slots)
    (fun q => tally (Slot.held q) k.slots)
  once : ∀ i q, (k.slots i).held q ≤ 1
  shared : ∀ i j, i ≠ j → ∀ va va' d d', (k.slots i).walk va = some d →
    (k.slots j).walk va' = some d' → d.page = d'.page → d.ro = true ∧ d'.ro = true

variable {k : Kernel} {pm : Pmm} {i : Fin maxThreads} {s : Slot}

theorem held_pos_iff {s : Slot} {p : Nat} :
    0 < s.held p ↔ ∃ va d, s.walk va = some d ∧ d.page = p := by
  unfold Slot.held Slot.walk
  cases s.space with
  | none => simp
  | some sp => exact Space.frames_pos_iff

/-- One slot changes: the new book balances, and the new slot shares read-only. -/
theorem Inv.setSlot (h : Inv k)
    (hl : Ledger pm (fun q => tallyBut (Slot.owned q) k.slots i + s.owned q)
      (fun q => tallyBut (Slot.held q) k.slots i + s.held q)) (honce : ∀ q, s.held q ≤ 1)
    (hshared : ∀ j, j ≠ i → ∀ va va' d d', s.walk va = some d → (k.slots j).walk va' = some d' →
      d.page = d'.page → d.ro = true ∧ d'.ro = true) : Inv ({ k with pm }.setSlot i s) where
  ledger := hl.congr (fun q => tally_update_eq_but _ _ _ _) (fun q => tally_update_eq_but _ _ _ _)
  once j q := by
    by_cases hj : j = i
    · subst hj; simpa only [Kernel.setSlot, update_self] using honce q
    · simpa only [Kernel.setSlot, update_of_ne hj] using h.once j q
  shared a b hab va va' d d' ha hb hp := by
    simp only [Kernel.setSlot] at ha hb
    by_cases hai : a = i
    · subst hai
      rw [update_self] at ha
      rw [update_of_ne (Ne.symm hab)] at hb
      exact hshared b (Ne.symm hab) va va' d d' ha hb hp
    · rw [update_of_ne hai] at ha
      by_cases hbi : b = i
      · subst hbi
        rw [update_self] at hb
        exact (hshared a hai va' va d' d hb ha hp.symm).symm
      · rw [update_of_ne hbi] at hb
        exact h.shared a b hab va va' d d' ha hb hp

theorem Inv.setPm (h : Inv k) (hl : Ledger pm (fun q => tally (Slot.owned q) k.slots)
    (fun q => tally (Slot.held q) k.slots)) : Inv { k with pm } :=
  ⟨hl, h.once, h.shared⟩

theorem Inv.ledgerBut (h : Inv k) (i : Fin maxThreads) :
    Ledger k.pm (fun q => tallyBut (Slot.owned q) k.slots i + (k.slots i).owned q)
      (fun q => tallyBut (Slot.held q) k.slots i + (k.slots i).held q) :=
  h.ledger.congr (fun _ => (tally_eq_but _ _ _).symm) (fun _ => (tally_eq_but _ _ _).symm)

theorem Inv.few (h : Inv k) (q : Nat) : tally (Slot.held q) k.slots ≤ maxThreads := by
  have hle := tally_le_card (Slot.held q) k.slots (fun i => h.once i q)
  rwa [Fintype.card_fin] at hle

/-- Pages nobody else maps are shared with nobody. -/
theorem shared_of_private {pages : Slot} (hpriv : ∀ q, 0 < pages.held q →
      tallyBut (Slot.held q) k.slots i = 0) (j : Fin maxThreads) (hj : j ≠ i) (va va' : Va)
    (d d' : Desc) (ha : pages.walk va = some d) (hb : (k.slots j).walk va' = some d')
    (hp : d.page = d'.page) : d.ro = true ∧ d'.ro = true := by
  have hpos : 0 < pages.held d.page := held_pos_iff.mpr ⟨va, d, ha, rfl⟩
  have hother : 0 < (k.slots j).held d.page := held_pos_iff.mpr ⟨va', d', hb, hp.symm⟩
  have hle := le_tallyBut (Slot.held d.page) k.slots hj
  have hzero := hpriv d.page hpos
  omega

/-! ## One lemma per operation -/

/-- A space maps no page twice and no page that is mapped outside it. -/
def Private (held : Nat → Nat) (sp : Space) : Prop :=
  ∀ q, sp.frames q ≤ 1 ∧ (0 < sp.frames q → held q = 0)

/-- `elf_load`'s loop fills the space with pages of its own. A virtual page two segments share
is mapped twice, and the first page is lost. -/
theorem loadPages_spec : ∀ (pages : List (Va × Bool)) {pm pm' : Pmm} {sp sp' : Space} {ok : Bool},
      loadPages pm sp pages = (pm', sp', ok) →
      Ledger pm (fun q => own q + sp.tables q) (fun q => held q + sp.frames q) → Private held sp →
      Ledger pm' (fun q => own q + sp'.tables q) (fun q => held q + sp'.frames q) ∧
        Private held sp' := by
  intro pages
  induction pages with
  | nil =>
    intro pm pm' sp sp' ok he h hpriv
    simp only [loadPages, Prod.mk.injEq] at he
    obtain ⟨rfl, rfl, -⟩ := he
    exact ⟨h, hpriv⟩
  | cons head rest ih =>
    intro pm pm' sp sp' ok he h hpriv
    obtain ⟨va, executable⟩ := head
    simp only [loadPages] at he
    cases ha : pm.allocPage with
    | none =>
      simp only [ha, Prod.mk.injEq] at he
      obtain ⟨rfl, rfl, -⟩ := he
      exact ⟨h, hpriv⟩
    | some r =>
      obtain ⟨page, pm1⟩ := r
      simp only [ha] at he
      have hown : Ledger pm1 (fun q => (own q + if page = q then 1 else 0) + sp.tables q)
          (fun q => held q + sp.frames q) :=
        (h.allocPage ha).congr (fun _ => by omega) (fun _ => rfl)
      have hfresh : held page + sp.frames page = 0 :=
        hown.held_eq_zero_of_own (by simp only [if_true]; omega)
      cases hm : sp.mapUserPage pm1 va page executable with
      | mk pm2 r2 =>
        obtain ⟨sp2, ok2⟩ := r2
        obtain ⟨hl2, hmapped, hsame⟩ := Space.mapUserPageRaw_spec hm hown
        cases ok2 with
        | false =>
          simp only [hm, Prod.mk.injEq] at he
          obtain ⟨rfl, rfl, -⟩ := he
          have hf := Space.frames_congr (hsame rfl)
          refine ⟨hl2.mono (fun _ => by omega) (fun q => ?_), fun q => ?_⟩
          · rw [hf q]
          · rw [hf q]; exact hpriv q
        | true =>
          simp only [hm] at he
          have hf : ∀ q, sp2.frames q ≤ sp.frames q + if page = q then 1 else 0 := by
            intro q
            have hu := Space.frames_update (hmapped rfl) q
            simp only [Space.descHits_some] at hu
            omega
          have hl3 : Ledger pm2 (fun q => own q + sp2.tables q)
              (fun q => held q + sp.frames q + if page = q then 1 else 0) :=
            hl2.map (fun _ => by omega)
          refine ih he (hl3.mono (fun _ => Nat.le_refl _) (fun q => ?_)) (fun q => ?_)
          · have := hf q
            omega
          · have hq := hpriv q
            have hle := hf q
            by_cases hpq : page = q
            · subst hpq
              rw [if_pos rfl] at hle
              exact ⟨by omega, fun _ => by omega⟩
            · rw [if_neg hpq] at hle
              exact ⟨by omega, fun hpos => hq.2 (by omega)⟩

/-- A slot off the shelf with a stack of its own: everything the new thread maps is in the
book already, and what it shares is read-only. -/
theorem Inv.threadCreate (h : Inv k) {space : Option Space} {fresh : Slot}
    (hfresh : fresh = { used := true, zombie := false, space, stack := none })
    (hl : Ledger k.pm (fun q => tally (Slot.owned q) k.slots + fresh.owned q)
      (fun q => tally (Slot.held q) k.slots + fresh.held q))
    (honce : ∀ q, fresh.held q ≤ 1)
    (hshared : ∀ j va va' d d', fresh.walk va = some d → (k.slots j).walk va' = some d' →
      d.page = d'.page → d.ro = true ∧ d'.ro = true) :
    Inv (k.threadCreate space) := by
  subst hfresh
  unfold Kernel.threadCreate
  cases hs : k.allocSlot with
  | none => exact h
  | some i =>
    cases ha : k.pm.allocPages stackPages with
    | none => exact h
    | some r =>
      obtain ⟨b, pm⟩ := r
      refine h.setSlot ((hl.allocPages ha).mono (fun q => ?_) (fun q => ?_)) honce
        (fun j _ => hshared j)
      · have hb := tally_eq_but (Slot.owned q) k.slots i
        simp only [Slot.owned] at hb ⊢
        omega
      · have hb := tally_eq_but (Slot.held q) k.slots i
        simp only [Slot.held] at hb ⊢
        omega

theorem Inv.create (h : Inv k) : Inv (k.threadCreate none) := by
  refine h.threadCreate rfl (h.ledger.mono (fun q => ?_) (fun q => ?_)) (fun _ => Nat.zero_le _)
    (fun _ _ _ _ _ hw => by cases hw)
  · exact Nat.le_of_eq (Nat.add_zero _)
  · exact Nat.le_of_eq (Nat.add_zero _)

theorem Inv.adopt (h : Inv k) : Inv k.adopt := by
  unfold Kernel.adopt
  cases k.allocSlot with
  | none => exact h
  | some i =>
    refine h.setSlot ((h.ledgerBut i).mono (fun q => ?_) (fun q => ?_)) (fun _ => Nat.zero_le _)
      (fun _ _ _ _ _ _ hw => by cases hw)
    · exact Nat.add_le_add_left (Nat.zero_le _) _
    · exact Nat.add_le_add_left (Nat.zero_le _) _

theorem Inv.kalloc (h : Inv k) (n : Nat) : Inv (k.kalloc n) := by
  unfold Kernel.kalloc
  cases ha : k.pm.allocPages n with
  | none => exact h
  | some r =>
    obtain ⟨b, pm⟩ := r
    exact h.setPm ((h.ledger.allocPages ha).mono (fun _ => Nat.le_add_right _ _)
      (fun _ => Nat.le_refl _))

/-- A slot takes a space that shares nothing. What it had before is lost, not given back. -/
theorem Inv.setPrivate (h : Inv k)
    (hl : Ledger pm (fun q => tally (Slot.owned q) k.slots + sp.tables q)
      (fun q => tally (Slot.held q) k.slots + sp.frames q))
    (hpriv : Private (fun q => tally (Slot.held q) k.slots) sp) :
    Inv ({ k with pm }.setSlot i { k.slots i with space := some sp }) := by
  refine h.setSlot (hl.mono (fun q => ?_) (fun q => ?_)) (fun q => (hpriv q).1) ?_
  · have hb := tally_eq_but (Slot.owned q) k.slots i
    simp only [Slot.owned] at hb ⊢
    omega
  · have hb := tally_eq_but (Slot.held q) k.slots i
    simp only [Slot.held] at hb ⊢
    omega
  · refine shared_of_private (fun q hq => ?_)
    have hzero : tally (Slot.held q) k.slots = 0 := (hpriv q).2 hq
    have hb := tally_eq_but (Slot.held q) k.slots i
    omega

/-- An empty table is a page of its own, and maps nothing. -/
theorem empty_ledger {l1 : Nat} (hl : Ledger pm own held) (ha : pm.allocPage = some (l1, pm1)) :
    Ledger pm1 (fun q => own q + (Space.empty l1).tables q)
        (fun q => held q + (Space.empty l1).frames q) ∧ Private held (Space.empty l1) := by
  refine ⟨(hl.allocPage ha).congr (fun q => ?_) (fun q => ?_), fun q => ?_⟩
  · rw [Space.empty_tables]
  · rw [Space.empty_frames]
    omega
  · rw [Space.empty_frames]
    exact ⟨Nat.zero_le _, fun hf => absurd hf (Nat.lt_irrefl 0)⟩

theorem stage_spec {n b : Nat} (h : Ledger pm own held) (he : stage pm n = some (b, pm1)) :
    Ledger pm1 (fun q => own q + if b ≤ q ∧ q < b + n then 1 else 0) held := by
  unfold stage at he
  split at he
  · next hn =>
    simp only [Option.some.injEq, Prod.mk.injEq] at he
    obtain ⟨rfl, rfl⟩ := he
    refine h.congr (fun q => ?_) (fun _ => rfl)
    rw [if_neg (by omega), Nat.add_zero]
  · exact h.allocPages he

theorem Inv.startProgram (h : Inv k) (i : Fin maxThreads) (disk : Nat) (readOk : Bool)
    (pages : List (Va × Bool)) (elfOk : Bool) : Inv (k.startProgram i disk readOk pages elfOk) := by
  unfold Kernel.startProgram
  split
  · exact h
  · cases ha : k.pm.allocPage with
    | none => exact h
    | some r =>
      obtain ⟨l1, pm1⟩ := r
      obtain ⟨hempty, hpriv⟩ := empty_ledger h.ledger ha
      dsimp only
      cases hs : stage pm1 disk with
      | none => exact h.setPrivate hempty hpriv
      | some r1 =>
        obtain ⟨b, pm2⟩ := r1
        -- the staging pages, counted between the slots and the new space
        have hstage : Ledger pm2 (fun q => (tally (Slot.owned q) k.slots +
            if b ≤ q ∧ q < b + disk then 1 else 0) + (Space.empty l1).tables q)
            (fun q => tally (Slot.held q) k.slots + (Space.empty l1).frames q) :=
          (stage_spec hempty hs).congr (fun _ => by omega) (fun _ => rfl)
        dsimp only
        split
        · exact h.setPrivate (hstage.mono (fun _ => by omega) (fun _ => Nat.le_refl _)) hpriv
        · cases he : loadPages pm2 (Space.empty l1) pages with
          | mk pm3 r2 =>
            obtain ⟨sp, ok⟩ := r2
            obtain ⟨hl, hpriv'⟩ := loadPages_spec _ he hstage hpriv
            dsimp only
            split
            · exact h.setPrivate (hl.mono (fun _ => by omega) (fun _ => Nat.le_refl _)) hpriv'
            · have hback : Ledger (pm3.freePages b disk)
                  (fun q => tally (Slot.owned q) k.slots + sp.tables q)
                  (fun q => tally (Slot.held q) k.slots + sp.frames q) :=
                Ledger.freePages disk hl (fun q => by omega)
              cases hstk : loadPages (pm3.freePages b disk) sp [(stackVa, false)] with
              | mk pm4 r3 =>
                obtain ⟨sp', ok'⟩ := r3
                obtain ⟨hl', hpriv''⟩ := loadPages_spec _ hstk hback hpriv'
                exact h.setPrivate hl' hpriv''

/-- A failing exec: the staging pages go back, whatever else was built is lost. -/
theorem Inv.giveUp (h : Inv k) (own held : Nat → Nat) {b n : Nat}
    (hl : Ledger pm (fun q => (tally (Slot.owned q) k.slots + if b ≤ q ∧ q < b + n then 1 else 0)
      + own q) (fun q => tally (Slot.held q) k.slots + held q)) :
    Inv { k with pm := pm.freePages b n } := by
  have hback : Ledger (pm.freePages b n) (fun q => tally (Slot.owned q) k.slots + own q)
      (fun q => tally (Slot.held q) k.slots + held q) :=
    Ledger.freePages n hl (fun q => by omega)
  exact h.setPm (hback.mono (fun _ => Nat.le_add_right _ _) (fun _ => Nat.le_add_right _ _))

theorem Inv.execve (h : Inv k) (i : Fin maxThreads) (disk : Nat) (readOk : Bool)
    (pages : List (Va × Bool)) (elfOk : Bool) : Inv (k.execve i disk readOk pages elfOk) := by
  unfold Kernel.execve
  split
  · exact h
  · cases hs : stage k.pm disk with
    | none => exact h
    | some r =>
      obtain ⟨b, pm1⟩ := r
      have hstage := stage_spec h.ledger hs
      have hdrop : Inv { k with pm := pm1.freePages b disk } :=
        h.giveUp (fun _ => 0) (fun _ => 0)
          (hstage.congr (fun _ => Nat.add_zero _) (fun _ => Nat.add_zero _))
      dsimp only
      split
      · exact hdrop
      · cases ha : pm1.allocPage with
        | none => exact hdrop
        | some r1 =>
          obtain ⟨l1, pm2⟩ := r1
          obtain ⟨hempty, hpriv⟩ := empty_ledger hstage ha
          dsimp only
          cases he : loadPages pm2 (Space.empty l1) pages with
          | mk pm3 r2 =>
            obtain ⟨sp, ok⟩ := r2
            obtain ⟨hl, hpriv'⟩ := loadPages_spec _ he hempty hpriv
            dsimp only
            split
            · exact h.giveUp _ _ hl
            · cases hstk : loadPages pm3 sp [(stackVa, false)] with
              | mk pm4 r3 =>
                obtain ⟨sp', ok'⟩ := r3
                obtain ⟨hl', hpriv''⟩ := loadPages_spec _ hstk hl hpriv'
                cases ok' with
                | false => exact h.giveUp _ _ hl'
                | true => exact h.setPrivate (Ledger.freePages disk hl' (fun q => by omega)) hpriv''

/-- `cow_share` over a whole space: the parent keeps every page it had, with less permission. -/
theorem Inv.shareSpace (h : Inv k) {src : Space} (hs : (k.slots i).space = some sp)
    (hsh : Space.Shared sp src) (hl : Ledger pm (fun q => tally (Slot.owned q) k.slots)
      (fun q => tally (Slot.held q) k.slots)) :
    Inv ({ k with pm }.setSlot i { k.slots i with space := some src }) := by
  refine h.setSlot (hl.congr (fun q => ?_) (fun q => ?_)) (fun q => ?_) ?_
  · rw [tally_eq_but (Slot.owned q) k.slots i]
    simp only [Slot.owned, hs, hsh.tables q]
  · rw [tally_eq_but (Slot.held q) k.slots i]
    simp only [Slot.held, hs, hsh.frames q]
  · have honce := h.once i q
    simp only [Slot.held, hs] at honce
    simp only [Slot.held, hsh.frames q]
    exact honce
  · intro j hj va va' d d' hd hd' hp
    obtain ⟨d0, hd0, hp0, hr0⟩ := hsh.walk va d hd
    have hw : (k.slots i).walk va = some d0 := by simp only [Slot.walk, hs, hd0]
    obtain ⟨hr, hr'⟩ := h.shared i j (Ne.symm hj) va va' d0 d' hw hd' (hp0.symm.trans hp)
    exact ⟨hr0 hr, hr'⟩

theorem Inv.fork (h : Inv k) (i : Fin maxThreads) : Inv (k.fork i) := by
  unfold Kernel.fork
  split
  · exact h
  · cases hs : (k.slots i).space with
    | none => exact h
    | some sp =>
      have hheld : ∀ q, (k.slots i).held q = sp.frames q := fun q => by simp only [Slot.held, hs]
      have hinj : ∀ q, sp.frames q ≤ 1 := fun q => by rw [← hheld q]; exact h.once i q
      have hle : ∀ q, sp.frames q ≤ tally (Slot.held q) k.slots := fun q => by
        rw [← hheld q]; exact le_tally (Slot.held q) k.slots i
      have hfew : ∀ q, tally (Slot.held q) k.slots < 255 := fun q =>
        Nat.lt_of_le_of_lt (h.few q) (by decide)
      cases hc : sp.vmCopySpace k.pm with
      | mk pm r =>
        obtain ⟨src, dst⟩ := r
        obtain ⟨hsh, hrest⟩ := Space.vmCopySpace_spec hfew hc hinj hle h.ledger
        simp only [hc]
        cases dst with
        | none => exact h.shareSpace hs hsh hrest
        | some dst =>
          obtain ⟨hl, hcopy⟩ := hrest
          have hparent := h.shareSpace hs hsh
            (hl.mono (fun _ => Nat.le_add_right _ _) (fun _ => Nat.le_add_right _ _))
          -- the parent's part of the book has not moved, so the child's comes on top of it
          refine hparent.threadCreate rfl (hl.congr (fun q => ?_) (fun q => ?_)) (fun q => ?_) ?_
          · have hmoved := tally_update (Slot.owned q) k.slots i { k.slots i with space := some src }
            simp only [Slot.owned, hs, hsh.tables q] at hmoved
            simp only [Slot.owned, Kernel.setSlot]
            omega
          · have hmoved := tally_update (Slot.held q) k.slots i { k.slots i with space := some src }
            simp only [Slot.held, hs, hsh.frames q] at hmoved
            simp only [Slot.held, Kernel.setSlot]
            omega
          · exact Nat.le_trans (hcopy.frames_le q) (by rw [hsh.frames q]; exact hinj q)
          · intro j va va' d d' hd hd' hp
            obtain ⟨hsrc, hro⟩ := hcopy va d hd
            by_cases hj : j = i
            · -- parent and child: the page is at one place in the parent
              subst hj
              simp only [Kernel.setSlot, update_self, Slot.walk] at hd'
              have hva := Space.va_unique (fun q => by rw [hsh.frames q]; exact hinj q) hsrc hd' hp
              subst hva
              rw [hsrc, Option.some.injEq] at hd'
              subst hd'
              exact ⟨hro, hro⟩
            · have hi : ({ k with pm }.setSlot i { k.slots i with space := some src }).slots i =
                  { k.slots i with space := some src } := update_self _ _ _
              have hw : (({ k with pm }.setSlot i
                  { k.slots i with space := some src }).slots i).walk va = some d := by
                rw [hi]
                exact hsrc
              exact hparent.shared i j (Ne.symm hj) va va' d d' hw hd' hp

/-- The copying branch of `vm_cow_fault`: one mapping of the old page fewer, one of a page
nobody had more. -/
theorem cowCopy_ledger {fresh : Nat}
    (h : Ledger pm own (fun q => held q + sp.frames q)) (hw : sp.walk va = some d)
    (ha : pm.allocPage = some (fresh, pm1)) (mem : Nat → Nat → Nat) :
    Ledger (({ pm1 with mem } : Pmm).pageUnref d.page).1 own
        (fun q => held q + (sp.setLeaf va { d with page := fresh, ro := false }).frames q) ∧
      held fresh + sp.frames fresh = 0 := by
  have hl := (h.allocPage ha).setMem mem
  have hfresh := hl.held_eq_zero_of_own (p := fresh) (by simp only [if_true]; omega)
  have hpos : 0 < sp.frames d.page := Space.frames_pos_iff.mpr ⟨va, d, hw, rfl⟩
  have hf : ∀ q, (sp.setLeaf va { d with page := fresh, ro := false }).frames q +
      (if d.page = q then 1 else 0) = sp.frames q + if fresh = q then 1 else 0 := by
    intro q
    have hu := Space.frames_update (Space.setLeaf_walk { d with page := fresh, ro := false }
      (Space.table3_ne_none_of_walk hw)) q
    simp only [hw, Space.descHits_some] at hu
    exact hu
  have hdrop : Ledger (({ pm1 with mem } : Pmm).pageUnref d.page).1
      (fun q => own q + if fresh = q then 1 else 0)
      (fun q => held q + sp.frames q - if d.page = q then 1 else 0) := by
    refine (hl.pageUnref (fun q => ?_)).1
    split
    · next hq => subst hq; omega
    · omega
  refine ⟨(hdrop.map (fun _ => rfl)).congr (fun _ => rfl) (fun q => ?_), hfresh⟩
  have hq := hf q
  by_cases hd : d.page = q
  · subst hd
    simp only [if_true] at hq ⊢
    omega
  · simp only [if_neg hd] at hq ⊢
    omega

/-- One entry of slot `i` is given another page or another permission, and nobody else maps
the page it ends up with. -/
theorem Inv.remap (h : Inv k) {d' : Desc}
    (hs : (k.slots i).space = some sp) (hw : sp.walk va = some d)
    (hl : Ledger pm (fun q => tally (Slot.owned q) k.slots)
      (fun q => tallyBut (Slot.held q) k.slots i + (sp.setLeaf va d').frames q))
    (honce : (sp.setLeaf va d').frames d'.page ≤ 1)
    (hle : ∀ q, d'.page ≠ q → (sp.setLeaf va d').frames q ≤ sp.frames q)
    (hpriv : tallyBut (Slot.held d'.page) k.slots i = 0) :
    Inv ({ k with pm }.setSlot i { k.slots i with space := some (sp.setLeaf va d') }) := by
  refine h.setSlot (hl.congr (fun q => ?_) (fun _ => rfl)) (fun q => ?_) ?_
  · rw [tally_eq_but (Slot.owned q) k.slots i]
    simp only [Slot.owned, hs, Space.setLeaf_tables]
  · by_cases hq : d'.page = q
    · subst hq; exact honce
    · have hsp := h.once i q
      simp only [Slot.held, hs] at hsp
      exact Nat.le_trans (hle q hq) hsp
  · intro j hj va1 va2 d1 d2 hd1 hd2 hp
    simp only [Slot.walk] at hd1
    rw [Space.setLeaf_walk d' (Space.table3_ne_none_of_walk hw)] at hd1
    by_cases hva : va1 = va
    · subst hva
      rw [update_self, Option.some.injEq] at hd1
      subst hd1
      have hpos : 0 < (k.slots j).held d'.page := held_pos_iff.mpr ⟨va2, d2, hd2, hp.symm⟩
      have hother := le_tallyBut (Slot.held d'.page) k.slots hj
      omega
    · rw [update_of_ne hva] at hd1
      have hwi : (k.slots i).walk va1 = some d1 := by simp only [Slot.walk, hs, hd1]
      exact h.shared i j (Ne.symm hj) va1 va2 d1 d2 hwi hd2 hp

theorem Inv.fault (h : Inv k) (i : Fin maxThreads) (va : Va) : Inv (k.fault i va) := by
  unfold Kernel.fault
  split
  · exact h
  · cases hs : (k.slots i).space with
    | none => exact h
    | some sp =>
      have hheld : ∀ q, (k.slots i).held q = sp.frames q := fun q => by simp only [Slot.held, hs]
      have hbook : Ledger k.pm (fun q => tally (Slot.owned q) k.slots)
          (fun q => tallyBut (Slot.held q) k.slots i + sp.frames q) :=
        h.ledger.congr (fun _ => rfl) (fun q => by rw [tally_eq_but _ _ i, hheld q])
      dsimp only
      cases hc : sp.vmCowFault k.pm va with
      | none => exact h
      | some r =>
        obtain ⟨pm, sp'⟩ := r
        unfold Space.vmCowFault at hc
        cases hw : sp.walk va with
        | none => simp only [hw] at hc; cases hc
        | some d =>
          have hpos : 0 < sp.frames d.page := Space.frames_pos_iff.mpr ⟨va, d, hw, rfl⟩
          simp only [hw] at hc
          split at hc
          · cases hc
          · split at hc
            · cases ha : k.pm.allocPage with
              | none => simp only [ha] at hc; cases hc
              | some r1 =>
                obtain ⟨fresh, pm1⟩ := r1
                simp only [ha, Option.some.injEq, Prod.mk.injEq] at hc
                obtain ⟨rfl, rfl⟩ := hc
                obtain ⟨hl, hfresh⟩ := cowCopy_ledger hbook hw ha
                  (update pm1.mem fresh (pm1.mem d.page))
                have hu := Space.frames_update (Space.setLeaf_walk
                  { d with page := fresh, ro := false } (Space.table3_ne_none_of_walk hw))
                simp only [hw, Space.descHits_some] at hu
                refine h.remap hs hw hl ?_ (fun q hq => ?_) (by dsimp only; omega)
                · have := hu fresh
                  dsimp only
                  rw [if_pos rfl] at this
                  omega
                · have := hu q
                  rw [if_neg hq] at this
                  omega
            · next hlast =>
              -- the last holder: the count is ahead of the mappings, so there is one mapping
              simp only [Option.some.injEq, Prod.mk.injEq] at hc
              obtain ⟨rfl, rfl⟩ := hc
              have hidx := hbook.refsIndex_of_held (p := d.page) (by omega)
              have hcount := hbook.counted d.page
              simp only [Pmm.pageCount, hidx] at hlast
              have hsame : ∀ q, (sp.setLeaf va { d with ro := false }).frames q = sp.frames q := by
                intro q
                have hu := Space.frames_update (Space.setLeaf_walk { d with ro := false }
                  (Space.table3_ne_none_of_walk hw)) q
                simp only [hw, Space.descHits_some] at hu
                omega
              refine h.remap hs hw (hbook.congr (fun _ => rfl) (fun q => by rw [hsame q])) ?_
                (fun q _ => Nat.le_of_eq (hsame q)) (by dsimp only; omega)
              rw [hsame]
              dsimp only
              omega

theorem Inv.store (h : Inv k) (i : Fin maxThreads) (va : Va) (off v : Nat) :
    Inv (k.store i va off v) := by
  unfold Kernel.store
  cases (k.slots i).walk va with
  | none => exact h
  | some d =>
    dsimp only
    split
    · exact h.setPm (h.ledger.setMem _)
    · exact h

theorem Inv.exit (h : Inv k) (i : Fin maxThreads) : Inv (k.exit i) := by
  unfold Kernel.exit
  split
  · exact h
  · have hbook := h.ledgerBut i
    cases hs : (k.slots i).space with
    | none =>
      refine h.setSlot (hbook.congr (fun q => ?_) (fun q => ?_)) (fun _ => Nat.zero_le _)
        (fun _ _ _ _ _ _ hw => by cases hw)
      · simp only [Slot.owned, hs]
      · simp only [Slot.held, hs]
    | some sp =>
      refine h.setSlot (Space.vmFreeSpace_spec (hbook.congr (fun q => ?_) (fun q => ?_)))
        (fun _ => Nat.zero_le _) (fun _ _ _ _ _ _ hw => by cases hw)
      · simp only [Slot.owned, hs]
        omega
      · simp only [Slot.held, hs]
        omega

theorem Inv.reap (h : Inv k) (i : Fin maxThreads) : Inv (k.reap i) := by
  unfold Kernel.reap
  split
  · have hbook := h.ledgerBut i
    have hfree : ∀ q, tallyBut (Slot.owned q) k.slots i + Slot.free.owned q ≤
        tallyBut (Slot.owned q) k.slots i := fun q => Nat.le_of_eq (Nat.add_zero _)
    have hnone : ∀ q, tallyBut (Slot.held q) k.slots i + Slot.free.held q ≤
        tallyBut (Slot.held q) k.slots i := fun q => Nat.le_of_eq (Nat.add_zero _)
    cases hs : (k.slots i).stack with
    | none =>
      refine h.setSlot (hbook.mono (fun q => ?_) (fun q => ?_)) (fun _ => Nat.zero_le _)
        (fun _ _ _ _ _ _ hw => by cases hw)
      · exact Nat.le_trans (hfree q) (Nat.le_add_right _ _)
      · exact Nat.le_trans (hnone q) (Nat.le_add_right _ _)
    | some b =>
      have hback : Ledger (k.pm.freePages b stackPages)
          (fun q => tallyBut (Slot.owned q) k.slots i + match (k.slots i).space with
            | none => 0
            | some sp => sp.tables q)
          (fun q => tallyBut (Slot.held q) k.slots i + (k.slots i).held q) := by
        refine Ledger.freePages stackPages hbook (fun q => ?_)
        simp only [Slot.owned, hs]
        omega
      refine h.setSlot (hback.mono (fun q => ?_) (fun q => ?_)) (fun _ => Nat.zero_le _)
        (fun _ _ _ _ _ _ hw => by cases hw)
      · exact Nat.le_trans (hfree q) (Nat.le_add_right _ _)
      · exact Nat.le_trans (hnone q) (Nat.le_add_right _ _)
  · exact h

/-! ## Whole runs -/

theorem inv_boot (start top : Nat) (mem : Nat → Nat → Nat) : Inv (boot start top mem) where
  ledger := by
    have howned : ∀ q, tally (Slot.owned q) (boot start top mem).slots = 0 := fun q =>
      Finset.sum_eq_zero (fun _ _ => rfl)
    have hheld : ∀ q, tally (Slot.held q) (boot start top mem).slots = 0 := fun q =>
      Finset.sum_eq_zero (fun _ _ => rfl)
    refine ⟨fun p => ?_, fun p => ?_, fun p hp => ?_, Nat.le_refl _, Nat.le_max_left _ _⟩
    · rw [howned, hheld]; exact Nat.zero_le _
    · rw [hheld]; exact Nat.zero_le _
    · rw [howned, hheld] at hp; exact absurd hp (Nat.lt_irrefl 0)
  once _ _ := Nat.zero_le _
  shared _ _ _ _ _ _ _ hw := by cases hw

theorem inv_step (h : Inv k) (op : Op) : Inv (k.step op) := by
  cases op with
  | kalloc n => exact h.kalloc n
  | adopt => exact h.adopt
  | create => exact h.create
  | start i disk readOk pages elfOk => exact h.startProgram i disk readOk pages elfOk
  | exec i disk readOk pages elfOk => exact h.execve i disk readOk pages elfOk
  | fork i => exact h.fork i
  | fault i va => exact h.fault i va
  | store i va off v => exact h.store i va off v
  | exit i => exact h.exit i
  | reap i => exact h.reap i

theorem inv_run (h : Inv k) (ops : List Op) : Inv (k.run ops) := by
  induction ops generalizing k with
  | nil => exact h
  | cons op ops ih => exact ih (inv_step h op)

theorem Inv.walk_ne_of_free (h : Inv k) {p : Nat} (hp : p ∈ k.pm.freeList)
    (hw : (k.slots i).walk va = some d) : d.page ≠ p := by
  intro hdp
  have hpos : 0 < (k.slots i).held p := held_pos_iff.mpr ⟨va, d, hw, hdp⟩
  have hle := le_tally (Slot.held p) k.slots i
  have hzero := h.ledger.held_eq_zero_of_free hp
  omega

/-- A store changes a page the storing process may write, and such a page is in no other
space. -/
theorem Inv.load_store (h : Inv k) {i j : Fin maxThreads} (hij : j ≠ i) (va va' : Va)
    (off off' v : Nat) : (k.store i va off v).load j va' off' = k.load j va' off' := by
  unfold Kernel.store
  cases hw : (k.slots i).walk va with
  | none => rfl
  | some d =>
    dsimp only
    split
    · next hperm =>
      simp only [Kernel.load]
      cases hw' : (k.slots j).walk va' with
      | none => rfl
      | some d' =>
        have hpage : d'.page ≠ d.page := by
          intro hp
          have hro := (h.shared i j (Ne.symm hij) va va' d d' hw hw' hp.symm).1
          rw [hperm.2] at hro
          cases hro
        simp only [Option.map_some, update_of_ne hpage]
    · rfl

/-- Copy-on-write is safe: in every state a run of the machine reaches, no free page is
mapped, a page of two processes is read-only in both, and no store of one process is seen by
another. -/
theorem cow_safe (start top : Nat) (mem : Nat → Nat → Nat) (ops : List Op) :
    let k := (boot start top mem).run ops
    (∀ p ∈ k.pm.freeList, ∀ i va d, (k.slots i).walk va = some d → d.page ≠ p) ∧
    (∀ i j, i ≠ j → ∀ va va' d d', (k.slots i).walk va = some d →
      (k.slots j).walk va' = some d' → d.page = d'.page → d.ro = true ∧ d'.ro = true) ∧
    (∀ i j, j ≠ i → ∀ va va' off off' v,
      (k.store i va off v).load j va' off' = k.load j va' off') := by
  have h := inv_run (inv_boot start top mem) ops
  exact ⟨fun p hp i va d hw => h.walk_ne_of_free hp hw, h.shared,
    fun i j hij va va' off off' v => h.load_store hij va va' off off' v⟩

/-- In every run a page has one use. It is free, once, or a table or a stack, once, or mapped, by no
more than `page_count` says; and `alloc_page` hands out what nobody has. -/
theorem pages_have_one_use (start top : Nat) (mem : Nat → Nat → Nat) (ops : List Op) (p : Nat) :
    let k := (boot start top mem).run ops
    k.pm.freeList.count p + tally (Slot.owned p) k.slots + min 1 (tally (Slot.held p) k.slots) ≤ 1 ∧
    tally (Slot.held p) k.slots ≤ k.pm.pageCount p ∧
    ∀ pm, k.pm.allocPage = some (p, pm) →
      tally (Slot.owned p) k.slots = 0 ∧ tally (Slot.held p) k.slots = 0 := by
  have h := (inv_run (inv_boot start top mem) ops).ledger
  refine ⟨h.single p, ?_, fun pm ha => ?_⟩
  · by_cases hp : 0 < tally (Slot.held p) ((boot start top mem).run ops).slots
    · have hc := h.counted p
      rwa [Pmm.pageCount, h.refsIndex_of_held hp]
    · exact Nat.le_trans (Nat.le_of_not_lt hp) (Nat.zero_le _)
  · have hs := (h.allocPage ha).single p
    rw [if_pos rfl] at hs
    omega

end Kernel

end Verkos.Stam
