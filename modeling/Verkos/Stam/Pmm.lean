import Mathlib.Data.List.Count
import Mathlib.Data.List.Nodup
import Mathlib.Tactic.Common

/-!
# The page allocator and its share counts

`mmu.c` keeps three things about physical pages: a bump pointer, a list of pages that were
given back, and one byte per page that holds the number of holders minus one. `Pmm` is that
state, with a physical page named by its frame number; the operations below are the C functions under their own names.

The second half of the module is the ledger. `Ledger pm own held` says that the allocator's
state agrees with a book that nobody in the kernel keeps: `own p` counts the exclusive
owners of a page (page tables, kernel stacks, a page between `alloc_page` and its mapping)
and `held p` counts the address spaces that map it. Each operation of the allocator has one
lemma that says which entry of the book it moves. Everything the copy-on-write argument
needs from `mmu.c` is in those lemmas.
-/

namespace Verkos.Stam

/-- The allocator: `pmm_start`, `free_top`, `free_next`, the free list, the `refs` bytes, and
the words the pages hold. -/
structure Pmm where
  start : Nat
  top : Nat
  freeNext : Nat
  freeList : List Nat
  refs : Nat → Nat
  mem : Nat → Nat → Nat

namespace Pmm

/-- `refs_index`: a page has a counter when it lies between where the allocator began and the
top of memory. -/
def refsIndex (pm : Pmm) (p : Nat) : Option Nat :=
  if pm.start ≤ p ∧ p < pm.top then some p else none

/-- `page_ref`: one more holder, stuck at 255. -/
def pageRef (pm : Pmm) (p : Nat) : Pmm :=
  match pm.refsIndex p with
  | none => pm
  | some i =>
    if pm.refs i < 255 then { pm with refs := Function.update pm.refs i (pm.refs i + 1) } else pm

/-- `page_unref`: the holders left after letting go, zero meaning the page is nobody's. -/
def pageUnref (pm : Pmm) (p : Nat) : Pmm × Nat :=
  match pm.refsIndex p with
  | none => (pm, 0)
  | some i =>
    if 0 < pm.refs i then
      ({ pm with refs := Function.update pm.refs i (pm.refs i - 1) }, pm.refs i)
    else (pm, 0)

/-- `page_count`: how many hold the page, at least one. -/
def pageCount (pm : Pmm) (p : Nat) : Nat :=
  match pm.refsIndex p with
  | none => 1
  | some i => pm.refs i + 1

/-- `free_page`: the page goes to the head of the list. -/
def freePage (pm : Pmm) (p : Nat) : Pmm := { pm with freeList := p :: pm.freeList }

/-- The zeroing loop at the end of `alloc_page`. -/
def zeroPage (pm : Pmm) (p : Nat) : Pmm :=
  { pm with mem := Function.update pm.mem p (fun _ => 0) }

/-- `alloc_page`: the head of the list, or the next page of the bump region. -/
def allocPage (pm : Pmm) : Option (Nat × Pmm) :=
  match pm.freeList with
  | p :: rest => some (p, { pm with freeList := rest }.zeroPage p)
  | [] =>
    if pm.freeNext + 1 > pm.top then none
    else some (pm.freeNext, { pm with freeNext := pm.freeNext + 1 }.zeroPage pm.freeNext)

/-- `alloc_pages`: `n` adjacent pages, always from the bump region. -/
def allocPages (pm : Pmm) (n : Nat) : Option (Nat × Pmm) :=
  if n = 0 then none
  else if pm.freeNext + n > pm.top then none
  else some (pm.freeNext,
    { pm with
      freeNext := pm.freeNext + n
      mem := fun p => if pm.freeNext ≤ p ∧ p < pm.freeNext + n then fun _ => 0 else pm.mem p })

/-- The loop that gives back `n` adjacent pages, one `free_page` each. -/
def freePages (pm : Pmm) (p : Nat) : Nat → Pmm
  | 0 => pm
  | n + 1 => freePages (pm.freePage p) (p + 1) n

/-- What `vm_free_space` does with one mapped page: let go, and free it if nobody is left. -/
def dropPage (pm : Pmm) (p : Nat) : Pmm :=
  let (pm', left) := pm.pageUnref p
  if left = 0 then pm'.freePage p else pm'

end Pmm

/-! ## How much is left -/

namespace Pmm

/-- The pages `alloc_page` can still hand out. -/
def avail (pm : Pmm) : Nat := pm.freeList.length + (pm.top - pm.freeNext)

theorem avail_allocPage (pm : Pmm) : match pm.allocPage with
    | none => pm.avail = 0
    | some (_, pm') => pm'.avail + 1 = pm.avail := by
  unfold allocPage avail
  cases hl : pm.freeList with
  | cons p rest => simp only [zeroPage, List.length_cons]; omega
  | nil =>
    dsimp only
    by_cases hfull : pm.freeNext + 1 > pm.top
    · rw [if_pos hfull]
      simp only [List.length_nil]
      omega
    · rw [if_neg hfull]
      simp only [zeroPage, List.length_nil]
      omega

@[simp] theorem avail_pageRef (pm : Pmm) (p : Nat) : (pm.pageRef p).avail = pm.avail := by
  unfold pageRef
  cases pm.refsIndex p with
  | none => rfl
  | some i => dsimp only; split <;> rfl

end Pmm

/-! ## The ledger -/

/-- The allocator agrees with the book: `own` exclusive owners, `held` mappings. -/
structure Ledger (pm : Pmm) (own held : Nat → Nat) : Prop where
  /-- A page is free, or owned once, or mapped: never two of these, and never free twice. -/
  single : ∀ p, pm.freeList.count p + own p + min 1 (held p) ≤ 1
  /-- The count of holders never falls behind the mappings. -/
  counted : ∀ p, held p ≤ pm.refs p + 1
  /-- Every page in circulation came from the allocator. -/
  inRange : ∀ p, 0 < pm.freeList.count p + own p + held p → pm.start ≤ p ∧ p < pm.freeNext
  started : pm.start ≤ pm.freeNext
  bumped : pm.freeNext ≤ max pm.start pm.top

variable {own' held' : Nat → Nat} {p : Nat}

namespace Ledger

variable {pm : Pmm} {own held : Nat → Nat}

section

variable (h : Ledger pm own held)
include h

/-- Forgetting owners or mappings without telling the allocator is a leak, and a leak is
safe. -/
theorem mono (ho : ∀ p, own' p ≤ own p) (hh : ∀ p, held' p ≤ held p) : Ledger pm own' held' where
  single p := by have := h.single p; have := ho p; have := hh p; omega
  counted p := by have := h.counted p; have := hh p; omega
  inRange p hp := h.inRange p (by have := ho p; have := hh p; omega)
  started := h.started
  bumped := h.bumped

theorem congr (ho : ∀ p, own' p = own p) (hh : ∀ p, held' p = held p) : Ledger pm own' held' :=
  h.mono (fun p => Nat.le_of_eq (ho p)) (fun p => Nat.le_of_eq (hh p))

theorem setMem (mem : Nat → Nat → Nat) : Ledger { pm with mem } own held :=
  ⟨h.single, h.counted, h.inRange, h.started, h.bumped⟩

theorem held_eq_zero_of_free (hp : p ∈ pm.freeList) : held p = 0 := by
  have hc := List.count_pos_iff.mpr hp
  have := h.single p
  omega

theorem held_eq_zero_of_own (hp : 0 < own p) : held p = 0 := by
  have := h.single p
  omega

theorem refsIndex_of_held (hp : 0 < held p) : pm.refsIndex p = some p := by
  have hr := h.inRange p (by omega)
  have hb := h.bumped
  simp only [Pmm.refsIndex]
  rw [if_pos ⟨hr.1, by omega⟩]

theorem allocPage {pm' : Pmm} (ha : pm.allocPage = some (p, pm')) :
    Ledger pm' (fun q => own q + if p = q then 1 else 0) held := by
  unfold Pmm.allocPage at ha
  cases hl : pm.freeList with
  | cons q rest =>
    simp only [hl, Option.some.injEq, Prod.mk.injEq] at ha
    obtain ⟨rfl, rfl⟩ := ha
    have hcount : ∀ r, pm.freeList.count r = rest.count r + if q = r then 1 else 0 := by
      intro r
      simp only [hl, List.count_cons, beq_iff_eq]
    refine ⟨fun r => ?_, h.counted, fun r hr => ?_, h.started, h.bumped⟩
    · have hs := h.single r
      rw [hcount r] at hs
      simp only [Pmm.zeroPage]
      omega
    · apply h.inRange r
      rw [hcount r]
      simp only [Pmm.zeroPage] at hr
      omega
  | nil =>
    simp only [hl] at ha
    split at ha
    · cases ha
    · next hfull =>
      simp only [Option.some.injEq, Prod.mk.injEq] at ha
      obtain ⟨rfl, rfl⟩ := ha
      have hstart := h.started
      have hnil : ∀ r, pm.freeList.count r = 0 := fun r => by rw [hl, List.count_nil]
      -- nothing has ever been handed out at or above the bump pointer
      have hfresh : own pm.freeNext + held pm.freeNext = 0 := by
        by_contra hne
        have := h.inRange pm.freeNext (by omega)
        omega
      refine ⟨fun r => ?_, h.counted, fun r hr => ?_, ?_, ?_⟩
      · have hs := h.single r
        simp only [Pmm.zeroPage, List.count_nil]
        split
        · next hr => subst hr; omega
        · omega
      · simp only [Pmm.zeroPage, List.count_nil] at hr ⊢
        split at hr
        · next hrn => subst hrn; omega
        · have := h.inRange r (by omega)
          omega
      · simp only [Pmm.zeroPage]
        omega
      · simp only [Pmm.zeroPage]
        omega

theorem allocPages {n : Nat} {pm' : Pmm} (ha : pm.allocPages n = some (p, pm')) :
    Ledger pm' (fun q => own q + if p ≤ q ∧ q < p + n then 1 else 0) held := by
  unfold Pmm.allocPages at ha
  split at ha
  · cases ha
  · split at ha
    · cases ha
    · next hn hfull =>
      simp only [Option.some.injEq, Prod.mk.injEq] at ha
      obtain ⟨rfl, rfl⟩ := ha
      have hstart := h.started
      have hfresh : ∀ q, pm.freeNext ≤ q → pm.freeList.count q + own q + held q = 0 := by
        intro q hq
        by_contra hne
        have := h.inRange q (by omega)
        omega
      refine ⟨fun r => ?_, h.counted, fun r hr => ?_, ?_, ?_⟩
      · have hs := h.single r
        dsimp only
        split
        · next hr => have := hfresh r hr.1; omega
        · omega
      · dsimp only at hr ⊢
        split at hr
        · omega
        · have := h.inRange r (by omega)
          omega
      · dsimp only; omega
      · dsimp only; omega

theorem freePage (hown : ∀ q, own q = own' q + if p = q then 1 else 0) :
    Ledger (pm.freePage p) own' held := by
  have hcount : ∀ q, (pm.freePage p).freeList.count q =
      pm.freeList.count q + if p = q then 1 else 0 := by
    intro q
    simp only [Pmm.freePage, List.count_cons, beq_iff_eq]
  refine ⟨fun q => ?_, h.counted, fun q hq => ?_, h.started, h.bumped⟩
  · have hs := h.single q
    have ho := hown q
    rw [hcount q]
    omega
  · have ho := hown q
    rw [hcount q] at hq
    exact h.inRange q (by omega)

end

theorem freePages (n : Nat) : ∀ {pm : Pmm} {own : Nat → Nat} {p : Nat},
    Ledger pm own held → (∀ q, own q = own' q + if p ≤ q ∧ q < p + n then 1 else 0) →
    Ledger (pm.freePages p n) own' held := by
  induction n with
  | zero =>
    intro pm own p h hown
    exact h.congr (fun q => by have := hown q; simp only [Nat.add_zero] at this; split at this <;> omega)
      (fun _ => rfl)
  | succ n ih =>
    intro pm own p h hown
    have hfirst : Ledger (pm.freePage p)
        (fun q => own' q + if p + 1 ≤ q ∧ q < p + 1 + n then 1 else 0) held := by
      apply h.freePage
      intro q
      have := hown q
      split <;> split <;> split at this <;> omega
    exact ih hfirst (fun _ => rfl)

theorem map (h : Ledger pm own held) (hown : ∀ q, own q = own' q + if p = q then 1 else 0) :
    Ledger pm own' (fun q => held q + if p = q then 1 else 0) := by
  have hp := hown p
  rw [if_pos rfl] at hp
  have hzero := h.held_eq_zero_of_own (p := p) (by omega)
  refine ⟨fun q => ?_, fun q => ?_, fun q hq => ?_, h.started, h.bumped⟩
  · have hs := h.single q
    have ho := hown q
    split at ho <;> split <;> omega
  · have hc := h.counted q
    split
    · next hq => subst hq; omega
    · omega
  · have ho := hown q
    exact h.inRange q (by omega)

/-- `page_ref` before a further mapping of a page that is mapped already. The byte is stuck
at 255, and the mappings stay behind it as long as there are fewer than 256. -/
theorem pageRef (h : Ledger pm own held) (hp : 0 < held p) (hlt : held p < 256) :
    Ledger (pm.pageRef p) own (fun q => held q + if p = q then 1 else 0) := by
  have hidx := h.refsIndex_of_held hp
  have hother : ∀ pm' : Pmm, pm'.freeList = pm.freeList → pm'.start = pm.start →
      pm'.top = pm.top → pm'.freeNext = pm.freeNext →
      (∀ q, held q + (if p = q then 1 else 0) ≤ pm'.refs q + 1) →
      Ledger pm' own (fun q => held q + if p = q then 1 else 0) := by
    intro pm' hl hs ht hn hc
    refine ⟨fun q => ?_, hc, fun q hq => ?_, ?_, ?_⟩
    · have := h.single q
      rw [hl]
      split
      · next hq => subst hq; omega
      · omega
    · rw [hl] at hq
      rw [hs, hn]
      apply h.inRange q
      split at hq
      · next hqp => subst hqp; omega
      · omega
    · rw [hs, hn]; exact h.started
    · rw [hs, ht, hn]; exact h.bumped
  simp only [Pmm.pageRef, hidx]
  split
  · refine hother _ rfl rfl rfl rfl (fun q => ?_)
    have hc := h.counted q
    dsimp only
    by_cases hq : p = q
    · subst hq; simp only [if_true, Function.update_self]; omega
    · simp only [if_neg hq, Function.update_of_ne (Ne.symm hq)]; omega
  · refine hother _ rfl rfl rfl rfl (fun q => ?_)
    have hc := h.counted q
    split
    · next hq => subst hq; omega
    · omega

section

variable (h : Ledger pm own held) (hheld : ∀ q, held q = held' q + if p = q then 1 else 0)
include h hheld

theorem pageUnref : Ledger (pm.pageUnref p).1 own held' ∧
      ((pm.pageUnref p).2 = 0 → (pm.pageUnref p).1 = pm ∧ held' p = 0) := by
  have hp := hheld p
  rw [if_pos rfl] at hp
  have hidx := h.refsIndex_of_held (p := p) (by omega)
  have hle : ∀ q, held' q ≤ held q := fun q => by have := hheld q; omega
  have hcp := h.counted p
  simp only [Pmm.pageUnref, hidx]
  split
  · next hpos =>
    refine ⟨⟨fun q => ?_, fun q => ?_, fun q hq => ?_, h.started, h.bumped⟩, fun h0 => ?_⟩
    · have := h.single q; have := hle q
      dsimp only
      omega
    · have hc := h.counted q
      have hq := hheld q
      by_cases hqp : p = q
      · subst hqp; simp only [if_true, Function.update_self] at hq ⊢; omega
      · simp only [Function.update_of_ne (Ne.symm hqp), if_neg hqp] at hq ⊢; omega
    · exact h.inRange q (by have := hle q; dsimp only at hq; omega)
    · simp only at h0; omega
  · next hpos => exact ⟨h.mono (fun _ => Nat.le_refl _) hle, fun _ => ⟨rfl, by omega⟩⟩

theorem unmap (hlast : held' p = 0) :
    Ledger pm (fun q => own q + if p = q then 1 else 0) held' := by
  refine ⟨fun q => ?_, fun q => ?_, fun q hq => ?_, h.started, h.bumped⟩
  · have hs := h.single q
    have hq := hheld q
    split at hq <;> split <;> first | omega | (next hqp _ => subst hqp; omega)
  · have := h.counted q
    have := hheld q
    omega
  · have hq' := hheld q
    exact h.inRange q (by split at hq <;> split at hq' <;> omega)

theorem dropPage : Ledger (pm.dropPage p) own held' := by
  obtain ⟨hl, hz⟩ := h.pageUnref hheld
  have hp := hheld p
  rw [if_pos rfl] at hp
  simp only [Pmm.dropPage]
  split
  · next hzero =>
    obtain ⟨hpm, hheld0⟩ := hz hzero
    -- the last holder: the mapping ends and the page is free, in that order
    rw [hpm]
    exact (h.unmap hheld hheld0).freePage (fun _ => rfl)
  · exact hl

end

end Ledger

end Verkos.Stam
