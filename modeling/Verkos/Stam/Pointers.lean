import Verkos.Stam.PageTable

/-!
# Checking a pointer is seen by nobody

`vm_user_ok` resolves copy-on-write as it goes, so a check moves pages about. It may: the page it
takes is one that no process reaches, and what it puts there is what was read before. That the pages
the allocator has to give are nobody's (`Apart`) is the machine's invariant, which holds in every
state a run of the kernel reaches.
-/

namespace Verkos.Stam

open Verkos.Lib
open Function

/-! ## The allocator's own pages -/

namespace Pmm

variable {pm pm' : Pmm} {fresh f : Nat}

/-- A page `alloc_page` can still hand out. -/
def Spare (pm : Pmm) (f : Nat) : Prop := f ∈ pm.freeList ∨ pm.freeNext ≤ f ∧ f < pm.top

/-- No page can be handed out twice. -/
structure Orderly (pm : Pmm) : Prop where
  nodup : pm.freeList.Nodup
  below : ∀ f ∈ pm.freeList, f < pm.freeNext

theorem allocPage_orderly (h : pm.Orderly) (ha : pm.allocPage = some (fresh, pm')) :
    pm.Spare fresh ∧ pm'.Orderly ∧ (∀ f, pm'.Spare f → pm.Spare f ∧ f ≠ fresh) ∧
      ∀ f, f ≠ fresh → pm'.mem f = pm.mem f := by
  unfold Pmm.allocPage at ha
  cases hl : pm.freeList with
  | cons p rest =>
    simp only [hl, Option.some.injEq, Prod.mk.injEq] at ha
    obtain ⟨rfl, rfl⟩ := ha
    have hnd := h.nodup
    rw [hl] at hnd
    obtain ⟨hp, hrest⟩ := List.nodup_cons.mp hnd
    have hbelow : ∀ f, f = p ∨ f ∈ rest → f < pm.freeNext := fun f hf =>
      h.below f (by rw [hl]; exact List.mem_cons.mpr hf)
    refine ⟨.inl (by rw [hl]; exact List.mem_cons_self), ⟨hrest, fun f hf => hbelow f (.inr hf)⟩,
      fun f hf => ?_, fun f hf => update_of_ne hf _ _⟩
    rcases hf with hf | hf
    · exact ⟨.inl (by rw [hl]; exact List.mem_cons_of_mem _ hf), fun he => hp (he ▸ hf)⟩
    · have hlt := hbelow p (.inl rfl)
      simp only [zeroPage] at hf
      exact ⟨.inr hf, by omega⟩
  | nil =>
    simp only [hl] at ha
    split_ifs at ha with hfull
    simp only [Option.some.injEq, Prod.mk.injEq] at ha
    obtain ⟨rfl, rfl⟩ := ha
    refine ⟨.inr ⟨Nat.le_refl _, by omega⟩, ⟨List.nodup_nil, fun f hf => by cases hf⟩,
      fun f hf => ?_, fun f hf => update_of_ne hf _ _⟩
    rcases hf with hf | hf
    · cases hf
    · simp only [zeroPage] at hf
      exact ⟨.inr (by omega), by omega⟩

theorem pageUnref_pages (pm : Pmm) (p : Nat) :
    (pm.pageUnref p).1.freeList = pm.freeList ∧ (pm.pageUnref p).1.freeNext = pm.freeNext ∧
      (pm.pageUnref p).1.top = pm.top ∧ (pm.pageUnref p).1.mem = pm.mem := by
  unfold pageUnref
  cases pm.refsIndex p with
  | none => exact ⟨rfl, rfl, rfl, rfl⟩
  | some i =>
    dsimp only
    split_ifs
    · exact ⟨rfl, rfl, rfl, rfl⟩
    · exact ⟨rfl, rfl, rfl, rfl⟩

theorem Orderly.congr (h : pm.Orderly) (hl : pm'.freeList = pm.freeList)
    (hn : pm'.freeNext = pm.freeNext) : pm'.Orderly :=
  ⟨by rw [hl]; exact h.nodup, fun f hf => by rw [hn]; exact h.below f (hl ▸ hf)⟩

theorem Spare.congr (h : pm'.Spare f) (hl : pm'.freeList = pm.freeList)
    (hn : pm'.freeNext = pm.freeNext) (ht : pm'.top = pm.top) : pm.Spare f := by
  unfold Spare at h ⊢
  rwa [hl, hn, ht] at h

end Pmm

/-! ## A resolved fault is seen by nobody -/

namespace PageTable

variable {ι : Type} [DecidableEq ι] {tables : ι → PageTable} {pm pm' : Pmm} {t t' : PageTable}
  {i : ι} {va : Nat}

/-- No process reaches a page that can still be handed out. -/
structure Apart (pm : Pmm) (tables : ι → PageTable) : Prop where
  orderly : pm.Orderly
  unreached : ∀ i b d l, (tables i).walkToLeaf b = some (d, l) → d.el0 = true →
    ¬ pm.Spare (frame d l b)

theorem walkToLeaf_of_va {d : Desc} {b : Nat} (hw : t.walkToLeaf va = some (d, .page))
    (hb : Va.of b = Va.of va) : t.walkToLeaf b = some (d, .page) := by
  simp only [Va.of, Va.mk.injEq] at hb
  unfold walkToLeaf at hw ⊢
  rwa [hb.1, hb.2.1, hb.2.2]

section Moved

variable {d d' : Desc} (h : Apart pm tables) (hw : (tables i).walkToLeaf va = some (d, .page))
  (hel : d.el0 = true) (hel' : d'.el0 = true) (hpage : pm'.mem d'.page = pm.mem d.page)
  (hrest : ∀ f, ¬ pm.Spare f → pm'.mem f = pm.mem f)
  (hspare : ∀ f, pm'.Spare f → pm.Spare f ∧ f ≠ d'.page)
include h hw

include hel hel' hpage hrest in
/-- A page of one process is another one with the same bytes: the process does not see it, and the
pages of the others are where they were. -/
theorem Apart.observe_moved (j : ι) (b : Nat) :
    observe pm' (update tables i ((tables i).setLeaf va d') j) b = observe pm (tables j) b := by
  have hkept : ∀ k e l, (tables k).walkToLeaf b = some (e, l) → e.el0 = true →
      pm'.mem (frame e l b) = pm.mem (frame e l b) := fun k e l he hel =>
    hrest _ (h.unreached k b e l he hel)
  have hsame : ∀ k, (tables k).walkToLeaf b = (tables j).walkToLeaf b →
      observe pm' (tables k) b = observe pm (tables j) b := by
    intro k hk
    unfold observe
    rw [hk]
    cases hb : (tables j).walkToLeaf b with
    | none => rfl
    | some r =>
      obtain ⟨e, l⟩ := r
      by_cases he : e.el0 = true
      · simp only [he, if_true, hkept j e l hb he]
      · simp only [he, if_false, Bool.false_eq_true]
  by_cases hj : j = i
  · subst hj
    rw [update_self]
    by_cases hb : Va.of b = Va.of va
    · unfold observe
      rw [walkToLeaf_setLeaf hw, if_pos hb, walkToLeaf_of_va hw hb]
      simp only [hel, hel', if_true, frame_page, hpage]
    · rw [← hsame j rfl]
      unfold observe
      rw [walkToLeaf_setLeaf hw, if_neg hb]
  · rw [update_of_ne hj]
    exact hsame j rfl

include hspare in
theorem Apart.moved (horder : pm'.Orderly) :
    Apart pm' (update tables i ((tables i).setLeaf va d')) where
  orderly := horder
  unreached j b e l he heel hs := by
    obtain ⟨hs, hne⟩ := hspare _ hs
    by_cases hj : j = i
    · subst hj
      rw [update_self, walkToLeaf_setLeaf hw] at he
      by_cases hb : Va.of b = Va.of va
      · rw [if_pos hb, Option.some.injEq, Prod.mk.injEq] at he
        obtain ⟨rfl, rfl⟩ := he
        exact hne (frame_page _ _)
      · rw [if_neg hb] at he
        exact h.unreached j b e l he heel hs
    · rw [update_of_ne hj] at he
      exact h.unreached j b e l he heel hs

end Moved

/-- The process that faulted, and any other, read what they read before; and the pages still to be
handed out are nobody's. -/
theorem Apart.cowFault (h : Apart pm tables) (hc : cowFault pm (tables i) va = some (pm', t')) :
    Apart pm' (update tables i t') ∧
      ∀ j b, observe pm' (update tables i t' j) b = observe pm (tables j) b := by
  obtain ⟨d, hw, hel, -, hcase⟩ := cowFault_cases hc
  have hown : ¬ pm.Spare d.page := by
    have := h.unreached i va d .page hw hel
    rwa [frame_page] at this
  rcases hcase with ⟨rfl, rfl⟩ | ⟨fresh, pm1, ha, rfl, rfl⟩
  · exact ⟨h.moved hw (fun f hf => ⟨hf, fun he => hown (he ▸ hf)⟩) h.orderly,
      h.observe_moved hw hel hel rfl fun _ _ => rfl⟩
  · obtain ⟨hfresh, horder, hless, hmem⟩ := Pmm.allocPage_orderly h.orderly ha
    have hne : d.page ≠ fresh := fun he => hown (he ▸ hfresh)
    obtain ⟨hl, hn, ht, hm⟩ := Pmm.pageUnref_pages
      { pm1 with mem := update pm1.mem fresh (pm1.mem d.page) } d.page
    refine ⟨h.moved hw (fun f hf => hless f (hf.congr hl hn ht)) (horder.congr hl hn),
      h.observe_moved hw hel hel ?_ fun f hf => ?_⟩
    · rw [hm]
      dsimp only
      rw [update_self, hmem _ hne]
    · have hf' : f ≠ fresh := fun he => hf (he ▸ hfresh)
      rw [hm]
      dsimp only
      rw [update_of_ne hf', hmem f hf']

theorem Apart.vmUserOk (h : Apart pm tables) (i : ι) (va len : Nat) (write : Bool) :
    let r := vmUserOk pm (tables i) va len write
    Apart r.1 (update tables i r.2.1) ∧
      ∀ j b, observe r.1 (update tables i r.2.1 j) b = observe pm (tables j) b := by
  let P : Pmm → PageTable → Prop := fun pm' t' => Apart pm' (update tables i t') ∧
    ∀ j b, observe pm' (update tables i t' j) b = observe pm (tables j) b
  have hstart : P pm (tables i) := by
    refine ⟨?_, fun j b => ?_⟩
    · rwa [update_eq_self]
    · rw [update_eq_self]
  refine vmUserOk_run (P := P) (fun {pm1 t1 p pm2 t2} hc hP => ?_) hstart va len
  have hself : update tables i t1 i = t1 := update_self _ _ _
  obtain ⟨hap, hobs⟩ := hP.1.cowFault (i := i) (by rw [hself]; exact hc)
  rw [update_idem] at hap hobs
  exact ⟨hap, fun j b => (hobs j b).trans (hP.2 j b)⟩

end PageTable

/-! ## The kernel's tables -/

/-- A process's own tables have no blocks. -/
def Space.table (sp : Space) : PageTable where
  l1 i1 :=
    match sp.l2 i1 with
    | none => .invalid
    | some _ => .table fun i2 =>
      match sp.l3 i1 i2 with
      | none => .invalid
      | some _ => .table fun i3 => sp.leaf ⟨i1, i2, i3⟩

/-- The table a thread's walk starts from; a kernel thread has none, and its walk ends at once. -/
def Slot.table (s : Slot) : PageTable :=
  match s.space with
  | none => ⟨fun _ => .invalid⟩
  | some sp => sp.table

theorem Space.table_walkToLeaf (sp : Space) (b : Nat) :
    sp.table.walkToLeaf b = (sp.walk (Va.of b)).map fun d => (d, .page) := by
  unfold PageTable.walkToLeaf Space.walk Space.table3 Space.table Va.of
  dsimp only
  cases h2 : sp.l2 (tableIndex b 30) with
  | none => rfl
  | some _ =>
    cases h3 : sp.l3 (tableIndex b 30) (tableIndex b 21) with
    | none => simp only [h3]; rfl
    | some _ => simp only [h3]

theorem Slot.table_walkToLeaf (s : Slot) (b : Nat) :
    s.table.walkToLeaf b = (s.walk (Va.of b)).map fun d => (d, .page) := by
  unfold Slot.table Slot.walk
  cases s.space with
  | none => rfl
  | some sp => exact sp.table_walkToLeaf b

theorem Kernel.Inv.apart {k : Kernel} (h : k.Inv) :
    PageTable.Apart k.pm fun i => (k.slots i).table where
  orderly :=
    { nodup := List.nodup_iff_count_le_one.mpr fun f => by have := h.ledger.single f; omega
      below := fun f hf => (h.ledger.inRange f (by
        have := List.count_pos_iff.mpr hf
        omega)).2 }
  unreached i b d l hw hel hs := by
    rw [Slot.table_walkToLeaf] at hw
    obtain ⟨e, he, heq⟩ := Option.map_eq_some_iff.mp hw
    obtain ⟨rfl, rfl⟩ := Prod.mk.inj heq
    rw [PageTable.frame_page] at hs
    rcases hs with hs | hs
    · exact h.walk_ne_of_free hs he rfl
    · have hpos : 0 < (k.slots i).held e.page := Kernel.held_pos_iff.mpr ⟨_, e, he, rfl⟩
      have hle := le_tally (Slot.held e.page) k.slots i
      have := (h.ledger.inRange e.page (by omega)).2
      omega

/-! ## The check as a run of the kernel -/

/-- Pointer checks are sound. Whatever the tables hold, a range that passes lies below the limit and
every byte of it is the program's, and a string that is measured is the program's up to the zero it
ends at. The pages a check moves are seen by no process, on any tables that keep away from the spare
pages and so in every state of the kernel. -/
theorem user_pointers_sound : (∀ pm t va len write pm' t', len < 2 ^ 64 →
      PageTable.vmUserOk pm t va len write = (pm', t', true) →
      (0 < len → va + len ≤ PageTable.userLimit) ∧ ∀ b, va ≤ b → b < va + len → t'.Open write b) ∧
    (∀ (pm : Pmm) (tables : Fin maxThreads → PageTable), PageTable.Apart pm tables →
      ∀ i va len write, let r := PageTable.vmUserOk pm (tables i) va len write
        ∀ j b, PageTable.observe r.1 (update tables i r.2.1 j) b =
          PageTable.observe pm (tables j) b) ∧
    (∀ start top mem ops, let k := (Kernel.boot start top mem).run ops
      PageTable.Apart k.pm fun i => (k.slots i).table) ∧
    (∀ pm t va max, ∃ r, PageTable.vmUserStrlen pm t va max = some r ∧
      ∀ n, r = some n → n < max ∧ PageTable.Text pm t va 0 n ∧
        PageTable.Terminated pm t va n) := by
  refine ⟨fun pm t va len write pm' t' hlen h => PageTable.vmUserOk_sound hlen h,
    fun pm tables h i va len write => (h.vmUserOk i va len write).2,
    fun start top mem ops => ?_, PageTable.vmUserStrlen_spec⟩
  exact (Kernel.inv_run (Kernel.inv_boot start top mem) ops).apart

end Verkos.Stam
