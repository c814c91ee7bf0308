import Verkos.Lib.Bytes
import Verkos.Stam.Pointers

/-!
# What the kernel writes for a program

Once a range has been checked the kernel stores to it, and reads from it, through the program's own
table. `cell` is the place a byte has in memory, and what was stored is read back because the bytes
of a range that is no longer than a page have cells of their own. For bytes further apart that takes
`Separate`: no page is at two addresses of one process.
-/

namespace Verkos.Stam

open Verkos.Lib Verkos.Lib.Bytes
open Option (some.injEq map_eq_some_iff map_some)

namespace PageTable

variable {t t' : PageTable} {pm pm' : Pmm} {a b va i n : Nat} {d d' : Desc} {bs : List UInt8}
  {write : Bool}

/-- The kernel's stores through the program's table, byte after byte. Every range it stores to has
been checked, so the byte without a leaf is none of them. -/
def store (t : PageTable) (mem : Nat → Nat → Nat) (a : Nat) : List UInt8 → Nat → Nat → Nat
  | [] => mem
  | b :: bs =>
    match t.walkToLeaf a with
    | none => t.store mem (a + 1) bs
    | some (d, l) =>
      t.store (Function.update mem (frame d l a)
        (Function.update (mem (frame d l a)) (a % 4096) b.toNat)) (a + 1) bs

/-- The word the kernel reads at an address of the program's, of a range that has been checked. -/
def load64 (pm : Pmm) (t : PageTable) (a : Nat) : BitVec 64 :=
  BitVec.ofNat 64 (ofLittle ((List.range 8).map fun i =>
    UInt8.ofNat ((observe pm t (a + i)).getD 0)))

/-! ## Cells -/

/-- Where a byte is: the frame, and the place in it. -/
def cell (t : PageTable) (b : Nat) : Option (Nat × Nat) :=
  (t.walkToLeaf b).map fun r => (frame r.1 r.2 b, b % 4096)

theorem observe_of_cell (h : t.Open write b) :
    ∃ c, t.cell b = some c ∧ ∀ pm, observe pm t b = some (pm.mem c.1 c.2) := by
  obtain ⟨d, l, hw, hel, -⟩ := h
  refine ⟨(frame d l b, b % 4096), ?_, fun pm => ?_⟩
  · simp only [cell, hw, map_some]
  · simp only [observe, hw, hel, if_true]

theorem open_of_observe {v : Nat} (h : observe pm t b = some v) : t.Open false b := by
  unfold observe at h
  cases hw : t.walkToLeaf b with
  | none => simp only [hw, reduceCtorEq] at h
  | some r =>
    obtain ⟨d, l⟩ := r
    simp only [hw] at h
    split_ifs at h with hel
    exact ⟨d, l, hw, hel, fun hf => by cases hf⟩

theorem cell_ne (hab : a < b) (hb : b < a + 4096) {c : Nat × Nat} (ha : t.cell a = some c) :
    t.cell b ≠ some c := by
  intro hcb
  obtain ⟨r, -, hr⟩ := map_eq_some_iff.mp ha
  obtain ⟨r', -, hr'⟩ := map_eq_some_iff.mp hcb
  have hoff : a % 4096 = b % 4096 := by
    rw [← hr] at hr'
    exact (Prod.mk.inj hr').2.symm
  omega

theorem store_other {c : Nat × Nat} (mem : Nat → Nat → Nat)
    (h : ∀ j < bs.length, t.cell (a + j) ≠ some c) : t.store mem a bs c.1 c.2 = mem c.1 c.2 := by
  induction bs generalizing a mem with
  | nil => rfl
  | cons b bs ih =>
    have hrest : ∀ j < bs.length, t.cell (a + 1 + j) ≠ some c := fun j hj => by
      rw [Nat.add_assoc, Nat.add_comm 1]
      exact h (j + 1) (Nat.succ_lt_succ hj)
    unfold store
    cases hw : t.walkToLeaf a with
    | none => exact ih mem hrest
    | some r =>
      obtain ⟨d, l⟩ := r
      dsimp only
      rw [ih _ hrest]
      have hne : t.cell a ≠ some c := h 0 (Nat.succ_pos _)
      simp only [cell, hw, map_some, ne_eq, some.injEq] at hne
      by_cases hf : c.1 = frame d l a
      · have ho : c.2 ≠ a % 4096 := fun ho => hne (Prod.ext hf.symm ho.symm)
        rw [hf, Function.update_self, Function.update_of_ne ho]
      · rw [Function.update_of_ne hf]

theorem store_at {c : Nat × Nat} (mem : Nat → Nat → Nat) (hlen : bs.length ≤ 4096)
    (hi : i < bs.length) (hc : t.cell (a + i) = some c) :
    t.store mem a bs c.1 c.2 = bs[i].toNat := by
  induction bs generalizing a mem i with
  | nil => cases hi
  | cons b bs ih =>
    simp only [List.length_cons] at hlen hi
    unfold store
    cases i with
    | succ i =>
      have hc' : t.cell (a + 1 + i) = some c := by rwa [Nat.add_assoc, Nat.add_comm 1]
      cases t.walkToLeaf a with
      | none => exact ih mem (by omega) (by omega) hc'
      | some r => exact ih _ (by omega) (by omega) hc'
    | zero =>
      rw [Nat.add_zero] at hc
      obtain ⟨⟨d, l⟩, hw, hce⟩ := map_eq_some_iff.mp hc
      have hkept : ∀ j < bs.length, t.cell (a + 1 + j) ≠ some c := fun j hj =>
        cell_ne (by omega) (by omega) hc
      rw [hw]
      dsimp only
      rw [store_other _ hkept, ← hce]
      simp only [Function.update_self, List.getElem_cons_zero]

/-! ## Bytes a program reads -/

/-- The program reads these bytes from `a` on. -/
def Holds (pm : Pmm) (t : PageTable) (a : Nat) (bs : List UInt8) : Prop :=
  ∀ i (h : i < bs.length), observe pm t (a + i) = some bs[i].toNat

theorem holds_store (hlen : bs.length ≤ 4096)
    (hopen : ∀ b, a ≤ b → b < a + bs.length → t.Open write b) :
    Holds { pm with mem := t.store pm.mem a bs } t a bs := by
  intro i hi
  obtain ⟨c, hc, hobs⟩ := observe_of_cell (hopen (a + i) (by omega) (by omega))
  rw [hobs]
  exact congrArg some (store_at pm.mem hlen hi hc)

theorem Holds.congr (h : Holds pm t a bs)
    (he : ∀ b, a ≤ b → b < a + bs.length → observe pm' t' b = observe pm t b) :
    Holds pm' t' a bs := fun i hi => by
  rw [he _ (by omega) (by omega)]
  exact h i hi

theorem Holds.readable (h : Holds pm t a bs) (hfit : a + bs.length ≤ userLimit) :
    vmUserOk pm t a bs.length false = (pm, t, true) := by
  apply vmUserOk_complete hfit
  intro b hb hbs
  have hob := h (b - a) (by omega)
  rw [Nat.add_sub_cancel' hb] at hob
  exact open_of_observe hob

theorem Holds.load64 (h : Holds pm t a bs) {w : BitVec 64} (hn : n + 8 ≤ bs.length)
    (hw : part n 8 bs = little 8 w.toNat) : load64 pm t (a + n) = w := by
  have hbytes : ((List.range 8).map fun i =>
      UInt8.ofNat ((observe pm t (a + n + i)).getD 0)) = little 8 w.toNat := by
    rw [← hw]
    refine List.ext_getElem (by simp only [List.length_map, List.length_range, length_part bs hn])
      fun i hi hi' => ?_
    simp only [List.length_map, List.length_range] at hi
    have hob := h (n + i) (by omega)
    simp only [List.getElem_map, List.getElem_range, Nat.add_assoc, hob, Option.getD_some,
      UInt8.ofNat_toNat, part, List.getElem_take, List.getElem_drop]
  unfold PageTable.load64
  rw [hbytes, ofLittle_little, show 256 ^ 8 = 2 ^ 64 from rfl, Nat.mod_eq_of_lt w.isLt, BitVec.ofNat_toNat, BitVec.setWidth_eq]

/-! ## Pages of their own -/

/-- No spare page is reached, and no page at two addresses. -/
structure Separate (pm : Pmm) (t : PageTable) : Prop where
  apart : Apart pm fun _ : Unit => t
  once : ∀ b b' d l d' l', b < userLimit → b' < userLimit → t.walkToLeaf b = some (d, l) →
    d.el0 = true → t.walkToLeaf b' = some (d', l') → d'.el0 = true →
    frame d l b = frame d' l' b' → b / 4096 = b' / 4096

theorem div_of_va (ha : a < userLimit) (hb : b < userLimit) (h : Va.of a = Va.of b) :
    a / 4096 = b / 4096 := by
  simp only [Va.of, Va.mk.injEq, tableIndex, Fin.mk.injEq] at h
  simp only [userLimit] at ha hb
  omega

theorem Separate.cowFault (h : Separate pm t) (hc : cowFault pm t va = some (pm', t')) :
    Separate pm' t' ∧ ∀ b, observe pm' t' b = observe pm t b := by
  have hone : Function.update (fun _ : Unit => t) () t' = fun _ => t' := by
    funext u
    exact Function.update_self _ _ _
  obtain ⟨hap, hobs⟩ := h.apart.cowFault (i := ()) hc
  rw [hone] at hap hobs
  refine ⟨⟨hap, fun b b' d l d' l' hb hb' hw hel hw' hel' hf => ?_⟩, fun b => hobs () b⟩
  obtain ⟨e, hwe, hele, -, hcase⟩ := cowFault_cases hc
  have hset : ∃ e', t' = t.setLeaf va e' ∧ (e'.page = e.page ∨ pm.Spare e'.page) := by
    rcases hcase with ⟨-, ht⟩ | ⟨fresh, pm1, ha, -, ht⟩
    · exact ⟨_, ht, .inl rfl⟩
    · exact ⟨_, ht, .inr (Pmm.allocPage_orderly h.apart.orderly ha).1⟩
  obtain ⟨e', rfl, hpage⟩ := hset
  -- what is elsewhere in the table is neither the page that was at `va` nor a spare one
  have hother : ∀ x c g m, x < userLimit → c < userLimit → Va.of x = Va.of va →
      Va.of c ≠ Va.of va → t.walkToLeaf c = some (g, m) → g.el0 = true →
      frame g m c ≠ e'.page := by
    intro x c g m hx hcl hxva hcva hg hgel hfe
    rcases hpage with hp | hp
    · have hwx := walkToLeaf_of_va hwe hxva
      have heq := h.once c x g m e .page hcl hx hg hgel hwx hele
        (by rw [frame_page, hfe, hp])
      exact hcva ((va_congr heq).trans hxva)
    · exact h.apart.unreached () c g m hg hgel (hfe ▸ hp)
  rw [walkToLeaf_setLeaf hwe] at hw hw'
  by_cases hbv : Va.of b = Va.of va
  · rw [if_pos hbv, some.injEq, Prod.mk.injEq] at hw
    obtain ⟨rfl, rfl⟩ := hw
    by_cases hbv' : Va.of b' = Va.of va
    · exact div_of_va hb hb' (hbv.trans hbv'.symm)
    · rw [if_neg hbv'] at hw'
      rw [frame_page] at hf
      exact absurd hf.symm (hother b b' d' l' hb hb' hbv hbv' hw' hel')
  · rw [if_neg hbv] at hw
    by_cases hbv' : Va.of b' = Va.of va
    · rw [if_pos hbv', some.injEq, Prod.mk.injEq] at hw'
      obtain ⟨rfl, rfl⟩ := hw'
      rw [frame_page] at hf
      exact absurd hf (hother b' b d l hb' hb hbv' hbv hw hel)
    · rw [if_neg hbv'] at hw'
      exact h.once b b' d l d' l' hb hb' hw hel hw' hel' hf

/-- A check of a range is not seen, and keeps the pages apart. -/
theorem Separate.vmUserOk (h : Separate pm t) (va len : Nat) (write : Bool) :
    Separate (vmUserOk pm t va len write).1 (vmUserOk pm t va len write).2.1 ∧
      ∀ b, observe (vmUserOk pm t va len write).1 (vmUserOk pm t va len write).2.1 b =
        observe pm t b := by
  let P : Pmm → PageTable → Prop := fun pm' t' =>
    Separate pm' t' ∧ ∀ b, observe pm' t' b = observe pm t b
  refine vmUserOk_run (P := P) (fun hc hP => ?_) ⟨h, fun _ => rfl⟩ va len
  obtain ⟨hs, hobs⟩ := hP.1.cowFault hc
  exact ⟨hs, fun b => (hobs b).trans (hP.2 b)⟩

theorem Separate.setMem (h : Separate pm t) (mem : Nat → Nat → Nat) : Separate { pm with mem } t :=
  ⟨⟨⟨h.apart.orderly.nodup, h.apart.orderly.below⟩, h.apart.unreached⟩, h.once⟩

/-- What the program reads outside a range is not touched by a store to the range. -/
theorem Holds.store {a' : Nat} {bs' : List UInt8} (hs : Separate pm t) (h : Holds pm t a' bs')
    (hfit : a + bs.length ≤ userLimit) (hfit' : a' + bs'.length ≤ userLimit)
    (hopen : ∀ b, a ≤ b → b < a + bs.length → t.Open write b)
    (hd : a + bs.length ≤ a' ∨ a' + bs'.length ≤ a) :
    Holds { pm with mem := t.store pm.mem a bs } t a' bs' := by
  refine h.congr (fun b hb hbs => ?_)
  have hob := h (b - a') (by omega)
  rw [Nat.add_sub_cancel' hb] at hob
  have hopb := open_of_observe hob
  obtain ⟨c, hc, hobs⟩ := observe_of_cell hopb
  rw [hobs, hobs]
  refine congrArg some (store_other pm.mem fun j hj hcj => ?_)
  obtain ⟨d, l, hw, hel, -⟩ := hopb
  obtain ⟨d', l', hw', hel', -⟩ := hopen (a + j) (by omega) (by omega)
  simp only [cell, hw, map_some, some.injEq] at hc
  simp only [cell, hw', map_some, some.injEq] at hcj
  obtain ⟨hf, ho⟩ := Prod.mk.inj (hc.trans hcj.symm)
  have := hs.once b (a + j) d l d' l' (by omega) (by omega) hw hel hw' hel' hf
  omega

end PageTable

end Verkos.Stam
