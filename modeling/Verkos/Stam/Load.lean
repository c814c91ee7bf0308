import Verkos.Sav.Confine
import Verkos.Sav.WriteElf
import Verkos.Stam.Elf

/-!
# What savc writes and stam loads

savc puts the program at fixed addresses: the code from `0x400000` and the globals from `0x500000`.
stam gives every page of a segment a page of memory, in the order of the headers. The two agree as
long as the code does not reach the globals and both lie in the low half; a page of both segments is
mapped twice, and what the first mapping held is gone.
-/

namespace Verkos.Stam

open Verkos.Lib Verkos.Sav
open Kernel (loadPages loadPages_spec Private)
open List
open Function
open Option (some.injEq map_some)
open Finset (card_empty card_insert_of_notMem card_le_card empty_union insert_union mem_insert
  subset_insert subset_union_left union_insert)
open Image (length_ehdr length_seg1 writeElf_eq_headers)

/-! ## Addresses and indices -/

theorem vaOf_page (a : Nat) : vaOf (4096 * (a / 4096)) = vaOf a := by
  unfold vaOf
  have h30 : 4096 * (a / 4096) / 2 ^ 30 = a / 2 ^ 30 := by omega
  have h21 : 4096 * (a / 4096) / 2 ^ 21 = a / 2 ^ 21 := by omega
  have h12 : 4096 * (a / 4096) / 2 ^ 12 = a / 2 ^ 12 := by omega
  rw [h30, h21, h12]

variable {a i vaddr memsz : Nat} {va : Va} {d : Desc} {s' : Loading} {pm1 : Pmm} {sp1 : Space}
  {mem : Nat → Nat → Nat}

theorem vaOf_inj {b : Nat} (ha : a < userTop) (hb : b < userTop) (h : vaOf a = vaOf b) :
    a / 4096 = b / 4096 := by
  unfold userTop at ha hb
  simp only [vaOf, Va.mk.injEq, Fin.ofNat, Fin.mk.injEq] at h
  omega

/-! ## The pages of a segment -/

variable {err : Option ElfError} {ps : List Nat} {p q n l1 : Nat} {i1 i2 : Fin 512} {ok : Bool}
  {e : List UInt8} {s : Loading} {r : Loaded}

section Mapping

variable {pm pm' : Pmm} {sp sp' : Space} {x : Bool} {own held : Nat → Nat}

theorem mapPages_eq_loadPages :
    ∀ (ps : List Nat) {pm : Pmm} {sp : Space}, mapPages x pm sp ps = (pm', sp', err) →
      loadPages pm sp (ps.map fun p => (vaOf (4096 * p), x)) = (pm', sp', err.isNone) := by
  intro ps
  induction ps with
  | nil =>
    intro pm sp h
    simp only [mapPages, Prod.mk.injEq] at h
    obtain ⟨rfl, rfl, rfl⟩ := h
    rfl
  | cons p ps ih =>
    intro pm sp h
    simp only [mapPages] at h
    simp only [map_cons, loadPages]
    cases ha : pm.allocPage with
    | none =>
      simp only [ha, Prod.mk.injEq] at h ⊢
      obtain ⟨rfl, rfl, rfl⟩ := h
      exact ⟨rfl, rfl, rfl⟩
    | some r =>
      obtain ⟨page, pm1⟩ := r
      simp only [ha] at h ⊢
      cases hm : sp.mapUserPage pm1 (vaOf (4096 * p)) page x with
      | mk pm2 r2 =>
        obtain ⟨sp2, ok⟩ := r2
        cases ok with
        | false =>
          simp only [hm, Prod.mk.injEq] at h ⊢
          obtain ⟨rfl, rfl, rfl⟩ := h
          exact ⟨rfl, rfl, rfl⟩
        | true =>
          simp only [hm] at h ⊢
          exact ih h

theorem mapPages_spec (h : mapPages x pm sp ps = (pm', sp', err))
    (hl : Ledger pm (fun q => own q + sp.tables q) (fun q => held q + sp.frames q))
    (hp : Private held sp) :
    Ledger pm' (fun q => own q + sp'.tables q) (fun q => held q + sp'.frames q) ∧
      Private held sp' :=
  loadPages_spec _ (mapPages_eq_loadPages ps h) hl hp

/-! ## What the pages hold -/

theorem allocPage_mem (ha : pm.allocPage = some (p, pm')) :
    pm'.mem = update pm.mem p (fun _ => 0) := by
  unfold Pmm.allocPage at ha
  cases hl : pm.freeList with
  | cons q rest =>
    simp only [hl, some.injEq, Prod.mk.injEq] at ha
    obtain ⟨rfl, rfl⟩ := ha
    rfl
  | nil =>
    simp only [hl] at ha
    split at ha
    · cases ha
    · simp only [some.injEq, Prod.mk.injEq] at ha
      obtain ⟨rfl, rfl⟩ := ha
      rfl

theorem allocPage_keeps (ha : pm.allocPage = some (p, pm')) (h : Ledger pm own held)
    (hq : 0 < own q + held q) : pm'.mem q = pm.mem q := by
  have hs := (h.allocPage ha).single p
  rw [if_pos rfl] at hs
  have hne : q ≠ p := by
    rintro rfl
    omega
  rw [allocPage_mem ha, update_of_ne hne]

theorem descend1_keeps (he : Space.descend1 pm sp i1 = (pm', sp', ok))
    (h : Ledger pm (fun q => own q + sp.tables q) held) (hq : 0 < own q + held q) :
    pm'.mem q = pm.mem q := by
  rcases Space.descend1_cases he with ⟨-, -, rfl, -⟩ | ⟨-, -, -, rfl, -⟩ | ⟨t, -, -, ha, -⟩
  · rfl
  · rfl
  · exact allocPage_keeps ha h (by omega)

theorem descend2_keeps (he : Space.descend2 pm sp i1 i2 = (pm', sp', ok))
    (h : Ledger pm (fun q => own q + sp.tables q) held) (hq : 0 < own q + held q) :
    pm'.mem q = pm.mem q := by
  rcases Space.descend2_cases he with ⟨-, -, rfl, -⟩ | ⟨-, -, -, rfl, -⟩ | ⟨t, -, -, ha, -⟩
  · rfl
  · rfl
  · exact allocPage_keeps ha h (by omega)

/-- Mapping a page makes tables, and tables are made of pages nobody has. -/
theorem mapUserPageRaw_keeps (he : Space.mapUserPageRaw pm sp va d = (pm', sp', true))
    (h : Ledger pm (fun q => own q + sp.tables q) held) (hq : 0 < own q + held q) :
    pm'.mem q = pm.mem q := by
  unfold Space.mapUserPageRaw at he
  cases he1 : Space.descend1 pm sp va.i1 with
  | mk pm1 r1 =>
    obtain ⟨sp1, ok1⟩ := r1
    cases ok1 with
    | false => simp [he1] at he
    | true =>
      have hl1 := Space.descend1_ledger he1 h
      cases he2 : Space.descend2 pm1 sp1 va.i1 va.i2 with
      | mk pm2 r2 =>
        obtain ⟨sp2, ok2⟩ := r2
        cases ok2 with
        | false => simp [he1, he2] at he
        | true =>
          simp only [he1, he2, Prod.mk.injEq, and_true] at he
          obtain ⟨rfl, -⟩ := he
          rw [descend2_keeps he2 hl1 hq, descend1_keeps he1 h hq]

/-- What a run of fresh pages comes to: they are mapped, writable and clear, and everything that was
mapped is as it was. -/
structure Mapped (ps : List Nat) (pm : Pmm) (sp : Space) (pm' : Pmm) (sp' : Space) : Prop where
  fresh : ∀ p ∈ ps, ∃ d, sp'.walk (vaOf (4096 * p)) = some d ∧ d.ro = false ∧
    pm'.mem d.page = fun _ => 0
  others : ∀ va, (∀ p ∈ ps, vaOf (4096 * p) ≠ va) → sp'.walk va = sp.walk va
  keeps : ∀ q, 0 < sp.frames q → 0 < sp'.frames q ∧ pm'.mem q = pm.mem q

theorem mapPages_mapped :
    ∀ {ps : List Nat} {pm : Pmm} {sp : Space}, mapPages x pm sp ps = (pm', sp', none) →
      Ledger pm (fun q => own q + sp.tables q) (fun q => held q + sp.frames q) →
      Private held sp → (ps.map fun p => vaOf (4096 * p)).Nodup →
      (∀ p ∈ ps, sp.walk (vaOf (4096 * p)) = none) → Mapped ps pm sp pm' sp' := by
  intro ps
  induction ps with
  | nil =>
    intro pm sp h hl hp _ _
    simp only [mapPages, Prod.mk.injEq] at h
    obtain ⟨rfl, rfl, -⟩ := h
    exact ⟨by simp, fun _ _ => rfl, fun _ hq => ⟨hq, rfl⟩⟩
  | cons p ps ih =>
    intro pm sp h hl hp hnd hnone
    simp only [mapPages] at h
    rw [map_cons, nodup_cons] at hnd
    cases ha : pm.allocPage with
    | none => simp [ha] at h
    | some r =>
      obtain ⟨page, pm1⟩ := r
      simp only [ha] at h
      have hown : Ledger pm1 (fun q => (own q + if page = q then 1 else 0) + sp.tables q)
          (fun q => held q + sp.frames q) :=
        (hl.allocPage ha).congr (fun _ => by omega) (fun _ => rfl)
      cases hm : sp.mapUserPage pm1 (vaOf (4096 * p)) page x with
      | mk pm2 r2 =>
        obtain ⟨sp2, ok⟩ := r2
        cases ok with
        | false => simp [hm] at h
        | true =>
          simp only [hm] at h
          have hone : mapPages x pm sp [p] = (pm2, sp2, none) := by
            simp only [mapPages, ha, hm]
          obtain ⟨hl2, hp2⟩ := mapPages_spec hone hl hp
          obtain ⟨-, hw, -⟩ := Space.mapUserPageRaw_spec hm hown
          have hwalk := hw rfl
          have hframes := Space.frames_insert hwalk (hnone p mem_cons_self)
          have hother : ∀ va, vaOf (4096 * p) ≠ va → sp2.walk va = sp.walk va := by
            intro va hva
            rw [hwalk, update_of_ne (Ne.symm hva)]
          have hhead : sp2.walk (vaOf (4096 * p)) = some
              { page, el0 := true, ro := false, attrs := Space.userAttrs x } := by
            rw [hwalk, update_self]
          have hrest := ih h hl2 hp2 hnd.2 (fun p' hp' => by
            rw [hother _ (fun he => hnd.1 (mem_map.2 ⟨p', hp', he.symm⟩))]
            exact hnone p' (mem_cons_of_mem _ hp'))
          refine ⟨?_, fun va hva => ?_, fun q hq => ?_⟩
          · intro p' hp'
            rcases mem_cons.1 hp' with rfl | hp'
            · refine ⟨{ page, el0 := true, ro := false, attrs := Space.userAttrs x }, ?_, rfl, ?_⟩
              · rw [hrest.others _ (fun p'' hp'' he => hnd.1 (mem_map.2 ⟨p'', hp'', he⟩))]
                exact hhead
              · have hpos : 0 < sp2.frames page := by
                  rw [hframes, if_pos rfl]
                  omega
                rw [(hrest.keeps page hpos).2, mapUserPageRaw_keeps hm hown (by simp),
                  allocPage_mem ha, update_self]
            · exact hrest.fresh p' hp'
          · rw [hrest.others va (fun p' hp' => hva p' (mem_cons_of_mem _ hp'))]
            exact hother va (hva p mem_cons_self)
          · have hpos : 0 < sp2.frames q := by
              rw [hframes]
              omega
            refine ⟨(hrest.keeps q hpos).1, ?_⟩
            rw [(hrest.keeps q hpos).2, mapUserPageRaw_keeps hm hown (by omega),
              allocPage_keeps ha hl (by omega)]

/-! ## How many pages a load takes -/

/-- The second-level tables of a space. -/
@[irreducible] def tables2 (sp : Space) : Finset (Fin 512) := Finset.univ.filter fun i1 => sp.l2 i1 ≠ none

/-- The third-level tables. -/
@[irreducible] def tables3 (sp : Space) : Finset (Fin 512 × Fin 512) :=
  Finset.univ.filter fun i => sp.table3 i.1 i.2 ≠ none

theorem mem_tables2 : i1 ∈ tables2 sp ↔ sp.l2 i1 ≠ none := by
  simp [tables2]

theorem mem_tables3' {i : Fin 512 × Fin 512} : i ∈ tables3 sp ↔ sp.table3 i.1 i.2 ≠ none := by
  unfold tables3
  exact Finset.mem_filter_univ i

theorem mem_tables3 : (i1, i2) ∈ tables3 sp ↔ sp.table3 i1 i2 ≠ none :=
  mem_tables3'

/-- The second-level tables some pages lie under. -/
def under2 (ps : List Nat) : Finset (Fin 512) := (ps.map fun p => (vaOf (4096 * p)).i1).toFinset

def under3 (ps : List Nat) : Finset (Fin 512 × Fin 512) :=
  (ps.map fun p => ((vaOf (4096 * p)).i1, (vaOf (4096 * p)).i2)).toFinset

theorem under2_cons (p : Nat) (ps : List Nat) :
    under2 (p :: ps) = insert (vaOf (4096 * p)).i1 (under2 ps) := by
  simp [under2]

theorem under3_cons (p : Nat) (ps : List Nat) :
    under3 (p :: ps) = insert ((vaOf (4096 * p)).i1, (vaOf (4096 * p)).i2) (under3 ps) := by
  simp [under3]

theorem tables2_setLeaf (va : Va) (d : Desc) : tables2 (sp.setLeaf va d) = tables2 sp := by
  ext i
  rw [mem_tables2, mem_tables2]
  rfl

theorem tables3_setLeaf (va : Va) (d : Desc) : tables3 (sp.setLeaf va d) = tables3 sp := by
  ext i
  rw [mem_tables3, mem_tables3]
  rfl

/-- `descend` from the first level: one page, for a table that was not there. -/
theorem descend1_avail (he : Space.descend1 pm sp i1 = (pm', sp', ok)) :
    (ok = true → tables2 sp' = insert i1 (tables2 sp) ∧ tables3 sp' = tables3 sp ∧
      pm.avail + (tables2 sp).card = pm'.avail + (tables2 sp').card) ∧
      (ok = false → pm.avail = 0 ∧ i1 ∉ tables2 sp) := by
  have hav := pm.avail_allocPage
  rcases Space.descend1_cases he with ⟨hl, hok, hpm, hsp⟩ | ⟨hl, hok, ha, -, -⟩ |
    ⟨t, hl, hok, ha, hsp⟩
  · subst hok hpm hsp
    exact ⟨fun _ => ⟨(Finset.insert_eq_of_mem (mem_tables2.2 hl)).symm, rfl, rfl⟩,
      fun h => by cases h⟩
  · subst hok
    rw [ha] at hav
    exact ⟨fun h => (by cases h), fun _ => ⟨hav, fun hi => mem_tables2.1 hi hl⟩⟩
  · subst hok hsp
    rw [ha] at hav
    have hnot : i1 ∉ tables2 sp := fun hi => mem_tables2.1 hi hl
    have hins : tables2 (sp.grow1 i1 t) = insert i1 (tables2 sp) := by
      ext j
      rw [mem_insert, mem_tables2, mem_tables2]
      by_cases hj : j = i1
      · subst hj
        simp [Space.grow1]
      · simp [Space.grow1, hj]
    refine ⟨fun _ => ⟨hins, ?_, ?_⟩, fun h => by cases h⟩
    · ext i
      rw [mem_tables3, mem_tables3, Space.grow1_table3 hl]
    · rw [hins, card_insert_of_notMem hnot]
      dsimp only at hav
      omega

/-- `descend` from the second level, likewise. -/
theorem descend2_avail (he : Space.descend2 pm sp i1 i2 = (pm', sp', ok)) (hup : sp.l2 i1 ≠ none) :
    (ok = true → tables2 sp' = tables2 sp ∧ tables3 sp' = insert (i1, i2) (tables3 sp) ∧
      pm.avail + (tables3 sp).card = pm'.avail + (tables3 sp').card) ∧
      (ok = false → pm.avail = 0 ∧ (i1, i2) ∉ tables3 sp) := by
  have hav := pm.avail_allocPage
  have hthree : sp.table3 i1 i2 = sp.l3 i1 i2 := Space.table3_of_l2 hup
  rcases Space.descend2_cases he with ⟨hl, hok, hpm, hsp⟩ | ⟨hl, hok, ha, -, -⟩ |
    ⟨t, hl, hok, ha, hsp⟩
  · subst hok hpm hsp
    have hmem : (i1, i2) ∈ tables3 sp' := by
      rw [mem_tables3, hthree]
      exact hl
    refine ⟨fun _ => ⟨rfl, ?_, rfl⟩, fun h => by cases h⟩
    rw [Finset.insert_eq_of_mem hmem]
  · subst hok
    rw [ha] at hav
    refine ⟨fun h => (by cases h), fun _ => ⟨hav, ?_⟩⟩
    rw [mem_tables3, hthree, hl]
    simp
  · subst hok hsp
    rw [ha] at hav
    have hnot : (i1, i2) ∉ tables3 sp := by
      rw [mem_tables3, hthree, hl]
      simp
    have hins : tables3 (sp.grow2 i1 i2 t) = insert (i1, i2) (tables3 sp) := by
      ext j
      obtain ⟨j1, j2⟩ := j
      rw [mem_insert, mem_tables3, mem_tables3, Space.grow2_table3 hup, Prod.mk.injEq]
      by_cases h1 : j1 = i1
      · subst h1
        by_cases h2 : j2 = i2
        · subst h2
          simp
        · simp [h2]
      · simp [h1]
    refine ⟨fun _ => ⟨?_, hins, ?_⟩, fun h => by cases h⟩
    · ext j
      rw [mem_tables2, mem_tables2]
      rfl
    · rw [hins, card_insert_of_notMem hnot]
      dsimp only at hav
      omega

/-- Mapping one page at `va` takes a page for each table that is not there yet. -/
theorem mapUserPageRaw_avail (he : Space.mapUserPageRaw pm sp va d = (pm', sp', ok)) :
    (ok = true → tables2 sp' = insert va.i1 (tables2 sp) ∧
      tables3 sp' = insert (va.i1, va.i2) (tables3 sp) ∧
      pm.avail + (tables2 sp).card + (tables3 sp).card =
        pm'.avail + (tables2 sp').card + (tables3 sp').card) ∧
      (ok = false → pm.avail + (tables2 sp).card + (tables3 sp).card <
        (insert va.i1 (tables2 sp)).card + (insert (va.i1, va.i2) (tables3 sp)).card) := by
  unfold Space.mapUserPageRaw at he
  cases he1 : Space.descend1 pm sp va.i1 with
  | mk pm1 r1 =>
    obtain ⟨sp1, ok1⟩ := r1
    obtain ⟨hyes1, hno1⟩ := descend1_avail he1
    cases ok1 with
    | false =>
      simp only [he1, Prod.mk.injEq] at he
      obtain ⟨-, -, hok⟩ := he
      subst hok
      obtain ⟨hzero, hnot⟩ := hno1 rfl
      refine ⟨fun h => (by cases h), fun _ => ?_⟩
      have hle := card_le_card (subset_insert (va.i1, va.i2) (tables3 sp))
      rw [card_insert_of_notMem hnot]
      omega
    | true =>
      obtain ⟨h2, h3, hsum⟩ := hyes1 rfl
      obtain ⟨-, hup⟩ := Space.descend1_walk he1
      cases he2 : Space.descend2 pm1 sp1 va.i1 va.i2 with
      | mk pm2 r2 =>
        obtain ⟨sp2, ok2⟩ := r2
        obtain ⟨hyes2, hno2⟩ := descend2_avail he2 (hup rfl)
        cases ok2 with
        | false =>
          simp only [he1, he2, Prod.mk.injEq] at he
          obtain ⟨-, -, hok⟩ := he
          subst hok
          obtain ⟨hzero, hnot⟩ := hno2 rfl
          refine ⟨fun h => (by cases h), fun _ => ?_⟩
          rw [h3] at hnot
          rw [card_insert_of_notMem hnot, ← h2]
          omega
        | true =>
          simp only [he1, he2, Prod.mk.injEq] at he
          obtain ⟨hpm, hsp, hok⟩ := he
          subst hok hpm hsp
          obtain ⟨h2', h3', hsum'⟩ := hyes2 rfl
          rw [tables2_setLeaf, tables3_setLeaf]
          refine ⟨fun _ => ⟨h2'.trans h2, ?_, ?_⟩, fun h => by cases h⟩
          · rw [h3', h3]
          · rw [h2']
            rw [h3] at hsum'
            omega

/-- A run of pages takes one for each and one for each table above them that is not there yet; it
fails when these are not to be had. -/
theorem mapPages_avail :
    ∀ {ps : List Nat} {pm : Pmm} {sp : Space}, mapPages x pm sp ps = (pm', sp', err) →
      (err = none → tables2 sp' = tables2 sp ∪ under2 ps ∧ tables3 sp' = tables3 sp ∪ under3 ps ∧
        pm.avail + (tables2 sp).card + (tables3 sp).card =
          pm'.avail + ps.length + (tables2 sp').card + (tables3 sp').card) ∧
      (err ≠ none → pm.avail + (tables2 sp).card + (tables3 sp).card <
        ps.length + (tables2 sp ∪ under2 ps).card + (tables3 sp ∪ under3 ps).card) := by
  intro ps
  induction ps with
  | nil =>
    intro pm sp h
    simp only [mapPages, Prod.mk.injEq] at h
    obtain ⟨rfl, rfl, rfl⟩ := h
    exact ⟨fun _ => ⟨by simp [under2], by simp [under3], by simp⟩, fun h => absurd rfl h⟩
  | cons p ps ih =>
    intro pm sp h
    have hav := pm.avail_allocPage
    simp only [mapPages] at h
    rw [under2_cons, under3_cons, union_insert, union_insert, length_cons]
    cases ha : pm.allocPage with
    | none =>
      rw [ha] at hav
      simp only [ha, Prod.mk.injEq] at h
      obtain ⟨-, -, rfl⟩ := h
      refine ⟨fun h => (by cases h), fun _ => ?_⟩
      have hle2 : (tables2 sp).card ≤ (insert (vaOf (4096 * p)).i1 (tables2 sp ∪ under2 ps)).card :=
        card_le_card (subset_union_left.trans (subset_insert _ _))
      have hle3 : (tables3 sp).card ≤
          (insert ((vaOf (4096 * p)).i1, (vaOf (4096 * p)).i2) (tables3 sp ∪ under3 ps)).card :=
        card_le_card (subset_union_left.trans (subset_insert _ _))
      dsimp only at hav
      omega
    | some r =>
      obtain ⟨page, pm1⟩ := r
      rw [ha] at hav
      dsimp only at hav
      simp only [ha] at h
      cases hm : sp.mapUserPage pm1 (vaOf (4096 * p)) page x with
      | mk pm2 r2 =>
        obtain ⟨sp2, ok⟩ := r2
        obtain ⟨hyes, hno⟩ := mapUserPageRaw_avail hm
        cases ok with
        | false =>
          simp only [hm, Prod.mk.injEq] at h
          obtain ⟨-, -, rfl⟩ := h
          refine ⟨fun h => (by cases h), fun _ => ?_⟩
          have hlt := hno rfl
          have hle2 : (insert (vaOf (4096 * p)).i1 (tables2 sp)).card ≤
              (insert (vaOf (4096 * p)).i1 (tables2 sp ∪ under2 ps)).card :=
            card_le_card (Finset.insert_subset_insert _ subset_union_left)
          have hle3 : (insert ((vaOf (4096 * p)).i1, (vaOf (4096 * p)).i2) (tables3 sp)).card ≤
              (insert ((vaOf (4096 * p)).i1, (vaOf (4096 * p)).i2) (tables3 sp ∪ under3 ps)).card :=
            card_le_card (Finset.insert_subset_insert _ subset_union_left)
          omega
        | true =>
          simp only [hm] at h
          obtain ⟨h2, h3, hsum⟩ := hyes rfl
          obtain ⟨ihyes, ihno⟩ := ih h
          rw [h2, h3, insert_union, insert_union] at ihno
          refine ⟨fun herr => ?_, fun herr => ?_⟩
          · obtain ⟨h2', h3', hsum'⟩ := ihyes herr
            rw [h2, insert_union] at h2'
            rw [h3, insert_union] at h3'
            exact ⟨h2', h3', by omega⟩
          · have hlt := ihno herr
            rw [h2, h3] at hsum
            omega

/-! ## The bytes of a segment -/

/-- An address the kernel can store to. -/
def Writable (sp : Space) (a : Nat) : Prop :=
  a < userTop ∧ ∃ d, sp.walk (vaOf a) = some d ∧ d.ro = false

/-- In a space that maps no page twice, a store changes one byte. -/
theorem storeByte_spec (hinj : ∀ q, sp.frames q ≤ 1) (pm : Pmm) (ha : Writable sp a) (b : UInt8) :
    ∃ mem, storeByte pm sp a b = some { pm with mem } ∧
      ∀ a', userByte { pm with mem } sp a' = if a' = a then some b.toNat else userByte pm sp a' := by
  obtain ⟨hlt, d, hd, hro⟩ := ha
  refine ⟨update pm.mem d.page (update (pm.mem d.page) (a % 4096) b.toNat), ?_, ?_⟩
  · unfold storeByte
    rw [if_pos hlt, hd]
    simp [hro]
  · intro a'
    unfold userByte
    by_cases hlt' : a' < userTop
    · rw [if_pos hlt', if_pos hlt']
      cases hd' : sp.walk (vaOf a') with
      | none =>
        have hne : a' ≠ a := by
          rintro rfl
          rw [hd] at hd'
          cases hd'
        rw [if_neg hne]
        rfl
      | some d' =>
        rw [map_some, map_some]
        dsimp only
        by_cases hpage : d'.page = d.page
        · have hva := vaOf_inj hlt' hlt (Space.va_unique hinj hd' hd hpage)
          by_cases hmod : a' % 4096 = a % 4096
          · have heq : a' = a := by omega
            rw [if_pos heq, hpage, update_self, hmod, update_self]
          · have hne : a' ≠ a := by
              rintro rfl
              exact hmod rfl
            rw [if_neg hne, hpage, update_self, update_of_ne hmod]
        · have hne : a' ≠ a := by
            rintro rfl
            rw [hd] at hd'
            cases hd'
            exact hpage rfl
          rw [if_neg hne, update_of_ne hpage]
    · have hne : a' ≠ a := by
        rintro rfl
        exact hlt' hlt
      rw [if_neg hlt', if_neg hlt', if_neg hne]

/-- The copy puts every byte in its place and touches nothing else. -/
theorem copyBytes_spec (hinj : ∀ q, sp.frames q ≤ 1) :
    ∀ (bs : List UInt8) (pm : Pmm) (a : Nat), (∀ i < bs.length, Writable sp (a + i)) →
      ∃ mem, copyBytes sp pm a bs = some { pm with mem } ∧
        (∀ i (h : i < bs.length), userByte { pm with mem } sp (a + i) = some (bs.get ⟨i, h⟩).toNat) ∧
        ∀ a', (a' < a ∨ a + bs.length ≤ a') → userByte { pm with mem } sp a' = userByte pm sp a' := by
  intro bs
  induction bs with
  | nil =>
    intro pm a _
    exact ⟨pm.mem, rfl, fun i h => absurd h (Nat.not_lt_zero i), fun _ _ => rfl⟩
  | cons b bs ih =>
    intro pm a hw
    obtain ⟨mem1, hs, hbyte⟩ := storeByte_spec hinj pm (hw 0 (by simp)) b
    rw [Nat.add_zero] at hs hbyte
    obtain ⟨mem2, hc, hin, hout⟩ := ih { pm with mem := mem1 } (a + 1) (fun i hi => by
      have hi' := hw (i + 1) (by simpa using hi)
      rwa [← Nat.add_assoc, Nat.add_right_comm] at hi')
    refine ⟨mem2, ?_, ?_, ?_⟩
    · simp only [copyBytes, hs]
      exact hc
    · intro i hi
      cases i with
      | zero =>
        have h0 := hout a (.inl (Nat.lt_succ_self a))
        rw [hbyte a, if_pos rfl] at h0
        exact h0
      | succ i =>
        have hi' := hin i (by simpa using hi)
        rw [Nat.add_right_comm] at hi'
        exact hi'
    · intro a' ha'
      rw [length_cons] at ha'
      have hne : a' ≠ a := by omega
      have h0 := hout a' (by omega)
      rw [hbyte a', if_neg hne] at h0
      exact h0

theorem copyBytes_below :
    ∀ {bs : List UInt8} {pm : Pmm} {a : Nat}, copyBytes sp pm a bs = some pm' →
      bs = [] ∨ a + bs.length ≤ userTop := by
  intro bs
  induction bs with
  | nil =>
    intro pm a _
    exact .inl rfl
  | cons b bs ih =>
    intro pm a h
    right
    simp only [copyBytes] at h
    cases hs : storeByte pm sp a b with
    | none => simp [hs] at h
    | some pm1 =>
      simp only [hs] at h
      have hlt : a < userTop := by
        by_contra hge
        simp [storeByte, hge] at hs
      rcases ih h with rfl | hle
      · exact hlt
      · rw [length_cons]
        omega

end Mapping

/-! ## Reading what savc wrote -/

theorem le16_put16 (n : Nat) (rest : List UInt8) : le16 (put16 n ++ rest) = n % 2 ^ 16 := by
  simp only [put16, le16, cons_append, nil_append, UInt8.toNat_ofNat']
  omega

theorem le64_put64 (n : Nat) (rest : List UInt8) : le64 (put64 n ++ rest) = n % 2 ^ 64 := by
  have hhi : (put64 n ++ rest).drop 4 = put32 (n / 2 ^ 32) ++ rest := rfl
  unfold le64
  rw [hhi, le32_put32_mod, put64, append_assoc, le32_put32_mod]
  omega

/-- A program header read back. -/
theorem read_phdr (type flags off va filesz memsz align : Nat) (rest : List UInt8) :
    Phdr.read (Image.phdr type flags off va filesz memsz align ++ rest) =
      ⟨type % 2 ^ 32, flags % 2 ^ 32, off % 2 ^ 64, va % 2 ^ 64, filesz % 2 ^ 64,
        memsz % 2 ^ 64⟩ := by
  simp only [Phdr.read, Image.phdr, append_assoc]
  congr 1
  · exact le32_put32_mod _ _
  · exact le32_put32_mod _ _
  · exact le64_put64 _ _
  · exact le64_put64 _ _
  · exact le64_put64 _ _
  · exact le64_put64 _ _

section Reading

variable (word : Instr → BitVec 32) (img : Image)

/-- The headers of the two segments, as the loader reads them. -/
def textHdr : Phdr :=
  ⟨1, 5, 0, baseVa, img.seg1Size word % 2 ^ 64, img.seg1Size word % 2 ^ 64⟩

def dataHdr : Phdr := ⟨1, 6, img.dataOff word % 2 ^ 64, dataVa, 0, img.bssBytes⟩

def noteHdr : Phdr :=
  ⟨4, 4, img.noteOff word % 2 ^ 64, (baseVa + img.noteOff word) % 2 ^ 64,
    (buildNote img).length % 2 ^ 64, (buildNote img).length % 2 ^ 64⟩

theorem bssBytes_lt : img.bssBytes < 2 ^ 64 := by
  unfold Image.bssBytes
  have hnn := Int.emod_nonneg img.bssSize (show (2 ^ 64 : Int) ≠ 0 by decide)
  have hlt := Int.emod_lt_of_pos img.bssSize (show (0 : Int) < 2 ^ 64 by decide)
  omega

theorem headers_le_length : 232 ≤ (img.writeElf word).length := by
  obtain ⟨rest, hrest⟩ := writeElf_eq_headers word img
  rw [hrest, length_append, length_append, length_ehdr, Image.length_phdrs]
  omega

theorem read_textHdr : Phdr.read ((img.writeElf word).drop (64 + 0 * 56)) = textHdr word img := by
  obtain ⟨rest, hrest⟩ := writeElf_eq_headers word img
  rw [hrest, drop_left' (length_ehdr word img), Image.phdrs, append_assoc,
    append_assoc, read_phdr]
  rfl

theorem read_dataHdr : Phdr.read ((img.writeElf word).drop (64 + 1 * 56)) = dataHdr word img := by
  obtain ⟨rest, hrest⟩ := writeElf_eq_headers word img
  rw [hrest, Image.phdrs, append_assoc, append_assoc, ← append_assoc,
    drop_left' (by simp [length_ehdr, Image.phdr]), read_phdr,
    Nat.mod_eq_of_lt (bssBytes_lt img)]
  rfl

theorem read_noteHdr : Phdr.read ((img.writeElf word).drop (64 + 2 * 56)) = noteHdr word img := by
  obtain ⟨rest, hrest⟩ := writeElf_eq_headers word img
  rw [hrest, Image.phdrs, append_assoc, ← append_assoc, 
    drop_left' (by simp [length_ehdr, Image.phdr]), read_phdr]
  rfl

theorem header_fields :
    le64 ((img.writeElf word).drop 24) = img.entry ∧ le64 ((img.writeElf word).drop 32) = 64 ∧
      le16 ((img.writeElf word).drop 54) = 56 ∧ le16 ((img.writeElf word).drop 56) = 3 := by
  obtain ⟨rest, hrest⟩ := writeElf_eq_headers word img
  simp only [Image.ehdr, append_assoc] at hrest
  have h24 : ∃ l, (img.writeElf word).drop 24 = put64 img.entry ++ l := by
    rw [hrest]
    simp only [← append_assoc _ _ (put64 img.entry ++ _)]
    exact ⟨_, drop_left' rfl⟩
  have h32 : ∃ l, (img.writeElf word).drop 32 = put64 64 ++ l := by
    rw [hrest]
    simp only [← append_assoc _ _ (put64 64 ++ _)]
    exact ⟨_, drop_left' rfl⟩
  have h54 : ∃ l, (img.writeElf word).drop 54 = put16 56 ++ l := by
    rw [hrest]
    simp only [← append_assoc _ _ (put16 56 ++ _)]
    exact ⟨_, drop_left' rfl⟩
  have h56 : ∃ l, (img.writeElf word).drop 56 = put16 3 ++ l := by
    rw [hrest]
    simp only [← append_assoc _ _ (put16 3 ++ _)]
    exact ⟨_, drop_left' rfl⟩
  obtain ⟨l24, h24⟩ := h24
  obtain ⟨l32, h32⟩ := h32
  obtain ⟨l54, h54⟩ := h54
  obtain ⟨l56, h56⟩ := h56
  rw [h24, h32, h54, h56, le64_put64, le64_put64, le16_put16, le16_put16]
  exact ⟨rfl, rfl, rfl, rfl⟩

theorem headerError_writeElf : headerError (img.writeElf word) = none := by
  have hlen := headers_le_length word img
  obtain ⟨-, h32, h54, h56⟩ := header_fields word img
  obtain ⟨rest, hrest⟩ := writeElf_eq_headers word img
  have hmagic : (img.writeElf word).take 4 = [0x7f, 69, 76, 70] := by rw [hrest]; rfl
  have h4 : (img.writeElf word).getD 4 0 = 2 := by rw [hrest]; rfl
  have h5 : (img.writeElf word).getD 5 0 = 1 := by rw [hrest]; rfl
  have h18 : le16 ((img.writeElf word).drop 18) = 183 := by rw [hrest]; exact le16_put16 183 _
  unfold headerError
  rw [if_neg (by omega), if_neg (not_not_intro hmagic), if_neg (not_not_intro h4),
    if_neg (not_not_intro h5), if_neg (not_not_intro h18), h54, h56, h32, if_neg (by omega)]

/-- A segment is loaded when its bytes are in the file, its pages can be had and the copy stays in
the low half. -/
theorem loadSegment_ok {ph : Phdr} : loadSegment e i ph s = some (s', none) ↔
      ph.filesz ≤ ph.memsz ∧ ph.offset + ph.filesz ≤ e.length ∧
        ∃ pm1 sp1 pm2, mapPages ph.executable s.pm s.sp ph.pages = (pm1, sp1, none) ∧
          copyBytes sp1 pm1 ph.vaddr ((e.drop ph.offset).take ph.filesz) = some pm2 ∧
          s' = { s with pm := pm2, sp := sp1, loaded := s.loaded + 1 } := by
  unfold loadSegment
  constructor
  · intro h
    split at h
    · simp at h
    · split at h
      · simp at h
      · split at h
        · simp at h
        · next hmem pm1 sp1 hmap =>
          split at h
          · simp at h
          · split at h
            · simp at h
            · next hoff _ pm2 hcopy =>
              simp only [some.injEq, Prod.mk.injEq, and_true] at h
              exact ⟨by omega, by omega, pm1, sp1, pm2, hmap, hcopy, h.symm⟩
  · rintro ⟨hmem, hoff, pm1, sp1, pm2, hmap, hcopy, rfl⟩
    have hmod := Nat.mod_le (ph.offset + ph.filesz) (2 ^ 64)
    rw [if_neg (by omega), if_neg (by omega), hmap]
    simp only
    rw [if_neg (by omega), hcopy]

theorem loadHeaders_ok {phoff phentsize : Nat} :
    loadHeaders e phoff phentsize (n + 1) i s = some (s', none) ↔
      phoff + i * phentsize + 48 ≤ e.length ∧
        ∃ s1, loadHeader e i (.read (e.drop (phoff + i * phentsize))) s = some (s1, none) ∧
          loadHeaders e phoff phentsize n (i + 1) s1 = some (s', none) := by
  rw [loadHeaders]
  by_cases hin : phoff + i * phentsize + 48 > e.length
  · rw [if_pos hin]
    refine ⟨fun h => (by cases h), fun h => ?_⟩
    have := h.1
    omega
  · rw [if_neg hin]
    cases hh : loadHeader e i (.read (e.drop (phoff + i * phentsize))) s with
    | none => simp
    | some o =>
      obtain ⟨s1, err⟩ := o
      cases err with
      | some err => simp
      | none => simp [show phoff + i * phentsize + 48 ≤ e.length by omega]

/-- The loader answers with an entry point when the header passes and every program header does. -/
theorem elfLoad_ok {pm : Pmm} {sp : Space} : (elfLoad e pm sp = some r ∧ r.answer = .ok n) ↔
      headerError e = none ∧
        ∃ s, loadHeaders e (le64 (e.drop 32)) (le16 (e.drop 54)) (le16 (e.drop 56)) 0
            ⟨pm, sp, noManifest, 0⟩ = some (s, none) ∧ s.loaded ≠ 0 ∧ n = le64 (e.drop 24) ∧
          r = ⟨s.pm, s.sp, s.manifest, .ok (le64 (e.drop 24))⟩ := by
  unfold elfLoad
  cases headerError e with
  | some err =>
    simp only [some.injEq, reduceCtorEq, false_and, iff_false, not_and]
    rintro rfl h
    cases h
  | none =>
    simp only [true_and]
    cases loadHeaders e (le64 (e.drop 32)) (le16 (e.drop 54)) (le16 (e.drop 56)) 0
        ⟨pm, sp, noManifest, 0⟩ with
    | none => simp
    | some o =>
      obtain ⟨s, err⟩ := o
      cases err with
      | some err =>
        simp only [some.injEq, Prod.mk.injEq, reduceCtorEq, and_false, false_and, exists_false,
          iff_false, not_and]
        rintro rfl h
        cases h
      | none =>
        simp only [some.injEq, Prod.mk.injEq, and_true, exists_eq_left']
        by_cases hz : s.loaded = 0
        · rw [if_pos hz]
          simp only [hz, some.injEq, ne_eq, not_true_eq_false, false_and, iff_false, not_and]
          rintro rfl h
          cases h
        · rw [if_neg hz]
          simp only [some.injEq]
          constructor
          · rintro ⟨rfl, h⟩
            cases h
            exact ⟨hz, rfl, rfl⟩
          · rintro ⟨-, rfl, rfl⟩
            exact ⟨rfl, rfl⟩

theorem loadHeader_text (e : List UInt8) (i : Nat) (s : Loading) :
    loadHeader e i (textHdr word img) s = loadSegment e i (textHdr word img) s := by
  unfold loadHeader
  rw [if_neg (show ¬((textHdr word img).type = ptNote) by simp [textHdr, ptNote]),
    if_pos (show (textHdr word img).type = ptLoad by rfl)]

theorem loadHeader_data (e : List UInt8) (i : Nat) (s : Loading) :
    loadHeader e i (dataHdr word img) s = loadSegment e i (dataHdr word img) s := by
  unfold loadHeader
  rw [if_neg (show ¬((dataHdr word img).type = ptNote) by simp [dataHdr, ptNote]),
    if_pos (show (dataHdr word img).type = ptLoad by rfl)]

theorem loadHeader_note (e : List UInt8) (i : Nat) (s : Loading) :
    loadHeader e i (noteHdr word img) s = some ({ s with
          manifest := keepNote s.manifest
            (readSavNoteAt e (noteHdr word img).offset (noteHdr word img).filesz) }, none) := by
  unfold loadHeader
  rw [if_pos (show (noteHdr word img).type = ptNote by rfl)]

/-- On a file of savc's the loader loads the two segments, one after the other, and reads the note. -/
theorem elfLoad_writeElf {pm : Pmm} {sp : Space} :
    (elfLoad (img.writeElf word) pm sp = some r ∧ r.answer = .ok n) ↔
      ∃ s1 s2, loadSegment (img.writeElf word) 0 (textHdr word img) ⟨pm, sp, noManifest, 0⟩ =
          some (s1, none) ∧
        loadSegment (img.writeElf word) 1 (dataHdr word img) s1 = some (s2, none) ∧
        n = img.entry ∧ r = ⟨s2.pm, s2.sp, keepNote s2.manifest (readSavNoteAt (img.writeElf word)
          (noteHdr word img).offset (noteHdr word img).filesz), .ok img.entry⟩ := by
  obtain ⟨h24, h32, h54, h56⟩ := header_fields word img
  have hlen := headers_le_length word img
  rw [elfLoad_ok, h24, h32, h54, h56]
  constructor
  · rintro ⟨-, s, hs, -, rfl, rfl⟩
    obtain ⟨-, s1, h1, hs⟩ := loadHeaders_ok.1 hs
    obtain ⟨-, s2, h2, hs⟩ := loadHeaders_ok.1 hs
    obtain ⟨-, s3, h3, hs⟩ := loadHeaders_ok.1 hs
    rw [read_textHdr, loadHeader_text] at h1
    rw [Nat.zero_add, read_dataHdr, loadHeader_data] at h2
    rw [Nat.zero_add, read_noteHdr, loadHeader_note] at h3
    cases h3
    cases hs
    exact ⟨s1, s2, h1, h2, rfl, rfl⟩
  · rintro ⟨s1, s2, h1, h2, rfl, rfl⟩
    obtain ⟨-, -, _, _, _, -, -, hs2⟩ := loadSegment_ok.1 h2
    refine ⟨headerError_writeElf word img,
      { s2 with
        manifest := keepNote s2.manifest (readSavNoteAt (img.writeElf word)
          (noteHdr word img).offset (noteHdr word img).filesz) },
      loadHeaders_ok.2 ⟨by omega, s1, ?_, loadHeaders_ok.2 ⟨by omega, s2, ?_,
        loadHeaders_ok.2 ⟨by omega, _, ?_, rfl⟩⟩⟩, ?_, rfl, rfl⟩
    · rw [read_textHdr, loadHeader_text]
      exact h1
    · rw [Nat.zero_add, read_dataHdr, loadHeader_data]
      exact h2
    · rw [Nat.zero_add, read_noteHdr, loadHeader_note]
    · rw [hs2]
      exact Nat.succ_ne_zero _

end Reading

/-! ## The trip -/

/-- The pages a segment has bytes in. -/
def InSegment (vaddr memsz p : Nat) : Prop := ∃ a, vaddr ≤ a ∧ a < vaddr + memsz ∧ a / 4096 = p

/-- Their numbers, in order. -/
def pagesOf (vaddr memsz : Nat) : List Nat :=
  List.range' (vaddr / 4096) ((vaddr + memsz + 4095) / 4096 - vaddr / 4096)

theorem mem_pagesOf (hv : vaddr % 4096 = 0) :
    p ∈ pagesOf vaddr memsz ↔ InSegment vaddr memsz p := by
  unfold pagesOf InSegment
  rw [mem_range'_1]
  constructor
  · intro h
    exact ⟨4096 * p, by omega, by omega, by omega⟩
  · rintro ⟨a, hle, hlt, rfl⟩
    omega

theorem nodup_pagesOf (vaddr memsz : Nat) : (pagesOf vaddr memsz).Nodup := by
  unfold pagesOf
  exact nodup_range'

/-- What a run of pages takes: one for each, and one for each table above them. -/
def pagesNeeded (ps : List Nat) : Nat := ps.length + (under2 ps).card + (under3 ps).card

section Trip

variable (word : Instr → BitVec 32) (img : Image)

/-- The pages of the two segments. -/
def imagePages : List Nat := pagesOf baseVa (img.seg1Size word) ++ pagesOf dataVa img.bssBytes

/-- The program is in memory as savc meant it. -/
structure Arrived (r : Loaded) : Prop where
  entry : r.answer = .ok img.entry
  text : ∀ i (h : i < (img.text word).length),
    userByte r.pm r.sp (textVa + i) = some ((img.text word).get ⟨i, h⟩).toNat
  bss : ∀ i < img.bssBytes, userByte r.pm r.sp (dataVa + i) = some 0
  apart : ∀ p, ¬(InSegment baseVa (img.seg1Size word) p ∧ InSegment dataVa img.bssBytes p)

/-- When it gets there: the first segment ends before the globals, if there are any, both are in the
low half, and there is memory for every page and every table. -/
structure Fits (pm : Pmm) : Prop where
  apart : img.bssBytes = 0 ∨ img.seg1Size word ≤ dataVa - baseVa
  textLow : baseVa + img.seg1Size word ≤ userTop
  dataLow : dataVa + img.bssBytes ≤ userTop
  memory : pagesNeeded (imagePages word img) ≤ pm.avail

theorem under2_append (ps qs : List Nat) : under2 (ps ++ qs) = under2 ps ∪ under2 qs := by
  simp [under2]

theorem under3_append (ps qs : List Nat) : under3 (ps ++ qs) = under3 ps ∪ under3 qs := by
  unfold under3
  rw [map_append, toFinset_append]

theorem tables2_empty (l1 : Nat) : tables2 (Space.empty l1) = ∅ := by
  ext i
  rw [mem_tables2]
  simp [Space.empty]

theorem tables3_empty (l1 : Nat) : tables3 (Space.empty l1) = ∅ := by
  ext i
  rw [mem_tables3]
  simp [Space.empty, Space.table3]

variable {word img}

theorem pages_textHdr (h : baseVa + img.seg1Size word ≤ userTop) :
    (textHdr word img).pages = pagesOf baseVa (img.seg1Size word) := by
  unfold userTop at h
  simp only [Phdr.pages, textHdr, pagesOf]
  rw [Nat.mod_eq_of_lt (a := img.seg1Size word) (by omega),
    Nat.mod_eq_of_lt (a := baseVa + img.seg1Size word + 4095) (by omega)]

theorem pages_dataHdr (h : dataVa + img.bssBytes ≤ userTop) :
    (dataHdr word img).pages = pagesOf dataVa img.bssBytes := by
  unfold userTop at h
  simp only [Phdr.pages, dataHdr, pagesOf]
  rw [Nat.mod_eq_of_lt (a := dataVa + img.bssBytes + 4095) (by omega)]

theorem seg1_bytes (h : img.seg1Size word < 2 ^ 64) :
    ((img.writeElf word).drop (textHdr word img).offset).take (textHdr word img).filesz =
      img.seg1 word := by
  obtain ⟨rest, hrest⟩ := Image.writeElf_eq_seg1 word img
  simp only [textHdr, drop_zero]
  rw [hrest, Nat.mod_eq_of_lt h, ← length_seg1, take_left']
  rfl

theorem nodup_vaOf (hnd : ps.Nodup) (hlow : ∀ p ∈ ps, 4096 * p < userTop) :
    (ps.map fun p => vaOf (4096 * p)).Nodup := by
  rw [nodup_map_iff_inj_on hnd]
  intro p hp q hq h
  have := vaOf_inj (hlow p hp) (hlow q hq) h
  omega

theorem pagesOf_low (hv : vaddr % 4096 = 0) (h : vaddr + memsz ≤ userTop) :
    ∀ p ∈ pagesOf vaddr memsz, 4096 * p < userTop := by
  intro p hp
  obtain ⟨a, -, hlt, rfl⟩ := (mem_pagesOf hv).1 hp
  omega

/-- The memory both segments take, from an empty space. -/
theorem needed_of_mapped {pm pm2 : Pmm} {sp2 : Space} {x y : Bool} {qs : List Nat}
    (h1 : mapPages x pm (Space.empty l1) ps = (pm1, sp1, none))
    (h2 : mapPages y { pm1 with mem } sp1 qs = (pm2, sp2, none)) :
    pagesNeeded (ps ++ qs) ≤ pm.avail := by
  obtain ⟨ht2, ht3, hsum⟩ := (mapPages_avail h1).1 rfl
  obtain ⟨ht2', ht3', hsum'⟩ := (mapPages_avail h2).1 rfl
  rw [tables2_empty, empty_union] at ht2
  rw [tables3_empty, empty_union] at ht3
  rw [tables2_empty, tables3_empty, card_empty, card_empty] at hsum
  rw [ht2, ← under2_append] at ht2'
  rw [ht3, ← under3_append] at ht3'
  rw [ht2', ht3'] at hsum'
  have hmem : ({ pm1 with mem } : Pmm).avail = pm1.avail := rfl
  unfold pagesNeeded
  rw [length_append]
  omega

/-- A copy changes what the pages hold and nothing else of the allocator. -/
theorem copyBytes_pm {sp : Space} :
    ∀ {bs : List UInt8} {pm pm' : Pmm} {a : Nat}, copyBytes sp pm a bs = some pm' →
      pm' = { pm with mem := pm'.mem } := by
  intro bs
  induction bs with
  | nil =>
    intro pm pm' a h
    cases h
    rfl
  | cons b bs ih =>
    intro pm pm' a h
    simp only [copyBytes] at h
    cases hs : storeByte pm sp a b with
    | none => simp [hs] at h
    | some pm1 =>
      simp only [hs] at h
      have h1 : pm1 = { pm with mem := pm1.mem } := by
        unfold storeByte at hs
        split at hs
        · split at hs
          · cases hs
          · split at hs
            · cases hs
            · cases hs
              rfl
        · cases hs
      rw [ih h, h1]

/-- A program that was loaded had the memory for it, and its text lies in the low half. -/
theorem fits_of_loaded {pm : Pmm} (hseg : img.seg1Size word < 2 ^ 64)
    (hr : elfLoad (img.writeElf word) pm (Space.empty l1) = some r) (hn : r.answer = .ok n)
    (hapart : img.bssBytes = 0 ∨ img.seg1Size word ≤ dataVa - baseVa)
    (hdata : dataVa + img.bssBytes ≤ userTop) : Fits word img pm := by
  obtain ⟨s1, s2, hl1, hl2, -, rfl⟩ := (elfLoad_writeElf word img).1 ⟨hr, hn⟩
  obtain ⟨-, -, pm1, sp1, pm1', hm1, hc1, rfl⟩ := loadSegment_ok.1 hl1
  obtain ⟨-, -, pm2, sp2, pm2', hm2, hc2, rfl⟩ := loadSegment_ok.1 hl2
  have htext : baseVa + img.seg1Size word ≤ userTop := by
    rw [seg1_bytes hseg] at hc1
    rcases copyBytes_below hc1 with hnil | hle
    · have hpos := Image.seg1Size_pos word img
      rw [← length_seg1, hnil] at hpos
      exact absurd hpos (Nat.lt_irrefl 0)
    · rwa [length_seg1] at hle
  refine ⟨hapart, htext, hdata, ?_⟩
  dsimp only at hm1 hm2
  rw [pages_textHdr htext] at hm1
  rw [pages_dataHdr hdata, copyBytes_pm hc1] at hm2
  exact needed_of_mapped hm1 hm2

/-- A program that arrived had room. -/
theorem fits_of_arrived {pm : Pmm} (hfile : (img.writeElf word).length < 2 ^ 64)
    (hr : elfLoad (img.writeElf word) pm (Space.empty l1) = some r) (h : Arrived word img r) :
    Fits word img pm := by
  have hseg : img.seg1Size word < 2 ^ 64 :=
    lt_of_le_of_lt ((Image.seg1Size_le_dataOff word img).trans (Image.dataOff_le_length word img)) hfile
  refine fits_of_loaded hseg hr h.entry ?_ ?_
  · by_contra hno
    have hva : baseVa ≤ dataVa := by decide
    -- the first page of the globals is then a page of the code too
    exact h.apart (dataVa / 4096) ⟨⟨dataVa, hva, by omega, rfl⟩, ⟨dataVa, by omega, by omega, rfl⟩⟩
  · by_contra hno
    have hva : dataVa < userTop := by decide
    have hbyte := h.bss (userTop - dataVa) (by omega)
    rw [show dataVa + (userTop - dataVa) = userTop by omega] at hbyte
    simp [userByte] at hbyte

/-- A failed run of pages is one there was no memory for. -/
theorem mapPages_of_avail (pm : Pmm) (sp : Space) (x : Bool) (ps : List Nat)
    (h : ps.length + (tables2 sp ∪ under2 ps).card + (tables3 sp ∪ under3 ps).card ≤
      pm.avail + (tables2 sp).card + (tables3 sp).card) :
    ∃ pm' sp', mapPages x pm sp ps = (pm', sp', none) := by
  cases hm : mapPages x pm sp ps with
  | mk pm' r =>
    obtain ⟨sp', err⟩ := r
    cases err with
    | none => exact ⟨pm', sp', rfl⟩
    | some err =>
      have hlt := (mapPages_avail hm).2 (Option.some_ne_none err)
      omega

/-- The first segment, loaded into an empty space. -/
theorem load_text {own held : Nat → Nat} {pm : Pmm}
    (hl : Ledger pm (fun q => own q + (Space.empty l1).tables q)
      (fun q => held q + (Space.empty l1).frames q))
    (hp : Private held (Space.empty l1)) (h : Fits word img pm) :
    ∃ pm1 sp1 mem, loadSegment (img.writeElf word) 0 (textHdr word img)
          ⟨pm, Space.empty l1, noManifest, 0⟩ =
        some (⟨{ pm1 with mem }, sp1, noManifest, 1⟩, none) ∧
      mapPages true pm (Space.empty l1) (pagesOf baseVa (img.seg1Size word)) = (pm1, sp1, none) ∧
      Mapped (pagesOf baseVa (img.seg1Size word)) pm (Space.empty l1) pm1 sp1 ∧
      ∀ i (hi : i < (img.seg1 word).length),
        userByte { pm1 with mem } sp1 (baseVa + i) = some ((img.seg1 word).get ⟨i, hi⟩).toNat := by
  have hneed := h.memory
  have htop : userTop < 2 ^ 64 := by decide
  have hlow := h.textLow
  have hseg : img.seg1Size word < 2 ^ 64 := by omega
  have hva : baseVa % 4096 = 0 := by decide
  unfold pagesNeeded imagePages at hneed
  rw [under2_append, under3_append, length_append] at hneed
  have hle2 : (under2 (pagesOf baseVa (img.seg1Size word))).card ≤
      (under2 (pagesOf baseVa (img.seg1Size word)) ∪ under2 (pagesOf dataVa img.bssBytes)).card :=
    card_le_card subset_union_left
  have hle3 : (under3 (pagesOf baseVa (img.seg1Size word))).card ≤
      (under3 (pagesOf baseVa (img.seg1Size word)) ∪ under3 (pagesOf dataVa img.bssBytes)).card :=
    card_le_card subset_union_left
  obtain ⟨pm1, sp1, hm⟩ := mapPages_of_avail pm (Space.empty l1) true
    (pagesOf baseVa (img.seg1Size word)) (by
      rw [tables2_empty, tables3_empty, empty_union, empty_union, card_empty,
        card_empty]
      omega)
  have hmapped := mapPages_mapped hm hl hp
    (nodup_vaOf (nodup_pagesOf _ _) (pagesOf_low hva hlow)) (fun _ _ => rfl)
  obtain ⟨-, hp1⟩ := mapPages_spec hm hl hp
  obtain ⟨mem, hc, hin, -⟩ := copyBytes_spec (fun q => (hp1 q).1) (img.seg1 word) pm1
    baseVa (fun i hi => by
      rw [length_seg1] at hi
      obtain ⟨d, hd, hro, -⟩ := hmapped.fresh ((baseVa + i) / 4096)
        ((mem_pagesOf hva).2 ⟨baseVa + i, by omega, by omega, rfl⟩)
      rw [vaOf_page] at hd
      exact ⟨by omega, d, hd, hro⟩)
  refine ⟨pm1, sp1, mem, ?_, hm, hmapped, hin⟩
  have hsize : (textHdr word img).filesz = (textHdr word img).memsz := rfl
  refine loadSegment_ok.2 ⟨hsize.le, ?_, pm1, sp1, { pm1 with mem }, ?_, ?_, rfl⟩
  · have hlen := (Image.seg1Size_le_dataOff word img).trans (Image.dataOff_le_length word img)
    simp only [textHdr]
    rw [Nat.mod_eq_of_lt hseg]
    omega
  · have hx : (textHdr word img).executable = true := by simp [Phdr.executable, textHdr]
    rw [pages_textHdr hlow, hx]
    exact hm
  · rw [seg1_bytes hseg]
    exact hc

/-- The second segment, after it: nothing the first put in place is touched. -/
theorem load_data {own held : Nat → Nat} {pm : Pmm} (h : Fits word img pm)
    (hm : mapPages true pm (Space.empty l1) (pagesOf baseVa (img.seg1Size word)) = (pm1, sp1, none))
    (hmapped : Mapped (pagesOf baseVa (img.seg1Size word)) pm (Space.empty l1) pm1 sp1)
    (hl1 : Ledger pm1 (fun q => own q + sp1.tables q) (fun q => held q + sp1.frames q))
    (hp1 : Private held sp1) (hs : s.pm = { pm1 with mem }) (hsp : s.sp = sp1) :
    ∃ pm2 sp2, loadSegment (img.writeElf word) 1 (dataHdr word img) s =
        some ({ s with pm := pm2, sp := sp2, loaded := s.loaded + 1 }, none) ∧
      Mapped (pagesOf dataVa img.bssBytes) { pm1 with mem } sp1 pm2 sp2 ∧
      Ledger pm2 (fun q => own q + sp2.tables q) (fun q => held q + sp2.frames q) ∧
      Private held sp2 := by
  have hneed := h.memory
  have hbase : baseVa % 4096 = 0 := by decide
  have hva : dataVa % 4096 = 0 := by decide
  obtain ⟨ht2, ht3, hsum⟩ := (mapPages_avail hm).1 rfl
  rw [tables2_empty, empty_union] at ht2
  rw [tables3_empty, empty_union] at ht3
  rw [tables2_empty, tables3_empty, card_empty, card_empty] at hsum
  unfold pagesNeeded imagePages at hneed
  rw [under2_append, under3_append, length_append, ← ht2, ← ht3] at hneed
  have hmem : ({ pm1 with mem } : Pmm).avail = pm1.avail := rfl
  obtain ⟨pm2, sp2, hm2⟩ := mapPages_of_avail { pm1 with mem } sp1 false
    (pagesOf dataVa img.bssBytes) (by omega)
  have hfresh : ∀ p ∈ pagesOf dataVa img.bssBytes, sp1.walk (vaOf (4096 * p)) = none := by
    intro p hp
    rw [hmapped.others, Space.empty_walk]
    intro p' hp' he
    have heq := vaOf_inj (pagesOf_low hbase h.textLow p' hp') (pagesOf_low hva h.dataLow p hp) he
    obtain ⟨a, hle, hlt, rfl⟩ := (mem_pagesOf hva).1 hp
    obtain ⟨a', hle', hlt', rfl⟩ := (mem_pagesOf hbase).1 hp'
    have happ := h.apart
    unfold dataVa baseVa at *
    omega
  refine ⟨pm2, sp2, loadSegment_ok.2 ⟨Nat.zero_le _, ?_, pm2, sp2, pm2, ?_, ?_, rfl⟩,
    mapPages_mapped hm2 (hl1.setMem mem) hp1
      (nodup_vaOf (nodup_pagesOf _ _) (pagesOf_low hva h.dataLow)) hfresh,
    mapPages_spec hm2 (hl1.setMem mem) hp1⟩
  · have hlen := Image.dataOff_le_length word img
    have hmod := Nat.mod_le (img.dataOff word) (2 ^ 64)
    simp only [dataHdr]
    omega
  · have hx : (dataHdr word img).executable = false := by simp [Phdr.executable, dataHdr]
    rw [hs, hsp, pages_dataHdr h.dataLow, hx]
    exact hm2
  · simp only [dataHdr, take_zero]
    rfl

variable (word img) in
/-- What loading a program that has room comes to: first the pages of the text, with its bytes in
them, and then those of the globals. -/
structure Segments (pm : Pmm) (l1 : Nat) (own held : Nat → Nat) (r : Loaded) : Prop where
  answer : r.answer = .ok img.entry
  ledger : Ledger r.pm (fun q => own q + r.sp.tables q) (fun q => held q + r.sp.frames q)
  priv : Private held r.sp
  mapped : ∃ pm1 sp1 mem, Mapped (pagesOf baseVa (img.seg1Size word)) pm (Space.empty l1) pm1 sp1 ∧
    (∀ i (hi : i < (img.seg1 word).length),
      userByte { pm1 with mem } sp1 (baseVa + i) = some ((img.seg1 word).get ⟨i, hi⟩).toNat) ∧
    Mapped (pagesOf dataVa img.bssBytes) { pm1 with mem } sp1 r.pm r.sp

section

variable {own held : Nat → Nat} {pm : Pmm}
  (hl : Ledger pm (fun q => own q + (Space.empty l1).tables q) (fun q => held q + (Space.empty l1).frames q))
  (hp : Private held (Space.empty l1)) (h : Fits word img pm)
include hl hp h

theorem segments_of_fits : ∃ r, elfLoad (img.writeElf word) pm (Space.empty l1) = some r ∧
      Segments word img pm l1 own held r := by
  obtain ⟨pm1, sp1, mem, hload1, hm, hmapped, hbytes⟩ := load_text hl hp h
  obtain ⟨hl1, hp1⟩ := mapPages_spec hm hl hp
  obtain ⟨pm2, sp2, hload2, hmapped2, hl2, hp2⟩ := load_data h hm hmapped hl1 hp1
    (s := ⟨{ pm1 with mem }, sp1, noManifest, 1⟩) rfl rfl
  obtain ⟨hr, hans⟩ := (elfLoad_writeElf word img).2 ⟨_, _, hload1, hload2, rfl, rfl⟩
  exact ⟨_, hr, hans, hl2, hp2, pm1, sp1, mem, hmapped, hbytes, hmapped2⟩

theorem arrived_of_fits :
    ∃ r, elfLoad (img.writeElf word) pm (Space.empty l1) = some r ∧ Arrived word img r := by
  have hbase : baseVa % 4096 = 0 := by decide
  have hva : dataVa % 4096 = 0 := by decide
  obtain ⟨⟨pm2, sp2, manifest, answer⟩, hr, hans, -, -, pm1, sp1, mem, hmapped, hbytes, hmapped2⟩ :=
    segments_of_fits hl hp h
  have hapart : ∀ p, ¬(InSegment baseVa (img.seg1Size word) p ∧ InSegment dataVa img.bssBytes p) := by
    rintro p ⟨⟨a, hle, hlt, rfl⟩, ⟨a', hle', hlt', he⟩⟩
    have happ := h.apart
    unfold dataVa baseVa at *
    omega
  refine ⟨_, hr, hans, fun i hi => ?_, fun i hi => ?_, hapart⟩
  · have hle := Image.textOff_add_le word img
    have hlow := h.textLow
    have hva1 : textVa + i = baseVa + (Image.textOff + i) := by
      have hoff : textVa = baseVa + Image.textOff := by decide
      omega
    have hi1 : Image.textOff + i < (img.seg1 word).length := by
      rw [length_seg1]
      omega
    have hbyte := hbytes (Image.textOff + i) hi1
    have hget := Image.seg1_text word img hi
    rw [getElem?_eq_getElem hi1, some.injEq] at hget
    rw [get_eq_getElem, hget] at hbyte
    have hpage : (baseVa + (Image.textOff + i)) / 4096 ∈ pagesOf baseVa (img.seg1Size word) :=
      (mem_pagesOf hbase).2 ⟨baseVa + (Image.textOff + i), by omega, by omega, rfl⟩
    obtain ⟨d, hd, -, -⟩ := hmapped.fresh _ hpage
    rw [vaOf_page] at hd
    have hwalk : sp2.walk (vaOf (baseVa + (Image.textOff + i))) = some d := by
      rw [hmapped2.others, hd]
      intro p hp' he
      have heq := vaOf_inj (pagesOf_low hva h.dataLow p hp') (by omega) he
      refine hapart p ⟨(mem_pagesOf hbase).1 ?_, (mem_pagesOf hva).1 hp'⟩
      rwa [show p = (baseVa + (Image.textOff + i)) / 4096 by omega]
    have hkeep := (hmapped2.keeps d.page (Space.frames_pos_iff.2 ⟨_, d, hd, rfl⟩)).2
    rw [hva1, ← hbyte]
    unfold userByte
    rw [hwalk, hd, map_some, map_some, hkeep]
  · have hlow := h.dataLow
    obtain ⟨d, hd, -, hzero⟩ := hmapped2.fresh ((dataVa + i) / 4096)
      ((mem_pagesOf hva).2 ⟨dataVa + i, by omega, by omega, rfl⟩)
    rw [vaOf_page] at hd
    unfold userByte
    rw [if_pos (by omega), hd, map_some, hzero]

end

end Trip

/-- A program savc accepts, written out and loaded into a new space from any state the kernel can be
in, arrives as it was meant exactly when it has room. -/
theorem executable_arrives_iff_fits (c : Compiled) (word : Instr → BitVec 32) (start top : Nat)
    (mem : Nat → Nat → Nat) (ops : List Kernel.Op) {l1 : Nat} {pm : Pmm}
    (hfile : (c.image.writeElf word).length < 2 ^ 64)
    (ha : ((Kernel.boot start top mem).run ops).pm.allocPage = some (l1, pm)) :
    (∃ r, elfLoad (c.image.writeElf word) pm (Space.empty l1) = some r ∧ Arrived word c.image r) ↔
      Fits word c.image pm := by
  have hinv := Kernel.inv_run (Kernel.inv_boot start top mem) ops
  obtain ⟨hl, hp⟩ := Kernel.empty_ledger hinv.ledger ha
  constructor
  · rintro ⟨r, hr, h⟩
    exact fits_of_arrived hfile hr h
  · intro h
    exact arrived_of_fits hl hp h

/-- An encoder, for two programs. -/
def nops : Instr → BitVec 32 := fun _ => 0xd503201f

/-- The memory of a small machine, after `vm_new_space`. -/
def smallMachine : Option (Nat × Pmm) := (Kernel.boot 0 64 (fun _ _ => 0)).pm.allocPage

/-- A program that writes one byte arrives. -/
theorem executable_arrives_iff_fits_handed : ∃ c : Compiled, c.unit = handedConsole ∧
    ∃ l1 pm r, smallMachine = some (l1, pm) ∧
      elfLoad (c.image.writeElf nops) pm (Space.empty l1) = some r ∧ Arrived nops c.image r := by
  have hc : (compile "a.sav" handedConsole true).any (fun c =>
      decide ((c.image.writeElf nops).length < 2 ^ 64) &&
      decide (c.image.seg1Size nops ≤ dataVa - baseVa) &&
      decide (dataVa + c.image.bssBytes ≤ userTop) &&
      decide (pagesNeeded (imagePages nops c.image) ≤ 63)) = true := by
    decide +kernel
  obtain ⟨c, hcomp, hc⟩ := (Option.any_eq_true _ _).1 hc
  simp only [Bool.and_eq_true, decide_eq_true_eq] at hc
  obtain ⟨⟨⟨hfile, hseg⟩, hdata⟩, hneed⟩ := hc
  have ha : smallMachine = some (0, { (Kernel.boot 0 64 (fun _ _ => 0)).pm with freeNext := 1 }.zeroPage 0) :=
    rfl
  have hlow : dataVa ≤ userTop := by decide
  have hva : baseVa + (dataVa - baseVa) = dataVa := by decide
  obtain ⟨r, hr, harr⟩ := (executable_arrives_iff_fits c nops 0 64 (fun _ _ => 0) [] hfile ha).2
    ⟨.inr hseg, by omega, hdata, hneed⟩
  exact ⟨c, compile_unit hcomp, _, _, r, ha, hr, harr⟩

/-- `entry fn main(out: Console) -> i64 { out!write("..."); return 0; }` -/
def longText (bytes : List UInt8) : SavUnit :=
  ⟨[⟨"main", ⟨1, 7⟩, "a.sav", [("out", .cap .console)], .i64, none, [], [], .block [
      .expr (.method ⟨1, 38⟩ (.var ⟨1, 38⟩ "out") "write" [.str ⟨1, 48⟩ bytes]),
      .ret ⟨1, 54⟩ (some (.int ⟨1, 61⟩ 0))], true⟩], []⟩

theorem longText_compiled (bytes : List UInt8) (hlen : bytes.length = 2 ^ 20) :
    ∃ c : Compiled, c.unit = longText bytes ∧ 2 ^ 20 ≤ c.image.rodata.length ∧
      c.image.bssSize = bssSize [] := by
  obtain ⟨t, its, s, hcheck, hgen, hro, ⟨code, hres⟩, hg⟩ : ∃ t its s,
      checkUnit "a.sav" (longText bytes) = .ok t ∧
        genItems t true ⟨6 + t.fns.length, [], false, false, false⟩ = .ok ((), its, s) ∧
        2 ^ 20 ≤ s.rodata.length ∧ (∃ code, resolve its = some code) ∧ t.globals = [] := by
    refine ⟨_, _, _, rfl, rfl, ?_, ?_, rfl⟩
    · show 2 ^ 20 ≤ (align8 [] ++ bytes ++ [0]).length
      rw [length_append, length_append]
      omega
    · rw [hlen]
      exact ⟨_, rfl⟩
  refine ⟨⟨"a.sav", longText bytes, true, t, its, s, code, hcheck, hgen, hres⟩, rfl, hro, ?_⟩
  show bssSize t.globals = bssSize []
  rw [hg]

/-- Its code reaches the globals: the first page of these belongs to both segments. -/
theorem long_text_overlaps : ∃ c : Compiled, c.unit = longText (List.replicate (2 ^ 20) 97) ∧
    ∃ l1 pm, smallMachine = some (l1, pm) ∧
      ¬∃ r, elfLoad (c.image.writeElf nops) pm (Space.empty l1) = some r ∧ Arrived nops c.image r := by
  obtain ⟨c, hunit, hro, hbss⟩ := longText_compiled (List.replicate (2 ^ 20) 97)
    length_replicate
  have hpos : 0 < c.image.bssBytes := by
    unfold Image.bssBytes
    rw [hbss]
    decide
  have hlong : dataVa - baseVa < c.image.seg1Size nops := by
    have hle := Image.textOff_add_le nops c.image
    have htext : c.image.rodata.length ≤ (c.image.text nops).length := by
      unfold Image.text
      rw [length_append]
      omega
    have hoff : 0 < Image.textOff := by decide
    unfold dataVa baseVa
    omega
  refine ⟨c, hunit, _, _, rfl, ?_⟩
  rintro ⟨r, -, h⟩
  refine h.apart (dataVa / 4096) ⟨⟨dataVa, by decide, by omega, rfl⟩, ⟨dataVa, Nat.le_refl _, ?_, rfl⟩⟩
  omega

end Verkos.Stam
