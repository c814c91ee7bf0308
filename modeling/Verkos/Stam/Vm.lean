import Verkos.Lib.Tally
import Verkos.Stam.Pmm

/-!
# User address spaces

`vm.c` keeps an address space as a three-level tree of 512-entry tables. A user table starts
empty (`vm_new_space`) and only `descend` fills its upper levels, so it never holds a block
descriptor: an entry of the first two levels is a table or nothing, and an entry of the third
is a page or nothing. `Space` is that tree with every table's own page beside its entries.

Nothing in the kernel names a virtual page otherwise than by its three indices, and the walk
is always the same one, so `Va` is the triple of indices and `Space.walk` the walk.
-/

namespace Verkos.Stam

open Verkos.Lib
open List
open Function

/-- The three table indices of a virtual page: bits 30, 21 and 12 upwards, nine bits each. -/
structure Va where
  i1 : Fin 512
  i2 : Fin 512
  i3 : Fin 512
deriving DecidableEq

theorem neZero512 : NeZero 512 := ⟨by decide⟩

/-- A virtual page is a triple of indices. -/
def Va.equiv : Fin 512 × Fin 512 × Fin 512 ≃ Va where
  toFun t := ⟨t.1, t.2.1, t.2.2⟩
  invFun va := (va.i1, va.i2, va.i3)
  left_inv _ := rfl
  right_inv _ := rfl

instance : Fintype Va := Fintype.ofEquiv _ Va.equiv

/-- A page descriptor: the address, the two access bits the kernel looks at, and the rest of
the attribute bits, which it only copies. -/
structure Desc where
  page : Nat
  el0 : Bool
  ro : Bool
  attrs : Nat
deriving DecidableEq

/-- An address space: the page of each table, and the leaf entries. -/
structure Space where
  l1 : Nat
  l2 : Fin 512 → Option Nat
  l3 : Fin 512 → Fin 512 → Option Nat
  leaf : Va → Option Desc

variable {va : Va} {d : Desc}

namespace Space

/-- `vm_new_space`: one cleared page. -/
def empty (page : Nat) : Space :=
  { l1 := page, l2 := fun _ => none, l3 := fun _ _ => none, leaf := fun _ => none }

/-- The third-level table the walk to `i1`, `i2` reaches. -/
def table3 (sp : Space) (i1 i2 : Fin 512) : Option Nat :=
  match sp.l2 i1 with
  | none => none
  | some _ => sp.l3 i1 i2

/-- The descriptor the walk to `va` ends at. -/
def walk (sp : Space) (va : Va) : Option Desc :=
  match sp.table3 va.i1 va.i2 with
  | none => none
  | some _ => sp.leaf va

/-- `l3[i3] = desc`, in a table the walk has reached. -/
def setLeaf (sp : Space) (va : Va) (d : Desc) : Space :=
  { sp with leaf := Function.update sp.leaf va (some d) }

/-- A new second-level table, of empty entries. -/
def grow1 (sp : Space) (i1 : Fin 512) (t : Nat) : Space :=
  { sp with
    l2 := Function.update sp.l2 i1 (some t)
    l3 := Function.update sp.l3 i1 (fun _ => none) }

/-- A new third-level table, likewise. -/
def grow2 (sp : Space) (i1 i2 : Fin 512) (t : Nat) : Space :=
  { sp with
    l3 := Function.update sp.l3 i1 (Function.update (sp.l3 i1) i2 (some t))
    leaf := fun va => if va.i1 = i1 ∧ va.i2 = i2 then none else sp.leaf va }

/-- `descend` from the first level: the table there, or a new one. -/
def descend1 (pm : Pmm) (sp : Space) (i1 : Fin 512) : Pmm × Space × Bool :=
  match sp.l2 i1 with
  | some _ => (pm, sp, true)
  | none =>
    match pm.allocPage with
    | none => (pm, sp, false)
    | some (t, pm') => (pm', sp.grow1 i1 t, true)

/-- `descend` from the second level. -/
def descend2 (pm : Pmm) (sp : Space) (i1 i2 : Fin 512) : Pmm × Space × Bool :=
  match sp.l3 i1 i2 with
  | some _ => (pm, sp, true)
  | none =>
    match pm.allocPage with
    | none => (pm, sp, false)
    | some (t, pm') => (pm', sp.grow2 i1 i2 t, true)

/-- `map_user_page_raw`: walk down, making tables where there are none, and install the
descriptor. The table reached so far is kept when a later one cannot be made. -/
def mapUserPageRaw (pm : Pmm) (sp : Space) (va : Va) (d : Desc) : Pmm × Space × Bool :=
  match descend1 pm sp va.i1 with
  | (pm, sp, false) => (pm, sp, false)
  | (pm, sp, true) =>
    match descend2 pm sp va.i1 va.i2 with
    | (pm, sp, false) => (pm, sp, false)
    | (pm, sp, true) => (pm, sp.setLeaf va d, true)

/-- `map_user_page`'s attribute bits: access flag, inner shareable, normal memory, never
executable by the kernel, and by the program only if asked. -/
def userAttrs (executable : Bool) : Nat :=
  2 ^ 10 + 3 * 2 ^ 8 + 2 ^ 2 + 2 ^ 53 + (if executable then 0 else 2 ^ 54)

/-- `map_user_page`: a page of one's own, readable and writable from EL0. -/
def mapUserPage (pm : Pmm) (sp : Space) (va : Va) (page : Nat) (executable : Bool) :
    Pmm × Space × Bool :=
  mapUserPageRaw pm sp va { page, el0 := true, ro := false, attrs := userAttrs executable }

/-- `vm_cow_fault`: `none` when the fault is not a copy-on-write one. A page with another
holder is copied; the last holder gets the write permission back. -/
def vmCowFault (pm : Pmm) (sp : Space) (va : Va) : Option (Pmm × Space) :=
  match sp.walk va with
  | none => none
  | some d =>
    if d.el0 = false ∨ d.ro = false then none
    else if 1 < pm.pageCount d.page then
      match pm.allocPage with
      | none => none
      | some (fresh, pm) =>
        let pm := { pm with mem := Function.update pm.mem fresh (pm.mem d.page) }
        some ((pm.pageUnref d.page).1, sp.setLeaf va { d with page := fresh, ro := false })
    else some (pm, sp.setLeaf va { d with ro := false })

/-- Every virtual page of the low half, in the order the nested loops visit them. -/
def allVas : List Va :=
  (List.finRange 512).flatMap fun i1 => (List.finRange 512).flatMap fun i2 =>
    (List.finRange 512).map fun i3 => { i1, i2, i3 }

/-- The body of `vm_copy_space`'s loops, from the first page not yet visited on: share the
page, and install the shared descriptor in the copy. Tables without entries are the pages
the walk does not reach. -/
def copyLoop (pm : Pmm) (src dst : Space) : List Va → Pmm × Space × Space × Bool
  | [] => (pm, src, dst, true)
  | va :: vas =>
    match src.walk va with
    | none => copyLoop pm src dst vas
    | some d =>
      let shared := { d with ro := true }
      match mapUserPageRaw (pm.pageRef d.page) dst va shared with
      | (pm, dst, false) => (pm, src.setLeaf va shared, dst, false)
      | (pm, dst, true) => copyLoop pm (src.setLeaf va shared) dst vas

/-- `vm_copy_space`: the source comes back with its pages read-only, and the copy when there
was memory for all of it. -/
def vmCopySpace (pm : Pmm) (src : Space) : Pmm × Space × Option Space :=
  match pm.allocPage with
  | none => (pm, src, none)
  | some (l1, pm) =>
    match copyLoop pm src (empty l1) allVas with
    | (pm, src, dst, true) => (pm, src, some dst)
    | (pm, src, _, false) => (pm, src, none)

/-- `vm_free_space`, third level: every page of the table, then the table. -/
def freeTable3 (sp : Space) (pm : Pmm) (i1 i2 : Fin 512) : Pmm :=
  match sp.l3 i1 i2 with
  | none => pm
  | some t =>
    ((List.finRange 512).foldl (fun pm i3 =>
      match sp.leaf { i1, i2, i3 } with
      | none => pm
      | some d => pm.dropPage d.page) pm).freePage t

/-- `vm_free_space`, second level. -/
def freeTable2 (sp : Space) (pm : Pmm) (i1 : Fin 512) : Pmm :=
  match sp.l2 i1 with
  | none => pm
  | some t => ((List.finRange 512).foldl (fun pm i2 => sp.freeTable3 pm i1 i2) pm).freePage t

/-- `vm_free_space`. -/
def vmFreeSpace (pm : Pmm) (sp : Space) : Pmm :=
  ((List.finRange 512).foldl (fun pm i1 => sp.freeTable2 pm i1) pm).freePage sp.l1

/-! ## What a space holds -/

/-- One when a table entry is page `p`. -/
def hits (p : Nat) (t : Option Nat) : Nat := if t = some p then 1 else 0

/-- One when a descriptor names page `p`. -/
def descHits (p : Nat) (d : Option Desc) : Nat := hits p (d.map Desc.page)

/-- How many tables of the space sit in page `p`. -/
def tables (sp : Space) (p : Nat) : Nat :=
  hits p (some sp.l1) + tally (hits p) sp.l2 + tally (tally (hits p)) sp.table3

/-- How many virtual pages of the space are page `p`. -/
def frames (sp : Space) (p : Nat) : Nat := tally (descHits p) sp.walk

@[simp] theorem hits_none (p : Nat) : hits p none = 0 := rfl

@[simp] theorem hits_some (p t : Nat) : hits p (some t) = if t = p then 1 else 0 := by
  simp [hits]

@[simp] theorem descHits_none (p : Nat) : descHits p none = 0 := rfl

@[simp] theorem descHits_some (p : Nat) (d : Desc) :
    descHits p (some d) = if d.page = p then 1 else 0 := by
  simp [descHits]

@[simp] theorem empty_tables (t p : Nat) : (empty t).tables p = if t = p then 1 else 0 := by
  simp [tables, empty, table3, tally]

@[simp] theorem empty_walk (t : Nat) (va : Va) : (empty t).walk va = none := rfl

@[simp] theorem empty_frames (t p : Nat) : (empty t).frames p = 0 := by
  simp [frames, tally]

@[simp] theorem setLeaf_table3 (sp : Space) (va : Va) (d : Desc) :
    (sp.setLeaf va d).table3 = sp.table3 := rfl

@[simp] theorem setLeaf_tables (sp : Space) (va : Va) (d : Desc) (p : Nat) :
    (sp.setLeaf va d).tables p = sp.tables p := rfl

theorem setLeaf_walk {sp : Space} (d : Desc) (h : sp.table3 va.i1 va.i2 ≠ none) :
    (sp.setLeaf va d).walk = update sp.walk va (some d) := by
  funext va'
  obtain ⟨t, ht⟩ := Option.ne_none_iff_exists'.mp h
  by_cases hva : va' = va
  · subst hva
    simp only [walk, setLeaf_table3, ht, update_self]
    simp only [setLeaf, update_self]
  · simp only [walk, setLeaf_table3, update_of_ne hva]
    simp only [setLeaf, update_of_ne hva]

theorem table3_ne_none_of_walk {sp : Space} (h : sp.walk va = some d) :
    sp.table3 va.i1 va.i2 ≠ none := by
  intro hn
  simp [walk, hn] at h

/-! ## Building: `map_user_page_raw` -/

section Grow

variable {sp : Space} {i1 i2 : Fin 512}

theorem grow1_table3 (hl : sp.l2 i1 = none) (t : Nat) : (sp.grow1 i1 t).table3 = sp.table3 := by
  ext j1 j2
  by_cases hj : j1 = i1
  · subst hj; simp [table3, grow1, hl]
  · simp [table3, grow1, update_of_ne hj]

/-- The new table is empty, so the walk goes as far as before. -/
theorem grow1_walk (hl : sp.l2 i1 = none) (t : Nat) : (sp.grow1 i1 t).walk = sp.walk := by
  funext va
  simp only [walk, grow1_table3 hl]
  rfl

theorem grow1_tables (hl : sp.l2 i1 = none) (t q : Nat) :
    (sp.grow1 i1 t).tables q = sp.tables q + if t = q then 1 else 0 := by
  have hu := tally_update (hits q) sp.l2 i1 (some t)
  rw [hl] at hu
  simp only [hits_none, hits_some] at hu
  simp only [tables, grow1_table3 hl]
  simp only [grow1]
  omega

theorem grow2_table3 (hup : sp.l2 i1 ≠ none) (t : Nat) : (sp.grow2 i1 i2 t).table3 =
    update sp.table3 i1 (update (sp.table3 i1) i2 (some t)) := by
  obtain ⟨t2, ht2⟩ := Option.ne_none_iff_exists'.mp hup
  funext j1 j2
  by_cases hj : j1 = i1
  · subst hj
    by_cases hk : j2 = i2
    · subst hk; simp [table3, grow2, ht2]
    · simp [table3, grow2, ht2, update_of_ne hk]
  · simp [table3, grow2, update_of_ne hj]

theorem table3_of_l2 (hup : sp.l2 i1 ≠ none) : sp.table3 i1 i2 = sp.l3 i1 i2 := by
  obtain ⟨t2, ht2⟩ := Option.ne_none_iff_exists'.mp hup
  simp [table3, ht2]

theorem grow2_walk (hup : sp.l2 i1 ≠ none) (hl : sp.l3 i1 i2 = none) (t : Nat) :
    (sp.grow2 i1 i2 t).walk = sp.walk := by
  have hnone : sp.table3 i1 i2 = none := (table3_of_l2 hup).trans hl
  funext va
  simp only [walk, grow2_table3 hup]
  by_cases hv : va.i1 = i1 ∧ va.i2 = i2
  · simp [grow2, hv.1, hv.2, hnone]
  · have hsame : update sp.table3 i1
        (update (sp.table3 i1) i2 (some t)) va.i1 va.i2 = sp.table3 va.i1 va.i2 := by
      by_cases h1 : va.i1 = i1
      · have h2 : va.i2 ≠ i2 := fun h2 => hv ⟨h1, h2⟩
        rw [h1, update_self, update_of_ne h2]
      · rw [update_of_ne h1]
    simp only [grow2, hsame, if_neg hv]

theorem grow2_tables (hup : sp.l2 i1 ≠ none) (hl : sp.l3 i1 i2 = none) (t q : Nat) :
    (sp.grow2 i1 i2 t).tables q = sp.tables q + if t = q then 1 else 0 := by
  have hin := tally_update (hits q) (sp.table3 i1) i2 (some t)
  have hout := tally_update (tally (hits q)) sp.table3 i1
    (update (sp.table3 i1) i2 (some t))
  rw [(table3_of_l2 hup).trans hl] at hin
  simp only [hits_none, hits_some] at hin
  simp only [tables, grow2_table3 hup]
  simp only [grow2]
  omega

end Grow

section Building

variable {pm pm' : Pmm} {sp sp' : Space} {ok : Bool} {own held : Nat → Nat}

/-- A table is found, or there is no page for it, or it is made. -/
def Descended (pm : Pmm) (sp : Space) (entry : Option Nat) (grow : Nat → Space)
    (pm' : Pmm) (sp' : Space) (ok : Bool) : Prop :=
  (entry ≠ none ∧ ok = true ∧ pm' = pm ∧ sp' = sp) ∨
  (entry = none ∧ ok = false ∧ pm.allocPage = none ∧ pm' = pm ∧ sp' = sp) ∨
  (∃ t, entry = none ∧ ok = true ∧ pm.allocPage = some (t, pm') ∧ sp' = grow t)

theorem descended {entry : Option Nat} {grow : Nat → Space} (he : (match entry with
      | some _ => (pm, sp, true)
      | none =>
        match pm.allocPage with
        | none => (pm, sp, false)
        | some (t, pm') => (pm', grow t, true)) = (pm', sp', ok)) :
    Descended pm sp entry grow pm' sp' ok := by
  cases entry with
  | some t =>
    obtain ⟨rfl, rfl, rfl⟩ := he
    exact .inl ⟨Option.some_ne_none t, rfl, rfl, rfl⟩
  | none =>
    cases ha : pm.allocPage with
    | none =>
      simp only [ha, Prod.mk.injEq] at he
      obtain ⟨rfl, rfl, rfl⟩ := he
      exact .inr (.inl ⟨rfl, rfl, ha, rfl, rfl⟩)
    | some r =>
      simp only [ha, Prod.mk.injEq] at he
      obtain ⟨rfl, rfl, rfl⟩ := he
      exact .inr (.inr ⟨r.1, rfl, rfl, ha, rfl⟩)

theorem descend1_cases {i1 : Fin 512} (he : descend1 pm sp i1 = (pm', sp', ok)) :
    Descended pm sp (sp.l2 i1) (sp.grow1 i1) pm' sp' ok := descended he

theorem descend2_cases {i1 i2 : Fin 512} (he : descend2 pm sp i1 i2 = (pm', sp', ok)) :
    Descended pm sp (sp.l3 i1 i2) (sp.grow2 i1 i2) pm' sp' ok := descended he

theorem descend1_walk {i1 : Fin 512} (he : descend1 pm sp i1 = (pm', sp', ok)) :
    sp'.walk = sp.walk ∧ (ok = true → sp'.l2 i1 ≠ none) := by
  rcases descend1_cases he with ⟨hl, -, -, rfl⟩ | ⟨-, rfl, -, -, rfl⟩ | ⟨t, hl, -, -, rfl⟩
  · exact ⟨rfl, fun _ => hl⟩
  · exact ⟨rfl, fun hf => by cases hf⟩
  · exact ⟨grow1_walk hl t, fun _ => by simp [grow1]⟩

theorem descend2_walk {i1 i2 : Fin 512} (he : descend2 pm sp i1 i2 = (pm', sp', ok))
    (hup : sp.l2 i1 ≠ none) : sp'.walk = sp.walk ∧ (ok = true → sp'.table3 i1 i2 ≠ none) := by
  rcases descend2_cases he with ⟨hl, -, -, rfl⟩ | ⟨-, rfl, -, -, rfl⟩ | ⟨t, hl, -, -, rfl⟩
  · exact ⟨rfl, fun _ => by rw [table3_of_l2 hup]; exact hl⟩
  · exact ⟨rfl, fun hf => by cases hf⟩
  · exact ⟨grow2_walk hup hl t, fun _ => by simp [grow2_table3 hup]⟩

theorem descend1_ledger {i1 : Fin 512} (he : descend1 pm sp i1 = (pm', sp', ok))
    (h : Ledger pm (fun q => own q + sp.tables q) held) :
    Ledger pm' (fun q => own q + sp'.tables q) held := by
  rcases descend1_cases he with ⟨-, -, rfl, rfl⟩ | ⟨-, -, -, rfl, rfl⟩ | ⟨t, hl, -, ha, rfl⟩
  · exact h
  · exact h
  · refine (h.allocPage ha).congr (fun q => ?_) (fun _ => rfl)
    rw [grow1_tables hl, Nat.add_assoc]

theorem descend2_ledger {i1 i2 : Fin 512} (he : descend2 pm sp i1 i2 = (pm', sp', ok))
    (hup : sp.l2 i1 ≠ none) (h : Ledger pm (fun q => own q + sp.tables q) held) :
    Ledger pm' (fun q => own q + sp'.tables q) held := by
  rcases descend2_cases he with ⟨-, -, rfl, rfl⟩ | ⟨-, -, -, rfl, rfl⟩ | ⟨t, hl, -, ha, rfl⟩
  · exact h
  · exact h
  · refine (h.allocPage ha).congr (fun q => ?_) (fun _ => rfl)
    rw [grow2_tables hup hl, Nat.add_assoc]

/-- `map_user_page_raw` makes the tables it needs and changes the walk at `va` only; when it
fails it changes no walk. -/
theorem mapUserPageRaw_spec (he : mapUserPageRaw pm sp va d = (pm', sp', ok))
    (h : Ledger pm (fun q => own q + sp.tables q) held) :
    Ledger pm' (fun q => own q + sp'.tables q) held ∧
      (ok = true → sp'.walk = update sp.walk va (some d)) ∧ (ok = false → sp'.walk = sp.walk) := by
  unfold mapUserPageRaw at he
  cases he1 : descend1 pm sp va.i1 with
  | mk pm1 r1 =>
    obtain ⟨sp1, ok1⟩ := r1
    have hl1 := descend1_ledger he1 h
    obtain ⟨hw1, hn1⟩ := descend1_walk he1
    cases ok1 with
    | false =>
      simp only [he1, Prod.mk.injEq] at he
      obtain ⟨rfl, rfl, rfl⟩ := he
      exact ⟨hl1, fun hf => (by cases hf), fun _ => hw1⟩
    | true =>
      cases he2 : descend2 pm1 sp1 va.i1 va.i2 with
      | mk pm2 r2 =>
        obtain ⟨sp2, ok2⟩ := r2
        have hl2 := descend2_ledger he2 (hn1 rfl) hl1
        obtain ⟨hw2, hn2⟩ := descend2_walk he2 (hn1 rfl)
        have hw : sp2.walk = sp.walk := hw2.trans hw1
        cases ok2 with
        | false =>
          simp only [he1, he2, Prod.mk.injEq] at he
          obtain ⟨rfl, rfl, rfl⟩ := he
          exact ⟨hl2, fun hf => (by cases hf), fun _ => hw⟩
        | true =>
          simp only [he1, he2, Prod.mk.injEq] at he
          obtain ⟨rfl, rfl, rfl⟩ := he
          refine ⟨hl2, fun _ => ?_, fun hf => by cases hf⟩
          rw [setLeaf_walk d (hn2 rfl), hw]

end Building

/-! ## Tearing down: `vm_free_space` -/

theorem frames_eq_sum (sp : Space) (p : Nat) :
    sp.frames p = ((List.finRange 512).map fun i1 => ((List.finRange 512).map fun i2 =>
      ((List.finRange 512).map fun i3 => descHits p (sp.walk ⟨i1, i2, i3⟩)).sum).sum).sum := by
  have hsum : sp.frames p = ∑ i1 : Fin 512, ∑ i2 : Fin 512, ∑ i3 : Fin 512,
      descHits p (sp.walk ⟨i1, i2, i3⟩) := by
    simp only [frames, tally]
    rw [← Fintype.sum_equiv Va.equiv (fun t => descHits p (sp.walk (Va.equiv t))) _ (fun _ => rfl)]
    simp only [Fintype.sum_prod_type]
    rfl
  simp only [hsum, Fin.sum_univ_def]

/-- The tables of a space, likewise. -/
theorem tables_eq_sum (sp : Space) (p : Nat) :
    sp.tables p = hits p (some sp.l1) + ((List.finRange 512).map fun i1 =>
      hits p (sp.l2 i1) + ((List.finRange 512).map fun i2 =>
        hits p (sp.table3 i1 i2)).sum).sum := by
  simp only [tables, tally, Fin.sum_univ_def]
  rw [Nat.add_assoc, ← sum_map_add]

/-- A loop that takes one entry out of the book at a time takes out the sum. -/
theorem foldl_ledger {ι : Type} (f : Pmm → ι → Pmm) (o g : ι → Nat → Nat)
    (hstep : ∀ pm i (own held : Nat → Nat), Ledger pm (fun q => own q + o i q)
      (fun q => held q + g i q) → Ledger (f pm i) own held) :
    ∀ (is : List ι) (pm : Pmm) (own held : Nat → Nat),
      Ledger pm (fun q => own q + (is.map fun i => o i q).sum)
        (fun q => held q + (is.map fun i => g i q).sum) → Ledger (is.foldl f pm) own held := by
  intro is
  induction is with
  | nil =>
    intro pm own held h
    simpa using h
  | cons i is ih =>
    intro pm own held h
    rw [foldl_cons]
    apply ih
    apply hstep
    refine h.congr (fun q => ?_) (fun q => ?_) <;> simp only [map_cons, sum_cons] <;> omega

/-- One third-level table goes back with every page mapped through it. -/
theorem freeTable3_spec {sp : Space} {pm : Pmm} {own held : Nat → Nat} {i1 i2 : Fin 512}
    (hup : sp.l2 i1 ≠ none) (h : Ledger pm (fun q => own q + hits q (sp.table3 i1 i2))
      (fun q => held q + ((List.finRange 512).map fun i3 =>
        descHits q (sp.walk ⟨i1, i2, i3⟩)).sum)) : Ledger (sp.freeTable3 pm i1 i2) own held := by
  obtain ⟨t2, ht2⟩ := Option.ne_none_iff_exists'.mp hup
  unfold freeTable3
  cases hl : sp.l3 i1 i2 with
  | none =>
    exact h.mono (fun _ => Nat.le_add_right _ _) (fun _ => Nat.le_add_right _ _)
  | some t =>
    have hsome : sp.table3 i1 i2 = some t := by simp [table3, ht2, hl]
    have hwalk : ∀ i3, sp.walk ⟨i1, i2, i3⟩ = sp.leaf ⟨i1, i2, i3⟩ := fun i3 => by
      simp [walk, hsome]
    simp only [hsome, hits_some, hwalk] at h
    suffices hpages : Ledger _ (fun q => own q + if t = q then 1 else 0) held from
      hpages.freePage (fun _ => rfl)
    apply foldl_ledger _ (fun _ _ => 0) (fun i3 q => descHits q (sp.leaf ⟨i1, i2, i3⟩))
    · intro pm' i3 own' held' h'
      cases hd : sp.leaf ⟨i1, i2, i3⟩ with
      | none => exact h'.congr (fun _ => rfl) (fun q => by simp [hd])
      | some d =>
        rw [hd] at h'
        exact h'.dropPage (fun q => by simp)
    · refine h.congr (fun q => ?_) (fun _ => rfl)
      rw [sum_map_zero]
      rfl

/-- One second-level table goes back with everything under it. -/
theorem freeTable2_spec {sp : Space} {pm : Pmm} {own held : Nat → Nat} {i1 : Fin 512}
    (h : Ledger pm (fun q => own q + (hits q (sp.l2 i1) +
        ((List.finRange 512).map fun i2 => hits q (sp.table3 i1 i2)).sum))
      (fun q => held q + ((List.finRange 512).map fun i2 => ((List.finRange 512).map fun i3 =>
        descHits q (sp.walk ⟨i1, i2, i3⟩)).sum).sum)) : Ledger (sp.freeTable2 pm i1) own held := by
  unfold freeTable2
  cases hl : sp.l2 i1 with
  | none => exact h.mono (fun _ => Nat.le_add_right _ _) (fun _ => Nat.le_add_right _ _)
  | some t =>
    suffices htables : Ledger _ (fun q => own q + if t = q then 1 else 0) held from
      htables.freePage (fun _ => rfl)
    apply foldl_ledger _ (fun i2 q => hits q (sp.table3 i1 i2))
      (fun i2 q => ((List.finRange 512).map fun i3 => descHits q (sp.walk ⟨i1, i2, i3⟩)).sum)
    · intro pm' i2 own' held' h'
      exact freeTable3_spec (by simp [hl]) h'
    · refine h.congr (fun q => ?_) (fun _ => rfl)
      rw [hl, hits_some]
      omega

theorem vmFreeSpace_spec {sp : Space} {pm : Pmm} {own held : Nat → Nat}
    (h : Ledger pm (fun q => own q + sp.tables q) (fun q => held q + sp.frames q)) :
    Ledger (vmFreeSpace pm sp) own held := by
  unfold vmFreeSpace
  suffices htables : Ledger _ (fun q => own q + if sp.l1 = q then 1 else 0) held from
    htables.freePage (fun _ => rfl)
  apply foldl_ledger _
    (fun i1 q => hits q (sp.l2 i1) +
      ((List.finRange 512).map fun i2 => hits q (sp.table3 i1 i2)).sum)
    (fun i1 q => ((List.finRange 512).map fun i2 => ((List.finRange 512).map fun i3 =>
        descHits q (sp.walk ⟨i1, i2, i3⟩)).sum).sum)
  · intro pm' i1 own' held' h'
    exact freeTable2_spec h'
  · refine h.congr (fun q => ?_) (fun q => ?_)
    · rw [tables_eq_sum, hits_some]
      omega
    · rw [frames_eq_sum]

/-! ## Sharing: `vm_copy_space` -/

theorem frames_pos_iff {sp : Space} {p : Nat} :
    0 < sp.frames p ↔ ∃ va d, sp.walk va = some d ∧ d.page = p := by
  rw [frames, tally_pos_iff]
  constructor
  · rintro ⟨va, hva⟩
    cases hd : sp.walk va with
    | none => simp [hd] at hva
    | some d =>
      refine ⟨va, d, hd, ?_⟩
      by_contra hne
      simp [hd, hne] at hva
  · rintro ⟨va, d, hd, hp⟩
    exact ⟨va, by simp [hd, hp]⟩

theorem va_unique {sp : Space} (hinj : ∀ p, sp.frames p ≤ 1) {va' : Va} {d' : Desc}
    (h : sp.walk va = some d) (h' : sp.walk va' = some d') (hp : d.page = d'.page) : va = va' := by
  by_contra hne
  have hsum := add_le_tally (descHits d.page) sp.walk hne
  have hle := hinj d.page
  simp only [h, h', descHits_some, hp, if_true] at hsum
  simp only [frames, hp] at hle
  omega

theorem frames_update {sp sp' : Space} {x : Option Desc}
    (h : sp'.walk = update sp.walk va x) (p : Nat) :
    sp'.frames p + descHits p (sp.walk va) = sp.frames p + descHits p x := by
  simp only [frames, h]
  exact tally_update _ _ _ _

theorem frames_insert {sp sp' : Space}
    (h : sp'.walk = update sp.walk va (some d)) (hn : sp.walk va = none) (p : Nat) :
    sp'.frames p = sp.frames p + if d.page = p then 1 else 0 := by
  rw [← descHits_some p d, frames, frames, h]
  exact tally_insert _ (by rw [hn, descHits_none])

theorem frames_congr {sp sp' : Space} (h : sp'.walk = sp.walk) (p : Nat) :
    sp'.frames p = sp.frames p := by
  simp only [frames, h]

theorem frames_share {sp : Space} (h : sp.walk va = some d) (p : Nat) :
    (sp.setLeaf va { d with ro := true }).frames p = sp.frames p := by
  have hw := setLeaf_walk { d with ro := true } (table3_ne_none_of_walk h)
  have hf := frames_update hw p
  simp only [h, descHits_some] at hf
  omega

/-- `src'` is `src` with some pages made read-only. -/
structure Shared (src src' : Space) : Prop where
  tables : ∀ p, src'.tables p = src.tables p
  frames : ∀ p, src'.frames p = src.frames p
  walk : ∀ va d', src'.walk va = some d' →
    ∃ d, src.walk va = some d ∧ d'.page = d.page ∧ (d.ro = true → d'.ro = true)

theorem Shared.refl (src : Space) : Shared src src :=
  ⟨fun _ => rfl, fun _ => rfl, fun _ d h => ⟨d, h, rfl, id⟩⟩

theorem Shared.trans {s1 s2 s3 : Space} (h : Shared s1 s2) (h' : Shared s2 s3) : Shared s1 s3 where
  tables p := (h'.tables p).trans (h.tables p)
  frames p := (h'.frames p).trans (h.frames p)
  walk va d3 hd3 := by
    obtain ⟨d2, hd2, hp2, hr2⟩ := h'.walk va d3 hd3
    obtain ⟨d1, hd1, hp1, hr1⟩ := h.walk va d2 hd2
    exact ⟨d1, hd1, hp2.trans hp1, fun hr => hr2 (hr1 hr)⟩

theorem shared_setLeaf {sp : Space} (h : sp.walk va = some d) :
    Shared sp (sp.setLeaf va { d with ro := true }) where
  tables _ := rfl
  frames := frames_share h
  walk va' d' hd' := by
    rw [setLeaf_walk _ (table3_ne_none_of_walk h)] at hd'
    by_cases hva : va' = va
    · subst hva
      simp only [update_self, Option.some.injEq] at hd'
      subst hd'
      exact ⟨d, h, rfl, fun _ => rfl⟩
    · rw [update_of_ne hva] at hd'
      exact ⟨d', hd', rfl, id⟩

/-- What the copy holds at every point of the loops: entries of the source, read-only on both
sides. -/
def Copied (src dst : Space) : Prop :=
  ∀ va d, dst.walk va = some d → src.walk va = some d ∧ d.ro = true

theorem Copied.frames_le {src dst : Space} (h : Copied src dst) (p : Nat) :
    dst.frames p ≤ src.frames p := by
  apply tally_mono
  intro va
  cases hd : dst.walk va with
  | none => exact Nat.zero_le _
  | some d => rw [(h va d hd).1]

/-- The loops of `vm_copy_space`. `held` is every mapping outside the copy, the source's
included; the byte counts do not overflow because there are fewer than 255 of those. -/
theorem copyLoop_spec {own held : Nat → Nat} (hfew : ∀ p, held p < 255) :
    ∀ (vas : List Va) {pm pm' : Pmm} {src src' dst dst' : Space} {ok : Bool},
      copyLoop pm src dst vas = (pm', src', dst', ok) → vas.Nodup →
      (∀ va ∈ vas, dst.walk va = none) → Copied src dst →
      (∀ p, src.frames p ≤ 1) → (∀ p, src.frames p ≤ held p) →
      Ledger pm (fun q => own q + dst.tables q) (fun q => held q + dst.frames q) →
      Ledger pm' (fun q => own q + dst'.tables q) (fun q => held q + dst'.frames q) ∧
        Shared src src' ∧ Copied src' dst' := by
  intro vas
  induction vas with
  | nil =>
    intro pm pm' src src' dst dst' ok he _ _ hcopy _ _ h
    simp only [copyLoop, Prod.mk.injEq] at he
    obtain ⟨rfl, rfl, rfl, rfl⟩ := he
    exact ⟨h, Shared.refl _, hcopy⟩
  | cons va vas ih =>
    intro pm pm' src src' dst dst' ok he hnd hnew hcopy hinj hle h
    obtain ⟨hva, hnd⟩ := nodup_cons.mp hnd
    have hnewva := hnew va (mem_cons_self ..)
    have hnewvas : ∀ v ∈ vas, dst.walk v = none := fun v hv => hnew v (mem_cons_of_mem _ hv)
    rw [copyLoop] at he
    cases hd : src.walk va with
    | none =>
      simp only [hd] at he
      exact ih he hnd hnewvas hcopy hinj hle h
    | some d =>
      simp only [hd] at he
      have hsrc : 0 < src.frames d.page := frames_pos_iff.mpr ⟨va, d, hd, rfl⟩
      -- the copy has no entry for this page yet: it would be at `va` itself
      have hdst : dst.frames d.page = 0 := by
        by_contra hne
        obtain ⟨va', d', hd', hp'⟩ := frames_pos_iff.mp (Nat.pos_of_ne_zero hne)
        have hva' := va_unique hinj hd (hcopy va' d' hd').1 hp'.symm
        rw [← hva', hnewva] at hd'
        cases hd'
      have hpos : 0 < held d.page + dst.frames d.page :=
        Nat.add_pos_left (Nat.lt_of_lt_of_le hsrc (hle d.page)) _
      have hlt : held d.page + dst.frames d.page < 256 := by
        rw [hdst]
        exact Nat.lt_succ_of_lt (hfew d.page)
      have href := h.pageRef hpos hlt
      have hshare := shared_setLeaf hd
      have hw := setLeaf_walk { d with ro := true } (table3_ne_none_of_walk hd)
      have hcopy' : Copied (src.setLeaf va { d with ro := true }) dst := by
        intro v e hv
        have hne : v ≠ va := fun hv' => by rw [hv', hnewva] at hv; cases hv
        rw [hw, update_of_ne hne]
        exact hcopy v e hv
      cases hm : mapUserPageRaw (pm.pageRef d.page) dst va { d with ro := true } with
      | mk pm1 r =>
        obtain ⟨dst1, ok1⟩ := r
        obtain ⟨hl, hwt, hwf⟩ := mapUserPageRaw_spec hm href
        cases ok1 with
        | false =>
          simp only [hm, Prod.mk.injEq] at he
          obtain ⟨rfl, rfl, rfl, rfl⟩ := he
          have hwd := hwf rfl
          refine ⟨hl.mono (fun _ => Nat.le_refl _) (fun q => ?_), hshare, ?_⟩
          · rw [frames_congr hwd q]
            exact Nat.le_add_right _ _
          · intro v e hv; rw [hwd] at hv; exact hcopy' v e hv
        | true =>
          simp only [hm] at he
          have hwd := hwt rfl
          have hfr := frames_insert hwd hnewva
          have hnew1 : ∀ v ∈ vas, dst1.walk v = none := by
            intro v hv
            have hne : v ≠ va := fun hv' => hva (hv' ▸ hv)
            rw [hwd, update_of_ne hne]
            exact hnewvas v hv
          have hcopy1 : Copied (src.setLeaf va { d with ro := true }) dst1 := by
            intro v e hv
            by_cases hne : v = va
            · subst hne
              rw [hwd, update_self, Option.some.injEq] at hv
              subst hv
              exact ⟨by rw [hw, update_self], rfl⟩
            · rw [hwd, update_of_ne hne] at hv
              exact hcopy' v e hv
          have hl1 : Ledger pm1 (fun q => own q + dst1.tables q)
              (fun q => held q + dst1.frames q) :=
            hl.congr (fun _ => rfl) (fun q => by rw [hfr q, Nat.add_assoc])
          obtain ⟨hl', hsh', hco'⟩ := ih he hnd hnew1 hcopy1
            (fun p => by rw [hshare.frames]; exact hinj p)
            (fun p => by rw [hshare.frames]; exact hle p) hl1
          exact ⟨hl', hshare.trans hsh', hco'⟩

theorem mem_allVas (va : Va) : va ∈ allVas := by
  simp only [allVas, mem_flatMap, mem_map, mem_finRange, true_and]
  exact ⟨va.i1, va.i2, va.i3, rfl⟩

theorem allVas_nodup : allVas.Nodup := by
  have hnd := nodup_finRange 512
  refine nodup_flatMap.mpr ⟨fun i1 _ => nodup_flatMap.mpr ⟨fun i2 _ => ?_, ?_⟩, ?_⟩
  · exact hnd.map (fun a b hab => by cases hab; rfl)
  · refine hnd.imp (fun {a b} hab => ?_)
    intro va ha hb
    simp only [mem_map, mem_finRange, true_and] at ha hb
    obtain ⟨_, rfl⟩ := ha
    obtain ⟨_, hb⟩ := hb
    cases hb
    exact hab rfl
  · refine hnd.imp (fun {a b} hab => ?_)
    intro va ha hb
    simp only [mem_flatMap, mem_map, mem_finRange, true_and] at ha hb
    obtain ⟨_, _, rfl⟩ := ha
    obtain ⟨_, _, hb⟩ := hb
    cases hb
    exact hab rfl

/-- `vm_copy_space`: the source keeps its pages, and the copy maps a part of them, read-only
on both sides. -/
theorem vmCopySpace_spec {own held : Nat → Nat} (hfew : ∀ p, held p < 255) {pm pm' : Pmm}
    {src src' : Space} {dst : Option Space} (he : vmCopySpace pm src = (pm', src', dst))
    (hinj : ∀ p, src.frames p ≤ 1) (hle : ∀ p, src.frames p ≤ held p) (h : Ledger pm own held) :
    Shared src src' ∧ match dst with
      | none => Ledger pm' own held
      | some dst => Ledger pm' (fun q => own q + dst.tables q) (fun q => held q + dst.frames q) ∧
          Copied src' dst := by
  unfold vmCopySpace at he
  cases ha : pm.allocPage with
  | none =>
    simp only [ha, Prod.mk.injEq] at he
    obtain ⟨rfl, rfl, rfl⟩ := he
    exact ⟨Shared.refl _, h⟩
  | some r =>
    obtain ⟨l1, pm1⟩ := r
    simp only [ha] at he
    cases hc : copyLoop pm1 src (empty l1) allVas with
    | mk pm2 r2 =>
      obtain ⟨src2, dst2, ok⟩ := r2
      have hstart : Ledger pm1 (fun q => own q + (empty l1).tables q)
          (fun q => held q + (empty l1).frames q) :=
        (h.allocPage ha).congr (fun q => by rw [empty_tables]) (fun q => by rw [empty_frames]; rfl)
      obtain ⟨hl, hsh, hco⟩ := copyLoop_spec hfew allVas hc allVas_nodup (fun _ _ => rfl)
        (fun va d hd => by cases hd) hinj hle hstart
      cases ok with
      | false =>
        simp only [hc, Prod.mk.injEq] at he
        obtain ⟨rfl, rfl, rfl⟩ := he
        exact ⟨hsh, hl.mono (fun _ => Nat.le_add_right _ _) (fun _ => Nat.le_add_right _ _)⟩
      | true =>
        simp only [hc, Prod.mk.injEq] at he
        obtain ⟨rfl, rfl, rfl⟩ := he
        exact ⟨hsh, hl, hco⟩

end Space

end Verkos.Stam
