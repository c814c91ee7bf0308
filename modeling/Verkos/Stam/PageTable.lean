import Verkos.Stam.Cow

/-!
# Is this address really the caller's

Every pointer a system call is handed comes from a program, so `vm_user_ok` walks the range before it
is touched. The walk is the hardware's: an entry of the first two levels may be a block that stands
for all the pages below it, and the loop goes on behind whatever leaf it met. A read-only page that is
to be written is resolved on the way, so the tables change while they are being looked at.

`PageTable` has the blocks that a `Space` cannot have; a space is one without them. The pages the
tables themselves sit in are left out: nothing here reads a table but through its entries.
-/

namespace Verkos.Stam

open Verkos.Lib
open Option (some.injEq some.inj map_some)

/-- An entry of one of the first two levels. -/
inductive TableEntry (α : Type) where
  | invalid
  | block (d : Desc)
  | table (entries : Fin 512 → α)

/-- The three levels; an entry of the last is a page or nothing. -/
structure PageTable where
  l1 : Fin 512 → TableEntry (TableEntry (Option Desc))

/-- The level of a leaf. -/
inductive Level where
  | page
  | mib2
  | gib1
deriving DecidableEq, Repr

/-- What the leaf covers. -/
def Level.size : Level → Nat
  | .page => 4096
  | .mib2 => 2 ^ 21
  | .gib1 => 2 ^ 30

theorem Level.size_pos (l : Level) : 0 < l.size := by
  cases l <;> decide

/-- `(va >> s) & 511`. -/
def tableIndex (va s : Nat) : Fin 512 := ⟨va / 2 ^ s % 512, Nat.mod_lt _ (by decide)⟩

/-- The virtual page of an address. -/
def Va.of (va : Nat) : Va := ⟨tableIndex va 30, tableIndex va 21, tableIndex va 12⟩

variable {len max i j : Nat} {byte : Nat → Option Nat}

namespace PageTable

/-- `walk_to_leaf`, which is how the hardware finds the descriptor of an address. -/
def walkToLeaf (t : PageTable) (va : Nat) : Option (Desc × Level) :=
  match t.l1 (tableIndex va 30) with
  | .invalid => none
  | .block d => some (d, .gib1)
  | .table l2 =>
    match l2 (tableIndex va 21) with
    | .invalid => none
    | .block d => some (d, .mib2)
    | .table l3 => (l3 (tableIndex va 12)).map fun d => (d, .page)

/-- Another descriptor for a page that has one of its own. -/
def setLeaf (t : PageTable) (va : Nat) (d : Desc) : PageTable :=
  match t.l1 (tableIndex va 30) with
  | .table l2 =>
    match l2 (tableIndex va 21) with
    | .table l3 =>
      ⟨Function.update t.l1 (tableIndex va 30) (.table (Function.update l2 (tableIndex va 21)
        (.table (Function.update l3 (tableIndex va 12) (some d)))))⟩
    | _ => t
  | _ => t

/-- `vm_cow_fault`, on tables with blocks: `none` when the fault is not a copy-on-write one. -/
def cowFault (pm : Pmm) (t : PageTable) (va : Nat) : Option (Pmm × PageTable) :=
  match t.walkToLeaf va with
  | some (d, .page) =>
    if d.el0 = false ∨ d.ro = false then none
    else if 1 < pm.pageCount d.page then
      match pm.allocPage with
      | none => none
      | some (fresh, pm) =>
        let pm := { pm with mem := Function.update pm.mem fresh (pm.mem d.page) }
        some ((pm.pageUnref d.page).1, t.setLeaf va { d with page := fresh, ro := false })
    else some (pm, t.setLeaf va { d with ro := false })
  | _ => none

/-- The loop of `vm_user_ok` from `p` on. -/
def userOkFrom (stop : Nat) (write : Bool) (pm : Pmm) (t : PageTable) (p : Nat) :
    Pmm × PageTable × Bool :=
  if p < stop then
    match t.walkToLeaf p with
    | none => (pm, t, false)
    | some (d, l) =>
      if d.el0 = false then (pm, t, false)
      else if write && d.ro then
        match cowFault pm t p with
        | none => (pm, t, false)
        | some (pm', t') =>
          if (t'.walkToLeaf p).any fun r => r.1.ro then (pm', t', false)
          else userOkFrom stop write pm' t' (p / l.size * l.size + l.size)
      else userOkFrom stop write pm t (p / l.size * l.size + l.size)
  else (pm, t, true)
  termination_by stop - p
  decreasing_by
    all_goals
      have hlt := Nat.mod_lt p l.size_pos
      have hdm := Nat.div_add_mod' p l.size
      omega

/-- `USER_LIMIT`. -/
def userLimit : Nat := 2 ^ 39

/-- `vm_user_ok`: the tables behind it, and whether the range is the program's. -/
def vmUserOk (pm : Pmm) (t : PageTable) (va len : Nat) (write : Bool) : Pmm × PageTable × Bool :=
  if len = 0 then (pm, t, true)
  else if (va + len) % 2 ^ 64 < va then (pm, t, false)
  else if userLimit ≤ va ∨ userLimit < (va + len) % 2 ^ 64 then (pm, t, false)
  else userOkFrom (va + len) write pm t (va / 4096 * 4096)

/-! ## The walk -/

variable {t t' : PageTable} {pm pm' : Pmm} {a b va p stop : Nat} {d d' : Desc} {l : Level}
  {write ok : Bool}

theorem tableIndex_congr {s n : Nat} (hd : n ∣ 2 ^ s) (h : a / n = b / n) :
    tableIndex a s = tableIndex b s := by
  obtain ⟨c, hc⟩ := hd
  apply Fin.ext
  change a / 2 ^ s % 512 = b / 2 ^ s % 512
  rw [hc, ← Nat.div_div_eq_div_mul, ← Nat.div_div_eq_div_mul, h]

theorem va_congr (h : a / 4096 = b / 4096) : Va.of a = Va.of b := by
  unfold Va.of
  rw [tableIndex_congr (s := 30) (by decide) h, tableIndex_congr (s := 21) (by decide) h,
    tableIndex_congr (s := 12) (by decide) h]

theorem walkToLeaf_congr (h : t.walkToLeaf a = some (d, l)) (hab : a / l.size = b / l.size) :
    t.walkToLeaf b = some (d, l) := by
  unfold walkToLeaf at h ⊢
  have h30 : tableIndex b 30 = tableIndex a 30 :=
    tableIndex_congr (by cases l <;> decide) hab.symm
  rw [h30]
  cases h1 : t.l1 (tableIndex a 30) with
  | invalid => simp only [h1, reduceCtorEq] at h
  | block e => simpa only [h1] using h
  | table l2 =>
    simp only [h1] at h ⊢
    cases h2 : l2 (tableIndex a 21) with
    | invalid => simp only [h2, reduceCtorEq] at h
    | block e =>
      simp only [h2, some.injEq, Prod.mk.injEq] at h
      obtain ⟨rfl, rfl⟩ := h
      rw [tableIndex_congr (by decide) hab.symm, h2]
    | table l3 =>
      simp only [h2] at h
      obtain ⟨e, he, heq⟩ := Option.map_eq_some_iff.mp h
      simp only [Prod.mk.injEq] at heq
      obtain ⟨rfl, rfl⟩ := heq
      have h12 : tableIndex b 12 = tableIndex a 12 := tableIndex_congr (by decide) hab.symm
      rw [tableIndex_congr (by decide) hab.symm, h2]
      simp only [h12, he, map_some]

theorem walkToLeaf_setLeaf (h : t.walkToLeaf va = some (d, .page)) (d' : Desc) (b : Nat) :
    (t.setLeaf va d').walkToLeaf b =
      if Va.of b = Va.of va then some (d', .page) else t.walkToLeaf b := by
  unfold walkToLeaf at h
  cases h1 : t.l1 (tableIndex va 30) with
  | invalid => simp only [h1, reduceCtorEq] at h
  | block e => simp only [h1, some.injEq, Prod.mk.injEq, reduceCtorEq, and_false] at h
  | table l2 =>
    simp only [h1] at h
    cases h2 : l2 (tableIndex va 21) with
    | invalid => simp only [h2, reduceCtorEq] at h
    | block e => simp only [h2, some.injEq, Prod.mk.injEq, reduceCtorEq, and_false] at h
    | table l3 =>
      simp only [setLeaf, walkToLeaf, h1, h2, Va.of, Va.mk.injEq]
      by_cases e1 : tableIndex b 30 = tableIndex va 30
      · simp only [e1, Function.update_self, true_and, h1]
        by_cases e2 : tableIndex b 21 = tableIndex va 21
        · simp only [e2, Function.update_self, true_and, h2]
          by_cases e3 : tableIndex b 12 = tableIndex va 12
          · simp only [e3, Function.update_self, if_true, map_some]
          · simp only [Function.update_of_ne e3, if_neg e3]
        · simp only [Function.update_of_ne e2, e2, false_and, if_false]
      · simp only [Function.update_of_ne e1, e1, false_and, if_false]

/-- The frame an address is in. -/
def frame (d : Desc) (l : Level) (b : Nat) : Nat := d.page + b % l.size / 4096

@[simp] theorem frame_page (d : Desc) (b : Nat) : frame d .page b = d.page := by
  simp only [frame, Level.size]
  omega

/-- What a resolved fault leaves: a page of the program's that was read-only has the permission back,
in place or on a copy. -/
theorem cowFault_cases (h : cowFault pm t va = some (pm', t')) :
    ∃ d, t.walkToLeaf va = some (d, .page) ∧ d.el0 = true ∧ d.ro = true ∧
      ((pm' = pm ∧ t' = t.setLeaf va { d with ro := false }) ∨
        ∃ fresh pm1, pm.allocPage = some (fresh, pm1) ∧
          pm' = ({ pm1 with
            mem := Function.update pm1.mem fresh (pm1.mem d.page) }.pageUnref d.page).1 ∧
          t' = t.setLeaf va { d with page := fresh, ro := false }) := by
  unfold cowFault at h
  split at h
  · next d hw =>
    split_ifs at h with hd hc
    · simp only [not_or, Bool.not_eq_false] at hd
      refine ⟨d, hw, hd.1, hd.2, .inr ?_⟩
      cases ha : pm.allocPage with
      | none => simp only [ha, reduceCtorEq] at h
      | some r =>
        obtain ⟨fresh, pm1⟩ := r
        simp only [ha, some.injEq, Prod.mk.injEq] at h
        exact ⟨fresh, pm1, rfl, h.1.symm, h.2.symm⟩
    · simp only [not_or, Bool.not_eq_false] at hd
      simp only [some.injEq, Prod.mk.injEq] at h
      exact ⟨d, hw, hd.1, hd.2, .inl ⟨h.1.symm, h.2.symm⟩⟩
  · cases h

/-! ## What the check promises -/

/-- The program may read the byte at `b`, and write it when that is asked. -/
def Open (t : PageTable) (write : Bool) (b : Nat) : Prop :=
  ∃ d l, t.walkToLeaf b = some (d, l) ∧ d.el0 = true ∧ (write = true → d.ro = false)

theorem cowFault_leaf (h : cowFault pm t va = some (pm', t')) :
    ∃ d d', t.walkToLeaf va = some (d, .page) ∧ t' = t.setLeaf va d' ∧ d'.el0 = true ∧
      d'.ro = false := by
  obtain ⟨d, hw, hel, -, hc⟩ := cowFault_cases h
  rcases hc with ⟨-, ht⟩ | ⟨fresh, pm1, -, -, ht⟩
  · exact ⟨d, _, hw, ht, hel, rfl⟩
  · exact ⟨d, _, hw, ht, hel, rfl⟩

theorem Open.cowFault (ho : t.Open write b) (h : cowFault pm t va = some (pm', t')) :
    t'.Open write b := by
  obtain ⟨d, d', hw, rfl, hel, hro⟩ := cowFault_leaf h
  unfold Open
  rw [walkToLeaf_setLeaf hw]
  by_cases hva : Va.of b = Va.of va
  · rw [if_pos hva]
    exact ⟨d', .page, rfl, hel, fun _ => hro⟩
  · rw [if_neg hva]
    exact ho

theorem open_of_cowFault (h : cowFault pm t va = some (pm', t')) (hb : b / 4096 = va / 4096) :
    t'.Open write b := by
  obtain ⟨d, d', hw, rfl, hel, hro⟩ := cowFault_leaf h
  have hva : Va.of b = Va.of va := va_congr hb
  refine ⟨d', .page, ?_, hel, fun _ => hro⟩
  rw [walkToLeaf_setLeaf hw, if_pos hva]

theorem div_size_eq (h : p ≤ b) (hb : b < p / l.size * l.size + l.size) :
    b / l.size = p / l.size := by
  have hpos := l.size_pos
  apply Nat.le_antisymm
  · have hlt : b / l.size < p / l.size + 1 := by
      rw [Nat.div_lt_iff_lt_mul hpos, Nat.add_mul, Nat.one_mul]
      exact hb
    omega
  · exact Nat.div_le_div_right h

theorem userOkFrom_sound {q : Nat} (h : userOkFrom stop write pm t p = (pm', t', true))
    (hq : ∀ b, q ≤ b → b < p → t.Open write b) : ∀ b, q ≤ b → b < stop → t'.Open write b := by
  fun_induction userOkFrom stop write pm t p with
  | case1 | case2 | case3 | case4 => cases h
  | case5 pm t p hlt d l hw hel hro pm1 t1 hc hopen ih =>
    refine ih h (fun b hb hbs => ?_)
    by_cases hbp : b < p
    · exact (hq b hb hbp).cowFault hc
    · -- only a page of the last level is ever resolved
      obtain ⟨d1, -, hleaf, -⟩ := cowFault_leaf hc
      obtain ⟨rfl, rfl⟩ := Prod.mk.inj (some.inj (hw.symm.trans hleaf))
      exact open_of_cowFault hc (div_size_eq (l := .page) (Nat.le_of_not_lt hbp) hbs)
  | case6 pm t p hlt d l hw hel hro ih =>
    refine ih h (fun b hb hbs => ?_)
    by_cases hbp : b < p
    · exact hq b hb hbp
    · refine ⟨d, l, walkToLeaf_congr hw (div_size_eq (Nat.le_of_not_lt hbp) hbs).symm, ?_, ?_⟩
      · exact (Bool.not_eq_false _).mp hel
      · intro hwrite
        simpa only [hwrite, Bool.true_and, Bool.not_eq_true] using hro
  | case7 pm t p hlt =>
    obtain ⟨-, rfl, -⟩ := Prod.mk.inj h
    exact fun b hb hbs => hq b hb (by omega)

section

variable {P : Pmm → PageTable → Prop}
  (hstep : ∀ {pm t p pm' t'}, cowFault pm t p = some (pm', t') → P pm t → P pm' t') (hP : P pm t)
include hstep hP

theorem userOkFrom_run : P (userOkFrom stop write pm t p).1 (userOkFrom stop write pm t p).2.1 := by
  fun_induction userOkFrom stop write pm t p with
  | case1 | case2 | case3 | case7 => exact hP
  | case4 pm t p hlt d l hw hel hro pm1 t1 hc hopen => exact hstep hc hP
  | case5 pm t p hlt d l hw hel hro pm1 t1 hc hopen ih => exact ih (hstep hc hP)
  | case6 pm t p hlt d l hw hel hro ih => exact ih hP

theorem vmUserOk_run (va len : Nat) :
    P (vmUserOk pm t va len write).1 (vmUserOk pm t va len write).2.1 := by
  unfold vmUserOk
  split_ifs
  · exact hP
  · exact hP
  · exact hP
  · exact userOkFrom_run hstep hP

end

theorem vmUserOk_sound (hlen : len < 2 ^ 64) (h : vmUserOk pm t va len write = (pm', t', true)) :
    (0 < len → va + len ≤ userLimit) ∧ ∀ b, va ≤ b → b < va + len → t'.Open write b := by
  unfold vmUserOk at h
  split_ifs at h with h0 hwrap hlim
  · refine ⟨fun hpos => by omega, fun b hb hbs => by omega⟩
  · cases h
  · cases h
  · have hva : va < userLimit := by omega
    have hfit : va + len ≤ userLimit := by
      simp only [userLimit] at hva hlim ⊢
      omega
    refine ⟨fun _ => hfit, fun b hb hbs => ?_⟩
    refine userOkFrom_sound h (fun c hc hcs => ?_) b (Nat.le_trans (Nat.div_mul_le_self va 4096) hb) hbs
    omega

theorem div_size_congr (l : Level) (h : a / 4096 = b / 4096) : a / l.size = b / l.size := by
  have hdiv : 4096 ∣ l.size := by cases l <;> decide
  obtain ⟨c, hc⟩ := hdiv
  rw [hc, ← Nat.div_div_eq_div_mul, ← Nat.div_div_eq_div_mul, h]

theorem userOkFrom_complete (ha : a < stop) (hopen : ∀ b, a ≤ b → b < stop → t.Open false b)
    (hp : a / 4096 ≤ p / 4096) : userOkFrom stop false pm t p = (pm, t, true) := by
  have hleaf : ∀ q, q < stop → a / 4096 ≤ q / 4096 →
      ∃ d l, t.walkToLeaf q = some (d, l) ∧ d.el0 = true := by
    intro q hq haq
    obtain ⟨d, l, hw, hel, -⟩ := hopen (max a q) (Nat.le_max_left _ _) (by omega)
    exact ⟨d, l, walkToLeaf_congr hw (div_size_congr l (by omega)), hel⟩
  fun_induction userOkFrom stop false pm t p with
  | case1 pm t p hlt hw =>
    obtain ⟨d, l, hw', -⟩ := hleaf p hlt hp
    rw [hw] at hw'
    cases hw'
  | case2 pm t p hlt d l hw hel =>
    obtain ⟨d', l', hw', hel'⟩ := hleaf p hlt hp
    obtain ⟨rfl, rfl⟩ := Prod.mk.inj (some.inj (hw.symm.trans hw'))
    rw [hel] at hel'
    cases hel'
  | case3 pm t p hlt d l hw hel hro | case4 pm t p hlt d l hw hel hro
  | case5 pm t p hlt d l hw hel hro => cases hro
  | case6 pm t p hlt d l hw hel hro ih =>
    have hlt' := Nat.mod_lt p l.size_pos
    have hdm := Nat.div_add_mod' p l.size
    exact ih hopen (by omega) hleaf
  | case7 => rfl

theorem vmUserOk_complete (hfit : va + len ≤ userLimit)
    (hopen : ∀ b, va ≤ b → b < va + len → t.Open false b) :
    vmUserOk pm t va len false = (pm, t, true) := by
  unfold vmUserOk
  unfold userLimit at hfit ⊢
  split_ifs with h0 hwrap hlim
  · rfl
  · omega
  · omega
  · exact userOkFrom_complete (by omega) hopen (by omega)

/-! ## The string -/

/-- The byte the program reads at `b`; `none` is a fault. -/
def observe (pm : Pmm) (t : PageTable) (b : Nat) : Option Nat :=
  match t.walkToLeaf b with
  | none => none
  | some (d, l) => if d.el0 then some (pm.mem (frame d l b) (b % 4096)) else none

/-- The inner loop of `vm_user_strlen`, up to `stop` or up to `max` bytes of string: where it ended,
and whether at a zero. `none` is a fault of the kernel's. -/
def scan (byte : Nat → Option Nat) (va stop max i : Nat) : Option (Nat × Bool) :=
  if va + i < stop ∧ i < max then
    match byte (va + i) with
    | none => none
    | some v => if v = 0 then some (i, true) else scan byte va stop max (i + 1)
  else some (i, false)
  termination_by max - i

theorem le_scan {z : Bool} (h : scan byte va stop max i = some (j, z)) : i ≤ j := by
  fun_induction scan byte va stop max i with
  | case1 => cases h
  | case2 => exact Nat.le_of_eq (Prod.mk.inj (some.inj h)).1
  | case3 i _ _ _ _ ih => exact Nat.le_of_succ_le (ih h)
  | case4 => exact Nat.le_of_eq (Prod.mk.inj (some.inj h)).1

theorem lt_scan (hstop : va + i < stop) (hmax : i < max)
    (h : scan byte va stop max i = some (j, false)) : i < j := by
  rw [scan, if_pos ⟨hstop, hmax⟩] at h
  split at h
  · cases h
  · split_ifs at h
    · cases h
    · exact le_scan h

/-- The outer loop of `vm_user_strlen` from `i` on. -/
def strlenFrom (pm : Pmm) (t : PageTable) (va max i : Nat) : Option (Option Nat) :=
  if _ : i < max then
    let page := (va + i) / 4096 * 4096
    if (vmUserOk pm t page 1 false).2.2 then
      match _ : scan (observe pm t) va (page + 4096) max i with
      | none => none
      | some (j, true) => some (some j)
      | some (j, false) => strlenFrom pm t va max j
    else some none
  else some none
  termination_by max - i
  decreasing_by
    have hstop : va + i < (va + i) / 4096 * 4096 + 4096 := by omega
    have := lt_scan hstop ‹i < max› ‹_›
    omega

/-- `vm_user_strlen`: the length of the string, or none; a fault is outside that. -/
def vmUserStrlen (pm : Pmm) (t : PageTable) (va max : Nat) : Option (Option Nat) :=
  if userLimit ≤ va then some none else strlenFrom pm t va max 0

theorem observe_of_open (pm : Pmm) (h : t.Open write b) : ∃ v, observe pm t b = some v := by
  obtain ⟨d, l, hw, hel, -⟩ := h
  exact ⟨pm.mem (frame d l b) (b % 4096), by simp only [observe, hw, hel, if_true]⟩

theorem userOkFrom_read : ∃ ok, userOkFrom stop false pm t p = (pm, t, ok) := by
  fun_induction userOkFrom stop false pm t p with
  | case1 | case2 => exact ⟨false, rfl⟩
  | case3 pm t p hlt d l hw hel hro | case4 pm t p hlt d l hw hel hro
  | case5 pm t p hlt d l hw hel hro => cases hro
  | case6 pm t p hlt d l hw hel hro ih => exact ih
  | case7 => exact ⟨true, rfl⟩

theorem vmUserOk_read (pm : Pmm) (t : PageTable) (va len : Nat) :
    ∃ ok, vmUserOk pm t va len false = (pm, t, ok) := by
  unfold vmUserOk
  split_ifs
  · exact ⟨true, rfl⟩
  · exact ⟨false, rfl⟩
  · exact ⟨false, rfl⟩
  · exact userOkFrom_read

theorem open_of_page (h : (vmUserOk pm t (a / 4096 * 4096) 1 false).2.2 = true)
    (hb : b / 4096 = a / 4096) : t.Open false b ∧ b < userLimit := by
  obtain ⟨ok, hok⟩ := vmUserOk_read pm t (a / 4096 * 4096) 1
  rw [hok] at h
  obtain rfl : ok = true := h
  obtain ⟨hfit, hopen⟩ := vmUserOk_sound (by decide) hok
  obtain ⟨d, l, hw, hel, -⟩ := hopen _ (Nat.le_refl _) (Nat.lt_succ_self _)
  have hpage : b / 4096 = a / 4096 * 4096 / 4096 := by omega
  refine ⟨⟨d, l, walkToLeaf_congr hw (div_size_congr l hpage.symm), hel, fun hf => by cases hf⟩, ?_⟩
  have := hfit (by decide)
  simp only [userLimit] at this ⊢
  omega

/-- Bytes `i` up to `j` of the string at `va` are the program's, and none of them ends it. -/
def Text (pm : Pmm) (t : PageTable) (va i j : Nat) : Prop :=
  ∀ m, i ≤ m → m < j → t.Open false (va + m) ∧ va + m < userLimit ∧
    ∃ v, v ≠ 0 ∧ observe pm t (va + m) = some v

/-- Byte `n` ends the string. -/
def Terminated (pm : Pmm) (t : PageTable) (va n : Nat) : Prop :=
  t.Open false (va + n) ∧ va + n < userLimit ∧ observe pm t (va + n) = some 0

/-- The inner loop over bytes that may be read. -/
theorem scan_spec (pm : Pmm) (max : Nat)
    (hopen : ∀ m, i ≤ m → va + m < stop → t.Open false (va + m) ∧ va + m < userLimit) :
    ∃ j z, scan (observe pm t) va stop max i = some (j, z) ∧ Text pm t va i j ∧
      (z = true → j < max ∧ Terminated pm t va j) := by
  fun_induction scan (observe pm t) va stop max i with
  | case1 i hi hv =>
    obtain ⟨v, hw⟩ := observe_of_open pm (hopen i (Nat.le_refl _) hi.1).1
    rw [hv] at hw
    cases hw
  | case2 i hi hv =>
    obtain ⟨ho, hl⟩ := hopen i (Nat.le_refl _) hi.1
    exact ⟨i, true, rfl, fun m hm hmj => by omega, fun _ => ⟨hi.2, ho, hl, hv⟩⟩
  | case3 i hi v hv hne ih =>
    obtain ⟨j, z, hj, htext, hend⟩ := ih (fun m hm hs => hopen m (by omega) hs)
    refine ⟨j, z, hj, fun m hm hmj => ?_, hend⟩
    rcases Nat.eq_or_lt_of_le hm with rfl | hlt
    · obtain ⟨ho, hl⟩ := hopen i (Nat.le_refl _) hi.1
      exact ⟨ho, hl, v, hne, hv⟩
    · exact htext m hlt hmj
  | case4 i hi => exact ⟨i, false, rfl, fun m hm hmj => by omega, fun hf => by cases hf⟩

theorem strlenFrom_spec (htext : Text pm t va 0 i) : ∃ r, strlenFrom pm t va max i = some r ∧
      ∀ n, r = some n → n < max ∧ Text pm t va 0 n ∧ Terminated pm t va n := by
  induction hk : max - i using Nat.strong_induction_on generalizing i with
  | _ k ih =>
    rw [strlenFrom]
    by_cases hi : i < max
    · rw [dif_pos hi]
      dsimp only
      split
      · next hok =>
        have hopen : ∀ m, i ≤ m → va + m < (va + i) / 4096 * 4096 + 4096 →
            t.Open false (va + m) ∧ va + m < userLimit :=
          fun m hm hs => open_of_page hok (by omega)
        obtain ⟨j, z, hj, hnew, hend⟩ := scan_spec pm max hopen
        have hlong : Text pm t va 0 j := by
          intro m h0 hmj
          by_cases hmi : m < i
          · exact htext m h0 hmi
          · exact hnew m (Nat.le_of_not_lt hmi) hmj
        split
        · next hs => rw [hj] at hs; cases hs
        · next j' hs =>
          obtain ⟨rfl, rfl⟩ := Prod.mk.inj (some.inj (hj.symm.trans hs))
          refine ⟨some j, rfl, fun n hn => ?_⟩
          obtain rfl := some.inj hn
          exact ⟨(hend rfl).1, hlong, (hend rfl).2⟩
        · next j' hs =>
          obtain ⟨rfl, rfl⟩ := Prod.mk.inj (some.inj (hj.symm.trans hs))
          have hlt := lt_scan (by omega) hi hj
          exact ih _ (by omega) hlong rfl
      · exact ⟨none, rfl, fun n hn => by cases hn⟩
    · rw [dif_neg hi]
      exact ⟨none, rfl, fun n hn => by cases hn⟩

theorem vmUserStrlen_spec (pm : Pmm) (t : PageTable) (va max : Nat) :
    ∃ r, vmUserStrlen pm t va max = some r ∧
      ∀ n, r = some n → n < max ∧ Text pm t va 0 n ∧ Terminated pm t va n := by
  unfold vmUserStrlen
  split_ifs
  · exact ⟨none, rfl, fun n hn => by cases hn⟩
  · exact strlenFrom_spec fun m _ hm => by omega

end PageTable

end Verkos.Stam
