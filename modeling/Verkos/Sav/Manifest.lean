import Verkos.Sav.Layout
import Verkos.Sav.Note
import Verkos.Sav.Segment

/-!
# The manifest against the calls a program makes

savc records in the manifest every system call the checker saw a need for, and stam refuses any
other. The code that is emitted makes its calls in the program's own functions, where each was
recorded, in the entry code, and in pieces the compiler adds. One of those pieces, the report of a
failed range check, writes to standard error, and nothing records that: an index out of range in a
program that never writes reaches a `svc` its manifest does not list.

The code buffer has four parts: the entry code and the functions, the report of a failed assertion,
the two helpers that only touch memory, and the report of a failed range check. Control stays in
the first and third unless a call goes to one of the reports. So a run that takes no failing range
check, or whose manifest lists the write, makes recorded calls only.
-/

namespace Verkos.Sav

open Verkos.Lib (Emit)
open Option (some.injEq some.inj map_eq_some_iff any_eq_true)

/-! ## `svc` and the instruction before it -/

variable {S' : List Nat} {l t pc : Nat} {i : Instr} {m m' : Machine} {it : Item} {s' : GState}
  {u : TUnit} {contracts : Bool}

theorem SvcAfter.mono {S : List Nat} (hS : S ⊆ S') {l : List Item} :
    ∀ {prev : Option Item}, SvcAfter S prev l → SvcAfter S' prev l := by
  induction l with
  | nil => exact fun _ => trivial
  | cons it its ih =>
    intro prev h
    refine ⟨fun he => ?_, ih h.2⟩
    obtain ⟨q, hq, n, hn, hmem⟩ := h.1 he
    exact ⟨q, hq, n, hn, hS hmem⟩

theorem SvcOk.mono {S : List Nat} (hS : S ⊆ S') {l : List Item} (h : SvcOk S l) : SvcOk S' l :=
  fun prev => (h prev).mono hS

/-- A `svc` is the second of two instructions, the first of which loads its number. -/
theorem SvcAfter.before {S : List Nat} {l : List Item} :
    ∀ {prev : Option Item} {k : Nat}, SvcAfter S prev l → (coded l)[k]? = some (.ins .svc) →
        (k = 0 ∧ ∃ q, prev = some q ∧ q.LoadsCall S) ∨
          ∃ j it, k = j + 1 ∧ (coded l)[j]? = some it ∧ it.LoadsCall S := by
  induction l with
  | nil =>
    intro prev k _ hk
    simp at hk
  | cons it its ih =>
    intro prev k h hk
    cases hc : it.isCode with
    | false =>
      cases it <;> cases hc
      rcases ih h.2 hk with ⟨rfl, q, hq, hl⟩ | hlater
      · cases hq
        obtain ⟨n, hn, -⟩ := hl
        cases hn
      · exact .inr hlater
    | true =>
      rw [coded_cons hc] at hk ⊢
      cases k with
      | zero =>
        simp only [List.getElem?_cons_zero, some.injEq] at hk
        exact .inl ⟨rfl, h.1 hk⟩
      | succ k =>
        rw [List.getElem?_cons_succ] at hk
        rcases ih h.2 hk with ⟨rfl, q, hq, hl⟩ | ⟨j, it', rfl, hj, hl⟩
        · cases hq
          exact .inr ⟨0, it, rfl, rfl, hl⟩
        · exact .inr ⟨j + 1, it', rfl, by simpa using hj, hl⟩

theorem SvcOk.before {S : List Nat} {l : List Item} {k : Nat} (h : SvcOk S l)
    (hk : (coded l)[k]? = some (.ins .svc)) :
    ∃ j it, k = j + 1 ∧ (coded l)[j]? = some it ∧ it.LoadsCall S := by
  rcases (h none).before hk with ⟨-, q, hq, -⟩ | hb
  · cases hq
  · exact hb

theorem SvcOk.not_at_label {S : List Nat} {its : List Item} (h : SvcOk S its)
    (ht : labelPos l its = some t) : (coded its)[t]? ≠ some (.ins .svc) := by
  intro hk
  obtain ⟨p, q, rfl, rfl, -⟩ := labelPos_split ht
  have hq : SvcAfter S (some (.place l)) q := by
    have hcut : ∀ {a b : List Item} {prev : Option Item}, SvcAfter S prev (a ++ Item.place l :: b) →
        SvcAfter S (some (.place l)) b := by
      intro a
      induction a with
      | nil => exact fun ha => ha.2
      | cons it a ih => exact fun ha => ih ha.2
    exact hcut (h none)
  rw [coded_append, coded_place, List.getElem?_append_right le_rfl, Nat.sub_self] at hk
  rcases hq.before hk with ⟨-, q', hq', n, hn, -⟩ | ⟨j, it, hj, -⟩
  · cases hq'
    cases hn
  · omega

/-! ## What one instruction does to control -/

namespace Machine

@[simp] theorem set_pc (m : Machine) (r : Reg) (v : Word) : (m.set r v).pc = m.pc := by
  unfold Machine.set
  split <;> rfl

@[simp] theorem setSp_pc (m : Machine) (r : Reg) (v : Word) : (m.setSp r v).pc = m.pc := by
  unfold Machine.setSp
  split <;> rfl

@[simp] theorem flags_pc (m : Machine) (a b : Word) : (m.flags a b).pc = m.pc := rfl

@[simp] theorem next_x (m : Machine) : m.next.x = m.x := rfl

theorem set_x_self {r : Reg} (h : r ≠ 31) (m : Machine) (v : Word) : (m.set r v).x r = v := by
  simp [Machine.set, h]

@[simp] theorem next_pc (m : Machine) : m.next.pc = m.pc + 1 := rfl

end Machine

theorem exec_falls {r : Reply} (hi : i.isPlain = true ∨ i = .svc)
    (h : exec i r m = some m') : m'.pc = m.pc + 1 := by
  rcases hi with hi | rfl
  · cases i <;> first
      | (simp only [exec, some.injEq] at h; subst h; simp)
      | simp [Instr.isPlain] at hi
  · cases h
    rfl

/-- The kinds of step an image can take, told by the item behind the instruction. -/
inductive Moves (its : List Item) (m : Machine) (it : Item) (m' : Machine) : Prop
  | falls (h : it ≠ .ins .ret) (hb : it ≠ .ins (.b 0)) (hpc : m'.pc = m.pc + 1)
      (hx : ∀ n, it = .ins (.movz X8 n 0) → m'.x X8 = n.zeroExtend 64)
  | branches {l : Nat} (h : it.target = some l) (hl : labelPos l its = some m'.pc)
  | calls {l : Nat} (h : it = .bl l) (hl : labelPos l its = some m'.pc)
  | returns (h : it = .ins .ret) (hr : indexOf (m.get X30) = some m'.pc)
  | stays (h : it = .ins (.b 0)) (hpc : m'.pc = m.pc)

variable {taken : Bool} {α : Type} {x : GenM α} {s : GState} {rets : List Nat} {n : Nat} {off : Int}
  {ok : Machine → List Nat → Machine → Prop}

theorem Machine.branch_moves
    (h : m.branch taken ((t : Int) - m.pc) = some m') : m'.pc = t ∨ m'.pc = m.pc + 1 := by
  unfold Machine.branch at h
  split at h
  · rw [Machine.jump_to] at h
    cases h
    exact .inl rfl
  · cases h
    exact .inr rfl

section Steps

variable {its : List Item} {code : List Instr}

theorem step_moves (hr : resolve its = some code) (hd : DisplacementsFit its)
    (hraw : ∀ i, .ins i ∈ its → i.isBranch = true → i = .b 0) {r : Reply}
    (h : step code r m = some m') :
    ∃ i it, code[m.pc]? = some i ∧ (coded its)[m.pc]? = some it ∧ Moves its m it m' ∧
      (∀ off, i = .bl off → ∃ l, it = .bl l) := by
  unfold step at h
  cases hi : code[m.pc]? with
  | none => simp [hi] at h
  | some i =>
    rw [hi] at h
    dsimp only at h
    obtain ⟨it, hit, hres⟩ := resolve_get hr hi
    have hmem : it ∈ its := mem_coded (List.mem_of_getElem? hit)
    refine ⟨i, it, rfl, hit, ?_, ?_⟩
    · cases it with
      | place => cases hres
      | ins j =>
        obtain rfl : j = i := by simpa [resolveItem] using hres
        by_cases hb : j.isBranch = true
        · obtain rfl := hraw j hmem hb
          refine .stays rfl ?_
          simp only [exec, Machine.jump] at h
          split at h
          · cases h
            simp
          · cases h
        · by_cases hret : j = .ret
          · subst hret
            refine .returns rfl ?_
            simp only [exec] at h
            split at h
            · rename_i pc hpc
              cases h
              exact hpc
            · cases h
          · refine .falls (by simpa using hret) (fun he => ?_) (exec_falls ?_ h) fun n hn => ?_
            · cases he
              exact hb rfl
            · cases j <;> first | exact .inl rfl | exact .inr rfl | exact (hb rfl).elim | exact (hret rfl).elim
            · cases hn
              cases h
              rw [Machine.next_x, Machine.set_x_self (by decide)]
              simp
      | b l =>
        obtain ⟨t, hl, ht⟩ := map_eq_some_iff.1 hres
        cases ht
        rw [hd _ _ l 26 t hit rfl hl] at h
        simp only [exec, Machine.jump_to] at h
        cases h
        exact .branches rfl hl
      | bl l =>
        obtain ⟨t, hl, ht⟩ := map_eq_some_iff.1 hres
        cases ht
        rw [hd _ _ l 26 t hit rfl hl] at h
        have hpc : (m.set X30 (addrOf (m.pc + 1))).pc = m.pc := Machine.set_pc ..
        have hj := Machine.jump_to (m.set X30 (addrOf (m.pc + 1))) t
        rw [hpc] at hj
        simp only [exec, hj] at h
        cases h
        exact .calls rfl hl
      | bcond c l | cbz x l | cbnz x l =>
        obtain ⟨t, hl, ht⟩ := map_eq_some_iff.1 hres
        cases ht
        rw [hd _ _ l 19 t hit rfl hl] at h
        rcases Machine.branch_moves h with hpc | hpc
        · exact .branches rfl (by rw [hpc]; exact hl)
        · exact .falls (by simp) (by simp) hpc (by simp)
      | adrp rd s off | add12 rd s off =>
        cases hres
        exact .falls (by simp) (by simp) (exec_falls (.inl rfl) h) (by simp)
    · rintro off rfl
      cases it with
      | bl l => exact ⟨l, rfl⟩
      | ins j =>
        obtain rfl : j = .bl off := by simpa [resolveItem] using hres
        have := hraw _ hmem rfl
        cases this
      | _ => simp [resolveItem] at hres

end Steps

/-! ## The parts of the buffer -/

/-- Nothing, or a run of items control does not fall out of. -/
def Sealed (l : List Item) : Prop :=
  l = [] ∨ ∃ p i, l = p ++ [Item.ins i] ∧ (i = .ret ∨ i = .b 0)

theorem Sealed.append {a b : List Item} (ha : Sealed a) (hb : Sealed b) : Sealed (a ++ b) := by
  rcases hb with rfl | ⟨p, i, rfl, hi⟩
  · simpa using ha
  · exact .inr ⟨a ++ p, i, by simp, hi⟩

theorem Sealed.last {l : List Item} (h : Sealed l) {k : Nat}
    (hk : (coded l)[k]? = some it) (hlast : k + 1 = (coded l).length) :
    it = .ins .ret ∨ it = .ins (.b 0) := by
  rcases h with rfl | ⟨p, i, rfl, hi⟩
  · simp at hk
  · have hc : coded (p ++ [Item.ins i]) = coded p ++ [Item.ins i] := coded_append ..
    rw [hc] at hk hlast
    have hkp : k = (coded p).length := by simpa using hlast
    rw [hkp, List.getElem?_append_right le_rfl, Nat.sub_self] at hk
    cases hk
    exact hi.imp (congrArg _) (congrArg _)

theorem Sealed.label_lt {a : List Item} (h : Sealed a) (ht : labelPos l a = some t) :
    t < (coded a).length := by
  rcases h with rfl | ⟨p, i, rfl, -⟩
  · cases ht
  · exact labelPos_lt rfl ht

/-- Everything `x` appends ends where control does not go on. -/
def Stops {α : Type} (x : GenM α) : Prop :=
  ∀ s a l s', x s = .ok (a, l, s') → ∃ p i, l = p ++ [Item.ins i] ∧ (i = .ret ∨ i = .b 0)

theorem Stops.right {β : Type} {f : α → GenM β} (hf : ∀ a, Stops (f a)) : Stops (x >>= f) := by
  intro s b l s' h
  obtain ⟨a, l₁, s1, -, l₂, h2, rfl⟩ := Emit.bind_ok.1 h
  obtain ⟨p, i, rfl, hi⟩ := hf a s1 b l₂ s' h2
  exact ⟨l₁ ++ p, i, by simp, hi⟩

theorem Stops.emit (hi : i = .ret ∨ i = .b 0) : Stops (emit i) := by
  intro s a l s' h
  obtain ⟨rfl, -⟩ := Emit.out_ok.1 h
  exact ⟨[], i, rfl, hi⟩

theorem Stops.sealed (hx : Stops x) {a : α} {l : List Item} (h : x s = .ok (a, l, s')) : Sealed l :=
  .inr (hx s a l s' h)

theorem sealed_onlyIf {c : Bool} {x : GenM Unit} (hx : Stops x) {a : Unit}
    {l : List Item} (h : Emit.onlyIf c x s = .ok (a, l, s')) : Sealed l := by
  unfold Emit.onlyIf at h
  cases c with
  | true => exact hx.sealed h
  | false =>
    obtain ⟨-, rfl, -⟩ := Emit.pure_ok.1 h
    exact .inl rfl

theorem stops_genFn (E : Env) (k : Nat) : Stops (genFn E k) := by
  unfold genFn
  iterate 9 refine .right fun _ => ?_
  unfold genEpilogue
  iterate 2 refine .right fun _ => ?_
  exact .emit (.inl rfl)

theorem sealed_genFns : ∀ {fs : List TFn} {i : Nat} {s s' : GState}
    {a : Unit} {l : List Item}, genFns u contracts i fs s = .ok (a, l, s') → Sealed l
  | [], _, _, _, _, _, h => by
    obtain ⟨-, rfl, -⟩ := Emit.pure_ok.1 h
    exact .inl rfl
  | _ :: _, _, _, _, _, _, h => by
    obtain ⟨_, l₁, s1, h1, l₂, h2, rfl⟩ := Emit.bind_ok.1 h
    exact ((stops_genFn _ _).sealed h1).append (sealed_genFns h2)

theorem stops_genStart (u : TUnit) : Stops (genStart u) := by
  unfold genStart
  iterate 7 refine .right fun _ => ?_
  exact .emit (.inr rfl)

theorem stops_genArgget (gs : List Global) : Stops (genArgget gs) := by
  unfold genArgget
  iterate 28 refine .right fun _ => ?_
  exact .emit (.inl rfl)

theorem stops_genCstr (gs : List Global) : Stops (genCstr gs) := by
  unfold genCstr
  iterate 22 refine .right fun _ => ?_
  exact .emit (.inl rfl)

/-! ### The pieces the compiler adds -/

section Runtime

variable {S : List Nat}

theorem fits_genStart {own out : List Nat} (h93 : 93 ∈ S)
    (hi : u.fns.findIdx (·.isEntry) < u.fns.length) :
    Fits S (UserCalls u.fns.length S) own out (genStart u) := by
  unfold genStart
  refine .seq (.emit rfl) <| .seq (.emitAddr _ _ _) ?_
  refine .seq (.emit rfl) <| .seq (fits_genCaps _ _) ?_
  refine .seq (.emitCall (.inl ⟨_, hi, rfl⟩)) ?_
  refine .seq (.onlyIf fun _ => fits_emitImm _ _) ?_
  exact .seq (fits_genSvc h93 (by decide)) <| .emitSelf

theorem fits_genFail (h64 : 64 ∈ S) (h93 : 93 ∈ S) :
    Fits S (fun _ => False) [lblFail] [] genFail := by
  unfold genFail
  refine .seq (.place (by simp)) <| .seq (.emit rfl) ?_
  refine .seq (.emit rfl) <| .seq (fits_emitImm _ _) ?_
  refine .seq (fits_genSvc h64 (by decide)) <| .seq (fits_emitImm _ _) ?_
  exact .seq (fits_genSvc h93 (by decide)) <| .emitSelf

theorem fits_genArgget (gs : List Global) :
    Fits S (fun _ => False) [lblArgget] [] (genArgget gs) := by
  unfold genArgget
  refine .seq (.place (by simp)) ?_
  refine .withLabel (fun k => .withLabel (fun k' => .withLabel (fun k'' => ?_)
    fun k'' => ?_) fun k' => ?_) fun k => ?_
  · refine .seq (.emitAddr _ _ _) <| .seq (.emit rfl) ?_
    refine .seq (.emit rfl) <| .seq (fits_emitImm _ _) ?_
    refine .seq (.emit rfl) <| .seq (.emitBcond (by simp)) ?_
    refine .seq (.emit rfl) <| .seq (.emitBcond (by simp)) ?_
    refine .seq (fits_emitImm _ _) <| .seq (.emit rfl) ?_
    refine .seq (.emit rfl) <| .seq (.emit rfl) ?_
    refine .seq (.emit rfl) <| .seq (fits_emitImm _ _) ?_
    refine .seq (.place (by simp)) <| .seq (.emit rfl) ?_
    refine .seq (.emit rfl) <| .seq (.emitCbz (by simp)) ?_
    refine .seq (.emit rfl) <| .seq (.emitBranch (by simp)) ?_
    refine .seq (.place (by simp)) <| .seq (fits_emitImm _ _) ?_
    refine .seq (fits_emitImm _ _) <| .seq (.place (by simp)) ?_
    exact .emitRet
  · iterate 14 refine .right fun _ => ?_
    exact .left Places.place
  · iterate 24 refine .right fun _ => ?_
    exact .left Places.place
  · iterate 22 refine .right fun _ => ?_
    exact .left Places.place

theorem fits_genCstr (gs : List Global) : Fits S (fun _ => False) [lblCstr] [] (genCstr gs) := by
  unfold genCstr
  refine .seq (.place (by simp)) ?_
  refine .withLabel (fun k => .withLabel (fun k' => ?_) fun k' => ?_) fun k => ?_
  · refine .seq (.emitAddr _ _ _) <| .seq (fits_emitImm _ _) ?_
    refine .seq (fits_emitImm _ _) <| .seq (.place (by simp)) ?_
    refine .seq (.emit rfl) <| .seq (.emitBcond (by simp)) ?_
    refine .seq (.emit rfl) <| .seq (.emitBcond (by simp)) ?_
    refine .seq (.emit rfl) <| .seq (.emit rfl) ?_
    refine .seq (.emit rfl) <| .seq (.emit rfl) ?_
    refine .seq (.emit rfl) <| .seq (.emitBranch (by simp)) ?_
    refine .seq (.place (by simp)) <| .seq (.emit rfl) ?_
    refine .seq (fits_emitImm _ _) <| .seq (.emit rfl) ?_
    exact .seq (.emit rfl) <| .emitRet
  · iterate 14 refine .right fun _ => ?_
    exact .left Places.place
  · iterate 4 refine .right fun _ => ?_
    exact .left Places.place

theorem fits_genWrite2 (h64 : 64 ∈ S) : Fits S (fun _ => True) [lblWrite2] [] genWrite2 := by
  unfold genWrite2
  refine .seq (.place (by simp)) <| .seq (.emit rfl) ?_
  refine .seq (.emit rfl) <| .seq (fits_emitImm _ _) ?_
  exact .seq (fits_genSvc h64 (by decide)) <| .emitRet

theorem fits_genNum (gs : List Global) : Fits S (fun _ => True) [lblNum] [] (genNum gs) := by
  unfold genNum
  refine .seq (.place (by simp)) ?_
  refine .withLabel (fun k => .withLabel (fun k' => .withLabel (fun k'' =>
    Fits.withLabel (fun k3 => ?_) fun k3 => ?_) fun k'' => ?_) fun k' => ?_) fun k => ?_
  · refine .seq (.emitAddr _ _ _) <| .seq (fits_emitImm _ _) ?_
    refine .seq (fits_emitImm _ _) <| .seq (.emit rfl) ?_
    refine .seq (fits_emitImm _ _) <| .seq (.emit rfl) ?_
    refine .seq (.emitBcond (by simp)) <| .seq (.emit rfl) ?_
    refine .seq (fits_emitImm _ _) <| .seq (.place (by simp)) ?_
    refine .seq (.emitCbz (by simp)) <| .seq (fits_emitImm _ _) ?_
    refine .seq (.place (by simp)) <| .seq (.emitCbz (by simp)) ?_
    iterate 7 refine .seq (.emit rfl) ?_
    refine .seq (.emitBranch (by simp)) ?_
    refine .seq (.place (by simp)) <| .seq (.emit rfl) ?_
    refine .seq (.emit rfl) <| .seq (fits_emitImm _ _) ?_
    refine .seq (.emit rfl) <| .seq (.place (by simp)) ?_
    refine .withLabel (fun k4 => ?_) fun k4 => ?_
    · refine .seq (.emitCbz (by simp)) <| .seq (.emit rfl) ?_
      refine .seq (.emit rfl) <| .seq (fits_emitImm _ _) ?_
      refine .seq (.emit rfl) <| .seq (.place (by simp)) ?_
      refine .seq (.emit rfl) <| .seq (fits_emitImm _ _) ?_
      exact .seq (.emit rfl) <| .emitRet
    · iterate 5 refine .right fun _ => ?_
      exact .left Places.place
  · iterate 9 refine .right fun _ => ?_
    exact .left Places.place
  · iterate 23 refine .right fun _ => ?_
    exact .left Places.place
  · iterate 29 refine .right fun _ => ?_
    exact .left Places.place
  · iterate 15 refine .right fun _ => ?_
    exact .left Places.place

theorem fits_genRange (gs : List Global) (h93 : 93 ∈ S) :
    Fits S (fun _ => True) [lblRange] [] (genRange gs) := by
  have hc : ∀ k, Fits S (fun _ => True) [lblRange] [] (emitCall k) := fun k => .emitCall trivial
  unfold genRange
  refine .bind (.place (by simp)) fun _ => .bind (.addRodata _) fun _ => ?_
  refine .bind (.addRodata _) fun _ => .bind (.addRodata _) fun _ => ?_
  refine .seq (.emitAddr _ _ _) ?_
  iterate 6 refine .seq (.emit rfl) ?_
  refine .seq (hc _) <| .seq (.emitAddr _ _ _) ?_
  refine .seq (fits_emitImm _ _) <| .seq (hc _) ?_
  refine .seq (.emitAddr _ _ _) <| .seq (.emit rfl) ?_
  refine .seq (.emit rfl) <| .seq (hc _) ?_
  refine .seq (.emitAddr _ _ _) <| .seq (.emit rfl) ?_
  refine .seq (hc _) <| .seq (hc _) ?_
  refine .seq (.emitAddr _ _ _) <| .seq (fits_emitImm _ _) ?_
  refine .seq (hc _) <| .seq (.emitAddr _ _ _) ?_
  refine .seq (.emit rfl) <| .seq (.emit rfl) ?_
  refine .seq (hc _) <| .seq (.emitAddr _ _ _) ?_
  refine .seq (.emit rfl) <| .seq (hc _) ?_
  refine .seq (hc _) <| .seq (.emitAddr _ _ _) ?_
  refine .seq (fits_emitImm _ _) <| .seq (hc _) ?_
  refine .seq (fits_emitImm _ _) ?_
  exact .seq (fits_genSvc h93 (by decide)) <| .emitSelf

end Runtime

/-- The labels handed out before each part and after the last. -/
structure Marks where
  n₁ : Nat
  n₂ : Nat
  n₃ : Nat
  n₄ : Nat

/-- The buffer of a unit in its parts: the program, the report of a failed assertion, the two
helpers, and the report of a failed range check. -/
structure Parts (N : Nat) (S : List Nat) (its a f g r : List Item) (k : Marks) : Prop where
  eq : its = a ++ (f ++ (g ++ r))
  prog : Seg S (UserCalls N S) ((List.range N).map fnLabel) [] (6 + N) k.n₁ a
  fail : ∀ S', 64 ∈ S' → 93 ∈ S' → Seg S' (fun _ => False) [lblFail] [] k.n₁ k.n₂ f
  help : ∀ S', Seg S' (fun _ => False) [lblArgget, lblCstr] [] k.n₂ k.n₃ g
  range : ∀ S', 64 ∈ S' → 93 ∈ S' →
    Seg S' (fun _ => True) [lblWrite2, lblNum, lblRange] [] k.n₃ k.n₄ r
  progSealed : Sealed a
  helpSealed : Sealed g
  start : 0 < (coded a).length

/-- The helpers of a unit, each only if it is needed. -/
def IsHelp (gs : List Global) (n : Nat) (g : List Item) : Prop :=
  ∃ l₁ l₂ s s₁ s₂, g = l₁ ++ l₂ ∧ s.nlab = n ∧
    Emit.onlyIf s.needArgget (genArgget gs) s = .ok ((), l₁, s₁) ∧
    Emit.onlyIf s.needCstr (genCstr gs) s₁ = .ok ((), l₂, s₂)

theorem genItems_parts {its : List Item} {w : Unit}
    (hr : RecordedUnit u) (hi : u.fns.findIdx (·.isEntry) < u.fns.length)
    (h : genItems u contracts ⟨6 + u.fns.length, [], false, false, false⟩ = .ok (w, its, s')) :
    ∃ a f g r k, Parts u.fns.length u.sysUsed its a f g r k ∧ IsHelp u.globals k.n₂ g := by
  obtain ⟨_, l₁, s1, h1, _, h2, rfl⟩ := Emit.bind_ok.1 h
  obtain ⟨_, l₂, s2, h3, _, h4, rfl⟩ := Emit.bind_ok.1 h2
  obtain ⟨_, l₃, s3, h5, _, h6, rfl⟩ := Emit.bind_ok.1 h4
  obtain ⟨_, _, q, h7, _, h8, rfl⟩ := Emit.bind_ok.1 h6
  obtain ⟨rfl, rfl, rfl⟩ := Emit.get_ok.1 h7
  obtain ⟨_, l4, s4, h9, _, h10, rfl⟩ := Emit.bind_ok.1 h8
  obtain ⟨_, l5, s5, h11, l6, h12, rfl⟩ := Emit.bind_ok.1 h10
  have hown : ∀ j, 0 ≤ j → j < 0 + u.fns.length →
      fnLabel j ∈ (List.range u.fns.length).map fnLabel := by
    intro j _ hj
    exact List.mem_map.2 ⟨j, by simpa using hj, rfl⟩
  have hstart : Seg u.sysUsed (UserCalls u.fns.length u.sysUsed)
      ((List.range u.fns.length).map fnLabel) [] (6 + u.fns.length) s1.nlab l₁ :=
    fits_genStart hr.exit hi _ _ _ _ h1
  have hfns : Seg u.sysUsed (UserCalls u.fns.length u.sysUsed)
      ((List.range u.fns.length).map fnLabel) [] s1.nlab s2.nlab l₂ :=
    fits_genFns rfl hr.fns hown _ _ _ _ h3
  refine ⟨l₁ ++ l₂, l₃, l4 ++ l5, l6, ⟨s2.nlab, q.nlab, s5.nlab, s'.nlab⟩, ?_,
    l4, l5, q, s4, s5, rfl, rfl, h9, h11⟩
  refine ⟨by simp, hstart.append hfns, fun S' h64 h93 => fits_genFail h64 h93 _ _ _ _ h5, ?_, ?_,
    ?_, ?_, ?_⟩
  · intro S'
    have ha : Fits S' (fun _ => False) [lblArgget, lblCstr] []
        (Emit.onlyIf q.needArgget (genArgget u.globals)) :=
      Fits.onlyIf fun _ => (fits_genArgget _).weaken (by simp) (List.Subset.refl _)
    have hc : Fits S' (fun _ => False) [lblArgget, lblCstr] []
        (Emit.onlyIf q.needCstr (genCstr u.globals)) :=
      Fits.onlyIf fun _ => (fits_genCstr _).weaken (by simp) (List.Subset.refl _)
    exact (ha _ _ _ _ h9).append (hc _ _ _ _ h11)
  · intro S' h64 h93
    refine Fits.onlyIf (fun _ => ?_) _ _ _ _ h12
    refine Fits.bind ((fits_genWrite2 h64).weaken (by simp) (List.Subset.refl _)) fun _ => ?_
    refine Fits.bind ((fits_genNum _).weaken (by simp) (List.Subset.refl _)) fun _ => ?_
    exact (fits_genRange _ h93).weaken (by simp) (List.Subset.refl _)
  · exact ((stops_genStart u).sealed h1).append (sealed_genFns h3)
  · refine Sealed.append (sealed_onlyIf (stops_genArgget _) h9) ?_
    exact sealed_onlyIf (stops_genCstr _) h11
  · obtain ⟨p, i, rfl, -⟩ := stops_genStart u _ _ _ _ h1
    rw [coded_append, coded_append, coded_cons rfl]
    simp only [List.length_append, List.length_cons]
    omega

namespace Parts

variable {N : Nat} {S : List Nat} {its a f g r : List Item} {k : Marks}

/-- Where control may be: anywhere if the manifest lists the write, else in the program and in the
two helpers. -/
def Good (S : List Nat) (a f g : List Item) (pc : Nat) : Prop :=
  64 ∈ S ∨ pc < (coded a).length ∨
    ((coded a).length + (coded f).length ≤ pc ∧
      pc < (coded a).length + (coded f).length + (coded g).length)

section

variable (p : Parts N S its a f g r k)
include p

theorem svcOk (hS : S ⊆ S') (h64 : 64 ∈ S') (h93 : 93 ∈ S') : SvcOk S' its := by
  rw [p.eq]
  refine (p.prog.svc.mono hS).append ((p.fail S' h64 h93).svc.append ?_)
  exact (p.help S').svc.append (p.range S' h64 h93).svc

theorem svcOk_more : SvcOk (64 :: 93 :: S) its :=
  p.svcOk (fun n hn => by simp [hn]) (by simp) (by simp)

theorem raw (hi : .ins i ∈ its) (hb : i.isBranch = true) : i = .b 0 := by
  rw [p.eq] at hi
  simp only [List.mem_append] at hi
  rcases hi with hi | hi | hi | hi
  · exact p.prog.raw i hi hb
  · exact (p.fail [64, 93] (by simp) (by simp)).raw i hi hb
  · exact (p.help []).raw i hi hb
  · exact (p.range [64, 93] (by simp) (by simp)).raw i hi hb

theorem get_prog (h : pc < (coded a).length) : (coded its)[pc]? = (coded a)[pc]? := by
  rw [p.eq, coded_append, List.getElem?_append_left h]

theorem get_help (h : (coded a).length + (coded f).length ≤ pc)
    (h' : pc < (coded a).length + (coded f).length + (coded g).length) :
    (coded its)[pc]? = (coded g)[pc - (coded a).length - (coded f).length]? := by
  rw [p.eq, coded_append, coded_append, coded_append, List.getElem?_append_right (by omega),
    List.getElem?_append_right (by omega), List.getElem?_append_left (by omega)]

theorem good_of_place_prog (hl : .place l ∈ a) (ht : labelPos l its = some t) : Good S a f g t := by
  obtain ⟨t', ht'⟩ := labelPos_isSome hl
  rw [p.eq, labelPos_append_left _ ht'] at ht
  cases ht
  exact .inr (.inl (p.progSealed.label_lt ht'))

theorem marks : 6 + N ≤ k.n₁ ∧ k.n₁ ≤ k.n₂ ∧ k.n₂ ≤ k.n₃ :=
  ⟨p.prog.mono, (p.fail [64, 93] (by simp) (by simp)).mono, (p.help []).mono⟩

theorem label_prog (h : .place l ∈ a) : 6 ≤ l ∧ l < k.n₁ := by
  have hm := p.marks
  rcases p.prog.labels l h with hb | hb
  · omega
  · obtain ⟨j, hj, rfl⟩ := List.mem_map.1 hb
    rw [List.mem_range] at hj
    simp only [fnLabel]
    omega

theorem label_fail (h : .place l ∈ f) : l = 0 ∨ (k.n₁ ≤ l ∧ l < k.n₂) := by
  rcases (p.fail [64, 93] (by simp) (by simp)).labels l h with hb | hb
  · exact .inr hb
  · exact .inl (List.mem_singleton.1 hb)

theorem label_help (h : .place l ∈ g) : (l = 1 ∨ l = 2) ∨ (k.n₂ ≤ l ∧ l < k.n₃) := by
  rcases (p.help []).labels l h with hb | hb
  · exact .inr hb
  · exact .inl (List.mem_pair.1 hb)

theorem label_range (h : .place l ∈ r) : (3 ≤ l ∧ l ≤ 5) ∨ k.n₃ ≤ l := by
  rcases (p.range [64, 93] (by simp) (by simp)).labels l h with hb | hb
  · exact .inr hb.1
  · simp only [lblWrite2, lblNum, lblRange, List.mem_cons, List.not_mem_nil, or_false] at hb
    omega

theorem good_of_place_help (hl : .place l ∈ g) (ht : labelPos l its = some t) : Good S a f g t := by
  have hm := p.marks
  have hg := p.label_help hl
  have ha : .place l ∉ a := fun h => by
    have := p.label_prog h
    omega
  have hf : .place l ∉ f := fun h => by
    have := p.label_fail h
    omega
  obtain ⟨t', ht'⟩ := labelPos_isSome hl
  rw [p.eq, labelPos_append_right ha, labelPos_append_right hf, labelPos_append_left _ ht'] at ht
  simp only [Option.map_some, some.injEq] at ht
  have := p.helpSealed.label_lt ht'
  exact .inr (.inr ⟨by omega, by omega⟩)

theorem good_next (h : Good S a f g pc) (hit : (coded its)[pc]? = some it) (hret : it ≠ .ins .ret)
    (hb : it ≠ .ins (.b 0)) : Good S a f g (pc + 1) := by
  rcases h with h | h | ⟨h, h'⟩
  · exact .inl h
  · rw [p.get_prog h] at hit
    by_cases hlast : pc + 1 = (coded a).length
    · exact ((p.progSealed.last hit hlast).elim hret hb).elim
    · exact .inr (.inl (by omega))
  · rw [p.get_help h h'] at hit
    by_cases hlast : pc - (coded a).length - (coded f).length + 1 = (coded g).length
    · exact ((p.helpSealed.last hit hlast).elim hret hb).elim
    · exact .inr (.inr ⟨by omega, by omega⟩)

theorem good_branch (h : Good S a f g pc) (hit : (coded its)[pc]? = some it)
    (hl : it.target = some l) (ht : labelPos l its = some t) : Good S a f g t := by
  rcases h with h | h | ⟨h, h'⟩
  · exact .inl h
  · rw [p.get_prog h] at hit
    have hmem := mem_coded (List.mem_of_getElem? hit)
    rcases p.prog.targets it hmem l hl with hp | hp
    · exact p.good_of_place_prog hp ht
    · simp at hp
  · rw [p.get_help h h'] at hit
    have hmem := mem_coded (List.mem_of_getElem? hit)
    rcases (p.help []).targets it hmem l hl with hp | hp
    · exact p.good_of_place_help hp ht
    · simp at hp

theorem good_of_label (ht : labelPos l its = some t)
    (hl : l = lblArgget ∨ l = lblCstr ∨ (6 ≤ l ∧ l < 6 + N)) : Good S a f g t := by
  have hm := p.marks
  have hplace : .place l ∈ its := by
    obtain ⟨q, q', hq, -⟩ := labelPos_split ht
    rw [hq]
    simp
  rw [p.eq] at hplace
  simp only [List.mem_append] at hplace
  simp only [lblArgget, lblCstr] at hl
  rcases hplace with hp | hp | hp | hp
  · exact p.good_of_place_prog hp ht
  · have := p.label_fail hp
    omega
  · exact p.good_of_place_help hp ht
  · have := p.label_range hp
    omega

theorem good_call (h : Good S a f g pc) (hit : (coded its)[pc]? = some (.bl l))
    (hrange : l = lblRange → 64 ∈ S) (ht : labelPos l its = some t) : Good S a f g t := by
  rcases h with h | h | ⟨h, h'⟩
  · exact .inl h
  · rw [p.get_prog h] at hit
    have hmem := mem_coded (List.mem_of_getElem? hit)
    rcases p.prog.callees l hmem with ⟨j, hj, rfl⟩ | hc | hc | hc | ⟨-, h64⟩
    · refine p.good_of_label ht (.inr (.inr ?_))
      simp only [fnLabel]
      omega
    · exact p.good_of_label ht (.inl hc)
    · exact p.good_of_label ht (.inr (.inl hc))
    · exact .inl (hrange hc)
    · exact .inl h64
  · rw [p.get_help h h'] at hit
    exact ((p.help []).callees l (mem_coded (List.mem_of_getElem? hit))).elim

theorem good_svc (h93 : 93 ∈ S) (h : Good S a f g pc) (hit : (coded its)[pc]? = some (.ins .svc)) :
    ∃ j it, pc = j + 1 ∧ (coded its)[j]? = some it ∧ it.LoadsCall S := by
  rcases h with h | h | ⟨h, h'⟩
  · exact (p.svcOk (List.Subset.refl S) h h93).before hit
  · rw [p.get_prog h] at hit
    obtain ⟨j, it, rfl, hj, hl⟩ := p.prog.svc.before hit
    exact ⟨j, it, rfl, by rw [p.get_prog (by omega), hj], hl⟩
  · rw [p.get_help h h'] at hit
    obtain ⟨j, it, -, -, n, -, hn⟩ := (p.help []).svc.before hit
    simp at hn

end

end Parts

/-! ## Runs -/

/-- A program savc accepts, and what it makes of it. -/
structure Compiled where
  file : String
  unit : SavUnit
  contracts : Bool
  checked : TUnit
  items : List Item
  final : GState
  code : List Instr
  check : checkUnit file unit = .ok checked
  gen : genItems checked contracts ⟨6 + checked.fns.length, [], false, false, false⟩ =
    .ok ((), items, final)
  resolved : resolve items = some code

namespace Compiled

/-- The image `gen_unit` gives. -/
def image (c : Compiled) : Image :=
  ⟨c.code, c.final.rodata, bssSize c.checked.globals, c.checked.sysUsed, c.checked.capsUsed⟩

end Compiled

/-- The return addresses the calls of a run have left, after one more instruction. -/
def left (code : List Instr) (m : Machine) (rets : List Nat) : List Nat :=
  match code[m.pc]? with
  | some (.bl _) => (m.pc + 1) :: rets
  | _ => rets

/-- A run of an image from its entry point, whose steps are all ones `ok` admits, with the return
addresses its calls have left. Registers, memory and what the kernel answers are arbitrary. -/
inductive Run (code : List Instr) (ok : Machine → List Nat → Machine → Prop) :
    Machine → List Nat → Prop
  | start {m : Machine} : m.pc = 0 → Run code ok m []
  | step {m m' : Machine} {rets : List Nat} {r : Reply} : Run code ok m rets →
      step code r m = some m' → ok m rets m' → Run code ok m' (left code m rets)

/-- A step that leaves the code and the calls alone: a return goes where a call of the run came
from, and nothing is written over `.text`. -/
structure Keeps (code : List Instr) (m : Machine) (rets : List Nat) (m' : Machine) : Prop where
  ret : code[m.pc]? = some .ret → ∃ pc ∈ rets, indexOf (m.get X30) = some pc
  text : ∀ a : Word, textVa ≤ a.toNat → a.toNat < textVa + 4 * code.length → m'.mem a = m.mem a

/-- The steps under which the manifest covers a run: those, and a failing range check is taken only
if the manifest lists the write that reports it. -/
structure Covered (c : Compiled) (m : Machine) (rets : List Nat) (m' : Machine) : Prop
    extends Keeps c.code m rets m' where
  range : (coded c.items)[m.pc]? = some (.bl lblRange) → 64 ∈ c.image.syscalls

/-- What holds at every state of such a run. -/
structure Inv (S : List Nat) (its a f g : List Item) (m : Machine) (rets : List Nat) : Prop where
  good : Parts.Good S a f g m.pc
  svc : (coded its)[m.pc]? = some (.ins .svc) → (m.x X8).toNat ∈ S
  rets : ∀ pc ∈ rets, Parts.Good S a f g pc ∧ (coded its)[pc]? ≠ some (.ins .svc)

section Invariant

variable {N : Nat} {S : List Nat} {its a f g r : List Item} {k : Marks} {code : List Instr}

theorem Parts.no_svc_after (p : Parts N S its a f g r k)
    (hit : (coded its)[pc]? = some it) (h : ∀ n, it ≠ .ins (.movz X8 n 0)) :
    (coded its)[pc + 1]? ≠ some (.ins .svc) := by
  intro hs
  have hok := p.svcOk_more
  obtain ⟨j, it', hj, hit', n, rfl, -⟩ := hok.before hs
  obtain rfl : pc = j := by omega
  rw [hit] at hit'
  cases hit'
  exact h n rfl

theorem Inv.step (p : Parts N S its a f g r k) (h93 : 93 ∈ S) (hr : resolve its = some code)
    (hd : DisplacementsFit its) {q : Reply}
    (inv : Inv S its a f g m rets) (h : Verkos.Sav.step code q m = some m')
    (hret : code[m.pc]? = some .ret → ∃ pc ∈ rets, indexOf (m.get X30) = some pc)
    (hrange : (coded its)[m.pc]? = some (.bl lblRange) → 64 ∈ S) :
    Inv S its a f g m' (left code m rets) := by
  obtain ⟨i, it, hi, hit, hmoves, hbl⟩ := step_moves hr hd (fun i => p.raw) h
  have hok := p.svcOk_more
  -- the return addresses: only a call adds one, and behind a call there is no `svc`
  have hrets : ∀ pc ∈ left code m rets,
      Parts.Good S a f g pc ∧ (coded its)[pc]? ≠ some (.ins .svc) := by
    intro pc hpc
    unfold left at hpc
    rw [hi] at hpc
    split at hpc
    · rename_i off heq
      obtain ⟨l, rfl⟩ := hbl off (some.inj heq)
      rcases List.mem_cons.1 hpc with rfl | hpc
      · exact ⟨p.good_next inv.good hit (by simp) (by simp), p.no_svc_after hit (by simp)⟩
      · exact inv.rets pc hpc
    · exact inv.rets pc hpc
  cases hmoves with
  | falls hnr hnb hpc hx =>
    refine ⟨by rw [hpc]; exact p.good_next inv.good hit hnr hnb, fun hs => ?_, hrets⟩
    have hgood : Parts.Good S a f g (m.pc + 1) := p.good_next inv.good hit hnr hnb
    rw [hpc] at hs
    obtain ⟨j, it', hj, hit', n, rfl, hn⟩ := p.good_svc h93 hgood hs
    obtain rfl : m.pc = j := by omega
    rw [hit] at hit'
    cases hit'
    rw [hx n rfl]
    have hlt : n.toNat < 2 ^ 16 := n.isLt
    change (n.setWidth 64).toNat ∈ S
    rw [BitVec.toNat_setWidth, Nat.mod_eq_of_lt (by omega)]
    exact hn
  | branches ht hl =>
    exact ⟨p.good_branch inv.good hit ht hl, fun hs => (hok.not_at_label hl hs).elim, hrets⟩
  | calls ht hl =>
    subst ht
    refine ⟨p.good_call inv.good hit (fun he => hrange ?_) hl, fun hs =>
      (hok.not_at_label hl hs).elim, hrets⟩
    rw [hit, he]
  | returns ht hpc =>
    subst ht
    have hcode : code[m.pc]? = some .ret := resolve_ins hr hit
    obtain ⟨pc, hmem, hpc'⟩ := hret hcode
    rw [hpc] at hpc'
    cases hpc'
    exact ⟨(inv.rets _ hmem).1, fun hs => ((inv.rets _ hmem).2 hs).elim, hrets⟩
  | stays ht hpc =>
    subst ht
    refine ⟨by rw [hpc]; exact inv.good, fun hs => ?_, hrets⟩
    rw [hpc, hit] at hs
    cases hs

end Invariant

/-- In every run that stays covered, every `svc` that is reached has a number of the image's list
in `x8`, and stam lets it through. -/
theorem svc_recorded (c : Compiled) (hd : DisplacementsFit c.items) {m : Machine} {rets : List Nat}
    (h : Run c.code (Covered c) m rets) (hs : c.code[m.pc]? = some .svc) :
    (m.x X8).toNat ∈ c.image.syscalls ∧
      savAllows (readSavNote (buildNote c.image)) (m.x X8) = true := by
  have hrec := checkUnit_recorded c.check
  obtain ⟨a, f, g, r, k, p, -⟩ := genItems_parts hrec (entry_index c.check) c.gen
  have hinv : Inv c.checked.sysUsed c.items a f g m rets := by
    clear hs
    induction h with
    | start hpc =>
      refine ⟨.inr (.inl ?_), fun hs => ?_, by simp⟩
      · rw [hpc]
        exact p.start
      · rw [hpc] at hs
        obtain ⟨j, _, hj, _⟩ := p.svcOk_more.before hs
        omega
    | step _ hstep hcov ih =>
      exact Inv.step p hrec.exit c.resolved hd ih hstep hcov.ret hcov.range
  have hitem : (coded c.items)[m.pc]? = some (.ins .svc) := by
    obtain ⟨it, hit, hres⟩ := resolve_get c.resolved hs
    cases it with
    | ins j =>
      obtain rfl : j = .svc := by simpa [resolveItem] using hres
      exact hit
    | _ => simp [resolveItem] at hres
  have hmem : (m.x X8).toNat ∈ c.image.syscalls := hinv.svc hitem
  refine ⟨hmem, savAllows_of_mem ?_ (fun n hn => ?_) hmem⟩
  · have hle : c.checked.sysUsed.length ≤ knownCalls.length :=
      (hrec.nodup.subperm hrec.subset).length_le
    exact lt_of_le_of_lt hle (by decide)
  · have hk : n ∈ knownCalls := hrec.subset hn
    simp only [knownCalls, List.mem_cons, List.not_mem_nil, or_false] at hk
    omega

/-! ## Two images -/

theorem displacementsFit_of_small {its : List Item} (h : (coded its).length < 2 ^ 18) :
    DisplacementsFit its := by
  intro k it l w t hk hw ht
  obtain ⟨p, q, rfl, rfl, -⟩ := labelPos_split ht
  have hk' : k < (coded (p ++ Item.place l :: q)).length := (List.getElem?_eq_some_iff.1 hk).1
  rw [coded_append, List.length_append] at h hk'
  have hw' : w = 26 ∨ w = 19 := by
    cases it <;> simp_all [Item.disp]
  rcases hw' with rfl | rfl
  · rw [Int.bmod_eq_of_le] <;> omega
  · rw [Int.bmod_eq_of_le] <;> omega

/-- savc on a unit, as far as the image. -/
def compile (file : String) (u : SavUnit) (contracts : Bool) : Option Compiled :=
  match hc : checkUnit file u with
  | .error _ => none
  | .ok t =>
    match hg : genItems t contracts ⟨6 + t.fns.length, [], false, false, false⟩ with
    | .error _ => none
    | .ok (_, its, s) =>
      match hr : resolve its with
      | none => none
      | some code => some ⟨file, u, contracts, t, its, s, code, hc, hg, hr⟩

variable {c : Compiled}

section

variable {file : String} {u : SavUnit} (h : compile file u contracts = some c)
include h

theorem compile_unit : c.unit = u := by
  unfold compile at h
  split at h
  · cases h
  · split at h
    · cases h
    · split at h
      · cases h
      · cases h
        rfl

theorem compile_check : checkUnit file u = .ok c.checked := by
  unfold compile at h
  split at h
  · cases h
  · rename_i t hc
    split at h
    · cases h
    · split at h
      · cases h
      · cases h
        exact hc

end

/-- `n` bytes from `a` up lie above the code. -/
def above (code : List Instr) (a : Word) (n : Nat) : Bool :=
  textVa + 4 * code.length ≤ a.toNat && a.toNat + n ≤ 2 ^ 64

theorem Mem.write_below {m : Mem} {a q v : Word} (ha : a.toNat + n ≤ 2 ^ 64)
    (hq : q.toNat < a.toNat) : m.write a n v q = m q := by
  unfold Mem.write
  rw [if_neg]
  rw [BitVec.toNat_sub]
  omega

/-- A test that a step keeps the code and the calls. -/
def keeps (code : List Instr) (m : Machine) (rets : List Nat) : Bool :=
  match code[m.pc]? with
  | some .ret => rets.any fun pc => indexOf (m.get X30) = some pc
  | some (.str _ rn off sz) => above code (m.getSp rn + BitVec.ofInt 64 off) sz.bytes
  | some (.stpPre _ _ rn off) =>
    above code (m.getSp rn + BitVec.ofInt 64 off) 8 &&
      above code (m.getSp rn + BitVec.ofInt 64 off + 8) 8
  | _ => true

namespace Machine

@[simp] theorem set_mem (m : Machine) (r : Reg) (v : Word) : (m.set r v).mem = m.mem := by
  unfold Machine.set
  split <;> rfl

@[simp] theorem setSp_mem (m : Machine) (r : Reg) (v : Word) : (m.setSp r v).mem = m.mem := by
  unfold Machine.setSp
  split <;> rfl

@[simp] theorem next_mem (m : Machine) : m.next.mem = m.mem := rfl

@[simp] theorem flags_mem (m : Machine) (a b : Word) : (m.flags a b).mem = m.mem := rfl

theorem jump_mem (h : m.jump off = some m') : m'.mem = m.mem := by
  unfold Machine.jump at h
  split at h
  · cases h
    rfl
  · cases h

theorem branch_mem (h : m.branch taken off = some m') : m'.mem = m.mem := by
  unfold Machine.branch at h
  split at h
  · exact jump_mem h
  · cases h
    rfl

end Machine

theorem Keeps.of_keeps {code : List Instr}
    (hk : keeps code m rets = true) (h : step code ⟨0, m.mem⟩ m = some m') :
    Keeps code m rets m' := by
  unfold step at h
  unfold keeps at hk
  cases hi : code[m.pc]? with
  | none => simp [hi] at h
  | some i =>
    rw [hi] at h hk
    dsimp only at h hk
    -- all but the stores leave the memory as it is
    have hsame : m'.mem = m.mem → i ≠ .ret → Keeps code m rets m' := by
      intro hm hne
      exact ⟨fun he => (hne (by rw [hi] at he; exact some.inj he)).elim,
        fun a _ _ => by rw [hm]⟩
    cases i with
    | ret =>
      refine ⟨fun _ => by simpa using hk, fun a _ _ => ?_⟩
      simp only [exec] at h
      split at h <;> cases h
      rfl
    | str rt rn off sz =>
      cases h
      refine ⟨fun he => (by rw [hi] at he; cases he), fun a _ hlt => ?_⟩
      simp only [above, Bool.and_eq_true, decide_eq_true_eq] at hk
      exact Mem.write_below hk.2 (by omega)
    | stpPre rt rt2 rn off =>
      cases h
      refine ⟨fun he => (by rw [hi] at he; cases he), fun a _ hlt => ?_⟩
      simp only [above, Bool.and_eq_true, decide_eq_true_eq] at hk
      simp only [Machine.next_mem, Machine.setSp_mem]
      rw [Mem.write_below hk.2.2 (by omega), Mem.write_below hk.1.2 (by omega)]
    | b off => exact hsame (Machine.jump_mem h) (by simp)
    | bl off => exact hsame (by rw [Machine.jump_mem h, Machine.set_mem]) (by simp)
    | bcond c off | cbz rt off | cbnz rt off => exact hsame (Machine.branch_mem h) (by simp)
    | svc =>
      cases h
      exact hsame rfl (by simp)
    | _ =>
      cases h
      exact hsame (by simp) (by simp)

/-- `n` steps that keep the code and the calls, with the return addresses left on the way. The
kernel answers zero. -/
def runSteps (code : List Instr) : Nat → Machine → List Nat → Option (Machine × List Nat)
  | 0, m, rets => some (m, rets)
  | n + 1, m, rets =>
    if keeps code m rets then
      match step code ⟨0, m.mem⟩ m with
      | some m' => runSteps code n m' (left code m rets)
      | none => none
    else none

theorem Run.runSteps {code : List Instr} (hok : ∀ m rets m', Keeps code m rets m' → ok m rets m') :
    ∀ {n : Nat} {m m' : Machine} {rets rets' : List Nat}, Run code ok m rets →
      runSteps code n m rets = some (m', rets') → Run code ok m' rets'
  | 0, _, _, _, _, h, hr => by
    cases hr
    exact h
  | n + 1, m, _, _, _, h, hr => by
    rw [Verkos.Sav.runSteps] at hr
    split at hr
    · rename_i hk
      split at hr
      · rename_i m1 hm
        exact .runSteps hok (h.step hm (hok _ _ _ (Keeps.of_keeps hk hm))) hr
      · cases hr
    · cases hr

/-- The state a program starts in: everything zero but the stack pointer. -/
def atEntry : Machine :=
  ⟨fun _ => 0, 0x7f00101000, false, false, false, false, fun _ => 0, 0⟩

/-- `entry fn main() -> i64` whose body is the given statements. -/
def mainOf (body : List Stmt) : SavUnit :=
  ⟨[⟨"main", ⟨1, 7⟩, "a.sav", [], .i64, none, [], [], .block body, true⟩], []⟩

/-- `entry fn main() -> i64 { var a: [1]i64; var i: i64 = 5; return a[i]; }` -/
def outOfRange : SavUnit :=
  mainOf [
    .letS ⟨1, 26⟩ true "a" (.typed (.array .i64 1) none),
    .letS ⟨1, 41⟩ true "i" (.typed .i64 (some (.int ⟨1, 54⟩ 5))),
    .ret ⟨1, 57⟩ (some (.index ⟨1, 64⟩ (.var ⟨1, 64⟩ "a") (.var ⟨1, 66⟩ "i")))]

/-- What is seen at the state `n` steps from the entry: whether it is a `svc`, with which number,
and whether stam would let it through. -/
def svcAfterSteps (c : Compiled) (n : Nat) : Option (Bool × Word × Bool × Bool) :=
  (runSteps c.code n atEntry []).map fun (m, _) =>
    (c.code[m.pc]? = some .svc, m.x X8, (m.x X8).toNat ∈ c.image.syscalls,
      savAllows (readSavNote (buildNote c.image)) (m.x X8))

theorem svcAfterSteps_run (hok : ∀ m rets m', Keeps c.code m rets m' → ok m rets m') {x : Word}
    {listed allowed : Bool} (h : svcAfterSteps c n = some (true, x, listed, allowed)) :
    ∃ m rets, Run c.code ok m rets ∧ c.code[m.pc]? = some .svc ∧
      decide ((m.x X8).toNat ∈ c.image.syscalls) = listed ∧
      savAllows (readSavNote (buildNote c.image)) (m.x X8) = allowed := by
  obtain ⟨⟨m, rets⟩, hrun, hm⟩ := map_eq_some_iff.1 h
  simp only [Prod.mk.injEq, decide_eq_true_eq] at hm
  exact ⟨m, rets, .runSteps hok (.start rfl) hrun, hm.1, hm.2.2.1, hm.2.2.2⟩

/-- An index out of range in a program that never writes: the report's first `svc` asks for a call
the manifest does not list, and stam refuses it. -/
theorem outOfRange_refused : ∃ c : Compiled, c.unit = outOfRange ∧ DisplacementsFit c.items ∧
    ∃ m rets, Run c.code (Keeps c.code) m rets ∧ c.code[m.pc]? = some .svc ∧
      (m.x X8).toNat ∉ c.image.syscalls ∧
      savAllows (readSavNote (buildNote c.image)) (m.x X8) = false := by
  have hc : (compile "a.sav" outOfRange true).any (fun c => (coded c.items).length < 2 ^ 18 &&
      svcAfterSteps c 42 == some (true, 64, false, false)) = true := by
    decide +kernel
  obtain ⟨c, hcomp, hc⟩ := (any_eq_true _ _).1 hc
  simp only [Bool.and_eq_true, decide_eq_true_eq, beq_iff_eq] at hc
  obtain ⟨m, rets, hrun, hsvc, hmem, hall⟩ := svcAfterSteps_run (fun _ _ _ h => h) hc.2
  exact ⟨c, compile_unit hcomp, displacementsFit_of_small hc.1, m, rets, hrun, hsvc,
    by simpa using hmem, hall⟩

/-- `entry fn main() -> i64 { return 5; }` makes its one call, and stam allows it. -/
theorem svc_recorded_exit : ∃ c : Compiled, DisplacementsFit c.items ∧
    ∃ m rets, Run c.code (Covered c) m rets ∧ c.code[m.pc]? = some .svc ∧
      ((m.x X8).toNat ∈ c.image.syscalls ∧
        savAllows (readSavNote (buildNote c.image)) (m.x X8) = true) := by
  have hc : (compile "a.sav" (mainOf [.ret ⟨1, 26⟩ (some (.int ⟨1, 33⟩ 5))]) true).any (fun c =>
      (coded c.items).length < 2 ^ 18 && !(coded c.items).contains (.bl lblRange) &&
        svcAfterSteps c 12 == some (true, 93, true, true)) = true := by
    decide +kernel
  obtain ⟨c, -, hc⟩ := (any_eq_true _ _).1 hc
  simp only [Bool.and_eq_true, decide_eq_true_eq, beq_iff_eq, Bool.not_eq_true',
    List.contains_eq_mem, decide_eq_false_iff_not] at hc
  have hok : ∀ m rets m', Keeps c.code m rets m' → Covered c m rets m' := fun m rets m' h =>
    ⟨h, fun hit => (hc.1.2 (List.mem_of_getElem? hit)).elim⟩
  obtain ⟨m, rets, hrun, hsvc, -, -⟩ := svcAfterSteps_run hok hc.2
  have hd := displacementsFit_of_small hc.1.1
  exact ⟨c, hd, m, rets, hrun, hsvc, svc_recorded c hd hrun hsvc⟩

end Verkos.Sav
