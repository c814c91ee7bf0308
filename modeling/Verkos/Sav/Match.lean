import Verkos.Sav.Bodies
import Verkos.Sav.Places
import Verkos.Sav.Returns

/-!
# The arm a match takes

A match reads a tag and compares it with the cases its arms name, one after another; what is left
over goes to the `else`, or to the end. The checker sees to it that no case is named twice, that an
`else` comes last, and that every case of the enum has an arm or there is an `else` (`Chosen`). So
the tests lead to the arm that names the tag, and to the `else` when none does, and the code of an
arm is left only through the end of the match, through a label of a loop around it or by returning.
-/

namespace Verkos.Sav

open Verkos.Lib (Emit Fallible)
open Verkos.Lib.Fallible (bind_ok pure_ok)
open List (append_assoc findIdx?_cons flatten_cons length_append length_cons length_map
  length_range' map_append mem_append mem_cons mem_of_getElem? mem_singleton nil_append)
open Machine (get_x goto_mem goto_pc goto_sp goto_x saved_x set_mem set_sp set_x_of_ne set_x_self
  withMem_x withSp_x)
open Lib.Emit (bind_ok out_ok)

/-! ## The matches of a function -/

variable {st st' : TStmt} {m' : Machine} {l' : List Item} {k e pc : Nat} {h : TArm} {hs : List TArm}
  {s s' : GState} {a : Unit}

theorem MatchedAll.of_mem : ∀ {ss : List TStmt}, MatchedAll ss → st ∈ ss → Matched st
  | _ :: _, h, hin => by
    rcases mem_cons.1 hin with rfl | hin
    · exact h.1
    · exact MatchedAll.of_mem h.2 hin

theorem MatchedArms.of_mem {arm : TArm × TStmt} : ∀ {arms : List (TArm × TStmt)},
    MatchedArms arms → arm ∈ arms → Matched arm.2
  | (_, _) :: _, h, hin => by
    rcases mem_cons.1 hin with rfl | hin
    · exact h.1
    · exact MatchedArms.of_mem h.2 hin

theorem Matched.part (h : Matched st) (hp : Part st' st) : Matched st' := by
  cases hp with
  | block hin => exact MatchedAll.of_mem h hin
  | ifS | whileS | forS => exact h
  | thenS => exact h.1
  | elseS => exact h.2
  | arm e off hin => exact MatchedArms.of_mem h.2 hin

theorem Matched.nested (h : Matched st) (hn : Nested st' st) : Matched st' := by
  induction hn with
  | refl => exact h
  | tail _ hp ih => exact ih (h.part hp)

/-! ## The tests -/

/-- Nothing has changed but the place, the flags and the registers `R`. -/
structure Machine.Keeps (R : List Reg) (m m' : Machine) : Prop where
  mem : m'.mem = m.mem
  sp : m'.sp = m.sp
  x : ∀ q, q ∉ R → m'.x q = m.x q

theorem Machine.Keeps.trans {R : List Reg} {m m1 : Machine} (h : m.Keeps R m1)
    (h' : m1.Keeps R m') : m.Keeps R m' :=
  ⟨h'.mem.trans h.mem, h'.sp.trans h.sp, fun q hq => (h'.x q hq).trans (h.x q hq)⟩

section Tests

variable {its pre l : List Item} {m : Machine} {P : Machine → Prop}

theorem run_compare {a b : Reg} (ha : a ≠ 31) (hb : b ≠ 31) :
    Instr.run m (.subs XZR a b) = (m.flags (m.x a) (m.x b)).goto (m.pc + 1) := by
  rw [← get_x ha, ← get_x hb]
  rfl

theorem holds_eq (m : Machine) (a b : Word) : (m.flags a b).holds .eq = decide (a = b) := by
  change (a - b == 0) = _
  rw [Bool.eq_iff_iff, beq_iff_eq, decide_eq_true_iff, sub_eq_zero]

/-- The comparison of one test. -/
def testCode (v : Word) : List Instr := immCode X2 v ++ [Instr.subs XZR X1 X2]

theorem writes_test (v : Word) : Writes (do emitImm X2 v; emit (.subs XZR X1 X2)) (testCode v) :=
  (Writes.imm _ _).bind (.emit rfl)

/-- One test: to the label when the constant is what the register holds, and on when it is not. -/
theorem test_goes {v : Word} {lab t : Nat}
    (hat : StandsAt its pre ((testCode v).map .ins ++ Item.bcond .eq lab :: l))
    (hpc : m.pc = (coded pre).length) (hlab : labelPos lab its = some t)
    (hok : ∀ m, Span pre ((testCode v).map .ins ++ [Item.bcond .eq lab]) m.pc → P m) :
    ∃ m', Path its P m m' ∧ m.Keeps [X2] m' ∧ m'.pc = if m.x X1 = v then t else
      (coded (pre ++ ((testCode v).map .ins ++ [Item.bcond .eq lab]))).length := by
  have hplain := (writes_test v).plain
  have hlen : (coded ((testCode v).map .ins)).length = (testCode v).length := by simp
  have hspan : ∀ j ≤ (testCode v).length,
      Span pre ((testCode v).map .ins ++ [Item.bcond .eq lab]) ((coded pre).length + j) := by
    intro j hj
    refine ⟨by omega, ?_⟩
    rw [coded_append, length_append, hlen, coded_cons rfl]
    simp only [coded_nil, length_cons, List.length_nil]
    omega
  obtain ⟨hpath, hend⟩ := (writes_test v).run (P := P) hat.left hpc fun j hj => hok _ (by
    rw [runCode_pc fun i hi => hplain i (List.mem_of_mem_take hi), hpc, List.length_take]
    exact hspan _ (by omega))
  have hrun : runCode (testCode v) m =
      ((m.set X2 v).flags (m.x X1) v).goto (m.pc + (testCode v).length) := by
    rw [testCode, runCode_append, run_immCode (by decide), runCode_cons, runCode_nil,
      run_compare (by decide) (by decide), goto_x, set_x_self (by decide),
      set_x_of_ne (by decide), Machine.goto_flags, Machine.goto_goto, goto_pc,
      length_append]
    rfl
  have hnext := Path.bcond (P := P) hat.right hend (hok _ (by
    rw [hend, coded_append, length_append, hlen]
    exact hspan _ le_rfl)) hlab
  refine ⟨_, hpath.trans hnext, ⟨?_, ?_, fun q hq => ?_⟩, ?_⟩
  · rw [hrun, goto_mem, goto_mem, Machine.flags_mem, set_mem]
  · rw [hrun, goto_sp, goto_sp, Machine.flags_sp, set_sp]
  · rw [hrun, goto_x, goto_x, Machine.flags_x,
      set_x_of_ne (by simpa using hq)]
  · rw [goto_pc, hend, hrun, Machine.goto_holds, holds_eq]
    by_cases hv : m.x X1 = v
    · rw [if_pos (decide_eq_true hv), if_pos hv]
    · rw [if_neg (by simpa using hv), if_neg hv]
      simp [@coded_cons (.bcond .eq lab) rfl]
      omega

theorem Span.left (h : Span pre l k) : Span pre (l ++ l') k := by
  obtain ⟨hlo, hhi⟩ := h
  refine ⟨hlo, ?_⟩
  rw [coded_append, length_append]
  omega

theorem Span.right (h : Span (pre ++ l) l' k) : Span pre (l ++ l') k := by
  obtain ⟨hlo, hhi⟩ := h
  rw [coded_append, length_append] at hlo hhi
  refine ⟨by omega, ?_⟩
  rw [coded_append, length_append]
  omega

/-- Where the tests lead: to the label of the first arm that names the case, and to `e` when there is
none. -/
structure Tested (its : List Item) (k : Nat) (hs : List TArm) (ls : List Nat) (e pc : Nat) : Prop where
  arm : ∀ j, hs.findIdx? (·.case? == some k) = some j →
    ∃ lab, ls[j]? = some lab ∧ labelPos lab its = some pc
  rest : hs.findIdx? (·.case? == some k) = none → pc = e

theorem Tested.skip {lab : Nat} {ls : List Nat}
    (hne : h.case? ≠ some k) (ht : Tested its k hs ls e pc) :
    Tested its k (h :: hs) (lab :: ls) e pc := by
  have hcase : (h.case? == some k) = false := beq_eq_false_iff_ne.2 hne
  refine ⟨fun j hj => ?_, fun hj => ?_⟩
  · rw [findIdx?_cons, hcase, if_neg Bool.false_ne_true] at hj
    obtain ⟨i, hi, rfl⟩ := Option.map_eq_some_iff.1 hj
    exact ht.arm i hi
  · rw [findIdx?_cons, hcase, if_neg Bool.false_ne_true] at hj
    exact ht.rest (Option.map_eq_none_iff.1 hj)

theorem Tested.here {lab : Nat} {ls : List Nat}
    (hc : h.case? = some k) (hlab : labelPos lab its = some pc) :
    Tested its k (h :: hs) (lab :: ls) e pc := by
  have hfirst : (h :: hs).findIdx? (·.case? == some k) = some 0 := by
    rw [findIdx?_cons, if_pos (beq_iff_eq.2 hc)]
  refine ⟨fun j hj => ?_, fun hj => ?_⟩
  · rw [hfirst] at hj
    cases hj
    exact ⟨lab, rfl, hlab⟩
  · rw [hfirst] at hj
    cases hj

theorem genTests_case {bs : List (Sym × Int × Ty)} {lab : Nat} {ls : List Nat}
    (h : genTests (.case k bs :: hs) (lab :: ls) s = .ok (a, l, s')) :
    ∃ l', l = ((testCode (BitVec.ofNat 64 k)).map .ins ++ [Item.bcond .eq lab]) ++ l' ∧
      genTests hs ls s = .ok (a, l', s') := by
  obtain ⟨_, l₁, s1, h1, _, g1, rfl⟩ := bind_ok.1 h
  obtain ⟨_, l₂, s2, h2, _, g2, rfl⟩ := bind_ok.1 g1
  obtain ⟨_, l₃, s3, h3, l4, h4, rfl⟩ := bind_ok.1 g2
  obtain ⟨rfl, rfl⟩ := out_ok.1 h1
  obtain ⟨rfl, rfl⟩ := out_ok.1 h2
  obtain ⟨rfl, rfl⟩ := out_ok.1 h3
  exact ⟨l4, by simp [testCode], h4⟩

theorem genTests_quiet : ∀ {hs : List TArm} {ls : List Nat} {l : List Item} {s s' : GState} {a : Unit},
    genTests hs ls s = .ok (a, l, s') → s' = s ∧ ∀ k, .place k ∉ l
  | [], ls, l, s, s', a, h | .otherwise :: hs, [], l, s, s', a, h
  | .case _ _ :: hs, [], l, s, s', a, h => by
    obtain ⟨-, rfl, rfl⟩ := Emit.pure_ok.1 h
    exact ⟨rfl, by simp⟩
  | .otherwise :: hs, lab :: ls, l, s, s', a, h => by
    rw [genTests] at h
    exact genTests_quiet h
  | .case k bs :: hs, lab :: ls, l, s, s', a, h => by
    have hs' : s' = s := by
      obtain ⟨_, l₁, s1, h1, _, g1, -⟩ := bind_ok.1 h
      obtain ⟨_, l₂, s2, h2, _, g2, -⟩ := bind_ok.1 g1
      obtain ⟨_, l₃, s3, h3, l4, h4, -⟩ := bind_ok.1 g2
      obtain ⟨-, rfl⟩ := out_ok.1 h1
      obtain ⟨-, rfl⟩ := out_ok.1 h2
      obtain ⟨-, rfl⟩ := out_ok.1 h3
      exact (genTests_quiet h4).1
    subst hs'
    obtain ⟨l', rfl, hrest⟩ := genTests_case h
    refine ⟨rfl, fun k' hk => ?_⟩
    rcases mem_append.1 hk with hk | hk
    · simp at hk
    · exact (genTests_quiet hrest).2 k' hk

/-- All the tests. -/
theorem tests_go (hk : k < 2 ^ 64) : ∀ {hs : List TArm} {ls : List Nat} {pre l : List Item}
    {s s' : GState} {a : Unit} {m : Machine}, genTests hs ls s = .ok (a, l, s') →
      ls.length = hs.length → StandsAt its pre l → m.pc = (coded pre).length →
      m.x X1 = BitVec.ofNat 64 k → (∀ lab ∈ ls, ∃ t, labelPos lab its = some t) →
      (∀ k' ∈ named hs, k' < 2 ^ 64) → (∀ m, Span pre l m.pc → P m) →
      ∃ m', Path its P m m' ∧ m.Keeps [X2] m' ∧
        Tested its k hs ls (coded (pre ++ l)).length m'.pc := by
  intro hs
  induction hs with
  | nil =>
    intro ls pre l s s' a m h hlen hat hpc hx hlab hlt hok
    obtain rfl := List.length_eq_zero_iff.1 hlen
    obtain ⟨-, rfl, -⟩ := Emit.pure_ok.1 h
    refine ⟨m, .refl m, ⟨rfl, rfl, fun _ _ => rfl⟩, nofun, fun _ => ?_⟩
    rw [hpc, List.append_nil]
  | cons h hs ih =>
    intro ls pre l s s' a m hg hlen hat hpc hx hlab hlt hok
    cases ls with
    | nil => cases hlen
    | cons lab ls =>
      have hlen' : ls.length = hs.length := by simpa using hlen
      have hlab' : ∀ lab ∈ ls, ∃ t, labelPos lab its = some t := fun lab hin => hlab lab (.tail _ hin)
      have hlt' : ∀ k' ∈ named hs, k' < 2 ^ 64 := fun k' hin => hlt k' (by
        obtain ⟨h', hh', hc⟩ := mem_named.1 hin
        exact mem_named.2 ⟨h', .tail _ hh', hc⟩)
      cases h with
      | otherwise =>
        obtain ⟨m', hpath, hkeep, hto⟩ := ih hg hlen' hat hpc hx hlab' hlt' hok
        exact ⟨m', hpath, hkeep, hto.skip nofun⟩
      | case k' bs =>
        obtain ⟨l', rfl, hrest⟩ := genTests_case hg
        obtain ⟨t, ht⟩ := hlab lab (.head _)
        obtain ⟨m1, hpath1, hkeep1, hto1⟩ := test_goes (P := P) hat.left hpc ht
          fun m hm => hok m hm.left
        have hbound := hlt k' (mem_named.2 ⟨_, .head _, rfl⟩)
        by_cases heq : k = k'
        · subst heq
          rw [if_pos hx] at hto1
          exact ⟨m1, hpath1, hkeep1, .here rfl (hto1 ▸ ht)⟩
        · rw [if_neg fun h => heq ((Lib.ofNat_inj hk hbound).1 (hx.symm.trans h))] at hto1
          have hx1 : m1.x X1 = BitVec.ofNat 64 k := (hkeep1.x X1 (by decide)).trans hx
          obtain ⟨m', hpath, hkeep, hto⟩ := ih hrest hlen' hat.right hto1 hx1 hlab' hlt'
            fun m hm => hok m hm.right
          rw [append_assoc] at hto
          exact ⟨m', hpath1.trans hpath, hkeep1.trans hkeep,
            hto.skip fun h => heq (Option.some.inj h).symm⟩

/-- The label behind the tests is that of the `else`. -/
theorem elseLabel_last : ∀ {hs : List TArm} {ls : List Nat} {fin j : Nat},
    (∀ p q, hs = p ++ TArm.otherwise :: q → q = []) → ls.length = hs.length →
      hs.findIdx? (·.case? == none) = some j → ls[j]? = some (elseLabel fin hs ls)
  | [], ls, fin, j, _, _, hj => by cases hj
  | .otherwise :: hs, lab :: ls, fin, j, hlast, hlen, hj => by
    obtain rfl : hs = [] := hlast [] hs rfl
    obtain rfl : ls = [] := List.length_eq_zero_iff.1 (by simpa using hlen)
    cases hj
    rfl
  | .case k bs :: hs, lab :: ls, fin, j, hlast, hlen, hj => by
    rw [findIdx?_cons] at hj
    obtain ⟨i, hi, rfl⟩ := Option.map_eq_some_iff.1 hj
    have hrest : ls[i]? = some (elseLabel fin hs ls) := elseLabel_last
      (fun p q hpq => hlast (.case k bs :: p) q (by rw [hpq]; rfl)) (by simpa using hlen) hi
    rw [elseLabel]
    exact hrest

end Tests

/-! ## The value -/

section Subject

variable {m : Machine} {off : Int}

/-- The instructions of `frame_load`. -/
def frameLoadCode (off : Int) (t : Ty) : List Instr :=
  if off ≤ 240 then loadCode X29 (-off) t else localAddrCode X16 off ++ loadCode X16 0 t

theorem writes_frameLoad (off : Int) (t : Ty) : Writes (frameLoad off t) (frameLoadCode off t) := by
  unfold frameLoad frameLoadCode
  split_ifs
  · exact writes_loadValue X29 (-off) t
  · exact (writes_localAddr X16 off).bind (writes_loadValue X16 0 t)

/-- A word in a slot, taken into `x0`. -/
theorem run_frameLoad_word (hoff : 0 ≤ off) :
    (runCode (frameLoadCode off (.ptr .u8 false)) m).x X0 =
        m.mem.load (m.x X29 - BitVec.ofInt 64 off) .w64 false ∧
      (runCode (frameLoadCode off (.ptr .u8 false)) m).mem = m.mem := by
  have hcode : ∀ (r : Reg) (o : Int), loadCode r o (.ptr .u8 false) = [ldrOff X0 r o .w64 false] :=
    fun _ _ => rfl
  unfold frameLoadCode
  split_ifs with hnear
  · have hreach : encOffset (-off) .w64 = -off :=
      encOffset_eq_iff.2 (offsetFits_iff.2 (.inr (by omega)))
    rw [hcode, runCode_cons, runCode_nil, run_ldr _ _ _ _ (by decide), hreach, BitVec.ofInt_neg,
      ← sub_eq_add_neg, goto_x, set_x_self (by decide), goto_mem,
      set_mem]
    exact ⟨rfl, rfl⟩
  · have hzero : m.x X29 - BitVec.ofInt 64 off + BitVec.ofInt 64 (encOffset 0 .w64) =
        m.x X29 - BitVec.ofInt 64 off := BitVec.add_zero _
    rw [hcode, runCode_append, run_localAddr (by decide) (by decide) hoff, runCode_cons, runCode_nil,
      run_ldr _ _ _ _ (by decide), goto_x, set_x_self (by decide), goto_mem,
      set_mem, goto_mem, set_mem, goto_x,
      set_x_self (by decide), hzero]
    exact ⟨rfl, rfl⟩

/-- The address of the value is put away and taken back. -/
def subjectCode (off : Int) : List Instr :=
  frameStoreFieldCode off 0 (.ptr .u8 false) ++ frameLoadCode off (.ptr .u8 false)

/-- `x0` into a slot, and nothing else but the saved pair. -/
theorem run_subjectStore (hoff : 0 ≤ off) :
    ∃ m', runCode (frameStoreFieldCode off 0 (.ptr .u8 false)) m = m' ∧ m'.x X0 = m.x X0 ∧
      m'.x X29 = m.x X29 ∧ m'.mem = m.pushed.write (m.x X29 - BitVec.ofInt 64 off) 8 (m.x X0) := by
  obtain ⟨m1, hl, hx, hsp, hmem, h9⟩ := run_fieldAddr (m := m.saved) 0 hoff
  have hx' : ∀ q, q ≠ X9 → q ≠ X17 → m1.x q = m.x q := fun q h h' => by
    rw [hx q h h', saved_x]
  have hkept := run_kept hl ⟨hx' _ (by decide) (by decide), hx' _ (by decide) (by decide)⟩ hsp hmem
  have hcode : storeCode X9 0 (.ptr .u8 false) = [strOff X0 X9 0 .w64] := rfl
  have hzero : m1.x X9 + BitVec.ofInt 64 (encOffset 0 .w64) = m.x X29 - BitVec.ofInt 64 off := by
    rw [h9, saved_x]
    exact (BitVec.add_zero _).trans (BitVec.add_zero _)
  refine ⟨_, rfl, ?_, ?_, ?_⟩
  all_goals rw [frameStoreFieldCode, runCode_append, hkept, hcode, runCode_cons, runCode_nil,
    run_str _ _ _ (by decide) (by decide)]
  · rw [goto_x, withMem_x, goto_x, withSp_x,
      hx' _ (by decide) (by decide)]
  · rw [goto_x, withMem_x, goto_x, withSp_x,
      hx' _ (by decide) (by decide)]
  · rw [goto_mem, Machine.withMem_mem, goto_x, withSp_x, hzero,
      hx' _ (by decide) (by decide), goto_mem, Machine.withSp_mem, hmem, Machine.saved_mem]
    rfl

theorem run_subject (hoff : 0 ≤ off) : (runCode (subjectCode off) m).x X0 = m.x X0 ∧
    ∀ q, ¬Kept m q → (∀ i < 8, q ≠ m.x X29 - BitVec.ofInt 64 off + BitVec.ofNat 64 i) →
      (runCode (subjectCode off) m).mem q = m.mem q := by
  obtain ⟨m', hstore, -, h29, hmem⟩ := @run_subjectStore m off hoff
  obtain ⟨hx, hsame⟩ := @run_frameLoad_word m' off hoff
  rw [subjectCode, runCode_append, hstore]
  refine ⟨?_, fun q hq hslot => ?_⟩
  · rw [hx, h29, hmem, Mem.load_write]
  · rw [hsame, hmem, Mem.write_of_apart hslot, pushed_of_not_kept hq]

end Subject

/-! ## The arms -/

/-- One arm. -/
def genArm (E : Env) (brk cnt : Nat) (off : Int) (fin : Nat) (arm : TArm × TStmt) (lab : Nat) :
    GenM Unit := do
  place lab
  genArmHead off arm.1
  genStmt E brk cnt arm.2
  emitBranch fin

/-- The code of the arms, one after another, and which labels stand in front of each. -/
structure Pieces (E : Env) (brk cnt : Nat) (off : Int) (fin : Nat) (arms : List (TArm × TStmt))
    (ls : List Nat) (n : Nat) (las : List (List Item)) : Prop where
  length : las.length = arms.length
  arm : ∀ j arm lab, arms[j]? = some arm → ls[j]? = some lab → ∃ la s s', las[j]? = some la ∧
    genArm E brk cnt off fin arm lab s = .ok ((), la, s') ∧ n ≤ s.nlab ∧
    ∀ k, .place k ∈ (las.take j).flatten → k ∈ ls.take j ∨ (n ≤ k ∧ k < s.nlab)
  labels : ∀ k, .place k ∈ las.flatten → k ∈ ls ∨ n ≤ k

section Arms

variable {E : Env} {S : List Nat} {N : Nat} {its : List Item} {brk cnt fin : Nat} {off : Int}

theorem genArms_pieces (hN : E.unit.fns.length = N) (he : ∀ k ∈ E.fn.ens, Recorded S k.expr)
    (h64 : E.fn.ens ≠ [] → 64 ∈ S) : ∀ {arms : List (TArm × TStmt)} {ls : List Nat} {l : List Item}
      {s s' : GState} {a : Unit}, genArms E brk cnt off fin arms ls s = .ok (a, l, s') →
      ls.length = arms.length → RecordedArms S True arms →
      ∃ las, l = las.flatten ∧ Pieces E brk cnt off fin arms ls s.nlab las
  | [], ls, l, s, s', a, h, hlen, hr => by
    obtain rfl := List.length_eq_zero_iff.1 hlen
    obtain ⟨-, rfl, -⟩ := Emit.pure_ok.1 h
    exact ⟨[], rfl, rfl, nofun, by simp⟩
  | (hd, b) :: arms, lab :: ls, l, s, s', a, h, hlen, hr => by
    obtain ⟨_, l₁, s1, h1, _, g1, rfl⟩ := bind_ok.1 h
    obtain ⟨_, l₂, s2, h2, _, g2, rfl⟩ := bind_ok.1 g1
    obtain ⟨_, l₃, s3, h3, _, g3, rfl⟩ := bind_ok.1 g2
    obtain ⟨_, l4, s4, h4, l5, h5, rfl⟩ := bind_ok.1 g3
    have hgen : genArm E brk cnt off fin (hd, b) lab s = .ok ((), l₁ ++ (l₂ ++ (l₃ ++ l4)), s4) :=
      bind_ok.2 ⟨_, l₁, s1, h1, _, bind_ok.2 ⟨_, l₂, s2, h2, _,
        bind_ok.2 ⟨_, l₃, s3, h3, l4, h4, rfl⟩, rfl⟩, rfl⟩
    have hseg : Seg S (UserCalls N S) [lab] [fin, brk, cnt] s.nlab s4.nlab
        (l₁ ++ (l₂ ++ (l₃ ++ l4))) := by
      refine (Fits.bind (Fits.place (.head _)) fun _ => Fits.bind (fits_genArmHead _ _) fun _ =>
        Fits.bind (fits_genStmt hN he h64 hr.1 (by simp)) fun _ => Fits.emitBranch (.head _))
          _ _ _ _ hgen
    have hmono := hseg.mono
    obtain ⟨las, rfl, hp⟩ := genArms_pieces hN he h64 h5 (by simpa using hlen) hr.2
    refine ⟨(l₁ ++ (l₂ ++ (l₃ ++ l4))) :: las, by simp, ?_, fun j arm lab' hj hl => ?_, fun k hk => ?_⟩
    · rw [length_cons, length_cons, hp.length]
    · cases j with
      | zero =>
        cases hj
        cases hl
        exact ⟨_, s, s4, rfl, hgen, le_rfl, by simp⟩
      | succ j =>
        obtain ⟨la, s6, s7, hla, hg, hn, hlab⟩ := hp.arm j arm lab' hj hl
        refine ⟨la, s6, s7, hla, hg, by omega, fun k hk => ?_⟩
        rw [List.take_succ_cons, flatten_cons, mem_append] at hk
        rw [List.take_succ_cons, mem_cons]
        rcases hk with hk | hk
        · rcases hseg.labels k hk with hb | hb
          · exact .inr (by omega)
          · exact .inl (.inl (mem_singleton.1 hb))
        · rcases hlab k hk with hb | hb
          · exact .inl (.inr hb)
          · exact .inr (by omega)
    · rw [flatten_cons, mem_append] at hk
      rw [mem_cons]
      rcases hk with hk | hk
      · rcases hseg.labels k hk with hb | hb
        · exact .inr hb.1
        · exact .inl (.inl (mem_singleton.1 hb))
      · rcases hp.labels k hk with hb | hb
        · exact .inl (.inr hb)
        · exact .inr (by omega)

theorem RecordedArms.of_mem {arm : TArm × TStmt} : ∀ {arms : List (TArm × TStmt)},
    RecordedArms S True arms → arm ∈ arms → RecordedStmt S True arm.2
  | (h, b) :: arms, hr, hin => by
    rcases mem_cons.1 hin with rfl | hin
    · exact hr.1
    · exact RecordedArms.of_mem hr.2 hin

theorem flatten_at {α : Type} {ls : List (List α)} {j : Nat} {l : List α} (h : ls[j]? = some l) :
    ls.flatten = (ls.take j).flatten ++ (l ++ (ls.drop (j + 1)).flatten) := by
  obtain ⟨hj, rfl⟩ := List.getElem?_eq_some_iff.1 h
  conv_lhs => rw [← List.take_append_drop j ls, List.drop_eq_getElem_cons hj]
  rw [List.flatten_append, flatten_cons]

variable {arms : List (TArm × TStmt)} {ls : List Nat} {n j lab : Nat} {las : List (List Item)}
  {pre : List Item} {arm : TArm × TStmt}

/-- The code of an arm is at its label, and is left only to the end of the match, to a label of a loop
around it or by returning. -/
theorem Pieces.confined (hN : E.unit.fns.length = N) (he : ∀ k ∈ E.fn.ens, Recorded S k.expr)
    (h64 : E.fn.ens ≠ [] → 64 ∈ S) (hp : Pieces E brk cnt off fin arms ls n las)
    (hr : RecordedStmt S True arm.2) (hat : StandsAt its pre las.flatten)
    (hnew : ∀ lab ∈ ls, .place lab ∉ pre) (hnd : ls.Nodup) (hls : ∀ lab ∈ ls, lab < n)
    (hf : Fresh pre n) (hj : arms[j]? = some arm) (hl : ls[j]? = some lab) :
    ∃ la s s', las[j]? = some la ∧ genArm E brk cnt off fin arm lab s = .ok ((), la, s') ∧
      labelPos lab its = some (coded (pre ++ (las.take j).flatten)).length ∧
      Confined its (Span (pre ++ (las.take j).flatten) la)
        fun k => ∃ lab ∈ [fin, brk, cnt], labelPos lab its = some k := by
  obtain ⟨la, s, s', hla, hg, hn, hlab⟩ := hp.arm j arm lab hj hl
  refine ⟨la, s, s', hla, hg, ?_⟩
  have hmem : lab ∈ ls := mem_of_getElem? hl
  rw [flatten_at hla] at hat
  have hatA := hat.right.left
  obtain ⟨_, l₁, s1, h1, _, g1, rfl⟩ := bind_ok.1 hg
  obtain ⟨_, l₂, s2, h2, _, g2, rfl⟩ := bind_ok.1 g1
  obtain ⟨_, l₃, s3, h3, l4, h4, rfl⟩ := bind_ok.1 g2
  obtain ⟨rfl, rfl⟩ := out_ok.1 h1
  obtain ⟨rfl, rfl⟩ := out_ok.1 h4
  have hf1 : Fresh (pre ++ (las.take j).flatten) s1.nlab := by
    intro k hk
    rcases mem_append.1 hk with hk | hk
    · exact Nat.lt_of_lt_of_le (hf k hk) hn
    · rcases hlab k hk with hb | hb
      · exact Nat.lt_of_lt_of_le (hls k (List.mem_of_mem_take hb)) hn
      · exact hb.2
  have hnot : .place lab ∉ pre ++ (las.take j).flatten := by
    intro hin
    rcases mem_append.1 hin with hin | hin
    · exact hnew lab hmem hin
    · rcases hlab lab hin with hb | hb
      · -- the labels of the arms are different ones
        obtain ⟨hlt, hget⟩ := List.getElem?_eq_some_iff.1 hl
        rw [List.mem_take_iff_getElem] at hb
        obtain ⟨i, hi, hgi⟩ := hb
        have hij := (List.Nodup.getElem_inj_iff hnd).1 (hgi.trans hget.symm)
        omega
      · have hlt := hls lab hmem
        omega
  have hpos := hatA.label hnot
  refine ⟨hpos, ?_⟩
  have hseg : Seg S (UserCalls N S) [] [fin, brk, cnt] s1.nlab s'.nlab (l₂ ++ (l₃ ++ [Item.b fin])) := by
    have hbody : Fits S (UserCalls N S) [] [fin, brk, cnt] (genStmt E brk cnt arm.2) :=
      fits_genStmt hN he h64 hr (by simp)
    refine (Fits.bind (fits_genArmHead off arm.1) fun _ => Fits.bind hbody fun _ =>
      Fits.emitBranch (.head _)) s1 () _ s' ?_
    exact bind_ok.2 ⟨_, l₂, s2, h2, _, bind_ok.2 ⟨_, l₃, s', h3, _, rfl, rfl⟩, rfl⟩
  have hconf := hseg.confined_sealed hatA.tail
    (hf1.snoc fun k hk => by cases hk; exact Nat.lt_of_lt_of_le (hls lab hmem) hn)
    (append_assoc l₂ l₃ [.b fin]).symm (.inr ⟨fin, rfl⟩)
  have hspan : Span (pre ++ (las.take j).flatten ++ [Item.place lab]) (l₂ ++ (l₃ ++ [Item.b fin])) =
      Span (pre ++ (las.take j).flatten) ([Item.place lab] ++ (l₂ ++ (l₃ ++ [Item.b fin]))) := by
    unfold Span
    rw [coded_length_place, List.singleton_append, coded_place]
  rwa [hspan] at hconf

end Arms

/-! ## The match -/

/-- The code of a match: that of the value, what puts its address away, the tests, the arms one after
another, and the label at the end. -/
structure MatchCode (E : Env) (brk cnt : Nat) (e : TExpr) (off : Int) (arms : List (TArm × TStmt))
    (fin : Nat) (l le lt : List Item) (las : List (List Item)) : Prop where
  code : l = le ++ (subjectCode off).map .ins ++ lt ++ las.flatten ++ [Item.place fin]
  value : ∃ s s', genExpr E e s = .ok ((), le, s')
  arm : ∀ (j : Nat) (arm : TArm × TStmt), arms[j]? = some arm → ∃ la, las[j]? = some la ∧
    ∃ lab s s', genArm E brk cnt off fin arm lab s = .ok ((), la, s')

/-- What a match does: from where the tag is read, the tests lead to the arm of that tag and to no
other, and the code of an arm is left only for the end of the match or for a label of a loop around
it. Up to there the address of the value is put away and taken back. -/
structure Takes (its : List Item) (arms : List (TArm × TStmt)) (off : Int) (n brk cnt : Nat)
    (pre l le lt : List Item) (las : List (List Item)) : Prop where
  tag : ∀ m k, m.pc = (coded (pre ++ le ++ (subjectCode off).map .ins)).length →
    m.mem.load (m.x X0) .w64 false = BitVec.ofNat 64 k → k < n →
      ∃ j la m', armFor k (arms.map (·.1)) = some j ∧ las[j]? = some la ∧
        Path its (fun m => Span (pre ++ le ++ (subjectCode off).map .ins) lt m.pc) m m' ∧
        m.Keeps [X1, X2] m' ∧
        m'.pc = (coded (pre ++ le ++ (subjectCode off).map .ins ++ lt ++ (las.take j).flatten)).length ∧
        Confined its (Span (pre ++ le ++ (subjectCode off).map .ins ++ lt ++ (las.take j).flatten) la)
          (Exits its pre l [brk, cnt])
  subject : 0 ≤ off → ∀ m, m.pc = (coded (pre ++ le)).length →
    ∃ m', Path its (fun m => Span (pre ++ le) ((subjectCode off).map .ins) m.pc) m m' ∧
      m'.pc = (coded (pre ++ le ++ (subjectCode off).map .ins)).length ∧ m'.x X0 = m.x X0 ∧
      ∀ q, ¬Kept m q → (∀ i < 8, q ≠ m.x X29 - BitVec.ofInt 64 off + BitVec.ofNat 64 i) →
        m'.mem q = m.mem q

section Takes

variable {E : Env} {S : List Nat} {N : Nat} {its : List Item} {brk cnt fin : Nat} {off : Int}
  {arms : List (TArm × TStmt)} {ls : List Nat} {n n' : Nat} {las : List (List Item)}

theorem Fresh.quiet {P l : List Item} {n : Nat} (h : Fresh P n) (hl : ∀ k, .place k ∉ l) :
    Fresh (P ++ l) n := by
  intro k hk
  rcases mem_append.1 hk with hk | hk
  · exact h k hk
  · exact absurd hk (hl k)

/-- The tag is read, and the tests lead to its arm. -/
theorem tag_takes (hN : E.unit.fns.length = N) (he : ∀ k ∈ E.fn.ens, Recorded S k.expr)
    (h64 : E.fn.ens ≠ [] → 64 ∈ S) (hr : RecordedArms S True arms) {P l lt : List Item}
    (hlt : lt = [Item.ins (ldrOff X1 X0 0 .w64 false)] ++
      (l ++ [Item.b (elseLabel fin (arms.map (·.1)) ls)])) (hat : StandsAt its P (lt ++ las.flatten))
    (ht : genTests (arms.map (·.1)) ls s = .ok (a, l, s'))
    (hp : Pieces E brk cnt off fin arms ls n las) (hls : ls = List.range' (fin + 1) arms.length)
    (hle : fin + 1 + arms.length ≤ n) (hf : Fresh P fin) (hc : Chosen n' (arms.map (·.1)))
    (hn' : n' < 2 ^ 31) {m : Machine} (hpc : m.pc = (coded P).length)
    (htag : m.mem.load (m.x X0) .w64 false = BitVec.ofNat 64 k) (hk : k < n') :
    ∃ j la m', armFor k (arms.map (·.1)) = some j ∧ las[j]? = some la ∧
      Path its (fun m => Span P lt m.pc) m m' ∧ m.Keeps [X1, X2] m' ∧
      m'.pc = (coded (P ++ lt ++ (las.take j).flatten)).length ∧
      Confined its (Span (P ++ lt ++ (las.take j).flatten) la)
        fun k => ∃ lab ∈ [fin, brk, cnt], labelPos lab its = some k := by
  have hlen : ls.length = arms.length := by rw [hls, length_range']
  have hbound : ∀ lab ∈ ls, fin + 1 ≤ lab ∧ lab < n := fun lab hin => by
    rw [hls, List.mem_range'_1] at hin
    omega
  obtain ⟨-, hquiet⟩ := genTests_quiet ht
  have hfl : Fresh (P ++ lt) fin := hf.quiet fun k hin => by
    rw [hlt] at hin
    simp only [mem_append, mem_singleton, reduceCtorEq, or_false, false_or] at hin
    exact hquiet k hin
  -- where an arm is
  have harm : ∀ j lab, ls[j]? = some lab → ∃ la, las[j]? = some la ∧
      labelPos lab its = some (coded (P ++ lt ++ (las.take j).flatten)).length ∧
        Confined its (Span (P ++ lt ++ (las.take j).flatten) la)
          fun k => ∃ lab ∈ [fin, brk, cnt], labelPos lab its = some k := by
    intro j lab hlab
    obtain ⟨arm, hj⟩ : ∃ arm, arms[j]? = some arm := by
      have hlt := (List.getElem?_eq_some_iff.1 hlab).1
      exact ⟨_, List.getElem?_eq_getElem (by omega)⟩
    obtain ⟨la, s, s', hla, -, hpos, hconf⟩ := hp.confined hN he h64 (hr.of_mem (mem_of_getElem? hj))
      hat.right (fun lab hin hpl => by have := hfl lab hpl; have := hbound lab hin; omega)
      (hls ▸ List.nodup_range') (fun lab hin => (hbound lab hin).2) (hfl.mono (by omega)) hj hlab
    exact ⟨la, hla, hpos, hconf⟩
  -- the tag into `x1`
  subst hlt
  have hatT := hat.left
  have hone : (coded [Item.ins (ldrOff X1 X0 0 .w64 false)]).length = 1 := rfl
  obtain ⟨hpath1, hend1⟩ := (Writes.emit (i := ldrOff X1 X0 0 .w64 false) rfl).run
    (P := fun m => Span P ([Item.ins (ldrOff X1 X0 0 .w64 false)] ++
      (l ++ [Item.b (elseLabel fin (arms.map (·.1)) ls)])) m.pc) hatT.left hpc fun j hj => by
        obtain rfl : j = 0 := by simpa using hj
        exact Span.left ⟨by rw [List.take_zero, runCode_nil]; omega, by
          rw [List.take_zero, runCode_nil, hone]; omega⟩
  have hrun : runCode [ldrOff X1 X0 0 .w64 false] m =
      (m.set X1 (BitVec.ofNat 64 k)).goto (m.pc + 1) := by
    have hzero : m.x X0 + BitVec.ofInt 64 (encOffset 0 .w64) = m.x X0 := BitVec.add_zero _
    rw [runCode_cons, runCode_nil, run_ldr _ _ _ _ (by decide), hzero]
    exact congrArg (fun v => (m.set X1 v).goto (m.pc + 1)) htag
  rw [hrun] at hpath1 hend1
  -- the tests
  have hlab : ∀ lab ∈ ls, ∃ t, labelPos lab its = some t := fun lab hin => by
    obtain ⟨j, hj⟩ := List.getElem?_of_mem hin
    obtain ⟨-, -, hpos, -⟩ := harm j lab hj
    exact ⟨_, hpos⟩
  obtain ⟨m2, hpath2, hkeep2, hto⟩ := tests_go (show k < 2 ^ 64 by omega) ht
    (by rw [length_map, hlen]) hatT.right.left hend1
    (by rw [goto_x, set_x_self (by decide)]) hlab
    (fun k' hk' => by have := hc.below k' hk'; omega) fun m hm => Span.right hm.left
  have hkeep : m.Keeps [X1, X2] m2 := by
    refine ⟨hkeep2.mem.trans ?_, hkeep2.sp.trans ?_, fun q hq => ?_⟩
    · rw [goto_mem, set_mem]
    · rw [goto_sp, set_sp]
    · rw [mem_cons, not_or] at hq
      rw [hkeep2.x q hq.2, goto_x, set_x_of_ne hq.1]
  cases hfind : (arms.map (·.1)).findIdx? (·.case? == some k) with
  | some j =>
    obtain ⟨lab, hj, hpos⟩ := hto.arm j hfind
    obtain ⟨la, hla, hpos', hconf⟩ := harm j lab hj
    rw [hpos', Option.some.injEq] at hpos
    exact ⟨j, la, m2, by rw [armFor, hfind, Option.some_or], hla, hpath1.trans hpath2, hkeep,
      hpos.symm, hconf⟩
  | none =>
    obtain ⟨j, hj⟩ := hc.armFor hk
    have helse : (arms.map (·.1)).findIdx? (·.case? == none) = some j := by
      rw [armFor, hfind, Option.none_or] at hj
      exact hj
    have hlen' : ls.length = (arms.map (·.1)).length := by rw [length_map, hlen]
    have hlast : ls[j]? = some (elseLabel fin (arms.map (·.1)) ls) := elseLabel_last hc.last hlen' helse
    obtain ⟨la, hla, hpos, hconf⟩ := harm j _ hlast
    have hpc2 := hto.rest hfind
    have hpath3 := Path.b (P := fun m => Span P ([Item.ins (ldrOff X1 X0 0 .w64 false)] ++
      (l ++ [Item.b (elseLabel fin (arms.map (·.1)) ls)])) m.pc) hatT.right.right hpc2
      (Span.right (Span.right ⟨hpc2.ge, hpc2.trans_lt (Nat.lt_succ_self _)⟩)) hpos
    exact ⟨j, la, _, hj, hla, (hpath1.trans hpath2).trans hpath3,
      ⟨hkeep.mem, hkeep.sp, hkeep.x⟩, rfl, hconf⟩

theorem Stands.takes (hN : E.unit.fns.length = N) (he : ∀ k ∈ E.fn.ens, Recorded S k.expr)
    (h64 : E.fn.ens ≠ [] → 64 ∈ S) {e : TExpr} {arms : List (TArm × TStmt)} {pre l : List Item} {n : Nat}
    (h : Stands its E S (.matchS e off arms) brk cnt pre l) (hc : Chosen n (arms.map (·.1)))
    (hn : n < 2 ^ 31) : ∃ fin le lt las, MatchCode E brk cnt e off arms fin l le lt las ∧
      Takes its arms off n brk cnt pre l le lt las := by
  obtain ⟨⟨s, s', hg, hf⟩, hr, hat⟩ := h
  obtain ⟨_, l₁, s1, h1, _, g1, rfl⟩ := bind_ok.1 hg
  obtain ⟨_, l₂, s2, h2, _, g2, rfl⟩ := bind_ok.1 g1
  obtain ⟨fin, _, s3, h3, _, g3, rfl⟩ := bind_ok.1 g2
  obtain ⟨ls, _, s4, h4, _, g4, rfl⟩ := bind_ok.1 g3
  obtain ⟨_, l5, s5, h5, _, g5, rfl⟩ := bind_ok.1 g4
  obtain ⟨_, _, s6, h6, _, g6, rfl⟩ := bind_ok.1 g5
  obtain ⟨_, l7, s7, h7, _, g7, rfl⟩ := bind_ok.1 g6
  obtain ⟨_, _, s8, h8, _, g8, rfl⟩ := bind_ok.1 g7
  obtain ⟨_, la, s9, h9, _, h10, rfl⟩ := bind_ok.1 g8
  have hstore := (writes_frameStoreField off 0 (.ptr .u8 false)).ok s1
  have hload := (writes_frameLoad off (.ptr .u8 false)).ok s4
  rw [hstore] at h2
  rw [hload] at h5
  cases h2
  cases h5
  obtain ⟨rfl, rfl, rfl⟩ := newlab_ok.1 h3
  obtain ⟨hls, rfl, hnl⟩ := newlabs_ok h4
  obtain ⟨rfl, rfl⟩ := out_ok.1 h6
  obtain ⟨rfl, rfl⟩ := out_ok.1 h8
  obtain ⟨rfl, rfl⟩ := out_ok.1 h10
  obtain ⟨las, rfl, hp⟩ := genArms_pieces hN he h64 h9 (by rw [hls, length_range']) hr.2
  have hlen : ls.length = arms.length := by rw [hls, length_range']
  have hlabel : ∀ j < arms.length, ∃ lab, ls[j]? = some lab := fun j hj =>
    ⟨_, List.getElem?_eq_getElem (hlen ▸ hj)⟩
  refine ⟨s1.nlab, l₁, [Item.ins (ldrOff X1 X0 0 .w64 false)] ++ (l7 ++ [Item.b (elseLabel s1.nlab
    (arms.map (·.1)) ls)]), las, ⟨?_, ⟨s, s1, h1⟩, ?_⟩, ?_, ?_⟩
  · simp [subjectCode]
  · intro j arm hj
    obtain ⟨lab, hlab⟩ := hlabel j (List.getElem?_eq_some_iff.1 hj).1
    obtain ⟨la, s10, s11, hla, hga, -⟩ := hp.arm j arm lab hj hlab
    exact ⟨la, hla, lab, s10, s11, hga⟩
  · intro m k hpc hload' hk
    obtain ⟨rfl, hquiet⟩ := genTests_quiet h7
    -- the code in the order it stands
    have hat' : StandsAt its (pre ++ l₁ ++ (subjectCode off).map .ins)
        (([Item.ins (ldrOff X1 X0 0 .w64 false)] ++ (l7 ++ [Item.b (elseLabel s1.nlab (arms.map (·.1)) ls)])) ++
          las.flatten) := by
      obtain ⟨post, rfl⟩ := hat
      exact ⟨[Item.place s1.nlab] ++ post, by
        simp only [subjectCode, map_append, append_assoc, nil_append]⟩
    have hseg1 : Seg S (UserCalls N S) [] [] s.nlab s1.nlab l₁ := fits_genExpr hN hr.1 _ _ _ _ h1
    have hf1 : Fresh (pre ++ l₁ ++ (subjectCode off).map .ins) s1.nlab :=
      (hf.append hseg1 nofun).quiet (by simp)
    obtain ⟨j, la, m', harm, hla, hpath, hkeep, hto, hconf⟩ := tag_takes hN he h64 hr.2 rfl hat' h7 hp hls
      (by dsimp only at hnl; omega) hf1 hc hn hpc hload' hk
    refine ⟨j, la, m', harm, hla, hpath, hkeep, hto, hconf.mono ?_⟩
    rintro q ⟨lab, hin, hq⟩
    right
    rcases mem_cons.1 hin with rfl | hin
    · -- the label at the end is new
      left
      have hfin : .place s1.nlab ∉ pre ++ (l₁ ++ ((subjectCode off).map .ins ++
          ([Item.ins (ldrOff X1 X0 0 .w64 false)] ++ (l7 ++ [Item.b (elseLabel s1.nlab (arms.map (·.1)) ls)] ++
            las.flatten)))) := by
        intro hpl
        have hpl' : .place s1.nlab ∈ pre ++ l₁ ++ (subjectCode off).map .ins ∨
            .place s1.nlab ∈ l7 ∨ .place s1.nlab ∈ las.flatten := by
          simp only [mem_append, mem_singleton, reduceCtorEq, or_false, false_or, or_assoc] at hpl ⊢
          exact hpl
        rcases hpl' with h' | h' | h'
        · exact Nat.lt_irrefl _ (hf1 _ h')
        · exact hquiet _ h'
        · dsimp only at hnl
          rcases hp.labels _ h' with hb | hb
          · rw [hls, List.mem_range'_1] at hb
            dsimp only at hb
            omega
          · omega
      have hatF : StandsAt its (pre ++ (l₁ ++ ((subjectCode off).map .ins ++
          ([Item.ins (ldrOff X1 X0 0 .w64 false)] ++ (l7 ++ [Item.b (elseLabel s1.nlab (arms.map (·.1)) ls)] ++
            las.flatten))))) [.place s1.nlab] := by
        obtain ⟨post, rfl⟩ := hat
        exact ⟨post, by
          simp only [subjectCode, map_append, append_assoc, nil_append]⟩
      rw [hatF.label hfin, Option.some.injEq] at hq
      rw [← hq]
      simp only [subjectCode, map_append, append_assoc, nil_append, coded_append,
        length_append, coded_place, coded_nil, List.length_nil]
      omega
    · exact .inr ⟨lab, hin, hq⟩
  · intro hoff m hpc
    have hw : Writes (do frameStoreField off 0 (.ptr .u8 false); frameLoad off (.ptr .u8 false))
        (subjectCode off) := (writes_frameStoreField _ _ _).bind (writes_frameLoad _ _)
    have hatS : StandsAt its (pre ++ l₁) ((subjectCode off).map .ins) := by
      obtain ⟨post, rfl⟩ := hat
      exact ⟨_, by simp only [subjectCode, map_append, append_assoc, nil_append]; rfl⟩
    obtain ⟨hpath, hend⟩ := hw.run (P := fun m => Span (pre ++ l₁) ((subjectCode off).map .ins) m.pc)
      hatS hpc fun j hj => by
        rw [runCode_pc fun i hi => hw.plain i (List.mem_of_mem_take hi), hpc, List.length_take]
        refine ⟨by omega, ?_⟩
        rw [coded_ins, length_map]
        omega
    obtain ⟨hx, hmem⟩ := @run_subject m off hoff
    exact ⟨_, hpath, hend, hx, hmem⟩

end Takes

/-! ## The program -/

theorem checked_fn {file : String} {u : SavUnit} {t : TUnit} (h : checkUnit file u = .ok t)
    {f : TFn} (hf : f ∈ t.fns) : ∃ g s s', checkFn u g s = .ok (f, s') := by
  obtain ⟨s2, hu⟩ := checkUnit_ok h
  have hall : ∀ {gs : List Fn} {fs : List TFn},
      List.Forall₂ (fun g f => ∃ s s', checkFn u g s = .ok (f, s')) gs fs → f ∈ fs →
        ∃ g s s', checkFn u g s = .ok (f, s') := by
    intro gs fs h
    induction h with
    | nil => exact nofun
    | cons hc _ ih =>
      intro hin
      rcases mem_cons.1 hin with rfl | hin
      · exact ⟨_, hc⟩
      · exact ih hin
  exact hall (checkFns_ok hu.fns) hf

section Program

variable {c : Compiled} {i : Nat} {f : TFn} {pre l : List Item}

theorem BodyAt.never_ends (h : BodyAt c i f pre l) (hv : f.ret.isVoid = false)
    {m : Machine} {rs : List (Reply × Machine)} (hpc : m.pc = (coded pre).length)
    (hrun : Stretch c.items (fun _ => False) m rs m') : m'.pc ≠ (coded (pre ++ l)).length := by
  have hmem := mem_of_getElem? h.fn
  obtain ⟨g, s, s', hg⟩ := checked_fn c.check hmem
  obtain ⟨_, _, _, _, _, _, _, _, st⟩ := checkFn_ok hg
  have hrec := (checkUnit_recorded c.check).fns f hmem
  have hret := checkStmt_returns _ _ st.body (st.returns (by rw [← st.ret]; exact hv))
  obtain ⟨⟨s1, s2, hgen, hf⟩, -, hat⟩ := h.stands
  obtain ⟨A, hstart, hspan, hconf⟩ := returns_confined rfl hrec.ens (fun h => (hrec.fails (.inr h)).1)
    hret hrec.body hgen hat hf
  rcases hconf.run hrun (.inl (hpc ▸ hstart)) with hin | hin
  · have hlt := (hspan _ hin).2
    rw [coded_append, length_append]
    omega
  · exact hin.elim

/-- Every match in the body of a function takes the arm of the tag. -/
theorem BodyAt.takes (h : BodyAt c i f pre l) {e : TExpr} {off : Int} {arms : List (TArm × TStmt)}
    (hn : Nested (.matchS e off arms) f.body) : ∃ en vs sz brk cnt p l' q,
      e.ty = .enum en vs sz ∧ l = p ++ l' ++ q ∧ (vs.length < 2 ^ 31 → ∃ fin le lt las,
        MatchCode ⟨c.checked, c.contracts, f⟩ brk cnt e off arms fin l' le lt las ∧
          Takes c.items arms off vs.length brk cnt (pre ++ p) l' le lt las) := by
  have hmem := mem_of_getElem? h.fn
  obtain ⟨g, s, s', hg⟩ := checked_fn c.check hmem
  obtain ⟨_, _, _, _, _, _, _, _, st⟩ := checkFn_ok hg
  have hrec := (checkUnit_recorded c.check).fns f hmem
  have h64 : f.ens ≠ [] → 64 ∈ c.checked.sysUsed := fun h => (hrec.fails (.inr h)).1
  obtain ⟨⟨en, vs, sz, hty, hchosen⟩, -⟩ := (checkStmt_checks _ _ st.body).matched.nested hn
  obtain ⟨brk, cnt, p, l', q, hl, hst⟩ := h.stands.nested rfl hrec.ens h64 hn
  exact ⟨en, vs, sz, brk, cnt, p, l', q, hty, hl, hst.takes rfl hrec.ens h64 hchosen⟩

end Program

end Verkos.Sav
