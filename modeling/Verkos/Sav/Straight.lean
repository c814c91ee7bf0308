import Verkos.Lib.Moves
import Verkos.Sav.Buffer

/-!
# Pieces that go straight on

What the generator appends for a constant, for the address of a frame slot and for a value kept on
the stack is a row of instructions without a branch. `Writes` names that row, `runCode` runs it, and
the lemmas here say what each row leaves: a register with its value, and the rest as it was.
-/

namespace Verkos.Sav

open Verkos.Lib (Emit)
open Machine (get_x goto_goto goto_set goto_x set_next set_pc set_set set_x_self)

/-- Instructions that go on to the next one, one after another. -/
def runCode (l : List Instr) (m : Machine) : Machine := l.foldl Instr.run m

/-- A piece of the generator that appends these instructions, whatever its state, and no branch. -/
structure Writes (x : GenM Unit) (l : List Instr) : Prop where
  ok : ∀ s, x s = .ok ((), l.map .ins, s)
  plain : ∀ i ∈ l, i.isPlain = true

section Writing

variable {x y : GenM Unit} {l l' : List Instr} {m : Machine} {i : Instr} {its : List Item}

@[simp] theorem runCode_nil : runCode [] m = m := rfl

@[simp] theorem runCode_cons : runCode (i :: l) m = runCode l (i.run m) := rfl

theorem runCode_append : runCode (l ++ l') m = runCode l' (runCode l m) := List.foldl_append ..

@[simp] theorem coded_ins (l : List Instr) : coded (l.map .ins) = l.map .ins := by
  induction l with
  | nil => rfl
  | cons i l ih => rw [List.map_cons, coded_cons rfl, ih]

theorem runCode_pc (hl : ∀ i ∈ l, i.isPlain = true) : (runCode l m).pc = m.pc + l.length := by
  induction l generalizing m with
  | nil => rfl
  | cons i l ih =>
    have hi : (Item.ins i).isPlain = true := hl i (.head _)
    have hstep := @Item.run_pc [] m (.ins i) hi
    change (i.run m).pc = m.pc + 1 at hstep
    rw [runCode_cons, ih fun i' hi' => hl i' (.tail _ hi'), hstep, List.length_cons]
    omega

theorem runItems_ins (its : List Item) : runItems its (l.map .ins) m = runCode l m := by
  induction l generalizing m with
  | nil => rfl
  | cons i l ih => exact ih

theorem Writes.emit (h : i.isPlain = true) : Writes (emit i) [i] :=
  ⟨fun _ => rfl, by simpa using h⟩

theorem Writes.out (h : ∀ i ∈ l, i.isPlain = true) : Writes (Emit.out (l.map .ins)) l :=
  ⟨fun _ => rfl, h⟩

theorem Writes.imm (rd : Reg) (v : Word) : Writes (emitImm rd v) (immCode rd v) :=
  .out (immCode_plain rd v)

theorem Writes.nothing : Writes (pure ()) [] := ⟨fun _ => rfl, by simp⟩

theorem Writes.bind (hx : Writes x l) (hy : Writes y l') : Writes (do x; y) (l ++ l') where
  ok := fun s => by
    rw [List.map_append]
    exact Emit.bind_ok.2 ⟨(), _, s, hx.ok s, _, hy.ok s, rfl⟩
  plain := fun i hi => by
    rcases List.mem_append.1 hi with hi | hi
    · exact hx.plain i hi
    · exact hy.plain i hi

theorem Writes.of_eq (hx : Writes x l) (h : l = l') : Writes x l' := h ▸ hx

theorem Writes.onlyIf (c : Bool) (hx : Writes x l) :
    Writes (Emit.onlyIf c x) (if c then l else []) := by
  cases c
  · exact Writes.nothing
  · exact hx

/-- Such a piece is run from its start to its end. -/
theorem Writes.run {pre : List Item} {P : Machine → Prop} (hx : Writes x l)
    (hat : StandsAt its pre (l.map .ins)) (hpc : m.pc = (coded pre).length)
    (hok : ∀ j < l.length, P (runCode (l.take j) m)) :
    Path its P m (runCode l m) ∧ (runCode l m).pc = (coded (pre ++ l.map .ins)).length := by
  rw [← runItems_ins its]
  refine Path.straight (fun it hit => ?_) hat hpc fun j hj => ?_
  · obtain ⟨i, hi, rfl⟩ := List.mem_map.1 hit
    exact hx.plain i hi
  · rw [← List.map_take, runItems_ins]
    exact hok j (by simpa using hj)

end Writing

/-! ## A constant -/

section Constants

variable {m : Machine} {rd : Reg} {v : Word}

theorem movk_bit (r : Word) (p : BitVec 16) {s i : Nat} (hi : i < 64) :
    ((r &&& ~~~((0xFFFF : Word) <<< s)) ||| (p.zeroExtend 64 <<< s)).getLsbD i =
      if s ≤ i ∧ i < s + 16 then p.getLsbD (i - s) else r.getLsbD i := by
  have hmask : ∀ j, (0xFFFF : Word).getLsbD j = decide (j < 16) := by
    intro j
    change (BitVec.ofNat 64 (2 ^ 16 - 1)).getLsbD j = _
    rw [BitVec.getLsbD_ofNat, Nat.testBit_two_pow_sub_one]
    by_cases hj : j < 16
    · rw [decide_eq_true hj, decide_eq_true (show j < 64 by omega), Bool.and_self]
    · rw [decide_eq_false hj, Bool.and_false]
  simp only [BitVec.getLsbD_or, BitVec.getLsbD_and, BitVec.getLsbD_not, BitVec.getLsbD_shiftLeft,
    hmask, BitVec.zeroExtend_eq_setWidth, BitVec.getLsbD_setWidth]
  by_cases hs : i < s
  · simp [hi, hs, show ¬s ≤ i by omega]
  · by_cases h16 : i - s < 16
    · simp [hi, hs, h16, show s ≤ i ∧ i < s + 16 by omega, show i - s < 64 by omega]
    · simp [hi, hs, show ¬(s ≤ i ∧ i < s + 16) by omega, show 16 ≤ i - s by omega]

theorem movz_eq (p : BitVec 16) (s : Nat) :
    p.zeroExtend 64 <<< s = (((0 : Word) &&& ~~~((0xFFFF : Word) <<< s)) |||
      (p.zeroExtend 64 <<< s)) := by
  have hz : (0 : Word) &&& ~~~((0xFFFF : Word) <<< s) = 0 := BitVec.zero_and
  rw [hz]
  exact BitVec.zero_or.symm

/-- The bits below `k` are those of `v`, and the others are not set. -/
def LowBits (v r : Word) (k : Nat) : Prop := ∀ i < 64, r.getLsbD i = (decide (i < k) && v.getLsbD i)

theorem LowBits.all {r : Word} (h : LowBits v r 64) : r = v := by
  apply BitVec.eq_of_getLsbD_eq
  intro i hi
  rw [h i hi, decide_eq_true hi, Bool.true_and]

theorem LowBits.movk {r : Word} {k : Nat} (h : LowBits v r k) :
    LowBits v ((r &&& ~~~((0xFFFF : Word) <<< k)) |||
      (((v >>> k).truncate 16).zeroExtend 64 <<< k)) (k + 16) := by
  intro i hi
  rw [movk_bit _ _ hi, h i hi, BitVec.truncate_eq_setWidth, BitVec.getLsbD_setWidth,
    BitVec.getLsbD_ushiftRight]
  by_cases hk : k ≤ i ∧ i < k + 16
  · rw [if_pos hk, decide_eq_true (show i - k < 16 by omega), decide_eq_true hk.2,
      show k + (i - k) = i by omega]
  · rw [if_neg hk]
    congr 1
    rw [decide_eq_decide]
    omega

theorem LowBits.skip {r : Word} {k : Nat} (h : LowBits v r k)
    (hz : (v >>> k).truncate 16 = (0 : BitVec 16)) : LowBits v r (k + 16) := by
  intro i hi
  rw [h i hi]
  by_cases hk : k ≤ i ∧ i < k + 16
  · have hbit : ((v >>> k).truncate 16).getLsbD (i - k) = (0 : BitVec 16).getLsbD (i - k) := by
      rw [hz]
    rw [BitVec.truncate_eq_setWidth, BitVec.getLsbD_setWidth, BitVec.getLsbD_ushiftRight,
      decide_eq_true (show i - k < 16 by omega), Bool.true_and, show k + (i - k) = i by omega] at hbit
    rw [hbit]
    simp
  · congr 1
    rw [decide_eq_decide]
    omega

theorem Machine.set_self (h : m.x rd = v) : m.set rd v = m := by
  unfold Machine.set
  split
  · rfl
  · cases m
    congr 1
    funext q
    by_cases hq : q = rd
    · rw [if_pos hq, ← h, hq]
    · rw [if_neg hq]

theorem run_movz (p : BitVec 16) (hw : Fin 4) : Instr.run m (.movz rd p hw) =
    (m.set rd (((0 : Word) &&& ~~~((0xFFFF : Word) <<< (16 * hw.val))) |||
      (p.zeroExtend 64 <<< (16 * hw.val)))).goto (m.pc + 1) := by
  rw [← movz_eq, ← set_next]
  rfl

theorem run_movk (hrd : rd ≠ 31) (p : BitVec 16) (hw : Fin 4) : Instr.run m (.movk rd p hw) =
    (m.set rd ((m.x rd &&& ~~~((0xFFFF : Word) <<< (16 * hw.val))) |||
      (p.zeroExtend 64 <<< (16 * hw.val)))).goto (m.pc + 1) := by
  rw [← set_next, ← get_x hrd]
  rfl

/-- The loop of `emit_imm`: what it has not written yet stays zero. -/
theorem run_immLoop (hrd : rd ≠ 31) {first : Bool} {hws : List (Fin 4)} {k : Nat}
    (hk : hws.map (·.val) = (List.range 4).drop k) (hk4 : k ≤ 4)
    (hlow : LowBits v (if first then 0 else m.x rd) (16 * k))
    (hlast : first = true → hws = [] → v = 0 → False) (hv : v ≠ 0) :
    runCode (immLoop rd v first hws) m =
      (m.set rd v).goto (m.pc + (immLoop rd v first hws).length) := by
  induction hws generalizing first k m with
  | nil =>
    have h4 : k = 4 := by
      have hlen := congrArg List.length hk
      simp at hlen
      omega
    subst h4
    have hall := LowBits.all hlow
    cases first with
    | true => exact absurd hall.symm hv
    | false =>
      rw [if_neg Bool.false_ne_true] at hall
      rw [Machine.set_self hall]
      rfl
  | cons hw hws ih =>
    have hlt : k < 4 := by
      by_contra hn
      rw [List.drop_eq_nil_of_le (by simpa using hn)] at hk
      cases hk
    have hdrop : (List.range 4).drop k = k :: (List.range 4).drop (k + 1) := by
      rw [List.drop_eq_getElem_cons (by simpa using hlt), List.getElem_range]
    rw [hdrop, List.map_cons, List.cons.injEq] at hk
    obtain ⟨hhw, hrest⟩ := hk
    rw [immLoop, hhw]
    by_cases hz : (v >>> (16 * k)).truncate 16 = (0 : BitVec 16)
    · rw [if_pos hz]
      exact ih hrest hlt (hlow.skip hz) fun _ _ h => hv h
    · rw [if_neg hz, runCode_cons]
      have hstep : Instr.run m (if first then .movz rd ((v >>> (16 * k)).truncate 16) hw
          else .movk rd ((v >>> (16 * k)).truncate 16) hw) =
            (m.set rd (((if first then 0 else m.x rd) &&& ~~~((0xFFFF : Word) <<< (16 * k))) |||
              (((v >>> (16 * k)).truncate 16).zeroExtend 64 <<< (16 * k)))).goto (m.pc + 1) := by
        cases first with
        | true => rw [if_pos rfl, if_pos rfl, run_movz, hhw]
        | false => rw [if_neg Bool.false_ne_true, if_neg Bool.false_ne_true, run_movk hrd, hhw]
      rw [hstep]
      refine (ih hrest hlt ?_ fun h : false = true => absurd h Bool.false_ne_true).trans ?_
      · rw [if_neg Bool.false_ne_true, goto_x, set_x_self hrd]
        exact hlow.movk
      · rw [goto_set, goto_goto, set_set, List.length_cons]
        congr 1
        rw [Machine.goto_pc]
        omega

theorem run_immCode (hrd : rd ≠ 31) : runCode (immCode rd v) m =
    (m.set rd v).goto (m.pc + (immCode rd v).length) := by
  unfold immCode
  split_ifs with hz hneg
  · subst hz
    rw [runCode_cons, runCode_nil, run_movz]
    rfl
  · obtain ⟨hneg, hlow⟩ := hneg
    have hv : ~~~(((~~~v).truncate 16).zeroExtend 64 <<< (16 * (0 : Fin 4).val)) = v := by
      have hlt : (~~~v).toNat < 2 ^ 16 := by
        have hti := BitVec.toInt_eq_toNat_cond v
        have hnn := v.isLt
        rw [BitVec.toNat_not]
        split at hti <;> omega
      have hself : ((~~~v).truncate 16).zeroExtend 64 = ~~~v := by
        apply BitVec.eq_of_toNat_eq
        rw [BitVec.zeroExtend_eq_setWidth, BitVec.truncate_eq_setWidth, BitVec.toNat_setWidth,
          BitVec.toNat_setWidth, Nat.mod_eq_of_lt hlt, Nat.mod_eq_of_lt (by omega)]
      rw [hself]
      change ~~~(~~~v <<< 0) = v
      rw [BitVec.shiftLeft_zero, BitVec.not_not]
    change (m.set rd (~~~(((~~~v).truncate 16).zeroExtend 64 <<< (16 * (0 : Fin 4).val)))).next = _
    rw [hv, set_next]
    rfl
  · refine run_immLoop (k := 0) hrd rfl (by omega) ?_ (fun _ h => by cases h) hz
    intro i hi
    simp

end Constants

/-! ## The address of a frame slot -/

namespace Machine

/-- The same state with another memory. -/
def withMem (m : Machine) (mem : Mem) : Machine := { m with mem }

variable {m : Machine} {mem mem' : Mem} {r : Reg} {v : Word} {k : Nat}

@[simp] theorem withMem_x : (m.withMem mem).x = m.x := rfl

@[simp] theorem withMem_sp : (m.withMem mem).sp = m.sp := rfl

@[simp] theorem withMem_mem : (m.withMem mem).mem = mem := rfl

@[simp] theorem withMem_pc : (m.withMem mem).pc = m.pc := rfl

@[simp] theorem withMem_self : m.withMem m.mem = m := rfl

@[simp] theorem withMem_withMem : (m.withMem mem).withMem mem' = m.withMem mem' := rfl

@[simp] theorem goto_withMem : (m.goto k).withMem mem = (m.withMem mem).goto k := rfl

@[simp] theorem set_withMem : (m.set r v).withMem mem = (m.withMem mem).set r v := by
  unfold Machine.set
  split <;> rfl

/-- The same state with another stack pointer. -/
def withSp (m : Machine) (sp : Word) : Machine := { m with sp }

@[simp] theorem withSp_x (m : Machine) (a : Word) : (m.withSp a).x = m.x := rfl

@[simp] theorem withSp_sp (m : Machine) (a : Word) : (m.withSp a).sp = a := rfl

@[simp] theorem withSp_mem (m : Machine) (a : Word) : (m.withSp a).mem = m.mem := rfl

@[simp] theorem withSp_pc (m : Machine) (a : Word) : (m.withSp a).pc = m.pc := rfl

/-- What a saved pair leaves in memory. -/
def pushed (m : Machine) : Mem :=
  (m.mem.write (m.sp + BitVec.ofInt 64 (-16)) 8 (m.x X0)).write
    (m.sp + BitVec.ofInt 64 (-16) + 8) 8 (m.x X1)

end Machine

section Slots

variable {m : Machine} {rd : Reg} {off : Int}

def localAddrCode (rd : Reg) (off : Int) : List Instr :=
  if off < 4096 then [.subImm rd X29 (BitVec.ofInt 12 off) false]
  else immCode rd (BitVec.ofInt 64 off) ++ [Instr.sub rd X29 rd]

theorem writes_localAddr (rd : Reg) (off : Int) :
    Writes (localAddr rd off) (localAddrCode rd off) := by
  unfold localAddr localAddrCode
  split_ifs
  · exact .emit rfl
  · exact (Writes.imm _ _).bind (.emit rfl)

/-- `local_addr` leaves the address so far below the frame pointer. -/
theorem run_localAddr (hrd : rd ≠ 31) (h29 : rd ≠ X29) (hoff : 0 ≤ off) :
    runCode (localAddrCode rd off) m =
      (m.set rd (m.x X29 - BitVec.ofInt 64 off)).goto (m.pc + (localAddrCode rd off).length) := by
  unfold localAddrCode
  split_ifs with hlt
  · have hone : Instr.run m (.subImm rd X29 (BitVec.ofInt 12 off) false) = (m.setSp rd
        (m.getSp X29 - ((BitVec.ofInt 12 off).zeroExtend 64 <<< 0))).next := rfl
    rw [runCode_cons, runCode_nil, hone, BitVec.shiftLeft_zero, zeroExtend_ofInt12,
      Int.emod_eq_of_lt hoff hlt, Machine.setSp_eq hrd, Machine.getSp_x (by decide),
      set_next]
    rfl
  · have hlast : ∀ m' : Machine, Instr.run m' (.sub rd X29 rd) =
        (m'.set rd (m'.x X29 - m'.x rd)).goto (m'.pc + 1) := by
      intro m'
      rw [← set_next, ← get_x hrd, ← get_x (show X29 ≠ 31 by decide)]
      rfl
    rw [runCode_append, run_immCode hrd, runCode_cons, runCode_nil, hlast, goto_set,
      set_set, goto_goto, goto_x, set_x_self hrd,
      Machine.set_x_of_ne (Ne.symm h29), List.length_append]
    rfl

end Slots

/-! ## A pair on the stack -/

section Pairs

variable {m : Machine} {r₁ r₂ : Reg}

theorem writes_pushPair : Writes pushPair [.stpPre X0 X1 SP (-16)] := .emit rfl

theorem writes_popPair (r₁ r₂ : Reg) : Writes (popPair r₁ r₂) [.ldpPost r₁ r₂ SP 16] := .emit rfl

theorem run_stpPre (off : Int) : Instr.run m (.stpPre r₁ r₂ SP off) =
    ((m.withMem ((m.mem.write (m.sp + BitVec.ofInt 64 off) 8 (m.get r₁)).write
      (m.sp + BitVec.ofInt 64 off + 8) 8 (m.get r₂))).withSp (m.sp + BitVec.ofInt 64 off)).goto
        (m.pc + 1) := rfl

theorem run_ldpPost (off : Int) : Instr.run m (.ldpPost r₁ r₂ SP off) =
    (((m.set r₁ (m.mem.load m.sp .w64 false)).set r₂ (m.mem.load (m.sp + 8) .w64 false)).withSp
      (m.sp + BitVec.ofInt 64 off)).goto (m.pc + 1) := by
  have hpc : ((m.set r₁ (m.mem.load m.sp .w64 false)).set r₂
      (m.mem.load (m.sp + 8) .w64 false)).pc = m.pc := by
    rw [set_pc, set_pc]
  rw [← hpc]
  rfl

theorem run_push : Instr.run m (.stpPre X0 X1 SP (-16)) =
    ((m.withMem m.pushed).withSp (m.sp + BitVec.ofInt 64 (-16))).goto (m.pc + 1) := by
  rw [run_stpPre, get_x (by decide), get_x (by decide)]
  rfl

theorem load_pair_fst (mem : Mem) (a v w : Word) :
    ((mem.write a 8 v).write (a + 8) 8 w).load a .w64 false = v := by
  refine (Mem.load_congr fun k hk => ?_).trans (Mem.load_write mem a v)
  refine Mem.write_of_apart fun j hj he => ?_
  rw [BitVec.add_assoc] at he
  have height : (8 : Word) + BitVec.ofNat 64 j = BitVec.ofNat 64 (8 + j) := by
    rw [BitVec.ofNat_add]
    rfl
  rw [height] at he
  have hkj := (Lib.add_ofNat_inj (by omega) (by omega)).1 he
  omega

theorem load_pair_snd (mem : Mem) (a v w : Word) :
    ((mem.write a 8 v).write (a + 8) 8 w).load (a + 8) .w64 false = w := Mem.load_write ..

theorem sp_back (a : Word) : a + BitVec.ofInt 64 (-16) + BitVec.ofInt 64 16 = a := by
  have hzero : BitVec.ofInt 64 (-16) + BitVec.ofInt 64 16 = 0#64 := by decide
  rw [BitVec.add_assoc, hzero, BitVec.add_zero]

theorem run_pop_kept {a : Word} {off : Int} (hback : m.sp + BitVec.ofInt 64 off = a)
    (h0 : m.mem.load m.sp .w64 false = m.x X0) (h1 : m.mem.load (m.sp + 8) .w64 false = m.x X1) :
    Instr.run m (.ldpPost X0 X1 SP off) = (m.withSp a).goto (m.pc + 1) := by
  rw [run_ldpPost, h0, h1, hback, Machine.set_self rfl, Machine.set_self rfl]

/-- The state a saved pair leaves. -/
def Machine.saved (m : Machine) : Machine :=
  ((m.withMem m.pushed).withSp (m.sp + BitVec.ofInt 64 (-16))).goto (m.pc + 1)

@[simp] theorem Machine.saved_x : m.saved.x = m.x := by
  rw [Machine.saved, goto_x, Machine.withSp_x, Machine.withMem_x]

@[simp] theorem Machine.saved_mem : m.saved.mem = m.pushed := by
  rw [Machine.saved, Machine.goto_mem, Machine.withSp_mem, Machine.withMem_mem]

@[simp] theorem Machine.saved_sp : m.saved.sp = m.sp + BitVec.ofInt 64 (-16) := by
  rw [Machine.saved, Machine.goto_sp, Machine.withSp_sp]

/-- A pair is saved, a few registers are set, and the pair is taken back: what was set is all that
is new, but for the bytes where the pair lay. -/
theorem run_kept {l : List Instr} {m' : Machine} (hl : runCode l m.saved = m')
    (hx : m'.x X0 = m.x X0 ∧ m'.x X1 = m.x X1) (hsp : m'.sp = m.saved.sp)
    (hmem : m'.mem = m.saved.mem) :
    runCode (.stpPre X0 X1 SP (-16) :: (l ++ [Instr.ldpPost X0 X1 SP 16])) m =
      (m'.withSp m.sp).goto (m'.pc + 1) := by
  rw [Machine.saved_sp] at hsp
  rw [Machine.saved_mem] at hmem
  rw [runCode_cons, run_push, ← Machine.saved, runCode_append, hl, runCode_cons, runCode_nil]
  refine run_pop_kept ?_ ?_ ?_
  · rw [hsp]
    exact sp_back m.sp
  · rw [hmem, hsp, hx.1]
    exact load_pair_fst ..
  · rw [hmem, hsp, hx.2]
    exact load_pair_snd ..

end Pairs

end Verkos.Sav
