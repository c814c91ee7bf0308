import Verkos.Sav.Straight

/-!
# The words of a constant

What `emit_imm` appends are words of `a_movz`, `a_movk` and `a_movn`. The processor reads each of
them as the instruction it was made for, and the row of them leaves the constant in its register.
-/

namespace Verkos.Sav

open Verkos.Lib
open BitVec (extractLsb'_or)

attribute [local instance] neZero4

/-! ## Encoders -/

/-- An operation, the place of the sixteen bits, the bits and a register. -/
def word16 (op : BitVec 32) (rd : Reg) (imm16 : BitVec 16) (hw : Fin 4) : BitVec 32 :=
  op ||| BitVec.ofNat 32 hw.val <<< 21 ||| field (imm16.setWidth 32) 16 5 |||
    field (BitVec.ofNat 32 rd.val) 5 0

def aMovz : Reg → BitVec 16 → Fin 4 → BitVec 32 := word16 0xD2800000

def aMovk : Reg → BitVec 16 → Fin 4 → BitVec 32 := word16 0xF2800000

def aMovn : Reg → BitVec 16 → Fin 4 → BitVec 32 := word16 0x92800000

/-- The word of an instruction that `emit_imm` uses. -/
def moveWord : Instr → Option (BitVec 32)
  | .movz rd imm hw => some (aMovz rd imm hw)
  | .movk rd imm hw => some (aMovk rd imm hw)
  | .movn rd imm hw => some (aMovn rd imm hw)
  | _ => none

/-! ## The processor -/

/-- What the processor reads in a word, for these three. -/
def decodeMove (w : BitVec 32) : Option Instr :=
  let rd := regOf (w.extractLsb' 0 5)
  let imm := w.extractLsb' 5 16
  let hw := Fin.ofNat 4 (w.extractLsb' 21 2).toNat
  if w.extractLsb' 23 9 = 0x1A5 then some (.movz rd imm hw)
  else if w.extractLsb' 23 9 = 0x1E5 then some (.movk rd imm hw)
  else if w.extractLsb' 23 9 = 0x125 then some (.movn rd imm hw)
  else none

/-- Words read and executed one behind the other. -/
def runWords : List (BitVec 32) → Machine → Option Machine
  | [], m => some m
  | w :: ws, m => do runWords ws (← exec (← decodeMove w) ⟨0, m.mem⟩ m)

theorem word16_parts {op w : BitVec 32} {rd : Reg} {imm : BitVec 16} {hw : Fin 4}
    (hop : op.extractLsb' 0 23 = 0) (h : word16 op rd imm hw = w) :
    w.extractLsb' 23 9 = op.extractLsb' 23 9 ∧ Fin.ofNat 4 (w.extractLsb' 21 2).toNat = hw ∧
      w.extractLsb' 5 16 = imm ∧ regOf (w.extractLsb' 0 5) = rd := by
  have hplace : ∀ k : Fin 4, BitVec.ofNat 32 k.val <<< 21 = field (BitVec.ofNat 32 k.val) 2 21 := by
    decide
  have hback : ∀ k : Fin 4, Fin.ofNat 4 ((BitVec.ofNat 32 k.val).setWidth 2).toNat = k := by decide
  have h21 := extract_part hop 21 2 (by decide)
  have h5 := extract_part hop 5 16 (by decide)
  have h0 := extract_part hop 0 5 (by decide)
  rw [Nat.zero_add] at h21 h5 h0
  rw [word16, hplace] at h
  refine ⟨?_, ?_, ?_, ?_⟩
  · simp (disch := decide) [← h, extractLsb'_or, extract_field_apart]
  · have hpart : w.extractLsb' 21 2 = (BitVec.ofNat 32 hw.val).setWidth 2 := by
      simp (disch := decide) [← h, extractLsb'_or, extract_field, extract_field_apart, h21]
    rw [hpart, hback]
  · simp (disch := decide) [← h, extractLsb'_or, extract_field, extract_field_apart, h5]
  · have hpart : w.extractLsb' 0 5 = (BitVec.ofNat 32 rd.val).setWidth 5 := by
      simp (disch := decide) [← h, extractLsb'_or, extract_field, extract_field_apart, h0]
    rw [hpart, regOf_word]

theorem move_read {i : Instr} {w : BitVec 32} (h : moveWord i = some w) :
    decodeMove w = some i ∧ ∀ m : Machine, exec i ⟨0, m.mem⟩ m = some (i.run m) := by
  cases i <;> simp only [moveWord, Option.some.injEq, reduceCtorEq] at h
  all_goals
    refine ⟨?_, fun m => rfl⟩
    obtain ⟨hop, hhw, himm, hrd⟩ := word16_parts (by decide) h
    rw [decodeMove, hop, hhw, himm, hrd]
    rfl

/-! ## The row -/

theorem immCode_words (rd : Reg) (v : Word) : ∀ i ∈ immCode rd v, (moveWord i).isSome :=
  immCode_all (fun _ _ => rfl) (fun _ _ => rfl) fun _ _ => rfl

theorem runWords_eq {l : List Instr} (hl : ∀ i ∈ l, (moveWord i).isSome) (m : Machine) :
    ∃ ws, l.map moveWord = ws.map some ∧ runWords ws m = some (runCode l m) := by
  induction l generalizing m with
  | nil => exact ⟨[], rfl, rfl⟩
  | cons i l ih =>
    obtain ⟨hi, hl⟩ := List.forall_mem_cons.1 hl
    obtain ⟨w, hw⟩ := Option.isSome_iff_exists.1 hi
    obtain ⟨hread, hexec⟩ := move_read hw
    obtain ⟨ws, hws, hrun⟩ := ih hl (i.run m)
    refine ⟨w :: ws, by rw [List.map_cons, List.map_cons, hw, hws], ?_⟩
    simp only [runWords, hread, hexec, Option.bind_eq_bind, Option.bind_some]
    exact hrun

/-- What `emit_imm` appends for a register `x0` to `x30` leaves the value in it, and nothing else
changes. -/
theorem emitImm_loads (rd : Fin 31) (v : Word) (s : GState) (m : Machine) :
    ∃ (l : List Instr) (ws : List (BitVec 32)) (m' : Machine),
      emitImm rd.castSucc v s = .ok ((), l.map .ins, s) ∧ l.map moveWord = ws.map some ∧
        runWords ws m = some m' ∧ m'.x rd.castSucc = v ∧
          m' = (m.set rd.castSucc v).goto (m.pc + l.length) := by
  have hrd : rd.castSucc ≠ 31 := Fin.castSucc_ne_last rd
  obtain ⟨ws, hws, hrun⟩ := runWords_eq (immCode_words rd.castSucc v) m
  refine ⟨_, ws, _, (Writes.imm rd.castSucc v).ok s, hws, hrun, ?_, run_immCode hrd⟩
  rw [run_immCode hrd, Machine.goto_x, Machine.set_x_self hrd]

end Verkos.Sav
