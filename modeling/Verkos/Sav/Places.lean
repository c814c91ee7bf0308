import Verkos.Sav.Copies

/-!
# The places where a value is copied

`Place` lists them, each with the piece of the generator that copies there. `copied_iff` says of
each for which types and addresses it copies the bytes of the value and writes nowhere else. The
two words that `frame_store` and `frame_store_field` keep below the stack pointer while they form
an address are not counted: nothing of the program is there.
-/

namespace Verkos.Sav

open Verkos.Lib (Emit origin origins origin_in origin_out origin_start)
open Machine (getSp_x get_x goto_mem goto_sp goto_x saved_x set_mem set_next set_sp set_x_of_ne
  set_x_self withMem_mem)

/-! ## Stores -/

/-- The instructions of `store_value`. -/
def storeCode (rbase : Reg) (off : Int) (t : Ty) : List Instr :=
  if t.isSlice then [strOff X0 rbase off .w64, strOff X1 rbase (off + 8) .w64]
  else if t.isAggregate then .mov X16 rbase :: copyCode off t.size.toNat
  else [strOff X0 rbase off (loadSize t)]

/-- What a store at `d` leaves, of the value in `v` and `w`. -/
def stored (t : Ty) (mem : Mem) (d v w : Word) : Mem :=
  if t.isSlice then (mem.write d 8 v).write (d + 8) 8 w
  else if t.isAggregate then mem ∘ origins d v (cut (chunks t.size.toNat))
  else mem.write d (loadSize t).bytes v

/-- An offset all parts of a value can be reached from: none, or the start of a near slot. -/
def InSlot (off : Int) (t : Ty) : Prop := off = 0 ∨ -240 ≤ off ∧ off + slotSize t ≤ 0

section Store

variable {m : Machine} {rbase : Reg} {off : Int} {t : Ty}

theorem writes_storeValue (rbase : Reg) (off : Int) (t : Ty) :
    Writes (storeValue rbase off t) (storeCode rbase off t) := by
  unfold storeValue storeCode
  split_ifs
  · exact (Writes.emit rfl).bind (.emit rfl)
  · exact (Writes.emit rfl).bind (.out (copyCode_plain _ _))
  · exact .emit rfl

theorem slotSize_le (t : Ty) : 8 ≤ slotSize t ∧ t.size ≤ slotSize t := by
  unfold slotSize roundUp8
  split_ifs <;> omega

theorem slotSize_slice (h : t.isSlice = true) : slotSize t = 16 := by
  cases t <;> first | rfl | cases h

theorem InSlot.chunks (h : InSlot off t) (p : Nat × Width) (hp : p ∈ chunks t.size.toNat) :
    encOffset (off + p.1) p.2 = off + encOffset p.1 p.2 := by
  rcases h with rfl | ⟨hlo, hhi⟩
  · rw [Int.zero_add, Int.zero_add]
  · have hsize := (slotSize_le t).2
    have hb := (tiles_chunks t.size.toNat).bounds (p.1, p.2.bytes)
      (List.mem_map.2 ⟨p, hp, rfl⟩)
    have hpos : 0 < p.2.bytes := by cases p.2 <;> decide
    rw [encOffset_eq_iff.2 (offsetFits_iff.2 (.inr (by omega))),
      encOffset_eq_iff.2 (offsetFits_iff.2 (.inr (by omega)))]

theorem InSlot.first (h : InSlot off t) (sz : Width) : encOffset off sz = off := by
  have hsize := (slotSize_le t).1
  refine encOffset_eq_iff.2 (offsetFits_iff.2 (.inr ?_))
  rcases h with rfl | h <;> omega

theorem run_str (sz : Width) (rt : Reg) (off : Int) (hb : rbase ≠ 31) (ht : rt ≠ 31) :
    Instr.run m (strOff rt rbase off sz) = (m.withMem (m.mem.write
      (m.x rbase + BitVec.ofInt 64 (encOffset off sz)) sz.bytes (m.x rt))).goto (m.pc + 1) := by
  rw [← getSp_x hb, ← get_x ht]
  rfl

theorem run_ldr (sz : Width) (rt : Reg) (off : Int) (sg : Bool) (hb : rbase ≠ 31) :
    Instr.run m (ldrOff rt rbase off sz sg) = (m.set rt (m.mem.load
      (m.x rbase + BitVec.ofInt 64 (encOffset off sz)) sz (sg && sz != .w64))).goto (m.pc + 1) := by
  rw [← getSp_x hb, ← set_next]
  rfl

theorem run_mov {rd rm : Reg} (hm : rm ≠ 31) :
    Instr.run m (.mov rd rm) = (m.set rd (m.x rm)).goto (m.pc + 1) := by
  rw [← get_x hm, ← set_next]
  rfl

theorem run_storeCode (hb : rbase ≠ 31) (hoff : InSlot off t) :
    (runCode (storeCode rbase off t) m).mem =
      stored t m.mem (m.x rbase + BitVec.ofInt 64 off) (m.x X0) (m.x X1) := by
  unfold storeCode stored
  split_ifs with hs ha
  · have hnear : encOffset (off + 8) .w64 = off + 8 := by
      refine encOffset_eq_iff.2 (offsetFits_iff.2 (.inr ?_))
      have h16 := slotSize_slice hs
      rcases hoff with rfl | h <;> omega
    rw [runCode_cons, run_str _ _ _ hb (by decide), runCode_cons, runCode_nil,
      run_str _ _ _ hb (by decide), hoff.first, hnear, BitVec.ofInt_add]
    simp only [goto_mem, withMem_mem, goto_x, Machine.withMem_x]
    rw [BitVec.add_assoc (m.x rbase)]
    rfl
  · obtain ⟨v, hv⟩ := @run_chunks ((m.set X16 (m.x rbase)).goto (m.pc + 1)) off
      (chunks t.size.toNat) hoff.chunks
    rw [runCode_cons, run_mov hb, copyCode_eq, hv, goto_mem, set_mem,
      withMem_mem, goto_mem, set_mem, goto_x,
      set_x_self (by decide), set_x_of_ne (by decide)]
  · rw [runCode_cons, runCode_nil, run_str _ _ _ hb (by decide), hoff.first]
    rfl

end Store

/-! ## Frame slots -/

/-- A frame slot for a value of a type: at least as far below the frame pointer as it is large. -/
structure Slot (t : Ty) where
  off : Int
  room : slotSize t ≤ off

/-- The instructions of `frame_store`. -/
def frameStoreCode (off : Int) (t : Ty) : List Instr :=
  if off ≤ 240 then storeCode X29 (-off) t
  else (.stpPre X0 X1 SP (-16) :: (localAddrCode X9 off ++ [Instr.ldpPost X0 X1 SP 16])) ++
    storeCode X9 0 t

/-- The instructions of `frame_store_field`. -/
def frameStoreFieldCode (slotOff fieldOff : Int) (t : Ty) : List Instr :=
  (.stpPre X0 X1 SP (-16) :: ((localAddrCode X9 slotOff ++
    if fieldOff ≠ 0 then immCode X17 (BitVec.ofInt 64 fieldOff) ++ [Instr.add X9 X9 X17] else []) ++
      [Instr.ldpPost X0 X1 SP 16])) ++ storeCode X9 0 t

/-- The bytes a pair is kept in while an address is formed. -/
def Kept (m : Machine) (q : Word) : Prop :=
  ∃ j < 16, q = m.sp + BitVec.ofInt 64 (-16) + BitVec.ofNat 64 j

section Frames

variable {m : Machine} {t : Ty}

theorem pushed_of_not_kept {q : Word} (h : ¬Kept m q) : m.pushed q = m.mem q := by
  rw [Machine.pushed, Mem.write_of_apart, Mem.write_of_apart]
  · rintro k hk rfl
    exact h ⟨k, by omega, rfl⟩
  · rintro k hk rfl
    refine h ⟨8 + k, by omega, ?_⟩
    rw [BitVec.ofNat_add, ← BitVec.add_assoc]
    rfl

theorem writes_frameStore (off : Int) (t : Ty) :
    Writes (frameStore off t) (frameStoreCode off t) := by
  unfold frameStore frameStoreCode
  split_ifs
  · exact writes_storeValue X29 (-off) t
  · exact (writes_pushPair.bind ((writes_localAddr X9 off).bind ((writes_popPair X0 X1).bind
      (writes_storeValue X9 0 t)))).of_eq (by simp)

theorem writes_frameStoreField (slotOff fieldOff : Int) (t : Ty) :
    Writes (frameStoreField slotOff fieldOff t) (frameStoreFieldCode slotOff fieldOff t) := by
  have hform : Writes _ [.add X9 X9 X17] := .emit rfl
  have hform := (Writes.imm X17 (BitVec.ofInt 64 fieldOff)).bind hform
  refine (writes_pushPair.bind ((writes_localAddr X9 slotOff).bind ((hform.onlyIf _).bind
    ((writes_popPair X0 X1).bind (writes_storeValue X9 0 t))))).of_eq ?_
  rw [frameStoreFieldCode]
  simp

theorem run_add {rd rn rm : Reg} (hn : rn ≠ 31) (hm : rm ≠ 31) :
    Instr.run m (.add rd rn rm) = (m.set rd (m.x rn + m.x rm)).goto (m.pc + 1) := by
  rw [← get_x hn, ← get_x hm, ← set_next]
  rfl

/-- A store through an address that was formed with the pair kept. -/
theorem run_kept_store {l : List Instr} {m' : Machine} {d : Word} (hl : runCode l m.saved = m')
    (hx : m'.x X0 = m.x X0 ∧ m'.x X1 = m.x X1) (hsp : m'.sp = m.saved.sp)
    (hmem : m'.mem = m.saved.mem) (hd : m'.x X9 = d) :
    (runCode ((.stpPre X0 X1 SP (-16) :: (l ++ [Instr.ldpPost X0 X1 SP 16])) ++ storeCode X9 0 t) m).mem =
      stored t m.pushed d (m.x X0) (m.x X1) := by
  have hmem' : m'.mem = m.pushed := by rw [hmem, Machine.saved_mem]
  have hzero : m'.x X9 + BitVec.ofInt 64 0 = d := by
    rw [hd]
    exact BitVec.add_zero d
  rw [runCode_append, run_kept hl hx hsp hmem, run_storeCode (by decide) (.inl rfl)]
  simp only [goto_mem, Machine.withSp_mem, goto_x, Machine.withSp_x, hmem', hx.1,
    hx.2, hzero]

theorem run_frameStore (s : Slot t) : ∃ mem : Mem, (∀ q, mem q = m.mem q ∨ 240 < s.off ∧ Kept m q) ∧
    (runCode (frameStoreCode s.off t) m).mem =
      stored t mem (m.x X29 - BitVec.ofInt 64 s.off) (m.x X0) (m.x X1) := by
  have hroom := s.room
  have hsize := (slotSize_le t).1
  unfold frameStoreCode
  split_ifs with hnear
  · refine ⟨m.mem, fun q => .inl rfl, ?_⟩
    rw [run_storeCode (by decide) (.inr (by omega)), BitVec.ofInt_neg, ← sub_eq_add_neg]
  · refine ⟨m.pushed, fun q => ?_, ?_⟩
    · by_cases hq : Kept m q
      · exact .inr ⟨by omega, hq⟩
      · exact .inl (pushed_of_not_kept hq)
    · have hl := @run_localAddr m.saved X9 s.off (by decide) (by decide)
        (by omega)
      refine run_kept_store hl ⟨?_, ?_⟩ ?_ ?_ ?_
      · rw [goto_x, set_x_of_ne (by decide), saved_x]
      · rw [goto_x, set_x_of_ne (by decide), saved_x]
      · rw [goto_sp, set_sp]
      · rw [goto_mem, set_mem]
      · rw [goto_x, set_x_self (by decide), saved_x]

/-- The address of a field of a slot. -/
theorem run_fieldAddr {slotOff : Int} (fieldOff : Int) (hslot : 0 ≤ slotOff) :
    ∃ m', runCode (localAddrCode X9 slotOff ++ if fieldOff ≠ 0 then
        immCode X17 (BitVec.ofInt 64 fieldOff) ++ [Instr.add X9 X9 X17] else []) m = m' ∧
      (∀ q, q ≠ X9 → q ≠ X17 → m'.x q = m.x q) ∧ m'.sp = m.sp ∧ m'.mem = m.mem ∧
      m'.x X9 = m.x X29 - BitVec.ofInt 64 slotOff + BitVec.ofInt 64 fieldOff := by
  have hl := @run_localAddr m X9 slotOff (by decide) (by decide) hslot
  split_ifs with hf
  · refine ⟨_, by rw [runCode_append, hl, runCode_append, run_immCode (by decide), runCode_cons,
      runCode_nil, run_add (by decide) (by decide)], fun q h9 h17 => ?_, ?_, ?_, ?_⟩
    · rw [goto_x, set_x_of_ne h9, goto_x, set_x_of_ne h17,
        goto_x, set_x_of_ne h9]
    · rw [goto_sp, set_sp, goto_sp, set_sp, goto_sp,
        set_sp]
    · rw [goto_mem, set_mem, goto_mem, set_mem, goto_mem,
        set_mem]
    · rw [goto_x, set_x_self (by decide), goto_x,
        set_x_self (by decide), set_x_of_ne (by decide), goto_x,
        set_x_self (by decide)]
  · have hzero : fieldOff = 0 := not_not.1 hf
    have hadd : m.x X29 - BitVec.ofInt 64 slotOff + BitVec.ofInt 64 fieldOff =
        m.x X29 - BitVec.ofInt 64 slotOff := by
      rw [hzero]
      exact BitVec.add_zero _
    rw [List.append_nil, hadd]
    refine ⟨_, hl, fun q h9 _ => ?_, ?_, ?_, ?_⟩
    · rw [goto_x, set_x_of_ne h9]
    · rw [goto_sp, set_sp]
    · rw [goto_mem, set_mem]
    · rw [goto_x, set_x_self (by decide)]

theorem run_frameStoreField {slotOff : Int} (fieldOff : Int) (hslot : 0 ≤ slotOff) :
    (runCode (frameStoreFieldCode slotOff fieldOff t) m).mem = stored t m.pushed
      (m.x X29 - BitVec.ofInt 64 slotOff + BitVec.ofInt 64 fieldOff) (m.x X0) (m.x X1) := by
  obtain ⟨m', hl, hx, hsp, hmem, h9⟩ := run_fieldAddr (m := m.saved) fieldOff hslot
  rw [saved_x] at h9
  refine run_kept_store hl ⟨?_, ?_⟩ hsp hmem h9
  · rw [hx _ (by decide) (by decide), saved_x]
  · rw [hx _ (by decide) (by decide), saved_x]

/-! ## A field of a value -/

/-- The instructions of `load_value`. -/
def loadCode (rbase : Reg) (off : Int) (t : Ty) : List Instr :=
  if t.isAggregate then
    if off = 0 then [.mov X0 rbase]
    else immCode X17 (BitVec.ofInt 64 off) ++ [Instr.add X0 rbase X17]
  else if t.isSlice then [ldrOff X1 rbase (off + 8) .w64 false, ldrOff X0 rbase off .w64 false]
  else [ldrOff X0 rbase off (loadSize t) t.isSigned]

theorem writes_loadValue (rbase : Reg) (off : Int) (t : Ty) :
    Writes (loadValue rbase off t) (loadCode rbase off t) := by
  unfold loadValue loadCode
  split_ifs
  · exact .emit rfl
  · exact (Writes.imm _ _).bind (.emit rfl)
  · exact (Writes.emit rfl).bind (.emit rfl)
  · exact .emit rfl

/-- What `load_value` brings of the value at `a` when its offset is cut. -/
def loaded (t : Ty) (m : Machine) (a : Word) (off : Int) : Word × Word :=
  if t.isAggregate then (a + BitVec.ofInt 64 off, m.x X1)
  else if t.isSlice then (m.mem.load (a + BitVec.ofInt 64 (encOffset off .w64)) .w64 false,
    m.mem.load (a + BitVec.ofInt 64 (encOffset (off + 8) .w64)) .w64 false)
  else (m.mem.load (a + BitVec.ofInt 64 (encOffset off (loadSize t))) (loadSize t)
    (t.isSigned && loadSize t != .w64), m.x X1)

/-- `load_value` from the address in `x0`. -/
theorem run_loadCode (off : Int) :
    ∃ m', runCode (loadCode X0 off t) m = m' ∧ m'.x X0 = (loaded t m (m.x X0) off).1 ∧
      m'.x X1 = (loaded t m (m.x X0) off).2 ∧ m'.x X29 = m.x X29 ∧ m'.sp = m.sp ∧
      m'.mem = m.mem := by
  refine ⟨_, rfl, ?_⟩
  unfold loadCode loaded
  split_ifs with ha hz hs
  · rw [runCode_cons, runCode_nil, run_mov (by decide), Machine.set_self rfl, hz]
    exact ⟨(BitVec.add_zero _).symm, rfl, rfl, rfl, rfl⟩
  · rw [runCode_append, run_immCode (by decide), runCode_cons, runCode_nil,
      run_add (by decide) (by decide)]
    simp only [goto_x, goto_sp, goto_mem, set_sp, set_mem,
      and_true]
    rw [set_x_self (by decide), set_x_of_ne (by decide),
      set_x_self (by decide), set_x_of_ne (by decide), goto_x,
      set_x_of_ne (by decide), set_x_of_ne (by decide), goto_x,
      set_x_of_ne (by decide)]
    exact ⟨rfl, rfl, rfl⟩
  · rw [runCode_cons, run_ldr _ _ _ _ (by decide), runCode_cons, runCode_nil,
      run_ldr _ _ _ _ (by decide)]
    simp only [goto_x, goto_sp, goto_mem, set_sp, set_mem,
      and_true, Bool.false_and]
    rw [set_x_self (by decide), set_x_of_ne (by decide),
      set_x_of_ne (by decide), goto_x, set_x_self (by decide),
      set_x_of_ne (by decide), goto_x, set_x_of_ne (by decide)]
    exact ⟨rfl, rfl, rfl⟩
  · rw [runCode_cons, runCode_nil, run_ldr _ _ _ _ (by decide)]
    simp only [goto_x, goto_sp, goto_mem, set_sp, set_mem,
      and_true]
    rw [set_x_self (by decide), set_x_of_ne (by decide),
      set_x_of_ne (by decide)]
    exact ⟨rfl, rfl, rfl⟩

end Frames

/-! ## The places -/

/-- Where a value of a type is copied: a `let` with a value, an assignment, a result, a parameter,
what a case carries, and a name of a match arm. A field of a case has an offset that is a C
`int`. -/
inductive Place (t : Ty) where
  | init
  | assign
  | result
  | param (s : Slot t)
  | payload (slotOff fieldOff : Int) (hslot : 0 ≤ slotOff)
  | binding (fieldOff : Nat) (hfield : fieldOff < 2 ^ 31) (s : Slot t)

namespace Place

variable {t : Ty}

/-- The piece of the generator that copies there. -/
def gen : Place t → GenM Unit
  | .init | .result => storeValue X9 0 t
  | .assign => storeValue X16 0 t
  | .param s => frameStore s.off t
  | .payload slotOff fieldOff _ => frameStoreField slotOff fieldOff t
  | .binding fieldOff _ s => do
    loadValue X0 fieldOff t
    frameStore s.off t

def code : Place t → List Instr
  | .init | .result => storeCode X9 0 t
  | .assign => storeCode X16 0 t
  | .param s => frameStoreCode s.off t
  | .payload slotOff fieldOff _ => frameStoreFieldCode slotOff fieldOff t
  | .binding fieldOff _ s => loadCode X0 fieldOff t ++ frameStoreCode s.off t

theorem writes (p : Place t) : Writes p.gen p.code := by
  cases p with
  | init | assign | result => exact writes_storeValue ..
  | param s => exact writes_frameStore ..
  | payload => exact writes_frameStoreField ..
  | binding => exact (writes_loadValue ..).bind (writes_frameStore ..)

/-- In a case of an enum, where there are values of all types. -/
def inCase : Place t → Bool
  | .payload .. | .binding .. => true
  | _ => false

/-- An address is formed there while a pair is kept on the stack. -/
def keeps : Place t → Bool
  | .param s | .binding _ _ s => 240 < s.off
  | .payload .. => true
  | _ => false

/-- How far the value stands behind the address in `x0`. -/
def shift : Place t → Word
  | .binding fieldOff _ _ => BitVec.ofNat 64 fieldOff
  | _ => 0

/-- The address to copy to. -/
def target (m : Machine) : Place t → Word
  | .init | .result => m.x X9
  | .assign => m.x X16
  | .param s | .binding _ _ s => m.x X29 - BitVec.ofInt 64 s.off
  | .payload slotOff fieldOff _ => m.x X29 - BitVec.ofInt 64 slotOff + BitVec.ofInt 64 fieldOff

/-- The code of a place is about to copy from `src` to `dst`, and the value does not reach into
the stack that is free. -/
structure Ready (p : Place t) (m : Machine) (dst src : Word) : Prop where
  source : m.x X0 + p.shift = src
  target : p.target m = dst
  used : p.keeps = true → ∀ i < t.size.toNat, ¬Kept m (src + BitVec.ofNat 64 i)

/-- A number, a pointer or a slice from `x0` and `x1` into memory. -/
def put (t : Ty) (mem : Mem) (d v w : Word) : Mem :=
  if t.isSlice then (mem.write d 8 v).write (d + 8) 8 w else mem.write d t.size.toNat v

/-- The memory a copy is to leave: the bytes of the value at `dst`, and the others as they were.
What a case carries is in registers, if it is not an array. -/
def wanted (m : Machine) (dst src : Word) : Place t → Mem
  | .payload .. => if t.isAggregate then m.mem ∘ origin dst src t.size.toNat
    else put t m.mem dst (m.x X0) (m.x X1)
  | _ => m.mem ∘ origin dst src t.size.toNat

/-- The code of a place runs to its end and leaves that. -/
def Copies (its pre l : List Item) (p : Place t) (m : Machine) (dst src : Word) : Prop :=
  Path its (fun _ => True) m (runItems its l m) ∧
    (runItems its l m).pc = (coded (pre ++ l)).length ∧
    ∀ q, (p.keeps = true → ¬Kept m q) → (runItems its l m).mem q = p.wanted m dst src q

/-- The loads and stores reach what they name, and the target does not start inside the source. -/
def Fits (p : Place t) (dst src : Word) : Prop :=
  if t.isAggregate then dst = src ∨
    CopyFits t.size.toNat ∧ (t.size.toNat ≤ (dst - src).toNat ∨ t.size.toNat = 8)
  else match p with
    | .binding fieldOff _ _ =>
      if t.isSlice then offsetFits fieldOff .w64 ∧ offsetFits (fieldOff + 8) .w64
      else offsetFits fieldOff (loadSize t)
    | _ => True

/-! ### Where the generator has them -/

variable {E : Env}

/-! ### What the code leaves -/

variable {m : Machine} {dst src : Word}

/-- The value as it is stored. -/
def value (m : Machine) : Place t → Word × Word
  | .binding fieldOff _ _ => loaded t m (m.x X0) fieldOff
  | _ => (m.x X0, m.x X1)

theorem run_mem (p : Place t) (hr : p.Ready m dst src) : ∃ mem : Mem,
    (∀ q, mem q = m.mem q ∨ p.keeps = true ∧ Kept m q) ∧
      (runCode p.code m).mem = stored t mem dst (p.value m).1 (p.value m).2 := by
  have ht := hr.target
  have hadd : ∀ a : Word, a + BitVec.ofInt 64 0 = a := fun a => BitVec.add_zero a
  cases p with
  | init | result | assign =>
    refine ⟨m.mem, fun q => .inl rfl, ?_⟩
    rw [code, run_storeCode (by decide) (.inl rfl), hadd, ← ht]
    rfl
  | param s =>
    obtain ⟨mem, hmem, hrun⟩ := run_frameStore (m := m) s
    refine ⟨mem, fun q => ?_, ?_⟩
    · rw [keeps, decide_eq_true_iff]
      exact hmem q
    · rw [code, hrun, ← ht]
      rfl
  | payload slotOff fieldOff hslot =>
    refine ⟨m.pushed, fun q => ?_, ?_⟩
    · by_cases hq : Kept m q
      · exact .inr ⟨rfl, hq⟩
      · exact .inl (pushed_of_not_kept hq)
    · rw [code, run_frameStoreField fieldOff hslot, ← ht]
      rfl
  | binding fieldOff hfield s =>
    obtain ⟨m', hl, h0, h1, h29, hsp, hm⟩ := run_loadCode (m := m) (t := t) fieldOff
    obtain ⟨mem, hmem, hrun⟩ := run_frameStore (m := m') s
    refine ⟨mem, fun q => ?_, ?_⟩
    · rw [keeps, decide_eq_true_iff, ← hm]
      unfold Kept
      rw [← hsp]
      exact hmem q
    · rw [code, runCode_append, hl, hrun, h0, h1, h29, ← ht]
      rfl

/-- Where the byte at `q` comes from in the end. -/
def source (dst src : Word) (p : Place t) (q : Word) : Word :=
  if t.isAggregate then origins dst src (cut (chunks t.size.toNat)) q
  else match p with
    | .binding fieldOff _ _ =>
      let a := src - BitVec.ofNat 64 fieldOff
      if t.isSlice then
        if (q - (dst + 8)).toNat < 8 then
          a + BitVec.ofInt 64 (encOffset (fieldOff + 8) .w64) + (q - (dst + 8))
        else origin dst (a + BitVec.ofInt 64 (encOffset fieldOff .w64)) 8 q
      else origin dst (a + BitVec.ofInt 64 (encOffset fieldOff (loadSize t))) (loadSize t).bytes q
    | _ => q

/-- What is copied in memory. -/
def isCopy (p : Place t) : Bool :=
  t.isAggregate || match p with
    | .binding .. => true
    | _ => false

theorem run_source (p : Place t) (hp : p.isCopy = true) (hr : p.Ready m dst src) {q : Word}
    (hq : p.keeps = true → ¬Kept m q) (hs : p.keeps = true → ¬Kept m (p.source dst src q)) :
    (runCode p.code m).mem q = m.mem (p.source dst src q) := by
  obtain ⟨mem, hmem, hrun⟩ := p.run_mem hr
  have hmem : ∀ q, (p.keeps = true → ¬Kept m q) → mem q = m.mem q := by
    intro q hq
    rcases hmem q with h | ⟨hk, h⟩
    · exact h
    · exact absurd h (hq hk)
  rw [hrun]
  by_cases ha : t.isAggregate = true
  · have hns : t.isSlice = false := by cases t <;> first | rfl | cases ha
    have hv : (p.value m).1 = src := by
      rw [← hr.source]
      cases p with
      | binding =>
        rw [value, loaded, if_pos ha, shift, BitVec.ofInt_natCast]
      | _ => exact (BitVec.add_zero _).symm
    have hsrc : p.source dst src q = origins dst src (cut (chunks t.size.toNat)) q := if_pos ha
    rw [hsrc] at hs ⊢
    rw [stored, if_neg (by simp [hns]), if_pos ha, Function.comp_apply, hv]
    exact hmem _ hs
  · cases p with
    | binding fieldOff hfield s =>
      have hbase : m.x X0 = src - BitVec.ofNat 64 fieldOff := by
        rw [← hr.source]
        exact (BitVec.add_sub_cancel _ _).symm
      rw [value, loaded, if_neg ha, hbase, stored]
      by_cases hsl : t.isSlice = true
      · have hw : ∀ (mem' : Mem) (b a : Word), mem'.write b 8 (m.mem.load a .w64 false) = fun q =>
            if (q - b).toNat < 8 then m.mem (a + (q - b)) else mem' q := fun mem' b a =>
          @Mem.write_load m.mem mem' a b .w64 false
        have hsrc : (Place.binding fieldOff hfield s).source dst src q =
            if (q - (dst + 8)).toNat < 8 then src - BitVec.ofNat 64 fieldOff +
              BitVec.ofInt 64 (encOffset (fieldOff + 8) .w64) + (q - (dst + 8))
            else origin dst (src - BitVec.ofNat 64 fieldOff +
              BitVec.ofInt 64 (encOffset fieldOff .w64)) 8 q := (if_neg ha).trans (if_pos hsl)
        rw [hsrc, if_pos hsl, if_pos hsl, hw, hw, origin]
        dsimp only
        split_ifs
        · rfl
        · rfl
        · exact hmem q hq
      · have hsrc : (Place.binding fieldOff hfield s).source dst src q = origin dst
            (src - BitVec.ofNat 64 fieldOff + BitVec.ofInt 64 (encOffset fieldOff (loadSize t)))
              (loadSize t).bytes q := (if_neg ha).trans (if_neg hsl)
        rw [hsrc, if_neg hsl, if_neg hsl, if_neg ha, Mem.write_load, origin]
        dsimp only
        split_ifs
        · rfl
        · exact hmem q hq
    | _ => simp [isCopy, ha] at hp

/-! ### When that is the value -/

theorem reach_iff {off : Int} {sz : Width} (hlo : -2 ^ 62 ≤ off) (hhi : off < 2 ^ 62) :
    BitVec.ofInt 64 (encOffset off sz) = BitVec.ofInt 64 off ↔ offsetFits off sz := by
  rw [← encOffset_eq_iff]
  constructor
  · intro h
    by_cases hfit : offsetFits off sz
    · exact encOffset_eq_iff.2 hfit
    · have hcut := encOffset_cut hfit
      have hint := congrArg BitVec.toInt h
      rw [BitVec.toInt_ofInt, BitVec.toInt_ofInt, Int.bmod_eq_of_le (by omega) (by omega),
        Int.bmod_eq_of_le (by omega) (by omega)] at hint
      exact hint
  · intro h
    rw [h]

theorem loadSize_bytes (ha : ¬t.isAggregate = true) (hs : ¬t.isSlice = true)
    (hv : t.isVoid = false) : t.size.toNat = (loadSize t).bytes := by
  cases t with
  | int w sg => exact Int.toNat_natCast _
  | bool | ptr | cap => rfl
  | void => cases hv
  | slice => exact absurd rfl hs
  | array | struct | enum => exact absurd rfl ha

theorem sub_add_iff {a b c : Word} : a - b + c = a ↔ c = b := by
  rw [sub_add_eq_add_sub, sub_eq_iff_eq_add, BitVec.add_right_inj]

theorem source_eq_iff (p : Place t) (hp : p.isCopy = true) (hv : t.isVoid = false) :
    (∀ q, p.source dst src q = origin dst src t.size.toNat q) ↔ p.Fits dst src := by
  by_cases ha : t.isAggregate = true
  · have hsrc : p.source dst src = origins dst src (cut (chunks t.size.toNat)) :=
      funext fun q => if_pos ha
    unfold Fits
    rw [hsrc, ← funext_iff, copies_iff, if_pos ha]
  cases p with
  | binding f hf s =>
    rw [Fits, if_neg ha]
    by_cases hs : t.isSlice = true
    · have hsrc : ∀ q, (Place.binding f hf s).source dst src q =
          if (q - (dst + 8)).toNat < 8 then src - BitVec.ofNat 64 f +
            BitVec.ofInt 64 (encOffset (f + 8) .w64) + (q - (dst + 8))
          else origin dst (src - BitVec.ofNat 64 f + BitVec.ofInt 64 (encOffset f .w64)) 8 q :=
        fun q => (if_neg ha).trans (if_pos hs)
      have h16 : t.size.toNat = 16 := by cases t <;> first | rfl | cases hs
      rw [if_pos hs, ← reach_iff (by omega) (by omega), ← reach_iff (by omega) (by omega),
        BitVec.ofInt_add, BitVec.ofInt_natCast, h16]
      simp only [hsrc]
      constructor
      · intro h
        refine ⟨?_, ?_⟩
        · have h0 := h dst
          have hfar : dst - (dst + 8) = -8 := by
            rw [sub_add_cancel_left]
          rw [hfar, if_neg (by decide), origin_start (by decide), origin_start (by decide),
            sub_add_iff] at h0
          exact h0
        · have h8 := h (dst + 8)
          rw [sub_self, if_pos (by decide), origin, add_sub_cancel_left, if_pos (by decide),
            add_zero, sub_add_eq_add_sub, sub_eq_iff_eq_add, BitVec.add_assoc,
            BitVec.add_right_inj, BitVec.add_comm] at h8
          exact h8
      · rintro ⟨h0, h8⟩ q
        have hfar : q - (dst + 8) = q - dst - 8 := sub_add_eq_sub_sub ..
        have hjoin : ∀ e : Word, src + BitVec.ofInt 64 8 + (e - 8) = src + e := by
          intro e
          rw [add_assoc]
          exact congrArg (src + ·) (add_sub_cancel _ e)
        rw [h0, h8, BitVec.sub_add_cancel, ← BitVec.add_assoc, BitVec.sub_add_cancel, origin, origin,
          hfar, hjoin]
        generalize q - dst = e
        have h8e : (8 : Word).toNat = 8 := rfl
        split_ifs <;> first | rfl | bv_omega
    · have hsrc : ∀ q, (Place.binding f hf s).source dst src q = origin dst
          (src - BitVec.ofNat 64 f + BitVec.ofInt 64 (encOffset f (loadSize t)))
            (loadSize t).bytes q := fun q => (if_neg ha).trans (if_neg hs)
      have hpos : 0 < (loadSize t).bytes := by cases loadSize t <;> decide
      rw [if_neg hs, ← reach_iff (by omega) (by omega), BitVec.ofInt_natCast,
        loadSize_bytes ha hs hv]
      simp only [hsrc]
      constructor
      · intro h
        have h0 := h dst
        rw [origin_start hpos, origin_start hpos, sub_add_iff] at h0
        exact h0
      · intro h q
        rw [h, BitVec.sub_add_cancel]
  | _ => simp [isCopy, ha] at hp

/-! ### Every run -/

theorem spare (src a b c : Word) {n : Nat} (hn : n < 2 ^ 31) : ∃ base : Word,
    (∀ i < n, ∀ j < 16, src + BitVec.ofNat 64 i ≠ base + BitVec.ofNat 64 j) ∧
      ∀ q, q = a ∨ q = b ∨ q = c → ∀ j < 16, q ≠ base + BitVec.ofNat 64 j := by
  have hfrom : ∀ q : Word, q = src + BitVec.ofNat 64 (q - src).toNat := by
    intro q
    rw [BitVec.ofNat_toNat, BitVec.setWidth_eq, BitVec.add_comm, BitVec.sub_add_cancel]
  have ha := (a - src).isLt
  have hb := (b - src).isLt
  have hc := (c - src).isLt
  -- four places, and each address is in one of them at most
  obtain ⟨k, hk, ha', hb', hc'⟩ : ∃ k < 4,
      ((a - src).toNat < n + 16 * k ∨ n + 16 * k + 16 ≤ (a - src).toNat) ∧
        ((b - src).toNat < n + 16 * k ∨ n + 16 * k + 16 ≤ (b - src).toNat) ∧
          ((c - src).toNat < n + 16 * k ∨ n + 16 * k + 16 ≤ (c - src).toNat) := by
    generalize (a - src).toNat = x
    generalize (b - src).toNat = y
    generalize (c - src).toNat = z
    by_contra hnone
    have hk : ∀ k < 4, ¬((x < n + 16 * k ∨ n + 16 * k + 16 ≤ x) ∧
        (y < n + 16 * k ∨ n + 16 * k + 16 ≤ y) ∧ (z < n + 16 * k ∨ n + 16 * k + 16 ≤ z)) :=
      fun k hk h => hnone ⟨k, hk, h⟩
    have h0 := hk 0 (by decide)
    have h1 := hk 1 (by decide)
    have h2 := hk 2 (by decide)
    have h3 := hk 3 (by decide)
    omega
  refine ⟨src + BitVec.ofNat 64 (n + 16 * k), fun i hi j hj he => ?_, fun q hq j hj he => ?_⟩
  · rw [BitVec.add_assoc, ← BitVec.ofNat_add, Lib.add_ofNat_inj (by omega) (by omega)] at he
    omega
  · rw [BitVec.add_assoc, ← BitVec.ofNat_add, hfrom q,
      Lib.add_ofNat_inj (q - src).isLt (by omega)] at he
    rcases hq with rfl | rfl | rfl <;> omega

/-- A state in which the code of a place is about to copy from `src` to `dst`. -/
def start (p : Place t) (dst src sp : Word) (mem : Mem) (pc : Nat) : Machine where
  x := fun r =>
    if r = X0 then src - p.shift
    else if r = X29 then match p with
      | .param s | .binding _ _ s => dst + BitVec.ofInt 64 s.off
      | .payload slotOff fieldOff _ => dst - BitVec.ofInt 64 fieldOff + BitVec.ofInt 64 slotOff
      | _ => 0
    else dst
  sp := sp
  n := false
  z := false
  c := false
  v := false
  mem := mem
  pc := pc

theorem start_ready (p : Place t) (sp : Word) (mem : Mem) (pc : Nat) (hused : p.keeps = true →
    ∀ i < t.size.toNat, ¬Kept (p.start dst src sp mem pc) (src + BitVec.ofNat 64 i)) :
    p.Ready (p.start dst src sp mem pc) dst src where
  source := BitVec.sub_add_cancel _ _
  target := by
    cases p with
    | init | assign | result => rfl
    | param s | binding f hf s => exact BitVec.add_sub_cancel _ _
    | payload slotOff fieldOff h =>
      change dst - _ + _ - _ + _ = dst
      rw [BitVec.add_sub_cancel, BitVec.sub_add_cancel]
  used := hused

variable {l : List Item} {s s' : GState}

/-- If the code copies whatever the memory holds, its bytes come from the value. -/
theorem source_of_copies (its pre : List Item) (p : Place t) (hp : p.isCopy = true) (hsize : t.size < 2 ^ 31)
    (hgen : p.gen s = .ok ((), l, s')) (h : ∀ m : Machine, m.pc = (coded pre).length →
      p.Ready m dst src → p.Copies its pre l m dst src) (q : Word) :
    p.source dst src q = origin dst src t.size.toNat q := by
  rw [p.writes.ok] at hgen
  cases hgen
  by_contra hne
  obtain ⟨base, hvalue, hbase⟩ := spare src q (p.source dst src q)
    (origin dst src t.size.toNat q) (n := t.size.toNat) (by omega)
  let mem : Mem := fun a => if a = p.source dst src q then 1 else 0
  have hm : ∀ pc q, Kept (p.start dst src (base - BitVec.ofInt 64 (-16)) mem pc) q ↔
      ∃ j < 16, q = base + BitVec.ofNat 64 j := by
    intro pc q
    rw [Kept]
    change (∃ j < 16, q = base - BitVec.ofInt 64 (-16) + BitVec.ofInt 64 (-16) + _) ↔ _
    rw [BitVec.sub_add_cancel]
  have hready : p.Ready (p.start dst src (base - BitVec.ofInt 64 (-16)) mem (coded pre).length) dst
      src := p.start_ready _ _ _ fun _ i hi hk => by
      obtain ⟨j, hj, he⟩ := (hm _ _).1 hk
      exact hvalue i hi j hj he
  have hq : ∀ a, a = q ∨ a = p.source dst src q ∨ a = origin dst src t.size.toNat q →
      ¬Kept (p.start dst src (base - BitVec.ofInt 64 (-16)) mem (coded pre).length) a := by
    intro a ha hk
    obtain ⟨j, hj, he⟩ := (hm _ _).1 hk
    exact hbase a ha j hj he
  have hcopy := (h _ rfl hready).2.2 q fun _ => hq q (.inl rfl)
  have hwant : p.wanted (p.start dst src (base - BitVec.ofInt 64 (-16)) mem (coded pre).length) dst
      src q = mem (origin dst src t.size.toNat q) := by
    cases p with
    | payload =>
      have ha : t.isAggregate = true := by simpa [isCopy] using hp
      exact congrFun (if_pos ha) q
    | _ => rfl
  rw [runItems_ins, p.run_source hp hready (fun _ => hq q (.inl rfl)) fun _ => hq _ (.inr (.inl rfl)),
    hwant] at hcopy
  change mem _ = mem _ at hcopy
  dsimp only [mem] at hcopy
  rw [if_pos rfl, if_neg (Ne.symm hne)] at hcopy
  exact absurd hcopy (by decide)

theorem stored_eq_put (ha : ¬t.isAggregate = true) (hv : t.isVoid = false) {mem mem' : Mem}
    {d v w q : Word} (h : mem q = mem' q) : stored t mem d v w q = put t mem' d v w q := by
  unfold stored put
  by_cases hs : t.isSlice = true
  · rw [if_pos hs, if_pos hs]
    unfold Mem.write
    split_ifs <;> first | rfl | exact h
  · rw [if_neg hs, if_neg hs, if_neg ha, loadSize_bytes ha hs hv]
    unfold Mem.write
    split_ifs
    · rfl
    · exact h

/-- Of every struct, array and enum, at every place, and of everything a case carries: what is
copied is the value when the loads and stores reach what they name and the target does not start
inside the source, and only then. -/
theorem copies_iff_fits (t : Ty) (p : Place t) (dst src : Word) (hsize : t.size < 2 ^ 31)
    (ht : t.isAggregate = true ∨ p.inCase = true ∧ t.isVoid = false) :
    (∀ (its pre l : List Item) (s s' : GState) (m : Machine), p.gen s = .ok ((), l, s') →
      StandsAt its pre l → m.pc = (coded pre).length → p.Ready m dst src →
        p.Copies its pre l m dst src) ↔ p.Fits dst src := by
  have hv : t.isVoid = false := by
    rcases ht with ha | ⟨-, hv⟩
    · cases t <;> first | rfl | cases ha
    · exact hv
  constructor
  · intro h
    by_cases hp : p.isCopy = true
    · refine (p.source_eq_iff hp hv).1 fun q => ?_
      exact source_of_copies (p.code.map .ins) [] p hp hsize
        (p.writes.ok ⟨0, [], false, false, false⟩) (fun m hpc hr => h _ _ _ ⟨0, [], false, false, false⟩ _ m
          (p.writes.ok _) ⟨[], by simp⟩ hpc hr) q
    · -- what a case carries in registers
      have ha : ¬t.isAggregate = true := fun ha => hp (by simp [isCopy, ha])
      cases p with
      | binding => simp [isCopy] at hp
      | payload =>
        unfold Fits
        rw [if_neg ha]
        trivial
      | _ => simp [inCase, ha] at ht
  · intro hfits its pre l s s' m hgen hat hpc hr
    rw [p.writes.ok] at hgen
    cases hgen
    obtain ⟨hpath, hend⟩ : Path its (fun _ => True) m (runCode p.code m) ∧ _ :=
      p.writes.run hat hpc fun _ _ => trivial
    rw [← runItems_ins its] at hpath hend
    refine ⟨hpath, hend, fun q hq => ?_⟩
    rw [runItems_ins]
    by_cases hp : p.isCopy = true
    · have hsrc := (p.source_eq_iff hp hv).2 hfits q
      have hwant : p.wanted m dst src q = m.mem (origin dst src t.size.toNat q) := by
        cases p with
        | payload =>
          have ha : t.isAggregate = true := by simpa [isCopy] using hp
          exact congrFun (if_pos ha) q
        | _ => rfl
      rw [p.run_source hp hr hq ?_, hsrc, hwant]
      intro hk
      rw [hsrc, origin]
      split_ifs with hin
      · have hi := hr.used hk _ hin
        rwa [BitVec.ofNat_toNat, BitVec.setWidth_eq] at hi
      · exact hq hk
    · have ha : ¬t.isAggregate = true := fun ha => hp (by simp [isCopy, ha])
      obtain ⟨mem, hmem, hrun⟩ := p.run_mem hr
      have hq' : mem q = m.mem q := by
        rcases hmem q with h | ⟨hk, h⟩
        · exact h
        · exact absurd h (hq hk)
      rw [hrun, stored_eq_put ha hv hq']
      cases p with
      | payload => exact (congrFun (if_neg ha) q).symm
      | binding => simp [isCopy] at hp
      | _ => simp [inCase, ha] at ht

/-- An array of sixteen bytes is copied. -/
theorem copies_iff_fits_array : (Place.init : Place (.array .u8 16)).Fits 0x600000 0x700000 ∧
      ∀ (its pre l : List Item) (s s' : GState) (m : Machine),
        (Place.init : Place (.array .u8 16)).gen s = .ok ((), l, s') →
          StandsAt its pre l → m.pc = (coded pre).length →
            (Place.init : Place (.array .u8 16)).Ready m 0x600000 0x700000 →
              (Place.init : Place (.array .u8 16)).Copies its pre l m 0x600000 0x700000 := by
  have hfits : (Place.init : Place (.array .u8 16)).Fits 0x600000 0x700000 := by
    unfold Fits
    decide
  exact ⟨hfits, (copies_iff_fits (.array .u8 16) .init 0x600000 0x700000 (by decide)
    (.inl rfl)).2 hfits⟩

/-- `entry fn main() -> i64 { var a: [4097]u8; var b: [4097]u8; b = a; return 0; }` -/
def largeCopy : SavUnit :=
  mainOf [
    .letS ⟨1, 26⟩ true "a" (.typed (.array .u8 4097) none),
    .letS ⟨1, 44⟩ true "b" (.typed (.array .u8 4097) none),
    .expr (.assign ⟨1, 64⟩ (.var ⟨1, 62⟩ "b") (.var ⟨1, 66⟩ "a")),
    .ret ⟨1, 69⟩ (some (.int ⟨1, 76⟩ 0))]

/-- The last byte of an array of 4097 is not copied. -/
theorem largeCopy_misses : ∃ c : Compiled, c.unit = largeCopy ∧ ∃ pre l s s',
    (Place.assign : Place (.array .u8 4097)).gen s = .ok ((), l, s') ∧ StandsAt c.items pre l ∧
      ∃ m : Machine, m.pc = (coded pre).length ∧
        (Place.assign : Place (.array .u8 4097)).Ready m 0x600000 0x700000 ∧
          ¬(Place.assign : Place (.array .u8 4097)).Copies c.items pre l m 0x600000 0x700000 := by
  have hc : (compile "a.sav" largeCopy true).any (fun c => ((c.items.drop 19).take 1027) =
      (Place.assign : Place (.array .u8 4097)).code.map .ins) = true := by
    decide +kernel
  obtain ⟨c, hcomp, hc⟩ := (Option.any_eq_true _ _).1 hc
  have hl := of_decide_eq_true hc
  refine ⟨c, compile_unit hcomp, c.items.take 19, _, ⟨0, [], false, false, false⟩, _,
    Place.assign.writes.ok _, ⟨(c.items.drop 19).drop 1027, ?_⟩, ?_⟩
  · rw [← hl, List.append_assoc, List.take_append_drop, List.take_append_drop]
  · have hbad : ¬(Place.assign : Place (.array .u8 4097)).Fits 0x600000 0x700000 := by
      unfold Fits
      decide
    have hcopies := fun h => hbad ((source_eq_iff (t := .array .u8 4097) .assign rfl rfl).1
      (source_of_copies (t := .array .u8 4097) c.items (c.items.take 19) .assign rfl (by decide)
        (Place.assign.writes.ok ⟨0, [], false, false, false⟩) h))
    by_contra hnone
    refine hcopies fun m hpc hr => ?_
    by_contra hcopy
    exact hnone ⟨m, hpc, hr, hcopy⟩

end Place

end Verkos.Sav
