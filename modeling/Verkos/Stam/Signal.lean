import Verkos.Lib.Steps
import Verkos.Stam.UserMemory

/-!
# Running a signal handler

`sig_deliver` writes the interrupted state on the program's own stack and enters the handler, and
`sig_return` brings the state back from wherever the stack pointer then is. What is on the stack is
the program's to edit, so the way back trusts none of it that matters.

`Task` is what the two touch: the frame of the exception, the masks and the handlers of the thread,
and the memory its table leads to. `Nest` puts beside it what no part of the kernel keeps, the list
of the frames that handlers have still to return through.
-/

namespace Verkos.Stam

open Verkos.Lib Verkos.Lib.Bytes
open List
open Option (some.inj)

attribute [local instance] neZero512

abbrev Word := BitVec 64

/-- `regs_t`, the frame of an exception. -/
structure Regs where
  x : Fin 30 → Word
  lr : Word
  elr : Word
  spsr : Word
  spEl0 : Word

/-- An entry of `sigact`; handler 0 is the default and 1 is to ignore. -/
structure SigAct where
  handler : Word
  restorer : Word
  mask : Word

/-- A thread as signals see it. -/
structure Task where
  regs : Regs
  pending : BitVec 32
  blocked : Word
  sigact : Fin 32 → SigAct
  pm : Pmm
  table : PageTable

/-! ## `sigframe_t` -/

/-- `SIGFRAME_MAGIC`, "STAMSIG1". -/
def sigframeMagic : Word := 0x5354414d53494731

/-- `sizeof(sigframe_t)`: the magic, the mask and the thirty-four registers. -/
def sigframeSize : Nat := 288

/-- The words of a `regs_t`, in the order of its fields. -/
def Regs.word (r : Regs) (k : Nat) : Word :=
  if h : k < 30 then r.x ⟨k, h⟩
  else if k = 30 then r.lr
  else if k = 31 then r.elr
  else if k = 32 then r.spsr
  else r.spEl0

/-- A `regs_t` read back from its words. -/
def Regs.ofWords (w : Nat → Word) : Regs where
  x i := w i
  lr := w 30
  elr := w 31
  spsr := w 32
  spEl0 := w 33

/-- Word `k` of a `sigframe_t`. -/
def sigframeWord (blocked : Word) (r : Regs) (k : Nat) : Word :=
  if k = 0 then sigframeMagic else if k = 1 then blocked else r.word (k - 2)

/-- The bytes of a `sigframe_t`. -/
def sigframeBytes (blocked : Word) (r : Regs) : List UInt8 :=
  (List.range 36).flatMap fun k => little 8 (sigframeWord blocked r k).toNat

/-! ## The calls -/

theorem neZero32 : NeZero 32 := ⟨by decide⟩
attribute [local instance] neZero32

namespace Task

/-- `SIGKILL`. -/
def sigkill : Fin 32 := 9

def setX0 (t : Task) (v : Word) : Task :=
  { t with regs := { t.regs with x := Function.update t.regs.x 0 v } }

/-- `vm_user_ok` on the thread's table, for reading, which changes nothing. -/
def readable (t : Task) (va : Word) (len : Nat) : Bool :=
  (PageTable.vmUserOk t.pm t.table va.toNat len false).2.2

/-- `sig_action`. -/
def sigAction (t : Task) (sig : Int) (handler restorer mask : Word) : Task × Int :=
  if h : sig ≤ 0 ∨ 32 ≤ sig then (t, -22)
  else if sig = 9 then (t, -22)
  else if 1 < handler ∧ t.readable handler 4 = false then (t, -14)
  else if 1 < handler ∧ (restorer = 0 ∨ t.readable restorer 4 = false) then (t, -14)
  else
    ({ t with
      sigact := Function.update t.sigact ⟨sig.toNat, by omega⟩ ⟨handler, restorer, mask⟩ }, 0)

/-- `sig_exec_reset`: what was caught is caught no more, and nothing is held off. -/
def sigExecReset (t : Task) : Task :=
  { t with
    sigact := fun s => if s ≠ 0 ∧ 1 < (t.sigact s).handler then ⟨0, 0, 0⟩ else t.sigact s
    blocked := 0 }

/-- `thread_signal`, at the thread it reaches. -/
def threadSignal (t : Task) (sig : Nat) : Task :=
  { t with pending := t.pending ||| (1#32 <<< sig) }

/-- `thread_signalled`: the lowest signal that is pending and not held off, or zero. -/
def threadSignalled (t : Task) : Nat :=
  let p := t.pending.signExtend 64 &&& ~~~(t.blocked &&& ~~~(1#64 <<< 9))
  if p = 0 then 0 else ((List.range' 1 31).find? fun s => p.getLsbD s).getD 0

/-- Where `sig_deliver` puts the frame: below the stack pointer, aligned to sixteen. -/
def frameAt (t : Task) : Word := (t.regs.spEl0 - 288) &&& ~~~15

/-- `sig_deliver`: false when the caller is to kill. -/
def sigDeliver (t : Task) (sig : Fin 32) : Task × Bool :=
  let h := (t.sigact sig).handler
  if h = 1 then ({ t with pending := t.pending &&& ~~~(1#32 <<< sig.val) }, true)
  else if h = 0 then (t, false)
  else
    let sp := t.frameAt
    match PageTable.vmUserOk t.pm t.table sp.toNat sigframeSize true with
    | (pm, table, false) => ({ t with pm, table }, false)
    | (pm, table, true) =>
      ({ t with
        pm := { pm with mem := table.store pm.mem sp.toNat (sigframeBytes t.blocked t.regs) }
        table
        blocked := t.blocked ||| ((t.sigact sig).mask ||| (1#64 <<< sig.val))
        pending := t.pending &&& ~~~(1#32 <<< sig.val)
        regs := { t.regs with
          spEl0 := sp
          elr := h
          lr := (t.sigact sig).restorer
          x := Function.update t.regs.x 0 (BitVec.ofNat 64 sig.val) } }, true)

/-- The only bits of a processor state that survive: N, Z, C and V. -/
def nzcv : Word := 0xf0000000

/-- `-EFAULT`. -/
def efault : Word := -14

/-- `sig_return`: the frame it leaves and what the call answers. -/
def sigReturn (t : Task) : Task × Word :=
  let sp := t.regs.spEl0.toNat
  if t.readable t.regs.spEl0 sigframeSize = false then (t, efault)
  else if PageTable.load64 t.pm t.table sp ≠ sigframeMagic then (t, efault)
  else
    let saved := Regs.ofWords fun k => PageTable.load64 t.pm t.table (sp + 16 + 8 * k)
    let saved := { saved with spsr := saved.spsr &&& nzcv }
    if t.readable saved.elr 4 = false then (t, efault)
    else
      ({ t with regs := saved, blocked := PageTable.load64 t.pm t.table (sp + 8) }, saved.x 0)

/-- `rt_sigreturn` as a system call: `handle_user_sync` writes the answer over `x0`. -/
def sysSigreturn (t : Task) : Task :=
  let (t, v) := t.sigReturn
  t.setX0 v

/-- The end of `handle_user_sync`, and of `handle_irq` when it interrupted a program: a signal that
waits is acted on, and `none` is `thread_exit`. -/
def actOnSignal (t : Task) : Option Task :=
  if h : t.threadSignalled ≠ 0 ∧ t.threadSignalled < 32 then
    match t.sigDeliver ⟨t.threadSignalled, h.2⟩ with
    | (t, true) => some t
    | (_, false) => none
  else some t

end Task

/-! ## A frame written and read -/

theorem length_sigframeBytes (blocked : Word) (r : Regs) :
    (sigframeBytes blocked r).length = sigframeSize := by
  simp only [sigframeBytes, length_flatMap, length_little]
  rfl

theorem part_sigframeBytes (blocked : Word) (r : Regs) {k : Nat} (hk : k < 36) :
    part (8 * k) 8 (sigframeBytes blocked r) = little 8 (sigframeWord blocked r k).toNat := by
  have hflat : sigframeBytes blocked r =
      ((List.range 36).map fun k => little 8 (sigframeWord blocked r k).toNat).flatten ++ [] := by
    rw [append_nil, sigframeBytes, flatMap_def]
  rw [hflat, Nat.mul_comm]
  refine part_flatten [] (fun l hl => ?_) ?_
  · obtain ⟨j, -, rfl⟩ := mem_map.mp hl
    exact length_little _ _
  · rw [getElem?_map, getElem?_range hk, Option.map_some]

theorem Regs.ofWords_eq {r : Regs} {w : Nat → Word} (h : ∀ k < 34, w k = r.word k) :
    Regs.ofWords w = r := by
  obtain ⟨x, lr, elr, spsr, spEl0⟩ := r
  have hx : (fun i : Fin 30 => w i) = x := by
    funext i
    rw [h i (by omega), word, dif_pos i.isLt]
  rw [Regs.ofWords, hx, h 30 (by decide), h 31 (by decide), h 32 (by decide), h 33 (by decide)]
  rfl

namespace Task

variable {t t' : Task} {sig : Fin 32} {blocked : Word} {r : Regs}

/-- The frame at the stack pointer is the one that was written for these registers. -/
def Frame (t : Task) (sp : Word) (blocked : Word) (r : Regs) : Prop :=
  PageTable.Holds t.pm t.table sp.toNat (sigframeBytes blocked r) ∧
    sp.toNat + sigframeSize ≤ PageTable.userLimit

theorem Frame.load64 (h : t.Frame t.regs.spEl0 blocked r) {k : Nat} (hk : k < 36) :
    PageTable.load64 t.pm t.table (t.regs.spEl0.toNat + 8 * k) = sigframeWord blocked r k := by
  refine h.1.load64 ?_ (part_sigframeBytes blocked r hk)
  rw [length_sigframeBytes, sigframeSize]
  omega

/-- `sig_return` through a frame that is as it was written: the registers and the mask are those
that were saved, but for the bits of the processor state that a program does not choose. It is
refused when the program could not go on where it was. -/
theorem sigReturn_frame (h : t.Frame t.regs.spEl0 blocked r) : t.sigReturn =
      if t.readable r.elr 4 = false then (t, efault)
      else ({ t with regs := { r with spsr := r.spsr &&& nzcv }, blocked }, r.x 0) := by
  have hread : t.readable t.regs.spEl0 sigframeSize = true := by
    have := h.1.readable (by rw [length_sigframeBytes]; exact h.2)
    rw [length_sigframeBytes] at this
    rw [readable, this]
  have hmagic : PageTable.load64 t.pm t.table t.regs.spEl0.toNat = sigframeMagic :=
    h.load64 (k := 0) (by decide)
  have hblocked : PageTable.load64 t.pm t.table (t.regs.spEl0.toNat + 8) = blocked :=
    h.load64 (k := 1) (by decide)
  have hregs : Regs.ofWords (fun k =>
      PageTable.load64 t.pm t.table (t.regs.spEl0.toNat + 16 + 8 * k)) = r := by
    refine Regs.ofWords_eq fun k hk => ?_
    have hload := h.load64 (k := k + 2) (by omega)
    rw [Nat.mul_add, Nat.add_comm (8 * k), ← Nat.add_assoc] at hload
    rw [hload, sigframeWord, if_neg (by omega), if_neg (by omega), Nat.add_sub_cancel]
  simp only [sigReturn, hread, hmagic, hregs, hblocked, ne_eq, not_true_eq_false, if_false,
    Bool.true_eq_false]

theorem setX0_x0 (t : Task) : t.setX0 (t.regs.x 0) = t := by
  rw [setX0, Function.update_eq_self]

theorem sysSigreturn_frame (h : t.Frame t.regs.spEl0 blocked r) (helr : t.readable r.elr 4 = true) :
    t.sysSigreturn = { t with regs := { r with spsr := r.spsr &&& nzcv }, blocked } := by
  rw [sysSigreturn, sigReturn_frame h, helr]
  exact setX0_x0 _

theorem sigReturn_cases (t : Task) : t.sigReturn = (t, efault) ∨
      t.sigReturn.1.regs.spsr &&& ~~~nzcv = 0 ∧ t.sigReturn.2 = t.sigReturn.1.regs.x 0 := by
  unfold sigReturn
  dsimp only
  split_ifs
  · exact .inl rfl
  · exact .inl rfl
  · exact .inl rfl
  · refine .inr ⟨?_, rfl⟩
    dsimp only
    rw [BitVec.and_assoc, BitVec.and_not_self]
    exact BitVec.and_zero

/-! ## Entering a handler -/

/-- What `sig_deliver` can come to: the signal is ignored, or the program is to be killed, or its
frame is on the stack and the handler is next. -/
theorem sigDeliver_cases {ok : Bool} (h : t.sigDeliver sig = (t', ok)) :
    (ok = true ∧ (t.sigact sig).handler = 1 ∧
      t' = { t with pending := t.pending &&& ~~~(1#32 <<< sig.val) }) ∨
    (ok = false ∧ ∃ pm table, t' = { t with pm, table }) ∨
    (ok = true ∧ (t.sigact sig).handler ≠ 1 ∧ ∃ pm table,
      PageTable.vmUserOk t.pm t.table t.frameAt.toNat sigframeSize true = (pm, table, true) ∧
      t'.pm = { pm with
        mem := table.store pm.mem t.frameAt.toNat (sigframeBytes t.blocked t.regs) } ∧
      t'.table = table ∧ t'.regs.spEl0 = t.frameAt ∧ t'.sigact = t.sigact) := by
  unfold sigDeliver at h
  dsimp only at h
  split_ifs at h with h1 h0
  · obtain ⟨rfl, rfl⟩ := Prod.mk.inj h
    exact .inl ⟨rfl, h1, rfl⟩
  · obtain ⟨rfl, rfl⟩ := Prod.mk.inj h
    exact .inr (.inl ⟨rfl, t.pm, t.table, rfl⟩)
  · split at h
    · next pm table hok =>
      obtain ⟨rfl, rfl⟩ := Prod.mk.inj h
      exact .inr (.inl ⟨rfl, pm, table, rfl⟩)
    · next pm table hok =>
      obtain ⟨rfl, rfl⟩ := Prod.mk.inj h
      exact .inr (.inr ⟨rfl, h1, pm, table, hok, rfl, rfl, rfl, rfl⟩)

theorem toNat_align (v : Word) : (v &&& ~~~15#64).toNat = v.toNat / 16 * 16 := by
  have halign : v &&& ~~~15#64 = (v >>> 4) <<< 4 := by
    ext i hi
    have h15 : (15#64)[i] = decide (i < 4) := by
      rw [← BitVec.getLsbD_eq_getElem, show 15#64 = BitVec.ofNat 64 (2 ^ 4 - 1) from rfl,
        BitVec.getLsbD_ofNat, Nat.testBit_two_pow_sub_one]
      simp only [hi, decide_true, Bool.true_and]
    simp only [BitVec.getElem_and, BitVec.getElem_not, BitVec.getElem_shiftLeft,
      BitVec.getElem_ushiftRight, h15]
    by_cases h4 : i < 4
    · simp only [h4, decide_true, Bool.not_true, Bool.and_false, Bool.false_and]
    · have hi4 : 4 + (i - 4) = i := by omega
      simp only [h4, decide_false, Bool.not_false, Bool.and_true, Bool.true_and, hi4,
        BitVec.getLsbD_eq_getElem hi]
  rw [halign, BitVec.toNat_shiftLeft, BitVec.toNat_ushiftRight, Nat.shiftRight_eq_div_pow,
    Nat.shiftLeft_eq]
  omega

theorem frameAt_le (h : t.frameAt.toNat + sigframeSize ≤ PageTable.userLimit) :
    t.frameAt.toNat + sigframeSize ≤ t.regs.spEl0.toNat := by
  have hlt := t.regs.spEl0.isLt
  have hat : t.frameAt.toNat = (t.regs.spEl0 - 288).toNat / 16 * 16 := toNat_align _
  have hsub : (t.regs.spEl0 - 288).toNat = (2 ^ 64 - 288 + t.regs.spEl0.toNat) % 2 ^ 64 :=
    BitVec.toNat_sub _ _
  rw [hat, hsub] at h ⊢
  simp only [sigframeSize, PageTable.userLimit] at h ⊢
  omega

theorem frame_of_deliver (h : t.sigDeliver sig = (t', true)) (hh : (t.sigact sig).handler ≠ 1) :
    t'.Frame t'.regs.spEl0 t.blocked t.regs := by
  rcases sigDeliver_cases h with ⟨-, h1, -⟩ | ⟨hf, -⟩ | ⟨-, -, pm, table, hok, hpm, ht, hsp, -⟩
  · exact absurd h1 hh
  · cases hf
  · obtain ⟨hfit, hopen⟩ := PageTable.vmUserOk_sound (by decide) hok
    rw [← length_sigframeBytes t.blocked t.regs] at hopen
    unfold Frame
    rw [hpm, ht, hsp]
    refine ⟨PageTable.holds_store ?_ hopen, hfit (by decide)⟩
    rw [length_sigframeBytes]
    decide

theorem Frame.deliver {sp : Word} (hf : t.Frame sp blocked r)
    (hs : PageTable.Separate t.pm t.table) (hsp : t.regs.spEl0.toNat ≤ sp.toNat)
    (h : t.sigDeliver sig = (t', true)) : t'.Frame sp blocked r := by
  rcases sigDeliver_cases h with ⟨-, -, rfl⟩ | ⟨hff, -⟩ | ⟨-, -, pm, table, hok, hpm, ht, -⟩
  · exact hf
  · cases hff
  · obtain ⟨hfit, hopen⟩ := PageTable.vmUserOk_sound (by decide) hok
    have hkeep := hs.vmUserOk t.frameAt.toNat sigframeSize true
    rw [hok] at hkeep
    have hbelow := Nat.le_trans (frameAt_le (hfit (by decide))) hsp
    have hheld := hf.1.congr fun b _ _ => hkeep.2 b
    rw [← length_sigframeBytes t.blocked t.regs] at hopen hbelow hfit
    unfold Frame
    rw [hpm, ht]
    refine ⟨hheld.store hkeep.1 (hfit ?_) ?_ hopen (.inl hbelow), hf.2⟩
    · rw [length_sigframeBytes]
      decide
    · rw [length_sigframeBytes]
      exact hf.2

/-- A delivery moves the stack down, and no page. -/
theorem separate_deliver (hs : PageTable.Separate t.pm t.table)
    (h : t.sigDeliver sig = (t', true)) : PageTable.Separate t'.pm t'.table ∧
      ((t.sigact sig).handler ≠ 1 → t'.regs.spEl0.toNat ≤ t.regs.spEl0.toNat) := by
  rcases sigDeliver_cases h with ⟨-, h1, rfl⟩ | ⟨hff, -⟩ | ⟨-, -, pm, table, hok, hpm, ht, hsp, -⟩
  · exact ⟨hs, fun hne => absurd h1 hne⟩
  · cases hff
  · have hkeep := hs.vmUserOk t.frameAt.toNat sigframeSize true
    obtain ⟨hfit, -⟩ := PageTable.vmUserOk_sound (by decide) hok
    rw [hok] at hkeep
    rw [hpm, ht, hsp]
    exact ⟨hkeep.1.setMem _, fun _ =>
      Nat.le_trans (Nat.le_add_right _ _) (frameAt_le (hfit (by decide)))⟩

theorem sigDeliver_sigact {ok : Bool} (h : t.sigDeliver sig = (t', ok)) : t'.sigact = t.sigact := by
  rcases sigDeliver_cases h with ⟨-, -, rfl⟩ | ⟨-, pm, table, rfl⟩ | ⟨-, -, _, _, -, -, -, -, ha⟩
  · rfl
  · rfl
  · exact ha

/-! ## SIGKILL -/

theorem getLsbD_signalled (t : Task) {s : Nat} (hs : s < 32) :
    (t.pending.signExtend 64 &&& ~~~(t.blocked &&& ~~~(1#64 <<< 9))).getLsbD s =
      (t.pending.getLsbD s && (decide (s = 9) || !t.blocked.getLsbD s)) := by
  have hone : (1#64 <<< 9).getLsbD s = decide (s = 9) := by
    rw [BitVec.getLsbD_shiftLeft]
    by_cases h9 : s = 9
    · subst h9; rfl
    · have hone : (1#64).getLsbD (s - 9) = decide (s - 9 = 0) := by
        rw [BitVec.getLsbD_one]
        simp
      rw [hone]
      by_cases hlt : s < 9
      · simp only [hlt, h9, decide_true, decide_false, Bool.not_true, Bool.and_false, Bool.false_and]
      · have hne : s - 9 ≠ 0 := by omega
        simp only [hne, h9, decide_false, Bool.and_false]
  have h64 : s < 64 := by omega
  simp only [BitVec.getLsbD_and, BitVec.getLsbD_not, BitVec.getLsbD_signExtend, hone, h64, hs,
    decide_true, Bool.true_and, if_true]
  cases t.pending.getLsbD s <;> cases t.blocked.getLsbD s <;> cases decide (s = 9) <;> rfl

/-- While SIGKILL is pending there is a signal to act on, whatever is held off: SIGKILL, unless a
lower one comes first. -/
theorem threadSignalled_spec (t : Task) (h : t.pending.getLsbD 9 = true) :
    0 < t.threadSignalled ∧ (t.threadSignalled = 9 ∨
      t.threadSignalled < 9 ∧ t.pending.getLsbD t.threadSignalled = true ∧
        t.blocked.getLsbD t.threadSignalled = false) := by
  unfold threadSignalled
  dsimp only
  set p := t.pending.signExtend 64 &&& ~~~(t.blocked &&& ~~~(1#64 <<< 9)) with hp
  have h9 : p.getLsbD 9 = true := by
    rw [hp, getLsbD_signalled t (by decide), h]
    rfl
  have hne : p ≠ 0 := by
    rintro hz
    rw [hz] at h9
    cases h9
  rw [if_neg hne]
  cases hf : (List.range' 1 31).find? fun s => p.getLsbD s with
  | none =>
    have := find?_eq_none.mp hf 9 (by decide)
    exact absurd h9 this
  | some s =>
    obtain ⟨hbit, hmem, hfirst⟩ := find?_range'_eq_some.mp hf
    obtain ⟨hpos, hlt⟩ := mem_range'_1.mp hmem
    have hle : s ≤ 9 := by
      by_contra hgt
      have := hfirst 9 (by decide) (by omega)
      rw [h9] at this
      cases this
    rw [Option.getD_some]
    refine ⟨hpos, (Nat.eq_or_lt_of_le hle).imp_right fun hs => ⟨hs, ?_⟩⟩
    have hboth := hbit
    rw [hp, getLsbD_signalled t (by omega), decide_eq_false (by omega), Bool.false_or,
      Bool.and_eq_true, Bool.not_eq_true'] at hboth
    exact hboth

theorem sigAction_sigact (t : Task) (s : Int) (handler restorer mask : Word) :
    ∃ sigact, (t.sigAction s handler restorer mask).1 = { t with sigact } ∧
      sigact sigkill = t.sigact sigkill := by
  unfold sigAction
  split_ifs with h1 h2
  · exact ⟨_, rfl, rfl⟩
  · exact ⟨_, rfl, rfl⟩
  · exact ⟨_, rfl, rfl⟩
  · exact ⟨_, rfl, rfl⟩
  · refine ⟨_, rfl, Function.update_of_ne (fun he => h2 ?_) _ _⟩
    have hv := congrArg Fin.val he
    change 9 = s.toNat at hv
    omega

theorem sigReturn_sigact (t : Task) : t.sigReturn.1.sigact = t.sigact := by
  unfold sigReturn
  dsimp only
  split_ifs <;> rfl

theorem sigDeliver_sigkill (h : (t.sigact sigkill).handler = 0) :
    t.sigDeliver sigkill = (t, false) := by
  have h1 : (0 : Word) ≠ 1 := by decide
  simp only [sigDeliver, h, h1, if_false, if_true]

theorem actOnSignal_sigkill (h : (t.sigact sigkill).handler = 0) (hs : t.threadSignalled = 9) :
    t.actOnSignal = none := by
  have hd : t.sigDeliver ⟨t.threadSignalled, by omega⟩ = (t, false) := by
    simp only [hs]
    exact sigDeliver_sigkill h
  rw [actOnSignal, dif_pos (by omega), hd]

end Task

/-! ## Handlers inside handlers -/

/-- A frame that a handler has still to return through: where it is, and what was saved. -/
structure Outstanding where
  sp : Word
  regs : Regs
  blocked : Word

/-- A thread and the frames on its stack, the innermost first. -/
structure Nest where
  task : Task
  outstanding : List Outstanding

/-- What happens to a thread that signals have to do with. -/
inductive SigEvent
  /-- The program runs, and so do others. -/
  | user (regs : Regs) (pm : Pmm) (table : PageTable)
  /-- `thread_signal` reaches it. -/
  | raise (sig : Nat)
  /-- `rt_sigaction`. -/
  | action (sig : Int) (handler restorer mask : Word)
  /-- `execve`: another program, with memory of its own. -/
  | exec (regs : Regs) (pm : Pmm) (table : PageTable)
  /-- `fork`, seen from the child. -/
  | fork (regs : Regs) (pm : Pmm) (table : PageTable)
  /-- `sig_deliver`. -/
  | enter (sig : Fin 32)
  /-- `rt_sigreturn`, from wherever the stack pointer is. -/
  | leave

namespace Nest

/-- `slot_init`: nothing pending, nothing held off, nothing caught. -/
def fresh (regs : Regs) (pm : Pmm) (table : PageTable) : Nest where
  task := { regs, pending := 0, blocked := 0, sigact := fun _ => ⟨0, 0, 0⟩, pm, table }
  outstanding := []

/-- One event; `none` when the thread is killed. -/
def step (n : Nest) : SigEvent → Option Nest
  | .user regs pm table => some { n with task := { n.task with regs, pm, table } }
  | .raise sig => some { n with task := n.task.threadSignal sig }
  | .action sig handler restorer mask =>
    let r := n.task.sigAction sig handler restorer mask
    some { n with task := r.1.setX0 (BitVec.ofInt 64 r.2) }
  | .exec regs pm table =>
    some { task := { n.task.sigExecReset with regs, pm, table }, outstanding := [] }
  | .fork regs pm table => some { n with task := { n.task with regs, pm, table, pending := 0 } }
  | .enter sig =>
    match n.task.sigDeliver sig with
    | (_, false) => none
    | (t, true) =>
      if (n.task.sigact sig).handler = 1 then some { n with task := t }
      else some
        { task := t, outstanding := ⟨t.regs.spEl0, n.task.regs, n.task.blocked⟩ :: n.outstanding }
  | .leave => some { task := n.task.sysSigreturn, outstanding := n.outstanding.tail }

variable {n n' : Nest} {e : SigEvent} {es : List SigEvent}

/-- The handlers leave the frames of the kernel alone, and keep their own stack below them; each
returns through its own frame, to a place the program can run at. -/
def Polite (n : Nest) : SigEvent → Prop
  | .user _ pm table | .fork _ pm table =>
    PageTable.Separate pm table ∧ ∀ f ∈ n.outstanding,
      PageTable.Holds pm table f.sp.toNat (sigframeBytes f.blocked f.regs)
  | .exec _ pm table => PageTable.Separate pm table
  | .enter _ => ∀ f ∈ n.outstanding.head?, n.task.regs.spEl0.toNat ≤ f.sp.toNat
  | .leave => ∃ f ∈ n.outstanding.head?, n.task.regs.spEl0 = f.sp ∧
      n.task.readable f.regs.elr 4 = true
  | _ => True

/-- The frames are where they were put, the inner ones below the outer. -/
structure Kept (n : Nest) : Prop where
  separate : PageTable.Separate n.task.pm n.task.table
  frames : ∀ f ∈ n.outstanding, n.task.Frame f.sp f.blocked f.regs
  sorted : n.outstanding.Pairwise fun f g => f.sp.toNat ≤ g.sp.toNat

/-- The state before the delivery that the innermost frame is of has come back. -/
def Restored (n n' : Nest) : Prop :=
  ∃ f rest, n.outstanding = f :: rest ∧ n'.outstanding = rest ∧
    n'.task.regs = { f.regs with spsr := f.regs.spsr &&& Task.nzcv } ∧ n'.task.blocked = f.blocked

/-- A return through the innermost frame, which is as it was written. -/
theorem leave_restored {f : Outstanding} (hf : f ∈ n.outstanding.head?)
    (hsp : n.task.regs.spEl0 = f.sp) (hframe : n.task.Frame f.sp f.blocked f.regs)
    (helr : n.task.readable f.regs.elr 4 = true) (hs : n.step .leave = some n') :
    n.Restored n' ∧ n'.task.pm = n.task.pm ∧ n'.task.table = n.task.table := by
  obtain rfl := some.inj hs
  rw [← hsp] at hframe
  obtain ⟨rest, hrest⟩ := head?_eq_some_iff.mp hf
  dsimp only
  rw [Task.sysSigreturn_frame hframe helr]
  exact ⟨⟨f, rest, hrest, by rw [hrest]; rfl, rfl, rfl⟩, rfl, rfl⟩

theorem Kept.enter {sig : Fin 32} (h : Kept n) (hok : Polite n (.enter sig))
    (hs : n.step (.enter sig) = some n') : Kept n' := by
  have hall : ∀ f ∈ n.outstanding, n.task.regs.spEl0.toNat ≤ f.sp.toNat := by
    intro f hf
    have hsorted := h.sorted
    cases ho : n.outstanding with
    | nil => rw [ho] at hf; cases hf
    | cons g rest =>
      have hg : n.task.regs.spEl0.toNat ≤ g.sp.toNat := hok g (by rw [ho]; rfl)
      rw [ho] at hf hsorted
      rcases mem_cons.mp hf with rfl | hf
      · exact hg
      · exact Nat.le_trans hg ((pairwise_cons.mp hsorted).1 f hf)
  simp only [step] at hs
  cases hd : n.task.sigDeliver sig with
  | mk t ok =>
    rw [hd] at hs
    cases ok with
    | false => cases hs
    | true =>
      obtain ⟨hsep, hdown⟩ := Task.separate_deliver h.separate hd
      have hframes : ∀ f ∈ n.outstanding, t.Frame f.sp f.blocked f.regs := fun f hf =>
        (h.frames f hf).deliver h.separate (hall f hf) hd
      dsimp only at hs
      split_ifs at hs with h1
      · obtain rfl := some.inj hs
        exact ⟨hsep, hframes, h.sorted⟩
      · obtain rfl := some.inj hs
        refine ⟨hsep, fun f hf => ?_, pairwise_cons.mpr ⟨fun f hf => ?_, h.sorted⟩⟩
        · rcases mem_cons.mp hf with rfl | hf
          · exact Task.frame_of_deliver hd h1
          · exact hframes f hf
        · exact Nat.le_trans (hdown h1) (hall f hf)

theorem Kept.step (h : Kept n) (hok : Polite n e) (hs : n.step e = some n') : Kept n' := by
  cases e with
  | user regs pm table | fork regs pm table =>
    obtain rfl := some.inj hs
    exact ⟨hok.1, fun f hf => ⟨hok.2 f hf, (h.frames f hf).2⟩, h.sorted⟩
  | raise sig =>
    obtain rfl := some.inj hs
    exact ⟨h.separate, h.frames, h.sorted⟩
  | exec regs pm table =>
    obtain rfl := some.inj hs
    exact ⟨hok, fun f hf => (not_mem_nil hf).elim, List.Pairwise.nil⟩
  | action sig handler restorer mask =>
    obtain rfl := some.inj hs
    obtain ⟨sigact, hact, -⟩ := n.task.sigAction_sigact sig handler restorer mask
    unfold Task.setX0
    rw [hact]
    exact ⟨h.separate, h.frames, h.sorted⟩
  | enter sig => exact h.enter hok hs
  | leave =>
    obtain ⟨f, hf, hsp, helr⟩ := hok
    obtain ⟨rest, hrest⟩ := head?_eq_some_iff.mp hf
    have hmem : f ∈ n.outstanding := by rw [hrest]; exact mem_cons_self
    obtain ⟨⟨f', rest', ho, ho', -, -⟩, hpm, ht⟩ :=
      leave_restored hf hsp (h.frames f hmem) helr hs
    have hsorted := h.sorted
    rw [ho] at hsorted
    refine ⟨by rw [hpm, ht]; exact h.separate, fun g hg => ?_, ?_⟩
    · rw [ho'] at hg
      have := h.frames g (by rw [ho]; exact mem_cons_of_mem _ hg)
      unfold Task.Frame at this ⊢
      rwa [hpm, ht]
    · rw [ho']
      exact (pairwise_cons.mp hsorted).2

theorem kept_fresh {regs : Regs} {pm : Pmm} {table : PageTable}
    (h : PageTable.Separate pm table) : Kept (fresh regs pm table) :=
  ⟨h, fun _ hf => (not_mem_nil hf).elim, List.Pairwise.nil⟩

/-- SIGKILL is not caught. -/
def Uncaught (n : Nest) : Prop := (n.task.sigact Task.sigkill).handler = 0

theorem Uncaught.step (h : Uncaught n) (hs : n.step e = some n') : Uncaught n' := by
  cases e with
  | user regs pm table | fork regs pm table | raise sig => obtain rfl := some.inj hs; exact h
  | exec regs pm table =>
    obtain rfl := some.inj hs
    have hnot : ¬ (Task.sigkill ≠ 0 ∧ 1 < (n.task.sigact Task.sigkill).handler) := by
      rw [h]
      decide
    unfold Uncaught
    simp only [Task.sigExecReset, if_neg hnot]
    exact h
  | action sig handler restorer mask =>
    obtain rfl := some.inj hs
    obtain ⟨sigact, hact, hkill⟩ := n.task.sigAction_sigact sig handler restorer mask
    unfold Uncaught Task.setX0
    rw [hact]
    dsimp only
    rw [hkill]
    exact h
  | enter sig =>
    simp only [Nest.step] at hs
    cases hd : n.task.sigDeliver sig with
    | mk t ok =>
      have ha := Task.sigDeliver_sigact hd
      rw [hd] at hs
      cases ok with
      | false => cases hs
      | true =>
        have ht : (t.sigact Task.sigkill).handler = 0 := by rw [ha]; exact h
        dsimp only at hs
        split_ifs at hs with h1
        · obtain rfl := some.inj hs
          exact ht
        · obtain rfl := some.inj hs
          exact ht
  | leave =>
    obtain rfl := some.inj hs
    change (n.task.sigReturn.1.sigact Task.sigkill).handler = 0
    rw [Task.sigReturn_sigact]
    exact h

end Nest

/-- Delivery and return undo each other, however handlers nest. Every return of a run whose handlers
leave their frames alone, and so every return through a frame that is as it was written, restores the
registers, the flags and the mask of the state before its delivery, as long as the program could go
on where it was. Whatever frame a program forges, a return that is not refused chooses no bit of the
processor state but the flags. SIGKILL is never caught and no mask holds it off. -/
theorem signals_compose : (∀ regs pm table es n n', PageTable.Separate pm table →
      Run Nest.step Nest.Polite (Nest.fresh regs pm table) es n → Nest.Polite n .leave →
      n.step .leave = some n' → n.Restored n') ∧
    (∀ (n n' : Nest) (f : Outstanding), f ∈ n.outstanding.head? → n.task.regs.spEl0 = f.sp →
      n.task.Frame f.sp f.blocked f.regs → n.task.readable f.regs.elr 4 = true →
      n.step .leave = some n' → n.Restored n') ∧ (∀ t : Task, t.sigReturn = (t, Task.efault) ∨
      t.sigReturn.1.regs.spsr &&& ~~~Task.nzcv = 0 ∧ t.sigReturn.2 = t.sigReturn.1.regs.x 0) ∧
    (∀ regs pm table es n, Run Nest.step (fun _ _ => True) (Nest.fresh regs pm table) es n →
      n.step (.enter Task.sigkill) = none ∧ ∀ blocked, n.task.pending.getLsbD 9 = true →
        let t := { n.task with blocked }
        t.threadSignalled ≠ 0 ∧
          ((∀ s, 0 < s → s < 9 → t.pending.getLsbD s = true → blocked.getLsbD s = true) →
            t.actOnSignal = none)) := by
  refine ⟨fun regs pm table es n n' hsep hrun hok hs => ?_,
    fun n n' f hf hsp hframe helr hs => (Nest.leave_restored hf hsp hframe helr hs).1,
    Task.sigReturn_cases, fun regs pm table es n hrun => ?_⟩
  · have hkept : Nest.Kept n := hrun.invariant (fun _ _ _ hk ho hst => hk.step ho hst)
      (Nest.kept_fresh hsep)
    obtain ⟨_, hf, hsp, helr⟩ := hok
    exact (Nest.leave_restored hf hsp (hkept.frames _ (mem_of_mem_head? hf)) helr hs).1
  · have hun : Nest.Uncaught n := hrun.invariant (fun _ _ _ hu _ hst => hu.step hst) rfl
    refine ⟨?_, fun blocked hpend => ?_⟩
    · simp only [Nest.step, Task.sigDeliver_sigkill hun]
    · dsimp only
      obtain ⟨hpos, hcase⟩ := Task.threadSignalled_spec { n.task with blocked } hpend
      refine ⟨Nat.ne_of_gt hpos, fun hlow => ?_⟩
      have h9 : Task.threadSignalled { n.task with blocked } = 9 := by
        rcases hcase with h9 | ⟨hlt, hp, hb⟩
        · exact h9
        · rw [hlow _ hpos hlt hp] at hb
          cases hb
      exact Task.actOnSignal_sigkill hun h9

/-- A program of one page, at an `svc` in the last word of it, that catches SIGINT. -/
def lastWord : Task where
  regs := { x := fun _ => 0, lr := 0, elr := 4096, spsr := 0, spEl0 := 2048 }
  pending := 0
  blocked := 0
  sigact s := if s = 2 then ⟨16, 32, 0⟩ else ⟨0, 0, 0⟩
  pm := { start := 0, top := 8, freeNext := 6, freeList := [], refs := fun _ => 0, mem := fun _ _ => 0 }
  table := ⟨fun i => if i = 0 then .table fun j => if j = 0 then .table fun k =>
    if k = 0 then some { page := 5, el0 := true, ro := false, attrs := 0 } else none
    else .invalid else .invalid⟩

/-- A return whose program could not go on where it was brings nothing back, though the frame is as
it was written. -/
theorem signals_not_composed : ∃ t, lastWord.sigDeliver 2 = (t, true) ∧
    t.Frame t.regs.spEl0 lastWord.blocked lastWord.regs ∧
    t.sysSigreturn.regs.elr ≠ lastWord.regs.elr := by
  have hin : lastWord.table.walkToLeaf 0 =
      some ({ page := 5, el0 := true, ro := false, attrs := 0 }, .page) := rfl
  have hout : lastWord.table.walkToLeaf 4096 = none := rfl
  have hok : PageTable.vmUserOk lastWord.pm lastWord.table lastWord.frameAt.toNat sigframeSize true =
      (lastWord.pm, lastWord.table, true) := by
    have hsp : lastWord.frameAt.toNat = 1760 := by decide
    have hend : PageTable.userOkFrom 2048 true lastWord.pm lastWord.table 4096 =
        (lastWord.pm, lastWord.table, true) := by
      rw [PageTable.userOkFrom, if_neg (by decide)]
    have hloop : PageTable.userOkFrom 2048 true lastWord.pm lastWord.table 0 =
        (lastWord.pm, lastWord.table, true) := by
      rw [PageTable.userOkFrom, if_pos (by decide), hin]
      exact hend
    rw [hsp, PageTable.vmUserOk, if_neg (by decide), if_neg (by decide), if_neg (by decide)]
    exact hloop
  have hno : ∀ pm, PageTable.vmUserOk pm lastWord.table 4096 4 false =
      (pm, lastWord.table, false) := by
    intro pm
    have hloop : PageTable.userOkFrom 4100 false pm lastWord.table 4096 =
        (pm, lastWord.table, false) := by
      rw [PageTable.userOkFrom, if_pos (by decide), hout]
    rw [PageTable.vmUserOk, if_neg (by decide), if_neg (by decide), if_neg (by decide)]
    exact hloop
  have hh : (lastWord.sigact 2).handler ≠ 1 := by decide
  have hdel : ∃ t, lastWord.sigDeliver 2 = (t, true) ∧ t.table = lastWord.table ∧
      t.regs.elr = 16 := by
    unfold Task.sigDeliver
    dsimp only
    rw [if_neg hh, if_neg (by decide), hok]
    exact ⟨_, rfl, rfl, rfl⟩
  obtain ⟨t, hdel, ht, helr⟩ := hdel
  have hframe := Task.frame_of_deliver hdel hh
  have hread : t.readable lastWord.regs.elr 4 = false := by
    rw [Task.readable, ht]
    exact congrArg (fun r => r.2.2) (hno t.pm)
  refine ⟨t, hdel, hframe, ?_⟩
  rw [Task.sysSigreturn, Task.sigReturn_frame hframe, if_pos hread]
  change t.regs.elr ≠ 4096
  rw [helr]
  decide

end Verkos.Stam
