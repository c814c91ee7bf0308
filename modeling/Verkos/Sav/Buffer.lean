import Verkos.Sav.Fixups

/-!
# Running the code buffer

What the items of the buffer do, before any displacement is written: a branch goes where its label
is placed, an address pair forms the address. The image does the same, instruction by instruction,
when every target is near enough for its field (`step_eq_stepItem`), so what follows speaks of the
buffer.

A run is a `Path`. `ok` is what every step of it meets where it is taken, such as touching only
certain bytes. A piece of the buffer is found by what stands in front of it.
-/

namespace Verkos.Sav

open Verkos.Lib (Emit)

/-! ## Steps -/

/-- What an address pair forms. -/
def targetOf (its : List Item) (s : Sect) (off : Int) : Int := sectBase (rodataOff its) s + off

/-- Off to a label. -/
def Machine.toLabel (m : Machine) (its : List Item) (l : Nat) : Option Machine :=
  (labelPos l its).map m.goto

/-- One item of the buffer. -/
def execItem (its : List Item) (r : Reply) (m : Machine) : Item → Option Machine
  | .ins i => exec i r m
  | .place _ => none
  | .b l => m.toLabel its l
  | .bl l => (m.set X30 (addrOf (m.pc + 1))).toLabel its l
  | .bcond c l => if m.holds c then m.toLabel its l else some m.next
  | .cbz rt l => if m.get rt = 0 then m.toLabel its l else some m.next
  | .cbnz rt l => if m.get rt ≠ 0 then m.toLabel its l else some m.next
  | .adrp rd s off => some (m.set rd (BitVec.ofInt 64 (4096 * (targetOf its s off / 4096)))).next
  | .add12 rd s off =>
    some (m.setSp rd (m.getSp rd + BitVec.ofInt 64 (targetOf its s off % 4096))).next

def stepItem (its : List Item) (r : Reply) (m : Machine) : Option Machine :=
  ((coded its)[m.pc]?).bind (execItem its r m)

/-! ## The image does the same -/

section Image

variable {its : List Item} {code : List Instr} {m : Machine} {r : Reply} {it : Item}

theorem jump_near {l n d t : Nat} (hn : 0 < n) (hd : d = 2 * n) (ht : labelPos l its = some t)
    (hw : Within its m.pc l n) : m.jump (((t : Int) - m.pc).bmod d) = m.toLabel its l := by
  rw [hd, (bmod_eq_iff hn).2 (hw t ht), Machine.jump_to, Machine.toLabel, ht]
  rfl

theorem ofInt_page (q : Int) : BitVec.ofInt 64 q <<< 12 = BitVec.ofInt 64 (4096 * q) := by
  rw [BitVec.ofInt_mul, BitVec.shiftLeft_eq_mul_twoPow, BitVec.mul_comm]
  rfl

theorem zeroExtend_ofInt12 (a : Int) :
    (BitVec.ofInt 12 a).zeroExtend 64 = BitVec.ofInt 64 (a % 4096) := by
  apply BitVec.eq_of_toNat_eq
  change (BitVec.setWidth 64 (BitVec.ofInt 12 a)).toNat = _
  rw [BitVec.toNat_setWidth, BitVec.toNat_ofInt, BitVec.toNat_ofInt]
  omega

theorem exec_resolved {i : Instr} (hnear : Near its m.pc it)
    (hr : resolveItem (labelPos · its) (rodataOff its) m.pc it = some [i]) :
    exec i r m = execItem its r m it := by
  cases it with
  | ins j =>
    cases hr
    rfl
  | place l => cases hr
  | b l =>
    obtain ⟨t, ht, hi⟩ := Option.map_eq_some_iff.1 hr
    cases hi
    exact jump_near (by decide) (by decide) ht hnear
  | bl l =>
    obtain ⟨t, ht, hi⟩ := Option.map_eq_some_iff.1 hr
    cases hi
    have hpc : (m.set X30 (addrOf (m.pc + 1))).pc = m.pc := rfl
    have hjump := @jump_near its (m.set X30 (addrOf (m.pc + 1))) l _ (2 ^ 26) t
      (by decide) (by decide) ht hnear
    exact hjump
  | bcond c l =>
    obtain ⟨t, ht, hi⟩ := Option.map_eq_some_iff.1 hr
    cases hi
    change m.branch _ _ = _
    rw [Machine.branch, execItem]
    split_ifs
    · exact jump_near (by decide) (by decide) ht hnear
    · rfl
  | cbz rt l =>
    obtain ⟨t, ht, hi⟩ := Option.map_eq_some_iff.1 hr
    cases hi
    change m.branch _ _ = _
    rw [Machine.branch, execItem]
    simp only [beq_iff_eq]
    split_ifs
    · exact jump_near (by decide) (by decide) ht hnear
    · rfl
  | cbnz rt l =>
    obtain ⟨t, ht, hi⟩ := Option.map_eq_some_iff.1 hr
    cases hi
    change m.branch _ _ = _
    rw [Machine.branch, execItem]
    simp only [bne_iff_ne]
    split_ifs
    · exact jump_near (by decide) (by decide) ht hnear
    · rfl
  | adrp rd s off =>
    cases hr
    change some (m.set rd _).next = some (m.set rd _).next
    obtain ⟨hlo, hhi⟩ := hnear
    rw [targetOf]
    generalize (sectBase (rodataOff its) s + off) / 4096 = page at hlo hhi ⊢
    rw [Int.bmod_eq_of_le (by omega) (by omega), ofInt_page]
    congr 4
    push_cast
    omega
  | add12 rd s off =>
    cases hr
    change some (m.setSp rd _).next = some (m.setSp rd _).next
    rw [if_neg (by decide), BitVec.shiftLeft_zero, zeroExtend_ofInt12]
    rfl

end Image

/-! ## Paths -/

/-- A run from one state to another, with what the kernel answers left open. Every step meets `ok`
where it is taken. -/
inductive Path (its : List Item) (ok : Machine → Prop) : Machine → Machine → Prop
  | refl (m : Machine) : Path its ok m m
  | step {m m₁ m' : Machine} {r : Reply} : ok m → stepItem its r m = some m₁ →
    Path its ok m₁ m' → Path its ok m m'

namespace Path

variable {its : List Item} {ok ok' : Machine → Prop} {m m₁ m' : Machine}

theorem trans (h : Path its ok m m₁) (h' : Path its ok m₁ m') : Path its ok m m' := by
  induction h with
  | refl => exact h'
  | step hok hs _ ih => exact .step hok hs (ih h')

theorem single {r : Reply} (hok : ok m) (h : stepItem its r m = some m') : Path its ok m m' :=
  .step hok h (.refl _)

end Path

/-! ## Pieces -/

/-- A piece of the buffer, behind `pre`. -/
def StandsAt (its pre seg : List Item) : Prop := ∃ post, its = pre ++ seg ++ post

section Pieces

variable {its pre seg seg' : List Item} {k n n' : Nat} {it : Item}

theorem StandsAt.left (h : StandsAt its pre (seg ++ seg')) : StandsAt its pre seg := by
  obtain ⟨post, rfl⟩ := h
  exact ⟨seg' ++ post, by simp⟩

theorem StandsAt.right (h : StandsAt its pre (seg ++ seg')) : StandsAt its (pre ++ seg) seg' := by
  obtain ⟨post, rfl⟩ := h
  exact ⟨post, by simp⟩

theorem StandsAt.tail (h : StandsAt its pre (it :: seg)) : StandsAt its (pre ++ [it]) seg :=
  @StandsAt.right its pre [it] seg h

theorem StandsAt.head (h : StandsAt its pre (it :: seg)) (hc : it.isCode = true) :
    (coded its)[(coded pre).length]? = some it := by
  obtain ⟨post, rfl⟩ := h
  rw [List.append_assoc, coded_append, List.cons_append, coded_cons hc]
  simp

/-- Labels below `n` are all that `pre` places. -/
def Fresh (pre : List Item) (n : Nat) : Prop := ∀ k, .place k ∈ pre → k < n

theorem Fresh.append {S own out : List Nat} {calls : Nat → Prop} (h : Fresh pre n)
    (hseg : Seg S calls own out n n' seg) (ho : ∀ k ∈ own, k < n) : Fresh (pre ++ seg) n' := by
  intro k hk
  have hmono := hseg.mono
  rcases List.mem_append.1 hk with hk | hk
  · exact Nat.lt_of_lt_of_le (h k hk) hmono
  · rcases hseg.labels k hk with hb | hb
    · exact hb.2
    · exact Nat.lt_of_lt_of_le (ho k hb) hmono

theorem StandsAt.label (h : StandsAt its pre (.place k :: seg)) (hnew : .place k ∉ pre) :
    labelPos k its = some (coded pre).length := by
  obtain ⟨post, rfl⟩ := h
  rw [List.append_assoc, labelPos_append_right hnew]
  simp [labelPos]

theorem coded_length_place (k : Nat) : (coded (pre ++ [Item.place k])).length = (coded pre).length := by
  rw [coded_append]
  simp

end Pieces

/-! ## Straight lines -/

/-- An instruction that goes on to the next one. -/
def Instr.run (m : Machine) (i : Instr) : Machine := (exec i ⟨0, m.mem⟩ m).getD m

def Item.isPlain : Item → Bool
  | .ins i => i.isPlain
  | .adrp .. | .add12 .. => true
  | _ => false

/-- An item that goes on to the next one. -/
def Item.run (its : List Item) (m : Machine) : Item → Machine
  | .ins i => i.run m
  | it => (execItem its ⟨0, m.mem⟩ m it).getD m

def runItems (its : List Item) (l : List Item) (m : Machine) : Machine := l.foldl (Item.run its) m

section Lines

variable {its pre l l' : List Item} {m : Machine} {it : Item} {ok : Machine → Prop}

@[simp] theorem runItems_cons : runItems its (it :: l) m = runItems its l (it.run its m) := rfl

theorem Item.isPlain_code (h : it.isPlain = true) : it.isCode = true := by
  cases it <;> first | rfl | cases h

theorem execItem_plain (h : it.isPlain = true) (r : Reply) :
    execItem its r m it = some (it.run its m) := by
  cases it with
  | ins i => cases i <;> first | rfl | cases h
  | adrp | add12 => rfl
  | _ => cases h

theorem Item.run_pc (h : it.isPlain = true) : (it.run its m).pc = m.pc + 1 := by
  cases it with
  | ins i =>
    cases i with
    | b | bl | bcond | cbz | cbnz | ret | svc => cases h
    | str => rfl
    | _ => simp [Item.run, Instr.run, exec]
  | adrp | add12 => simp [Item.run, execItem]
  | _ => cases h

theorem Path.straight (hl : ∀ it ∈ l, it.isPlain = true) (hat : StandsAt its pre l)
    (hpc : m.pc = (coded pre).length) (hok : ∀ j < l.length, ok (runItems its (l.take j) m)) :
    Path its ok m (runItems its l m) ∧ (runItems its l m).pc = (coded (pre ++ l)).length := by
  induction l generalizing pre m with
  | nil => exact ⟨.refl _, by rw [List.append_nil]; exact hpc⟩
  | cons it l ih =>
    have hplain := hl it (.head _)
    have hcode := Item.isPlain_code hplain
    have hstep : stepItem its ⟨0, m.mem⟩ m = some (it.run its m) := by
      rw [stepItem, hpc, hat.head hcode]
      exact execItem_plain hplain _
    have hpc' : (it.run its m).pc = (coded (pre ++ [it])).length := by
      rw [Item.run_pc hplain, coded_append, coded_cons hcode, hpc]
      simp
    obtain ⟨hpath, hend⟩ := ih (fun it' hit => hl it' (.tail _ hit)) hat.tail hpc'
      fun j hj => hok (j + 1) (by simpa using hj)
    refine ⟨.step (hok 0 (by simp)) hstep hpath, ?_⟩
    rw [runItems_cons, hend]
    simp

/-- A conditional branch, taken or not. -/
theorem Path.bcond {P : Machine → Prop} {c : Cond} {lab t : Nat}
    (hat : StandsAt its pre (.bcond c lab :: l))
    (hpc : m.pc = (coded pre).length) (hok : P m) (hlab : labelPos lab its = some t) :
    Path its P m (m.goto (if m.holds c then t else m.pc + 1)) := by
  refine .single (r := ⟨0, m.mem⟩) hok ?_
  rw [stepItem, hpc, hat.head rfl, ← hpc]
  dsimp only [Option.bind_some, execItem]
  split_ifs
  · rw [Machine.toLabel, hlab]
    rfl
  · rfl

theorem Path.b {P : Machine → Prop} {lab t : Nat} (hat : StandsAt its pre (.b lab :: l))
    (hpc : m.pc = (coded pre).length) (hok : P m) (hlab : labelPos lab its = some t) :
    Path its P m (m.goto t) := by
  refine .single (r := ⟨0, m.mem⟩) hok ?_
  rw [stepItem, hpc, hat.head rfl]
  dsimp only [Option.bind_some, execItem]
  rw [Machine.toLabel, hlab]
  rfl

end Lines

/-! ## Registers -/

namespace Machine

@[simp] theorem next_holds (m : Machine) (c : Cond) : m.next.holds c = m.holds c := by
  cases c <;> rfl

end Machine

end Verkos.Sav
