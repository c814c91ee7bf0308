import Mathlib.Logic.Basic
import Mathlib.Tactic.Common

/-!
# Address ranges

A command of `vsed` with two addresses keeps one bit between the lines on which it is reached,
`in_range`, which `selected` reads and writes. What the range is meant to select is said without it:
blocks of lines, each from a start to its end.
-/

namespace Verkos.Vsed

/-- `struct addr`, with `ρ` for a compiled expression. `none` is a second address that is none. -/
inductive Addr (ρ : Type) where
  | none
  | line (n : Int)
  | last
  | re (re : ρ)
  | step (n step : Int)
  | zero

/-- What of `struct cmd` says where it applies. -/
structure Cmd (ρ : Type) where
  a1 : Addr ρ
  a2 : Addr ρ
  naddr : Nat
  negate : Bool

/-- A line on which a command is reached: its number, the pattern space, whether it is the last. -/
structure Reached where
  ln : Int
  ps : List UInt8
  last : Bool

namespace Addr

variable {ρ : Type}

def isZero : Addr ρ → Bool
  | .zero => true
  | _ => false

/-- A line number that is not after `ln`. -/
def isLineTo (a : Addr ρ) (ln : Int) : Bool :=
  match a with
  | .line n => n ≤ ln
  | _ => false

end Addr

variable {ρ : Type} (regexec : ρ → List UInt8 → Bool)

def amatch (a : Addr ρ) (l : Reached) : Bool :=
  match a with
  | .line n => l.ln = n
  | .zero => false
  | .last => l.last
  | .step n step => if 0 < step then n ≤ l.ln && (l.ln - n) % step = 0 else l.ln = n
  | .re re => regexec re l.ps
  | .none => true

/-- `selected`: `in_range` as it leaves it, and what it returns. -/
def selected (c : Cmd ρ) (inRange : Bool) (l : Reached) : Bool × Bool :=
  let (inRange, r) :=
    if c.naddr = 0 then (inRange, true)
    else if c.naddr = 1 then (inRange, amatch regexec c.a1 l)
    else if !inRange then
      if c.a1.isZero then (!amatch regexec c.a2 l, true)
      else if amatch regexec c.a1 l then (!c.a2.isLineTo l.ln, true)
      else (inRange, false)
    else (!(amatch regexec c.a2 l || c.a2.isLineTo l.ln), true)
  (inRange, if c.negate then !r else r)

/-- `in_range` before the line `i` of those on which the command is reached. -/
def inRange (c : Cmd ρ) (ls : Nat → Reached) : Nat → Bool
  | 0 => false
  | i + 1 => (selected regexec c (inRange c ls i) (ls i)).1

/-- What `selected` returns on the line `i`. -/
def selectedAt (c : Cmd ρ) (ls : Nat → Reached) (i : Nat) : Bool :=
  (selected regexec c (inRange regexec c ls i) (ls i)).2

/-! ## Blocks -/

section Blocks

variable (first second atOnce : Nat → Prop)

/-- The block that starts at `s` comes to `i`: it ends at the first later line that matches the
second address, or at once. -/
def Covers (s i : Nat) : Prop := s ≤ i ∧ (atOnce s → i = s) ∧ ∀ j, s < j → j < i → ¬second j

/-- A block starts at a line that matches the first address and is in no block. -/
def Start (i : Nat) : Prop := first i ∧ ∀ s < i, Start s → ¬Covers second atOnce s i

def InBlock (i : Nat) : Prop := ∃ s, Start first second atOnce s ∧ Covers second atOnce s i

variable {first second atOnce} {inside : Nat → Bool}

theorem start_iff {i : Nat} (hi : inside i ↔ ∃ s < i, Start first second atOnce s ∧
    Covers second atOnce s i) : Start first second atOnce i ↔ first i ∧ ¬inside i := by
  rw [Start, hi]
  simp only [not_exists, not_and]

theorem inside_iff (h0 : inside 0 = false)
    (hstep : ∀ i, inside (i + 1) ↔ if inside i then ¬second i else first i ∧ ¬atOnce i) (i : Nat) :
    inside i ↔ ∃ s < i, Start first second atOnce s ∧ Covers second atOnce s i := by
  induction i with
  | zero => simp [h0]
  | succ i ih =>
    rw [hstep]
    constructor
    · intro h
      by_cases hi : inside i
      · rw [if_pos hi] at h
        obtain ⟨s, hs, hstart, -, honce, hend⟩ := ih.1 hi
        refine ⟨s, by omega, hstart, by omega, fun ho => by have := honce ho; omega, ?_⟩
        intro j hsj hj
        rcases Nat.lt_succ_iff_lt_or_eq.1 hj with hj | rfl
        · exact hend j hsj hj
        · exact h
      · rw [if_neg hi] at h
        exact ⟨i, by omega, (start_iff ih).2 ⟨h.1, hi⟩, by omega, fun ho => absurd ho h.2,
          fun j _ _ => by omega⟩
    · rintro ⟨s, hs, hstart, -, honce, hend⟩
      rcases Nat.lt_succ_iff_lt_or_eq.1 hs with hs | rfl
      · have hin : inside i := ih.2 ⟨s, hs, hstart, by omega, fun ho => by have := honce ho; omega,
          fun j hsj hj => hend j hsj (by omega)⟩
        rw [if_pos hin]
        exact hend i hs (by omega)
      · obtain ⟨hfirst, hin⟩ := (start_iff ih).1 hstart
        rw [if_neg hin]
        exact ⟨hfirst, fun ho => by have := honce ho; omega⟩

theorem inBlock_iff (h0 : inside 0 = false)
    (hstep : ∀ i, inside (i + 1) ↔ if inside i then ¬second i else first i ∧ ¬atOnce i) (i : Nat) :
    InBlock first second atOnce i ↔ inside i ∨ first i := by
  have hi := inside_iff h0 hstep i
  constructor
  · rintro ⟨s, hstart, hcov⟩
    rcases Nat.lt_or_eq_of_le hcov.1 with hs | rfl
    · exact .inl (hi.2 ⟨s, hs, hstart, hcov⟩)
    · exact .inr ((start_iff hi).1 hstart).1
  · intro h
    by_cases hin : inside i
    · obtain ⟨s, -, hs⟩ := hi.1 hin
      exact ⟨s, hs⟩
    · exact ⟨i, (start_iff hi).2 ⟨h.resolve_left hin, hin⟩, by omega, fun _ => rfl,
        fun j _ _ => by omega⟩

end Blocks

/-! ## What is selected -/

section Selected

variable (c : Cmd ρ) (ls : Nat → Reached)

/-- The lines the pair stands for: a block ends at the first later line that matches the second
address, and at once if that is a number, 0 among them, not after the start. -/
def Meant (i : Nat) : Prop :=
  match c.a1, c.a2 with
  | .zero, .re _ => ∀ j < i, ¬amatch regexec c.a2 (ls j)
  | _, _ => InBlock (fun j => amatch regexec c.a1 (ls j)) (fun j => amatch regexec c.a2 (ls j))
      (fun j => c.a2.isLineTo (ls j).ln ∨ c.a2.isZero) i

/-- Ranges as they are made: a line number also ends a block at a later line, and 0 ends none. A
block from 0 is selected up to its end, and nothing is said of the lines behind it. -/
def Ranges : Prop :=
  c.naddr = 2 → ∀ i,
    if c.a1.isZero then (∀ j < i, ¬(amatch regexec c.a2 (ls j) ∨ c.a2.isLineTo (ls j).ln)) →
      selectedAt regexec c ls i = !c.negate
    else (selectedAt regexec c ls i = !c.negate ↔ InBlock (fun j => amatch regexec c.a1 (ls j))
      (fun j => amatch regexec c.a2 (ls j) ∨ c.a2.isLineTo (ls j).ln)
      (fun j => c.a2.isLineTo (ls j).ln) i)

theorem selected_pair {c : Cmd ρ} (hn : c.naddr = 2) (b : Bool) (l : Reached) :
    ((selected regexec c b l).1 ↔
      if b then ¬(amatch regexec c.a2 l ∨ c.a2.isLineTo l.ln)
      else if c.a1.isZero then ¬amatch regexec c.a2 l
      else amatch regexec c.a1 l ∧ ¬c.a2.isLineTo l.ln) ∧
    ((selected regexec c b l).2 = !c.negate ↔ b ∨ c.a1.isZero ∨ amatch regexec c.a1 l) := by
  rw [selected, if_neg (by omega), if_neg (by omega)]
  cases b <;> cases c.a1.isZero <;> cases amatch regexec c.a1 l <;> cases c.negate <;> simp

theorem ranges : Ranges regexec c ls := by
  intro hn i
  by_cases hz : c.a1.isZero
  · rw [if_pos hz]
    exact fun _ => ((selected_pair regexec hn _ _).2).2 (.inr (.inl hz))
  · rw [if_neg hz, inBlock_iff (rfl : inRange regexec c ls 0 = false)]
    · rw [selectedAt, (selected_pair regexec hn _ _).2]
      simp [hz]
    · intro j
      rw [inRange, (selected_pair regexec hn _ _).1, if_neg hz]

end Selected

/-- Of the lines 2, 4, 5 and so on, `2,3` selects the first two; none of them is line 3. -/
theorem not_meant : ¬∀ (ρ : Type) (regexec : ρ → List UInt8 → Bool) (c : Cmd ρ)
    (ls : Nat → Reached) (i : Nat), c.naddr = 2 →
      (selectedAt regexec c ls i = !c.negate ↔ Meant regexec c ls i) := by
  intro h
  have h2 := (h Empty (fun _ _ => false) ⟨.line 2, .line 3, 2, false⟩
    (fun i => ⟨if i = 0 then 2 else i + 3, [], false⟩) 2 rfl).2
  refine absurd (h2 ⟨0, ?_, by omega, ?_, ?_⟩) (by decide)
  · rw [Start]
    exact ⟨rfl, fun s hs => by omega⟩
  · rintro (h | h) <;> exact absurd h (by decide)
  · intro j h0 hj
    obtain rfl : j = 1 := by omega
    decide

end Verkos.Vsed
