import Mathlib.Algebra.BigOperators.Fin
import Mathlib.Algebra.BigOperators.Group.Finset.Basic
import Mathlib.Algebra.Order.BigOperators.Group.Finset

/-!
# Tallies over a finite index

A *tally* adds up a natural-number weight over every entry of a finite table. Ownership
arguments about tables of records (who holds this page, how many slots name this object)
are statements about tallies, and every update of the table is an update of one entry. The
lemmas below say what one update does to a tally, and how a tally is read as a sum along
the list a loop runs over.
-/

namespace Verkos.Lib

variable {ι α : Type} [Fintype ι]

/-- The weight of every entry of a table, added up. -/
def tally (w : α → Nat) (f : ι → α) : Nat := ∑ i, w (f i)

/-- The tally of every entry but one. -/
def tallyBut [DecidableEq ι] (w : α → Nat) (f : ι → α) (i : ι) : Nat :=
  ∑ j ∈ Finset.univ.erase i, w (f j)

section

variable (w : α → Nat) (f : ι → α) (i : ι)
include w f i

theorem tally_eq_but [DecidableEq ι] : tally w f = tallyBut w f i + w (f i) := by
  have hsplit := Finset.add_sum_erase Finset.univ (fun j => w (f j)) (Finset.mem_univ i)
  simp only [tally, tallyBut]
  omega

theorem tally_update_eq_but [DecidableEq ι] (x : α) :
    tally w (Function.update f i x) = tallyBut w f i + w x := by
  have hrest : tallyBut w (Function.update f i x) i = tallyBut w f i := by
    apply Finset.sum_congr rfl
    intro j hj
    rw [Function.update_of_ne (Finset.ne_of_mem_erase hj)]
  rw [tally_eq_but w _ i, hrest, Function.update_self]

/-- Replacing one entry moves its weight out and the new one's in. -/
theorem tally_update [DecidableEq ι] (x : α) :
    tally w (Function.update f i x) + w (f i) = tally w f + w x := by
  rw [tally_update_eq_but, tally_eq_but w f i]
  omega

end

/-- Filling an entry that weighed nothing. -/
theorem tally_insert [DecidableEq ι] {w : α → Nat} {f : ι → α} {i : ι} (x : α)
    (h : w (f i) = 0) : tally w (Function.update f i x) = tally w f + w x := by
  have hu := tally_update w f i x
  omega

/-- An entry other than `i` weighs at most what is left without `i`. -/
theorem le_tallyBut [DecidableEq ι] (w : α → Nat) (f : ι → α) {i j : ι} (hij : j ≠ i) :
    w (f j) ≤ tallyBut w f i :=
  Finset.single_le_sum (f := fun k => w (f k)) (fun _ _ => Nat.zero_le _)
    (Finset.mem_erase.mpr ⟨hij, Finset.mem_univ j⟩)

theorem tally_mono (w : α → Nat) {f g : ι → α} (h : ∀ i, w (f i) ≤ w (g i)) :
    tally w f ≤ tally w g :=
  Finset.sum_le_sum (fun i _ => h i)

section

variable (w : α → Nat) (f : ι → α)
include w f

/-- One entry never weighs more than the whole. -/
theorem le_tally (i : ι) : w (f i) ≤ tally w f :=
  Finset.single_le_sum (f := fun j => w (f j)) (fun _ _ => Nat.zero_le _) (Finset.mem_univ i)

/-- Two different entries together never weigh more than the whole. -/
theorem add_le_tally [DecidableEq ι] {i j : ι} (hij : i ≠ j) : w (f i) + w (f j) ≤ tally w f := by
  have hj := le_tallyBut w f (Ne.symm hij)
  have hsplit := tally_eq_but w f i
  omega

/-- Entries that weigh at most one each weigh at most the size of the table. -/
theorem tally_le_card (h : ∀ i, w (f i) ≤ 1) : tally w f ≤ Fintype.card ι := by
  calc tally w f ≤ ∑ _i : ι, 1 := Finset.sum_le_sum (fun i _ => h i)
    _ = Fintype.card ι := by simp

/-- A tally is positive exactly when some entry weighs something. -/
theorem tally_pos_iff : 0 < tally w f ↔ ∃ i, 0 < w (f i) := by
  simp only [tally, Finset.sum_pos_iff, Finset.mem_univ, true_and]

end

end Verkos.Lib
