import Mathlib.Data.List.Basic
import Mathlib.Tactic.Common

/-!
# A loop over the indices of a table

A `for` loop whose body may fail is `foldlM` over a range in `Option`. The two rules are the two
readings of a loop invariant: what holds if the loop comes to its end, and what holds when its body
always does.
-/

namespace Verkos.Lib.Fold

variable {σ : Type} {f : σ → Nat → Option σ} {P : Nat → σ → Prop} {n : Nat} {s : σ}

/-- The invariant, if the loop ends. -/
theorem range_partial (h0 : P 0 s)
    (hstep : ∀ k < n, ∀ s s', P k s → f s k = some s' → P (k + 1) s') {s' : σ}
    (h : (List.range n).foldlM f s = some s') : P n s' := by
  induction n generalizing s' with
  | zero =>
    cases h
    exact h0
  | succ n ih =>
    rw [List.range_succ, List.foldlM_append] at h
    obtain ⟨t, ht, h⟩ := Option.bind_eq_some_iff.1 h
    have hlast : f t n = some s' := by simpa using h
    exact hstep n (Nat.lt_succ_self n) t s'
      (ih (fun k hk => hstep k (Nat.lt_succ_of_lt hk)) ht) hlast

/-- The loop ends, and the invariant holds then. -/
theorem range_total (h0 : P 0 s)
    (hstep : ∀ k < n, ∀ s, P k s → ∃ s', f s k = some s' ∧ P (k + 1) s') :
    ∃ s', (List.range n).foldlM f s = some s' ∧ P n s' := by
  induction n with
  | zero => exact ⟨s, rfl, h0⟩
  | succ n ih =>
    obtain ⟨t, ht, hp⟩ := ih fun k hk => hstep k (Nat.lt_succ_of_lt hk)
    obtain ⟨s', hs', hp'⟩ := hstep n (Nat.lt_succ_self n) t hp
    refine ⟨s', ?_, hp'⟩
    rw [List.range_succ, List.foldlM_append, ht]
    simpa using hs'

end Verkos.Lib.Fold
