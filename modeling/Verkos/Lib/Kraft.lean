import Mathlib.Data.List.Basic
import Mathlib.Tactic.Common
import Mathlib.Tactic.Ring

/-!
# Depths of leaves

The leaves of a binary tree satisfy Kraft's equation: each one weighted by how many nodes it would
have below it on the level `m`, they make up the whole level. A leaf that is below that level and is
counted as if it were on it is one too many: `kraft_clamped`.
-/

namespace Verkos.Lib.Kraft

open List

variable {α : Type}

inductive Tree (α : Type)
  | leaf (a : α)
  | node (l r : Tree α)
deriving DecidableEq

/-- The leaves with their depths, under a root at depth `d`. -/
def Tree.depths : Tree α → Nat → List (α × Nat)
  | .leaf a, d => [(a, d)]
  | .node l r, d => l.depths (d + 1) ++ r.depths (d + 1)

def Tree.leaves : Tree α → List α
  | .leaf a => [a]
  | .node l r => l.leaves ++ r.leaves

/-- The nodes that a leaf at depth `d` has on level `m`, one if it is below. -/
def weight (m d : Nat) : Nat := 2 ^ (m - d)

def weights (m : Nat) (l : List (α × Nat)) : Nat := (l.map fun p => weight m p.2).sum

variable {m d : Nat} {t : Tree α}

theorem depths_leaves (t : Tree α) (d : Nat) : (t.depths d).map Prod.fst = t.leaves := by
  induction t generalizing d with
  | leaf a => rfl
  | node l r ihl ihr => rw [Tree.depths, map_append, ihl, ihr, Tree.leaves]

theorem le_depth (t : Tree α) (d : Nat) : ∀ p ∈ t.depths d, d ≤ p.2 := by
  induction t generalizing d with
  | leaf a =>
    intro p hp
    rw [mem_singleton.1 hp]
  | node l r ihl ihr =>
    intro p hp
    rcases mem_append.1 hp with hp | hp
    · exact (Nat.le_succ d).trans (ihl (d + 1) p hp)
    · exact (Nat.le_succ d).trans (ihr (d + 1) p hp)

theorem weights_append (m : Nat) (l l' : List (α × Nat)) :
    weights m (l ++ l') = weights m l + weights m l' := by
  rw [weights, map_append, sum_append]
  rfl

/-- Below the level, every leaf counts for one at least. -/
theorem weight_le_weights (t : Tree α) (d : Nat) : weight m d ≤ weights m (t.depths d) := by
  induction t generalizing d with
  | leaf a => simp [Tree.depths, weights]
  | node l r ihl ihr =>
    have hl := ihl (d + 1)
    have hr := ihr (d + 1)
    have hhalf : weight m d ≤ 2 * weight m (d + 1) := by
      rw [weight, weight]
      by_cases hd : d < m
      · have hsub : m - d = m - (d + 1) + 1 := by omega
        rw [hsub, Nat.pow_succ]
        omega
      · rw [Nat.sub_eq_zero_of_le (Nat.le_of_not_lt hd), Nat.sub_eq_zero_of_le (by omega)]
        decide
    rw [Tree.depths, weights_append]
    omega

/-- The weights make up the level exactly when no leaf is below it. -/
theorem weights_le_iff (t : Tree α) (hd : d ≤ m) :
    weights m (t.depths d) ≤ weight m d ↔ ∀ p ∈ t.depths d, p.2 ≤ m := by
  induction t generalizing d with
  | leaf a =>
    simp only [Tree.depths, weights, map_cons, map_nil, sum_singleton, le_refl,
      mem_singleton, forall_eq, hd]
  | node l r ihl ihr =>
    have hl := weight_le_weights (m := m) l (d + 1)
    have hr := weight_le_weights (m := m) r (d + 1)
    rw [Tree.depths, weights_append]
    rcases Nat.lt_or_eq_of_le hd with hd | rfl
    · have hhalf : weight m d = 2 * weight m (d + 1) := by
        have hsub : m - d = m - (d + 1) + 1 := by omega
        rw [weight, weight, hsub, Nat.pow_succ]
        omega
      have hboth : weights m (l.depths (d + 1)) + weights m (r.depths (d + 1)) ≤ weight m d ↔
          weights m (l.depths (d + 1)) ≤ weight m (d + 1) ∧
            weights m (r.depths (d + 1)) ≤ weight m (d + 1) := by
        omega
      rw [hboth, ihl hd, ihr hd]
      simp only [mem_append, or_imp, forall_and]
    · -- The root is on the level, and both its subtrees are below.
      have hone : ∀ k, weight d (d + k) = 1 := fun k => by
        rw [weight, Nat.sub_eq_zero_of_le (Nat.le_add_right d k), Nat.pow_zero]
      have hroot : weight d d = 1 := hone 0
      have hbelow : weight d (d + 1) = 1 := hone 1
      refine iff_of_false (by omega) fun hall => ?_
      obtain ⟨p, hp⟩ : ∃ p, p ∈ l.depths (d + 1) := by
        apply exists_mem_of_ne_nil
        intro hnil
        rw [hnil] at hl
        simp [weights, hbelow] at hl
      have hle := hall p (mem_append_left _ hp)
      have hge := le_depth l (d + 1) p hp
      omega

/-- Kraft's inequality, for depths that are cut at `m`. -/
theorem kraft_clamped (t : Tree α) (m : Nat) :
    weights m (t.depths 0) ≤ 2 ^ m ↔ ∀ p ∈ t.depths 0, p.2 ≤ m :=
  weights_le_iff t (Nat.zero_le m)

/-- Two leaves make a tree that is no leaf itself, so none of them is the root. -/
theorem depth_pos (h : 1 < t.leaves.length) : ∀ p ∈ t.depths 0, 0 < p.2 := by
  cases t with
  | leaf a => exact absurd h (Nat.lt_irrefl 1)
  | node l r =>
    intro p hp
    rcases mem_append.1 hp with hp | hp
    · exact le_depth l 1 p hp
    · exact le_depth r 1 p hp

/-- A key that is there once is looked up where it is. -/
theorem lookup_of_mem [DecidableEq α] {l : List (α × Nat)} (hkeys : (l.map Prod.fst).Nodup)
    {p : α × Nat} (h : p ∈ l) : l.lookup p.1 = some p.2 := by
  obtain ⟨before, after, rfl⟩ := append_of_mem h
  refine lookup_eq_some_iff.2 ⟨before, after, rfl, fun q hq => bne_iff_ne.2 fun heq => ?_⟩
  rw [map_append, map_cons, nodup_append] at hkeys
  exact hkeys.2.2 q.1 (mem_map_of_mem hq) p.1 mem_cons_self heq.symm

end Verkos.Lib.Kraft
