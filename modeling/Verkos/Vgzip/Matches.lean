import Verkos.Vgzip.Deflate

/-!
# The matches that deflate finds

`search` only ever answers with a match that is there: some earlier position, within the window,
from which the data goes on as it does here. The chains are a heuristic; all that counts of them
is that they hold earlier positions.
-/

namespace Verkos.Vgzip

variable {data : List UInt8} {i j : Nat}

/-- From `dist` back the data goes on for `len` bytes as it does at `i`. -/
structure Matches (data : List UInt8) (i len dist : Nat) : Prop where
  dist_pos : 0 < dist
  dist_le : dist ≤ i
  window : dist ≤ 32768
  len_le : len ≤ 258
  inside : i + len ≤ data.length
  same : ∀ k < len, byteAt data (i - dist + k) = byteAt data (i + k)

theorem matchLen_spec (j k l : Nat) (hl : i + l ≤ data.length)
    (hsame : ∀ m < l, byteAt data (j + m) = byteAt data (i + m)) :
    matchLen data j i k l ≤ l + k ∧ i + matchLen data j i k l ≤ data.length ∧
      ∀ m < matchLen data j i k l, byteAt data (j + m) = byteAt data (i + m) := by
  induction k generalizing l with
  | zero => exact ⟨Nat.le_refl _, hl, hsame⟩
  | succ k ih =>
    rw [matchLen]
    split
    · rename_i h
      have hmore := ih (l + 1) (by omega) fun m hm => by
        rcases Nat.lt_succ_iff_lt_or_eq.1 hm with hm | rfl
        · exact hsame m hm
        · exact h.2
      exact ⟨by omega, hmore.2⟩
    · exact ⟨Nat.le_add_right _ _, hl, hsame⟩

/-- The answer of `search`: nothing, or a match. -/
def Answer (data : List UInt8) (i : Nat) (best : Nat × Nat) : Prop :=
  best = (0, 0) ∨ Matches data i best.1 best.2

theorem search_spec {prev : Nat → Option Nat} (hprev : ∀ p q, prev p = some q → q < i)
    (hi : i ≤ data.length) (chain : Nat) {start : Option Nat} (hstart : ∀ j, start = some j → j < i)
    {best : Nat × Nat} (hbest : Answer data i best) :
    Answer data i (search data prev i chain start best) := by
  induction chain generalizing start best with
  | zero => exact hbest
  | succ chain ih =>
    cases start with
    | none => exact hbest
    | some j =>
      have hj : j < i := hstart j rfl
      rw [search]
      split
      · rename_i hwindow
        obtain ⟨hle, hinside, hsame⟩ := matchLen_spec (i := i) j 258 0 hi
          fun m hm => absurd hm (Nat.not_lt_zero m)
        have hmatch : Answer data i (matchLen data j i 258 0, i - j) := by
          refine .inr ⟨Nat.sub_pos_of_lt hj, Nat.sub_le i j, hwindow, by simpa using hle, hinside,
            fun m hm => ?_⟩
          rw [Nat.sub_sub_self hj.le]
          exact hsame m hm
        dsimp only
        split
        · split
          · exact hmatch
          · exact ih (hprev j) hmatch
        · exact ih (hprev j) hbest
      · exact ih (hprev j) hbest

/-! ## The chains -/

/-- The chains hold earlier positions only. -/
structure Chains.Below (c : Chains) (i : Nat) : Prop where
  head : ∀ h j, c.head h = some j → j < i
  prev : ∀ p j, c.prev p = some j → j < i

variable {c : Chains}

theorem Chains.Below.mono (h : c.Below i) (hij : i ≤ j) : c.Below j :=
  ⟨fun x p hp => Nat.lt_of_lt_of_le (h.head x p hp) hij,
    fun x p hp => Nat.lt_of_lt_of_le (h.prev x p hp) hij⟩

theorem Chains.Below.link (h : c.Below i) (k : Nat) {v : Option Nat} (hv : ∀ p, v = some p → p ≤ i) :
    Below ⟨Function.update c.head k v, Function.update c.prev i (c.head k)⟩ (i + 1) := by
  refine ⟨fun x p hp => ?_, fun x p hp => ?_⟩
  · dsimp only at hp
    by_cases hx : x = k
    · subst hx
      rw [Function.update_self] at hp
      exact Nat.lt_succ_of_le (hv p hp)
    · rw [Function.update_of_ne hx] at hp
      exact Nat.lt_succ_of_lt (h.head x p hp)
  · dsimp only at hp
    by_cases hx : x = i
    · subst hx
      rw [Function.update_self] at hp
      exact Nat.lt_succ_of_lt (h.head _ p hp)
    · rw [Function.update_of_ne hx] at hp
      exact Nat.lt_succ_of_lt (h.prev x p hp)

theorem Chains.Below.insert (data : List UInt8) (h : c.Below i) : (c.insert data i).Below (i + 1) := by
  unfold Chains.insert
  split
  · exact h.link _ fun p hp => (Option.some.inj hp).ge
  · exact h.mono (Nat.le_succ i)

/-- Positions in order, put into the chains in a way that keeps them so. -/
theorem Chains.Below.insert_range {ins : Chains → Nat → Chains}
    (hins : ∀ {c i}, Chains.Below c i → (ins c i).Below (i + 1)) (h : c.Below i) (n : Nat) :
    ((List.range' i n).foldl ins c).Below (i + n) := by
  induction n generalizing c i with
  | zero => exact h
  | succ n ih =>
    rw [List.range'_succ, List.foldl_cons, Nat.add_comm n 1, ← Nat.add_assoc]
    exact ih (hins h)

theorem lookup_spec (data : List UInt8) (h : c.Below i) (hi : i < data.length) :
    Answer data i (if i + 3 ≤ data.length then
      search data c.prev i 128 (c.head (hash data i)) (0, 0) else (0, 0)) := by
  split
  · exact search_spec h.prev hi.le 128 (h.head _) (.inl rfl)
  · exact .inl rfl

/-! ## Copying a match -/

/-- A match that is copied is the data itself, further on. -/
theorem copyBack_take {dist : Nat} (hpos : 0 < dist) (hdist : dist ≤ i) (len : Nat)
    (hlen : i + len ≤ data.length)
    (hsame : ∀ k < len, byteAt data (i - dist + k) = byteAt data (i + k)) :
    copyBack dist len (data.take i) = data.take (i + len) := by
  induction len generalizing i with
  | zero => rfl
  | succ len ih =>
    have hi : i < data.length := by omega
    have hback : i - dist < i := by omega
    have hlength : (data.take i).length = i := List.length_take_of_le hi.le
    have hget : (data.take i).getD (i - dist) 0 = data[i] := by
      have hbyte := hsame 0 (Nat.succ_pos _)
      rw [Nat.add_zero, Nat.add_zero, byteAt, byteAt, UInt8.toNat_inj] at hbyte
      rw [List.getD_eq_getElem?_getD, List.getElem?_take_of_lt hback,
        ← List.getD_eq_getElem?_getD, hbyte, List.getD_eq_getElem _ _ hi]
    rw [copyBack, hlength, hget, List.take_append_getElem hi, ih (i := i + 1) (by omega) (by omega)]
    · rw [Nat.add_assoc, Nat.add_comm 1 len]
    · intro k hk
      have := hsame (k + 1) (by omega)
      rw [show i + 1 - dist + k = i - dist + (k + 1) by omega,
        show i + 1 + k = i + (k + 1) by omega]
      exact this

end Verkos.Vgzip
