import Mathlib.Data.List.Basic
import Mathlib.Data.List.Flatten
import Mathlib.Tactic.Common
import Mathlib.Tactic.Ring

/-!
# Input taken in pieces of one length

`pieces n l` is a list cut into pieces of `n` elements, without what is left over at the end. A
function that works piece by piece is fed through a buffer, in portions that need not end where a
piece does: `Fed` says what is in its hands after a portion, and `Fed.step` that it does not matter
where the portions were cut.
-/

namespace Verkos.Lib.Pieces

open List

variable {α β σ : Type} {n : Nat}

/-- The whole pieces of `n` elements. -/
def pieces (n : Nat) (l : List α) : List (List α) :=
  (List.range (l.length / n)).map fun i => (l.drop (n * i)).take n

variable {l p : List α}

theorem pieces_of_lt (h : l.length < n) : pieces n l = [] := by
  rw [pieces, Nat.div_eq_of_lt h]
  rfl

theorem pieces_of_eq (hn : 0 < n) (h : l.length = n) : pieces n l = [l] := by
  rw [pieces, h, Nat.div_self hn]
  simp [← h]

theorem length_of_mem_pieces (h : p ∈ pieces n l) : p.length = n := by
  rw [pieces, mem_map] at h
  obtain ⟨i, hi, rfl⟩ := h
  have hle : n * (i + 1) ≤ l.length :=
    (Nat.mul_le_mul_left n (mem_range.1 hi)).trans (Nat.mul_div_le _ _)
  rw [Nat.mul_succ] at hle
  rw [length_take, length_drop]
  omega

/-- A list that ends where a piece does is cut there anyway. -/
theorem pieces_append {a : List α} (hn : 0 < n) (ha : n ∣ a.length) (b : List α) :
    pieces n (a ++ b) = pieces n a ++ pieces n b := by
  obtain ⟨k, hk⟩ := ha
  have hdiv : (a ++ b).length / n = a.length / n + b.length / n := by
    rw [length_append, hk, Nat.mul_add_div hn, Nat.mul_div_cancel_left k hn]
  rw [pieces, hdiv, range_add, map_append, map_map]
  congr 1
  · apply map_congr_left
    intro i hi
    have hle : n * (i + 1) ≤ a.length :=
      (Nat.mul_le_mul_left n (mem_range.1 hi)).trans (Nat.mul_div_le _ _)
    rw [Nat.mul_succ] at hle
    rw [drop_append_of_le_length (by omega), take_append_of_le_length]
    rw [length_drop]
    omega
  · apply map_congr_left
    intro i hi
    have hoff : n * (a.length / n + i) = a.length + n * i := by
      rw [hk, Nat.mul_div_cancel_left k hn, Nat.mul_add]
    rw [Function.comp_apply, hoff, drop_append]
    rw [drop_eq_nil_of_le (by omega), nil_append, Nat.add_sub_cancel_left]

/-! ## Pieces of an encoding -/

section Encoded

variable {f : α → List β} {k : Nat} (hf : ∀ a, (f a).length = k)

include hf

theorem length_flatMap_of (l : List α) : (l.flatMap f).length = k * l.length := by
  induction l with
  | nil => rfl
  | cons a l ih =>
    rw [flatMap_cons, length_append, hf, ih, length_cons]
    ring

theorem drop_flatMap (i : Nat) (l : List α) : (l.flatMap f).drop (k * i) = (l.drop i).flatMap f := by
  induction i generalizing l with
  | zero => rfl
  | succ i ih =>
    cases l with
    | nil => simp
    | cons a l =>
      have hoff : k * (i + 1) = (f a).length + k * i := by rw [hf]; ring
      rw [flatMap_cons, hoff, ← drop_drop, drop_left, ih, drop_succ_cons]

theorem take_flatMap (i : Nat) (l : List α) : (l.flatMap f).take (k * i) = (l.take i).flatMap f := by
  induction i generalizing l with
  | zero => simp
  | succ i ih =>
    cases l with
    | nil => simp
    | cons a l =>
      have hoff : k * (i + 1) = (f a).length + k * i := by rw [hf]; ring
      rw [flatMap_cons, hoff, take_length_add_append, ih, take_succ_cons,
        flatMap_cons]

/-- When each element is encoded in `k`, the encoded pieces are the pieces of the encoding. -/
theorem pieces_flatMap (hk : 0 < k) (n : Nat) (l : List α) :
    pieces (k * n) (l.flatMap f) = (pieces n l).map fun p => p.flatMap f := by
  rw [pieces, pieces, map_map, length_flatMap_of hf, Nat.mul_div_mul_left _ _ hk]
  apply map_congr_left
  intro i _
  rw [Function.comp_apply, Nat.mul_assoc, drop_flatMap hf, take_flatMap hf]

end Encoded

/-! ## Feeding through a buffer -/

/-- Of the input `m` the whole pieces have gone through `f`, and `buf` is left. -/
structure Fed (f : σ → List α → σ) (n : Nat) (start : σ) (m : List α) (s : σ) (buf : List α) :
    Prop where
  short : buf.length < n
  split : ∃ whole, m = whole ++ buf ∧ n ∣ whole.length ∧ s = (pieces n whole).foldl f start

namespace Fed

variable {f : σ → List α → σ} {start s : σ} {m buf : List α}

theorem init (hn : 0 < n) : Fed f n start [] start [] :=
  ⟨hn, [], rfl, Nat.dvd_zero n, by rw [pieces_of_lt hn]; rfl⟩

/-- A portion that does not fill the buffer. -/
theorem keep (h : Fed f n start m s buf) (hp : (buf ++ p).length < n) :
    Fed f n start (m ++ p) s (buf ++ p) := by
  obtain ⟨whole, rfl, hdvd, rfl⟩ := h.split
  exact ⟨hp, whole, append_assoc whole buf p, hdvd, rfl⟩

/-- A portion that fills it to the brim. -/
theorem fill (h : Fed f n start m s buf) (hp : (buf ++ p).length = n) :
    Fed f n start (m ++ p) (f s (buf ++ p)) [] := by
  obtain ⟨whole, rfl, hdvd, rfl⟩ := h.split
  have hn : 0 < n := Nat.zero_lt_of_lt h.short
  refine ⟨hn, whole ++ (buf ++ p), by simp, ?_, ?_⟩
  · rw [length_append, hp]
    exact Nat.dvd_add hdvd (Nat.dvd_refl n)
  · rw [pieces_append hn hdvd, pieces_of_eq hn hp, foldl_append]
    rfl

/-- Once nothing is left over, the whole input has gone through. -/
theorem done (h : Fed f n start m s []) : s = (pieces n m).foldl f start := by
  obtain ⟨whole, rfl, _, rfl⟩ := h.split
  rw [append_nil]

theorem length_mod (h : Fed f n start m s buf) : m.length % n = buf.length := by
  obtain ⟨whole, rfl, ⟨k, hk⟩, _⟩ := h.split
  rw [length_append, hk, Nat.mul_add_mod, Nat.mod_eq_of_lt h.short]

end Fed

end Verkos.Lib.Pieces
