import Mathlib.Data.List.Basic
import Verkos.Lib.Bits

/-!
# Canonical Huffman codes

A canonical code is given by the length of every symbol's code word; zero says that the symbol has
none. Words of one length are consecutive numbers in the order of the symbols, and `first` is where
each length begins: twice what comes after the last word that is one bit shorter. A decoder keeps
that number and reads bits until what it has read is within a length's words; `shorter_word` is why
it never stops too early. Where the lengths satisfy Kraft's inequality, there is room for the words
of each (`words_fit`), and none begins another (`prefix_free`).

The symbols themselves lie in a table, one length after the other: `place` is where.
-/

namespace Verkos.Lib.Canonical

variable (lens : List Nat)

/-- The length of a symbol's code word. -/
def len (s : Nat) : Nat := lens.getD s 0

/-- How many words have this length. -/
def count (l : Nat) : Nat := if l = 0 then 0 else lens.count l

/-- The first word of a length. -/
def first : Nat → Nat
  | 0 => 0
  | l + 1 => 2 * (first l + count lens l)

/-- Where the symbols of a length begin in the table. -/
def offset : Nat → Nat
  | 0 => 0
  | l + 1 => offset l + count lens l

/-- How many symbols before `s` have words of its length. -/
def rank (s : Nat) : Nat := (lens.take s).count (len lens s)

/-- The word of a symbol, as a number. -/
def word (s : Nat) : Nat := first lens (len lens s) + rank lens s

/-- The symbol's place in the table. -/
def place (s : Nat) : Nat := offset lens (len lens s) + rank lens s

variable {lens} {s t l l' : Nat}

theorem len_eq_getElem (h : s < lens.length) : len lens s = lens[s] := by
  simp [len, h]

/-- A symbol that has a word is in the list. -/
theorem lt_length (h : len lens s ≠ 0) : s < lens.length := by
  by_contra hs
  exact h (by simp [len, List.getElem?_eq_none (Nat.le_of_not_lt hs)])

theorem rank_lt_rank (hst : s < t) (hs : s < lens.length) (hlen : len lens s = len lens t) :
    rank lens s < rank lens t := by
  have hsplit : lens.take t = lens.take s ++ (lens.take t).drop s := by
    rw [← Nat.min_eq_left hst.le, ← List.take_take, Nat.min_eq_left hst.le, List.take_append_drop]
  have hmem : len lens t ∈ (lens.take t).drop s := by
    rw [← hlen, len_eq_getElem hs, List.mem_drop_iff_getElem]
    exact ⟨0, by rw [List.length_take]; omega, by simp⟩
  rw [rank, rank, hsplit, List.count_append, hlen]
  exact Nat.lt_add_of_pos_right (List.count_pos_iff.2 hmem)

theorem rank_lt_count (h : len lens s ≠ 0) : rank lens s < count lens (len lens s) := by
  have hs := lt_length h
  have hmem : len lens s ∈ lens.drop s := by
    rw [len_eq_getElem hs, List.mem_drop_iff_getElem]
    exact ⟨0, by omega, by simp⟩
  have hsplit : lens.count (len lens s) = rank lens s + (lens.drop s).count (len lens s) := by
    rw [rank, ← List.count_append, List.take_append_drop]
  rw [count, if_neg h, hsplit]
  exact Nat.lt_add_of_pos_right (List.count_pos_iff.2 hmem)

/-- Every rank below the number of words of a length is that of a symbol. -/
theorem exists_rank {j : Nat} (h : j < count lens l) : ∃ s, len lens s = l ∧ rank lens s = j := by
  have hmem : ∀ (xs : List Nat) (j : Nat), j < xs.count l →
      ∃ s, ∃ hs : s < xs.length, xs[s] = l ∧ (xs.take s).count l = j := by
    intro xs
    induction xs with
    | nil => exact fun j hj => absurd hj (Nat.not_lt_zero j)
    | cons x xs ih =>
      intro j hj
      by_cases hx : x = l
      · subst hx
        cases j with
        | zero => exact ⟨0, Nat.zero_lt_succ _, rfl, rfl⟩
        | succ j =>
          rw [List.count_cons_self] at hj
          obtain ⟨s, hs, hval, hrank⟩ := ih j (Nat.lt_of_succ_lt_succ hj)
          exact ⟨s + 1, Nat.succ_lt_succ hs, hval, by rw [List.take_succ_cons, List.count_cons_self, hrank]⟩
      · rw [List.count_cons_of_ne hx] at hj
        obtain ⟨s, hs, hval, hrank⟩ := ih j hj
        exact ⟨s + 1, Nat.succ_lt_succ hs, hval,
          by rw [List.take_succ_cons, List.count_cons_of_ne hx, hrank]⟩
  rw [count] at h
  split at h
  · exact absurd h (Nat.not_lt_zero j)
  · obtain ⟨s, hs, hval, hrank⟩ := hmem lens j h
    refine ⟨s, by rw [len_eq_getElem hs, hval], ?_⟩
    rw [rank, len_eq_getElem hs, hval, hrank]

/-- A length begins behind the words of every shorter one. -/
theorem words_before (h : l < l') : (first lens l + count lens l) * 2 ^ (l' - l) ≤ first lens l' := by
  induction l' with
  | zero => exact absurd h (Nat.not_lt_zero l)
  | succ l' ih =>
    rcases Nat.lt_succ_iff_lt_or_eq.1 h with h | rfl
    · have := ih h
      rw [Nat.succ_sub h.le, Nat.pow_succ, first]
      calc (first lens l + count lens l) * (2 ^ (l' - l) * 2)
          = 2 * ((first lens l + count lens l) * 2 ^ (l' - l)) := by ring
        _ ≤ 2 * (first lens l' + count lens l') := by omega
    · rw [Nat.add_sub_cancel_left, first]
      omega

/-- What a decoder has read of a word is beyond the words of a shorter length. -/
theorem shorter_word (h : l < len lens s) :
    first lens l + count lens l ≤ word lens s / 2 ^ (len lens s - l) := by
  rw [Nat.le_div_iff_mul_le (Nat.two_pow_pos _)]
  exact (words_before h).trans (Nat.le_add_right _ _)

theorem offset_mono (lens : List Nat) (h : l < l') :
    offset lens l + count lens l ≤ offset lens l' := by
  induction l' with
  | zero => exact absurd h (Nat.not_lt_zero l)
  | succ l' ih =>
    rcases Nat.lt_succ_iff_lt_or_eq.1 h with h | rfl
    · exact (ih h).trans (Nat.le_add_right _ _)
    · exact Nat.le_refl _

theorem countP_lt_succ (h : 0 < l) (lens : List Nat) :
    lens.countP (fun x => decide (0 < x ∧ x < l + 1)) =
      lens.countP (fun x => decide (0 < x ∧ x < l)) + lens.count l := by
  induction lens with
  | nil => rfl
  | cons x lens ih =>
    rw [List.countP_cons, List.countP_cons, List.count_cons, ih]
    rcases Nat.lt_trichotomy x l with hx | rfl | hx
    · simp only [decide_eq_true_eq, beq_iff_eq, hx, hx.ne, if_false, and_true,
        Nat.lt_succ_of_lt hx]
      omega
    · simp only [decide_eq_true_eq, beq_iff_eq, h, Nat.lt_succ_self, Nat.lt_irrefl, and_false,
        true_and, if_true, if_false]
      omega
    · simp only [decide_eq_true_eq, beq_iff_eq, hx.ne', Nat.not_lt.2 hx.le,
        Nat.not_lt.2 (Nat.succ_le_of_lt hx), and_false, if_false]
      omega

/-- What is shorter lies in front of a length. -/
theorem offset_eq_countP (lens : List Nat) (l : Nat) :
    offset lens l = lens.countP fun x => decide (0 < x ∧ x < l) := by
  induction l with
  | zero => simp [offset]
  | succ l ih =>
    rw [offset, ih]
    rcases Nat.eq_zero_or_pos l with rfl | hl
    · rw [count, if_pos rfl, Nat.add_zero]
      refine List.countP_congr fun x _ => ?_
      simp only [decide_eq_true_eq]
      omega
    · rw [countP_lt_succ hl, count, if_neg hl.ne']

theorem place_lt (h : len lens s ≠ 0) : place lens s < lens.length := by
  have hrank := rank_lt_count h
  have hnext : offset lens (len lens s) + count lens (len lens s) ≤ lens.length := by
    rw [← offset, offset_eq_countP]
    exact List.countP_le_length
  rw [place]
  omega

/-- No two symbols have one place. -/
theorem place_ne (hst : s < t) (hs : len lens s ≠ 0) (ht : len lens t ≠ 0) :
    place lens s ≠ place lens t := by
  have hs' := rank_lt_count hs
  have ht' := rank_lt_count ht
  rw [place, place]
  rcases Nat.lt_trichotomy (len lens s) (len lens t) with h | h | h
  · have := offset_mono lens h
    omega
  · have := rank_lt_rank hst (lt_length hs) h
    rw [h]
    omega
  · have := offset_mono lens h
    omega

/-! ## Kraft's inequality -/

section Kraft

open Bits

/-- What the words of these lengths take up of the words of `m` bits. -/
def kraft (m : Nat) (lens : List Nat) : Nat :=
  (lens.map fun l => if 0 < l ∧ l ≤ m then 2 ^ (m - l) else 0).sum

theorem kraft_succ (m : Nat) (lens : List Nat) :
    kraft (m + 1) lens = 2 * kraft m lens + count lens (m + 1) := by
  rw [count, if_neg (Nat.succ_ne_zero m), kraft, kraft]
  induction lens with
  | nil => rfl
  | cons x lens ih =>
    rw [List.map_cons, List.map_cons, List.sum_cons, List.sum_cons, List.count_cons, ih]
    rcases Nat.lt_trichotomy x (m + 1) with hx | rfl | hx
    · have hle : x ≤ m := Nat.le_of_lt_succ hx
      simp only [hx.le, hle, hx.ne, and_true, beq_iff_eq, if_false, Nat.succ_sub hle, Nat.pow_succ]
      split <;> ring
    · simp only [Nat.succ_pos, le_refl, and_self, Nat.sub_self, Nat.pow_zero, beq_self_eq_true,
        if_true, Nat.not_succ_le_self, and_false, if_false]
      ring
    · simp only [Nat.not_le.2 hx, Nat.not_le.2 (Nat.lt_of_succ_lt hx), hx.ne', and_false, if_false,
        beq_iff_eq]
      ring

/-- The words up to a length take up what lies in front of the next one. -/
theorem kraft_eq (m : Nat) (lens : List Nat) : kraft m lens = first lens m + count lens m := by
  induction m with
  | zero =>
    rw [first, count, if_pos rfl]
    refine List.sum_eq_zero_iff_forall_eq_nat.2 fun w hw => ?_
    obtain ⟨l, -, rfl⟩ := List.mem_map.1 hw
    exact if_neg fun hl => Nat.not_lt.2 hl.2 hl.1
  | succ m ih => rw [kraft_succ, ih, first]

/-- Lengths that satisfy Kraft's inequality leave room for the words of each. -/
theorem words_fit {m : Nat} (h : kraft m lens ≤ 2 ^ m) (hl : l ≤ m) :
    first lens l + count lens l ≤ 2 ^ l := by
  rw [kraft_eq] at h
  rcases Nat.lt_or_eq_of_le hl with hl | rfl
  · have hlt : (first lens l + count lens l) * 2 ^ (m - l) ≤ 2 ^ l * 2 ^ (m - l) := by
      rw [← Nat.pow_add, Nat.add_sub_cancel' hl.le]
      exact (words_before hl).trans ((Nat.le_add_right _ _).trans h)
    exact Nat.le_of_mul_le_mul_right hlt (Nat.two_pow_pos _)
  · exact h

theorem word_lt {m : Nat} (h : kraft m lens ≤ 2 ^ m) (h0 : len lens s ≠ 0) (hs : len lens s ≤ m) :
    word lens s < 2 ^ len lens s :=
  (Nat.add_lt_add_left (rank_lt_count h0) _).trans_le (words_fit h hs)

/-- A word of bits that begins another one is what the other is without its last bits. -/
theorem eq_of_prefix {v w : Nat} (hv : v < 2 ^ l) (hpre : bitsBE l v <+: bitsBE l' w) :
    l ≤ l' ∧ v = w / 2 ^ (l' - l) % 2 ^ l := by
  have hle := hpre.length_le
  rw [length_bitsBE, length_bitsBE] at hle
  obtain ⟨k, rfl⟩ := Nat.exists_eq_add_of_le hle
  rw [bitsBE_add] at hpre
  have heq := List.prefix_of_prefix_length_le hpre (List.prefix_append _ _) (by simp)
  have hsame := heq.eq_of_length (by simp)
  refine ⟨hle, ?_⟩
  rw [Nat.add_sub_cancel_left, ← ofBE_bitsBE_mod, ← hsame, ofBE_bitsBE hv]

/-- The words of a canonical code are such that none begins another. -/
theorem prefix_free {m : Nat} (h : kraft m lens ≤ 2 ^ m) (hlens : ∀ x, len lens x ≤ m)
    (hs0 : len lens s ≠ 0) (ht0 : len lens t ≠ 0) (hst : s ≠ t) :
    ¬ bitsBE (len lens s) (word lens s) <+: bitsBE (len lens t) (word lens t) := by
  intro hpre
  have hs := word_lt h hs0 (hlens s)
  have ht := word_lt h ht0 (hlens t)
  obtain ⟨hle, heq⟩ := eq_of_prefix hs hpre
  rcases Nat.lt_or_eq_of_le hle with hlt | hlen
  · have hbelow : word lens t / 2 ^ (len lens t - len lens s) < 2 ^ len lens s := by
      rw [Nat.div_lt_iff_lt_mul (Nat.two_pow_pos _), ← Nat.pow_add, Nat.add_sub_cancel' hle]
      exact ht
    rw [Nat.mod_eq_of_lt hbelow] at heq
    have hshort := shorter_word hlt
    have hrank := rank_lt_count hs0
    rw [word] at heq
    omega
  · rw [← hlen, Nat.sub_self, Nat.pow_zero, Nat.div_one] at heq
    rw [← hlen] at ht
    rw [Nat.mod_eq_of_lt ht, word, word, ← hlen] at heq
    rcases Nat.lt_or_gt_of_ne hst with hlt | hlt
    · have := rank_lt_rank hlt (lt_length hs0) hlen
      omega
    · have := rank_lt_rank hlt (lt_length ht0) hlen.symm
      omega

end Kraft

end Verkos.Lib.Canonical
