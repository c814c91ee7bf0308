import Verkos.Vgzip.Inflate

/-!
# Decoding canonical codes

`huff_build` puts the symbols in the order of their words, and `huff_decode` reads a word: what
it has read of a longer word is beyond the shorter ones, so it goes on until the length is right,
and then the place in the table is that of the symbol.
-/

namespace Verkos.Vgzip

open Lib.Bits Lib.Canonical

variable {lens : List Nat}

theorem getD_set (l : List Nat) (i j v : Nat) :
    (l.set i v).getD j 0 = if i = j ∧ i < l.length then v else l.getD j 0 := by
  rw [List.getD_eq_getElem?_getD, List.getD_eq_getElem?_getD, List.getElem?_set]
  by_cases hij : i = j
  · subst hij
    by_cases hi : i < l.length
    · simp [hi]
    · simp [hi]
  · simp [hij]

/-! ## The tables -/

section

variable (hall : ∀ l ∈ lens, l < 16)
include hall

theorem countLens_fold {count : List Nat} (hlen : count.length = 16) :
    (lens.foldl (fun count l => count.set l (count.getD l 0 + 1)) count).length = 16 ∧
      ∀ l, (lens.foldl (fun count l => count.set l (count.getD l 0 + 1)) count).getD l 0 =
        count.getD l 0 + lens.count l := by
  induction lens generalizing count with
  | nil => exact ⟨hlen, fun _ => rfl⟩
  | cons x lens ih =>
    rw [List.foldl_cons]
    have hlen1 : (count.set x (count.getD x 0 + 1)).length = 16 := by rw [List.length_set, hlen]
    obtain ⟨hlen', hcount⟩ := ih (fun l hl => hall l (List.mem_cons_of_mem _ hl)) hlen1
    refine ⟨hlen', fun l => ?_⟩
    have hx : x < count.length := hlen ▸ hall x List.mem_cons_self
    rw [hcount, getD_set, List.count_cons]
    by_cases hxl : x = l
    · subst hxl
      rw [if_pos ⟨rfl, hx⟩, beq_self_eq_true, if_pos rfl]
      omega
    · rw [if_neg fun h => hxl h.1, if_neg (by simpa using hxl)]
      rfl

theorem countLens_spec (l : Nat) : (countLens lens).getD l 0 = count lens l := by
  obtain ⟨hlen, hcount⟩ := countLens_fold hall (List.length_replicate (n := 16) (a := 0))
  rw [countLens, getD_set, hlen, count]
  by_cases hl : l = 0
  · subst hl
    rw [if_pos ⟨rfl, by decide⟩, if_pos rfl]
  · rw [if_neg fun h => hl h.1.symm, if_neg hl, hcount]
    have hzero : (List.replicate 16 0).getD l 0 = 0 := by
      rw [List.getD_eq_getElem?_getD, List.getElem?_replicate]
      split <;> rfl
    rw [hzero, Nat.zero_add]

theorem offsets_spec : (offsets (countLens lens)).length = 16 ∧
      ∀ l, l < 16 → (offsets (countLens lens)).getD l 0 = offset lens l := by
  have hfold : ∀ k ≤ 14, ∀ offs, offs = (List.range' 1 k).foldl
      (fun offs i => offs.set (i + 1) (offs.getD i 0 + (countLens lens).getD i 0))
      (List.replicate 16 0) → offs.length = 16 ∧ ∀ l ≤ k + 1, offs.getD l 0 = offset lens l := by
    intro k
    induction k with
    | zero =>
      rintro - offs rfl
      refine ⟨rfl, fun l hl => ?_⟩
      rcases Nat.le_one_iff_eq_zero_or_eq_one.1 hl with rfl | rfl <;> rfl
    | succ k ih =>
      rintro hk offs rfl
      obtain ⟨hlen, hoffs⟩ := ih (by omega) _ rfl
      rw [List.range'_1_concat, List.foldl_append]
      refine ⟨by rw [List.foldl_cons, List.foldl_nil, List.length_set, hlen], fun l hl => ?_⟩
      rw [List.foldl_cons, List.foldl_nil, getD_set, hlen, hoffs (1 + k) (by omega),
        countLens_spec hall]
      by_cases hl' : l = k + 1 + 1
      · subst hl'
        rw [if_pos ⟨by omega, by omega⟩, Nat.add_comm 1 k]
        rfl
      · rw [if_neg (by omega), hoffs l (by omega)]
  obtain ⟨hlen, hoffs⟩ := hfold 14 (Nat.le_refl _) _ rfl
  exact ⟨hlen, fun l hl => hoffs l (by omega)⟩

end

/-- What the last loop of `huff_build` keeps, from the symbol `i` on. -/
structure Filling (lens : List Nat) (i : Nat) (offs sym : List Nat) : Prop where
  offs_length : offs.length = 16
  sym_length : sym.length = 288
  offs : ∀ l, 0 < l → l < 16 → offs.getD l 0 = offset lens l + (lens.take i).count l
  sym : ∀ s < i, len lens s ≠ 0 → sym.getD (place lens s) 0 = s

theorem take_succ_len {i : Nat} (hi : i < lens.length) :
    lens.take (i + 1) = lens.take i ++ [len lens i] := by
  rw [len_eq_getElem hi, List.take_append_getElem hi]

section

variable {i : Nat} {offs sym : List Nat} (h : Filling lens i offs sym)
include h

theorem Filling.skip (hi : i < lens.length) (hzero : len lens i = 0) :
    Filling lens (i + 1) offs sym := by
  refine ⟨h.offs_length, h.sym_length, fun l hl hl' => ?_, fun t ht htl => ?_⟩
  · rw [h.offs l hl hl', take_succ_len hi, List.count_append, List.count_singleton, hzero,
      if_neg (by simpa using hl.ne), Nat.add_zero]
  · have hti : t ≠ i := fun he => htl (he ▸ hzero)
    exact h.sym t (by omega) htl

theorem Filling.offs_place (hlt : len lens i < 16) (hnz : len lens i ≠ 0) :
    offs.getD (len lens i) 0 = place lens i :=
  h.offs _ (Nat.pos_iff_ne_zero.2 hnz) hlt

theorem Filling.next (hlen : lens.length ≤ 288) (hi : i < lens.length) (hlt : len lens i < 16)
    (hnz : len lens i ≠ 0) : Filling lens (i + 1) (offs.set (len lens i) (place lens i + 1))
      (sym.set (place lens i) i) := by
  have hroom : place lens i < 288 := Nat.lt_of_lt_of_le (place_lt hnz) hlen
  refine ⟨by rw [List.length_set, h.offs_length], by rw [List.length_set, h.sym_length],
    fun l hl hl' => ?_, fun t ht htl => ?_⟩
  · rw [getD_set, h.offs_length, take_succ_len hi, List.count_append, List.count_singleton]
    by_cases hl'' : len lens i = l
    · subst hl''
      rw [if_pos ⟨rfl, hlt⟩, beq_self_eq_true, if_pos rfl, place, rank]
      omega
    · rw [if_neg fun he => hl'' he.1, if_neg (by simpa using hl''), h.offs l hl hl']
      rfl
  · rw [getD_set, h.sym_length]
    by_cases hti : t = i
    · subst hti
      rw [if_pos ⟨rfl, hroom⟩]
    · rw [if_neg fun he => place_ne (by omega) htl hnz he.1.symm, h.sym t (by omega) htl]

end

theorem Filling.start (hall : ∀ l ∈ lens, l < 16) :
    Filling lens 0 (offsets (countLens lens)) (List.replicate 288 0) := by
  obtain ⟨hlen, hoffs⟩ := offsets_spec hall
  refine ⟨hlen, List.length_replicate, fun l _ hl => ?_, fun t ht => absurd ht (Nat.not_lt_zero t)⟩
  rw [hoffs l hl]
  rfl

theorem fillSym_spec (hall : ∀ l ∈ lens, l < 16) (hlen : lens.length ≤ 288) {i : Nat}
    {offs sym : List Nat} (h : Filling lens i offs sym) (s : Nat) (hs : len lens s ≠ 0) :
    (fillSym (lens.drop i) i offs sym).getD (place lens s) 0 = s := by
  by_cases hi : i < lens.length
  · have hli := len_eq_getElem hi
    have hlt : len lens i < 16 := hli ▸ hall _ (List.getElem_mem hi)
    rw [List.drop_eq_getElem_cons hi, ← hli, fillSym]
    split
    · rename_i hzero
      exact fillSym_spec hall hlen (h.skip hi hzero) s hs
    · rename_i hnz
      rw [h.offs_place hlt hnz]
      exact fillSym_spec hall hlen (h.next hlen hi hlt hnz) s hs
  · rw [List.drop_eq_nil_of_le (Nat.le_of_not_lt hi), fillSym]
    have := lt_length hs
    exact h.sym s (by omega) hs
termination_by lens.length - i

/-- A table that `huff_build` has made for these lengths. -/
structure Built (lens : List Nat) (h : Huff) : Prop where
  count : ∀ l, h.count.getD l 0 = count lens l
  sym : ∀ s, len lens s ≠ 0 → h.sym.getD (place lens s) 0 = s

theorem huffBuild_spec (hall : ∀ l ∈ lens, l < 16) (hlen : lens.length ≤ 288) :
    ∃ h, huffBuild lens = .ok h ∧ Built lens h := by
  have hguard : lens.all (· < 16) = true := by simpa using hall
  refine ⟨_, by rw [huffBuild, if_pos hguard], countLens_spec hall, fun s hs => ?_⟩
  exact fillSym_spec hall hlen (Filling.start hall) s hs

/-! ## Reading a word -/

/-- The bits of a symbol's word. -/
def wordBits (lens : List Nat) (s : Nat) : List Bool := bitsBE (len lens s) (word lens s)

theorem next_bit (v d : Nat) : 2 * (v / 2 ^ (d + 1)) + (v.testBit d).toNat = v / 2 ^ d := by
  rw [testBit_toNat, Nat.pow_succ, ← Nat.div_div_eq_div_mul]
  omega

section

variable {h : Huff} {s : Nat} (hb : Built lens h) (hs : len lens s ≠ 0)
include hb hs

/-- The loop with `d` bits to come after the next: what it has read is in front of the word. -/
theorem huffLoop_word {d k : Nat} {r : BitR} {l : List Bool} (hd : d < len lens s) (hk : d < k)
    (hr : r.bits = bitsBE (d + 1) (word lens s) ++ l) :
    ∃ r' : BitR, huffLoop h k (len lens s - d) ((2 * (word lens s / 2 ^ (d + 1)) : Nat) : Int)
      (first lens (len lens s - d) : Nat) (offset lens (len lens s - d) : Nat) r = .ok (s, r') ∧
      r'.bits = l := by
  induction d generalizing k r with
  | zero =>
    obtain ⟨k, rfl⟩ := Nat.exists_eq_succ_of_ne_zero hk.ne'
    obtain ⟨r', hr', hbits⟩ := getbit_cons hr
    refine ⟨r', ?_, hbits⟩
    have hcode := next_bit (word lens s) 0
    have hrank := rank_lt_count hs
    have hword : word lens s = first lens (len lens s) + rank lens s := rfl
    have hplace : place lens s = offset lens (len lens s) + rank lens s := rfl
    have hneg : ¬ ((word lens s).testBit 0).toNat < (0 : Int) := Int.not_lt.2 (Int.natCast_nonneg _)
    rw [Nat.pow_zero, Nat.div_one] at hcode
    rw [huffLoop, hr']
    dsimp only
    rw [if_neg hneg, hb.count, Nat.sub_zero, if_pos (by omega), if_neg (by omega)]
    have hindex : ((offset lens (len lens s) : Int) +
        ((2 * (word lens s / 2 ^ (0 + 1)) : Nat) + ((word lens s).testBit 0).toNat -
          (first lens (len lens s) : Nat))).toNat = place lens s := by
      omega
    rw [hindex, hb.sym s hs]
  | succ d ih =>
    obtain ⟨k, rfl⟩ := Nat.exists_eq_succ_of_ne_zero (show k ≠ 0 by omega)
    obtain ⟨r₁, hr1, hbits⟩ := getbit_cons hr
    obtain ⟨r', hr', hbits'⟩ := ih (k := k) (by omega) (by omega) hbits
    refine ⟨r', ?_, hbits'⟩
    have hcode := next_bit (word lens s) (d + 1)
    have hless : len lens s - (d + 1) < len lens s := by omega
    have hshort := shorter_word hless
    rw [Nat.sub_sub_self (by omega)] at hshort
    have hneg : ¬ ((word lens s).testBit (d + 1)).toNat < (0 : Int) :=
      Int.not_lt.2 (Int.natCast_nonneg _)
    have hnext : len lens s - (d + 1) + 1 = len lens s - d := by omega
    have hfirst : first lens (len lens s - d) =
        2 * (first lens (len lens s - (d + 1)) + count lens (len lens s - (d + 1))) := by
      rw [← hnext, first]
    have hoffset : offset lens (len lens s - d) =
        offset lens (len lens s - (d + 1)) + count lens (len lens s - (d + 1)) := by
      rw [← hnext, offset]
    rw [huffLoop, hr1]
    dsimp only
    rw [if_neg hneg, hb.count, if_neg (by omega), hnext]
    convert hr' using 2 <;> omega

theorem huffDecode_word (hlen : len lens s ≤ 15) (hfit : word lens s < 2 ^ len lens s) {r : BitR}
    {l : List Bool} (hr : r.bits = wordBits lens s ++ l) :
    ∃ r' : BitR, huffDecode r h = .ok (s, r') ∧ r'.bits = l := by
  obtain ⟨d, hd⟩ := Nat.exists_eq_succ_of_ne_zero hs
  rw [wordBits, hd] at hr
  obtain ⟨r', hr', hbits⟩ := huffLoop_word hb hs (d := d) (k := 15) (by omega) (by omega) hr
  refine ⟨r', ?_, hbits⟩
  have hzero : word lens s / 2 ^ (d + 1) = 0 := Nat.div_eq_of_lt (by rwa [hd] at hfit)
  rw [hzero, show len lens s - d = 1 by omega] at hr'
  exact hr'

end

end Verkos.Vgzip
