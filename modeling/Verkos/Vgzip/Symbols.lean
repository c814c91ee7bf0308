import Verkos.Vgzip.Huff
import Verkos.Lib.Rfc1951

/-!
# What the readers can do

Every function of `inflate` that reads has one lemma here that says all it can come to: `getbits`
has the number or has come to the end of the data, and `huff_decode` has a symbol whose word was
there or fails. It never has a symbol whose word was not there, not even in a table of lengths that
are no code.
-/

namespace Verkos.Vgzip

open Lib.Bits Lib.Canonical Lib.Rfc1951

/-- At most seven bits are left of the byte that has been begun. -/
def BitR.Begun (r : BitR) : Prop := r.bitcnt < 8

variable {k i s : Nat} {v : Int} {r' : BitR}

section Bits

variable {r : BitR} {n : Nat}

theorem BitR.bits_eq_nil : r.bits = [] ↔ r.bitcnt = 0 ∧ r.rest = [] := by
  have hbyte : ∀ b, byteBits b ≠ [] := fun b h => by
    have := congrArg List.length h
    rw [byteBits, length_bitsLE] at this
    cases this
  rw [BitR.bits, List.append_eq_nil_iff, List.flatMap_eq_nil_iff, ← List.length_eq_zero_iff,
    length_bitsLE, List.eq_nil_iff_forall_not_mem]
  exact and_congr_right fun _ => forall_congr' fun b => by simp [hbyte b]

theorem getbit_nil (h : r.bits = []) : getbit r = (-1, r) := by
  obtain ⟨hcnt, hrest⟩ := BitR.bits_eq_nil.1 h
  rw [getbit, if_pos hcnt, hrest]

theorem getbit_cases (r : BitR) :
    (∃ (b : Bool) (r' : BitR), getbit r = ((b.toNat : Int), r') ∧ r.bits = b :: r'.bits) ∨
      getbit r = (-1, r) ∧ r.bits = [] := by
  cases h : r.bits with
  | nil => exact .inr ⟨getbit_nil h, rfl⟩
  | cons b l =>
    obtain ⟨r', hr', hbits⟩ := getbit_cons h
    exact .inl ⟨b, r', hr', by rw [hbits]⟩

theorem getbitsFrom_short (h : r.bits.length < k) :
    ∃ r' : BitR, getbitsFrom k i v r = (-1, r') ∧ r'.bits = [] := by
  induction k generalizing r i v with
  | zero => exact absurd h (Nat.not_lt_zero _)
  | succ k ih =>
    obtain ⟨b, r₁, hr1, hbits⟩ | ⟨hr1, hbits⟩ := getbit_cases r
    · rw [hbits, List.length_cons] at h
      have hneg : ¬ (b.toNat : Int) < 0 := Int.not_lt.2 (Int.natCast_nonneg _)
      rw [getbitsFrom, hr1]
      dsimp only
      rw [if_neg hneg]
      exact ih (Nat.lt_of_succ_lt_succ h)
    · refine ⟨r, ?_, hbits⟩
      rw [getbitsFrom, hr1]
      rfl

/-- `getbits` has its number, or it was cut off. -/
theorem getbits_cases (r : BitR) (n : Nat) :
    (∃ (v : Nat) (r' : BitR), getbits r n = ((v : Int), r') ∧ v < 2 ^ n ∧
      r.bits = bitsLE n v ++ r'.bits) ∨
    r.bits.length < n ∧ ∃ r' : BitR, getbits r n = (-1, r') ∧ r'.bits = [] := by
  rcases Nat.lt_or_ge r.bits.length n with h | h
  · exact .inr ⟨h, getbitsFrom_short h⟩
  · have hsplit : r.bits = r.bits.take n ++ r.bits.drop n := (List.take_append_drop n _).symm
    obtain ⟨r', hr', hbits⟩ := getbitsFrom_append 0 0 hsplit
    have hlen : (r.bits.take n).length = n := List.length_take_of_le h
    have hlt := ofLE_lt (r.bits.take n)
    have hback := bitsLE_ofLE (r.bits.take n)
    rw [hlen] at hlt hback hr'
    rw [Nat.pow_zero, Nat.mul_one, Nat.zero_add] at hr'
    exact .inl ⟨_, r', hr', hlt, by rw [hback, hbits, List.take_append_drop]⟩

theorem getbits_nil (h : r.bits = []) (hn : 0 < n) :
    (getbits r n).1 = -1 ∧ (getbits r n).2.bits = [] := by
  obtain ⟨r', hr', hbits⟩ := getbitsFrom_short (i := 0) (v := 0) (show r.bits.length < n by rwa [h])
  rw [getbits, hr']
  exact ⟨rfl, hbits⟩

theorem getbit_begun (h : r.Begun) : (getbit r).2.Begun := by
  have hr : r.bitcnt < 8 := h
  unfold getbit
  split
  · cases hrest : r.rest with
    | nil => exact h
    | cons b rest => exact (by decide : 7 < 8)
  · exact (by omega : r.bitcnt - 1 < 8)

theorem getbitsFrom_begun (h : r.Begun) : (getbitsFrom k i v r).2.Begun := by
  induction k generalizing r i v with
  | zero => exact h
  | succ k ih =>
    rw [getbitsFrom]
    dsimp only
    split
    · exact getbit_begun h
    · exact ih (getbit_begun h)

theorem getbits_begun (h : r.Begun) (n : Nat) : (getbits r n).2.Begun := getbitsFrom_begun h

theorem begun_of_getbits (hr : getbits r n = (v, r')) (h : r.Begun) : r'.Begun := by
  have hbegun := getbits_begun h n
  rwa [hr] at hbegun

end Bits

/-! ## Symbols -/

/-- A table that has been made for these lengths, which are those of a decoder. -/
structure Table (lens : List Nat) (h : Huff) : Prop where
  built : Built lens h
  lt : ∀ l ∈ lens, l < 16

theorem len_lt {lens : List Nat} (hall : ∀ l ∈ lens, l < 16) (s : Nat) : len lens s < 16 := by
  by_cases hs : s < lens.length
  · rw [len_eq_getElem hs]
    exact hall _ (List.getElem_mem hs)
  · rw [len, List.getD_eq_default _ _ (Nat.le_of_not_lt hs)]
    decide

theorem huffBuild_table {lens : List Nat} (hall : ∀ l ∈ lens, l < 16) (hlen : lens.length ≤ 288) :
    ∃ h, huffBuild lens = .ok h ∧ Table lens h := by
  obtain ⟨h, hh, hb⟩ := huffBuild_spec hall hlen
  exact ⟨h, hh, hb, hall⟩

section Decode

variable {lens : List Nat} {h : Huff}

theorem Table.decode (ht : Table lens h) (hs : Has lens s) {r : BitR} {l : List Bool}
    (hr : r.bits = codeBits lens s ++ l) :
    ∃ r' : BitR, huffDecode r h = .ok (s, r') ∧ r'.bits = l :=
  huffDecode_word ht.built hs.1 (Nat.le_of_lt_succ (len_lt ht.lt s)) hs.2 hr

/-- The loop at the length `n`: `c` is what it has read, and is not in front of the words of that
length. -/
theorem huffLoop_cases (hb : Built lens h) {n c : Nat} (hn : n + k = 16) (hpos : 0 < n)
    (hc : first lens n ≤ 2 * c) (r : BitR) :
    (∃ (s : Nat) (r' : BitR), huffLoop h k n ((2 * c : Nat) : Int) (first lens n : Nat)
        (offset lens n : Nat) r = .ok (s, r') ∧ n ≤ len lens s ∧
      word lens s / 2 ^ (len lens s + 1 - n) = c ∧
      r.bits = bitsBE (len lens s + 1 - n) (word lens s) ++ r'.bits) ∨
    huffLoop h k n ((2 * c : Nat) : Int) (first lens n : Nat) (offset lens n : Nat) r =
      .error .bad := by
  induction k generalizing n c r with
  | zero => exact .inr rfl
  | succ k ih =>
    obtain ⟨b, r₁, hr1, hbits⟩ | ⟨hr1, -⟩ := getbit_cases r
    · have hneg : ¬ (b.toNat : Int) < 0 := Int.not_lt.2 (Int.natCast_nonneg _)
      have hcode : ((2 * c : Nat) : Int) + b.toNat = ((2 * c + b.toNat : Nat) : Int) := by
        push_cast
        rfl
      have hb1 : b.toNat ≤ 1 := Bool.toNat_le b
      rw [huffLoop, hr1]
      dsimp only
      rw [if_neg hneg, hb.count, hcode]
      by_cases hlt : 2 * c + b.toNat < first lens n + count lens n
      · rw [if_pos (by omega), if_neg (by omega)]
        obtain ⟨s, hlen, hrank⟩ := exists_rank (show 2 * c + b.toNat - first lens n < count lens n by
          omega)
        have hword : word lens s = 2 * c + b.toNat := by
          rw [word, hlen, hrank]
          omega
        have hplace : ((offset lens n : Nat) + (((2 * c + b.toNat : Nat) : Int) -
            (first lens n : Nat))).toNat = place lens s := by
          rw [place, hlen, hrank]
          omega
        have hbit : (2 * c + b.toNat).testBit 0 = b := by
          cases b <;> simp
        refine .inl ⟨s, r₁, ?_, hlen.ge, ?_, ?_⟩
        · rw [hplace, hb.sym s (by omega)]
        · rw [hlen, hword, Nat.add_sub_cancel_left]
          omega
        · rw [hlen, hword, Nat.add_sub_cancel_left, hbits, bitsBE, hbit]
          rfl
      · rw [if_neg (by omega)]
        have hfirst : first lens (n + 1) = 2 * (first lens n + count lens n) := rfl
        have hoffset : offset lens (n + 1) = offset lens n + count lens n := rfl
        have hnext : huffLoop h k (n + 1) (2 * ((2 * c + b.toNat : Nat) : Int))
            (2 * ((first lens n : Nat) + (count lens n : Nat)))
            ((offset lens n : Nat) + (count lens n : Nat)) r₁ =
            huffLoop h k (n + 1) ((2 * (2 * c + b.toNat) : Nat) : Int)
              (first lens (n + 1) : Nat) (offset lens (n + 1) : Nat) r₁ := by
          rw [hfirst, hoffset]
          push_cast
          rfl
        rw [hnext]
        obtain ⟨s, r', hr', hle, hdiv, hbits'⟩ | hbad :=
          ih (n := n + 1) (c := 2 * c + b.toNat) (by omega) (Nat.succ_pos n) (by omega) r₁
        · have hexp : len lens s + 1 - n = len lens s + 1 - (n + 1) + 1 := by omega
          refine .inl ⟨s, r', hr', by omega, ?_, ?_⟩
          · rw [hexp, Nat.pow_succ, ← Nat.div_div_eq_div_mul, hdiv]
            omega
          · have hbit : (word lens s).testBit (len lens s + 1 - (n + 1)) = b := by
              rw [Nat.testBit_eq_decide_div_mod_eq, hdiv]
              cases b <;> simp
            rw [hbits, hbits', hexp, bitsBE, hbit]
            rfl
        · exact .inr hbad
    · refine .inr ?_
      rw [huffLoop, hr1]
      rfl

theorem Table.decode_cases (ht : Table lens h) (r : BitR) :
    (∃ (s : Nat) (r' : BitR), huffDecode r h = .ok (s, r') ∧ Has lens s ∧
      r.bits = codeBits lens s ++ r'.bits) ∨ huffDecode r h = .error .bad := by
  obtain ⟨s, r', hr', hle, hdiv, hbits⟩ | hbad :=
    huffLoop_cases ht.built (k := 15) (n := 1) (c := 0) rfl Nat.one_pos (Nat.zero_le _) r
  · rw [Nat.add_sub_cancel] at hdiv hbits
    refine .inl ⟨s, r', hr', ⟨by omega, ?_⟩, hbits⟩
    rwa [Nat.div_eq_zero_iff_lt (Nat.two_pow_pos _)] at hdiv
  · exact .inr hbad

theorem huffDecode_nil {r : BitR} (hr : r.bits = []) (h : Huff) : huffDecode r h = .error .bad := by
  rw [huffDecode, huffLoop, getbit_nil hr]
  rfl

theorem huffLoop_begun {n : Nat} {code fst index : Int} {r : BitR}
    (hok : huffLoop h k n code fst index r = .ok (s, r')) (hr : r.Begun) : r'.Begun := by
  induction k generalizing n code fst index r with
  | zero => cases hok
  | succ k ih =>
    rw [huffLoop] at hok
    dsimp only at hok
    split at hok
    · cases hok
    · split at hok
      · split at hok
        · cases hok
        · cases hok
          exact getbit_begun hr
      · exact ih hok (getbit_begun hr)

theorem huffDecode_begun {r : BitR} (hok : huffDecode r h = .ok (s, r'))
    (hr : r.Begun) : r'.Begun := huffLoop_begun hok hr

end Decode

end Verkos.Vgzip
