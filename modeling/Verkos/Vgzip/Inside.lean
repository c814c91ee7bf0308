import Verkos.Vgzip.Arrays

/-!
# Inside the arrays

The decoder with its arrays agrees with the decoder that takes its data apart. What has to be
known for it is where the indices come from: a place in `sym` is one of a symbol, because what
`huff_decode` has read is never in front of the words of its length and the places of one length
end with those of all; a match copies from what has been put out, because no distance is 0.
-/

namespace Verkos.Vgzip.Arrays

open Lib.Indexed Lib.Canonical
open List

/-- What is left of the data. -/
def BitP.view (r : BitP) : BitR := ⟨r.d.drop r.pos, r.bitbuf, r.bitcnt⟩

/-- The same result, with the reader seen as what is left. -/
def Seen {α : Type} (p : α × BitP) (q : α × BitR) : Prop := q = (p.1, p.2.view)

section Bits

theorem getbit_agree (r : BitP) : Agree Seen (getbit r) (.ok (Vgzip.getbit r.view)) := by
  rw [getbit, Vgzip.getbit]
  by_cases hcnt : r.bitcnt = 0
  · rw [if_pos hcnt, if_pos (show r.view.bitcnt = 0 from hcnt)]
    by_cases hend : r.d.length ≤ r.pos
    · have hrest : r.view.rest = [] := drop_eq_nil_of_le hend
      rw [if_pos hend, hrest]
      exact .ok rfl
    · have hpos := Nat.not_le.1 hend
      have hrest : r.view.rest = r.d[r.pos] :: r.d.drop (r.pos + 1) := drop_eq_getElem_cons hpos
      rw [if_neg hend, entry_eq hpos, hrest]
      exact .ok rfl
  · rw [if_neg hcnt, if_neg (show ¬ r.view.bitcnt = 0 from hcnt)]
    exact .ok rfl

theorem getbitsFrom_agree (k i : Nat) (v : Int) (r : BitP) :
    Agree Seen (getbitsFrom k i v r) (.ok (Vgzip.getbitsFrom k i v r.view)) := by
  induction k generalizing i v r with
  | zero => exact .ok rfl
  | succ k ih =>
    rw [getbitsFrom, Vgzip.getbitsFrom]
    refine (getbit_agree r).step ?_
    rintro ⟨b, r₁⟩ hb
    rw [hb]
    dsimp only
    split
    · exact .ok rfl
    · exact ih _ _ r₁

theorem getbits_agree (r : BitP) (n : Nat) :
    Agree Seen (getbits r n) (.ok (Vgzip.getbits r.view n)) := getbitsFrom_agree n 0 0 r

end Bits

/-! ## Tables -/

variable {k n v : Nat} {part : List Nat}

variable {count offs cl : List Nat} {off : Nat}

section Build

variable {lens : List Nat}

theorem countLens_agree {i : Nat} (hin : i + k ≤ lens.length) (hlen : count.length = 16) :
    countLens lens i k count = if ((lens.drop i).take k).all (· < 16) then
      .ok (((lens.drop i).take k).foldl (fun count l => count.set l (count.getD l 0 + 1)) count)
    else .error .fault := by
  induction k generalizing i count with
  | zero => rfl
  | succ k ih =>
    have hi : i < lens.length := by omega
    rw [countLens, entry_eq hi, drop_eq_getElem_cons hi, take_succ_cons, all_cons,
      foldl_cons]
    simp only [bind, Except.bind]
    by_cases hl : lens[i] < 16
    · rw [entry_getD (hlen.symm ▸ hl) 0]
      dsimp only
      rw [put_eq (hlen.symm ▸ hl)]
      dsimp only
      rw [ih (by omega) (by rw [length_set, hlen]), decide_eq_true hl, Bool.true_and]
    · rw [entry_beyond (by omega), decide_eq_false hl]
      rfl

theorem offsets_agree (hcount : count.length = 16) (hoffs : offs.length = 16)
    {i : Nat} (hk : i + k ≤ 15) : offsets count i k offs = .ok ((List.range' i k).foldl
      (fun offs i => offs.set (i + 1) (offs.getD i 0 + count.getD i 0)) offs) := by
  induction k generalizing i offs with
  | zero => rfl
  | succ k ih =>
    rw [offsets, entry_getD (show i < offs.length by omega) 0,
      entry_getD (show i < count.length by omega) 0, range'_succ, foldl_cons]
    simp only [bind, Except.bind]
    rw [put_eq (show i + 1 < offs.length by omega)]
    dsimp only
    exact ih (by rw [length_set, hoffs]) (by omega)

/-- Every symbol of the list has its place in `sym`. -/
theorem fillSym_agree {xs : List Nat} (hall : ∀ l ∈ xs, l < 16)
    (hroom : xs.length ≤ 288) (hxs : ∀ i < xs.length, lens[off + i]? = xs[i]?) {i : Nat}
    {sym : List Nat} (h : Filling xs i offs sym) (hk : i + k = xs.length) :
    fillSym lens off i k offs sym = .ok (Vgzip.fillSym (xs.drop i) i offs sym) := by
  induction k generalizing i offs sym with
  | zero =>
    rw [drop_eq_nil_of_le (by omega)]
    rfl
  | succ k ih =>
    have hi : i < xs.length := by omega
    have hval : lens[off + i]? = some (len xs i) := by
      rw [hxs i hi, len_eq_getElem hi, getElem?_eq_getElem hi]
    have hlt := len_lt hall i
    rw [fillSym, entry_some hval, drop_eq_getElem_cons hi, ← len_eq_getElem hi, Vgzip.fillSym]
    simp only [bind, Except.bind]
    by_cases hzero : len xs i = 0
    · rw [if_pos hzero, if_pos hzero]
      exact ih (h.skip hi hzero) (by omega)
    · have hplace := place_lt hzero
      rw [if_neg hzero, if_neg hzero, entry_getD (by rwa [h.offs_length]) 0,
        h.offs_place hlt hzero]
      dsimp only
      rw [put_eq (by rwa [h.offs_length])]
      dsimp only
      rw [put_eq (by rw [h.sym_length]; omega)]
      exact ih (h.next hroom hi hlt hzero) (by omega)

theorem huffBuild_agree (hin : off + n ≤ lens.length) (hn : n ≤ 288) :
    huffBuild lens off n = Vgzip.huffBuild ((lens.drop off).take n) := by
  have hlen : ((lens.drop off).take n).length = n := by
    rw [length_take, length_drop]
    omega
  rw [huffBuild, countLens_agree hin length_replicate, Vgzip.huffBuild]
  split
  · rename_i hguard
    have hall : ∀ l ∈ (lens.drop off).take n, l < 16 := by simpa using hguard
    have hcount : (((lens.drop off).take n).foldl (fun count l => count.set l (count.getD l 0 + 1))
        (List.replicate 16 0)).length = 16 := (countLens_fold hall length_replicate).1
    have hxs : ∀ i < ((lens.drop off).take n).length,
        lens[off + i]? = ((lens.drop off).take n)[i]? := fun i hi => by
      rw [getElem?_take_of_lt (hlen ▸ hi), getElem?_drop]
    simp only [bind, Except.bind]
    rw [show put Stop.fault _ 0 0 = _ from put_eq (i := 0) (hcount.symm ▸ (by decide : 0 < 16)) 0]
    dsimp only
    rw [offsets_agree (by rw [length_set, hcount]) length_replicate (by decide)]
    dsimp only
    have hfill := fillSym_agree hall (hlen.trans_le hn) hxs (Filling.start hall)
      (show 0 + n = _ by rw [hlen, Nat.zero_add])
    rw [Vgzip.offsets, Vgzip.countLens, drop_zero] at hfill
    rw [hfill]
    rfl
  · rfl

end Build

/-! ## Symbols -/

theorem fillSym_length (lens : List Nat) (i : Nat) (offs sym : List Nat) :
    (Vgzip.fillSym lens i offs sym).length = sym.length := by
  induction lens generalizing i offs sym with
  | nil => rfl
  | cons l lens ih =>
    rw [Vgzip.fillSym]
    split
    · exact ih _ _ _
    · rw [ih, length_set]

/-- A table of lengths that fits the two arrays of a `struct huff`. -/
structure Fits (lens : List Nat) (h : Huff) : Prop where
  table : Table lens h
  room : lens.length ≤ 288
  count : h.count.length = 16
  sym : h.sym.length = 288

theorem huffBuild_fits {lens : List Nat} (hlen : lens.length ≤ 288) {h : Huff}
    (hh : Vgzip.huffBuild lens = .ok h) : Fits lens h := by
  have hguard : lens.all (· < 16) = true := by
    by_contra hno
    rw [Vgzip.huffBuild, if_neg hno] at hh
    cases hh
  have hall : ∀ l ∈ lens, l < 16 := by simpa using hguard
  obtain ⟨h', hh', ht⟩ := huffBuild_table hall hlen
  cases hh.symm.trans hh'
  rw [Vgzip.huffBuild, if_pos hguard] at hh
  cases hh
  refine ⟨ht, hlen, ?_, ?_⟩
  · rw [Vgzip.countLens, length_set]
    exact (countLens_fold hall length_replicate).1
  · exact (fillSym_length _ _ _ _).trans length_replicate

section Decode

variable {lens : List Nat} {h : Huff}

theorem huffLoop_agree (hf : Fits lens h) (hn : n + k = 16) (code fst : Int) (r : BitP) :
    Agree Seen (huffLoop h k n code fst (offset lens n : Nat) r)
      (Vgzip.huffLoop h k n code fst (offset lens n : Nat) r.view) := by
  induction k generalizing n code fst r with
  | zero => exact .error _
  | succ k ih =>
    rw [huffLoop, Vgzip.huffLoop]
    refine (getbit_agree r).step ?_
    rintro ⟨b, r₁⟩ hb
    rw [hb]
    dsimp only
    split
    · exact .error _
    rw [entry_getD (show n < h.count.length by rw [hf.count]; omega) 0, hf.table.built.count]
    simp only [bind, Except.bind]
    have hnext : ((offset lens n : Nat) : Int) + (Lib.Canonical.count lens n : Nat) =
        (offset lens (n + 1) : Nat) := by
      rw [offset]
      push_cast
      rfl
    split
    · rename_i hlt
      by_cases hneg : ((offset lens n : Nat) : Int) + (code + b - fst) < 0
      · rw [if_pos hneg, entry_neg hneg]
        exact .error _
      · rw [if_neg hneg]
        have hend : offset lens (n + 1) ≤ lens.length := by
          rw [offset_eq_countP]
          exact countP_le_length
        have hroom := hf.room
        obtain ⟨i, hi⟩ := Int.eq_ofNat_of_zero_le (Int.not_lt.1 hneg)
        have hlt' : i < h.sym.length := by
          rw [hf.sym]
          omega
        rw [hi, entry_getD hlt' 0]
        exact .ok rfl
    · rw [hnext]
      exact ih (by omega) _ _ r₁

theorem huffDecode_agree (hf : Fits lens h) (r : BitP) :
    Agree Seen (huffDecode r h) (Vgzip.huffDecode r.view h) := huffLoop_agree hf rfl 0 0 r

end Decode

/-! ## Blocks -/

theorem copyBack_agree {dist : Nat} (hpos : 0 < dist) (n : Nat) {out : List UInt8}
    (hback : dist ≤ out.length) : copyBack dist n out = .ok (Vgzip.copyBack dist n out) := by
  induction n generalizing out with
  | zero => rfl
  | succ n ih =>
    have hindex : (out.length : Int) - dist = ((out.length - dist : Nat) : Int) := by omega
    rw [copyBack, hindex, entry_getD (show out.length - dist < out.length by omega) 0]
    exact ih (by rw [length_append]; omega)

theorem extra_nonneg (r : BitR) :
    -1 ≤ (Vgzip.getbits r n).1 ∧ (n = 0 → 0 ≤ (Vgzip.getbits r n).1) := by
  obtain ⟨v, r₁, hr1, -, -⟩ | ⟨hshort, r₁, hr1, -⟩ := getbits_cases r n
  · rw [hr1]
    dsimp only
    omega
  · rw [hr1]
    dsimp only
    omega

theorem dist_rows : ∀ d < 30, 0 < distBase.getD d 0 ∧ (distExtra.getD d 0 = 0 ∨ 1 < distBase.getD d 0) := by
  decide

/-- The same, where the reader comes first. -/
def SeenOut (p : BitP × List UInt8) (q : BitR × List UInt8) : Prop := q = (p.1.view, p.2)

theorem inflateBlock_agree {lit dist : List Nat} {lh dh : Huff} (hl : Fits lit lh)
    (hd : Fits dist dh) (fuel : Nat) (r : BitP) (out : List UInt8) :
    Agree SeenOut (inflateBlock lh dh fuel r out) (Vgzip.inflateBlock lh dh fuel r.view out) := by
  induction fuel generalizing r out with
  | zero => exact .error _
  | succ fuel ih =>
    rw [inflateBlock, Vgzip.inflateBlock]
    refine (huffDecode_agree hl r).bind ?_
    rintro ⟨sym, r₁⟩ q hq
    rw [hq]
    dsimp only
    split
    · exact .ok rfl
    split
    · exact ih _ _
    split
    · exact .error _
    rename_i hhigh
    rw [entry_getD (show sym - 257 < lenExtra.length from Nat.not_le.1 hhigh) 0,
      entry_getD (show sym - 257 < lenBase.length from Nat.not_le.1 hhigh) 0, ok_bind]
    refine (getbits_agree r₁ (lenExtra.getD (sym - 257) 0)).step ?_
    rintro ⟨extra, r2⟩ hq
    rw [hq]
    refine (huffDecode_agree hd r2).bind ?_
    rintro ⟨dsym, r3⟩ q hq
    rw [hq]
    dsimp only
    split
    · exact .error _
    rename_i hdhigh
    rw [entry_getD (show dsym < distExtra.length from Nat.not_le.1 hdhigh) 0,
      entry_getD (show dsym < distBase.length from Nat.not_le.1 hdhigh) 0, ok_bind]
    have hextra := extra_nonneg r3.view (n := distExtra.getD dsym 0)
    have hrow := dist_rows dsym (Nat.not_le.1 hdhigh)
    refine (getbits_agree r3 (distExtra.getD dsym 0)).step ?_
    rintro ⟨dextra, r4⟩ hq
    rw [hq] at hextra ⊢
    simp only [bind, Except.bind]
    split
    · exact .error _
    rename_i hback
    dsimp only at hextra
    rw [copyBack_agree (by omega) _ (Nat.not_lt.1 hback)]
    exact ih _ _

/-! ## Headers -/

theorem clOrder_lt : ∀ o ∈ clOrder, o < 19 := by decide

theorem readCl_agree {i : Nat} (hk : i + k ≤ 19) (r : BitP) (hlen : cl.length = 19) :
    Agree Seen (readCl i k r cl) (.ok (Vgzip.readCl ((clOrder.drop i).take k) r.view cl)) := by
  induction k generalizing i r cl with
  | zero => exact .ok rfl
  | succ k ih =>
    have hi : i < clOrder.length := Nat.lt_of_lt_of_le (by omega : i < 19) (Nat.le_refl 19)
    have ho : clOrder[i] < cl.length := by
      rw [hlen]
      exact clOrder_lt _ (getElem_mem hi)
    rw [readCl, entry_eq hi, ok_bind, drop_eq_getElem_cons hi, take_succ_cons,
      Vgzip.readCl]
    refine (getbits_agree r 3).step ?_
    rintro ⟨v, r₁⟩ hq
    rw [hq]
    dsimp only
    rw [put_eq ho, ok_bind]
    exact ih (by omega) r₁ (by rw [length_set, hlen])

/-- The array and the place in it stand for the lengths so far. -/
structure Held (total : Nat) (p : List Nat × Nat) (lens : List Nat) : Prop where
  length : p.1.length = 318
  room : p.2 ≤ 318
  le : p.2 ≤ total
  eq : lens = p.1.take p.2

section Lengths

variable {total i : Nat} {lens : List Nat}

theorem Held.length_eq {p : List Nat × Nat} (h : Held total p lens) : lens.length = p.2 := by
  rw [h.eq, length_take_of_le (h.length ▸ h.room)]

theorem take_set_succ (h : i < lens.length) (v : Nat) :
    (lens.set i v).take (i + 1) = lens.take i ++ [v] := by
  have hi : i < (lens.set i v).length := by rwa [length_set]
  rw [← take_append_getElem hi, getElem_set_self, take_set_of_le (Nat.le_refl i)]

theorem fillRun_agree {rep : Nat} (h : Held total (lens, i) part) :
    Agree (Held total) (fillRun total v rep lens i) (addLens total part rep v) := by
  induction rep generalizing lens i part with
  | zero =>
    have hlen := h.length_eq
    have hroom := h.room
    rw [fillRun, addLens, Int.toNat_natCast, Nat.zero_min, replicate_zero, append_nil,
      if_neg (by dsimp only at hlen hroom; omega)]
    exact .ok h
  | succ rep ih =>
    have hlen := h.length_eq
    dsimp only at hlen
    rw [fillRun]
    by_cases hmore : i < total
    · have hmin : min (rep + 1) (total - i) = min rep (total - (i + 1)) + 1 := by omega
      rw [if_pos hmore, addLens, Int.toNat_natCast, hlen, hmin, replicate_succ]
      by_cases hin : i < 318
      · have hi : i < lens.length := by
          rw [h.length]
          exact hin
        rw [put_eq hi, ok_bind, ← singleton_append, ← append_assoc]
        have hnext : Held total (lens.set i v, i + 1) (part ++ [v]) :=
          ⟨by rw [length_set]; exact h.length, hin, hmore, by rw [take_set_succ hi, h.eq]⟩
        have hrest := ih hnext
        rw [addLens, Int.toNat_natCast, hnext.length_eq] at hrest
        exact hrest
      · have hfull : 318 ≤ i := Nat.not_lt.1 hin
        rw [put_beyond (by rw [h.length]; exact hfull), if_pos]
        · exact .error _
        · rw [length_append, length_cons]
          omega
    · have hmin : min (rep + 1) (total - i) = 0 := by omega
      have hroom := h.room
      rw [if_neg hmore, addLens, Int.toNat_natCast, hlen, hmin, replicate_zero, append_nil,
        if_neg (by dsimp only at hroom; omega)]
      exact .ok h

theorem put_agree (h : Held total (lens, i) part) (hmore : i < total) :
    Agree (fun l => Held total (l, i + 1)) (put .fault lens i v) (addLens total part 1 v) := by
  have hlen : part.length = i := h.length_eq
  have hmin : min (1 : Int).toNat (total - i) = 1 := by omega
  have hone : (part ++ [v]).length = i + 1 := by rw [length_append, hlen, length_singleton]
  rw [addLens, hlen, hmin, replicate_one, hone]
  by_cases hin : i < 318
  · have hi : i < lens.length := by
      rw [h.length]
      exact hin
    rw [put_eq hi, if_neg (by omega)]
    exact .ok ⟨by rw [length_set]; exact h.length, hin, hmore, by rw [take_set_succ hi, h.eq]⟩
  · rw [put_beyond (by rw [h.length]; exact Nat.not_lt.1 hin), if_pos (by omega)]
    exact .error _

/-- The entry before the place is the last of the lengths so far. -/
theorem Held.last (h : Held total (lens, i) part) (hpos : i ≠ 0) :
    ∃ prev, part.getLast? = some prev ∧ entry Stop.fault lens ((i : Int) - 1) = .ok prev := by
  have hroom : i ≤ 318 := h.room
  have hi : i - 1 < lens.length := by
    rw [h.length]
    omega
  have hindex : (i : Int) - 1 = ((i - 1 : Nat) : Int) := by omega
  refine ⟨lens[i - 1], ?_, by rw [hindex, entry_eq hi]⟩
  rw [h.eq, getLast?_take, if_neg hpos, getElem?_eq_getElem hi]
  rfl

theorem fillRun_agree_int {rep : Int} (hrep : 0 ≤ rep) (h : Held total (lens, i) part) :
    Agree (Held total) (fillRun total v rep.toNat lens i) (addLens total part rep v) := by
  have hagree : Agree (Held total) (fillRun total v rep.toNat lens i)
      (addLens total part (rep.toNat : Nat) v) := fillRun_agree h
  rwa [Int.toNat_of_nonneg hrep] at hagree

/-- All the lengths, in the array or by themselves. -/
structure Filled (total : Nat) (p : (List Nat × Nat) × BitP) (q : List Nat × BitR) : Prop where
  held : Held total p.1 q.1
  all : p.1.2 = total
  view : q.2 = p.2.view

theorem readLens_agree {ch : Huff} (hf : Fits cl ch) (fuel : Nat) (r : BitP)
    (h : Held total (lens, i) part) : Agree (Filled total) (readLens ch total fuel r lens i)
      (Vgzip.readLens ch total fuel r.view part) := by
  induction fuel generalizing r lens i part with
  | zero => exact .error _
  | succ fuel ih =>
    have hlen : part.length = i := h.length_eq
    rw [readLens, Vgzip.readLens, hlen]
    by_cases hend : total ≤ i
    · rw [if_pos hend, if_pos hend]
      exact .ok ⟨h, Nat.le_antisymm h.le hend, rfl⟩
    rw [if_neg hend, if_neg hend]
    refine (huffDecode_agree hf r).bind ?_
    rintro ⟨s, r₁⟩ q hq
    rw [hq]
    dsimp only
    split
    · refine (put_agree h (Nat.not_le.1 hend)).bind ?_
      exact fun lens' part' h' => ih r₁ h'
    split
    · have hv := (extra_nonneg r₁.view (n := 2)).1
      refine (getbits_agree r₁ 2).step ?_
      rintro ⟨v, r2⟩ hq
      rw [hq] at hv ⊢
      dsimp only
      by_cases hzero : i = 0
      · have hnil : part = [] := length_eq_zero_iff.1 (hlen.trans hzero)
        rw [if_pos hzero, hnil]
        exact .error _
      · obtain ⟨prev, hlast, hprev⟩ := h.last hzero
        rw [if_neg hzero, hlast, hprev, ok_bind]
        refine (fillRun_agree_int (by dsimp only at hv; omega) h).bind ?_
        rintro ⟨lens', i'⟩ part' h'
        exact ih r2 h'
    split
    · have hv := (extra_nonneg r₁.view (n := 3)).1
      refine (getbits_agree r₁ 3).step ?_
      rintro ⟨v, r2⟩ hq
      rw [hq] at hv ⊢
      refine (fillRun_agree_int (by dsimp only at hv; omega) h).bind ?_
      rintro ⟨lens', i'⟩ part' h'
      exact ih r2 h'
    · have hv := (extra_nonneg r₁.view (n := 7)).1
      refine (getbits_agree r₁ 7).step ?_
      rintro ⟨v, r2⟩ hq
      rw [hq] at hv ⊢
      refine (fillRun_agree_int (by dsimp only at hv; omega) h).bind ?_
      rintro ⟨lens', i'⟩ part' h'
      exact ih r2 h'

end Lengths

/-! ## Blocks and streams -/

theorem getbits_lt (r : BitR) (n : Nat) : (Vgzip.getbits r n).1 < ((2 ^ n : Nat) : Int) := by
  obtain ⟨v, r₁, hr1, hv, -⟩ | ⟨hshort, r₁, hr1, -⟩ := getbits_cases r n
  · rw [hr1]
    exact Int.ofNat_lt.2 hv
  · rw [hr1]
    exact Int.lt_of_lt_of_le (by decide : (-1 : Int) < 0) (Int.natCast_nonneg _)

theorem huffBuild_whole {lens : List Nat} (hlen : lens.length = n) (hn : n ≤ 288) :
    huffBuild lens 0 n = Vgzip.huffBuild lens := by
  rw [huffBuild_agree (by omega) hn, drop_zero, ← hlen, take_length]

/-- What is done with a table that is made. -/
theorem huffBuild_bind {α β : Type} {R : α → β → Prop} {lens : List Nat} (hlen : lens.length ≤ 288)
    {f : Huff → Except Stop α} {g : Huff → Except Stop β}
    (hf : ∀ h, Fits lens h → Agree R (f h) (g h)) :
    Agree R (Vgzip.huffBuild lens >>= f) (Vgzip.huffBuild lens >>= g) := by
  cases hh : Vgzip.huffBuild lens with
  | error e => exact .error e
  | ok h => exact hf h (huffBuild_fits hlen hh)

theorem fixed_lengths : fixedLit.length = 288 ∧ fixedDist.length = 30 := by
  refine ⟨?_, length_replicate⟩
  simp only [fixedLit, length_append, length_replicate]

theorem inflateOne_agree (fuel : Nat) (type : Int) (r : BitP) (out : List UInt8) :
    Agree SeenOut (inflateOne fuel type r out) (Vgzip.inflateOne fuel type r.view out) := by
  rw [inflateOne, Vgzip.inflateOne]
  split
  · by_cases hshort : r.d.length < r.pos + 4
    · rw [if_pos hshort]
      split
      · rename_i a b c d rest hrest
        have hlen := congrArg List.length hrest
        rw [show r.view.rest = r.d.drop r.pos from rfl, length_drop] at hlen
        simp only [length_cons] at hlen
        omega
      · exact .error _
    · have h0 : r.pos < r.d.length := by omega
      have h1 : r.pos + 1 < r.d.length := by omega
      have h2 : r.pos + 1 + 1 < r.d.length := by omega
      have h3 : r.pos + 1 + 1 + 1 < r.d.length := by omega
      have hrest : r.view.rest = r.d[r.pos] :: r.d[r.pos + 1] :: r.d[r.pos + 1 + 1] ::
          r.d[r.pos + 1 + 1 + 1] :: r.d.drop (r.pos + 4) := by
        rw [show r.view.rest = r.d.drop r.pos from rfl, drop_eq_getElem_cons h0,
          drop_eq_getElem_cons h1, drop_eq_getElem_cons h2, drop_eq_getElem_cons h3]
      rw [if_neg hshort, entry_eq h0, ok_bind, entry_eq h1, ok_bind, hrest]
      dsimp only
      rw [length_drop]
      split
      · rw [if_pos (by omega)]
        exact .error _
      · rename_i hroom
        rw [if_neg (by omega), slice_eq (Nat.not_lt.1 hroom), ok_bind, drop_drop]
        exact .ok rfl
  split
  · obtain ⟨hlit, hdist⟩ := fixed_lengths
    rw [huffBuild_whole hlit (Nat.le_refl _), huffBuild_whole hdist (by decide)]
    refine huffBuild_bind hlit.le fun lh hl => ?_
    refine huffBuild_bind (by rw [hdist]; decide) fun dh hd => ?_
    exact inflateBlock_agree hl hd fuel r out
  split
  · have hlit := (extra_nonneg r.view (n := 5)).1
    have hlit' := getbits_lt r.view 5
    refine (getbits_agree r 5).step ?_
    rintro ⟨v1, r₁⟩ hq
    rw [hq] at hlit hlit' ⊢
    dsimp only at hlit hlit' ⊢
    have hdist := (extra_nonneg r₁.view (n := 5)).1
    have hdist' := getbits_lt r₁.view 5
    refine (getbits_agree r₁ 5).step ?_
    rintro ⟨v2, r2⟩ hq
    rw [hq] at hdist hdist' ⊢
    dsimp only at hdist hdist' ⊢
    have hclen' := getbits_lt r2.view 4
    refine (getbits_agree r2 4).step ?_
    rintro ⟨v3, r3⟩ hq
    rw [hq] at hclen' ⊢
    dsimp only at hclen' ⊢
    have hcl := readCl_length (clOrder.take (v3 + 4).toNat) r3.view (List.replicate 19 0)
    refine (readCl_agree (i := 0) (k := (v3 + 4).toNat) (by omega) r3 length_replicate).step ?_
    rintro ⟨cl, r4⟩ hq
    rw [drop_zero] at hq
    rw [hq] at hcl ⊢
    dsimp only at hcl ⊢
    rw [length_replicate] at hcl
    rw [huffBuild_whole hcl (by decide)]
    refine huffBuild_bind (by rw [hcl]; decide) fun ch hch => ?_
    have hstart : Held ((v1 + 257).toNat + (v2 + 1).toNat) (List.replicate 318 0, 0) [] :=
      ⟨length_replicate, Nat.zero_le _, Nat.zero_le _, rfl⟩
    refine (readLens_agree hch 321 r4 hstart).bind ?_
    rintro ⟨⟨lens, i⟩, r5⟩ ⟨part, r5'⟩ ⟨held, hall, rfl⟩
    have hlen : lens.length = 318 := held.length
    have hroom : i ≤ 318 := held.room
    have hpart : part = lens.take i := held.eq
    dsimp only at hall ⊢
    subst hall
    have hlow : lens.take (v1 + 257).toNat = part.take (v1 + 257).toNat := by
      rw [hpart, take_take, Nat.min_eq_left (Nat.le_add_right _ _)]
    have hhigh : (lens.drop (v1 + 257).toNat).take (v2 + 1).toNat = part.drop (v1 + 257).toNat := by
      rw [hpart, drop_take, Nat.add_sub_cancel_left]
    rw [huffBuild_agree (by omega) (by omega), huffBuild_agree (by omega) (by omega),
      drop_zero, hlow, hhigh]
    refine huffBuild_bind (by rw [length_take]; omega) fun lh hl => ?_
    have hcount : part.length = (v1 + 257).toNat + (v2 + 1).toNat := held.length_eq
    refine huffBuild_bind (by rw [length_drop]; omega) fun dh hd => ?_
    exact inflateBlock_agree hl hd fuel r5 out
  · exact .error _

theorem inflateLoop_agree (fuel turns : Nat) (r : BitP) (out : List UInt8) :
    Agree (· = ·) (inflateLoop fuel turns r out) (Vgzip.inflateLoop fuel turns r.view out) := by
  induction turns generalizing r out with
  | zero => exact .error _
  | succ turns ih =>
    rw [inflateLoop, Vgzip.inflateLoop]
    refine (getbit_agree r).step ?_
    rintro ⟨final, r₁⟩ hq
    rw [hq]
    dsimp only
    split
    · exact .error _
    refine (getbits_agree r₁ 2).step ?_
    rintro ⟨type, r2⟩ hq
    rw [hq]
    dsimp only
    split
    · exact .error _
    refine (inflateOne_agree fuel type r2 out).bind ?_
    rintro ⟨r3, out'⟩ q hq
    rw [hq]
    dsimp only
    split
    · exact ih r3 out'
    · exact .ok rfl

theorem inflate_eq (data : List UInt8) : inflate data = Vgzip.inflate data :=
  (inflateLoop_agree _ _ ⟨data, 0, 0, 0⟩ []).eq

/-! ## The container -/

section Container

variable {data : List UInt8}

theorem skipString_eq {p : Nat} (hk : k = data.length - p) :
    skipString data k p = .ok (Vgzip.skipString data p) := by
  induction k generalizing p with
  | zero =>
    rw [skipString, Vgzip.skipString, drop_eq_nil_of_le (by omega)]
    rfl
  | succ k ih =>
    have hp : p < data.length := by omega
    rw [skipString, entry_eq hp, ok_bind, Vgzip.skipString, drop_eq_getElem_cons hp,
      takeWhile_cons]
    by_cases hb : data[p] = 0
    · rw [if_pos hb, if_neg (by simpa using hb)]
      rfl
    · rw [if_neg hb, if_pos (by simpa using hb), ih (by omega), Vgzip.skipString, length_cons]
      congr 1
      omega

/-- Where the fields end that the flags announce. -/
def fieldsEnd (data : List UInt8) : Nat :=
  let p := 10
  let p := if data.getD 3 0 &&& 4 ≠ 0 then p + 2 + (byteAt data p + byteAt data (p + 1) * 256) else p
  let p := if data.getD 3 0 &&& 8 ≠ 0 then Vgzip.skipString data p else p
  let p := if data.getD 3 0 &&& 16 ≠ 0 then Vgzip.skipString data p else p
  if data.getD 3 0 &&& 2 ≠ 0 then p + 2 else p

theorem skipString_if (c : Prop) [Decidable c] (p : Nat) :
    (if c then skipString data (data.length - p) p else pure p) =
      (.ok (if c then Vgzip.skipString data p else p) : Except Stop Nat) := by
  split
  · exact skipString_eq rfl
  · rfl

theorem skipExtra_if (hlen : 12 ≤ data.length) (c : Prop) [Decidable c] :
    (if c then skipExtra data 10 else pure 10) =
      (.ok (if c then 10 + 2 + (byteAt data 10 + byteAt data (10 + 1) * 256) else 10) :
        Except Stop Nat) := by
  have h10 : 10 < data.length := by omega
  have h11 : 10 + 1 < data.length := by omega
  rw [skipExtra, if_neg (Nat.not_lt.2 hlen), entry_getD h10 0, ok_bind, entry_getD h11 0]
  split <;> rfl

theorem skipFields_eq (hlen : 12 ≤ data.length) :
    skipFields data (data.getD 3 0) = .ok (fieldsEnd data) := by
  rw [skipFields, skipExtra_if hlen, ok_bind, skipString_if, ok_bind, skipString_if, ok_bind]
  rfl

/-- The first three bytes are those of a gzip file. -/
def Magic (data : List UInt8) : Prop :=
  18 ≤ data.length ∧ data.getD 0 0 = 0x1f ∧ data.getD 1 0 = 0x8b ∧ data.getD 2 0 = 8

instance (data : List UInt8) : Decidable (Magic data) := inferInstanceAs (Decidable (_ ∧ _))

/-- `gz_decompress` in terms of where the compressed data begin. -/
theorem gzDecompress_fields (data : List UInt8) : Vgzip.gzDecompress data =
    if Magic data then
      if data.length ≤ fieldsEnd data then .error .bad
      else Vgzip.inflate (data.drop (fieldsEnd data)) >>= fun out =>
        if le32 (crc32 out).toNat = (data.drop (data.length - 8)).take 4 then .ok out
        else .error .bad
    else .error .bad := by
  rw [Vgzip.gzDecompress]
  by_cases hm : Magic data
  · have hlen : 18 ≤ data.length := hm.1
    have hno : ¬ (data.length < 18 ∨ data.getD 0 0 ≠ 0x1f ∨ data.getD 1 0 ≠ 0x8b ∨
        data.getD 2 0 ≠ 8) := by
      rintro (h | h | h | h)
      · omega
      · exact h hm.2.1
      · exact h hm.2.2.1
      · exact h hm.2.2.2
    rw [if_pos hm, if_neg hno]
    dsimp only
    rw [if_neg (by omega)]
    rfl
  · rw [if_neg hm, if_pos]
    by_contra hno
    push Not at hno
    exact hm ⟨hno.1, hno.2.1, hno.2.2.1, hno.2.2.2⟩

theorem gzDecompress_eq (data : List UInt8) : gzDecompress data = Vgzip.gzDecompress data := by
  rw [gzDecompress_fields, gzDecompress]
  by_cases hlen : data.length < 18
  · rw [if_pos hlen, if_neg fun hm => absurd hm.1 (Nat.not_le.2 hlen)]
  have h0 : entry Stop.fault data 0 = .ok (data.getD 0 0) := entry_getD (i := 0) (by omega) 0
  have h1 : entry Stop.fault data 1 = .ok (data.getD 1 0) := entry_getD (i := 1) (by omega) 0
  have h2 : entry Stop.fault data 2 = .ok (data.getD 2 0) := entry_getD (i := 2) (by omega) 0
  have h3 : entry Stop.fault data 3 = .ok (data.getD 3 0) := entry_getD (i := 3) (by omega) 0
  rw [if_neg hlen, h0, ok_bind, h1, h2, h3]
  by_cases e0 : data.getD 0 0 = 0x1f
  · rw [if_neg (not_not.2 e0), ok_bind]
    by_cases e1 : data.getD 1 0 = 0x8b
    · rw [if_neg (not_not.2 e1), ok_bind]
      by_cases e2 : data.getD 2 0 = 8
      · have hm : Magic data := ⟨Nat.not_lt.1 hlen, e0, e1, e2⟩
        have hwant : data.length - 8 + 4 ≤ data.length := by omega
        rw [if_neg (not_not.2 e2), ok_bind, skipFields_eq (by omega), ok_bind, inflate_eq,
          if_pos hm, slice_eq hwant]
        rfl
      · rw [if_pos e2, if_neg fun hm => e2 hm.2.2.2]
        rfl
    · rw [if_pos e1, if_neg fun hm => e1 hm.2.2.1]
      rfl
  · rw [if_pos e0, if_neg fun hm => e0 hm.2.1]
    rfl

end Container

end Verkos.Vgzip.Arrays
