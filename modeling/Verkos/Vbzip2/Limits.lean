import Mathlib.Data.List.Perm.Basic
import Mathlib.Data.List.SplitBy
import Verkos.Lib.Canonical
import Verkos.Vbzip2.Encode

/-!
# What a block may hold

A block is cut from the input before its runs are encoded, and a run of four bytes becomes five: the
block holds what the format allows exactly when its runs say so. Code lengths come from a Huffman
tree and are cut at 17: they leave room for the words exactly when there was nothing to cut. All the
other limits hold of every block.
-/

namespace Verkos.Vbzip2

open Lib Lib.Bits Lib.Kraft
open List

/-! ## Runs -/

/-- How many bytes a run of `r` bytes is encoded in: 259 of them in five, four and a count. -/
def encodedRun (r : Nat) : Nat := 5 * (r / 259) + if r % 259 < 4 then r % 259 else 5

/-- The lengths of the runs of equal bytes. -/
def runs (raw : List UInt8) : List Nat := (raw.splitBy (· == ·)).map List.length

/-- How many bytes a block takes up when its runs are encoded. -/
def encodedLength (raw : List UInt8) : Nat := ((runs raw).map encodedRun).sum

section Runs

variable {b : UInt8} {rest l : List UInt8}

theorem more_replicate (h : rest.head? ≠ some b) (max k : Nat) :
    more b max (List.replicate k b ++ rest) = min max k := by
  induction max generalizing k with
  | zero => rw [more, Nat.zero_min]
  | succ max ih =>
    cases k with
    | zero =>
      rw [replicate_zero, nil_append, Nat.min_zero]
      cases rest with
      | nil => rw [more]; exact Nat.succ_ne_zero max
      | cons c rest => rw [more, if_neg fun hc => h (by rw [hc, head?_cons])]
    | succ k =>
      rw [replicate_succ, cons_append, more, if_pos rfl, ih, Nat.succ_min_succ]

theorem rle1From_eq (rl : Nat) (h : l.head? ≠ some b) : rle1From rl (some b) l = rle1 l := by
  cases l with
  | nil => rw [rle1, rle1From, rle1From]
  | cons c l =>
    have hc : ¬ some b = some c := fun heq => h (by rw [heq, head?_cons])
    rw [rle1, rle1From, if_neg hc, rle1From, if_neg (by simp)]

theorem encodedRun_add (r : Nat) : encodedRun (r + 4) = 5 + encodedRun (r - min 255 r) := by
  unfold encodedRun
  rcases Nat.lt_or_ge r 255 with hr | hr
  · rw [Nat.min_eq_right hr.le, Nat.sub_self, Nat.div_eq_of_lt (by omega), Nat.mod_eq_of_lt (by omega),
      if_neg (by omega)]
    rfl
  · obtain ⟨k, rfl⟩ := Nat.exists_eq_add_of_le hr
    have hk : 255 + k + 4 = k + 259 := by omega
    rw [Nat.min_eq_left hr, Nat.add_sub_cancel_left, hk, Nat.add_div_right k (by decide),
      Nat.add_mod_right]
    omega

theorem length_rle1_replicate (h : rest.head? ≠ some b) (r : Nat) :
    (rle1 (List.replicate r b ++ rest)).length = encodedRun r + (rle1 rest).length := by
  induction r using Nat.strong_induction_on with
  | _ r ih =>
    have hfirst : ∀ l, rle1 (b :: l) = b :: rle1From 1 (some b) l := fun l => by
      rw [rle1, rle1From, if_neg (Option.some_ne_none b).symm]
    have hnext : ∀ rl l, rl + 1 ≠ 4 →
        rle1From rl (some b) (b :: l) = b :: rle1From (rl + 1) (some b) l := fun rl l hrl => by
      rw [rle1From, if_pos rfl, if_neg hrl]
    rcases r with _ | _ | _ | _ | r
    · simp [encodedRun]
    · change (rle1 (List.replicate 1 b ++ rest)).length = encodedRun 1 + _
      rw [replicate_one, singleton_append, hfirst, rle1From_eq 1 h, length_cons,
        Nat.add_comm]
      rfl
    · simp only [List.replicate, cons_append, nil_append]
      rw [hfirst, hnext 1 _ (by decide), rle1From_eq 2 h, length_cons, length_cons]
      exact Nat.add_comm _ 2
    · simp only [List.replicate, cons_append, nil_append]
      rw [hfirst, hnext 1 _ (by decide), hnext 2 _ (by decide), rle1From_eq 3 h, length_cons,
        length_cons, length_cons]
      exact Nat.add_comm _ 3
    · have hdrop : (List.replicate r b ++ rest).drop (min 255 r) =
          List.replicate (r - min 255 r) b ++ rest := by
        rw [drop_append_of_le_length (by rw [length_replicate]; exact Nat.min_le_right _ _),
          drop_replicate]
      have hrun : rle1From 3 (some b) (b :: (List.replicate r b ++ rest)) =
          b :: UInt8.ofNat (min 255 r) :: rle1 (List.replicate (r - min 255 r) b ++ rest) := by
        rw [rle1From, if_pos rfl, if_pos rfl, more_replicate h]
        exact congrArg (b :: _ :: rle1From 0 none ·) hdrop
      simp only [replicate_succ, cons_append]
      rw [hfirst, hnext 1 _ (by decide), hnext 2 _ (by decide), hrun, encodedRun_add]
      simp only [length_cons, ih _ (show r - min 255 r < r + 4 by omega)]
      omega

theorem eq_replicate_of_mem_splitBy {g : List UInt8} (h : g.IsChain fun x y => (x == y) = true)
    (hb : g.head? = some b) : g = List.replicate g.length b := by
  induction g generalizing b with
  | nil => rfl
  | cons x g ih =>
    obtain rfl : x = b := by simpa using hb
    cases g with
    | nil => rfl
    | cons y g =>
      rw [isChain_cons_cons] at h
      have hy : x = y := by simpa using h.1
      rw [length_cons, replicate_succ, ← ih h.2 (by rw [head?_cons, hy])]

/-- Runs of different bytes are encoded one by one. -/
theorem length_rle1_flatten (gs : List (List UInt8)) (hnil : [] ∉ gs)
    (hrun : ∀ g ∈ gs, g.IsChain fun x y => (x == y) = true)
    (hsep : gs.IsChain fun g g' => ∃ h h', (g.getLast h == g'.head h') = false) :
    (rle1 gs.flatten).length = ((gs.map List.length).map encodedRun).sum := by
  induction gs with
  | nil =>
    rw [flatten_nil, rle1, rle1From]
    rfl
  | cons g gs ih =>
    rw [mem_cons, not_or] at hnil
    obtain ⟨b, tail, rfl⟩ := exists_cons_of_ne_nil (Ne.symm hnil.1)
    have hg := eq_replicate_of_mem_splitBy (hrun _ mem_cons_self) (head?_cons (a := b))
    have hhead : gs.flatten.head? ≠ some b := by
      cases gs with
      | nil => rintro ⟨⟩
      | cons g' gs =>
        obtain ⟨⟨h, h', hne⟩, -⟩ := isChain_cons_cons.1 hsep
        have hlast : (b :: tail).getLast h = b := by
          have hmem := getLast_mem h
          generalize (b :: tail).getLast h = x at hmem ⊢
          rw [hg] at hmem
          exact eq_of_mem_replicate hmem
        intro heq
        rw [flatten_cons, head?_append_of_ne_nil _ h', head?_eq_some_head h'] at heq
        rw [hlast, Option.some.inj heq, beq_self_eq_true] at hne
        exact Bool.noConfusion hne
    have hrest := ih hnil.2 (fun g' hg' => hrun g' (mem_cons_of_mem _ hg')) hsep.tail
    rw [flatten_cons, hg, length_rle1_replicate hhead, hrest, map_cons, map_cons,
      sum_cons, length_replicate]

theorem length_rle1 (raw : List UInt8) : (rle1 raw).length = encodedLength raw := by
  conv_lhs => rw [← flatten_splitBy (· == ·) raw]
  exact length_rle1_flatten _ (nil_notMem_splitBy _ _)
    (fun g hg => isChain_of_mem_splitBy hg) (isChain_getLast_head_splitBy _ _)

end Runs

/-! ## Code lengths -/

/-- The leaves of all the trees. -/
def leavesOf (heap : List (Nat × Kraft.Tree Nat)) : List Nat := heap.flatMap fun p => p.2.leaves

theorem minIdx_lt {heap : List (Nat × Kraft.Tree Nat)} (h : heap ≠ []) : minIdx heap < heap.length := by
  have hfold : ∀ l : List Nat, (∀ i ∈ l, i < heap.length) → ∀ a < heap.length,
      l.foldl (fun a i => if (heap.getD i (0, .leaf 0)).1 < (heap.getD a (0, .leaf 0)).1 then i
        else a) a < heap.length := by
    intro l
    induction l with
    | nil => exact fun _ a ha => ha
    | cons i l ih =>
      intro hl a ha
      refine ih (fun j hj => hl j (mem_cons_of_mem _ hj)) _ ?_
      dsimp only
      split
      · exact hl i mem_cons_self
      · exact ha
  exact hfold _ (fun i hi => mem_range.1 hi) 0 (length_pos_of_ne_nil h)

theorem perm_set_dropLast {α : Type} {l : List α} {i : Nat} (hi : i < l.length) (d : α) :
    l.Perm (l.getD i d :: (l.set i (l.getLastD d)).dropLast) := by
  obtain ⟨init, x, rfl⟩ := (eq_nil_or_concat l).resolve_left fun h => by simp [h] at hi
  rw [concat_eq_append, length_append, length_singleton] at hi
  rw [concat_eq_append, getLastD_concat]
  rcases Nat.lt_or_eq_of_le (Nat.le_of_lt_succ hi) with hlt | rfl
  · rw [set_append_left _ _ hlt, dropLast_concat, getD_append _ _ _ _ hlt,
      getD_eq_getElem _ _ hlt]
    calc (init ++ [x]).Perm (x :: init) := perm_append_singleton x init
      _ |>.Perm (x :: init[i] :: init.eraseIdx i) :=
        (getElem_cons_eraseIdx_perm hlt).symm.cons x
      _ |>.Perm (init[i] :: x :: init.eraseIdx i) := List.Perm.swap _ _ _
      _ |>.Perm (init[i] :: init.set i x) := ((set_perm_cons_eraseIdx hlt x).symm).cons _
  · rw [set_append_right _ _ le_rfl, Nat.sub_self, set_cons_zero, dropLast_concat]
    simp

theorem perm_takeMin {heap : List (Nat × Kraft.Tree Nat)} (h : heap ≠ []) :
    heap.Perm ((takeMin heap).1 :: (takeMin heap).2) :=
  perm_set_dropLast (minIdx_lt h) _

theorem leaves_merge (heap : List (Nat × Kraft.Tree Nat)) (h : heap ≠ []) :
    (merge heap).leaves.Perm (leavesOf heap) := by
  induction heap using merge.induct with
  | case1 heap hlt a b ih =>
    have ha : heap.Perm (a.1 :: a.2) := perm_takeMin h
    have hane : a.2 ≠ [] := ne_nil_of_length_pos (by
      rw [length_takeMin]
      omega)
    have hb : a.2.Perm (b.1 :: b.2) := perm_takeMin hane
    have hall : (leavesOf heap).Perm (leavesOf (a.1 :: b.1 :: b.2)) :=
      (ha.trans (hb.cons a.1)).flatMap_right _
    rw [merge, if_pos hlt]
    refine (ih (by simp)).trans (List.Perm.trans ?_ hall.symm)
    simp only [leavesOf, flatMap_append, flatMap_cons, flatMap_nil, Kraft.Tree.leaves,
      append_nil]
    rw [← append_assoc a.1.2.leaves]
    exact perm_append_comm
  | case2 heap hge =>
    obtain ⟨p, rfl⟩ : ∃ p, heap = [p] :=
      length_eq_one_iff.1 (by
        have := length_pos_of_ne_nil h
        omega)
    rw [merge, if_neg hge]
    simp [leavesOf]

section Lengths

variable {freqs : Nat → Nat} {alpha m : Nat}

variable (freqs) in
theorem leaves_huffman (h : 0 < alpha) : (huffman freqs alpha).leaves.Perm (List.range alpha) := by
  have hne : ((List.range alpha).map fun i =>
      (if freqs i ≠ 0 then freqs i else 1, Kraft.Tree.leaf i)) ≠ [] := by
    rw [Ne, map_eq_nil_iff, range_eq_nil]
    exact h.ne'
  refine (leaves_merge _ hne).trans (List.Perm.of_eq ?_)
  rw [leavesOf, flatMap_map]
  exact flatMap_singleton' _

theorem clamp_pos (hm : 0 < m) (d : Nat) : 0 < clamp m d := by
  unfold clamp
  split_ifs <;> omega

theorem clamp_le (hm : 0 < m) (d : Nat) : clamp m d ≤ m := by
  unfold clamp
  split_ifs <;> omega

theorem clamp_eq_min {d : Nat} (hd : 0 < d) : clamp m d = min d m := by
  unfold clamp
  split_ifs <;> omega

theorem kraft_mkLengths (hm : 0 < m) (h : 1 < alpha) :
    Canonical.kraft m (mkLengths freqs alpha m) = weights m ((huffman freqs alpha).depths 0) := by
  have hleaves := leaves_huffman freqs (Nat.zero_lt_of_lt h)
  rw [Canonical.kraft, mkLengths, map_map]
  generalize huffman freqs alpha = t at hleaves ⊢
  have hkeys : ((t.depths 0).map Prod.fst).Perm (List.range alpha) := by rwa [depths_leaves]
  have hnodup : ((t.depths 0).map Prod.fst).Nodup := hkeys.nodup_iff.2 nodup_range
  have hpos := depth_pos (t := t) (by rwa [hleaves.length_eq, length_range])
  rw [← (hkeys.map _).sum_nat, map_map, weights]
  congr 1
  apply map_congr_left
  intro p hp
  have hmin : 0 < min p.2 m ∧ min p.2 m ≤ m := ⟨Nat.lt_min.2 ⟨hpos p hp, hm⟩, Nat.min_le_right _ _⟩
  have hsub : m - min p.2 m = m - p.2 := by omega
  simp only [Function.comp_apply, lookup_of_mem hnodup hp, Option.getD_some]
  rw [clamp_eq_min (hpos p hp), if_pos hmin, hsub, weight]

end Lengths

/-! ## Codes -/

section Codes

variable {lens : List Nat}

/-- One round of `gen_codes`: the symbols of a length get the numbers from `vc.1` on. -/
theorem codesOf_spec (l : Nat) (vc : Nat × List Nat) (hlen : vc.2.length = lens.length) :
    (codesOf lens l vc).1 = vc.1 + lens.count l ∧ (codesOf lens l vc).2.length = lens.length ∧
      ∀ i < lens.length, (codesOf lens l vc).2.getD i 0 =
        if lens.getD i 0 = l then vc.1 + (lens.take i).count l else vc.2.getD i 0 := by
  have hrun : ∀ k ≤ lens.length, ∀ vc', vc' = (List.range k).foldl
      (fun vc i => if lens.getD i 0 = l then (vc.1 + 1, vc.2.set i vc.1) else vc) vc →
      vc'.1 = vc.1 + (lens.take k).count l ∧ vc'.2.length = lens.length ∧
        ∀ i, vc'.2.getD i 0 = if i < k ∧ lens.getD i 0 = l then vc.1 + (lens.take i).count l
          else vc.2.getD i 0 := by
    intro k
    induction k with
    | zero =>
      rintro - _ rfl
      exact ⟨rfl, hlen, fun i => (if_neg fun h => Nat.not_lt_zero i h.1).symm⟩
    | succ k ih =>
      rintro hk _ rfl
      obtain ⟨hv, hlen', hcodes⟩ := ih (Nat.le_of_succ_le hk) _ rfl
      rw [range_succ, foldl_append, foldl_cons, foldl_nil]
      generalize (List.range k).foldl _ vc = vc' at hv hlen' hcodes ⊢
      have htake : lens.take (k + 1) = lens.take k ++ [lens.getD k 0] := by
        rw [take_succ_eq_append_getElem hk, getD_eq_getElem _ _ hk]
      rw [htake, count_append]
      by_cases hl : lens.getD k 0 = l
      · rw [if_pos hl]
        refine ⟨by rw [hv, hl, count_singleton_self, Nat.add_assoc], by simpa using hlen',
          fun i => ?_⟩
        rcases Nat.lt_trichotomy i k with hi | rfl | hi
        · rw [getD_eq_getElem?_getD, getElem?_set_ne hi.ne', ← getD_eq_getElem?_getD,
            hcodes]
          simp only [hi, Nat.lt_succ_of_lt hi, true_and]
        · rw [getD_eq_getElem?_getD, getElem?_set_self (by omega), Option.getD_some, hv,
            if_pos ⟨Nat.lt_succ_self i, hl⟩]
        · rw [getD_eq_getElem?_getD, getElem?_set_ne hi.ne, ← getD_eq_getElem?_getD,
            hcodes, if_neg fun h => by omega, if_neg fun h => by omega]
      · rw [if_neg hl, count_singleton, if_neg (by simpa using hl)]
        refine ⟨hv, hlen', fun i => ?_⟩
        rw [hcodes]
        by_cases hi : i = k
        · subst hi
          simp only [hl, and_false]
        · have hik : i < k + 1 ↔ i < k := by omega
          simp only [hik]
  obtain ⟨hv, hlen', hcodes⟩ := hrun lens.length le_rfl _ rfl
  rw [take_length] at hv
  refine ⟨hv, hlen', fun i hi => ?_⟩
  rw [codesOf, hcodes]
  simp only [hi, true_and]

theorem foldl_min_le (l : List Nat) (a : Nat) : l.foldl min a ≤ a ∧ ∀ x ∈ l, l.foldl min a ≤ x := by
  induction l generalizing a with
  | nil => exact ⟨le_rfl, fun x hx => absurd hx not_mem_nil⟩
  | cons y l ih =>
    obtain ⟨ha, hl⟩ := ih (min a y)
    refine ⟨ha.trans (Nat.min_le_left _ _), fun x hx => ?_⟩
    rcases mem_cons.1 hx with rfl | hx
    · exact ha.trans (Nat.min_le_right _ _)
    · exact hl x hx

theorem le_foldl_max (l : List Nat) (a : Nat) : a ≤ l.foldl max a ∧ ∀ x ∈ l, x ≤ l.foldl max a := by
  induction l generalizing a with
  | nil => exact ⟨le_rfl, fun x hx => absurd hx not_mem_nil⟩
  | cons y l ih =>
    obtain ⟨ha, hl⟩ := ih (max a y)
    refine ⟨(Nat.le_max_left _ _).trans ha, fun x hx => ?_⟩
    rcases mem_cons.1 hx with rfl | hx
    · exact (Nat.le_max_right _ _).trans ha
    · exact hl x hx

theorem count_eq (hpos : ∀ x ∈ lens, 0 < x) (l : Nat) : Canonical.count lens l = lens.count l := by
  unfold Canonical.count
  split_ifs with hl
  · rw [hl]
    exact (count_eq_zero.2 fun h => Nat.lt_irrefl 0 (hpos 0 h)).symm
  · rfl

theorem first_eq_zero {mn : Nat} (h : ∀ x ∈ lens, mn ≤ x) : Canonical.first lens mn = 0 := by
  have hbelow : ∀ l ≤ mn, Canonical.first lens l = 0 := by
    intro l
    induction l with
    | zero => exact fun _ => rfl
    | succ l ih =>
      intro hl
      have hnone : Canonical.count lens l = 0 := by
        unfold Canonical.count
        split_ifs
        · rfl
        · exact count_eq_zero.2 fun hmem => Nat.not_lt.2 (h l hmem) hl
      rw [Canonical.first, ih (Nat.le_of_succ_le hl), hnone]
  exact hbelow mn le_rfl

theorem getD_genCodes (hpos : ∀ x ∈ lens, 0 < x) {i : Nat} (hi : i < lens.length) :
    (genCodes lens).getD i 0 = Canonical.word lens i := by
  have hmn := (foldl_min_le lens 32).2
  have hmx := (le_foldl_max lens 0).2
  rw [genCodes]
  generalize lens.foldl min 32 = mn at hmn ⊢
  generalize lens.foldl max 0 = mx at hmx ⊢
  have hrun : ∀ k vc, vc = (List.range' mn k).foldl (fun vc l =>
        let vc := codesOf lens l vc
        (2 * vc.1, vc.2)) (0, List.replicate lens.length 0) →
      vc.1 = Canonical.first lens (mn + k) ∧ vc.2.length = lens.length ∧
        ∀ i < lens.length, lens.getD i 0 < mn + k → vc.2.getD i 0 = Canonical.word lens i := by
    intro k
    induction k with
    | zero =>
      rintro _ rfl
      refine ⟨(first_eq_zero hmn).symm, length_replicate, fun i hi hlt => ?_⟩
      rw [getD_eq_getElem _ _ hi] at hlt
      exact absurd hlt (Nat.not_lt.2 (hmn _ (getElem_mem hi)))
    | succ k ih =>
      rintro _ rfl
      obtain ⟨hv, hlen, hcodes⟩ := ih _ rfl
      rw [range'_1_concat, foldl_append, foldl_cons, foldl_nil]
      generalize (List.range' mn k).foldl _ _ = vc at hv hlen hcodes ⊢
      obtain ⟨hv', hlen', hcodes'⟩ := codesOf_spec (mn + k) vc hlen
      refine ⟨?_, hlen', fun i hi hlt => ?_⟩
      · show 2 * (codesOf lens (mn + k) vc).1 = _
        rw [hv', hv, ← Nat.add_assoc, Canonical.first, count_eq hpos]
      · rw [hcodes' i hi]
        split_ifs with hl
        · rw [hv, Canonical.word, Canonical.rank, Canonical.len, hl]
        · exact hcodes i hi (by omega)
  obtain ⟨-, -, hcodes⟩ := hrun (mx + 1 - mn) _ rfl
  refine hcodes i hi ?_
  have hle := hmx _ (getElem_mem hi)
  rw [getD_eq_getElem _ _ hi]
  omega

end Codes

/-! ## Symbols -/

theorem length_zeroRun (z : Nat) : (zeroRun z).length ≤ z := by
  induction z using zeroRun.induct with
  | case1 => rw [zeroRun, if_pos rfl]; exact le_rfl
  | case2 z hz ih =>
    rw [zeroRun, if_neg hz, length_cons]
    omega

theorem length_mtfLoop (seq : List UInt8) (col : List UInt8) (mtf : List Nat) (zrun : Nat) :
    (mtfLoop seq mtf zrun col).length ≤ zrun + col.length := by
  induction col generalizing mtf zrun with
  | nil => exact length_zeroRun zrun
  | cons b col ih =>
    rw [mtfLoop]
    split_ifs
    · exact (ih _ _).trans (by rw [length_cons]; omega)
    · have hz := length_zeroRun zrun
      have hrest := ih ((mtf.getD (mtf.idxOf (seq.idxOf b)) 0) :: mtf.eraseIdx (mtf.idxOf (seq.idxOf b))) 0
      rw [length_append, length_cons, length_cons]
      omega

theorem length_bwt (src : List UInt8) : (bwt src).1.length = src.length := by
  rw [bwt, length_map, bwtIdx, length_mergeSort, length_range]

theorem length_sym_le (raw : List UInt8) :
    (compressBlock raw).sym.length ≤ (compressBlock raw).r1.length + 1 := by
  have hcol : (bwt (rle1 raw)).1.length = (compressBlock raw).r1.length := length_bwt _
  have hsym := length_mtfLoop (compressBlock raw).seq (bwt (rle1 raw)).1
    (List.range (compressBlock raw).seq.length) 0
  rw [sym_compressBlock, symbols, length_append, length_singleton]
  omega

/-! ## The limits -/

/-- What the format asks of a block of the level. -/
structure Limits (level : Nat) (b : Block) : Prop where
  size : b.r1.length ≤ blockSize level
  covers : b.sym.length ≤ 50 * b.nSel
  selectors : b.nSel < 2 ^ 15
  alphabet : b.len.length = b.seq.length + 2
  lengths : ∀ l ∈ b.len, 1 ≤ l ∧ l ≤ maxlen
  kraft : Canonical.kraft maxlen b.len ≤ 2 ^ maxlen
  fits : ∀ s < b.len.length, b.code.getD s 0 < 2 ^ b.len.getD s 0
  prefixFree : ∀ s < b.len.length, ∀ t < b.len.length, s ≠ t →
    ¬ bitsBE (b.len.getD s 0) (b.code.getD s 0) <+: bitsBE (b.len.getD t 0) (b.code.getD t 0)

/-- No leaf of the block's tree is so deep that `mk_lengths` cuts a length. -/
def NotClamped (raw : List UInt8) : Prop :=
  let col := (bwt (rle1 raw)).1
  ∀ p ∈ (treeOf (usedBytes col) (symbols (usedBytes col) col)).depths 0, p.2 ≤ maxlen

theorem lengths_mkLengths (freqs : Nat → Nat) (alpha : Nat) :
    ∀ l ∈ mkLengths freqs alpha maxlen, 1 ≤ l ∧ l ≤ maxlen := by
  intro l hl
  obtain ⟨s, -, rfl⟩ := mem_map.1 hl
  exact ⟨clamp_pos (by decide) _, clamp_le (by decide) _⟩

theorem kraft_iff (raw : List UInt8) :
    Canonical.kraft maxlen (compressBlock raw).len ≤ 2 ^ maxlen ↔ NotClamped raw := by
  rw [len_compressBlock, kraft_mkLengths (by decide) (by omega), kraft_clamped]
  rfl

/-- Where the lengths leave room, the codes are words of a prefix-free code. -/
theorem codes_of_kraft {lens : List Nat} (hlens : ∀ l ∈ lens, 1 ≤ l ∧ l ≤ maxlen)
    (hkraft : Canonical.kraft maxlen lens ≤ 2 ^ maxlen) :
    (∀ s < lens.length, (genCodes lens).getD s 0 < 2 ^ lens.getD s 0) ∧
      ∀ s < lens.length, ∀ t < lens.length, s ≠ t →
        ¬ bitsBE (lens.getD s 0) ((genCodes lens).getD s 0) <+:
          bitsBE (lens.getD t 0) ((genCodes lens).getD t 0) := by
  have hword : ∀ s < lens.length, (genCodes lens).getD s 0 = Canonical.word lens s :=
    fun s hs => getD_genCodes (fun l hl => (hlens l hl).1) hs
  have hlen : ∀ s < lens.length, lens.getD s 0 ≠ 0 ∧ lens.getD s 0 ≤ maxlen := fun s hs => by
    have := hlens _ (getElem_mem hs)
    rw [getD_eq_getElem _ _ hs]
    omega
  have hall : ∀ s, Canonical.len lens s ≤ maxlen := fun s => by
    by_cases hs : s < lens.length
    · exact (hlen s hs).2
    · rw [Canonical.len, getD_eq_default _ _ (Nat.le_of_not_lt hs)]
      exact Nat.zero_le _
  refine ⟨fun s hs => ?_, fun s hs t ht hst => ?_⟩
  · rw [hword s hs]
    exact Canonical.word_lt hkraft (hlen s hs).1 (hlen s hs).2
  · rw [hword s hs, hword t ht]
    exact Canonical.prefix_free hkraft hall (hlen s hs).1 (hlen t ht).1 hst

theorem nSel_lt {level : Nat} (h : level ≤ 9) {raw : List UInt8}
    (hsize : (compressBlock raw).r1.length ≤ blockSize level) :
    (compressBlock raw).nSel < 2 ^ 15 := by
  have hsym := length_sym_le raw
  have hlevel : blockSize level ≤ 900000 := Nat.mul_le_mul_right 100000 h
  rw [Block.nSel, Nat.div_lt_iff_lt_mul (by decide)]
  omega

/-- A block of the input keeps to the format when its runs leave it short enough and no code length
is cut, and only then. -/
theorem limits_iff {level : Nat} (h : 1 ≤ level ∧ level ≤ 9) (input : List UInt8) :
    ∀ raw ∈ chunks (blockSize level) input, (Limits level (compressBlock raw) ↔
        encodedLength raw ≤ blockSize level ∧ NotClamped raw) := by
  intro raw _
  have hsize : (compressBlock raw).r1.length = encodedLength raw := length_rle1 raw
  have hlens := lengths_mkLengths (freq (compressBlock raw).sym) ((compressBlock raw).seq.length + 2)
  refine ⟨fun hlim => ⟨hsize ▸ hlim.size, (kraft_iff raw).1 hlim.kraft⟩, fun ⟨hlong, hcut⟩ => ?_⟩
  have hkraft := (kraft_iff raw).2 hcut
  rw [← hsize] at hlong
  obtain ⟨hfits, hfree⟩ := codes_of_kraft hlens hkraft
  refine
    { size := hlong
      covers := ?_
      selectors := nSel_lt h.2 hlong
      alphabet := ?_
      lengths := hlens
      kraft := hkraft
      fits := hfits
      prefixFree := hfree }
  · rw [Block.nSel]
    omega
  · rw [len_compressBlock, mkLengths, length_map, length_range]

theorem limits_iff_one : (1 ≤ 1 ∧ 1 ≤ 9) ∧ ∀ raw ∈ chunks (blockSize 1) [0x61],
    (Limits 1 (compressBlock raw) ↔ encodedLength raw ≤ blockSize 1 ∧ NotClamped raw) :=
  ⟨by decide, limits_iff (by decide) [0x61]⟩

/-! ## A block that is too long -/

/-- Runs of four, of two bytes in turn. -/
def fours (k : Nat) : List UInt8 :=
  (List.replicate k (List.replicate 4 0x61 ++ List.replicate 4 0x62)).flatten

theorem fours_succ (k : Nat) :
    fours (k + 1) = List.replicate 4 0x61 ++ (List.replicate 4 0x62 ++ fours k) := by
  rw [fours, replicate_succ, flatten_cons, append_assoc]
  rfl

theorem length_fours (k : Nat) : (fours k).length = 8 * k := by
  simp [fours, Nat.mul_comm]

theorem length_rle1_fours (k : Nat) : (rle1 (fours k)).length = 10 * k := by
  induction k with
  | zero =>
    show (rle1 []).length = 0
    rw [rle1, rle1From]
    rfl
  | succ k ih =>
    have hhead : (fours k).head? ≠ some 0x62 := by
      cases k with
      | zero => rintro ⟨⟩
      | succ k =>
        rw [fours_succ]
        exact fun h => absurd (Option.some.inj h) (by decide)
    have hhead' : (List.replicate 4 0x62 ++ fours k).head? ≠ some (0x61 : UInt8) := by
      rw [replicate_succ, cons_append, head?_cons]
      decide
    have hfour : encodedRun 4 = 5 := rfl
    rw [fours_succ, length_rle1_replicate hhead', length_rle1_replicate hhead, ih, hfour]
    omega

theorem chunks_of_le {bs : Nat} {l : List UInt8} (hne : l ≠ []) (hle : l.length ≤ bs) :
    chunks bs l = [l] := by
  have hpos := length_pos_of_ne_nil hne
  have hbs : bs ≠ 0 := by omega
  rw [chunks, if_neg (by tauto), take_of_length_le hle, drop_eq_nil_of_le hle, chunks,
    if_pos (.inl rfl)]

theorem limits_not : ¬ ∀ level : Nat, 1 ≤ level → level ≤ 9 → ∀ input : List UInt8,
    ∀ raw ∈ chunks (blockSize level) input, Limits level (compressBlock raw) := by
  intro h
  have hlen := length_fours 12500
  have hne : fours 12500 ≠ [] := ne_nil_of_length_pos (by omega)
  have hmem : fours 12500 ∈ chunks (blockSize 1) (fours 12500) := by
    rw [chunks_of_le hne (by rw [hlen]; decide)]
    exact mem_singleton_self _
  have hsize : (rle1 (fours 12500)).length ≤ blockSize 1 :=
    (h 1 le_rfl (by decide) _ _ hmem).size
  rw [length_rle1_fours] at hsize
  exact absurd hsize (by decide)

end Verkos.Vbzip2
