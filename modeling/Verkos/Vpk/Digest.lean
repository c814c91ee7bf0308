import Verkos.Vpk.Sha256

/-!
# The digest is SHA-256

One block of `sha256_block` is one step of the standard's hash computation (`sha256_block_spec`),
`sha256_update` keeps `Fed` whatever it is given (`update_fed`), and `sha256_final` pads as the
standard says and writes the digest in hexadecimal.
-/

namespace Verkos.Vpk

open Lib Lib.Pieces Lib.Bits Lib.Bytes
open Lib.Sha256 (Eight Word byteBits)
open List

/-! ## Words -/

theorem toBitVec_ror (x : UInt32) {c : Nat} (h0 : 0 < c) (h : c < 32) :
    (ror x c).toBitVec = x.toBitVec.rotateRight c := by
  have hsmall : ∀ k < 32, ((UInt32.ofNat k).toBitVec % 32).toNat = k := by
    intro k hk
    rw [BitVec.toNat_umod, UInt32.toNat_toBitVec, UInt32.toNat_ofNat']
    change k % 2 ^ 32 % 32 = k
    omega
  rw [ror, UInt32.toBitVec_or, UInt32.toBitVec_shiftRight, UInt32.toBitVec_shiftLeft,
    BitVec.rotateRight_def, Nat.mod_eq_of_lt h, BitVec.shiftLeft_eq', BitVec.ushiftRight_eq',
    hsmall c h, hsmall (32 - c) (by omega)]

theorem ofBE_byteBits (l : List UInt8) : ofBE (byteBits l) = ofBig l := by
  induction l using List.reverseRecOn with
  | nil => rfl
  | append_singleton l b ih =>
    have hb : byteBits [b] = bitsBE 8 b.toNat := append_nil _
    rw [Sha256.byteBits_append, ofBE_append, ih, hb, length_bitsBE, ofBE_bitsBE b.toNat_lt, ofBig,
      ofBig, reverse_append, reverse_singleton, singleton_append, ofLittle]
    ring

theorem toNat_or_of_lt {x y : UInt32} {k q : Nat} (hx : x.toNat = 2 ^ k * q) (hy : y.toNat < 2 ^ k) :
    (x ||| y).toNat = 2 ^ k * q + y.toNat := by
  rw [UInt32.toNat_or, hx, Nat.two_pow_add_eq_or_of_lt hy]

theorem toNat_byte_shiftLeft (b : UInt8) {c : UInt32} (h : c.toNat ≤ 24) :
    (b.toUInt32 <<< c).toNat = 2 ^ c.toNat * b.toNat := by
  have hb := b.toNat_lt
  have hpow : 2 ^ c.toNat ≤ 2 ^ 24 := Nat.pow_le_pow_right (by decide) h
  have hlt : b.toNat * 2 ^ c.toNat < 2 ^ 32 :=
    calc b.toNat * 2 ^ c.toNat ≤ 255 * 2 ^ 24 := Nat.mul_le_mul (by omega) hpow
      _ < 2 ^ 32 := by decide
  rw [UInt32.toNat_shiftLeft, UInt8.toNat_toUInt32, Nat.mod_eq_of_lt (show c.toNat < 32 by omega),
    Nat.shiftLeft_eq, Nat.mod_eq_of_lt hlt, Nat.mul_comm]

theorem toNat_wordAt (p : List UInt8) (i : Nat) :
    (wordAt p i).toNat = ofBig [p.getD (i * 4) 0, p.getD (i * 4 + 1) 0, p.getD (i * 4 + 2) 0,
      p.getD (i * 4 + 3) 0] := by
  rw [wordAt]
  generalize p.getD (i * 4) 0 = b0
  generalize p.getD (i * 4 + 1) 0 = b1
  generalize p.getD (i * 4 + 2) 0 = b2
  generalize p.getD (i * 4 + 3) 0 = b3
  have h0 := b0.toNat_lt
  have h1 := b1.toNat_lt
  have h2 := b2.toNat_lt
  have h3 := b3.toNat_lt
  have e0 : (b0.toUInt32 <<< 24).toNat = 2 ^ 24 * b0.toNat := toNat_byte_shiftLeft b0 (by decide)
  have e1 : (b1.toUInt32 <<< 16).toNat = 2 ^ 16 * b1.toNat := toNat_byte_shiftLeft b1 (by decide)
  have e2 : (b2.toUInt32 <<< 8).toNat = 2 ^ 8 * b2.toNat := toNat_byte_shiftLeft b2 (by decide)
  have e3 : b3.toUInt32.toNat = b3.toNat := UInt8.toNat_toUInt32 b3
  have e01 := toNat_or_of_lt e0 (y := b1.toUInt32 <<< 16) (by omega)
  have e02 := toNat_or_of_lt (x := b0.toUInt32 <<< 24 ||| b1.toUInt32 <<< 16)
    (y := b2.toUInt32 <<< 8) (k := 16) (q := 2 ^ 8 * b0.toNat + b1.toNat) (by omega) (by omega)
  rw [toNat_or_of_lt (k := 8) (q := 2 ^ 16 * b0.toNat + 2 ^ 8 * b1.toNat + b2.toNat) (by omega)
    (by omega), e3]
  simp only [ofBig, ofLittle, reverse_cons, reverse_nil, nil_append,
    cons_append]
  omega

/-! ## One block -/

variable {i : Nat} {p m : List UInt8} {s : Sha256}

theorem getD_pieces {n : Nat} (p : List UInt8) (h : i < p.length / n) :
    (pieces n p)[i]? = some ((p.drop (n * i)).take n) := by
  rw [pieces, getElem?_map, getElem?_range h]
  rfl

theorem take_drop_getD {a n : Nat} (p : List UInt8) (h : a + n ≤ p.length) :
    (p.drop a).take n = (List.range n).map fun j => p.getD (a + j) 0 := by
  apply ext_getElem
  · rw [length_take, length_drop, length_map, length_range]
    omega
  · intro j hj _
    rw [length_take] at hj
    rw [getElem_take, getElem_drop, getElem_map, getElem_range,
      getD_eq_getElem]

theorem take_four (p : List UInt8) (i : Nat) (h : i * 4 + 4 ≤ p.length) :
    (p.drop (4 * i)).take 4 = [p.getD (i * 4) 0, p.getD (i * 4 + 1) 0, p.getD (i * 4 + 2) 0,
      p.getD (i * 4 + 3) 0] := by
  rw [Nat.mul_comm, take_drop_getD p h]
  rfl

theorem ofBig_four (a b c d : UInt8) : ofBig [a, b, c, d] < 2 ^ 32 :=
  (ofBig_lt [a, b, c, d]).trans_eq (by norm_num)

theorem wordAt_spec (h : p.length = 64) (hi : i < 16) :
    (wordAt p i).toBitVec = (Sha256.words (byteBits p)).getD i 0 := by
  have hp : pieces 32 (byteBits p) = (pieces 4 p).map byteBits := Sha256.pieces_byteBits 4 p
  rw [Sha256.words, hp, getD_eq_getElem?_getD, getElem?_map, getElem?_map,
    getD_pieces p (by omega), take_four p i (by omega)]
  apply BitVec.eq_of_toNat_eq
  rw [UInt32.toNat_toBitVec, toNat_wordAt, Option.map_some, Option.map_some, Option.getD_some,
    Sha256.word, BitVec.toNat_ofNat, ofBE_byteBits]
  exact (Nat.mod_eq_of_lt (ofBig_four _ _ _ _)).symm

theorem wordNext_spec (w : List UInt32) (i : Nat) :
    (wordNext w i).toBitVec = Sha256.smallSigma1 (w.getD (i - 2) 0).toBitVec +
      (w.getD (i - 7) 0).toBitVec + Sha256.smallSigma0 (w.getD (i - 15) 0).toBitVec +
      (w.getD (i - 16) 0).toBitVec := by
  have h3 : (3 : UInt32).toBitVec % 32 = 3 := rfl
  have h10 : (10 : UInt32).toBitVec % 32 = 10 := rfl
  simp only [wordNext, UInt32.toBitVec_add, UInt32.toBitVec_xor, UInt32.toBitVec_shiftRight,
    toBitVec_ror _ (by decide : 0 < 7) (by decide), toBitVec_ror _ (by decide : 0 < 18) (by decide),
    toBitVec_ror _ (by decide : 0 < 17) (by decide), toBitVec_ror _ (by decide : 0 < 19) (by decide),
    h3, h10, Sha256.smallSigma0, Sha256.smallSigma1]
  ac_rfl

theorem wordsUpTo_spec (h : p.length = 64) (n : Nat) :
    (wordsUpTo p n).length = 16 + n ∧ ∀ t < 16 + n,
      ((wordsUpTo p n).getD t 0).toBitVec = Sha256.schedule (Sha256.words (byteBits p)) t := by
  induction n with
  | zero =>
    have hw : wordsUpTo p 0 = (List.range 16).map (wordAt p) := rfl
    rw [hw, length_map, length_range]
    refine ⟨rfl, fun t ht => ?_⟩
    rw [Sha256.schedule, if_pos ht, ← wordAt_spec h ht, getD_eq_getElem?_getD,
      getElem?_map, getElem?_range ht]
    rfl
  | succ n ih =>
    obtain ⟨hlen, hw⟩ := ih
    have hsucc : wordsUpTo p (n + 1) = wordsUpTo p n ++ [wordNext (wordsUpTo p n) (16 + n)] := by
      rw [wordsUpTo, range'_concat, foldl_append, Nat.one_mul]
      rfl
    rw [hsucc, length_append, length_singleton, hlen]
    refine ⟨rfl, fun t ht => ?_⟩
    by_cases hlast : t < 16 + n
    · rw [getD_append _ _ _ _ (by omega), hw t hlast]
    · obtain rfl : t = 16 + n := by omega
      rw [getD_append_right _ _ _ _ (by omega), hlen, Nat.sub_self, getD_cons_zero,
        wordNext_spec, hw _ (by omega), hw _ (by omega), hw _ (by omega), hw _ (by omega),
        Sha256.schedule.eq_def _ (16 + n), if_neg (by omega)]

theorem K256_spec : K256.map UInt32.toBitVec = Sha256.constants := by
  rw [Sha256.constants, Sha256.primes_eq]
  decide +kernel

theorem K256_getD (i : Nat) : (K256.getD i 0).toBitVec = Sha256.constants.getD i 0 := by
  rw [← K256_spec, getD_eq_getElem?_getD, getD_eq_getElem?_getD, getElem?_map]
  cases K256[i]? <;> rfl

theorem init_spec : sha256_init.h.map UInt32.toBitVec = Sha256.start := by decide +kernel

theorem turn_spec {w : List UInt32} {m : List Word}
    (hw : (w.getD i 0).toBitVec = Sha256.schedule m i) (v : Eight UInt32) :
    (turn w v i).map UInt32.toBitVec = Sha256.round m (v.map UInt32.toBitVec) i := by
  simp only [turn, Sha256.round, Eight.map, UInt32.toBitVec_add, UInt32.toBitVec_xor,
    UInt32.toBitVec_and, UInt32.toBitVec_not, K256_getD, hw, Sha256.ch, Sha256.maj,
    Sha256.bigSigma0, Sha256.bigSigma1, toBitVec_ror _ (by decide : 0 < 6) (by decide),
    toBitVec_ror _ (by decide : 0 < 11) (by decide), toBitVec_ror _ (by decide : 0 < 25) (by decide),
    toBitVec_ror _ (by decide : 0 < 2) (by decide), toBitVec_ror _ (by decide : 0 < 13) (by decide),
    toBitVec_ror _ (by decide : 0 < 22) (by decide)]

theorem sha256_block_spec (hp : p.length = 64) (h : Eight UInt32) :
    (sha256_block h p).map UInt32.toBitVec =
      Sha256.compress (h.map UInt32.toBitVec) (Sha256.words (byteBits p)) := by
  have hturns : ∀ l : List Nat, (∀ t ∈ l, t < 64) → ∀ v : Eight UInt32,
      (l.foldl (turn (wordsUpTo p 48)) v).map UInt32.toBitVec =
        l.foldl (Sha256.round (Sha256.words (byteBits p))) (v.map UInt32.toBitVec) := by
    intro l
    induction l with
    | nil => intro _ v; rfl
    | cons t l ih =>
      intro hl v
      have ht := (wordsUpTo_spec hp 48).2 t (hl t mem_cons_self)
      rw [foldl_cons, foldl_cons, ih fun t' ht' => hl t' (mem_cons_of_mem _ ht'),
        turn_spec ht]
  rw [Sha256.compress, ← hturns _ fun t ht => mem_range.1 ht]
  rfl

/-! ## Portions -/

/-- What `s` has taken in is `m`. -/
structure Sha256.Holds (s : Sha256) (m : List UInt8) : Prop where
  fed : Fed sha256_block 64 sha256_init.h m s.h s.buf
  len : s.len = UInt64.ofNat m.length

theorem init_holds : sha256_init.Holds [] := ⟨Fed.init (by decide), rfl⟩

theorem absorb_fed (p : List UInt8) (h : Fed sha256_block 64 sha256_init.h m s.h s.buf) :
    Fed sha256_block 64 sha256_init.h (m ++ p) (absorb s p).h (absorb s p).buf := by
  fun_induction absorb s p generalizing m with
  | case1 s => rwa [append_nil]
  | case2 s b p k buf hn =>
    rename_i ih
    have hstep := ih (h.fill hn)
    rwa [append_assoc, take_append_drop] at hstep
  | case3 s b p k buf hn =>
    rename_i ih
    have hlt := s.n_lt
    have hbuf : buf.length < 64 := by
      have hle : buf.length ≤ 64 := by
        simp only [buf, k, length_append, length_take]
        omega
      omega
    have hstep := ih (h.keep hbuf)
    rwa [append_assoc, take_append_drop] at hstep

theorem len_absorb (s : Sha256) (p : List UInt8) : (absorb s p).len = s.len := by
  fun_induction absorb s p with
  | case1 s => rfl
  | case2 s b p k buf hn ih => exact ih
  | case3 s b p k buf hn ih => exact ih

theorem update_holds (data : List UInt8) (h : s.Holds m) :
    (sha256_update s data).Holds (m ++ data) where
  fed := absorb_fed data h.fed
  len := by
    rw [sha256_update, len_absorb, length_append, UInt64.ofNat_add, h.len]

theorem updates_hold (chunks : List (List UInt8)) (h : s.Holds m) :
    (chunks.foldl sha256_update s).Holds (m ++ chunks.flatten) := by
  induction chunks generalizing m s with
  | nil => rwa [flatten_nil, append_nil]
  | cons data chunks ih =>
    rw [foldl_cons, flatten_cons, ← append_assoc]
    exact ih (update_holds data h)

theorem zeroFill_holds (h : s.Holds m) :
    (zeroFill s).Holds (m ++ List.replicate ((120 - s.buf.length) % 64) 0) ∧
      (zeroFill s).buf.length = 56 := by
  fun_induction zeroFill s generalizing m with
  | case1 s hn ih =>
    obtain ⟨hz, hlen⟩ := ih (update_holds [0] h)
    refine ⟨?_, hlen⟩
    have hlt := s.n_lt
    have hcount : (120 - s.buf.length) % 64 =
        (120 - (sha256_update s [0]).buf.length) % 64 + 1 := by
      rw [length_sha256_update, length_singleton]
      omega
    rw [append_assoc] at hz
    rwa [hcount, replicate_succ]
  | case2 s hn =>
    have h56 : s.buf.length = 56 := not_not.1 hn
    refine ⟨?_, h56⟩
    rw [h56]
    exact (append_nil m).symm ▸ h

/-! ## The padding -/

theorem length_bytes (bits : UInt64) :
    ((List.range 8).map fun i => (bits >>> UInt64.ofNat (56 - i * 8)).toUInt8) =
      big 8 bits.toNat := by
  have hbyte : ∀ c < 64, (bits >>> UInt64.ofNat c).toUInt8 = UInt8.ofNat (bits.toNat / 2 ^ c) := by
    intro c hc
    apply UInt8.toNat_inj.1
    rw [UInt64.toNat_toUInt8, UInt64.toNat_shiftRight, UInt64.toNat_ofNat', UInt8.toNat_ofNat',
      Nat.mod_eq_of_lt (show c < 2 ^ 64 by omega), Nat.mod_eq_of_lt hc, Nat.shiftRight_eq_div_pow]
  have hrange : List.range 8 = [0, 1, 2, 3, 4, 5, 6, 7] := rfl
  rw [hrange]
  simp (disch := decide) only [map_cons, map_nil, hbyte, Nat.reduceMul, Nat.reduceSub]
  simp only [big, little, reverse_cons, reverse_nil, nil_append, cons_append,
    Nat.div_div_eq_div_mul]
  norm_num

theorem byteBits_big (w n : Nat) : byteBits (big w n) = bitsBE (8 * w) n := by
  induction w generalizing n with
  | zero => rfl
  | succ w ih =>
    have hbig : big (w + 1) n = big w (n / 256) ++ [UInt8.ofNat n] := by
      rw [big, little, reverse_cons]
      rfl
    have hlast : byteBits [UInt8.ofNat n] = bitsBE 8 n := by
      rw [byteBits, flatMap_singleton, UInt8.toNat_ofNat', bitsBE_mod]
    rw [hbig, Sha256.byteBits_append, ih, hlast, Nat.mul_succ, bitsBE_add]
    rfl

theorem byteBits_zeros (z : Nat) : byteBits (List.replicate z 0) = List.replicate (8 * z) false := by
  induction z with
  | zero => rfl
  | succ z ih =>
    have hzero : byteBits [0] = List.replicate 8 false := rfl
    rw [replicate_succ, ← singleton_append, Sha256.byteBits_append, ih, hzero,
      ← replicate_add]
    congr 1
    omega

theorem pad_byteBits (m : List UInt8) : Sha256.pad (byteBits m) = byteBits (m ++ [0x80] ++
      List.replicate ((120 - (m.length + 1) % 64) % 64) 0 ++ big 8 (8 * m.length)) := by
  have hone : byteBits [0x80] = [true] ++ List.replicate 7 false := rfl
  have hcount : Sha256.zeros (8 * m.length) = 7 + 8 * ((120 - (m.length + 1) % 64) % 64) := by
    rw [Sha256.zeros]
    omega
  rw [Sha256.byteBits_append, Sha256.byteBits_append, Sha256.byteBits_append, byteBits_big, hone,
    byteBits_zeros, Sha256.pad, Sha256.length_byteBits, hcount, replicate_add]
  simp only [append_assoc]

/-! ## The digest -/

theorem hex_spec (w v : Nat) : (pieces 4 (bitsBE (4 * w) v)).map ofBE = Digits.digits 16 w v := by
  induction w generalizing v with
  | zero => simp [bitsBE, pieces, Digits.digits]
  | succ w ih =>
    have hlast : pieces 4 (bitsBE 4 v) = [bitsBE 4 v] := pieces_of_eq (by decide) (length_bitsBE 4 v)
    have hdvd : 4 ∣ (bitsBE (4 * w) (v / 2 ^ 4)).length := by
      rw [length_bitsBE]
      exact Nat.dvd_mul_right 4 w
    rw [Nat.mul_succ, bitsBE_add, pieces_append (by decide) hdvd, map_append, ih, hlast,
      map_singleton, ofBE_bitsBE_mod]
    rfl

theorem hex8_spec (v : UInt32) : hex8 v = Sha256.hex (bitsBE 32 v.toNat) := by
  have hdigits := hex_spec 8 v.toNat
  have hlt : v.toNat < 16 ^ 8 := v.toNat_lt
  rw [hex8, Digits.leftpad_toDigits (by decide) (by decide) hlt, ← hdigits, map_map]
  rfl

theorem hex_append {a : List Bool} (h : 4 ∣ a.length) (b : List Bool) :
    Sha256.hex (a ++ b) = Sha256.hex a ++ Sha256.hex b := by
  rw [Sha256.hex, pieces_append (by decide) h, map_append]
  rfl

theorem hex_words (ws : List Word) : Sha256.hex (ws.flatMap fun w => bitsBE 32 w.toNat) =
      ws.flatMap fun w => Sha256.hex (bitsBE 32 w.toNat) := by
  induction ws with
  | nil => rfl
  | cons w ws ih =>
    have hdvd : 4 ∣ (bitsBE 32 w.toNat).length := by
      rw [length_bitsBE]
      decide
    rw [flatMap_cons, flatMap_cons, hex_append hdvd, ih]

theorem blocks_spec (bs : List (List UInt8)) (hbs : ∀ b ∈ bs, b.length = 64) (h : Eight UInt32) :
    (bs.foldl sha256_block h).map UInt32.toBitVec =
      (bs.map byteBits).foldl (fun h b => Sha256.compress h (Sha256.words b))
        (h.map UInt32.toBitVec) := by
  induction bs generalizing h with
  | nil => rfl
  | cons b bs ih =>
    rw [foldl_cons, map_cons, foldl_cons,
      ih fun b' hb' => hbs b' (mem_cons_of_mem _ hb'),
      sha256_block_spec (hbs b mem_cons_self)]

theorem sha256_final_spec (hs : s.Holds m) (hm : m.length < 2 ^ 61) :
    sha256_final s = Sha256.hex (Sha256.digest (byteBits m)) := by
  have hbits : (s.len * 8).toNat = 8 * m.length := by
    rw [UInt64.toNat_mul, hs.len, UInt64.toNat_ofNat']
    change m.length % 2 ^ 64 * 8 % 2 ^ 64 = 8 * m.length
    omega
  obtain ⟨hz, h56⟩ := zeroFill_holds (update_holds [0x80] hs)
  rw [length_sha256_update, ← hs.fed.length_mod, length_singleton] at hz
  have hcount : (m.length % 64 + 1) % 64 = (m.length + 1) % 64 := by omega
  rw [hcount] at hz
  -- The length fills the last block, so nothing is left over.
  have hend := update_holds (big 8 (8 * m.length)) hz
  have hempty := length_sha256_update (zeroFill (sha256_update s [0x80])) (big 8 (8 * m.length))
  rw [h56, length_big] at hempty
  rw [sha256_final, length_bytes, hbits]
  have hfed := hend.fed
  rw [eq_nil_of_length_eq_zero hempty] at hfed
  have hlist : ∀ h : Eight UInt32, h.toList.flatMap hex8 =
      Sha256.hex ((h.map UInt32.toBitVec).toList.flatMap fun w => bitsBE 32 w.toNat) := by
    intro h
    rw [hex_words, Eight.toList_map, flatMap_map]
    exact flatMap_congr fun v _ => hex8_spec v
  rw [hlist, hfed.done, blocks_spec _ fun b hb => length_of_mem_pieces hb, init_spec,
    Sha256.digest, Sha256.hash, pad_byteBits, ← Sha256.pieces_byteBits 64]

/-- For every message and every way of cutting it into portions. -/
theorem sha256_fips (chunks : List (List UInt8)) (h : chunks.flatten.length < 2 ^ 61) :
    sha256_final (chunks.foldl sha256_update sha256_init) =
      Sha256.hex (Sha256.digest (byteBits chunks.flatten)) :=
  sha256_final_spec (updates_hold chunks init_holds) h

theorem sha256_fips_abc : sha256_final ([[97, 98], [99]].foldl sha256_update sha256_init) =
      Sha256.hex (Sha256.digest (byteBits [97, 98, 99])) :=
  sha256_fips [[97, 98], [99]] (by decide)

end Verkos.Vpk
