import Verkos.Vgzip.Huff
import Verkos.Vgzip.Matches

/-!
# Compressing and decompressing

What `deflate` writes is a list of tokens, bytes and matches, in the fixed codes. `inflate_block`
reads one token after the other, and with each of them its output is the data as far as `deflate`
had come. The container around it is left as it is, and the checksum is that of the same bytes.
-/

namespace Verkos.Vgzip

open Lib.Bits Lib.Canonical
open List

/-! ## Writing a token -/

/-- A byte, or a match. -/
inductive Token
  | lit (b : UInt8)
  | copy (len dist : Nat)

/-- The bits of a token. -/
def Token.bits : Token → List Bool
  | .lit b => wordBits fixedLit b.toNat
  | .copy len dist =>
    wordBits fixedLit (lenSym len).1 ++ bitsLE (lenSym len).2.2 (lenSym len).2.1 ++
      (wordBits fixedDist (distSym dist).1 ++ bitsLE (distSym dist).2.2 (distSym dist).2.1)

/-- The fixed literal code as `emit_lit` and `emit_len` have it. -/
theorem fixedLit_word : ∀ s < 288,
    len fixedLit s = (if s < 144 then 8 else if s < 256 then 9 else if s < 280 then 7 else 8) ∧
      word fixedLit s = (if s < 144 then 0x30 + s else if s < 256 then 0x190 + (s - 144)
        else if s < 280 then s - 256 else 0xc0 + (s - 280)) := by
  intro s hs
  refine (and_iff_left_of_imp fun hlen => ?_).2 ?_
  · obtain ⟨h7, h8, h9⟩ : first fixedLit 7 = 0 ∧ first fixedLit 8 = 48 ∧ first fixedLit 9 = 400 := by
      decide +kernel
    rw [word, rank, hlen]
    split_ifs <;> simp only [h7, h8, h9] <;> simp [-reduceReplicate, fixedLit, take_append,
      count_replicate] <;> omega
  · simp [-reduceReplicate, len, fixedLit, getElem?_append, getElem?_replicate]
    grind

theorem fixedDist_word : ∀ s < 30, len fixedDist s = 5 ∧ word fixedDist s = s := by
  decide +kernel

theorem wordBits_short {s : Nat} (h : s < 144) : wordBits fixedLit s = bitsBE 8 (0x30 + s) := by
  obtain ⟨hlen, hword⟩ := fixedLit_word s (by omega)
  rw [wordBits, hlen, hword, if_pos h, if_pos h]

theorem wordBits_long {s : Nat} (h : 144 ≤ s) (h' : s < 256) :
    wordBits fixedLit s = bitsBE 9 (0x190 + (s - 144)) := by
  obtain ⟨hlen, hword⟩ := fixedLit_word s (by omega)
  rw [wordBits, hlen, hword, if_neg (by omega), if_pos h', if_neg (by omega), if_pos h']

theorem wordBits_low {s : Nat} (h : 256 ≤ s) (h' : s < 280) :
    wordBits fixedLit s = bitsBE 7 (s - 256) := by
  obtain ⟨hlen, hword⟩ := fixedLit_word s (by omega)
  rw [wordBits, hlen, hword, if_neg (by omega), if_neg (by omega), if_pos h', if_neg (by omega),
    if_neg (by omega), if_pos h']

theorem wordBits_high {s : Nat} (h : 280 ≤ s) (h' : s < 288) :
    wordBits fixedLit s = bitsBE 8 (0xc0 + (s - 280)) := by
  obtain ⟨hlen, hword⟩ := fixedLit_word s h'
  rw [wordBits, hlen, hword, if_neg (by omega), if_neg (by omega), if_neg (by omega),
    if_neg (by omega), if_neg (by omega), if_neg (by omega)]

theorem wordBits_dist {s : Nat} (h : s < 30) : wordBits fixedDist s = bitsBE 5 s := by
  obtain ⟨hlen, hword⟩ := fixedDist_word s h
  rw [wordBits, hlen, hword]

section Rows

variable {base : List Nat} {v n s : Nat}

theorem row_spec (h : row base v n = some s) :
    s < n ∧ base.getD s 0 ≤ v ∧ ∀ t, s < t → t < n → v < base.getD t 0 := by
  induction n with
  | zero => cases h
  | succ n ih =>
    rw [row] at h
    split at h
    · rename_i hle
      cases h
      exact ⟨Nat.lt_succ_self _, hle, fun t ht ht' => by omega⟩
    · rename_i hle
      obtain ⟨hs, hbase, hlast⟩ := ih h
      refine ⟨by omega, hbase, fun t ht ht' => ?_⟩
      rcases Nat.lt_succ_iff_lt_or_eq.1 ht' with ht' | rfl
      · exact hlast t ht ht'
      · omega

theorem row_isSome (base : List Nat) (v : Nat) (hn : 0 < n) (h : base.getD 0 0 ≤ v) : ∃ s, row base v n = some s := by
  induction n with
  | zero => exact absurd hn (Nat.lt_irrefl 0)
  | succ n ih =>
    rw [row]
    split
    · exact ⟨n, rfl⟩
    · rename_i hle
      refine ih (Nat.pos_of_ne_zero ?_)
      rintro rfl
      exact hle h

/-- In a row the rest fits its extra bits, if every base is within those of the row before. -/
theorem row_extra {extra : List Nat} (h : row base v n = some s) (hv : v < base.getD (n - 1) 0 +
    2 ^ extra.getD (n - 1) 0) (hnext : ∀ t < n - 1,
    base.getD (t + 1) 0 ≤ base.getD t 0 + 2 ^ extra.getD t 0) :
    v - base.getD s 0 < 2 ^ extra.getD s 0 := by
  obtain ⟨hs, hbase, hlast⟩ := row_spec h
  by_cases hend : s + 1 < n
  · have := hlast (s + 1) (Nat.lt_succ_self s) hend
    have := hnext s (by omega)
    omega
  · obtain rfl : s = n - 1 := by omega
    omega

end Rows

variable {len dist fuel i : Nat} {lh dh : Huff} {r : BitR} {l : List Bool}

theorem lenSym_spec (h : 3 ≤ len) (h' : len ≤ 258) : ∃ s < 29,
    lenSym len = (257 + s, len - lenBase.getD s 0, lenExtra.getD s 0) ∧
      lenBase.getD s 0 ≤ len ∧ len - lenBase.getD s 0 < 2 ^ lenExtra.getD s 0 := by
  obtain ⟨s, hs⟩ := row_isSome lenBase len (n := 29) (by decide) h
  obtain ⟨hlt, hbase, -⟩ := row_spec hs
  refine ⟨s, hlt, by rw [lenSym, hs], hbase, row_extra hs ?_ (by decide)⟩
  have hlast : lenBase.getD 28 0 + 2 ^ lenExtra.getD 28 0 = 259 := by decide
  rw [hlast]
  omega

theorem distSym_spec (h : 0 < dist) (h' : dist ≤ 32768) : ∃ s < 30,
    distSym dist = (s, dist - distBase.getD s 0, distExtra.getD s 0) ∧
      distBase.getD s 0 ≤ dist ∧ dist - distBase.getD s 0 < 2 ^ distExtra.getD s 0 := by
  obtain ⟨s, hs⟩ := row_isSome distBase dist (n := 30) (by decide) h
  obtain ⟨hlt, hbase, -⟩ := row_spec hs
  refine ⟨s, hlt, by rw [distSym, hs], hbase, row_extra hs ?_ (by decide)⟩
  have hlast : distBase.getD 29 0 + 2 ^ distExtra.getD 29 0 = 32769 := by decide
  rw [hlast]
  omega

section Emit

variable {w : BitW}

theorem emitLit_bits (h : w.Ok) (b : UInt8) :
    (emitLit w b.toNat).Ok ∧ (emitLit w b.toNat).bits = w.bits ++ Token.bits (.lit b) := by
  have hb := b.toNat_lt
  rw [emitLit, Token.bits]
  split
  · rename_i hlow
    rw [wordBits_short hlow]
    exact putbitsRev_bits h _ 8
  · rename_i hhigh
    rw [wordBits_long (by omega) hb]
    exact putbitsRev_bits h _ 9

theorem emitMatch_bits (h : w.Ok) (hlen : 3 ≤ len) (hlen' : len ≤ 258)
    (hdist : 0 < dist) (hdist' : dist ≤ 32768) : (emitDist (emitLen w len) dist).Ok ∧
      (emitDist (emitLen w len) dist).bits = w.bits ++ Token.bits (.copy len dist) := by
  obtain ⟨s, hs, hsym, -, -⟩ := lenSym_spec hlen hlen'
  obtain ⟨d, hd, hdsym, -, -⟩ := distSym_spec hdist hdist'
  have hword : ∃ w1 : BitW, w1.Ok ∧ w1.bits = w.bits ++ wordBits fixedLit (257 + s) ∧
      emitLen w len = putbits w1 (len - lenBase.getD s 0) (lenExtra.getD s 0) := by
    rw [emitLen, hsym]
    dsimp only
    split
    · rw [wordBits_low (by omega) (by omega)]
      obtain ⟨hok, hbits⟩ := putbitsRev_bits h (257 + s - 256) 7
      exact ⟨_, hok, hbits, rfl⟩
    · rw [wordBits_high (by omega) (by omega)]
      obtain ⟨hok, hbits⟩ := putbitsRev_bits h (0xc0 + (257 + s - 280)) 8
      exact ⟨_, hok, hbits, rfl⟩
  obtain ⟨w1, hok1, hbits1, hlen1⟩ := hword
  obtain ⟨hok2, hbits2⟩ := putbits_bits hok1 (len - lenBase.getD s 0) (lenExtra.getD s 0)
  obtain ⟨hok3, hbits3⟩ := putbitsRev_bits hok2 d 5
  obtain ⟨hok4, hbits4⟩ := putbits_bits hok3 (dist - distBase.getD d 0) (distExtra.getD d 0)
  rw [hlen1, emitDist, hdsym]
  refine ⟨hok4, ?_⟩
  dsimp only
  rw [hbits4, hbits3, hbits2, hbits1, Token.bits, hsym, hdsym, wordBits_dist hd]
  simp only [append_assoc]

end Emit

/-! ## The tokens of the data -/

/-- The tokens say what the data is from `i` on. -/
inductive Covers (data : List UInt8) : Nat → List Token → Prop
  | done : Covers data data.length []
  | lit {i : Nat} {ts : List Token} (hi : i < data.length) (h : Covers data (i + 1) ts) :
    Covers data i (.lit data[i] :: ts)
  | copy {i len dist : Nat} {ts : List Token} (hlen : 3 ≤ len) (hm : Matches data i len dist)
    (h : Covers data (i + len) ts) : Covers data i (.copy len dist :: ts)

section Loop

variable {data : List UInt8}

section Insert

variable {ins : Chains → Nat → Chains} (hins : ∀ {c i}, Chains.Below c i → (ins c i).Below (i + 1))

include hins

theorem deflateLoop_covers {c : Chains} {w : BitW} (hw : w.Ok) (hc : c.Below i)
    (hi : i ≤ data.length) (hfuel : data.length < i + fuel) :
    (deflateLoopWith data ins fuel i c w).Ok ∧ ∃ ts, Covers data i ts ∧
      (deflateLoopWith data ins fuel i c w).bits = w.bits ++ ts.flatMap Token.bits := by
  induction fuel generalizing i c w with
  | zero => omega
  | succ fuel ih =>
    rw [deflateLoopWith]
    split
    · rename_i hend
      obtain rfl : i = data.length := by omega
      exact ⟨hw, [], .done, by simp⟩
    · rename_i hmore
      have hi' : i < data.length := by omega
      have hanswer := lookup_spec data hc hi'
      revert hanswer
      generalize (if i + 3 ≤ data.length then
        search data c.prev i 128 (c.head (hash data i)) (0, 0) else (0, 0)) = best
      intro hanswer
      dsimp only
      split
      · rename_i hlen
        have hm : Matches data i best.1 best.2 := by
          rcases hanswer with rfl | hm
          · exact absurd hlen (by decide)
          · exact hm
        obtain ⟨hok, hbits⟩ := emitMatch_bits hw hlen hm.len_le hm.dist_pos hm.window
        have hbelow := (hins hc).insert_range hins (best.1 - 1)
        obtain ⟨hok', ts, hcov, hbits'⟩ := ih hok
          (hbelow.mono (show i + 1 + (best.1 - 1) ≤ i + best.1 by omega)) hm.inside (by omega)
        refine ⟨hok', _, .copy hlen hm hcov, ?_⟩
        rw [hbits', hbits, flatMap_cons, append_assoc]
      · have hbyte : byteAt data i = data[i].toNat := by
          rw [byteAt, getD_eq_getElem _ _ hi']
        rw [hbyte]
        obtain ⟨hok, hbits⟩ := emitLit_bits hw data[i]
        obtain ⟨hok', ts, hcov, hbits'⟩ := ih hok (hins hc) hi' (by omega)
        refine ⟨hok', _, .lit hi' hcov, ?_⟩
        rw [hbits', hbits, flatMap_cons, append_assoc]

end Insert

/-! ## Reading the tokens -/

theorem fixedLit_lt : ∀ l ∈ fixedLit, l < 16 := by
  simp only [fixedLit, mem_append, mem_replicate]
  omega

theorem fixedLit_length : fixedLit.length = 288 := by
  simp only [fixedLit, length_append, length_replicate]

theorem fixedDist_lt : ∀ l ∈ fixedDist, l < 16 := by
  simp only [fixedDist, mem_replicate]
  omega

theorem huffDecode_lit (hl : Built fixedLit lh) {s : Nat} (hs : s < 286)
    (hr : r.bits = wordBits fixedLit s ++ l) :
    ∃ r' : BitR, huffDecode r lh = .ok (s, r') ∧ r'.bits = l := by
  obtain ⟨hlen, hword⟩ := fixedLit_word s (by omega)
  refine huffDecode_word hl ?_ ?_ ?_ hr
  · rw [hlen]
    split_ifs <;> decide
  · rw [hlen]
    split_ifs <;> decide
  · rw [hlen, hword]
    split_ifs <;> omega

theorem huffDecode_dist (hd : Built fixedDist dh) {s : Nat} (hs : s < 30)
    (hr : r.bits = wordBits fixedDist s ++ l) :
    ∃ r' : BitR, huffDecode r dh = .ok (s, r') ∧ r'.bits = l := by
  obtain ⟨hlen, hword⟩ := fixedDist_word s hs
  refine huffDecode_word hd ?_ ?_ ?_ hr
  · rw [hlen]
    decide
  · rw [hlen]
    decide
  · rw [hlen, hword]
    omega

/-- A block of tokens puts out what they cover. -/
theorem inflateBlock_covers (hl : Built fixedLit lh) (hd : Built fixedDist dh)
    {ts : List Token} (hcov : Covers data i ts) (hfuel : ts.length < fuel)
    (hr : r.bits = ts.flatMap Token.bits ++ (wordBits fixedLit 256 ++ l)) :
    ∃ r' : BitR, inflateBlock lh dh fuel r (data.take i) = .ok (r', data) ∧ r'.bits = l := by
  induction hcov generalizing fuel r with
  | done =>
    obtain ⟨fuel, rfl⟩ := Nat.exists_eq_succ_of_ne_zero (Nat.ne_of_gt hfuel)
    obtain ⟨r', hr', hbits⟩ := huffDecode_lit hl (s := 256) (by decide) hr
    refine ⟨r', ?_, hbits⟩
    rw [inflateBlock, hr', take_length]
    rfl
  | @lit i ts hi hcov ih =>
    obtain ⟨fuel, rfl⟩ := Nat.exists_eq_succ_of_ne_zero (Nat.ne_of_gt (Nat.zero_lt_of_lt hfuel))
    rw [flatMap_cons, append_assoc] at hr
    have hb := data[i].toNat_lt
    obtain ⟨r₁, hr1, hbits⟩ := huffDecode_lit hl (by omega) hr
    obtain ⟨r', hr', hbits'⟩ := ih (Nat.lt_of_succ_lt_succ hfuel) hbits
    refine ⟨r', ?_, hbits'⟩
    rw [inflateBlock, hr1]
    simp only [bind, Except.bind]
    rw [if_neg (by omega), if_pos hb, UInt8.ofNat_toNat, take_append_getElem hi]
    exact hr'
  | @copy i len dist ts hlen hm hcov ih =>
    obtain ⟨fuel, rfl⟩ := Nat.exists_eq_succ_of_ne_zero (Nat.ne_of_gt (Nat.zero_lt_of_lt hfuel))
    obtain ⟨s, hs, hsym, hbase, hextra⟩ := lenSym_spec hlen hm.len_le
    obtain ⟨d, hd', hdsym, hdbase, hdextra⟩ := distSym_spec hm.dist_pos hm.window
    rw [flatMap_cons, Token.bits, hsym, hdsym] at hr
    simp only [append_assoc] at hr
    obtain ⟨r₁, hr1, hbits1⟩ := huffDecode_lit hl (by omega) hr
    obtain ⟨r2, hr2, hbits2⟩ := getbits_bitsLE hextra hbits1
    obtain ⟨r3, hr3, hbits3⟩ := huffDecode_dist hd hd' hbits2
    obtain ⟨r4, hr4, hbits4⟩ := getbits_bitsLE hdextra hbits3
    obtain ⟨r', hr', hbits'⟩ := ih (Nat.lt_of_succ_lt_succ hfuel) hbits4
    refine ⟨r', ?_, hbits'⟩
    have hlength : (data.take i).length = i :=
      length_take_of_le (by have := hm.inside; omega)
    have hlen' : ((lenBase.getD s 0 : Int) + (len - lenBase.getD s 0 : Nat)).toNat = len := by omega
    have hdist' : ((distBase.getD d 0 : Int) + (dist - distBase.getD d 0 : Nat)).toNat = dist := by
      omega
    rw [inflateBlock, hr1]
    simp only [bind, Except.bind]
    rw [if_neg (by omega), if_neg (by omega), if_neg (by omega), Nat.add_sub_cancel_left, hr2]
    dsimp only
    rw [hr3]
    dsimp only
    rw [if_neg (by omega), hr4]
    dsimp only
    rw [hlen', hdist', hlength, if_neg (Nat.not_lt.2 hm.dist_le),
      copyBack_take hm.dist_pos hm.dist_le len hm.inside hm.same]
    exact hr'

end Loop

/-! ## The whole of it -/

theorem Token.bits_pos (t : Token) : 0 < t.bits.length := by
  have hpos : ∀ s < 288, 0 < len fixedLit s := fun s hs => by
    rw [(fixedLit_word s hs).1]
    split_ifs <;> decide
  cases t with
  | lit b =>
    have := b.toNat_lt
    rw [Token.bits, wordBits, length_bitsBE]
    exact hpos _ (by omega)
  | copy length dist =>
    have hsym : (lenSym length).1 < 288 := by
      rw [lenSym]
      split
      · rename_i s hs
        have := (row_spec hs).1
        dsimp only
        omega
      · decide
    rw [Token.bits, length_append, length_append, wordBits, length_bitsBE]
    have := hpos _ hsym
    omega

theorem length_le_bits (ts : List Token) : ts.length ≤ (ts.flatMap Token.bits).length := by
  induction ts with
  | nil => exact Nat.le_refl 0
  | cons t ts ih =>
    have := t.bits_pos
    rw [flatMap_cons, length_append, length_cons]
    omega

section Insert

variable {ins : Chains → Nat → Chains} (hins : ∀ {c i}, Chains.Below c i → (ins c i).Below (i + 1))

include hins

theorem deflateWith_bits (data : List UInt8) : ∃ ts pad, Covers data 0 ts ∧ pad.length < 8 ∧
    (deflateWith data ins).flatMap byteBits = true :: (bitsLE 2 1 ++
      (ts.flatMap Token.bits ++ (wordBits fixedLit 256 ++ pad))) := by
  have hstart : (⟨[], 0, 0⟩ : BitW).Ok := ⟨by decide, by decide⟩
  obtain ⟨hok1, hbits1⟩ := putbit_bits hstart 1
  obtain ⟨hok2, hbits2⟩ := putbits_bits hok1 1 2
  have hbelow : Chains.Below (⟨fun _ => none, fun _ => none⟩ : Chains) 0 :=
    ⟨fun _ _ h => (by cases h), fun _ _ h => (by cases h)⟩
  obtain ⟨hok3, ts, hcov, hbits3⟩ := deflateLoop_covers hins hok2 hbelow (Nat.zero_le _)
    (show data.length < 0 + (data.length + 1) by omega)
  obtain ⟨hok4, hbits4⟩ := putbitsRev_bits hok3 0 7
  obtain ⟨pad, hshort, hpad⟩ := flushBits_bits hok4
  refine ⟨ts, pad, hcov, hshort, ?_⟩
  rw [deflateWith, hpad, hbits4, hbits3, hbits2, hbits1, wordBits_low (by decide) (by decide)]
  simp only [append_assoc]
  rfl

theorem inflate_deflateWith (data tail : List UInt8) :
    inflate (deflateWith data ins ++ tail) = .ok data := by
  obtain ⟨ts, pad, hcov, -, hbits⟩ := deflateWith_bits hins data
  have hfuel : ts.length < 8 * (deflateWith data ins ++ tail).length + 1 := by
    have hlen := congrArg List.length hbits
    have := length_le_bits ts
    rw [length_byteBits, length_cons, length_append, length_append] at hlen
    rw [length_append]
    omega
  have hr : (⟨deflateWith data ins ++ tail, 0, 0⟩ : BitR).bits = true :: (bitsLE 2 1 ++
      (ts.flatMap Token.bits ++ (wordBits fixedLit 256 ++ (pad ++ tail.flatMap byteBits)))) := by
    rw [BitR.bits, flatMap_append, hbits]
    simp only [cons_append, append_assoc]
    rfl
  obtain ⟨r₁, hr1, hbits1⟩ := getbit_cons hr
  obtain ⟨r2, hr2, hbits2⟩ := getbits_bitsLE (by decide) hbits1
  obtain ⟨lh, hlh, hl⟩ := huffBuild_spec fixedLit_lt fixedLit_length.le
  obtain ⟨dh, hdh, hd⟩ := huffBuild_spec fixedDist_lt (by decide)
  obtain ⟨r3, hr3, -⟩ := inflateBlock_covers hl hd hcov hfuel hbits2
  have hone : inflateOne (8 * (deflateWith data ins ++ tail).length + 1) ((1 : Nat) : Int) r2 [] =
      .ok (r3, data) := by
    have hzero : ¬ ((1 : Nat) : Int) = 0 := by decide
    have hone : ((1 : Nat) : Int) = 1 := rfl
    rw [take_zero] at hr3
    rw [inflateOne, if_neg hzero, if_pos hone, hlh, hdh]
    simp only [bind, Except.bind]
    exact hr3
  rw [inflate, inflateLoop, hr1]
  dsimp only
  rw [if_neg (by decide), hr2]
  dsimp only
  rw [if_neg (by decide), hone]
  rfl

end Insert

theorem deflate_bits (data : List UInt8) : ∃ ts pad, Covers data 0 ts ∧ pad.length < 8 ∧
    (deflate data).flatMap byteBits = true :: (bitsLE 2 1 ++
      (ts.flatMap Token.bits ++ (wordBits fixedLit 256 ++ pad))) := by
  rw [← deflateWith_insert]
  exact deflateWith_bits (fun h => h.insert data) data

theorem inflate_deflate (data tail : List UInt8) : inflate (deflate data ++ tail) = .ok data := by
  rw [← deflateWith_insert]
  exact inflate_deflateWith (fun h => h.insert data) data tail

/-- **The gzip round trip.** -/
theorem gzDecompress_gzCompress (data : List UInt8) : gzDecompress (gzCompress data) = .ok data := by
  have hne : 0 < (deflate data).length := by
    obtain ⟨ts, pad, -, -, hbits⟩ := deflate_bits data
    have hlen := congrArg List.length hbits
    rw [length_byteBits, length_cons] at hlen
    omega
  have hlen : (gzCompress data).length = 10 + (deflate data).length + 8 := by
    simp only [gzCompress, length_append, le32, length_cons, length_nil]
  have hdrop : (gzCompress data).drop 10 =
      deflate data ++ (le32 (crc32 data).toNat ++ le32 data.length) := by
    simp only [gzCompress, cons_append, nil_append, drop_succ_cons, drop_zero]
  have htrailer : ((gzCompress data).drop ((gzCompress data).length - 8)).take 4 =
      le32 (crc32 data).toNat := by
    have hsplit : (gzCompress data).length - 8 =
        ([0x1f, 0x8b, 8, 0, 0, 0, 0, 0, 0, 3] ++ deflate data).length := by
      rw [hlen, length_append]
      rfl
    rw [hsplit, gzCompress, drop_left]
    rfl
  have hflags : ∀ bit : UInt8, ¬ ((gzCompress data).getD 3 0 &&& bit ≠ 0) := fun bit h => h (by
    simp [gzCompress])
  have hmagic : ¬ ((gzCompress data).length < 18 ∨ (gzCompress data).getD 0 0 ≠ 0x1f ∨
      (gzCompress data).getD 1 0 ≠ 0x8b ∨ (gzCompress data).getD 2 0 ≠ 8) := by
    rintro (h | h | h | h)
    · omega
    all_goals exact h rfl
  rw [gzDecompress, if_neg hmagic]
  dsimp only
  rw [if_neg (fun h => hflags 4 h.1), if_neg (hflags 4), if_neg (hflags 8), if_neg (hflags 16),
    if_neg (hflags 2), if_neg (by omega), hdrop, inflate_deflate]
  simp only [bind, Except.bind]
  rw [if_pos htrailer.symm]
  rfl

end Verkos.Vgzip
