import Verkos.Vgzip.Headers

/-!
# Streams

`inflate` decodes what is valid in the dialect `vgzip` and nothing else: it has output for a stream
if and only if there is one, and it leaves its arrays if and only if some block's header makes it.
A stream of the format is valid in that dialect, so that `inflate` decodes all of them.
-/

namespace Verkos.Vgzip

open Lib.Bits Lib.Canonical Lib.Rfc1951
open List

/-- The check of a stored block is not looked at, and a header must keep within `lens`. -/
def vgzip : Dialect where
  stored _ _ := True
  header h := h.total ≤ 318

/-! ## Blocks with codes of their own -/

/-- The header is whole as far as the code for lengths, and its items keep within `lens`. -/
def HeaderSound (l : List Bool) : Prop :=
  ∃ (h : Header) (l' : List Bool), Starts h l l' ∧ ¬ Overfull h.cl h.total [] l'

variable {l : List Bool}

variable {h : Header} {bytes : List UInt8} {t : Nat} {final : Bool} {bs : List Block}

section Dynamic

variable {fuel : Nat} {r : BitR}

/-- Both codes are made of lengths that are there. -/
theorem readTokens_eq {lens : List Nat} {hlit : Nat} (hall : ∀ l ∈ lens, l < 16)
    (hlen : lens.length ≤ 318) (hlow : 257 ≤ hlit) (hhigh : hlit ≤ 288) :
    ∃ lh dh : Huff, Table (lens.take hlit) lh ∧ Table (lens.drop hlit) dh ∧
      ∀ fuel out r, readTokens fuel hlit out (lens, r) = inflateBlock lh dh fuel r out := by
  obtain ⟨lh, hlh, hl⟩ := huffBuild_table (fun l h => hall l (mem_of_mem_take h))
    (show (lens.take hlit).length ≤ 288 by rw [length_take]; omega)
  obtain ⟨dh, hdh, hd⟩ := huffBuild_table (fun l h => hall l (mem_of_mem_drop h))
    (show (lens.drop hlit).length ≤ 288 by rw [length_drop]; omega)
  refine ⟨lh, dh, hl, hd, fun fuel out r => ?_⟩
  rw [readTokens, hlh, hdh]
  rfl

theorem total_le (hf : h.Fields) : h.total < 321 := by
  have hlit := hf.hlit
  have hdist := hf.hdist
  rw [Header.total]
  omega

/-- A block with codes of its own is read. -/
theorem inflateOne_tokens {ts : List Lib.Rfc1951.Token} {out : List UInt8}
    (hf : h.Fields) (hits : ItemsValid h.cl h.total [] h.items) (hroom : h.total ≤ 318)
    (hts : TokensValid h.lit h.dist out ts) (hfuel : r.bits.length < fuel)
    (hr : r.bits = h.bits ++ tokenBits h.lit h.dist ts ++ l) :
    ∃ r' : BitR, inflateOne fuel 2 r out = .ok (r', ts.foldl Lib.Rfc1951.Token.output out) ∧ r'.bits = l := by
  have hturns := length_lt_tokenBits hts
  have hstart : Starts { h with items := [] } r.bits
      (h.items.flatMap (Item.bits h.cl) ++ (tokenBits h.lit h.dist ts ++ l)) := by
    refine ⟨⟨hf.hlit, hf.hdist, hf.cls, hf.small⟩, rfl, ?_⟩
    rw [hr, Header.bits, Header.bits]
    simp only [append_assoc, flatMap_nil, nil_append]
  obtain ⟨ch, r₁, ht, hbits1, -, hone⟩ := inflateOne_starts hstart fuel out
  have htotal := total_le hf
  obtain ⟨r2, hr2, hbits2⟩ := readLens_items ht hroom hits (Nat.zero_le _) htotal hbits1
  have hlen := items_length hits (Nat.zero_le _)
  have hall : ∀ l ∈ h.lens, l < 16 := items_lt (forall_mem_nil _)
  obtain ⟨lh, dh, hl, hd, hread⟩ := readTokens_eq hall (hlen.trans_le hroom) hf.hlit.1 hf.hlit.2
  have hfuel' : ts.length < fuel := by
    rw [hr, length_append, length_append] at hfuel
    omega
  obtain ⟨r', hr', hbits'⟩ := inflateBlock_tokens hl hd hts hfuel' hbits2
  refine ⟨r', ?_, hbits'⟩
  rw [hone, show Header.total { h with items := [] } = h.total from rfl, hr2]
  exact (hread _ _ _).trans hr'

theorem inflateOne_unsound (fuel : Nat) (out : List UInt8) (h : ¬ HeaderSound r.bits) :
    inflateOne fuel 2 r out = .error .fault := by
  by_cases hcut : ∀ h l, ¬ Starts h r.bits l
  · exact inflateOne_cut hcut fuel out
  · push Not at hcut
    obtain ⟨hd, l, hstart⟩ := hcut
    have hover : Overfull hd.cl hd.total [] l := by
      by_contra hno
      exact h ⟨hd, l, hstart, hno⟩
    obtain ⟨ch, r₁, ht, hbits1, -, hone⟩ := inflateOne_starts hstart fuel out
    have htotal := total_le hstart.1
    rw [hone, readLens_overfull ht hover (Nat.zero_le _) htotal hbits1]
    rfl

/-- Behind a sound header there is a block, or it is refused. -/
theorem inflateOne_sound (h : HeaderSound r.bits) (hfuel : r.bits.length < fuel)
    (out : List UInt8) : (∃ (h : Header) (ts : List Lib.Rfc1951.Token) (r' : BitR),
      inflateOne fuel 2 r out = .ok (r', ts.foldl Lib.Rfc1951.Token.output out) ∧
      (h.Fields ∧ ItemsValid h.cl h.total [] h.items ∧ h.total ≤ 318 ∧
        TokensValid h.lit h.dist out ts) ∧
      r.bits = h.bits ++ tokenBits h.lit h.dist ts ++ r'.bits ∧ (r.Begun → r'.Begun)) ∨
    inflateOne fuel 2 r out = .error .bad := by
  obtain ⟨hd, l, ⟨hf, hitems, hbits⟩, hno⟩ := h
  obtain ⟨ch, r₁, ht, hbits1, hbegun1, hone⟩ := inflateOne_starts ⟨hf, hitems, hbits⟩ fuel out
  have htotal : hd.total - ([] : List Nat).length < 321 := total_le hf
  have hnone : ∀ l ∈ ([] : List Nat), l < 16 := nofun
  have hshort : r₁.bits.length ≤ r.bits.length := by
    rw [hbits, hbits1, length_append]
    exact Nat.le_add_left _ _
  obtain ⟨its, r2, hr2, hv, hbits2, hlen, hbegun2⟩ | ⟨lens, r2, hr2, hall, hlen, hnil⟩ | hbad |
    ⟨-, hover⟩ := readLens_cases ht hnone (Nat.zero_le _) (Nat.zero_le _) htotal r₁
  · obtain ⟨lh, dh, hl, hd', hread⟩ := readTokens_eq (items_lt hnone) hlen hf.hlit.1 hf.hlit.2
    have hfuel' : r2.bits.length < fuel := by
      rw [hbits2, length_append] at hshort
      omega
    rw [hone, hr2]
    obtain ⟨ts, r', hr', hts, hbits'⟩ | hbad := inflateBlock_cases hl hd' out hfuel'
    · refine .inl ⟨{ hd with items := its }, ts, r', (hread _ _ _).trans hr',
        ⟨⟨hf.hlit, hf.hdist, hf.cls, hf.small⟩, hv, ?_, hts⟩, ?_, fun hr => ?_⟩
      · rw [items_length hv (Nat.zero_le _)] at hlen
        exact hlen
      · rw [hbits, ← hbits1, hbits2, hbits', Header.bits, Header.bits, hitems]
        simp only [append_assoc, flatMap_nil, nil_append]
        rfl
      · exact inflateBlock_begun hr' (hbegun2 (hbegun1 hr))
    · exact .inr ((hread _ _ _).trans hbad)
  · obtain ⟨lh, dh, -, -, hread⟩ := readTokens_eq hall hlen hf.hlit.1 hf.hlit.2
    rw [hone, hr2]
    exact .inr ((hread _ _ _).trans (inflateBlock_nil out hnil (Nat.zero_lt_of_lt hfuel)))
  · rw [hone, hbad]
    exact .inr rfl
  · rw [hbits1] at hover
    exact absurd hover hno

end Dynamic

/-! ## Stored blocks -/

section Stored

theorem ofLE_byteBits (b : UInt8) : ofLE (byteBits b) = b.toNat := ofLE_bitsLE b.toNat_lt

theorem byteBits_pair (a b : UInt8) : byteBits a ++ byteBits b = bitsLE 16 (a.toNat + b.toNat * 256) := by
  have hback := bitsLE_ofLE (byteBits a ++ byteBits b)
  have hlen : (byteBits a ++ byteBits b).length = 16 := by
    rw [length_append, byteBits, byteBits, length_bitsLE, length_bitsLE]
  have hlen' : (byteBits a).length = 8 := length_bitsLE _ _
  rw [hlen, ofLE_append, ofLE_byteBits, ofLE_byteBits, hlen', Nat.mul_comm] at hback
  exact hback.symm

/-- The bytes of a number of 16 bits. -/
def le16 (v : Nat) : List UInt8 := [UInt8.ofNat v, UInt8.ofNat (v / 256)]

theorem le16_bits {v : Nat} (h : v < 2 ^ 16) : (le16 v).flatMap byteBits = bitsLE 16 v := by
  have hv : (UInt8.ofNat v).toNat + (UInt8.ofNat (v / 256)).toNat * 256 = v := by
    rw [UInt8.toNat_ofNat', UInt8.toNat_ofNat']
    omega
  rw [le16, flatMap_cons, flatMap_singleton, byteBits_pair, hv]

theorem bytes_of_bits {data : List UInt8}
    (h : data.flatMap byteBits = bytes.flatMap byteBits ++ l) :
    ∃ tail, data = bytes ++ tail ∧ tail.flatMap byteBits = l := by
  induction bytes generalizing data with
  | nil => exact ⟨data, rfl, h⟩
  | cons b bytes ih =>
    cases data with
    | nil =>
      have hlen := congrArg List.length h
      rw [flatMap_cons, append_assoc, length_append, byteBits, length_bitsLE] at hlen
      cases hlen.trans (Nat.add_comm _ _)
    | cons a data =>
      rw [flatMap_cons, flatMap_cons, append_assoc] at h
      obtain ⟨hbyte, hrest⟩ := append_inj h ((length_bitsLE _ _).trans (length_bitsLE _ _).symm)
      obtain ⟨tail, rfl, htail⟩ := ih hrest
      have hab : a = b := by
        rw [← UInt8.toNat_inj, ← ofLE_byteBits, ← ofLE_byteBits, hbyte]
      exact ⟨tail, by rw [hab, cons_append], htail⟩

variable {fuel p : Nat} {r : BitR}

theorem pad_length (hp : (p + r.bits.length) % 8 = 0) (hr : r.Begun) :
    r.bitcnt < 8 ∧ (p + r.bitcnt) % 8 = 0 := by
  have hlen : r.bits.length = r.bitcnt + 8 * r.rest.length := by
    rw [BitR.bits, length_append, length_bitsLE, length_byteBits]
  exact ⟨hr, by omega⟩

/-- A stored block is read. -/
theorem inflateOne_bytes (fuel : Nat) (out : List UInt8) (hp : (p + 3 + r.bits.length) % 8 = 0)
    (hr : r.Begun) {pad : List Bool} {nlen : Nat}
    (hpad : pad.length < 8 ∧ (p + 3 + pad.length) % 8 = 0) (hlen : bytes.length < 2 ^ 16)
    (hnlen : nlen < 2 ^ 16) (hbits : r.bits = (Block.stored pad nlen bytes).body ++ l) :
    ∃ r' : BitR, inflateOne fuel 0 r out = .ok (r', out ++ bytes) ∧ r'.bits = l ∧ r'.Begun := by
  have hcnt := pad_length hp hr
  have hsame : (bitsLE r.bitcnt r.bitbuf).length = pad.length := by
    rw [length_bitsLE]
    omega
  rw [Block.body, append_assoc, BitR.bits] at hbits
  obtain ⟨-, hrest⟩ := append_inj hbits hsame
  have hbytes : r.rest.flatMap byteBits =
      (le16 bytes.length ++ (le16 nlen ++ bytes)).flatMap byteBits ++ l := by
    rw [hrest, flatMap_append, flatMap_append, le16_bits hlen, le16_bits hnlen]
    rfl
  obtain ⟨tail, htail, hl⟩ := bytes_of_bits hbytes
  refine ⟨⟨tail, 0, 0⟩, ?_, hl, (by decide : 0 < 8)⟩
  have hnum : (UInt8.ofNat bytes.length).toNat + (UInt8.ofNat (bytes.length / 256)).toNat * 256 =
      bytes.length := by
    rw [UInt8.toNat_ofNat', UInt8.toNat_ofNat']
    omega
  rw [inflateOne, if_pos rfl, htail]
  simp only [le16, cons_append, nil_append]
  rw [hnum, if_neg (by rw [length_append]; omega), drop_left, take_left]

/-- What a stored block can come to. -/
theorem inflateOne_stored_cases (fuel : Nat) (out : List UInt8)
    (hp : (p + 3 + r.bits.length) % 8 = 0) (hr : r.Begun) :
    (∃ (pad : List Bool) (nlen : Nat) (bytes : List UInt8) (r' : BitR),
      inflateOne fuel 0 r out = .ok (r', out ++ bytes) ∧
      (pad.length < 8 ∧ (p + 3 + pad.length) % 8 = 0) ∧ bytes.length < 2 ^ 16 ∧ nlen < 2 ^ 16 ∧
      r.bits = (Block.stored pad nlen bytes).body ++ r'.bits ∧ r'.Begun) ∨
    inflateOne fuel 0 r out = .error .bad := by
  rw [inflateOne, if_pos rfl]
  split
  · rename_i a b c d rest hrest
    dsimp only
    split
    · exact .inr rfl
    · rename_i hroom
      have ha := a.toNat_lt
      have hb := b.toNat_lt
      have hc := c.toNat_lt
      have hd := d.toNat_lt
      have hlen : (rest.take (a.toNat + b.toNat * 256)).length = a.toNat + b.toNat * 256 :=
        length_take_of_le (Nat.not_lt.1 hroom)
      refine .inl ⟨bitsLE r.bitcnt r.bitbuf, c.toNat + d.toNat * 256,
        rest.take (a.toNat + b.toNat * 256), _, rfl, ?_, ?_, by omega, ?_, (by decide : 0 < 8)⟩
      · rw [length_bitsLE]
        exact pad_length hp hr
      · rw [hlen]
        omega
      · have hsplit : rest = rest.take (a.toNat + b.toNat * 256) ++
            rest.drop (a.toNat + b.toNat * 256) := (take_append_drop _ _).symm
        rw [Block.body, hlen, ← byteBits_pair, ← byteBits_pair, BitR.bits, BitR.bits, hrest,
          flatMap_cons, flatMap_cons, flatMap_cons, flatMap_cons]
        conv_lhs => rw [hsplit, flatMap_append]
        simp only [append_assoc, bitsLE, nil_append]
        rfl
  · exact .inr rfl

end Stored

/-! ## Blocks -/

section Blocks

variable {fuel p : Nat} {r : BitR} {out : List UInt8}

theorem inflateOne_fixed (fuel : Nat) (out : List UInt8) : ∃ lh dh : Huff,
    Table Lib.Rfc1951.fixedLit lh ∧ Table Lib.Rfc1951.fixedDist dh ∧
      ∀ r, inflateOne fuel 1 r out = inflateBlock lh dh fuel r out := by
  have hlit : ∀ l ∈ fixedLit, l < 16 := by
    simp only [fixedLit, mem_append, mem_replicate]
    omega
  have hdist : ∀ l ∈ fixedDist, l < 16 := by
    simp only [fixedDist, mem_replicate]
    omega
  have hlen : fixedLit.length ≤ 288 := by
    simp only [fixedLit, length_append, length_replicate]
    decide
  obtain ⟨lh, hlh, hl⟩ := huffBuild_table hlit hlen
  obtain ⟨dh, hdh, hd⟩ := huffBuild_table hdist (by decide)
  refine ⟨lh, dh, hl, hd, fun r => ?_⟩
  rw [inflateOne, if_neg (by decide), if_pos rfl, hlh, hdh]
  rfl

/-- A valid block is read. -/
theorem inflateOne_block {b : Block} (hb : b.Valid vgzip p out)
    (hp : (p + 3 + r.bits.length) % 8 = 0) (hr : r.Begun) (hfuel : r.bits.length < fuel)
    (hbits : r.bits = b.body ++ l) :
    ∃ r' : BitR, inflateOne fuel (b.type : Nat) r out = .ok (r', b.output out) ∧ r'.bits = l ∧
      r'.Begun := by
  cases b with
  | stored pad nlen bytes =>
    obtain ⟨hpad, hlen, hnlen, -⟩ := hb
    exact inflateOne_bytes fuel out hp hr hpad hlen hnlen hbits
  | fixed ts =>
    obtain ⟨lh, dh, hl, hd, hone⟩ := inflateOne_fixed fuel out
    have hturns := length_lt_tokenBits hb
    have hfuel' : ts.length < fuel := by
      rw [hbits, length_append, Block.body] at hfuel
      omega
    obtain ⟨r', hr', hbits'⟩ := inflateBlock_tokens hl hd hb hfuel' hbits
    exact ⟨r', (hone r).trans hr', hbits', inflateBlock_begun hr' hr⟩
  | dynamic h ts =>
    obtain ⟨hf, hits, hroom, hts⟩ := hb
    obtain ⟨r', hr', hbits'⟩ := inflateOne_tokens hf hits hroom hts hfuel hbits
    refine ⟨r', hr', hbits', ?_⟩
    have hsound : HeaderSound r.bits := by
      by_contra hno
      have hfault := inflateOne_unsound fuel out hno
      rw [hfault] at hr'
      cases hr'
    obtain ⟨h', ts', r2, hr2, -, -, hbegun⟩ | hbad := inflateOne_sound hsound hfuel out
    · obtain ⟨rfl, -⟩ := Prod.mk.inj (Except.ok.inj (hr2.symm.trans hr'))
      exact hbegun hr
    · cases hbad.symm.trans hr'

/-- What a block's type can come to. -/
theorem inflateOne_cases (ht : t < 4) (hp : (p + 3 + r.bits.length) % 8 = 0)
    (hr : r.Begun) (hfuel : r.bits.length < fuel) (out : List UInt8) :
    (∃ (b : Block) (r' : BitR), inflateOne fuel (t : Nat) r out = .ok (r', b.output out) ∧
      b.type = t ∧ b.Valid vgzip p out ∧ r.bits = b.body ++ r'.bits ∧ r'.Begun) ∨
    inflateOne fuel (t : Nat) r out = .error .bad ∨
    inflateOne fuel (t : Nat) r out = .error .fault ∧ t = 2 ∧ ¬ HeaderSound r.bits := by
  match t with
  | 0 =>
    obtain ⟨pad, nlen, bytes, r', hr', hpad, hlen, hnlen, hbits, hbegun⟩ | hbad :=
      inflateOne_stored_cases fuel out hp hr
    · exact .inl ⟨.stored pad nlen bytes, r', hr', rfl, ⟨hpad, hlen, hnlen, trivial⟩, hbits, hbegun⟩
    · exact .inr (.inl hbad)
  | 1 =>
    obtain ⟨lh, dh, hl, hd, hone⟩ := inflateOne_fixed fuel out
    obtain ⟨ts, r', hr', hts, hbits⟩ | hbad := inflateBlock_cases hl hd out hfuel
    · exact .inl ⟨.fixed ts, r', (hone r).trans hr', rfl, hts, hbits, inflateBlock_begun hr' hr⟩
    · exact .inr (.inl ((hone r).trans hbad))
  | 2 =>
    by_cases hsound : HeaderSound r.bits
    · obtain ⟨h, ts, r', hr', hv, hbits, hbegun⟩ | hbad := inflateOne_sound hsound hfuel out
      · exact .inl ⟨.dynamic h ts, r', hr', rfl, hv, hbits, hbegun hr⟩
      · exact .inr (.inl hbad)
    · exact .inr (.inr ⟨inflateOne_unsound fuel out hsound, rfl, hsound⟩)
  | 3 => exact .inr (.inl rfl)

/-- A turn of the loop at a block's first three bits. -/
theorem inflateLoop_turn (fuel turns : Nat) (out : List UInt8) (ht : t < 4)
    (hbits : r.bits = final :: (bitsLE 2 t ++ l)) :
    ∃ r' : BitR, r'.bits = l ∧ (r.Begun → r'.Begun) ∧ inflateLoop fuel (turns + 1) r out =
      inflateOne fuel (t : Nat) r' out >>= fun q =>
        if final then .ok q.2 else inflateLoop fuel turns q.1 q.2 := by
  obtain ⟨r₁, hr1, hbits1⟩ := getbit_cons hbits
  obtain ⟨r2, hr2, hbits2⟩ := getbits_bitsLE (show t < 2 ^ 2 from ht) hbits1
  refine ⟨r2, hbits2, fun hr => ?_, ?_⟩
  · have hbegun := getbit_begun hr
    rw [hr1] at hbegun
    exact begun_of_getbits hr2 hbegun
  · have hfinal : ¬ (final.toNat : Int) < 0 := Int.not_lt.2 (Int.natCast_nonneg _)
    have htype : ¬ (t : Int) < 0 := Int.not_lt.2 (Int.natCast_nonneg _)
    rw [inflateLoop, hr1]
    dsimp only
    rw [if_neg hfinal, hr2]
    dsimp only
    rw [if_neg htype]
    cases inflateOne fuel (t : Nat) r2 out with
    | error e => rfl
    | ok q => cases final <;> rfl

theorem inflateLoop_short (fuel turns : Nat) (out : List UInt8) :
    (∃ (final : Bool) (t : Nat) (l : List Bool), t < 4 ∧ r.bits = final :: (bitsLE 2 t ++ l)) ∨
      inflateLoop fuel (turns + 1) r out = .error .bad := by
  obtain ⟨final, r₁, hr1, hbits1⟩ | ⟨hr1, -⟩ := getbit_cases r
  · obtain ⟨t, r2, -, ht, hbits2⟩ | ⟨-, r2, hr2, -⟩ := getbits_cases r₁ 2
    · exact .inl ⟨final, t, r2.bits, ht, by rw [hbits1, hbits2]⟩
    · refine .inr ?_
      have hfinal : ¬ (final.toNat : Int) < 0 := Int.not_lt.2 (Int.natCast_nonneg _)
      rw [inflateLoop, hr1]
      dsimp only
      rw [if_neg hfinal, hr2]
      rfl
  · refine .inr ?_
    rw [inflateLoop, hr1]
    rfl

end Blocks

/-! ## Streams -/

section Loop

variable {fuel p : Nat} {r : BitR} {out : List UInt8}

theorem length_blockBits (final : Bool) (b : Block) :
    (b.bits final).length = 3 + b.body.length := by
  rw [Block.bits, length_cons, length_append, length_bitsLE]
  omega

theorem type_lt (b : Block) : b.type < 4 := by
  cases b <;> (rw [Block.type]; decide)

/-- Blocks of which none is the last are read, and the loop goes on behind them. -/
theorem inflateLoop_blocks (hbs : BlocksValid vgzip p out bs)
    (hp : (p + r.bits.length) % 8 = 0) (hr : r.Begun) (hfuel : r.bits.length < fuel)
    (hbits : r.bits = blockBits bs ++ l) (turns : Nat) :
    ∃ r' : BitR, r'.bits = l ∧ r'.Begun ∧ inflateLoop fuel (turns + bs.length) r out =
      inflateLoop fuel turns r' (bs.foldl Block.output out) := by
  induction bs generalizing p r out with
  | nil => exact ⟨r, hbits, hr, rfl⟩
  | cons b bs ih =>
    obtain ⟨hb, hbs⟩ := hbs
    have hlen := length_blockBits false b
    have hfirst : r.bits = false :: (bitsLE 2 b.type ++ (b.body ++ (blockBits bs ++ l))) := by
      rw [hbits, blockBits, flatMap_cons, Block.bits, blockBits]
      simp only [append_assoc, cons_append]
    have hsize : r.bits.length = 3 + (b.body ++ (blockBits bs ++ l)).length := by
      rw [hfirst, length_cons, length_append, length_bitsLE]
      omega
    obtain ⟨r₁, hbits1, hbegun1, hturn⟩ :=
      inflateLoop_turn fuel (turns + bs.length) out (type_lt b) hfirst
    obtain ⟨r2, hone, hbits2, hbegun2⟩ := inflateOne_block hb
      (by rw [hbits1]; omega) (hbegun1 hr) (show r₁.bits.length < fuel by rw [hbits1]; omega) hbits1
    rw [length_append] at hsize
    have hsize2 : r2.bits.length = (blockBits bs ++ l).length := by rw [hbits2]
    obtain ⟨r', hbits', hbegun', hrest⟩ := ih (r := r2) hbs (by omega) hbegun2 (by omega) hbits2
    refine ⟨r', hbits', hbegun', ?_⟩
    rw [length_cons, ← Nat.add_assoc, hturn, hone]
    exact hrest

/-- What a run of the loop can come to. -/
theorem inflateLoop_cases {turns : Nat} (hp : (p + r.bits.length) % 8 = 0) (hr : r.Begun)
    (hfuel : r.bits.length < fuel) (hturns : r.bits.length < turns) (out : List UInt8) :
    (∃ (s : Stream) (l : List Bool), BlocksValid vgzip p out s.init ∧
      s.last.Valid vgzip (p + (blockBits s.init).length) (s.init.foldl Block.output out) ∧
      r.bits = s.bits ++ l ∧ inflateLoop fuel turns r out =
        .ok (s.last.output (s.init.foldl Block.output out))) ∨
    inflateLoop fuel turns r out = .error .bad ∨
    inflateLoop fuel turns r out = .error .fault ∧ ∃ (bs : List Block) (final : Bool)
      (l : List Bool), BlocksValid vgzip p out bs ∧
      r.bits = blockBits bs ++ final :: (bitsLE 2 2 ++ l) ∧ ¬ HeaderSound l := by
  induction turns generalizing p r out with
  | zero => exact absurd hturns (Nat.not_lt_zero _)
  | succ turns ih =>
    obtain ⟨final, t, l, ht, hbits⟩ | hbad := inflateLoop_short (r := r) fuel turns out
    · have hsize : r.bits.length = 3 + l.length := by
        rw [hbits, length_cons, length_append, length_bitsLE]
        omega
      obtain ⟨r₁, hbits1, hbegun1, hturn⟩ := inflateLoop_turn fuel turns out ht hbits
      obtain ⟨b, r2, hone, rfl, hb, hbits2, hbegun2⟩ | hbad | ⟨hfault, rfl, hno⟩ :=
        inflateOne_cases (p := p) ht (by rw [hbits1]; omega) (hbegun1 hr)
          (show r₁.bits.length < fuel by rw [hbits1]; omega) out
      · rw [hbits1] at hbits2
        rw [hturn, hone]
        cases final with
        | true =>
          refine .inl ⟨⟨[], b⟩, r2.bits, trivial, hb, ?_, rfl⟩
          rw [hbits, hbits2, Stream.bits, Block.bits]
          simp only [blockBits, flatMap_nil, nil_append, append_assoc, cons_append]
        | false =>
          have hlen := length_blockBits false b
          rw [hbits2, length_append] at hsize
          have hfirst : r.bits = b.bits false ++ r2.bits := by
            rw [hbits, hbits2, Block.bits]
            simp only [append_assoc, cons_append]
          obtain ⟨s, l', hinit, hlast, hbits', hok⟩ | hbad | ⟨hfault, bs, final, l', hbs, hbits', hno⟩ :=
            ih (p := p + (b.bits false).length) (r := r2) (by omega) hbegun2 (by omega) (by omega)
              (b.output out)
          · refine .inl ⟨⟨b :: s.init, s.last⟩, l', ⟨hb, hinit⟩, ?_, ?_, hok⟩
            · rw [blockBits, flatMap_cons, length_append, ← Nat.add_assoc]
              exact hlast
            · rw [hfirst, hbits', Stream.bits, Stream.bits, blockBits, blockBits, flatMap_cons]
              simp only [append_assoc]
          · exact .inr (.inl hbad)
          · refine .inr (.inr ⟨hfault, b :: bs, final, l', ⟨hb, hbs⟩, ?_, hno⟩)
            rw [hfirst, hbits', blockBits, blockBits, flatMap_cons, append_assoc]
      · rw [hturn, hbad]
        exact .inr (.inl rfl)
      · rw [hturn, hfault]
        exact .inr (.inr ⟨rfl, [], final, l, trivial, hbits, hbits1 ▸ hno⟩)
    · exact .inr (.inl hbad)

end Loop

section Inflate

variable {data out : List UInt8}

theorem start_bits (data : List UInt8) : (⟨data, 0, 0⟩ : BitR).bits = data.flatMap byteBits := rfl

theorem start_begun (data : List UInt8) : (⟨data, 0, 0⟩ : BitR).Begun := (by decide : 0 < 8)

theorem start_length (data : List UInt8) : (⟨data, 0, 0⟩ : BitR).bits.length = 8 * data.length := by
  rw [start_bits, length_byteBits]

theorem blocks_length (bs : List Block) : bs.length ≤ (blockBits bs).length := by
  induction bs with
  | nil => exact Nat.le_refl 0
  | cons b bs ih =>
    have hlen := length_blockBits false b
    rw [blockBits] at ih ⊢
    rw [flatMap_cons, length_append, length_cons]
    omega

theorem inflate_stream {s : Stream} (hs : s.Valid vgzip)
    (hbits : data.flatMap byteBits = s.bits ++ l) : inflate data = .ok s.output := by
  obtain ⟨hinit, hlast⟩ := hs
  have hsize := length_byteBits data
  have hcount := blocks_length s.init
  have hlen := length_blockBits true s.last
  have hstart : (⟨data, 0, 0⟩ : BitR).bits = blockBits s.init ++ (s.last.bits true ++ l) := by
    rw [start_bits, hbits, Stream.bits, append_assoc]
  have htotal : 8 * data.length = (blockBits s.init).length + (3 + s.last.body.length + l.length) := by
    rw [← hsize, hbits, Stream.bits, length_append, length_append, hlen]
    omega
  obtain ⟨turns, hturns⟩ : ∃ turns, 8 * data.length + 1 = turns + 1 + s.init.length :=
    ⟨8 * data.length - s.init.length, by omega⟩
  have hfuel : (⟨data, 0, 0⟩ : BitR).bits.length < 8 * data.length + 1 := by
    rw [start_length]
    omega
  obtain ⟨r₁, hbits1, hbegun1, hloop⟩ := inflateLoop_blocks hinit (by rw [start_length]; omega)
    (start_begun data) hfuel hstart (turns + 1)
  have hfirst : r₁.bits = true :: (bitsLE 2 s.last.type ++ (s.last.body ++ l)) := by
    rw [hbits1, Block.bits]
    simp only [append_assoc, cons_append]
  obtain ⟨r2, hbits2, hbegun2, hturn⟩ :=
    inflateLoop_turn (8 * data.length + 1) turns (s.init.foldl Block.output []) (type_lt s.last) hfirst
  have hleft : r2.bits.length = s.last.body.length + l.length := by
    rw [hbits2, length_append]
  obtain ⟨r3, hone, -, -⟩ := inflateOne_block hlast (by omega) (hbegun2 hbegun1)
    (show r2.bits.length < 8 * data.length + 1 by omega) hbits2
  rw [inflate, show inflateLoop (8 * data.length + 1) (8 * data.length + 1) ⟨data, 0, 0⟩ [] =
    inflateLoop (8 * data.length + 1) (turns + 1 + s.init.length) ⟨data, 0, 0⟩ [] by rw [← hturns],
    hloop, hturn, hone]
  rfl

/-- What `inflate` can come to: the output of a stream, a refusal, or a header that takes it out of
its arrays. It always comes to one of them. -/
theorem inflate_cases (data : List UInt8) :
    (∃ (s : Stream) (l : List Bool), s.Valid vgzip ∧ data.flatMap byteBits = s.bits ++ l ∧
      inflate data = .ok s.output) ∨ inflate data = .error .bad ∨
    inflate data = .error .fault ∧ ∃ (bs : List Block) (final : Bool) (l : List Bool),
      BlocksValid vgzip 0 [] bs ∧
      data.flatMap byteBits = blockBits bs ++ final :: (bitsLE 2 2 ++ l) ∧ ¬ HeaderSound l := by
  have hfuel : (⟨data, 0, 0⟩ : BitR).bits.length < 8 * data.length + 1 := by
    rw [start_length]
    omega
  obtain ⟨s, l, hinit, hlast, hbits, hok⟩ | hbad | hfault := inflateLoop_cases (p := 0)
    (by rw [start_length]; omega) (start_begun data) hfuel hfuel []
  · rw [Nat.zero_add] at hlast
    exact .inl ⟨s, l, ⟨hinit, hlast⟩, hbits, hok⟩
  · exact .inr (.inl hbad)
  · exact .inr (.inr hfault)

/-- A header that is not sound takes `inflate` out of its arrays. -/
theorem inflate_unsound (hbs : BlocksValid vgzip 0 [] bs)
    (hbits : data.flatMap byteBits = blockBits bs ++ final :: (bitsLE 2 2 ++ l))
    (hno : ¬ HeaderSound l) : inflate data = .error .fault := by
  have hsize := length_byteBits data
  have hcount := blocks_length bs
  have hmore : (blockBits bs).length < 8 * data.length := by
    rw [← hsize, hbits, length_append, length_cons]
    omega
  obtain ⟨turns, hturns⟩ : ∃ turns, 8 * data.length + 1 = turns + 1 + bs.length :=
    ⟨8 * data.length - bs.length, by omega⟩
  have hfuel : (⟨data, 0, 0⟩ : BitR).bits.length < 8 * data.length + 1 := by
    rw [start_length]
    omega
  obtain ⟨r₁, hbits1, -, hloop⟩ := inflateLoop_blocks hbs (by rw [start_length]; omega)
    (start_begun data) hfuel hbits (turns + 1)
  obtain ⟨r2, hbits2, -, hturn⟩ := inflateLoop_turn (8 * data.length + 1) turns
    (bs.foldl Block.output []) (by decide) hbits1
  rw [inflate, show inflateLoop (8 * data.length + 1) (8 * data.length + 1) ⟨data, 0, 0⟩ [] =
    inflateLoop (8 * data.length + 1) (turns + 1 + bs.length) ⟨data, 0, 0⟩ [] by rw [← hturns],
    hloop, hturn]
  have hfault : inflateOne (8 * data.length + 1) ((2 : Nat) : Int) r2 (bs.foldl Block.output []) =
      .error .fault := inflateOne_unsound _ _ (hbits2 ▸ hno)
  rw [hfault]
  rfl

theorem rfc1951_within : rfc1951.Within vgzip where
  stored _ _ _ := trivial
  header h hf hh := by
    have hlit := hh.1
    have hdist := hf.hdist
    have htotal : h.total = h.hlit + h.hdist := rfl
    exact (by omega : h.total ≤ 318)

/-- **`inflate` decodes every stream of the format.** -/
theorem inflate_rfc1951 {s : Stream} (hs : s.Valid rfc1951) {l : List Bool}
    (hbits : data.flatMap byteBits = s.bits ++ l) : inflate data = .ok s.output :=
  inflate_stream (hs.within rfc1951_within) hbits

/-- A stored block, codes whose lengths run on from the one into the other, and a match that copies
what it puts out; a byte follows. -/
theorem inflate_rfc1951_blocks : inflate [0, 1, 0, 254, 255, 98, 20, 131, 133, 0, 0, 0, 0, 128, 88,
    243, 151, 232, 89, 7, 4, 0, 255] = .ok [98, 97, 98, 97, 98, 97, 97, 97, 97] :=
  inflate_rfc1951 (s := ⟨[.stored [false, false, false, false, false] 65534 [98],
      .dynamic ⟨259, 4, [2, 0, 1, 0, 0, 0, 0, 0, 0, 0, 0, 0, 0, 0, 0, 2],
        [⟨18, 86⟩, ⟨2, 0⟩, ⟨18, 127⟩, ⟨18, 9⟩, ⟨2, 0⟩, ⟨16, 3⟩]⟩ [.lit 97, .copy 258 0 1 0]],
      .fixed [.copy 257 0 0 0]⟩) (l := false :: byteBits 255) (by decide +kernel) (by decide +kernel)

end Inflate

end Verkos.Vgzip
