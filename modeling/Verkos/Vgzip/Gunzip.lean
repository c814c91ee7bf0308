import Verkos.Vgzip.Inside
import Mathlib.Data.List.Infix

/-!
# Decompressing anything

`gz_decompress` comes to an end on every input, and what it returns has the checksum that is there.
Two things it does not do. Nothing looks at the numbers of a header that is cut off or asks for too
many lengths, and the decoder leaves its arrays; and the checksum is looked for eight bytes in front
of the end, wherever the compressed data have ended, so that a file that has lost some of its last
bytes passes if four others happen to be the checksum. These are all: `gzDecompress_survives` is
exact.
-/

namespace Verkos.Vgzip

open Lib.Bits Lib.Canonical Lib.Rfc1951
open List

/-- What a decompressor owes its caller on an input. -/
structure Survives (data : List UInt8) : Prop where
  terminates : Arrays.gzDecompress data ≠ .error .fuel
  inside : Arrays.gzDecompress data ≠ .error .fault
  whole : ∀ x, data <+: gzCompress x → data ≠ gzCompress x →
    ∃ e, Arrays.gzDecompress data = .error e
  checked : ∀ out, Arrays.gzDecompress data = .ok out →
    le32 (crc32 out).toNat = (data.drop (data.length - 8)).take 4

/-- Every block with codes of its own that the data come to, behind blocks that are read, has a
header that is sound. -/
def HeadersSound (data : List UInt8) : Prop :=
  Arrays.Magic data → Arrays.fieldsEnd data < data.length →
    ∀ (bs : List Block) (final : Bool) (l : List Bool), BlocksValid vgzip 0 [] bs →
      (data.drop (Arrays.fieldsEnd data)).flatMap byteBits =
        blockBits bs ++ final :: (bitsLE 2 2 ++ l) → HeaderSound l

/-- A file that has lost some of its last eight bytes, with the checksum where it is looked for. -/
def Shifted (data : List UInt8) : Prop :=
  ∃ x, data <+: gzCompress x ∧ data ≠ gzCompress x ∧ 18 ≤ data.length ∧
    10 + (deflate x).length ≤ data.length ∧
    (data.drop (data.length - 8)).take 4 = le32 (crc32 x).toNat

/-! ## Files that are cut off -/

section Cut

variable {data x : List UInt8}

/-- What is read of a block of tokens in the fixed codes does not depend on how it was found. -/
theorem tokens_rest {ts : List Lib.Rfc1951.Token} {ts' : List Token} {pad l : List Bool}
    (hv : TokensValid Lib.Rfc1951.fixedLit Lib.Rfc1951.fixedDist [] ts) (hcov : Covers x 0 ts')
    {r : BitR} (hbits : r.bits = tokenBits Lib.Rfc1951.fixedLit Lib.Rfc1951.fixedDist ts ++ l)
    (hbits' : r.bits = ts'.flatMap Token.bits ++ (wordBits fixedLit 256 ++ pad)) : l = pad := by
  obtain ⟨lh, dh, hl, hd, -⟩ := inflateOne_fixed 0 []
  obtain ⟨r₁, hr1, hrest1⟩ := inflateBlock_tokens hl hd hv
    (show ts.length < ts.length + ts'.length + 1 by omega) hbits
  obtain ⟨r2, hr2, hrest2⟩ := inflateBlock_covers hl.built hd.built hcov
    (show ts'.length < ts.length + ts'.length + 1 by omega) hbits'
  rw [take_zero, hr1] at hr2
  obtain ⟨rfl, -⟩ := Prod.mk.inj (Except.ok.inj hr2)
  exact hrest1.symm.trans hrest2

theorem inflate_cut {head tail : List UInt8} (h : deflate x = head ++ tail) (hne : tail ≠ [])
    (out : List UInt8) : inflate head ≠ .ok out := by
  intro hok
  obtain ⟨⟨init, last⟩, l, hs, hbits, -⟩ | hbad | ⟨hfault, -⟩ := inflate_cases head
  · obtain ⟨ts, pad, hcov, hshort, hdeflate⟩ := deflate_bits x
    rw [h, flatMap_append, hbits, append_assoc, Stream.bits] at hdeflate
    cases init with
    | cons b bs =>
      rw [blockBits, flatMap_cons, Block.bits] at hdeflate
      simp only [cons_append] at hdeflate
      cases (List.cons.inj hdeflate).1
    | nil =>
      rw [blockBits, flatMap_nil, nil_append, Block.bits, cons_append,
        append_assoc] at hdeflate
      obtain ⟨htype, hrest⟩ := append_inj (List.cons.inj hdeflate).2
        ((length_bitsLE _ _).trans (length_bitsLE _ _).symm)
      cases last with
      | stored pad' nlen bytes => exact absurd (show bitsLE 2 0 = bitsLE 2 1 from htype) (by decide)
      | dynamic hdr ts' => exact absurd (show bitsLE 2 2 = bitsLE 2 1 from htype) (by decide)
      | fixed ts' =>
        -- a reader at these bits, however it came there
        have hstart : (⟨deflate x, 0, 0⟩ : BitR).bits = true :: (bitsLE 2 1 ++
            (ts.flatMap Token.bits ++ (wordBits fixedLit 256 ++ pad))) := by
          rw [start_bits, h, flatMap_append, hbits, append_assoc, Stream.bits, ← hdeflate]
          rw [blockBits, flatMap_nil, nil_append, Block.bits, cons_append,
            append_assoc]
        obtain ⟨r₁, hr1, -⟩ := inflateLoop_turn 0 0 [] (by decide) hstart
        have hsame := tokens_rest hs.2 hcov (hr1.trans hrest.symm) hr1
        have hlen := congrArg List.length hsame
        rw [length_append, length_byteBits] at hlen
        have hpos := length_pos_iff.2 hne
        omega
  · rw [hbad] at hok
    cases hok
  · rw [hfault] at hok
    cases hok

theorem fieldsEnd_cut (h : data <+: gzCompress x) (hlen : 18 ≤ data.length) :
    Arrays.Magic data ∧ Arrays.fieldsEnd data = 10 := by
  have hget : ∀ i < 10, data.getD i 0 = (gzCompress x).getD i 0 := fun i hi => by
    obtain ⟨rest, hrest⟩ := h
    rw [← hrest, getD_append _ _ _ _ (by omega)]
  have h3 : data.getD 3 0 = 0 := hget 3 (by decide)
  refine ⟨⟨hlen, hget 0 (by decide), hget 1 (by decide), hget 2 (by decide)⟩, ?_⟩
  rw [Arrays.fieldsEnd, h3]
  rfl

theorem drop_cut (h : data <+: gzCompress x) :
    data.drop 10 <+: deflate x ++ (le32 (crc32 x).toNat ++ le32 x.length) := by
  have hdrop : (gzCompress x).drop 10 = deflate x ++ (le32 (crc32 x).toNat ++ le32 x.length) := by
    simp only [gzCompress, cons_append, nil_append, drop_succ_cons, drop_zero]
  rw [← hdrop]
  exact h.drop 10

theorem gzDecompress_cut (h : data <+: gzCompress x) (hne : data ≠ gzCompress x)
    {out : List UInt8} (hok : gzDecompress data = .ok out) : Shifted data := by
  rw [Arrays.gzDecompress_fields] at hok
  split at hok
  · rename_i hm
    have hlen : 18 ≤ data.length := hm.1
    obtain ⟨-, hend⟩ := fieldsEnd_cut h hlen
    rw [hend, if_neg (by omega)] at hok
    obtain ⟨rest, hrest⟩ := drop_cut h
    cases hinf : inflate (data.drop 10) with
    | error e =>
      rw [hinf] at hok
      cases hok
    | ok out' =>
      rw [hinf] at hok
      have hroom : (deflate x).length ≤ (data.drop 10).length := by
        by_contra hshort
        obtain ⟨tail, htail⟩ := prefix_of_prefix_length_le ⟨rest, hrest⟩
          (prefix_append (deflate x) _) (by omega)
        refine inflate_cut htail.symm (fun hnil => ?_) out' hinf
        rw [hnil, append_nil] at htail
        rw [htail] at hshort
        exact hshort (Nat.le_refl _)
      obtain ⟨tail, htail⟩ := prefix_of_prefix_length_le (prefix_append (deflate x) _)
        ⟨rest, hrest⟩ hroom
      rw [← htail, inflate_deflate] at hinf
      cases hinf
      have hcrc : le32 (crc32 x).toNat = (data.drop (data.length - 8)).take 4 := by
        by_contra hno
        rw [Lib.Indexed.ok_bind, if_neg hno] at hok
        cases hok
      rw [length_drop] at hroom
      exact ⟨x, h, hne, hlen, by omega, hcrc.symm⟩
  · cases hok

end Cut

/-! ## Any file -/

section Any

variable {data : List UInt8}

theorem gzDecompress_shifted (h : Shifted data) : ∃ x, data <+: gzCompress x ∧
    data ≠ gzCompress x ∧ gzDecompress data = .ok x := by
  obtain ⟨x, hpre, hne, hlen, hroom, hcrc⟩ := h
  refine ⟨x, hpre, hne, ?_⟩
  obtain ⟨hm, hend⟩ := fieldsEnd_cut hpre hlen
  obtain ⟨rest, hrest⟩ := drop_cut hpre
  have hroom' : (deflate x).length ≤ (data.drop 10).length := by
    rw [length_drop]
    omega
  obtain ⟨tail, htail⟩ := prefix_of_prefix_length_le (prefix_append (deflate x) _)
    ⟨rest, hrest⟩ hroom'
  rw [Arrays.gzDecompress_fields, if_pos hm, hend, if_neg (by omega), ← htail, inflate_deflate,
    Lib.Indexed.ok_bind, if_pos hcrc.symm]

/-- What `gz_decompress` returns without a fault, and when it has one. -/
theorem gzDecompress_cases (data : List UInt8) : (∃ out, gzDecompress data = .ok out ∧
      le32 (crc32 out).toNat = (data.drop (data.length - 8)).take 4) ∨
    gzDecompress data = .error .bad ∨ gzDecompress data = .error .fault ∧ ¬ HeadersSound data := by
  rw [Arrays.gzDecompress_fields]
  split
  · rename_i hm
    split
    · exact .inr (.inl rfl)
    · rename_i hroom
      obtain ⟨s, l, -, -, hok⟩ | hbad | ⟨hfault, bs, final, l, hbs, hbits, hno⟩ :=
        inflate_cases (data.drop (Arrays.fieldsEnd data))
      · rw [hok, Lib.Indexed.ok_bind]
        split
        · rename_i hcrc
          exact .inl ⟨_, rfl, hcrc⟩
        · exact .inr (.inl rfl)
      · rw [hbad]
        exact .inr (.inl rfl)
      · rw [hfault]
        exact .inr (.inr ⟨rfl, fun h => hno (h hm (Nat.not_le.1 hroom) bs final l hbs hbits)⟩)
  · exact .inr (.inl rfl)

theorem gzDecompress_unsound (h : ¬ HeadersSound data) : gzDecompress data = .error .fault := by
  simp only [HeadersSound, not_forall] at h
  obtain ⟨hm, hroom, bs, final, l, hbs, hbits, hno⟩ := h
  rw [Arrays.gzDecompress_fields, if_pos hm, if_neg (Nat.not_le.2 hroom),
    inflate_unsound hbs hbits hno]
  rfl

/-- **Decompressing survives an input exactly when its headers are sound and it is not a shifted
file.** -/
theorem gzDecompress_survives (data : List UInt8) :
    Survives data ↔ HeadersSound data ∧ ¬ Shifted data := by
  constructor
  · rintro ⟨-, hinside, hwhole, -⟩
    rw [Arrays.gzDecompress_eq] at hinside hwhole
    refine ⟨?_, fun hsh => ?_⟩
    · by_contra hno
      exact hinside (gzDecompress_unsound hno)
    · obtain ⟨x, hpre, hne, hok⟩ := gzDecompress_shifted hsh
      obtain ⟨e, he⟩ := hwhole x hpre hne
      rw [hok] at he
      cases he
  · rintro ⟨hsound, hno⟩
    have hcases := gzDecompress_cases data
    rw [← Arrays.gzDecompress_eq] at hcases
    refine ⟨?_, ?_, fun x hpre hne => ?_, fun out hok => ?_⟩
    · obtain ⟨out, hok, -⟩ | hbad | ⟨hfault, -⟩ := hcases
      · rw [hok]
        exact nofun
      · rw [hbad]
        exact nofun
      · rw [hfault]
        exact nofun
    · obtain ⟨out, hok, -⟩ | hbad | ⟨-, hun⟩ := hcases
      · rw [hok]
        exact nofun
      · rw [hbad]
        exact nofun
      · exact absurd hsound hun
    · cases hres : Arrays.gzDecompress data with
      | error e => exact ⟨e, rfl⟩
      | ok out =>
        rw [Arrays.gzDecompress_eq] at hres
        exact absurd (gzDecompress_cut hpre hne hres) hno
    · obtain ⟨out', hok', hcrc⟩ | hbad | ⟨hfault, -⟩ := hcases
      · cases hok.symm.trans hok'
        exact hcrc
      · cases hbad.symm.trans hok
      · cases hfault.symm.trans hok

theorem deflate_nil : deflate [] = [3, 0] := by decide +kernel

theorem crc32_nil : le32 (crc32 []).toNat = [0, 0, 0, 0] := by decide +kernel

theorem gzCompress_nil : gzCompress [] =
    [0x1f, 0x8b, 8, 0, 0, 0, 0, 0, 0, 3, 3, 0, 0, 0, 0, 0, 0, 0, 0, 0] := by
  rw [gzCompress, deflate_nil, crc32_nil]
  rfl

/-- The compressed empty file without its last byte passes, and a header that is cut off leaves
`count`. -/
theorem gzDecompress_not_survives :
    ¬ Survives [0x1f, 0x8b, 8, 0, 0, 0, 0, 0, 0, 3, 3, 0, 0, 0, 0, 0, 0, 0, 0] ∧
      ¬ Survives [0x1f, 0x8b, 8, 0, 0, 0, 0, 0, 0, 3, 5, 0xe0, 1, 0, 0, 0, 0, 0] := by
  constructor
  · intro h
    have hpre : [0x1f, 0x8b, 8, 0, 0, 0, 0, 0, 0, 3, 3, 0, 0, 0, 0, 0, 0, 0, 0] <+: gzCompress [] := by
      rw [gzCompress_nil]
      exact ⟨[0], rfl⟩
    have hne : [0x1f, 0x8b, 8, 0, 0, 0, 0, 0, 0, 3, 3, 0, 0, 0, 0, 0, 0, 0, 0] ≠ gzCompress [] := by
      rw [gzCompress_nil]
      decide
    obtain ⟨e, he⟩ := h.whole [] hpre hne
    have hok : (gzDecompress [0x1f, 0x8b, 8, 0, 0, 0, 0, 0, 0, 3, 3, 0, 0, 0, 0, 0, 0, 0,
        0]).toOption = some [] := by
      decide +kernel
    rw [← Arrays.gzDecompress_eq, he] at hok
    cases hok
  · intro h
    have hfault : (match gzDecompress [0x1f, 0x8b, 8, 0, 0, 0, 0, 0, 0, 3, 5, 0xe0, 1, 0, 0, 0, 0,
        0] with
      | .ok _ => false
      | .error e => decide (e = .fault)) = true := by
      decide +kernel
    have hinside := h.inside
    rw [Arrays.gzDecompress_eq] at hinside
    revert hfault hinside
    cases gzDecompress [0x1f, 0x8b, 8, 0, 0, 0, 0, 0, 0, 3, 5, 0xe0, 1, 0, 0, 0, 0, 0] with
    | ok out => exact nofun
    | error e => exact fun hfault hinside => hinside (congrArg _ (of_decide_eq_true hfault))

end Any

end Verkos.Vgzip
