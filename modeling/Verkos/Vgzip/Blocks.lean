import Verkos.Vgzip.Symbols

/-!
# The tokens of a block

What `inflate_block` makes of a block, in both directions. Tokens that are valid are read to their
end and add their output; and where the code goes on behind a block, there were tokens. In between
lie the data that is refused, which is all that has no end.
-/

namespace Verkos.Vgzip

open Lib.Bits Lib.Canonical Lib.Rfc1951

theorem len_row {s : Nat} (h : s < 286) (h' : 257 ≤ s) :
    lenBase.getD (s - 257) 0 = lengthBase s ∧ lenExtra.getD (s - 257) 0 = lengthExtra s := by
  have hrows : ∀ t < 29, lenBase.getD t 0 = lengthBase (257 + t) ∧
      lenExtra.getD t 0 = lengthExtra (257 + t) := by
    decide
  have hrow := hrows (s - 257) (by omega)
  rwa [Nat.add_sub_cancel' h'] at hrow

theorem dist_row : ∀ s < 30, distBase.getD s 0 = Lib.Rfc1951.distBase s ∧
    distExtra.getD s 0 = Lib.Rfc1951.distExtra s := by
  decide

theorem copyBack_eq (dist n : Nat) (out : List UInt8) : copyBack dist n out = copyMatch dist n out := by
  induction n generalizing out with
  | zero => rfl
  | succ n ih => exact ih _

variable {fuel : Nat} {r : BitR} {out : List UInt8}

theorem inflateBlock_nil {lh dh : Huff} (out : List UInt8)
    (hr : r.bits = []) (hfuel : 0 < fuel) : inflateBlock lh dh fuel r out = .error .bad := by
  obtain ⟨fuel, rfl⟩ := Nat.exists_eq_succ_of_ne_zero hfuel.ne'
  rw [inflateBlock, huffDecode_nil hr]
  rfl

section Tokens

variable {lit dist : List Nat} {lh dh : Huff}

/-- A block of tokens is read to its end. -/
theorem inflateBlock_tokens (hl : Table lit lh) (hd : Table dist dh) {ts : List Lib.Rfc1951.Token}
    {l : List Bool} (hv : TokensValid lit dist out ts)
    (hfuel : ts.length < fuel) (hr : r.bits = tokenBits lit dist ts ++ l) :
    ∃ r' : BitR, inflateBlock lh dh fuel r out = .ok (r', ts.foldl Lib.Rfc1951.Token.output out) ∧
      r'.bits = l := by
  induction ts generalizing fuel out r with
  | nil =>
    obtain ⟨fuel, rfl⟩ := Nat.exists_eq_succ_of_ne_zero (Nat.ne_of_gt hfuel)
    obtain ⟨r', hr', hbits⟩ := hl.decode hv hr
    refine ⟨r', ?_, hbits⟩
    rw [inflateBlock, hr']
    rfl
  | cons t ts ih =>
    obtain ⟨fuel, rfl⟩ := Nat.exists_eq_succ_of_ne_zero (Nat.ne_of_gt (Nat.zero_lt_of_lt hfuel))
    obtain ⟨ht, hts⟩ := hv
    rw [tokenBits_cons, List.append_assoc] at hr
    cases t with
    | lit b =>
      obtain ⟨r₁, hr1, hbits⟩ := hl.decode ht hr
      obtain ⟨r', hr', hbits'⟩ := ih hts (Nat.lt_of_succ_lt_succ hfuel) hbits
      have hb := b.toNat_lt
      refine ⟨r', ?_, hbits'⟩
      rw [inflateBlock, hr1]
      simp only [bind, Except.bind]
      rw [if_neg (by omega), if_pos hb, UInt8.ofNat_toNat]
      exact hr'
    | copy sym extra dsym dextra =>
      obtain ⟨⟨hsym, hlow, hhigh, hextra⟩, ⟨hdsym, hdhigh, hdextra⟩, hback⟩ := ht
      obtain ⟨hbase, hbits⟩ := len_row hhigh hlow
      obtain ⟨hdbase, hdbits⟩ := dist_row dsym hdhigh
      rw [Lib.Rfc1951.Token.bits] at hr
      simp only [List.append_assoc] at hr
      obtain ⟨r₁, hr1, hbits1⟩ := hl.decode hsym hr
      obtain ⟨r2, hr2, hbits2⟩ := getbits_bitsLE hextra hbits1
      obtain ⟨r3, hr3, hbits3⟩ := hd.decode hdsym hbits2
      obtain ⟨r4, hr4, hbits4⟩ := getbits_bitsLE hdextra hbits3
      obtain ⟨r', hr', hbits'⟩ := ih hts (Nat.lt_of_succ_lt_succ hfuel) hbits4
      refine ⟨r', ?_, hbits'⟩
      rw [inflateBlock, hr1]
      simp only [bind, Except.bind]
      rw [if_neg (by omega), if_neg (by omega), if_neg (by omega), hbits, hr2]
      dsimp only
      rw [hr3]
      dsimp only
      rw [if_neg (by omega), hdbits, hr4]
      dsimp only
      rw [hbase, hdbase, ← Int.natCast_add, ← Int.natCast_add, Int.toNat_natCast, Int.toNat_natCast,
        if_neg (Nat.not_lt.2 hback), copyBack_eq]
      exact hr'

/-- Where a block of tokens has been read there was one. -/
theorem inflateBlock_cases (hl : Table lit lh) (hd : Table dist dh)
    (out : List UInt8) (hfuel : r.bits.length < fuel) : (∃ (ts : List Lib.Rfc1951.Token) (r' : BitR),
      inflateBlock lh dh fuel r out = .ok (r', ts.foldl Lib.Rfc1951.Token.output out) ∧
      TokensValid lit dist out ts ∧ r.bits = tokenBits lit dist ts ++ r'.bits) ∨
    inflateBlock lh dh fuel r out = .error .bad := by
  induction fuel generalizing out r with
  | zero => exact absurd hfuel (Nat.not_lt_zero _)
  | succ fuel ih =>
    rw [inflateBlock]
    obtain ⟨sym, r₁, hr1, hsym, hbits1⟩ | hbad := hl.decode_cases r
    · have hpos := length_codeBits_pos hsym
      rw [hbits1, List.length_append] at hfuel
      rw [hr1]
      simp only [bind, Except.bind]
      by_cases hend : sym = 256
      · subst hend
        exact .inl ⟨[], r₁, rfl, hsym, hbits1⟩
      rw [if_neg hend]
      by_cases hlit : sym < 256
      · rw [if_pos hlit]
        have hbyte : (UInt8.ofNat sym).toNat = sym := by
          rw [UInt8.toNat_ofNat', Nat.mod_eq_of_lt hlit]
        obtain ⟨ts, r', hr', hv, hbits'⟩ | hbad := ih (out ++ [UInt8.ofNat sym]) (r := r₁) (by omega)
        · refine .inl ⟨.lit (UInt8.ofNat sym) :: ts, r', hr', ⟨?_, hv⟩, ?_⟩
          · rw [Lib.Rfc1951.Token.Valid, hbyte]
            exact hsym
          · rw [hbits1, hbits', tokenBits_cons, Lib.Rfc1951.Token.bits, hbyte, List.append_assoc]
        · exact .inr hbad
      rw [if_neg hlit]
      by_cases hhigh : 29 ≤ sym - 257
      · rw [if_pos hhigh]
        exact .inr rfl
      rw [if_neg hhigh]
      obtain ⟨hbase, hlen⟩ := len_row (s := sym) (by omega) (by omega)
      rw [hlen, hbase]
      obtain ⟨extra, r2, hr2, hextra, hbits2⟩ | ⟨-, r2, hr2, hbits2⟩ :=
        getbits_cases r₁ (lengthExtra sym)
      · rw [hr2]
        dsimp only
        obtain ⟨dsym, r3, hr3, hdsym, hbits3⟩ | hbad := hd.decode_cases r2
        · rw [hr3]
          dsimp only
          by_cases hdhigh : 30 ≤ dsym
          · rw [if_pos hdhigh]
            exact .inr rfl
          rw [if_neg hdhigh]
          obtain ⟨hdbase, hdlen⟩ := dist_row dsym (by omega)
          rw [hdlen, hdbase]
          have hshort : r3.bits.length < fuel := by
            rw [hbits2, List.length_append, hbits3, List.length_append] at hfuel
            omega
          obtain ⟨dextra, r4, hr4, hdextra, hbits4⟩ | ⟨-, r4, hr4, hbits4⟩ :=
            getbits_cases r3 (Lib.Rfc1951.distExtra dsym)
          · rw [hr4]
            dsimp only
            rw [← Int.natCast_add, ← Int.natCast_add, Int.toNat_natCast, Int.toNat_natCast]
            by_cases hback : out.length < Lib.Rfc1951.distBase dsym + dextra
            · rw [if_pos hback]
              exact .inr rfl
            rw [if_neg hback, copyBack_eq]
            rw [hbits4, List.length_append] at hshort
            obtain ⟨ts, r', hr', hv, hbits'⟩ | hbad := ih (copyMatch (Lib.Rfc1951.distBase dsym + dextra)
              (lengthBase sym + extra) out) (r := r4) (by omega)
            · refine .inl ⟨.copy sym extra dsym dextra :: ts, r', hr',
                ⟨⟨⟨hsym, by omega, by omega, hextra⟩, ⟨hdsym, by omega, hdextra⟩, by omega⟩, hv⟩, ?_⟩
              rw [hbits1, hbits2, hbits3, hbits4, hbits', tokenBits_cons, Lib.Rfc1951.Token.bits]
              simp only [List.append_assoc]
            · exact .inr hbad
          · rw [hr4]
            dsimp only
            split
            · exact .inr rfl
            · exact .inr (inflateBlock_nil _ hbits4 (by omega))
        · rw [hbad]
          exact .inr rfl
      · rw [hr2]
        dsimp only
        rw [huffDecode_nil hbits2]
        exact .inr rfl
    · rw [hbad]
      exact .inr rfl

theorem inflateBlock_begun {out' : List UInt8} {r' : BitR}
    (hok : inflateBlock lh dh fuel r out = .ok (r', out')) (hr : r.Begun) : r'.Begun := by
  induction fuel generalizing out r with
  | zero => cases hok
  | succ fuel ih =>
    rw [inflateBlock] at hok
    cases hsym : huffDecode r lh with
    | error e =>
      rw [hsym] at hok
      cases hok
    | ok p =>
      obtain ⟨sym, r₁⟩ := p
      have hr1 := huffDecode_begun hsym hr
      rw [hsym] at hok
      simp only [bind, Except.bind] at hok
      split at hok
      · cases hok
        exact hr1
      · split at hok
        · exact ih hok hr1
        · split at hok
          · cases hok
          · have hr2 := getbits_begun hr1 (lenExtra.getD (sym - 257) 0)
            cases hdsym : huffDecode (getbits r₁ (lenExtra.getD (sym - 257) 0)).2 dh with
            | error e =>
              rw [hdsym] at hok
              cases hok
            | ok q =>
              obtain ⟨dsym, r3⟩ := q
              have hr3 := huffDecode_begun hdsym hr2
              rw [hdsym] at hok
              dsimp only at hok
              split at hok
              · cases hok
              · split at hok
                · cases hok
                · exact ih hok (getbits_begun hr3 _)

end Tokens

end Verkos.Vgzip
