import Verkos.Vgzip.Blocks

/-!
# The header of a block with codes of its own

The numbers of a header are not looked at when they are read. Where one of the lengths of the code
for lengths is cut off it is 255, and `huff_build` counts it outside of `count`; where a header asks
for more than the 318 lengths there is room for, the loop goes on behind `lens`. Everything else is
refused or is a header, and `inflate` reads all that are.
-/

namespace Verkos.Vgzip

open Lib.Bits Lib.Canonical Lib.Rfc1951
open List

/-! ## The lengths of the code for lengths -/

variable {l : List Bool} {its : List Item}

section CodeLengths

variable {is : List Nat} {r : BitR} {cl : List Nat}

theorem readCl_length (is : List Nat) (r : BitR) (cl : List Nat) :
    (readCl is r cl).1.length = cl.length := by
  induction is generalizing r cl with
  | nil => rfl
  | cons i is ih =>
    rw [readCl]
    dsimp only
    rw [ih, length_set]

theorem readCl_begun (is : List Nat) {r : BitR} (cl : List Nat) (hr : r.Begun) :
    (readCl is r cl).2.Begun := by
  induction is generalizing r cl with
  | nil => exact hr
  | cons i is ih => exact ih _ (getbits_begun hr 3)

/-- The lengths are read in their order. -/
theorem readCl_bits (cl : List Nat) {cls : List Nat} (hlen : cls.length = is.length)
    (hsmall : ∀ c ∈ cls, c < 8) (hr : r.bits = cls.flatMap (bitsLE 3) ++ l) :
    ∃ r' : BitR, readCl is r cl = ((is.zip cls).foldl (fun cl p => cl.set p.1 p.2) cl, r') ∧
      r'.bits = l := by
  induction is generalizing cls r cl with
  | nil =>
    obtain rfl : cls = [] := length_eq_zero_iff.1 hlen
    exact ⟨r, rfl, hr⟩
  | cons i is ih =>
    cases cls with
    | nil => cases hlen
    | cons c cls =>
      rw [flatMap_cons, append_assoc] at hr
      have hc : c < 2 ^ 3 := hsmall c mem_cons_self
      obtain ⟨r₁, hr1, hbits⟩ := getbits_bitsLE hc hr
      obtain ⟨r', hr', hbits'⟩ := ih (cl.set i c) (Nat.succ.inj hlen)
        (fun x hx => hsmall x (mem_cons_of_mem _ hx)) hbits
      have hbyte : toByte (c : Int) = c := by
        rw [toByte]
        omega
      refine ⟨r', ?_, hbits'⟩
      rw [readCl, hr1]
      dsimp only
      rw [hbyte, hr', zip_cons_cons, foldl_cons]

theorem readCl_cut (is : List Nat) (r : BitR) (cl : List Nat) (hcut : r.bits.length < 3 * is.length) (his : ∀ i ∈ is, i < cl.length) :
    255 ∈ (readCl is r cl).1 := by
  induction is generalizing r cl with
  | nil => exact absurd hcut (Nat.not_lt_zero _)
  | cons i is ih =>
    have his' : ∀ v, ∀ j ∈ is, j < (cl.set i v).length := fun v j hj => by
      rw [length_set]
      exact his j (mem_cons_of_mem _ hj)
    rw [length_cons] at hcut
    rw [readCl]
    obtain ⟨v, r₁, hr1, -, hbits⟩ | ⟨-, r₁, hr1, hbits⟩ := getbits_cases r 3
    · rw [hr1]
      rw [hbits, length_append, length_bitsLE] at hcut
      exact ih _ _ (by omega) (his' _)
    · rw [hr1]
      cases is with
      | nil => exact mem_set (his i mem_cons_self) 255
      | cons j is => exact ih _ _ (by rw [hbits]; exact Nat.succ_pos _) (his' _)

/-- The lengths are all there, or one was cut off. -/
theorem readCl_cases (is : List Nat) (r : BitR) : r.bits.length < 3 * is.length ∨
      ∃ (cls : List Nat) (l : List Bool), cls.length = is.length ∧ (∀ c ∈ cls, c < 8) ∧
        r.bits = cls.flatMap (bitsLE 3) ++ l := by
  induction is generalizing r with
  | nil => exact .inr ⟨[], r.bits, rfl, nofun, rfl⟩
  | cons i is ih =>
    rw [length_cons]
    obtain ⟨v, r₁, -, hv, hbits⟩ | ⟨hshort, -⟩ := getbits_cases r 3
    · have hlen := congrArg List.length hbits
      rw [length_append, length_bitsLE] at hlen
      obtain hcut | ⟨cls, l, hcls, hsmall, hl⟩ := ih r₁
      · exact .inl (by omega)
      · refine .inr ⟨v :: cls, l, congrArg Nat.succ hcls, forall_mem_cons.2 ⟨hv, hsmall⟩, ?_⟩
        rw [hbits, hl, flatMap_cons, append_assoc]
    · exact .inl (by omega)

end CodeLengths

/-! ## The lengths of the two codes -/

/-- What an item whose number is cut off stands for: -1 is added in the place of the number. -/
def cutCount (sym : Nat) : Nat := if sym < 18 then 2 else 10

/-- The items run over the end of `lens`, where `lens` is what they have put there. -/
inductive Overfull (cl : List Nat) (total : Nat) : List Nat → List Bool → Prop
  | last {lens : List Nat} {it : Item} {l : List Bool} (hit : it.Valid cl lens)
    (hover : 318 < (it.expand total lens).length) : Overfull cl total lens (it.bits cl ++ l)
  | cut {lens : List Nat} {sym : Nat} {l : List Bool} (hsym : Has cl sym)
    (hcut : l.length < Item.extraBits sym) (hprev : sym = 16 → lens ≠ [])
    (hover : 318 < lens.length + min (cutCount sym) (total - lens.length)) :
    Overfull cl total lens (codeBits cl sym ++ l)
  | next {lens : List Nat} {it : Item} {l : List Bool} (hmore : lens.length < total)
    (hit : it.Valid cl lens) (hroom : (it.expand total lens).length ≤ 318)
    (h : Overfull cl total (it.expand total lens) l) : Overfull cl total lens (it.bits cl ++ l)

section Items

variable {cl lens : List Nat} {total fuel : Nat} {ch : Huff}

theorem length_expand (it : Item) (lens : List Nat) (total : Nat) :
    (it.expand total lens).length = lens.length + min it.count (total - lens.length) := by
  rw [Item.expand, length_append, length_replicate]

theorem count_pos (it : Item) : 0 < it.count := by
  rw [Item.count]
  split_ifs <;> omega

theorem addLens_expand (it : Item) (lens : List Nat) (total : Nat) :
    addLens total lens (it.count : Int) (it.value lens) =
      if 318 < (it.expand total lens).length then .error .fault else .ok (it.expand total lens) := rfl

theorem repeated_lt (it : Item) (n : Nat) (hall : ∀ l ∈ lens, l < 16) :
    ∀ l ∈ lens ++ List.replicate n (it.value lens), l < 16 := by
  have hvalue : it.value lens < 16 := by
    rw [Item.value]
    split
    · assumption
    · split
      · cases hlast : lens.getLast? with
        | none => decide
        | some v => exact hall v (mem_of_getLast? hlast)
      · decide
  refine forall_mem_append.2 ⟨hall, fun l hl => ?_⟩
  rwa [eq_of_mem_replicate hl]

theorem items_lt (hall : ∀ l ∈ lens, l < 16) :
    ∀ l ∈ its.foldl (Item.expand total) lens, l < 16 := by
  induction its generalizing lens with
  | nil => exact hall
  | cons it its ih => exact ih (repeated_lt it _ hall)

theorem items_length (hv : ItemsValid cl total lens its)
    (hle : lens.length ≤ total) : (its.foldl (Item.expand total) lens).length = total := by
  induction its generalizing lens with
  | nil => exact Nat.le_antisymm hle hv
  | cons it its ih =>
    have hgrown := length_expand it lens total
    exact ih hv.2.2 (by omega)

/-- For how many codes a symbol stands with a number that may be -1. -/
def repeats (sym : Nat) (v : Int) : Int := if sym < 16 then 1 else if sym < 18 then v + 3 else v + 11

theorem repeats_count (sym v : Nat) : repeats sym v = (Item.count ⟨sym, v⟩ : Nat) := by
  rw [repeats, Item.count]
  dsimp only
  split_ifs <;> omega

theorem repeats_cut {sym : Nat} (h : 16 ≤ sym) : repeats sym (-1) = (cutCount sym : Nat) := by
  rw [repeats, cutCount, if_neg (Nat.not_lt.2 h)]
  split_ifs <;> rfl

/-- A turn of the loop once there is a symbol. -/
theorem readLens_symbol (hmore : lens.length < total) {r r₁ r2 : BitR} {s : Nat} {v : Int}
    (hr1 : huffDecode r ch = .ok (s, r₁)) (hr2 : getbits r₁ (Item.extraBits s) = (v, r2)) :
    readLens ch total (fuel + 1) r lens =
      if s = 16 ∧ lens = [] then .error .bad
      else addLens total lens (repeats s v) (Item.value lens ⟨s, 0⟩) >>=
        readLens ch total fuel r2 := by
  rw [readLens, if_neg (Nat.not_le.2 hmore), hr1]
  simp only [bind, Except.bind]
  by_cases hlit : s < 16
  · have hextra : Item.extraBits s = 0 := if_pos hlit
    have hvalue : Item.value lens ⟨s, 0⟩ = s := if_pos hlit
    rw [hextra] at hr2
    cases hr2
    have hno : ¬ (s = 16 ∧ lens = []) := by omega
    rw [if_pos hlit, if_neg hno, repeats, if_pos hlit, hvalue]
  rw [if_neg hlit, repeats, if_neg hlit]
  by_cases hprev : s = 16
  · subst hprev
    have hr2' : getbits r₁ 2 = (v, r2) := hr2
    have hvalue : Item.value lens ⟨16, 0⟩ = lens.getLast?.getD 0 := rfl
    rw [if_pos rfl, hr2', hvalue]
    dsimp only
    cases hlast : lens.getLast? with
    | none =>
      rw [if_pos ⟨rfl, getLast?_eq_none_iff.1 hlast⟩]
      rfl
    | some prev =>
      rw [if_neg, if_pos (by decide)]
      · rfl
      · rintro ⟨-, rfl⟩
        cases hlast
  have hvalue : Item.value lens ⟨s, 0⟩ = 0 := by
    rw [Item.value, if_neg hlit, if_neg hprev]
  have hno : ¬ (s = 16 ∧ lens = []) := fun h => hprev h.1
  rw [if_neg hprev, if_neg hno, hvalue]
  by_cases hzero : s = 17
  · subst hzero
    have hr2' : getbits r₁ 3 = (v, r2) := hr2
    rw [if_pos rfl, if_pos (by decide), hr2']
  · have hextra : Item.extraBits s = 7 := by
      rw [Item.extraBits, if_neg hlit, if_neg hprev, if_neg hzero]
    rw [hextra] at hr2
    rw [if_neg hzero, if_neg (by omega), hr2]

/-- An item that is there is read. -/
theorem readLens_item (fuel : Nat) (ht : Table cl ch) (hmore : lens.length < total) {it : Item}
    (hit : it.Valid cl lens) {r : BitR} (hr : r.bits = it.bits cl ++ l) :
    ∃ r₁ : BitR, r₁.bits = l ∧ readLens ch total (fuel + 1) r lens =
      addLens total lens (it.count : Int) (it.value lens) >>= readLens ch total fuel r₁ := by
  obtain ⟨hsym, hextra, hprev⟩ := hit
  rw [Item.bits, append_assoc] at hr
  obtain ⟨r₁, hr1, hbits1⟩ := ht.decode hsym hr
  obtain ⟨r2, hr2, hbits2⟩ := getbits_bitsLE hextra hbits1
  refine ⟨r2, hbits2, ?_⟩
  rw [readLens_symbol hmore hr1 hr2, if_neg fun h => hprev h.1 h.2, repeats_count]
  rfl

/-- A symbol whose number is cut off is read too. -/
theorem readLens_cut (fuel : Nat) (ht : Table cl ch) (hmore : lens.length < total) {sym : Nat}
    (hsym : Has cl sym) (hprev : sym = 16 → lens ≠ []) {r : BitR}
    (hcut : l.length < Item.extraBits sym) (hr : r.bits = codeBits cl sym ++ l) :
    ∃ r₁ : BitR, r₁.bits = [] ∧ readLens ch total (fuel + 1) r lens =
      addLens total lens (cutCount sym : Int) (Item.value lens ⟨sym, 0⟩) >>=
        readLens ch total fuel r₁ := by
  obtain ⟨r₁, hr1, hbits1⟩ := ht.decode hsym hr
  obtain ⟨r2, hr2, hbits2⟩ := getbitsFrom_short (i := 0) (v := 0) (hbits1 ▸ hcut)
  have hlong : 16 ≤ sym := by
    by_contra hlit
    rw [Item.extraBits, if_pos (Nat.not_le.1 hlit)] at hcut
    exact absurd hcut (Nat.not_lt_zero _)
  refine ⟨r2, hbits2, ?_⟩
  rw [readLens_symbol hmore hr1 hr2, if_neg fun h => hprev h.1 h.2, repeats_cut hlong]

/-- A turn of the loop: an item, a symbol whose number is cut off, or nothing. -/
theorem readLens_turn (fuel : Nat) (ht : Table cl ch) (hmore : lens.length < total) (r : BitR) :
    (∃ (it : Item) (r₁ : BitR), it.Valid cl lens ∧ r.bits = it.bits cl ++ r₁.bits ∧
      (r.Begun → r₁.Begun) ∧ readLens ch total (fuel + 1) r lens =
        addLens total lens (it.count : Int) (it.value lens) >>= readLens ch total fuel r₁) ∨
    (∃ (sym : Nat) (r₁ : BitR) (l : List Bool), Has cl sym ∧ r.bits = codeBits cl sym ++ l ∧
      l.length < Item.extraBits sym ∧ (sym = 16 → lens ≠ []) ∧ r₁.bits = [] ∧
      readLens ch total (fuel + 1) r lens =
        addLens total lens (cutCount sym : Int) (Item.value lens ⟨sym, 0⟩) >>=
          readLens ch total fuel r₁) ∨ readLens ch total (fuel + 1) r lens = .error .bad := by
  obtain ⟨s, r₁, hr1, hs, hbits1⟩ | hbad := ht.decode_cases r
  · by_cases hprev : s = 16 ∧ lens = []
    · refine .inr (.inr ?_)
      rw [readLens_symbol hmore hr1 rfl, if_pos hprev]
    obtain ⟨v, r2, hr2, hv, hbits2⟩ | ⟨hshort, -⟩ := getbits_cases r₁ (Item.extraBits s)
    · refine .inl ⟨⟨s, v⟩, r2, ⟨hs, hv, fun h h' => hprev ⟨h, h'⟩⟩, ?_, fun h => ?_, ?_⟩
      · rw [hbits1, hbits2, Item.bits, append_assoc]
      · exact begun_of_getbits hr2 (huffDecode_begun hr1 h)
      · rw [readLens_symbol hmore hr1 hr2, if_neg hprev, repeats_count]
        rfl
    · have hprev' : s = 16 → lens ≠ [] := fun h h' => hprev ⟨h, h'⟩
      obtain ⟨r2, hbits2, hturn⟩ := readLens_cut fuel ht hmore hs hprev' hshort hbits1
      exact .inr (.inl ⟨s, r2, r₁.bits, hs, hbits1, hshort, hprev', hbits2, hturn⟩)
  · refine .inr (.inr ?_)
    rw [readLens, if_neg (Nat.not_le.2 hmore), hbad]
    rfl

/-- Items that give all the lengths are read to their end. -/
theorem readLens_items (ht : Table cl ch) (hroom : total ≤ 318) {r : BitR}
    (hv : ItemsValid cl total lens its) (hle : lens.length ≤ total)
    (hfuel : total - lens.length < fuel) (hr : r.bits = its.flatMap (Item.bits cl) ++ l) :
    ∃ r' : BitR, readLens ch total fuel r lens = .ok (its.foldl (Item.expand total) lens, r') ∧
      r'.bits = l := by
  induction its generalizing fuel lens r with
  | nil =>
    obtain ⟨fuel, rfl⟩ := Nat.exists_eq_succ_of_ne_zero (Nat.ne_of_gt (Nat.zero_lt_of_lt hfuel))
    have hend : total ≤ lens.length := hv
    refine ⟨r, ?_, hr⟩
    rw [readLens, if_pos hend]
    rfl
  | cons it its ih =>
    obtain ⟨fuel, rfl⟩ := Nat.exists_eq_succ_of_ne_zero (Nat.ne_of_gt (Nat.zero_lt_of_lt hfuel))
    obtain ⟨hmore, hit, hits⟩ := hv
    have hgrown := length_expand it lens total
    have hpos := count_pos it
    rw [flatMap_cons, append_assoc] at hr
    obtain ⟨r₁, hbits, hturn⟩ := readLens_item fuel ht hmore hit hr
    obtain ⟨r', hr', hbits'⟩ := ih hits (by omega) (show total - (it.expand total lens).length < fuel by omega) hbits
    refine ⟨r', ?_, hbits'⟩
    rw [hturn, addLens_expand, if_neg (by omega)]
    exact hr'

theorem readLens_overfull (ht : Table cl ch) (h : Overfull cl total lens l)
    (hle : lens.length ≤ 318) (hfuel : total - lens.length < fuel) {r : BitR} (hr : r.bits = l) :
    readLens ch total fuel r lens = .error .fault := by
  induction h generalizing fuel r with
  | @last lens it l hit hover =>
    obtain ⟨fuel, rfl⟩ := Nat.exists_eq_succ_of_ne_zero (Nat.ne_of_gt (Nat.zero_lt_of_lt hfuel))
    rw [length_expand] at hover
    have hmore : lens.length < total := by omega
    obtain ⟨r₁, -, hturn⟩ := readLens_item fuel ht hmore hit hr
    rw [hturn, addLens_expand, length_expand, if_pos hover]
    rfl
  | @cut lens sym l hsym hcut hprev hover =>
    obtain ⟨fuel, rfl⟩ := Nat.exists_eq_succ_of_ne_zero (Nat.ne_of_gt (Nat.zero_lt_of_lt hfuel))
    have hmore : lens.length < total := by omega
    obtain ⟨r₁, -, hturn⟩ := readLens_cut fuel ht hmore hsym hprev hcut hr
    rw [hturn, addLens, Int.toNat_natCast, length_append, length_replicate, if_pos hover]
    rfl
  | @next lens it l hmore hit hroom h ih =>
    obtain ⟨fuel, rfl⟩ := Nat.exists_eq_succ_of_ne_zero (Nat.ne_of_gt (Nat.zero_lt_of_lt hfuel))
    have hgrown := length_expand it lens total
    have hpos := count_pos it
    obtain ⟨r₁, hbits, hturn⟩ := readLens_item fuel ht hmore hit hr
    rw [hturn, addLens_expand, if_neg (Nat.not_lt.2 hroom)]
    exact ih hroom (by omega) hbits

theorem readLens_nil (ch : Huff) (total : Nat) (lens : List Nat) {r : BitR} (hr : r.bits = [])
    (hfuel : 0 < fuel) :
    readLens ch total fuel r lens = .ok (lens, r) ∨ readLens ch total fuel r lens = .error .bad := by
  obtain ⟨fuel, rfl⟩ := Nat.exists_eq_succ_of_ne_zero hfuel.ne'
  rw [readLens]
  split
  · exact .inl rfl
  · rw [huffDecode_nil hr]
    exact .inr rfl

/-- What the loop can come to: all the lengths, some and the end of the data, or one too many. -/
theorem readLens_cases (ht : Table cl ch) (hall : ∀ l ∈ lens, l < 16) (hle : lens.length ≤ 318)
    (hle' : lens.length ≤ total) (hfuel : total - lens.length < fuel) (r : BitR) :
    (∃ (its : List Item) (r' : BitR),
      readLens ch total fuel r lens = .ok (its.foldl (Item.expand total) lens, r') ∧
      ItemsValid cl total lens its ∧ r.bits = its.flatMap (Item.bits cl) ++ r'.bits ∧
      (its.foldl (Item.expand total) lens).length ≤ 318 ∧ (r.Begun → r'.Begun)) ∨
    (∃ (lens' : List Nat) (r' : BitR), readLens ch total fuel r lens = .ok (lens', r') ∧
      (∀ l ∈ lens', l < 16) ∧ lens'.length ≤ 318 ∧ r'.bits = []) ∨
    readLens ch total fuel r lens = .error .bad ∨
    readLens ch total fuel r lens = .error .fault ∧ Overfull cl total lens r.bits := by
  induction fuel generalizing lens r with
  | zero => exact absurd hfuel (Nat.not_lt_zero _)
  | succ fuel ih =>
    by_cases hend : total ≤ lens.length
    · refine .inl ⟨[], r, ?_, hend, rfl, hle, id⟩
      rw [readLens, if_pos hend]
      rfl
    have hmore : lens.length < total := Nat.not_le.1 hend
    obtain ⟨it, r₁, hit, hbits, hbegun, hturn⟩ | ⟨sym, r₁, l, hsym, hbits, hcut, hprev, hr1, hturn⟩ |
      hbad := readLens_turn fuel ht hmore r
    · have hgrown := length_expand it lens total
      have hpos := count_pos it
      rw [hturn, addLens_expand, hbits]
      split
      · rename_i hover
        exact .inr (.inr (.inr ⟨rfl, .last hit hover⟩))
      · rename_i hroom
        have hall' : ∀ l ∈ it.expand total lens, l < 16 := repeated_lt it _ hall
        obtain ⟨its, r', hr', hv, hbits', hlen, hbegun'⟩ | hdry | hbad | ⟨hfault, hover⟩ :=
          ih hall' (Nat.not_lt.1 hroom) (by omega) (by omega) r₁
        · refine .inl ⟨it :: its, r', hr', ⟨hmore, hit, hv⟩, ?_, hlen, hbegun' ∘ hbegun⟩
          rw [hbits', flatMap_cons, append_assoc]
        · exact .inr (.inl hdry)
        · exact .inr (.inr (.inl hbad))
        · exact .inr (.inr (.inr ⟨hfault, .next hmore hit (Nat.not_lt.1 hroom) hover⟩))
    · have hlen : (lens ++ List.replicate (min (cutCount sym) (total - lens.length))
          (Item.value lens ⟨sym, 0⟩)).length =
          lens.length + min (cutCount sym) (total - lens.length) := by
        rw [length_append, length_replicate]
      have hpos : 0 < cutCount sym := by
        rw [cutCount]
        split_ifs <;> decide
      rw [hturn, addLens, Int.toNat_natCast, hlen, hbits]
      split
      · rename_i hover
        exact .inr (.inr (.inr ⟨rfl, .cut hsym hcut hprev hover⟩))
      · rename_i hroom
        obtain hdry | hbad := readLens_nil ch total
          (lens ++ List.replicate (min (cutCount sym) (total - lens.length))
            (Item.value lens ⟨sym, 0⟩)) hr1 (show 0 < fuel by omega)
        · exact .inr (.inl ⟨_, r₁, hdry, repeated_lt ⟨sym, 0⟩ _ hall, by omega, hr1⟩)
        · exact .inr (.inr (.inl hbad))
    · exact .inr (.inr (.inl hbad))

end Items

/-! ## Headers -/

section Headers

/-- The header as far as it says how many lengths there are and in which code. -/
def Starts (h : Header) (l l' : List Bool) : Prop := h.Fields ∧ h.items = [] ∧ l = h.bits ++ l'

theorem foldl_set_length (ps : List (Nat × Nat)) (cl : List Nat) :
    (ps.foldl (fun cl p => cl.set p.1 p.2) cl).length = cl.length := by
  induction ps generalizing cl with
  | nil => rfl
  | cons p ps ih => rw [foldl_cons, ih, length_set]

theorem foldl_set_lt {b : Nat} {ps : List (Nat × Nat)} {cl : List Nat} (hps : ∀ p ∈ ps, p.2 < b)
    (hcl : ∀ l ∈ cl, l < b) : ∀ l ∈ ps.foldl (fun cl p => cl.set p.1 p.2) cl, l < b := by
  induction ps generalizing cl with
  | nil => exact hcl
  | cons p ps ih =>
    refine ih (fun q hq => hps q (mem_cons_of_mem _ hq)) fun l hl => ?_
    rcases mem_or_eq_of_mem_set hl with hl | rfl
    · exact hcl l hl
    · exact hps p mem_cons_self

theorem cl_length (h : Header) : h.cl.length = 19 := by
  rw [Header.cl, foldl_set_length, length_replicate]

theorem cl_lt {h : Header} (hf : h.Fields) : ∀ l ∈ h.cl, l < 16 := by
  refine foldl_set_lt (fun p hp => ?_) fun l hl => ?_
  · exact Nat.lt_trans (hf.small p.2 (of_mem_zip hp).2) (by decide)
  · rw [eq_of_mem_replicate hl]
    decide

/-- What is left to do when the lengths are there. -/
def readTokens (fuel hlit : Nat) (out : List UInt8) (p : List Nat × BitR) :
    Except Stop (BitR × List UInt8) := do
  let lh ← huffBuild (p.1.take hlit)
  let dh ← huffBuild (p.1.drop hlit)
  inflateBlock lh dh fuel p.2 out

theorem inflateOne_dynamic (fuel : Nat) (r : BitR) (out : List UInt8) : inflateOne fuel 2 r out =
      (huffBuild (readCl (clOrder.take ((getbits (getbits (getbits r 5).2 5).2 4).1 + 4).toNat)
        (getbits (getbits (getbits r 5).2 5).2 4).2 (List.replicate 19 0)).1 >>= fun ch =>
        readLens ch (((getbits r 5).1 + 257).toNat + ((getbits (getbits r 5).2 5).1 + 1).toNat) 321
          (readCl (clOrder.take ((getbits (getbits (getbits r 5).2 5).2 4).1 + 4).toNat)
            (getbits (getbits (getbits r 5).2 5).2 4).2 (List.replicate 19 0)).2 [] >>=
        readTokens fuel ((getbits r 5).1 + 257).toNat out) := by
  rw [inflateOne, if_neg (by decide), if_neg (by decide), if_pos rfl]
  generalize 321 = turns
  rfl

/-- The code for lengths is read where it is there. -/
theorem inflateOne_starts {h : Header} {r : BitR} (hs : Starts h r.bits l)
    (fuel : Nat) (out : List UInt8) : ∃ (ch : Huff) (r' : BitR), Table h.cl ch ∧ r'.bits = l ∧
      (r.Begun → r'.Begun) ∧ inflateOne fuel 2 r out =
        readLens ch h.total 321 r' [] >>= readTokens fuel h.hlit out := by
  obtain ⟨hf, hitems, hbits⟩ := hs
  obtain ⟨⟨hlit, hlit'⟩, ⟨hdist, hdist'⟩, ⟨hcls, hcls'⟩, hsmall⟩ := hf
  rw [Header.bits, hitems, flatMap_nil, append_nil, append_assoc, append_assoc,
    append_assoc] at hbits
  obtain ⟨r₁, hr1, hbits1⟩ := getbits_bitsLE (show h.hlit - 257 < 2 ^ 5 by omega) hbits
  obtain ⟨r2, hr2, hbits2⟩ := getbits_bitsLE (show h.hdist - 1 < 2 ^ 5 by omega) hbits1
  obtain ⟨r3, hr3, hbits3⟩ := getbits_bitsLE (show h.cls.length - 4 < 2 ^ 4 by omega) hbits2
  have hk : (((h.cls.length - 4 : Nat) : Int) + 4).toNat = h.cls.length := by omega
  have hlen : h.cls.length = (clOrder.take h.cls.length).length :=
    (length_take_of_le hcls').symm
  obtain ⟨r4, hr4, hbits4⟩ := readCl_bits (List.replicate 19 0) hlen hsmall hbits3
  have hcl : ((clOrder.take h.cls.length).zip h.cls).foldl (fun cl p => cl.set p.1 p.2)
      (List.replicate 19 0) = h.cl := by
    have hmin : min order.length h.cls.length = h.cls.length := Nat.min_eq_right hcls'
    have hzip : order.zip h.cls = (order.take (min order.length h.cls.length)).zip
        (h.cls.take (min order.length h.cls.length)) := zip_eq_zip_take_min
    rw [hmin, take_length] at hzip
    rw [Header.cl, hzip]
    rfl
  rw [hcl] at hr4
  obtain ⟨ch, hch, ht⟩ := huffBuild_table (cl_lt ⟨⟨hlit, hlit'⟩, ⟨hdist, hdist'⟩,
    ⟨hcls, hcls'⟩, hsmall⟩) (by rw [cl_length]; decide)
  have htotal : (((h.hlit - 257 : Nat) : Int) + 257).toNat = h.hlit := by omega
  have hdist'' : (((h.hdist - 1 : Nat) : Int) + 1).toNat = h.hdist := by omega
  refine ⟨ch, r4, ht, hbits4, fun hbegun => ?_, ?_⟩
  · have hbegun3 := begun_of_getbits hr3 (begun_of_getbits hr2 (begun_of_getbits hr1 hbegun))
    have hbegun4 := readCl_begun (clOrder.take h.cls.length) (List.replicate 19 0) hbegun3
    rwa [hr4] at hbegun4
  · rw [inflateOne_dynamic, hr1, hr2, hr3]
    dsimp only
    rw [hk, hr4, htotal, hdist'']
    dsimp only
    rw [hch]
    rfl

theorem inflateOne_cut {r : BitR} (hcut : ∀ h l, ¬ Starts h r.bits l) (fuel : Nat)
    (out : List UInt8) : inflateOne fuel 2 r out = .error .fault := by
  have hread : ∃ k, 0 < k ∧ k ≤ 19 ∧
      ((getbits (getbits (getbits r 5).2 5).2 4).1 + 4).toNat = k ∧
      (getbits (getbits (getbits r 5).2 5).2 4).2.bits.length < 3 * k := by
    have hend : (getbits (getbits r 5).2 5).2.bits = [] → ∃ k, 0 < k ∧ k ≤ 19 ∧
        ((getbits (getbits (getbits r 5).2 5).2 4).1 + 4).toNat = k ∧
        (getbits (getbits (getbits r 5).2 5).2 4).2.bits.length < 3 * k := fun hnil => by
      obtain ⟨hnum, hnil'⟩ := getbits_nil hnil (show 0 < 4 by decide)
      rw [hnum, hnil']
      exact ⟨3, by decide, by decide, by decide, by decide⟩
    obtain ⟨v1, r₁, hr1, hv1, hbits1⟩ | ⟨-, r₁, hr1, hnil⟩ := getbits_cases r 5
    · rw [hr1] at hend ⊢
      obtain ⟨v2, r2, hr2, hv2, hbits2⟩ | ⟨-, r2, hr2, hnil⟩ := getbits_cases r₁ 5
      · rw [hr2]
        dsimp only
        obtain ⟨v3, r3, hr3, hv3, hbits3⟩ | ⟨-, r3, hr3, hnil⟩ := getbits_cases r2 4
        · rw [hr3]
          refine ⟨v3 + 4, Nat.succ_pos _, by omega, rfl, ?_⟩
          obtain hshort | ⟨cls, l, hlen, hsmall, hl⟩ := readCl_cases (clOrder.take (v3 + 4)) r3
          · rwa [length_take_of_le (show v3 + 4 ≤ 19 by omega)] at hshort
          · rw [length_take_of_le (show v3 + 4 ≤ 19 by omega)] at hlen
            refine absurd ⟨⟨?_, ?_, ?_, hsmall⟩, rfl, ?_⟩
              (hcut ⟨v1 + 257, v2 + 1, cls, []⟩ l)
            · dsimp only
              omega
            · dsimp only
              omega
            · dsimp only
              omega
            · rw [hbits1, hbits2, hbits3, hl, Header.bits]
              dsimp only
              rw [hlen, Nat.add_sub_cancel, Nat.add_sub_cancel, Nat.add_sub_cancel]
              simp only [append_assoc, flatMap_nil, nil_append]
        · rw [hr3, hnil]
          exact ⟨3, by decide, by decide, rfl, by decide⟩
      · exact hend (by rw [hr2]; exact hnil)
    · exact hend (getbits_nil (by rw [hr1]; exact hnil) (by decide)).2
  obtain ⟨k, hk, hk', hnum, hshort⟩ := hread
  have hlen : (clOrder.take k).length = k := length_take_of_le hk'
  have hbound : ∀ i ∈ clOrder, i < 19 := by decide
  have hmem := readCl_cut (clOrder.take k) (getbits (getbits (getbits r 5).2 5).2 4).2
    (List.replicate 19 0) (by rwa [hlen]) fun i hi => hbound i (mem_of_mem_take hi)
  have hguard : ¬ ((readCl (clOrder.take k) (getbits (getbits (getbits r 5).2 5).2 4).2
      (List.replicate 19 0)).1.all (· < 16) = true) := fun hall => by
    have h255 := all_eq_true.1 hall 255 hmem
    revert h255
    decide
  rw [inflateOne_dynamic, hnum, huffBuild, if_neg hguard]
  rfl

end Headers

end Verkos.Vgzip
