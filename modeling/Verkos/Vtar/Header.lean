import Verkos.Vtar.Extract

/-!
# A header is read back

What `put_header` has put into a field is what `do_extract` finds there, as far as the field goes: a
name up to 99 bytes, a number up to its first so many octal digits.
-/

namespace Verkos.Vtar

open Lib.Digits
open List

/-! ## Octal fields -/

/-- What a field of so many digits keeps of a number. -/
def kept (w : Nat) (v : Int) : Nat := value 8 ((octalText w (v % 2 ^ 64).toNat).take w)

section Octal

variable {w n : Nat}

theorem value_dropWhile_zero (b : Nat) (ds : List Nat) :
    value b (ds.dropWhile (· = 0)) = value b ds := by
  induction ds with
  | nil => rfl
  | cons d ds ih =>
    rw [dropWhile_cons]
    split
    · rename_i hd
      obtain rfl : d = 0 := by simpa using hd
      rw [ih]
      simp [value, push]
    · rfl

theorem octalText_lt : ∀ d ∈ octalText w n, d < 8 := by
  unfold octalText
  split
  · exact digits_lt (by decide)
  · exact fun d hd => digits_lt (by decide) d ((dropWhile_sublist _).subset hd)

theorem le_length_octalText (hn : n < 2 ^ 64) : w ≤ (octalText w n).length := by
  unfold octalText
  split
  · rw [length_digits]
  · rename_i hw
    have hvalue : value 8 ((digits 8 22 n).dropWhile (· = 0)) = n := by
      rw [value_dropWhile_zero, value_digits (hn.trans (by decide))]
    have hlt : value 8 ((digits 8 22 n).dropWhile (· = 0)) <
        8 ^ ((digits 8 22 n).dropWhile (· = 0)).length :=
      value_lt fun d hd => digits_lt (by decide) d ((dropWhile_sublist _).subset hd)
    rw [hvalue] at hlt
    exact (Nat.pow_lt_pow_iff_right (by decide)).1 ((Nat.not_lt.1 hw).trans_lt hlt) |>.le

theorem toNat_lt (v : Int) : (v % 2 ^ 64).toNat < 2 ^ 64 := by omega

@[simp] theorem length_octal (w : Nat) (v : Int) : (octal (w + 1) v).length = w + 1 := by
  rw [octal, length_append, length_map, Nat.add_sub_cancel, length_take,
    Nat.min_eq_left (le_length_octalText (toNat_lt v))]
  rfl

theorem kept_lt (w : Nat) (v : Int) : kept w v < 8 ^ w := by
  have hlen : ((octalText w (v % 2 ^ 64).toNat).take w).length = w := by
    rw [length_take, Nat.min_eq_left (le_length_octalText (toNat_lt v))]
  have := value_lt fun d (hd : d ∈ (octalText w (v % 2 ^ 64).toNat).take w) =>
    octalText_lt d (mem_of_mem_take hd)
  rwa [hlen] at this

theorem value_take_octalText (hn : n < 8 ^ w) : value 8 ((octalText w n).take w) = n := by
  rw [octalText, if_pos hn, take_of_length_le (length_digits 8 w n).le, value_digits hn]

theorem kept_natCast (hn : n < 8 ^ w) (hw : w ≤ 21) : kept w n = n := by
  have hlt : n < 2 ^ 64 := by
    have : 8 ^ w ≤ 8 ^ 21 := Nat.pow_le_pow_right (by decide) hw
    omega
  have hmod : ((n : Int) % 2 ^ 64).toNat = n := by omega
  rw [kept, hmod, value_take_octalText hn]

theorem dropWhile_zero (ds : List Nat) :
    ds.dropWhile (· = 0) = [] ∨ ∃ d ds', ds.dropWhile (· = 0) = d :: ds' ∧ 0 < d := by
  induction ds with
  | nil => exact .inl rfl
  | cons d ds ih =>
    rw [dropWhile_cons]
    split
    · exact ih
    · rename_i hd
      exact .inr ⟨d, ds, rfl, Nat.pos_of_ne_zero (by simpa using hd)⟩

theorem lt_kept (hn : 8 ^ 11 ≤ n) (hn' : n < 2 ^ 64) : 512 < kept 11 n := by
  have hmod : ((n : Int) % 2 ^ 64).toNat = n := by omega
  have htext : octalText 11 n = (digits 8 22 n).dropWhile (· = 0) := if_neg (Nat.not_lt.2 hn)
  have hlen := le_length_octalText (w := 11) hn'
  rw [htext] at hlen
  rw [kept, hmod, htext]
  rcases dropWhile_zero (digits 8 22 n) with hnil | ⟨d, ds, hds, hd⟩
  · rw [hnil] at hlen
    exact absurd hlen (by decide)
  · rw [hds, length_cons] at hlen
    have hten : (ds.take 10).length = 10 := length_take_of_le (by omega)
    have hvalue : 8 ^ (ds.take 10).length ≤ value 8 (d :: ds.take 10) := le_value hd _
    rw [hten] at hvalue
    rw [hds, take_succ_cons]
    have hpow : 512 < 8 ^ 10 := by decide
    exact hpow.trans_le hvalue

theorem fromOctal_digits {ds : List Nat} (hds : ∀ d ∈ ds, d < 8) (rest : List UInt8) (v : Nat) :
    fromOctal (ds.map digit ++ 0 :: rest) v = ds.foldl (push 8) v := by
  induction ds generalizing v with
  | nil => rw [map_nil, nil_append, fromOctal, if_pos rfl, foldl_nil]
  | cons d ds ih =>
    have hd : d < 8 := hds d mem_cons_self
    have hdigit : ∀ d < 8, digit d ≠ 0 ∧ ¬ (digit d < 48 ∨ 55 < digit d) ∧
        (digit d).toNat - 48 = d := by decide
    obtain ⟨hne, hrange, hval⟩ := hdigit d hd
    rw [map_cons, cons_append, fromOctal, if_neg hne, if_neg hrange, hval,
      ih fun d hd => hds d (mem_cons_of_mem _ hd), foldl_cons, push]

theorem fromOctal_octal (w : Nat) (v : Int) : fromOctal (octal (w + 1) v) 0 = kept w v :=
  fromOctal_digits (fun d hd => octalText_lt d (mem_of_mem_take hd)) [] 0

end Octal

/-! ## Fields of text -/

section Fields

theorem field_append (a b c : List UInt8) {i n : Nat} (ha : a.length = i) (hb : b.length = n) :
    field (a ++ (b ++ c)) i n = b := by
  rw [field, ← ha, drop_left, ← hb, take_left]

theorem length_text {w : Nat} {s : Str} (h : s.length ≤ w) : (text w s).length = w := by
  rw [text, length_append, length_replicate]
  omega

theorem cstr_text {w : Nat} {s : Str} (h : s.length < w) (hs : 0 ∉ s) : cstr (text w s) = s := by
  obtain ⟨k, hk⟩ := Nat.exists_eq_succ_of_ne_zero (Nat.sub_ne_zero_of_lt h)
  rw [cstr, text, hk, replicate_succ, takeWhile_append_of_pos, takeWhile_cons,
    if_neg (by decide), append_nil]
  intro c hc
  exact decide_eq_true fun h0 => hs (h0 ▸ hc)

end Fields

/-! ## The header of a file -/

/-- A name as it comes out of a header. -/
def cut (name : Str) : Str := name.take 99

theorem length_cut (name : Str) : (cut name).length ≤ 99 := length_take_le _ _

section Header

variable {name : Str} {st : Stat} {chksum : List UInt8}

/-- The fields in front of the checksum. -/
def front (name : Str) (st : Stat) : List UInt8 :=
  text 100 (cut name) ++ (octal 8 ((st.mode &&& 0o7777 : Nat) : Int) ++ (octal 8 st.uid ++
    (octal 8 st.gid ++ (octal 12 st.size ++ octal 12 st.mtime))))

/-- The fields after it. -/
def back : List UInt8 := [regType] ++ (List.replicate 100 0 ++ (ustar ++ List.replicate 247 0))

theorem headerBytes_reg (name : Str) (st : Stat) (chksum : List UInt8) :
    headerBytes name st regType chksum = front name st ++ (chksum ++ back) := by
  have hname : (headerName name regType).take 99 = cut name := by
    rw [headerName, if_neg (fun h => absurd h.1 (by decide)), cut, take_take]
    rfl
  have htype : ¬ regType = dirType := by decide
  rw [headerBytes, hname, if_neg htype, front, back]
  simp only [append_assoc]

theorem length_name : (text 100 (cut name)).length = 100 :=
  length_text ((length_cut name).trans (by decide))

@[simp] theorem length_front (name : Str) (st : Stat) : (front name st).length = 148 := by
  simp only [front, length_append, length_name, length_octal]

@[simp] theorem length_back : back.length = 356 := by
  simp only [back, ustar, length_append, length_replicate, length_cons,
    length_nil]

theorem length_headerBytes (hc : chksum.length = 8) :
    (headerBytes name st regType chksum).length = 512 := by
  rw [headerBytes_reg, length_append, length_append, length_front, length_back, hc]

/-! ### Its fields -/

theorem name_field (hname : 0 ∉ name) :
    cstr (field (headerBytes name st regType chksum) 0 100) = cut name := by
  have hsplit : headerBytes name st regType chksum = [] ++ (text 100 (cut name) ++
      ((octal 8 ((st.mode &&& 0o7777 : Nat) : Int) ++ (octal 8 st.uid ++ (octal 8 st.gid ++
        (octal 12 st.size ++ octal 12 st.mtime)))) ++ (chksum ++ back))) := by
    rw [headerBytes_reg, front, nil_append, append_assoc]
  rw [hsplit, field_append _ _ _ length_nil length_name]
  exact cstr_text (by have := length_cut name; omega) fun h => hname (mem_of_mem_take h)

theorem mode_field :
    fromOctal (field (headerBytes name st regType chksum) 100 8) 0 = st.mode &&& 0o7777 := by
  have hsplit : headerBytes name st regType chksum = text 100 (cut name) ++
      (octal 8 ((st.mode &&& 0o7777 : Nat) : Int) ++ ((octal 8 st.uid ++ (octal 8 st.gid ++
        (octal 12 st.size ++ octal 12 st.mtime))) ++ (chksum ++ back))) := by
    rw [headerBytes_reg, front]
    simp only [append_assoc]
  rw [hsplit, field_append _ _ _ length_name (length_octal 7 _), fromOctal_octal]
  exact kept_natCast (Nat.and_le_right.trans_lt (by decide)) (by decide)

theorem size_field :
    fromOctal (field (headerBytes name st regType chksum) 124 12) 0 = kept 11 st.size := by
  have hsplit : headerBytes name st regType chksum =
      (text 100 (cut name) ++ (octal 8 ((st.mode &&& 0o7777 : Nat) : Int) ++ (octal 8 st.uid ++
        octal 8 st.gid))) ++ (octal 12 st.size ++ (octal 12 st.mtime ++ (chksum ++ back))) := by
    rw [headerBytes_reg, front]
    simp only [append_assoc]
  rw [hsplit, field_append _ _ _ (by simp only [length_append, length_name, length_octal])
    (length_octal 11 _), fromOctal_octal]

theorem mtime_field :
    fromOctal (field (headerBytes name st regType chksum) 136 12) 0 = kept 11 st.mtime := by
  have hsplit : headerBytes name st regType chksum =
      (text 100 (cut name) ++ (octal 8 ((st.mode &&& 0o7777 : Nat) : Int) ++ (octal 8 st.uid ++
        (octal 8 st.gid ++ octal 12 st.size)))) ++ (octal 12 st.mtime ++ (chksum ++ back)) := by
    rw [headerBytes_reg, front]
    simp only [append_assoc]
  rw [hsplit, field_append _ _ _ (by simp only [length_append, length_name, length_octal])
    (length_octal 11 _), fromOctal_octal]

theorem getD_back (hc : chksum.length = 8) (i : Nat) :
    (headerBytes name st regType chksum).getD (156 + i) 0 = back.getD i 0 := by
  have hlen : (front name st ++ chksum).length = 156 := by
    rw [length_append, length_front, hc]
  rw [headerBytes_reg, ← append_assoc, getD_append_right _ _ _ _ (by omega), hlen,
    Nat.add_sub_cancel_left]

/-! ### Its checksum -/

theorem sumBytes_le (h : List UInt8) : sumBytes h ≤ h.length * 255 := by
  induction h with
  | nil => exact Nat.le_refl 0
  | cons c cs ih =>
    have hc := c.toNat_lt
    rw [sumBytes] at ih
    rw [sumBytes, map_cons, sum_cons, length_cons]
    omega

theorem putHeader_eq (name : Str) (st : Stat) : ∃ chksum, chksum.length = 8 ∧
    putHeader name st regType = headerBytes name st regType chksum ∧
    fromOctal chksum 0 = sumBytes (headerBytes name st regType (List.replicate 8 32)) := by
  have hsum : sumBytes (headerBytes name st regType (List.replicate 8 32)) < 8 ^ 6 := by
    have := sumBytes_le (headerBytes name st regType (List.replicate 8 32))
    rw [length_headerBytes length_replicate] at this
    omega
  have htext : octalText 6 (sumBytes (headerBytes name st regType (List.replicate 8 32))) =
      digits 8 6 (sumBytes (headerBytes name st regType (List.replicate 8 32))) := if_pos hsum
  refine ⟨_, ?_, rfl, ?_⟩
  · rw [htext, length_append, length_map, length_digits]
    rfl
  · rw [htext, fromOctal_digits (digits_lt (by decide))]
    exact value_digits hsum

theorem headerOk_putHeader (name : Str) (st : Stat) : headerOk (putHeader name st regType) := by
  obtain ⟨chksum, hc, hput, hsum⟩ := putHeader_eq name st
  have hfield : field (headerBytes name st regType chksum) 148 8 = chksum := by
    rw [headerBytes_reg, field_append _ _ _ (length_front name st) hc]
  have hspaces : (headerBytes name st regType chksum).take 148 ++ List.replicate 8 32 ++
      (headerBytes name st regType chksum).drop 156 =
      headerBytes name st regType (List.replicate 8 32) := by
    have hlen : (front name st ++ chksum).length = 156 := by
      rw [length_append, length_front, hc]
    rw [headerBytes_reg, headerBytes_reg, ← length_front name st, take_left,
      ← append_assoc (front name st) chksum, ← hlen, drop_left, append_assoc]
  rw [hput, headerOk, hfield, hspaces, hsum]
  exact decide_eq_true (.inl rfl)

theorem not_all_zero (name : Str) (st : Stat) : ¬ (putHeader name st regType).all (· = 0) := by
  obtain ⟨chksum, hc, hput, -⟩ := putHeader_eq name st
  intro hall
  rw [hput, headerBytes_reg] at hall
  have hmem : regType ∈ front name st ++ (chksum ++ back) :=
    mem_append_right _ (mem_append_right _ mem_cons_self)
  exact absurd (all_eq_true.1 hall regType hmem) (by decide)

end Header

end Verkos.Vtar
