import Mathlib.Data.List.GetD
import Mathlib.Data.List.Induction
import Mathlib.Data.List.TakeWhile
import Verkos.Stam.Fat

/-!
# Names

`make_83` turns a name into the eleven characters of an entry, and `short_name` turns those into a
name again. It is the same name up to case just if it has no blank and no dot at its end. `fat_open`
cuts a path at its slashes and `fat_create` splits off what is behind the last one; the two agree on
everything in front of it.
-/

namespace Verkos.Stam.Fat

open List
open Option (some.inj)

/-- A name as `name_eq` compares it. -/
def folded (l : List UInt8) : List UInt8 := (cstr l).map upper

/-- An entry of that name has the name, and is not deleted. -/
def Faithful (name : List UInt8) : Prop :=
  ∀ n, make83 name = some n → ∀ e : Sector, (∀ k < 11, e k = n.getD k 0) →
    nameEq (shortName e) name = true ∧ e 0 ≠ 0xe5

/-- A name without blanks that neither ends with a dot nor begins as a deleted entry does. -/
structure Plain (name : List UInt8) : Prop where
  blank : 32 ∉ name
  dot : name.getLast? ≠ some 46
  first : name.head? ≠ some 0xe5

section Folding

variable {a b c : List UInt8}

theorem nameEq_iff : nameEq a b = true ↔ folded a = folded b := beq_iff_eq

theorem nameEq_congr (h : folded a = folded b) : nameEq c a = nameEq c b := by
  unfold folded at h
  unfold nameEq
  rw [h]

theorem cstr_of_not_mem {l : List UInt8} (h : 0 ∉ l) : cstr l = l := by
  refine takeWhile_eq_self_iff.2 fun b hb => ?_
  exact bne_iff_ne.2 fun he => h (he ▸ hb)

theorem upper_eq_iff {b c : UInt8} (hc : c < 65 ∨ 122 < c) : upper b = c ↔ b = c := by
  unfold upper
  split
  · rename_i h
    obtain ⟨hlo, hhi⟩ := h
    rw [UInt8.le_iff_toNat_le] at hlo hhi
    have hsub : (b - 32).toNat = b.toNat - 32 := UInt8.toNat_sub_of_le _ _ (by
      rw [UInt8.le_iff_toNat_le]
      exact Nat.le_trans (by decide) hlo)
    rw [← UInt8.toNat_inj, ← UInt8.toNat_inj (a := b), hsub]
    rw [UInt8.lt_iff_toNat_lt, UInt8.lt_iff_toNat_lt] at hc
    have h97 : (97 : UInt8).toNat = 97 := rfl
    have h122 : (122 : UInt8).toNat = 122 := rfl
    have h65 : (65 : UInt8).toNat = 65 := rfl
    omega
  · exact Iff.rfl

theorem upper_upper (b : UInt8) : upper (upper b) = upper b := by
  by_cases h : 97 ≤ b ∧ b ≤ 122
  · have hsub : upper b = b - 32 := if_pos h
    obtain ⟨hlo, hhi⟩ := h
    rw [UInt8.le_iff_toNat_le] at hlo hhi
    have hnat : (b - 32).toNat = b.toNat - 32 := UInt8.toNat_sub_of_le _ _ (by
      rw [UInt8.le_iff_toNat_le]
      exact Nat.le_trans (by decide) hlo)
    have h97 : (97 : UInt8).toNat = 97 := rfl
    have h122 : (122 : UInt8).toNat = 122 := rfl
    rw [hsub]
    refine if_neg fun hle => ?_
    have hlo' := UInt8.le_iff_toNat_le.1 hle.1
    omega
  · have hsame : upper b = b := if_neg h
    rw [hsame, hsame]

end Folding

/-! ## Names of eleven characters -/

/-- What `make_83` makes of a name: the part before the last dot and the part behind it. -/
structure Splits (name base ext : List UInt8) : Prop where
  pos : base ≠ []
  before : base.length ≤ 8
  behind : ext.length ≤ 3
  zero : 0 ∉ name
  slash : 47 ∉ name
  parts : name.map upper = base ∧ ext = [] ∧ 46 ∉ name ∨ name.map upper = base ++ 46 :: ext ∧ 46 ∉ ext

section Short

variable {name base ext b x : List UInt8} {l : List UInt8} {d i : Nat} {e : Sector}

theorem make83From_behind (hd : d < i) (h : make83From (some d) i base ext l = some (b, x)) :
    b = base ∧ x = ext ++ l.map upper ∧ (∀ c ∈ l, c ≠ 47 ∧ c ≠ 0) ∧
      (ext.length ≤ 3 → x.length ≤ 3) := by
  induction l generalizing i ext with
  | nil =>
    obtain ⟨rfl, rfl⟩ := Prod.mk.inj (some.inj h)
    exact ⟨rfl, (append_nil _).symm, nofun, id⟩
  | cons c l ih =>
    have hany : (some d).any (· < i) = true := decide_eq_true hd
    rw [make83From, hany, if_pos rfl] at h
    split at h
    · cases h
    rename_i hc
    rw [not_or, upper_eq_iff (.inl (by decide)), upper_eq_iff (.inl (by decide))] at hc
    rw [if_neg (by intro he; have := some.inj he; omega)] at h
    split at h
    · cases h
    rename_i hlen
    obtain ⟨hb, hx, hl, hlen'⟩ := ih (by omega) h
    refine ⟨hb, by rw [hx, append_assoc]; rfl, ?_, fun _ => hlen' ?_⟩
    · intro c' hc'
      rcases mem_cons.1 hc' with rfl | hc'
      · exact hc
      · exact hl c' hc'
    · rw [length_append, length_singleton]
      omega

/-- Before the dot, or without one. -/
theorem make83From_before {dot : Option Nat} {suf : List UInt8} (hd : ∀ d, dot = some d → i + l.length ≤ d)
    (hbase : base.length ≤ 8) (h : make83From dot i base ext (l ++ suf) = some (b, x)) :
    (base ++ l.map upper).length ≤ 8 ∧ (∀ c ∈ l, c ≠ 47 ∧ c ≠ 0) ∧
      make83From dot (i + l.length) (base ++ l.map upper) ext suf = some (b, x) := by
  induction l generalizing i base with
  | nil =>
    rw [map_nil, append_nil, length_nil, Nat.add_zero]
    exact ⟨hbase, nofun, h⟩
  | cons c l ih =>
    rw [length_cons] at hd
    have hany : dot.any (· < i) = false := by
      cases dot with
      | none => rfl
      | some d =>
        have hle := hd d rfl
        exact decide_eq_false (by omega)
    rw [cons_append, make83From, hany] at h
    split at h
    · cases h
    rename_i hc
    rw [not_or, upper_eq_iff (.inl (by decide)), upper_eq_iff (.inl (by decide))] at hc
    rw [if_neg (by intro he; have := hd i he; omega), if_neg Bool.noConfusion] at h
    split at h
    · cases h
    rename_i hlen
    obtain ⟨hlen', hl, hrest⟩ := ih (fun d hdot => by have := hd d hdot; omega)
      (by rw [length_append, length_singleton]; omega) h
    rw [append_assoc] at hlen' hrest
    refine ⟨hlen', ?_, ?_⟩
    · intro c' hc'
      rcases mem_cons.1 hc' with rfl | hc'
      · exact hc
      · exact hl c' hc'
    · rw [length_cons, show i + (l.length + 1) = i + 1 + l.length by omega]
      exact hrest

theorem lastDot_none (h : lastDot name = none) : 46 ∉ name := by
  unfold lastDot at h
  intro hmem
  obtain ⟨i, hi, he⟩ := mem_iff_getElem.1 hmem
  have hnot := find?_eq_none.1 h i (mem_reverse.2 (mem_range.2 hi))
  rw [getD_eq_getElem _ _ hi, he] at hnot
  exact hnot rfl

theorem lastDot_some (h : lastDot name = some d) :
    ∃ pre suf, name = pre ++ 46 :: suf ∧ pre.length = d ∧ 46 ∉ suf := by
  unfold lastDot at h
  obtain ⟨-, i, hi, hdi, hbefore⟩ := find?_eq_some_iff_getElem.1 h
  rw [length_reverse, length_range] at hi
  rw [getElem_reverse, getElem_range, length_range] at hdi
  have hd := mem_range.1 (mem_reverse.1 (mem_of_find?_eq_some h))
  have heq := find?_some h
  rw [getD_eq_getElem _ _ hd] at heq
  refine ⟨name.take d, name.drop (d + 1), ?_, length_take_of_le hd.le, fun hm => ?_⟩
  · rw [← beq_iff_eq.1 heq, getElem_cons_drop, take_append_drop]
  · -- a later dot would have been found first
    obtain ⟨k, hk, he⟩ := mem_iff_getElem.1 hm
    rw [length_drop] at hk
    rw [getElem_drop] at he
    have hj : name.length - 1 - (d + 1 + k) < i := by omega
    have hno := hbefore _ hj
    rw [getElem_reverse, getElem_range, length_range,
      show name.length - 1 - (name.length - 1 - (d + 1 + k)) = d + 1 + k by omega,
      getD_eq_getElem _ _ (by omega), he] at hno
    exact absurd hno (by decide)

theorem make83_splits {n : List UInt8} (h : make83 name = some n) :
    ∃ base ext, n = pad 8 base ++ pad 3 ext ∧ Splits name base ext := by
  unfold make83 at h
  cases hs : make83From (lastDot name) 0 [] [] name with
  | none =>
    rw [hs] at h
    cases h
  | some p =>
    obtain ⟨base, ext⟩ := p
    rw [hs] at h
    dsimp only at h
    split at h
    · cases h
    rename_i hpos
    refine ⟨base, ext, (some.inj h).symm, ?_⟩
    cases hdot : lastDot name with
    | none =>
      rw [hdot, ← append_nil name] at hs
      obtain ⟨hlen, hc, hrest⟩ := make83From_before (fun d hd => by cases hd)
        (show ([] : List UInt8).length ≤ 8 from Nat.zero_le 8) hs
      obtain ⟨rfl, rfl⟩ := Prod.mk.inj (some.inj hrest)
      exact ⟨hpos, hlen, Nat.zero_le 3, fun h0 => (hc 0 h0).2 rfl, fun h47 => (hc 47 h47).1 rfl,
        .inl ⟨rfl, rfl, lastDot_none hdot⟩⟩
    | some d =>
      obtain ⟨pre, suf, rfl, rfl, hsuf⟩ := lastDot_some hdot
      rw [hdot] at hs
      obtain ⟨hlen, hc, hrest⟩ := make83From_before (fun d hd => by
        rw [← some.inj hd, Nat.zero_add])
        (show ([] : List UInt8).length ≤ 8 from Nat.zero_le 8) hs
      rw [make83From, Nat.zero_add, if_neg (by decide), if_pos rfl] at hrest
      obtain ⟨rfl, rfl, hc', hext⟩ := make83From_behind (Nat.lt_succ_self _) hrest
      have hall : ∀ c ∈ pre ++ 46 :: suf, c ≠ 47 ∧ c ≠ 0 := by
        intro c hcm
        rcases mem_append.1 hcm with hcm | hcm
        · exact hc c hcm
        · rcases mem_cons.1 hcm with rfl | hcm
          · decide
          · exact hc' c hcm
      refine ⟨hpos, hlen, hext (Nat.zero_le 3), fun h0 => (hall 0 h0).2 rfl,
        fun h47 => (hall 47 h47).1 rfl, .inr ⟨?_, fun hm => ?_⟩⟩
      · rw [map_append, map_cons]
        rfl
      · obtain ⟨c, hc, hcu⟩ := mem_map.1 hm
        rw [upper_eq_iff (.inl (by decide))] at hcu
        exact hsuf (hcu ▸ hc)

theorem unpad_of_not_mem (h : 32 ∉ l) : unpad l = l :=
  takeWhile_eq_self_iff.2 fun _ hb => bne_iff_ne.2 fun he => h (he ▸ hb)

theorem unpad_append_blanks (l : List UInt8) (k : Nat) :
    unpad (l ++ List.replicate k 32) = unpad l := by
  induction l with
  | nil => cases k <;> rfl
  | cons c l ih =>
    unfold unpad at ih ⊢
    rw [cons_append, takeWhile_cons, takeWhile_cons, ih]

theorem length_pad {m : Nat} (h : l.length ≤ m) : (pad m l).length = m := by
  unfold pad
  rw [length_append, length_replicate]
  omega

theorem map_range_field {p q r : List UInt8} {m : Nat} (f : Nat → UInt8) (hq : q.length = m)
    (h : ∀ k < m, f k = (p ++ q ++ r).getD (p.length + k) 0) : (List.range m).map f = q := by
  refine ext_getElem (by rw [length_map, length_range, hq]) fun k hk hk' => ?_
  rw [getElem_map, getElem_range, h k (hq ▸ hk'), append_assoc,
    getD_append_right _ _ _ _ (Nat.le_add_right _ _), Nat.add_sub_cancel_left,
    getD_append _ _ _ _ hk', getD_eq_getElem _ _ hk']

/-- What `short_name` gives of an entry that `make_83` made. -/
theorem shortName_of_fields (hb : base.length ≤ 8) (hx : ext.length ≤ 3)
    (he : ∀ k < 11, e k = (pad 8 base ++ pad 3 ext).getD k 0) : shortName e = unpad base ++
      if ext.getD 0 32 = 32 then [] else 46 :: unpad ext := by
  have h8 := length_pad hb
  have h3 := length_pad hx
  have hbase : (List.range 8).map e = pad 8 base :=
    map_range_field (p := []) (r := pad 3 ext) e h8 fun k hk => by
      rw [length_nil, Nat.zero_add, nil_append]
      exact he k (by omega)
  have hext : (List.range 3).map (fun i => e (8 + i)) = pad 3 ext :=
    map_range_field (p := pad 8 base) (r := []) (fun i => e (8 + i)) h3 fun k hk => by
      rw [append_nil, h8]
      exact he (8 + k) (by omega)
  have hfirst : e 8 = ext.getD 0 32 := by
    rw [he 8 (by omega), getD_append_right _ _ _ _ (by rw [h8]), h8]
    cases ext with
    | nil | cons c ext => rfl
  unfold shortName
  rw [hbase, hext, hfirst]
  unfold pad
  rw [unpad_append_blanks, unpad_append_blanks]

theorem Splits.shortName_plain (h : Splits name base ext) (hp : Plain name)
    (he : ∀ k < 11, e k = (pad 8 base ++ pad 3 ext).getD k 0) : shortName e = name.map upper := by
  have hup : 32 ∉ name.map upper := by
    intro hm
    obtain ⟨c, hc, hcu⟩ := mem_map.1 hm
    rw [upper_eq_iff (.inl (by decide))] at hcu
    exact hp.blank (hcu ▸ hc)
  rw [shortName_of_fields h.before h.behind he]
  rcases h.parts with ⟨hname, hnil, -⟩ | ⟨hname, -⟩
  · rw [hname] at hup
    rw [hnil, unpad_of_not_mem hup, hname]
    exact append_nil base
  · rw [hname] at hup
    have hb : 32 ∉ base := fun hm => hup (mem_append_left _ hm)
    have hx : 32 ∉ ext := fun hm => hup (mem_append_right _ (mem_cons_of_mem _ hm))
    have hne : ext ≠ [] := by
      rintro rfl
      have hlast := congrArg List.getLast? hname
      rw [getLast?_map, getLast?_concat] at hlast
      obtain ⟨c, hc, hcu⟩ := Option.map_eq_some_iff.1 hlast
      rw [upper_eq_iff (.inl (by decide))] at hcu
      exact hp.dot (hcu ▸ hc)
    obtain ⟨c, ext, rfl⟩ := exists_cons_of_ne_nil hne
    have hc : c ≠ 32 := fun hc => hx (hc ▸ mem_cons_self)
    rw [unpad_of_not_mem hb, unpad_of_not_mem hx, hname]
    exact congrArg _ (if_neg hc)

theorem length_unpad_le (l : List UInt8) : (unpad l).length ≤ l.length :=
  ( takeWhile_prefix _).length_le

theorem length_unpad_lt (h : 32 ∈ l) : (unpad l).length < l.length := by
  refine Nat.lt_of_le_of_ne (length_unpad_le l) fun he => ?_
  have hsame := ( takeWhile_prefix (· != 32)).eq_of_length he
  have hall := takeWhile_eq_self_iff.1 hsame 32 h
  exact absurd rfl (bne_iff_ne.1 hall)

section

variable (h : Splits name base ext) (he : ∀ k < 11, e k = (pad 8 base ++ pad 3 ext).getD k 0)
include h he

theorem Splits.plain_of_length (hlen : name.length ≤ (shortName e).length) :
    32 ∉ name ∧ name.getLast? ≠ some 46 := by
  rw [shortName_of_fields h.before h.behind he, length_append] at hlen
  have hb := length_unpad_le base
  have hx := length_unpad_le ext
  have hmap : (name.map upper).length = name.length := length_map ..
  have h32 : 32 ∈ name → 32 ∈ name.map upper := fun hm => mem_map.2 ⟨32, hm, by decide⟩
  have htail : (if ext.getD 0 32 = 32 then [] else 46 :: unpad ext).length ≤ (unpad ext).length + 1 := by
    split
    · exact Nat.zero_le _
    · exact Nat.le_refl _
  rcases h.parts with ⟨hname, hnil, hdot⟩ | ⟨hname, hdot⟩
  · subst hnil
    rw [hname] at hmap h32
    refine ⟨fun hm => ?_, fun hl => hdot (mem_of_getLast? hl)⟩
    have hlt := length_unpad_lt (h32 hm)
    have hzero : (if ([] : List UInt8).getD 0 32 = 32 then [] else 46 :: unpad []).length = 0 := rfl
    omega
  · rw [hname] at hmap h32
    rw [length_append, length_cons] at hmap
    refine ⟨fun hm => ?_, fun hl => ?_⟩
    · rcases mem_append.1 (h32 hm) with hmb | hmx
      · have hlt := length_unpad_lt hmb
        omega
      · have hlt := length_unpad_lt ((mem_cons.1 hmx).resolve_left (by decide))
        omega
    · have hlast := congrArg List.getLast? hname
      rw [getLast?_map, hl, getLast?_append, getLast?_cons] at hlast
      cases hx' : ext.getLast? with
      | none =>
        obtain rfl := getLast?_eq_none_iff.1 hx'
        have hzero : (if ([] : List UInt8).getD 0 32 = 32 then [] else 46 :: unpad []).length = 0 :=
          rfl
        rw [length_nil] at hmap
        omega
      | some c =>
        rw [hx'] at hlast
        have hc : upper 46 = c := some.inj hlast
        exact hdot (mem_of_getLast? (hx'.trans (congrArg some hc.symm)))

theorem Splits.head : ∃ c, name.head? = some c ∧ e 0 = upper c := by
  obtain ⟨b, base, rfl⟩ := exists_cons_of_ne_nil h.pos
  have hb : ∃ rest, name.map upper = b :: rest := by
    rcases h.parts with ⟨hname, -⟩ | ⟨hname, -⟩ <;> exact ⟨_, hname⟩
  obtain ⟨rest, hb⟩ := hb
  obtain ⟨c, l, rfl, hc, -⟩ := map_eq_cons_iff.1 hb
  exact ⟨c, rfl, by rw [he 0 (by omega), hc]; rfl⟩

end

theorem make83_plain {n : List UInt8} (h : make83 name = some n) (hp : Plain name)
    (he : ∀ k < 11, e k = n.getD k 0) :
    folded (shortName e) = folded name ∧ e 0 ≠ 0xe5 ∧ e 0 ≠ 0 ∧ (shortName e).length ≤ 12 := by
  obtain ⟨base, ext, rfl, hs⟩ := make83_splits h
  have hname := hs.shortName_plain hp he
  obtain ⟨c, hc, he0⟩ := hs.head he
  have hcm := mem_of_head? hc
  refine ⟨?_, fun h0 => hp.first ?_, fun h0 => hs.zero ?_, ?_⟩
  · have hz : 0 ∉ name.map upper := by
      intro hm
      obtain ⟨c, hc, hcu⟩ := mem_map.1 hm
      rw [upper_eq_iff (.inl (by decide))] at hcu
      exact hs.zero (hcu ▸ hc)
    unfold folded
    rw [hname, cstr_of_not_mem hz, cstr_of_not_mem hs.zero, map_map]
    exact map_congr_left fun c _ => upper_upper c
  · rw [he0, upper_eq_iff (.inr (by decide))] at h0
    rw [hc, h0]
  · rw [he0, upper_eq_iff (.inl (by decide))] at h0
    exact h0 ▸ hcm
  · have hbefore := hs.before
    have hbehind := hs.behind
    rw [hname]
    rcases hs.parts with ⟨hm, -⟩ | ⟨hm, -⟩
    · rw [hm]
      omega
    · rw [hm, length_append, length_cons]
      omega

/-- The names that come back are those without a blank, without a dot at their end, and not with the
first byte of a deleted entry. -/
theorem faithful_iff (name : List UInt8) : Faithful name ↔ make83 name = none ∨ Plain name := by
  constructor
  · intro hf
    cases h : make83 name with
    | none => exact .inl rfl
    | some n =>
      right
      obtain ⟨base, ext, rfl, hs⟩ := make83_splits h
      have he : ∀ k < 11, (fun k => (pad 8 base ++ pad 3 ext).getD k 0 : Sector) k =
          (pad 8 base ++ pad 3 ext).getD k 0 := fun _ _ => rfl
      obtain ⟨heq, hfirst⟩ := hf _ h _ he
      have hlen := congrArg List.length (nameEq_iff.1 heq)
      unfold folded at hlen
      rw [length_map, length_map, cstr_of_not_mem hs.zero] at hlen
      have hle : (cstr (shortName fun k => (pad 8 base ++ pad 3 ext).getD k 0)).length ≤
          (shortName fun k => (pad 8 base ++ pad 3 ext).getD k 0).length :=
        ( takeWhile_prefix _).length_le
      obtain ⟨hblank, hdot⟩ := hs.plain_of_length he (hlen.symm.le.trans hle)
      refine ⟨hblank, hdot, fun hhead => hfirst ?_⟩
      obtain ⟨c, hc, he0⟩ := hs.head he
      rw [he0, some.inj (hc.symm.trans hhead)]
      decide
  · rintro (h | hp) n hn e he
    · rw [h] at hn
      cases hn
    · obtain ⟨hname, hfirst, -⟩ := make83_plain hn hp he
      exact ⟨nameEq_iff.2 hname, hfirst⟩

end Short

/-! ## Paths -/

/-- The last part of a path, whatever slashes are behind it. -/
def finalPart (path : List UInt8) : List UInt8 :=
  lastPart (path.reverse.dropWhile (· == 47)).reverse

section Paths

variable {path p q l part : List UInt8}

theorem components_append (p q part : List UInt8) :
    components (p ++ 47 :: q) part = components p part ++ components q [] := by
  induction p generalizing part with
  | nil => cases part <;> rfl
  | cons b p ih =>
    rw [cons_append, components, components]
    split
    · split
      · exact ih _
      · rw [ih, cons_append]
    · split
      · rw [ih, cons_append]
      · exact ih _

theorem components_piece (h : 47 ∉ l) (hpart : part.length ≤ 63) (hne : part ++ l ≠ []) :
    ∃ cs x, components l part = cs ++ [x] ∧
      (cs = [] ∧ x = part ++ l ∨ 63 < (part ++ l).length ∧ ∃ c ∈ cs, c.length = 63) := by
  induction l generalizing part with
  | nil =>
    rw [append_nil] at hne ⊢
    obtain ⟨b, part, rfl⟩ := exists_cons_of_ne_nil hne
    exact ⟨[], b :: part, rfl, .inl ⟨rfl, rfl⟩⟩
  | cons b l ih =>
    obtain ⟨hb, hl⟩ := not_or.1 (fun hm => h (mem_cons.2 hm))
    rw [components, if_neg (Ne.symm hb)]
    by_cases hfull : part.length = 63
    · obtain ⟨cs, x, hcs, -⟩ := @ih [b] hl (by simp) (by simp)
      rw [if_pos hfull, hcs]
      exact ⟨part :: cs, x, rfl, .inr ⟨by simp [hfull], part, mem_cons_self, hfull⟩⟩
    · rw [if_neg hfull]
      have hassoc : part ++ [b] ++ l = part ++ b :: l := by rw [append_assoc]; rfl
      obtain ⟨cs, x, hcs, h⟩ := @ih (part ++ [b]) hl (by simp; omega) (by simp)
      rw [hassoc] at h
      exact ⟨cs, x, hcs, h⟩

theorem not_slash_of_mem_reverse (h : 47 ∉ l) : ∀ b ∈ l.reverse, (b != 47) = true :=
  fun _ hb => bne_iff_ne.2 fun he => h (he ▸ mem_reverse.1 hb)

theorem lastPart_append (p : List UInt8) (h : 47 ∉ l) : lastPart (p ++ 47 :: l) = l := by
  unfold lastPart
  rw [reverse_append, reverse_cons, append_assoc,
    takeWhile_append_of_pos (not_slash_of_mem_reverse h)]
  change (l.reverse ++ []).reverse = l
  rw [append_nil, reverse_reverse]

theorem lastPart_of_not_mem (h : 47 ∉ l) : lastPart l = l := by
  unfold lastPart
  rw [takeWhile_eq_self_iff.2 (not_slash_of_mem_reverse h), reverse_reverse]

theorem slash_cases (path : List UInt8) : 47 ∉ path ∨ ∃ p l, path = p ++ 47 :: l ∧ 47 ∉ l := by
  by_cases h : 47 ∈ path
  · obtain ⟨q, r, hqr, hq⟩ := eq_append_cons_of_mem (mem_reverse.2 h)
    right
    refine ⟨r.reverse, q.reverse, ?_, fun hm => hq (mem_reverse.1 hm)⟩
    rw [← reverse_reverse path, hqr, reverse_append, reverse_cons, append_assoc]
    rfl
  · exact .inl h

theorem parentPart_append (p : List UInt8) (h : 47 ∉ l) :
    parentPart (p ++ 47 :: l) = some (p.take 127) := by
  unfold parentPart
  rw [lastPart_append p h, if_pos (mem_append_right _ mem_cons_self), length_append,
    length_cons, show p.length + (l.length + 1) - l.length - 1 = p.length by omega,
    take_left']
  rfl

theorem parentPart_of_not_mem (h : 47 ∉ l) : parentPart l = none := if_neg h

theorem components_skip : ∀ path : List UInt8, components (skipSlashes path) [] = components path []
  | [] => rfl
  | b :: path => by
    unfold skipSlashes
    rw [dropWhile_cons]
    split
    · rename_i h
      rw [beq_iff_eq.1 h]
      exact components_skip path
    · rfl

theorem components_strip (path : List UInt8) :
    components (path.reverse.dropWhile (· == 47)).reverse [] = components path [] := by
  induction path using List.reverseRecOn with
  | nil => rfl
  | append_singleton path b ih =>
    rw [reverse_append, reverse_singleton, singleton_append, dropWhile_cons]
    split
    · rename_i h
      rw [ih, beq_iff_eq.1 h, components_append]
      exact (append_nil _).symm
    · rw [reverse_cons, reverse_reverse]

theorem components_final (path : List UInt8) :
    components path [] = [] ∨ ∃ cs x, components path [] = cs ++ [x] ∧
      (x = finalPart path ∨ 63 < (finalPart path).length ∧ ∃ c ∈ cs, c.length = 63) := by
  rw [← components_strip]
  unfold finalPart
  have hend : ∀ l : List UInt8, (path.reverse.dropWhile (· == 47)).reverse ≠ l ++ [47] := by
    intro l he
    have hrev := congrArg List.reverse he
    rw [reverse_reverse, reverse_append] at hrev
    have hhead := head?_dropWhile_not (· == 47) path.reverse
    rw [hrev] at hhead
    cases hhead
  generalize (path.reverse.dropWhile (· == 47)).reverse = q at hend ⊢
  have hnil : ([] : List UInt8).length ≤ 63 := Nat.zero_le 63
  rcases slash_cases q with h | ⟨p, l, rfl, h⟩
  · rw [lastPart_of_not_mem h]
    by_cases hq : q = []
    · left
      rw [hq]
      rfl
    · obtain ⟨cs, x, hcs, hx⟩ := components_piece h hnil hq
      exact .inr ⟨cs, x, hcs, hx.imp_left And.right⟩
  · rw [lastPart_append p h, components_append]
    have hl : l ≠ [] := by
      rintro rfl
      exact hend p rfl
    obtain ⟨cs, x, hcs, hx⟩ := components_piece h hnil hl
    refine .inr ⟨components p [] ++ cs, x, by rw [hcs, append_assoc], ?_⟩
    rcases hx with ⟨-, rfl⟩ | ⟨hlen, c, hc, hc63⟩
    · exact .inl rfl
    · exact .inr ⟨hlen, c, mem_append_right _ hc, hc63⟩

theorem components_create {l : List UInt8} (h : 47 ∉ l) (hpos : l ≠ []) (hlen : l.length ≤ 63) :
    components l [] = [l] ∧ ∀ p, components (p ++ 47 :: l) [] = components p [] ++ [l] := by
  obtain ⟨cs, x, hcs, hx⟩ := components_piece h (show ([] : List UInt8).length ≤ 63 from Nat.zero_le 63) hpos
  rcases hx with ⟨rfl, rfl⟩ | ⟨hlong, -⟩
  · exact ⟨hcs, fun p => by rw [components_append, hcs]; rfl⟩
  · rw [nil_append] at hlong
    omega

end Paths

end Verkos.Stam.Fat
