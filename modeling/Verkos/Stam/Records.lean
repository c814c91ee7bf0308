import Verkos.Stam.FatDir
import Verkos.Stam.Getdents
import Verkos.Stam.Names

/-!
# What a directory answers to

A directory is a list of entries, and what an entry answers to is its short name and the long name put
together in front of it. `Neat` says of such a list that nothing follows its end, that no long name
hangs on what was in the buffer before, and that no name is answered twice. It is kept when one entry
is made, changed or removed, under conditions on that entry alone.
-/

namespace Verkos.Stam.Fat

open Verkos.Lib
open Option (some.inj)

/-- The state of the buffer for long names behind an entry. -/
def Lfn.over (l : Lfn) (x : Slot) : Lfn :=
  match classify x.entry with
  | .long => l.part x.entry
  | _ => l.forget

/-- And behind several. -/
def through (xs : List Slot) (l : Lfn) : Lfn := xs.foldl Lfn.over l

/-- The long name in front of the entry with a number. -/
def longName (xs : List Slot) (junk : Nat → UInt8) (i : Nat) : List UInt8 :=
  (through (xs.take i) ⟨junk, 0⟩).name

/-- The entry with a number is live and answers to a name. -/
structure AnswersAt (xs : List Slot) (junk : Nat → UInt8) (i : Nat) (x : Slot)
    (name : List UInt8) : Prop where
  at' : xs[i]? = some x
  live : classify x.entry = .live
  answers : nameEq (shortName x.entry) name = true ∨
    longName xs junk i ≠ [] ∧ nameEq (longName xs junk i) name = true

/-- Nothing is behind the end of the directory. -/
def Ended (xs : List Slot) : Prop :=
  ∀ (i j : Nat) (x y : Slot), xs[i]? = some x → xs[j]? = some y → i ≤ j →
    classify x.entry = .fin → classify y.entry = .fin

/-- A directory in order. -/
structure Neat (xs : List Slot) : Prop where
  ended : Ended xs
  steady : ∀ (i : Nat) (x : Slot), xs[i]? = some x → classify x.entry = .live →
    ∀ junk junk', longName xs junk i = longName xs junk' i
  unique : ∀ junk name i j x y, AnswersAt xs junk i x name → AnswersAt xs junk j y name → i = j

/-- The same place and the same 32 bytes. -/
structure Slot.Agrees (x y : Slot) : Prop where
  spot : y.1 = x.1
  bytes : ∀ k < 32, y.entry k = x.entry k

/-- The same entries, but for the one with a number. -/
structure Changes (i : Nat) (xs ys : List Slot) : Prop where
  length : ys.length = xs.length
  others : ∀ j x y, j ≠ i → xs[j]? = some x → ys[j]? = some y → x.Agrees y

/-! ## Entries that agree -/

section Agreeing

variable {x y : Slot} {l : Lfn} {name : List UInt8}

theorem entry_zero (x : Slot) : x.entry 0 = x.2 x.1.off := rfl

theorem shortName_congr {e e' : Sector} (h : ∀ k < 11, e' k = e k) : shortName e' = shortName e := by
  have h8 : (List.range 8).map e' = (List.range 8).map e :=
    List.map_congr_left fun k hk => h k (by have := List.mem_range.1 hk; omega)
  have h3 : (List.range 3).map (fun k => e' (8 + k)) = (List.range 3).map fun k => e (8 + k) :=
    List.map_congr_left fun k hk => h (8 + k) (by have := List.mem_range.1 hk; omega)
  unfold shortName
  rw [h8, h3, h 8 (by omega)]

theorem Slot.Agrees.classify_eq (h : x.Agrees y) : classify y.entry = classify x.entry :=
  classify_congr (h.bytes 0 (by omega)) (h.bytes 11 (by omega))

theorem Slot.Agrees.shortName_eq (h : x.Agrees y) : shortName y.entry = shortName x.entry :=
  shortName_congr fun k hk => h.bytes k (by omega)

theorem Slot.Agrees.handle_eq (h : x.Agrees y) : y.handle = x.handle := by
  have h16 : ∀ o, o + 2 ≤ 32 → rd16 y.entry o = rd16 x.entry o := fun o ho =>
    rd16_congr fun i _ hi => h.bytes i (by omega)
  have h32 : rd32 y.entry 28 = rd32 x.entry 28 := rd32_congr fun i _ hi => h.bytes i (by omega)
  have hclus : entryCluster y.entry = entryCluster x.entry := by
    unfold entryCluster
    rw [h16 20 (by omega), h16 26 (by omega)]
  unfold Slot.handle handleAt
  rw [hclus, h32, h.bytes 11 (by omega), h.spot]

theorem Slot.Agrees.over_eq (h : x.Agrees y) (l : Lfn) : l.over y = l.over x := by
  have hpart : l.part y.entry = l.part x.entry := by
    have hoff : ∀ i < 13, lfnOffsets.getD i 0 + 2 ≤ 32 := by decide
    have hchar : ∀ i < 13, lfnChar y.entry i = lfnChar x.entry i := by
      intro i hi
      have hle := hoff i hi
      unfold lfnChar
      rw [rd16_congr fun k _ hk => h.bytes k (by omega)]
    unfold Lfn.part
    rw [h.bytes 0 (by omega)]
    dsimp only
    split
    · congr 1
      funext i
      split
      · rfl
      · split
        · rename_i hi
          exact hchar _ (by omega)
        · rfl
    · rfl
  unfold Lfn.over
  rw [h.classify_eq, hpart]

end Agreeing

/-! ## Looking a name up -/

section Looking

variable {xs ys : List Slot} {x y : Slot} {l : Lfn} {i j : Nat} {name : List UInt8}
  {junk : Nat → UInt8}

theorem answers_iff {e : Sector} : answers name l e = true ↔ nameEq (shortName e) name = true ∨
    l.name ≠ [] ∧ nameEq l.name name = true := by
  unfold answers
  rw [Bool.or_eq_true, Bool.and_eq_true, bne_iff_ne]

theorem through_take_succ (xs : List Slot) (l : Lfn) (j : Nat) : through (xs.take (j + 1)) l =
    match xs[j]? with
    | some x => (through (xs.take j) l).over x
    | none => through (xs.take j) l := by
  unfold through
  rw [List.take_add_one, List.foldl_append]
  cases xs[j]? <;> rfl

/-- Names are the same up to case, so they are answered by the same entries. -/
theorem AnswersAt.congr {name' : List UInt8} (h : AnswersAt xs junk i x name)
    (hn : folded name = folded name') : AnswersAt xs junk i x name' where
  at' := h.at'
  live := h.live
  answers := by rw [← nameEq_congr hn, ← nameEq_congr hn]; exact h.answers

/-- What is found is an entry that answers, and if nothing is found none does. -/
theorem lookIn_cases (name : List UInt8) {xs : List Slot} {l : Lfn} (he : Ended xs) :
    (∃ i x, lookIn name xs l = some x ∧ xs[i]? = some x ∧ classify x.entry = .live ∧
      answers name (through (xs.take i) l) x.entry = true) ∨
    lookIn name xs l = none ∧ ∀ (i : Nat) (x : Slot), xs[i]? = some x → classify x.entry = .live →
      answers name (through (xs.take i) l) x.entry = false := by
  induction xs generalizing l with
  | nil =>
    refine .inr ⟨rfl, ?_⟩
    rintro _ _ ⟨⟩
  | cons x xs ih =>
    have htail : Ended xs := fun i j y z hy hz hij => he (i + 1) (j + 1) y z hy hz (by omega)
    -- the entry does not answer, or is not one
    have hskip : (classify x.entry = .live → answers name l x.entry = false) →
        lookIn name (x :: xs) l = lookIn name xs (l.over x) →
        (∃ i y, lookIn name (x :: xs) l = some y ∧ (x :: xs)[i]? = some y ∧
          classify y.entry = .live ∧ answers name (through ((x :: xs).take i) l) y.entry = true) ∨
        lookIn name (x :: xs) l = none ∧ ∀ (i : Nat) (y : Slot), (x :: xs)[i]? = some y →
          classify y.entry = .live → answers name (through ((x :: xs).take i) l) y.entry = false := by
      intro hno heq
      rcases ih (l := l.over x) htail with ⟨i, y, hl, hi, hy, ha⟩ | ⟨hl, hall⟩
      · exact .inl ⟨i + 1, y, heq.trans hl, hi, hy, ha⟩
      · refine .inr ⟨heq.trans hl, fun i y hi hy => ?_⟩
        cases i with
        | zero =>
          obtain rfl := some.inj hi
          exact hno hy
        | succ i => exact hall i y hi hy
    cases hc : classify x.entry with
    | fin =>
      refine .inr ⟨by rw [lookIn, hc], fun i y hi hy => ?_⟩
      rw [he 0 i x y rfl hi (Nat.zero_le i) hc] at hy
      cases hy
    | deleted | long | label =>
      exact hskip (by rw [hc]; exact Entry.noConfusion) (by rw [lookIn, Lfn.over, hc])
    | live =>
      by_cases ha : answers name l x.entry = true
      · exact .inl ⟨0, x, by rw [lookIn, hc]; exact if_pos ha, rfl, hc, ha⟩
      · rw [Bool.not_eq_true] at ha
        refine hskip (fun _ => ha) ?_
        rw [lookIn, Lfn.over, hc]
        exact if_neg (by rw [ha]; exact Bool.noConfusion)

theorem Ended.answersAt_of_lookIn (he : Ended xs) (h : lookIn name xs ⟨junk, 0⟩ = some x) :
    ∃ i, AnswersAt xs junk i x name := by
  rcases lookIn_cases name he (l := ⟨junk, 0⟩) with ⟨i, y, hl, hi, hy, ha⟩ | ⟨hl, -⟩
  · obtain rfl := some.inj (h.symm.trans hl)
    exact ⟨i, hi, hy, answers_iff.1 ha⟩
  · rw [h] at hl
    cases hl

theorem Ended.lookIn_eq_none (he : Ended xs) :
    lookIn name xs ⟨junk, 0⟩ = none ↔ ∀ i x, ¬AnswersAt xs junk i x name := by
  rcases lookIn_cases name he (l := ⟨junk, 0⟩) with ⟨i, y, hl, hi, hy, ha⟩ | ⟨hl, hall⟩
  · rw [hl]
    exact ⟨nofun, fun h => absurd ⟨hi, hy, answers_iff.1 ha⟩ (h i y)⟩
  · refine ⟨fun _ i x ha => ?_, fun _ => hl⟩
    have hno := hall i x ha.at' ha.live
    rw [answers_iff.2 ha.answers] at hno
    cases hno

theorem Neat.lookIn_eq (hn : Neat xs) (h : AnswersAt xs junk i x name) :
    lookIn name xs ⟨junk, 0⟩ = some x := by
  cases hl : lookIn name xs ⟨junk, 0⟩ with
  | none => exact absurd h (hn.ended.lookIn_eq_none.1 hl i x)
  | some y =>
    obtain ⟨j, hj⟩ := hn.ended.answersAt_of_lookIn hl
    obtain rfl := hn.unique junk name i j x y h hj
    exact hj.at'.symm.trans h.at'

theorem Neat.answersAt_any (hn : Neat xs) (h : AnswersAt xs junk i x name) (junk' : Nat → UInt8) :
    AnswersAt xs junk' i x name where
  at' := h.at'
  live := h.live
  answers := by
    rw [hn.steady i x h.at' h.live junk' junk]
    exact h.answers

theorem mem_liveSlots {xs : List Slot} (he : Ended xs) :
    x ∈ liveSlots xs ↔ ∃ i : Nat, xs[i]? = some x ∧ classify x.entry = .live := by
  induction xs with
  | nil =>
    refine iff_of_false List.not_mem_nil ?_
    rintro ⟨i, ⟨⟩, -⟩
  | cons y xs ih =>
    have htail : Ended xs := fun i j a b ha hb hij => he (i + 1) (j + 1) a b ha hb (by omega)
    have hskip : classify y.entry ≠ .live → (x ∈ liveSlots xs ↔
        ∃ i : Nat, (y :: xs)[i]? = some x ∧ classify x.entry = .live) := by
      intro hy
      rw [ih htail]
      constructor
      · rintro ⟨i, hi, hx⟩
        exact ⟨i + 1, hi, hx⟩
      · rintro ⟨i, hi, hx⟩
        cases i with
        | zero => exact absurd (some.inj hi ▸ hx) hy
        | succ i => exact ⟨i, hi, hx⟩
    rw [liveSlots]
    cases hc : classify y.entry with
    | fin =>
      refine iff_of_false List.not_mem_nil ?_
      rintro ⟨i, hi, hx⟩
      rw [he 0 i y x rfl hi (Nat.zero_le i) hc] at hx
      cases hx
    | deleted | long | label => exact hskip (by rw [hc]; exact Entry.noConfusion)
    | live =>
      rw [List.mem_cons, ih htail]
      constructor
      · rintro (rfl | ⟨i, hi, hx⟩)
        · exact ⟨0, rfl, hc⟩
        · exact ⟨i + 1, hi, hx⟩
      · rintro ⟨i, hi, hx⟩
        cases i with
        | zero => exact .inl (some.inj hi).symm
        | succ i => exact .inr ⟨i, hi, hx⟩

theorem mem_listing {z : Listed} : ∀ {xs : List Slot} {l : Lfn}, z ∈ listing xs l →
    ∃ (i : Nat) (x : Slot), xs[i]? = some x ∧ classify x.entry = .live ∧ z = listed (through (xs.take i) l) x.entry
  | [], _, h => absurd h List.not_mem_nil
  | y :: xs, l, h => by
    have hskip : z ∈ listing xs (l.over y) → ∃ (i : Nat) (x : Slot), (y :: xs)[i]? = some x ∧
        classify x.entry = .live ∧ z = listed (through ((y :: xs).take i) l) x.entry := by
      intro hz
      obtain ⟨i, x, hi, hx, he⟩ := mem_listing hz
      exact ⟨i + 1, x, hi, hx, he⟩
    unfold Lfn.over at hskip
    rw [listing] at h
    cases hc : classify y.entry with
    | fin =>
      rw [hc] at h
      exact absurd h List.not_mem_nil
    | deleted | long | label =>
      rw [hc] at h hskip
      exact hskip h
    | live =>
      rw [hc] at h hskip
      rcases List.mem_cons.1 h with rfl | h
      · exact ⟨0, y, rfl, hc, rfl⟩
      · exact hskip h

theorem answersAt_listed {xs : List Slot} {i : Nat} {x : Slot} (hx : xs[i]? = some x)
    (hl : classify x.entry = .live) (junk : Nat → UInt8) :
    AnswersAt xs junk i x (listed (through (xs.take i) ⟨junk, 0⟩) x.entry).name := by
  refine ⟨hx, hl, ?_⟩
  unfold listed
  dsimp only
  split
  · exact .inl (nameEq_iff.2 rfl)
  · rename_i hne
    exact .inr ⟨hne, nameEq_iff.2 rfl⟩

/-- And every live entry is listed. -/
theorem Ended.listed_mem : ∀ {xs : List Slot} {l : Lfn} {i : Nat} {x : Slot}, Ended xs →
    xs[i]? = some x → classify x.entry = .live →
      listed (through (xs.take i) l) x.entry ∈ listing xs l
  | [], _, _, _, _, hx, _ => nomatch hx
  | y :: xs, l, 0, x, _, hx, hl => by
    obtain rfl := some.inj hx
    rw [listing, hl]
    exact List.mem_cons_self
  | y :: xs, l, i + 1, x, he, hx, hl => by
    have htail : Ended xs := fun i j a b ha hb hij => he (i + 1) (j + 1) a b ha hb (by omega)
    have hmem := htail.listed_mem (l := l.over y) hx hl
    change listed (through (xs.take i) (l.over y)) x.entry ∈ _
    unfold Lfn.over at hmem ⊢
    rw [listing]
    cases hc : classify y.entry with
    | fin =>
      rw [he 0 (i + 1) y x rfl hx (Nat.zero_le _) hc] at hl
      cases hl
    | live =>
      rw [hc] at hmem
      exact List.mem_cons_of_mem _ hmem
    | deleted | long | label =>
      rw [hc] at hmem
      exact hmem

end Looking

/-! ## One entry changes -/

section Changing

variable {xs ys : List Slot} {x y : Slot} {i : Nat} {junk : Nat → UInt8} {name : List UInt8}

/-- An entry at which a long name ends. -/
def Slot.Breaks (x : Slot) : Prop := classify x.entry ≠ .long

theorem Slot.Breaks.over_eq (h : x.Breaks) (l : Lfn) : l.over x = l.forget := by
  unfold Slot.Breaks at h
  unfold Lfn.over
  cases hc : classify x.entry with
  | long => exact absurd hc h
  | _ => rfl

theorem Changes.at' (h : Changes i xs ys) {j : Nat} (hx : xs[j]? = some x) : ∃ y, ys[j]? = some y := by
  obtain ⟨hj, -⟩ := List.getElem?_eq_some_iff.1 hx
  exact ⟨_, List.getElem?_eq_getElem (h.length ▸ hj)⟩

theorem Changes.symm (h : Changes i xs ys) : Changes i ys xs where
  length := h.length.symm
  others j x y hj hx hy := by
    have ha := h.others j y x hj hy hx
    exact ⟨ha.spot.symm, fun k hk => (ha.bytes k hk).symm⟩

section

variable (h : Changes i xs ys) (hx : xs[i]? = some x) (hy : ys[i]? = some y) (hbx : x.Breaks)
  (hby : y.Breaks)
include h hx hy hbx hby

theorem Changes.longName_eq (junk : Nat → UInt8) (j : Nat) :
    longName ys junk j = longName xs junk j := by
  have hthrough : ∀ j, through (ys.take j) ⟨junk, 0⟩ = through (xs.take j) ⟨junk, 0⟩ := by
    intro j
    induction j with
    | zero => rfl
    | succ j ih =>
      rw [through_take_succ, through_take_succ, ih]
      cases hj : xs[j]? with
      | none =>
        have hnone : ys[j]? = none := by
          rw [List.getElem?_eq_none_iff] at hj ⊢
          rwa [h.length]
        rw [hnone]
      | some a =>
        obtain ⟨b, hb⟩ := h.at' hj
        rw [hb]
        dsimp only
        by_cases hji : j = i
        · subst hji
          obtain rfl := some.inj (hx.symm.trans hj)
          obtain rfl := some.inj (hy.symm.trans hb)
          rw [hbx.over_eq, hby.over_eq]
        · exact (h.others j a b hji hj hb).over_eq _
  unfold longName
  rw [hthrough]

theorem Changes.answersAt {j : Nat} {b : Slot} (hj : j ≠ i) (ha : AnswersAt ys junk j b name) :
    ∃ a, a.Agrees b ∧ AnswersAt xs junk j a name := by
  obtain ⟨a, hxa⟩ := h.symm.at' ha.at'
  have hab := h.others j a b hj hxa ha.at'
  refine ⟨a, hab, hxa, hab.classify_eq ▸ ha.live, ?_⟩
  rw [← h.longName_eq hx hy hbx hby, ← hab.shortName_eq]
  exact ha.answers

end

/-- An entry is made, changed or removed. What it is now either answered as before, or has no long name
in front of it and a short name that nothing else answers to. -/
theorem Neat.changed (hn : Neat xs) (h : Changes i xs ys) (hx : xs[i]? = some x)
    (hy : ys[i]? = some y) (hbx : x.Breaks) (hby : y.Breaks) (hfin : classify y.entry ≠ .fin)
    (hbefore : ∀ j a, j < i → xs[j]? = some a → classify a.entry ≠ .fin)
    (hname : classify y.entry = .live →
      classify x.entry = .live ∧ shortName y.entry = shortName x.entry ∨
      (∀ junk, longName xs junk i = []) ∧ ∀ junk j a name, j ≠ i →
        AnswersAt xs junk j a name → nameEq (shortName y.entry) name = false) : Neat ys := by
  have hlong := h.longName_eq hx hy hbx hby
  -- what answers now answered before, unless it is the new entry
  have hback : ∀ {junk name j b}, AnswersAt ys junk j b name →
      (∃ a, AnswersAt xs junk j a name) ∨ j = i ∧ nameEq (shortName y.entry) name = true ∧
        ∀ k a, k ≠ i → ¬AnswersAt xs junk k a name := by
    intro junk name j b ha
    by_cases hj : j = i
    · subst hj
      obtain rfl := some.inj (hy.symm.trans ha.at')
      rcases hname ha.live with ⟨hlive, hshort⟩ | ⟨hnone, hother⟩
      · exact .inl ⟨x, hx, hlive, by rw [← hlong, ← hshort]; exact ha.answers⟩
      · have hshort : nameEq (shortName y.entry) name = true := by
          rcases ha.answers with hs | ⟨hl, -⟩
          · exact hs
          · exact absurd (hlong junk j ▸ hnone junk) hl
        refine .inr ⟨rfl, hshort, fun k a hk hka => ?_⟩
        rw [hother junk k a name hk hka] at hshort
        cases hshort
    · obtain ⟨a, -, haa⟩ := h.answersAt hx hy hbx hby hj ha
      exact .inl ⟨a, haa⟩
  refine ⟨fun j k a b hja hkb hjk hfa => ?_, fun j a hja hla junk junk' => ?_,
    fun junk name j k a b hja hkb => ?_⟩
  · have hji : j ≠ i := by
      rintro rfl
      rw [some.inj (hja.symm.trans hy)] at hfa
      exact hfin hfa
    obtain ⟨a', ha'⟩ := h.symm.at' hja
    obtain ⟨b', hb'⟩ := h.symm.at' hkb
    rw [(h.others j a' a hji ha' hja).classify_eq] at hfa
    by_cases hki : k = i
    · exact absurd hfa (hbefore j a' (by omega) ha')
    · rw [(h.others k b' b hki hb' hkb).classify_eq]
      exact hn.ended j k a' b' ha' hb' hjk hfa
  · rw [hlong, hlong]
    by_cases hji : j = i
    · subst hji
      obtain rfl := some.inj (hy.symm.trans hja)
      rcases hname hla with ⟨hlive, -⟩ | ⟨hnone, -⟩
      · exact hn.steady j x hx hlive junk junk'
      · rw [hnone, hnone]
    · obtain ⟨a', ha'⟩ := h.symm.at' hja
      refine hn.steady j a' ha' ?_ junk junk'
      rw [← (h.others j a' a hji ha' hja).classify_eq]
      exact hla
  · rcases hback hja with ⟨a', ha'⟩ | ⟨rfl, -, hno⟩
    · rcases hback hkb with ⟨b', hb'⟩ | ⟨rfl, -, hno⟩
      · exact hn.unique junk name j k a' b' ha' hb'
      · by_contra hne
        exact hno j a' hne ha'
    · by_contra hne
      rcases hback hkb with ⟨b', hb'⟩ | ⟨rfl, -⟩
      · exact hno k b' (Ne.symm hne) hb'
      · exact hne rfl

theorem longName_append {j : Nat} (hj : j ≤ xs.length) :
    longName (xs ++ ys) junk j = longName xs junk j := by
  unfold longName
  rw [List.take_append_of_le_length hj]

theorem AnswersAt.of_append (hys : ∀ y ∈ ys, classify y.entry = .fin)
    (ha : AnswersAt (xs ++ ys) junk i x name) : i < xs.length ∧ AnswersAt xs junk i x name := by
  have hlt : i < xs.length := by
    by_contra hle
    have hx := ha.at'
    rw [List.getElem?_append_right (by omega)] at hx
    have hl := ha.live
    rw [hys x (List.mem_of_getElem? hx)] at hl
    cases hl
  refine ⟨hlt, ?_, ha.live, longName_append hlt.le ▸ ha.answers⟩
  have hx := ha.at'
  rwa [List.getElem?_append_left hlt] at hx

theorem AnswersAt.append (ha : AnswersAt xs junk i x name) (ys : List Slot) :
    AnswersAt (xs ++ ys) junk i x name := by
  obtain ⟨hlt, -⟩ := List.getElem?_eq_some_iff.1 ha.at'
  refine ⟨?_, ha.live, (longName_append hlt.le).symm ▸ ha.answers⟩
  rw [List.getElem?_append_left hlt]
  exact ha.at'

theorem Neat.append (hn : Neat xs) (hys : ∀ y ∈ ys, classify y.entry = .fin) : Neat (xs ++ ys) := by
  have hcases : ∀ {j : Nat} {a : Slot}, (xs ++ ys)[j]? = some a →
      j < xs.length ∧ xs[j]? = some a ∨ xs.length ≤ j ∧ classify a.entry = .fin := by
    intro j a ha
    rcases Nat.lt_or_ge j xs.length with hj | hj
    · rw [List.getElem?_append_left hj] at ha
      exact .inl ⟨hj, ha⟩
    · rw [List.getElem?_append_right hj] at ha
      exact .inr ⟨hj, hys a (List.mem_of_getElem? ha)⟩
  refine ⟨fun j k a b hja hkb hjk hfa => ?_, fun j a hja hla junk junk' => ?_,
    fun junk name j k a b hja hkb =>
      hn.unique junk name j k a b (hja.of_append hys).2 (hkb.of_append hys).2⟩
  · rcases hcases hkb with ⟨hk, hkb'⟩ | ⟨-, hf⟩
    · rcases hcases hja with ⟨-, hja'⟩ | ⟨hj, -⟩
      · exact hn.ended j k a b hja' hkb' hjk hfa
      · omega
    · exact hf
  · rcases hcases hja with ⟨hj, hja'⟩ | ⟨-, hf⟩
    · rw [longName_append hj.le, longName_append hj.le]
      exact hn.steady j a hja' hla junk junk'
    · rw [hla] at hf
      cases hf

end Changing

/-! ## The places of a directory -/

/-- The places of the entries of a chain. -/
def spots (g : Geo) (cs : List Nat) : List Spot :=
  cs.flatMap fun c => (List.range g.secPerClus).flatMap fun s =>
    offsets.map fun o => ⟨c, clusSector g c + s, o⟩

/-- The chain that starts at a cluster, as far as `n` clusters. -/
def chainFrom (g : Geo) (v : Volume) : Nat → Nat → List Nat
  | 0, _ => []
  | n + 1, c => if c = 0 then [] else c :: chainFrom g v n (next g v c)

/-- The entries of the directory that starts at a cluster. -/
def dirSlots (g : Geo) (fuel : Nat) (v : Volume) (start : Nat) : List Slot :=
  slots g v (chainFrom g v fuel start)

section Places

variable {g : Geo} {v v' : Volume} {cs : List Nat} {i j : Nat} {p q : Spot} {x : Slot} {sec off : Nat}

theorem slots_eq : slots g v cs = (spots g cs).map fun p => (p, v p.sec) := by
  unfold slots spots clusterSlots sectorSlots
  simp only [List.map_flatMap, List.map_map]
  rfl

theorem getElem_slots : (slots g v cs)[i]? = ((spots g cs)[i]?).map fun p => (p, v p.sec) := by
  rw [slots_eq, List.getElem?_map]

theorem length_slots : (slots g v cs).length = (spots g cs).length := by
  rw [slots_eq, List.length_map]

theorem spots_append (cs cs' : List Nat) : spots g (cs ++ cs') = spots g cs ++ spots g cs' :=
  List.flatMap_append

theorem slots_append (cs cs' : List Nat) : slots g v (cs ++ cs') = slots g v cs ++ slots g v cs' :=
  List.flatMap_append

theorem mem_spots : p ∈ spots g cs ↔ p.clus ∈ cs ∧ g.InClus p.clus p.sec ∧ p.off % 32 = 0 ∧ p.off < 512 := by
  unfold spots
  constructor
  · intro h
    obtain ⟨c, hc, h⟩ := List.mem_flatMap.1 h
    obtain ⟨s, hs, h⟩ := List.mem_flatMap.1 h
    obtain ⟨o, ho, rfl⟩ := List.mem_map.1 h
    obtain ⟨hmod, hlt⟩ := mem_offsets.1 ho
    exact ⟨hc, inClus_of_lt (List.mem_range.1 hs), hmod, hlt⟩
  · rintro ⟨hc, ⟨hlo, hhi⟩, hmod, hlt⟩
    refine List.mem_flatMap.2 ⟨p.clus, hc, List.mem_flatMap.2 ⟨p.sec - clusSector g p.clus,
      List.mem_range.2 (by omega), List.mem_map.2 ⟨p.off, mem_offsets.2 ⟨hmod, hlt⟩, ?_⟩⟩⟩
    rw [show clusSector g p.clus + (p.sec - clusSector g p.clus) = p.sec by omega]

theorem Chain.spots_pairwise (h : Chain g v cs) (ok : g.Ok) :
    (spots g cs).Pairwise fun p q => ¬(p.sec = q.sec ∧ p.off = q.off) := by
  have hoff : offsets.Pairwise (· ≠ ·) := by decide
  unfold spots
  refine List.pairwise_flatMap.2 ⟨fun c hc => ?_, ?_⟩
  · refine List.pairwise_flatMap.2 ⟨fun s _ => ?_, ?_⟩
    · exact List.pairwise_map.2 (hoff.imp fun hne he => hne he.2)
    · refine List.Pairwise.imp (fun {s s'} hlt p hp q hq he => ?_) List.pairwise_lt_range
      obtain ⟨o, -, rfl⟩ := List.mem_map.1 hp
      obtain ⟨o', -, rfl⟩ := List.mem_map.1 hq
      have hsec : clusSector g c + s = clusSector g c + s' := he.1
      omega
  · refine List.Pairwise.imp_of_mem (fun {c c'} hc hc' hne p hp q hq he => ?_) h.nodup
    have hin : ∀ {c : Nat} {p : Spot}, p ∈ ((List.range g.secPerClus).flatMap fun s =>
        offsets.map fun o => (⟨c, clusSector g c + s, o⟩ : Spot)) → g.InClus c p.sec := by
      intro c p hp
      obtain ⟨s, hs, hp⟩ := List.mem_flatMap.1 hp
      obtain ⟨o, -, rfl⟩ := List.mem_map.1 hp
      exact inClus_of_lt (List.mem_range.1 hs)
    exact hne (inClus_unique ok (h.valid c hc) (h.valid c' hc') (hin hp) (he.1 ▸ hin hq))

theorem Chain.spot_unique (h : Chain g v cs) (ok : g.Ok) (hp : (spots g cs)[i]? = some p)
    (hq : (spots g cs)[j]? = some q) (hsec : p.sec = q.sec) (hoff : p.off = q.off) : i = j := by
  obtain ⟨hi, rfl⟩ := List.getElem?_eq_some_iff.1 hp
  obtain ⟨hj, rfl⟩ := List.getElem?_eq_some_iff.1 hq
  have hall := List.pairwise_iff_getElem.1 (h.spots_pairwise ok)
  rcases Nat.lt_trichotomy i j with hlt | heq | hlt
  · exact absurd ⟨hsec, hoff⟩ (hall i j hi hj hlt)
  · exact heq
  · exact absurd ⟨hsec.symm, hoff.symm⟩ (hall j i hj hi hlt)

theorem exists_slot (hc : p.clus ∈ cs) (hin : g.InClus p.clus p.sec) (hmod : p.off % 32 = 0)
    (hlt : p.off < 512) : ∃ i : Nat, (spots g cs)[i]? = some p :=
  List.getElem?_of_mem (mem_spots.2 ⟨hc, hin, hmod, hlt⟩)

/-- What is written to one entry changes no other. -/
theorem Chain.changes (h : Chain g v cs) (ok : g.Ok) (hi : (spots g cs)[i]? = some p)
    (hsame : ∀ c ∈ cs, ∀ s, g.InClus c s → ∀ o < 512,
      ¬(s = p.sec ∧ p.off ≤ o ∧ o < p.off + 32) → v' s o = v s o) :
    Changes i (slots g v cs) (slots g v' cs) := by
  refine ⟨by rw [length_slots, length_slots], fun j x y hj hx hy => ?_⟩
  rw [getElem_slots] at hx hy
  obtain ⟨q, hq, rfl⟩ := Option.map_eq_some_iff.1 hx
  obtain ⟨q', hq', rfl⟩ := Option.map_eq_some_iff.1 hy
  obtain rfl := some.inj (hq.symm.trans hq')
  obtain ⟨hc, hin, hmod, hlt⟩ := mem_spots.1 (List.mem_of_getElem? hq)
  obtain ⟨-, -, hmod', hlt'⟩ := mem_spots.1 (List.mem_of_getElem? hi)
  refine ⟨rfl, fun k hk => ?_⟩
  change v' q.sec (q.off + k) = v q.sec (q.off + k)
  refine hsame _ hc _ hin _ (by omega) ?_
  rintro ⟨hsec, hlo, hhi⟩
  exact hj (h.spot_unique ok hq hi hsec (by omega))

theorem slots_congr (hsame : ∀ c ∈ cs, ∀ s, g.InClus c s → v' s = v s) :
    slots g v' cs = slots g v cs := by
  rw [slots_eq, slots_eq]
  refine List.map_congr_left fun p hp => ?_
  obtain ⟨hc, hin, -⟩ := mem_spots.1 hp
  rw [hsame _ hc _ hin]

theorem Chain.chainFrom_eq (h : Chain g v cs) : ∀ {n k : Nat}, cs.length - k < n →
    chainFrom g v n (cs.getD k 0) = cs.drop k
  | 0, _, hn => absurd hn (Nat.not_lt_zero _)
  | n + 1, k, hn => by
    rw [chainFrom]
    rcases Nat.lt_or_ge k cs.length with hk | hk
    · have hget : cs[k]? = some (cs.getD k 0) := by
        rw [List.getD_eq_getElem _ _ hk, List.getElem?_eq_getElem hk]
      have hne : cs.getD k 0 ≠ 0 := fun hz => by
        have hnil := h.getD_zero.1 hz
        omega
      rw [if_neg hne, h.links k _ hget, h.chainFrom_eq (by omega), List.getD_eq_getElem _ _ hk,
        List.getElem_cons_drop]
    · rw [h.getD_zero.2 hk, if_pos rfl, List.drop_eq_nil_of_le hk]

theorem Chain.dirSlots_eq (h : Chain g v cs) {fuel : Nat} (hf : cs.length < fuel) :
    dirSlots g fuel v (cs.getD 0 0) = slots g v cs := by
  unfold dirSlots
  rw [h.chainFrom_eq (by omega), List.drop_zero]

end Places

end Verkos.Stam.Fat
