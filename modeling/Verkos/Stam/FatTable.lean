import Mathlib.Data.Nat.Bitwise
import Mathlib.Data.List.GetD
import Mathlib.Data.List.Nodup
import Verkos.Stam.Fat

/-!
# The table of a volume

What the functions of the table do to a volume whose measures are right: `entry` is what the first
copy of the table says of a cluster, `SetsEntry` what `fat_set` changes, `Allocates` what
`clus_alloc` changes. A chain is the list of the clusters of a file, each linked to the next.
-/

namespace Verkos.Stam.Fat

open Verkos.Lib
open List
open Function

/-! ## Numbers in a sector -/

section Numbers

variable {p q : Sector} {o o' v : Nat}

theorem toNat_ofNat_byte (n : Nat) : (UInt8.ofNat n).toNat = n % 256 := UInt8.toNat_ofNat'

theorem rd32_congr (h : ∀ i, o ≤ i → i < o + 4 → p i = q i) : rd32 p o = rd32 q o := by
  unfold rd32
  rw [h o le_rfl (by omega), h (o + 1) (by omega) (by omega), h (o + 2) (by omega) (by omega),
    h (o + 3) (by omega) (by omega)]

theorem rd16_congr (h : ∀ i, o ≤ i → i < o + 2 → p i = q i) : rd16 p o = rd16 q o := by
  unfold rd16
  rw [h o le_rfl (by omega), h (o + 1) (by omega) (by omega)]

theorem rd32_lt (p : Sector) (o : Nat) : rd32 p o < 2 ^ 32 := by
  have h0 := (p o).toNat_lt
  have h1 := (p (o + 1)).toNat_lt
  have h2 := (p (o + 2)).toNat_lt
  have h3 := (p (o + 3)).toNat_lt
  unfold rd32
  omega

theorem wr32_of_apart (h : o' < o ∨ o + 4 ≤ o') : wr32 p o v o' = p o' := by
  unfold wr32
  rw [if_neg (by omega), if_neg (by omega), if_neg (by omega), if_neg (by omega)]

theorem wr16_of_apart (h : o' < o ∨ o + 2 ≤ o') : wr16 p o v o' = p o' := by
  unfold wr16
  rw [if_neg (by omega), if_neg (by omega)]

theorem rd32_wr32 : rd32 (wr32 p o v) o = v % 2 ^ 32 := by
  have h1 : ¬o + 1 = o := by omega
  have h2 : ¬o + 2 = o := by omega
  have h3 : ¬o + 3 = o := by omega
  unfold rd32 wr32
  simp only [if_true, h1, h2, h3, if_false, toNat_ofNat_byte, Nat.add_right_inj,
    Nat.reduceEqDiff]
  omega

theorem rd16_wr16 : rd16 (wr16 p o v) o = v % 2 ^ 16 := by
  have h1 : ¬o + 1 = o := by omega
  unfold rd16 wr16
  simp only [if_true, h1, if_false, toNat_ofNat_byte]
  omega

theorem rd32_wr32_of_apart (h : o' + 4 ≤ o ∨ o + 4 ≤ o') : rd32 (wr32 p o v) o' = rd32 p o' :=
  rd32_congr fun i h1 h2 => wr32_of_apart (by omega)

theorem masked_mod (a b : Nat) :
    ((a &&& 0xf0000000) ||| (b &&& 0x0fffffff)) % 2 ^ 32 % 2 ^ 28 = b % 2 ^ 28 := by
  rw [Nat.mod_mod_of_dvd _ (by decide : 2 ^ 28 ∣ 2 ^ 32)]
  apply Nat.eq_of_testBit_eq
  intro i
  have hlow : ∀ j, Nat.testBit 0x0fffffff j = decide (j < 28) := fun j =>
    Nat.testBit_two_pow_sub_one 28 j
  have hhigh : ∀ j, j < 28 → Nat.testBit 0xf0000000 j = false := by
    intro j hj
    change Nat.testBit (2 ^ 28 * 15) j = false
    rw [Nat.testBit_two_pow_mul, decide_eq_false (by omega), Bool.false_and]
  rw [Nat.testBit_mod_two_pow, Nat.testBit_mod_two_pow, Nat.testBit_or, Nat.testBit_and,
    Nat.testBit_and, hlow]
  by_cases hi : i < 28
  · rw [hhigh i hi, decide_eq_true hi]
    simp
  · rw [decide_eq_false hi]
    simp

end Numbers

/-! ## Measures -/

/-- Measures that fit together: the copies of the table are before the data, the table has an entry
for every cluster, and no cluster's number means the end of a chain. -/
structure Geo.Ok (g : Geo) : Prop where
  perClus : 0 < g.secPerClus
  copies : 0 < g.nfats
  data : g.fatStart + g.nfats * g.fatsz ≤ g.firstDataSec
  room : g.totalClus ≤ g.fatsz * 128
  total : g.totalClus ≤ 0x0ffffff8
  root : 2 ≤ g.rootClus ∧ g.rootClus < g.totalClus

/-- A cluster of the data. -/
def Geo.Valid (g : Geo) (c : Nat) : Prop := 2 ≤ c ∧ c < g.totalClus

/-- A sector of a copy of the table. -/
def Geo.InTable (g : Geo) (s : Nat) : Prop :=
  g.fatStart ≤ s ∧ s < g.fatStart + g.nfats * g.fatsz

/-- A sector of a cluster. -/
def Geo.InClus (g : Geo) (c s : Nat) : Prop := clusSector g c ≤ s ∧ s < clusSector g c + g.secPerClus

/-- What the first copy of the table says of a cluster. -/
def entry (g : Geo) (v : Volume) (c : Nat) : Nat :=
  rd32 (v (g.fatStart + c * 4 / 512)) (c * 4 % 512) % 2 ^ 28

/-- The cluster behind a cluster, or zero. -/
def next (g : Geo) (v : Volume) (c : Nat) : Nat :=
  if c < 2 ∨ g.totalClus ≤ c then 0
  else if 0x0ffffff8 ≤ entry g v c ∨ entry g v c < 2 then 0
  else entry g v c

section Sectors

variable {g : Geo} {v v' : Volume} {c c' s : Nat}

theorem clusSector_eq (ok : g.Ok) (h : g.Valid c) :
    clusSector g c = g.firstDataSec + (c - 2) * g.secPerClus := by
  have htotal := ok.total
  obtain ⟨h2, hlt⟩ := h
  have hsub : (c + (2 ^ 32 - 2)) % 2 ^ 32 = c - 2 := by omega
  rw [clusSector, hsub]

theorem clusSector_data (ok : g.Ok) (h : g.Valid c) : g.firstDataSec ≤ clusSector g c := by
  rw [clusSector_eq ok h]
  exact Nat.le_add_right _ _

theorem Geo.Ok.firstData_pos (ok : g.Ok) : 0 < g.firstDataSec := by
  have hroot := ok.root
  have hroom := ok.room
  have hdata := ok.data
  have hpos : 0 < g.nfats * g.fatsz := Nat.mul_pos ok.copies (by omega)
  omega

theorem not_inTable_of_data (ok : g.Ok) (h : g.firstDataSec ≤ s) : ¬g.InTable s := by
  have hdata := ok.data
  rintro ⟨-, hlt⟩
  omega

theorem inClus_unique (ok : g.Ok) (h : g.Valid c) (h' : g.Valid c') (hs : g.InClus c s)
    (hs' : g.InClus c' s) : c = c' := by
  obtain ⟨hlo, hhi⟩ := hs
  obtain ⟨hlo', hhi'⟩ := hs'
  rw [clusSector_eq ok h] at hlo hhi
  rw [clusSector_eq ok h'] at hlo' hhi'
  obtain ⟨h2, -⟩ := h
  obtain ⟨h2', -⟩ := h'
  by_contra hne
  rcases Nat.lt_or_gt_of_ne hne with hlt | hlt
  · have hmul := Nat.mul_le_mul_right g.secPerClus (show c - 2 + 1 ≤ c' - 2 by omega)
    rw [Nat.add_mul, Nat.one_mul] at hmul
    omega
  · have hmul := Nat.mul_le_mul_right g.secPerClus (show c' - 2 + 1 ≤ c - 2 by omega)
    rw [Nat.add_mul, Nat.one_mul] at hmul
    omega

theorem inClus_of_lt (hs : s < g.secPerClus) : g.InClus c (clusSector g c + s) :=
  ⟨Nat.le_add_right _ _, by omega⟩

theorem InClus.not_inTable (ok : g.Ok) (h : g.Valid c) (hs : g.InClus c s) : ¬g.InTable s :=
  not_inTable_of_data ok ((clusSector_data ok h).trans hs.1)

theorem tableSec_inTable (ok : g.Ok) (hc : c < g.totalClus) (k : Nat) (hk : k < g.nfats) :
    g.InTable (g.fatStart + k * g.fatsz + c * 4 / 512) := by
  have hroom := ok.room
  have hmul := Nat.mul_le_mul_right g.fatsz (show k + 1 ≤ g.nfats by omega)
  rw [Nat.add_mul, Nat.one_mul] at hmul
  refine ⟨by omega, ?_⟩
  omega

theorem entry_congr (h : v' (g.fatStart + c * 4 / 512) = v (g.fatStart + c * 4 / 512)) :
    entry g v' c = entry g v c := by
  unfold entry
  rw [h]

theorem next_congr (h : entry g v' c = entry g v c) : next g v' c = next g v c := by
  unfold next
  rw [h]

theorem entry_of_same (ok : g.Ok) (hc : c < g.totalClus) (h : ∀ s, g.InTable s → v' s = v s) :
    entry g v' c = entry g v c := by
  refine entry_congr (h _ ?_)
  have hin := tableSec_inTable ok hc 0 ok.copies
  rwa [Nat.zero_mul, Nat.add_zero] at hin

theorem next_of_entry (hc : g.Valid c) (h2 : 2 ≤ entry g v c) (hlt : entry g v c < 0x0ffffff8) :
    next g v c = entry g v c := by
  obtain ⟨hc2, hct⟩ := hc
  unfold next
  rw [if_neg (by omega), if_neg (by omega)]

theorem run_fatNext : (fatNext g c).run v = some (next g v c, v) := by
  unfold fatNext next
  split
  · rfl
  · rfl

end Sectors

/-! ## Setting an entry -/

/-- One entry has a new value, and nothing outside the table changed. -/
structure SetsEntry (g : Geo) (c val : Nat) (v v' : Volume) : Prop where
  entry : ∀ c', c' < g.totalClus → entry g v' c' = if c' = c then val % 2 ^ 28 else entry g v c'
  rest : ∀ s, ¬g.InTable s → v' s = v s

section Setting

variable {g : Geo} {v v' : Volume} {c c' val k : Nat}

/-- The other copies say nothing about the first. -/
theorem run_fatSetIn_copies (ok : g.Ok) (hc : c < g.totalClus) (val : Nat) :
    ∀ {ks : List Nat} (v : Volume), (∀ k ∈ ks, 0 < k ∧ k < g.nfats) →
      ∃ v', (fatSetIn g c val ks).run v = some (true, v') ∧
        (∀ c', c' < g.totalClus → entry g v' c' = entry g v c') ∧ ∀ s, ¬g.InTable s → v' s = v s
  | [], v, _ => ⟨v, rfl, fun _ _ => rfl, fun _ _ => rfl⟩
  | k :: ks, v, h => by
    obtain ⟨hpos, hk⟩ := h k mem_cons_self
    have hks : ∀ k ∈ ks, 0 < k ∧ k < g.nfats := fun k hk => h k (mem_cons_of_mem _ hk)
    obtain ⟨v', hrun, hentry, hrest⟩ := run_fatSetIn_copies ok hc val
      (update v (g.fatStart + k * g.fatsz + c * 4 / 512)
        (wr32 (v (g.fatStart + k * g.fatsz + c * 4 / 512)) (c * 4 % 512)
          ((rd32 (v (g.fatStart + k * g.fatsz + c * 4 / 512)) (c * 4 % 512) &&& 0xf0000000) |||
            (val &&& 0x0fffffff)))) hks
    refine ⟨v', hrun, fun c' hc' => ?_, fun s hs => ?_⟩
    · have hroom := ok.room
      have hmul := Nat.mul_le_mul_right g.fatsz (show 1 ≤ k by omega)
      rw [Nat.one_mul] at hmul
      rw [hentry c' hc']
      exact entry_congr (update_of_ne (by omega) ..)
    · rw [hrest s hs]
      refine update_of_ne ?_ ..
      rintro rfl
      exact hs (tableSec_inTable ok hc k hk)

theorem run_fatSet (ok : g.Ok) (hc : g.Valid c) (val : Nat) (v : Volume) :
    ∃ v', (fatSet g c val).run v = some (true, v') ∧ SetsEntry g c val v v' := by
  obtain ⟨n, hn⟩ := Nat.exists_eq_succ_of_ne_zero (Nat.pos_iff_ne_zero.1 ok.copies)
  have hlist : List.range g.nfats = 0 :: (List.range n).map Nat.succ := by
    rw [hn]
    exact range_succ_eq_map
  have hrest : ∀ k ∈ (List.range n).map Nat.succ, 0 < k ∧ k < g.nfats := by
    intro k hk
    obtain ⟨j, hj, rfl⟩ := mem_map.1 hk
    have hjn := mem_range.1 hj
    omega
  obtain ⟨v', hrun, hentry, hout⟩ := run_fatSetIn_copies ok hc.2 val
    (update v (g.fatStart + 0 * g.fatsz + c * 4 / 512)
      (wr32 (v (g.fatStart + 0 * g.fatsz + c * 4 / 512)) (c * 4 % 512)
        ((rd32 (v (g.fatStart + 0 * g.fatsz + c * 4 / 512)) (c * 4 % 512) &&& 0xf0000000) |||
          (val &&& 0x0fffffff)))) hrest
  refine ⟨v', ?_, fun c' hc' => ?_, fun s hs => ?_⟩
  · unfold fatSet
    have hcond : ¬(c < 2 ∨ g.totalClus ≤ c) := by
      obtain ⟨h2, hlt⟩ := hc
      omega
    rw [if_neg hcond, hlist]
    exact hrun
  · rw [hentry c' hc']
    have hzero : g.fatStart + 0 * g.fatsz + c * 4 / 512 = g.fatStart + c * 4 / 512 := by omega
    unfold Fat.entry
    rw [hzero]
    by_cases hs : c' * 4 / 512 = c * 4 / 512
    · rw [hs, update_self]
      by_cases he : c' = c
      · subst he
        rw [if_pos rfl, rd32_wr32, masked_mod]
      · rw [if_neg he, rd32_wr32_of_apart (by omega)]
    · have hne : g.fatStart + c' * 4 / 512 ≠ g.fatStart + c * 4 / 512 := by omega
      have hcc : c' ≠ c := fun he => hs (he ▸ rfl)
      rw [update_of_ne hne, if_neg hcc]
  · rw [hout s hs]
    refine update_of_ne ?_ ..
    rintro rfl
    exact hs (tableSec_inTable ok hc.2 0 ok.copies)

end Setting

/-! ## A free cluster -/

/-- A cluster that was free is the end of a chain and cleared, and nothing else changed. -/
structure Allocates (g : Geo) (c : Nat) (v v' : Volume) : Prop where
  valid : g.Valid c
  free : entry g v c = 0
  entry : ∀ c', c' < g.totalClus → entry g v' c' = if c' = c then 0x0ffffff8 else entry g v c'
  cleared : ∀ s, g.InClus c s → v' s = fun _ => 0
  rest : ∀ s, ¬g.InTable s → ¬g.InClus c s → v' s = v s

/-- No cluster is free. -/
def Full (g : Geo) (v : Volume) : Prop := ∀ c, g.Valid c → entry g v c ≠ 0

section Allocating

variable {g : Geo} {v v' : Volume} {c : Nat}

theorem run_clearSectors (c : Nat) : ∀ (ss : List Nat) (v : Volume), ∃ v',
    (clearSectors g c ss).run v = some (true, v') ∧
      (∀ s ∈ ss, v' (clusSector g c + s) = fun _ => 0) ∧
      ∀ s, (∀ j ∈ ss, s ≠ clusSector g c + j) → v' s = v s
  | [], v => ⟨v, rfl, nofun, fun _ _ => rfl⟩
  | s :: ss, v => by
    obtain ⟨v', hrun, hclear, hrest⟩ := run_clearSectors c ss
      (update v (clusSector g c + s) fun _ => 0)
    refine ⟨v', hrun, fun j hj => ?_, fun j hj => ?_⟩
    · by_cases hin : j ∈ ss
      · exact hclear j hin
      · rcases mem_cons.1 hj with rfl | hj
        · rw [hrest _ fun i hi he => hin (by rwa [show j = i by omega]), update_self]
        · exact absurd hj hin
    · rw [hrest j fun i hi => hj i (mem_cons_of_mem _ hi),
        update_of_ne (hj s mem_cons_self)]

/-- The clusters that are left, with the sector that was read last. -/
theorem run_clusAllocFrom (ok : g.Ok) : ∀ {cs : List Nat} {cached : Option (Nat × Sector)} {v : Volume},
    (∀ c ∈ cs, g.Valid c) → (∀ s b, cached = some (s, b) → v s = b) →
      (∀ c ∈ cs, entry g v c ≠ 0) ∧ (clusAllocFrom g cs cached).run v = some (0, v) ∨
        ∃ c v', c ∈ cs ∧ (clusAllocFrom g cs cached).run v = some (c, v') ∧ Allocates g c v v'
  | [], _, v, _, _ => .inl ⟨nofun, by rw [clusAllocFrom]; rfl⟩
  | c :: cs, cached, v, hcs, hcached => by
    have hc := hcs c mem_cons_self
    have hrest : ∀ c ∈ cs, g.Valid c := fun c hc => hcs c (mem_cons_of_mem _ hc)
    have hread : ∀ s b, some (g.fatStart + c * 4 / 512, v (g.fatStart + c * 4 / 512)) =
        some (s, b) → v s = b := by
      rintro s b he
      cases he
      rfl
    have ih := run_clusAllocFrom ok hrest hread
    -- the sector is at hand or read now, and is the same either way
    have hlook : (clusAllocFrom g (c :: cs) cached).run v =
        (if entry g v c ≠ 0 then
          clusAllocFrom g cs (some (g.fatStart + c * 4 / 512, v (g.fatStart + c * 4 / 512)))
        else do
          if ← fatSet g c 0x0ffffff8 then
            if ← clearSectors g c (List.range g.secPerClus) then pure c else pure 0
          else pure 0).run v := by
      rw [clusAllocFrom.eq_def]
      unfold entry
      dsimp only
      split
      · rename_i s' b
        have hb := hcached s' b rfl
        split
        · rename_i hs
          subst hs
          rw [hb]
        · rfl
      · rfl
    by_cases hfree : entry g v c = 0
    · right
      rw [if_neg (not_not.2 hfree)] at hlook
      obtain ⟨v1, hset, hsets⟩ := run_fatSet ok hc 0x0ffffff8 v
      obtain ⟨v2, hclr, hzero, hrest⟩ := run_clearSectors c (List.range g.secPerClus) v1
      have hin : ∀ s, g.InClus c s → ∃ j ∈ List.range g.secPerClus, s = clusSector g c + j := by
        rintro s ⟨hlo, hhi⟩
        exact ⟨s - clusSector g c, mem_range.2 (by omega), by omega⟩
      have hout : ∀ s, ¬g.InClus c s → v2 s = v1 s := by
        intro s hs
        refine hrest s fun j hj he => hs ?_
        rw [he]
        exact inClus_of_lt (mem_range.1 hj)
      refine ⟨c, v2, mem_cons_self, ?_, hc, hfree, fun c' hc' => ?_, fun s hs => ?_,
        fun s ht hs => ?_⟩
      · rw [hlook, Blocks.run_bind_of hset, if_pos rfl, Blocks.run_bind_of hclr, if_pos rfl]
        rfl
      · have hkeep := entry_of_same ok hc' fun s hs =>
          hout s fun hi => InClus.not_inTable ok hc hi hs
        rw [hkeep, hsets.entry c' hc']
        rfl
      · obtain ⟨j, hj, rfl⟩ := hin s hs
        exact hzero j hj
      · rw [hout s hs, hsets.rest s ht]
    · rw [if_pos hfree] at hlook
      rcases ih with ⟨hfull, hrun⟩ | ⟨c', v', hin, hrun, hal⟩
      · refine .inl ⟨fun c' hc' => ?_, hlook.trans hrun⟩
        rcases mem_cons.1 hc' with rfl | hc'
        · exact hfree
        · exact hfull c' hc'
      · exact .inr ⟨c', v', mem_cons_of_mem _ hin, hlook.trans hrun, hal⟩

theorem run_clusAlloc (ok : g.Ok) (v : Volume) : Full g v ∧ (clusAlloc g).run v = some (0, v) ∨
      ∃ c v', (clusAlloc g).run v = some (c, v') ∧ Allocates g c v v' := by
  have hmem : ∀ c, c ∈ List.range' 2 (g.totalClus - 2) ↔ g.Valid c := by
    intro c
    rw [mem_range'_1]
    unfold Geo.Valid
    omega
  have hnone : ∀ s b, (none : Option (Nat × Sector)) = some (s, b) → v s = b := nofun
  rcases run_clusAllocFrom ok (fun c hc => (hmem c).1 hc) hnone with ⟨hfull, hrun⟩ | ⟨c, v', -, hrun, hal⟩
  · exact .inl ⟨fun c hc => hfull c ((hmem c).2 hc), hrun⟩
  · exact .inr ⟨c, v', hrun, hal⟩

/-- A free cluster linked behind another one. -/
structure Links (g : Geo) (c n : Nat) (v v' : Volume) : Prop where
  valid : g.Valid n
  free : entry g v n = 0
  entry : ∀ c', c' < g.totalClus → entry g v' c' =
    if c' = c then n else if c' = n then 0x0ffffff8 else entry g v c'
  cleared : ∀ s, g.InClus n s → v' s = fun _ => 0
  rest : ∀ s, ¬g.InTable s → ¬g.InClus n s → v' s = v s

theorem run_linkNew (ok : g.Ok) (hc : g.Valid c) (v : Volume) :
    Full g v ∧ (linkNew g c).run v = some (0, v) ∨
      ∃ n v', (linkNew g c).run v = some (n, v') ∧ Links g c n v v' := by
  unfold linkNew
  rcases run_clusAlloc ok v with ⟨hfull, hrun⟩ | ⟨n, v1, hrun, hal⟩
  · refine .inl ⟨hfull, ?_⟩
    rw [Blocks.run_bind_of hrun, if_pos rfl]
    rfl
  · obtain ⟨v2, hset, hsets⟩ := run_fatSet ok hc n v1
    have hvalid := hal.valid
    refine .inr ⟨n, v2, ?_, hal.valid, hal.free, fun c' hc' => ?_, fun s hs => ?_, fun s ht hs => ?_⟩
    · have hn : n ≠ 0 := by
        have h2 := hvalid.1
        omega
      rw [Blocks.run_bind_of hrun, if_neg hn, Blocks.run_bind_of hset, if_pos rfl]
      rfl
    · have htotal := ok.total
      have hlt := hvalid.2
      rw [hsets.entry c' hc', hal.entry c' hc', Nat.mod_eq_of_lt (by omega)]
    · rw [hsets.rest s (InClus.not_inTable ok hvalid hs), hal.cleared s hs]
    · rw [hsets.rest s ht, hal.rest s ht hs]

end Allocating

end Verkos.Stam.Fat
