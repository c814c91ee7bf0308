import Mathlib.Tactic.IntervalCases
import Mathlib.Tactic.NormNum.DivMod
import Verkos.Stam.FatTable
import Verkos.Vmkfs.Format

/-!
# The measures of the volume that is made

The number of sectors of a table copy comes from a formula, the number of clusters from what the
copies leave. Below 2^32 sectors every reader of the boot sector finds the measures that `format`
decided on. From there on the boot sector has only the low half of the number, and a reader has
another volume before it.
-/

namespace Verkos.Vmkfs

open Stam.Fat (Sector Volume Geo fatMount rd16 rd32 wr16 wr32)
open Function

/-! ## The loop -/

/-- The cluster sizes the loop comes by. -/
def ClusterSize (spc : Nat) : Prop := ∃ k ≤ 6, spc = 2 ^ k

theorem ClusterSize.cases {spc : Nat} (h : ClusterSize spc) :
    spc = 1 ∨ spc = 2 ∨ spc = 4 ∨ spc = 8 ∨ spc = 16 ∨ spc = 32 ∨ spc = 64 := by
  obtain ⟨k, hk, rfl⟩ := h
  interval_cases k <;> decide

theorem pickClusterSize_size (totalSectors : Nat) : ClusterSize (pickClusterSize totalSectors) := by
  unfold pickClusterSize
  dsimp only
  split_ifs
  exacts [⟨0, by decide, rfl⟩, ⟨3, by decide, rfl⟩, ⟨4, by decide, rfl⟩, ⟨5, by decide, rfl⟩,
    ⟨6, by decide, rfl⟩]

variable {totalSectors spc : Nat} {l : Layout}

theorem turn_halve {spc' : Nat} (h : turn totalSectors spc = .halve spc') :
    spc ≠ 1 ∧ spc' = spc / 2 := by
  unfold turn at h
  dsimp only at h
  split_ifs at h with hfound hone
  exact ⟨hone, (Turn.halve.inj h).symm⟩

theorem sizeLoop_ends (k s : Nat) : sizeLoop (turn totalSectors) (k + 1) (2 ^ k) ≠ .halve s := by
  induction k with
  | zero =>
    intro h
    rw [sizeLoop] at h
    split at h
    · next spc' ht => exact (turn_halve ht).1 rfl
    · next hnot => exact hnot s h
  | succ k ih =>
    intro h
    rw [sizeLoop] at h
    split at h
    · next spc' ht =>
      rw [(turn_halve ht).2, Nat.pow_succ, Nat.mul_div_cancel _ Nat.two_pos] at h
      exact ih h
    · next hnot => exact hnot s h

theorem sizeLoop_more {body : Nat → Turn} {n m : Nat} (hnm : n ≤ m) :
    ∀ {spc : Nat}, (∀ s, sizeLoop body n spc ≠ .halve s) →
      sizeLoop body m spc = sizeLoop body n spc := by
  induction n generalizing m with
  | zero => exact fun {spc} h => (h spc rfl).elim
  | succ n ih =>
    obtain ⟨m, rfl⟩ := Nat.exists_eq_succ_of_ne_zero (Nat.ne_zero_of_lt hnm)
    intro spc h
    rw [sizeLoop] at h ⊢
    rw [sizeLoop]
    cases ht : body spc with
    | found l | tooSmall => rfl
    | halve spc' =>
      rw [ht] at h
      exact ih (Nat.le_of_succ_le_succ hnm) h

theorem turn_found (h : turn totalSectors spc = .found l) : l.spc = spc := by
  unfold turn at h
  dsimp only at h
  split_ifs at h
  rw [← Turn.found.inj h]

theorem sizeLoop_found (n : Nat) (hs : ClusterSize spc)
    (h : sizeLoop (turn totalSectors) n spc = .found l) :
    ClusterSize l.spc ∧ turn totalSectors l.spc = .found l := by
  induction n generalizing spc with
  | zero => cases h
  | succ n ih =>
    rw [sizeLoop] at h
    split at h
    · next spc' ht =>
      obtain ⟨hone, rfl⟩ := turn_halve ht
      refine ih ?_ h
      obtain ⟨k, hk, rfl⟩ := hs
      cases k with
      | zero => exact (hone rfl).elim
      | succ k => exact ⟨k, by omega, by rw [Nat.pow_succ, Nat.mul_div_cancel _ Nat.two_pos]⟩
    · next hnot =>
      rw [turn_found h]
      exact ⟨hs, h⟩

/-! ## The numbers -/

/-- What the numbers of an accepted layout have to do with each other. -/
structure Measured (totalSectors : Nat) (l : Layout) : Prop where
  size : ClusterSize l.spc
  rounded : totalSectors - 32 ≤ l.fatSz * (128 * l.spc + 1)
  fits : l.dataStart + l.clusters * l.spc ≤ totalSectors
  counted : (totalSectors - l.dataStart) / l.spc = l.clusters
  least : 65525 ≤ l.clusters
  most : l.clusters ≤ 0x0FFFFFF5

/-- Without a wrap, the sectors behind the reserved ones are rounded up. -/
theorem le_fatSectorsFor (hmin : 2048 ≤ totalSectors) (hmax : totalSectors < 2 ^ 64 - 2 ^ 16)
    (hspc : spc ≤ 64) : totalSectors - 32 ≤ fatSectorsFor totalSectors spc * (128 * spc + 1) ∧
      fatSectorsFor totalSectors spc * (128 * spc + 1) ≤ totalSectors - 32 + 128 * spc := by
  have hden : (256 * spc + 2) / 2 = 128 * spc + 1 := by omega
  have hav : available totalSectors = totalSectors - 32 := by unfold available; omega
  have hsum : (totalSectors - 32 + 128 * spc) % 2 ^ 64 = totalSectors - 32 + 128 * spc :=
    Nat.mod_eq_of_lt (by omega)
  unfold fatSectorsFor
  dsimp only
  rw [hden, hav, Nat.add_sub_cancel, hsum]
  have hdm := Nat.div_add_mod (totalSectors - 32 + 128 * spc) (128 * spc + 1)
  have hlt := Nat.mod_lt (totalSectors - 32 + 128 * spc) (show 0 < 128 * spc + 1 by omega)
  rw [Nat.mul_comm] at hdm
  omega

theorem ClusterSize.bounds (h : ClusterSize spc) : 1 ≤ spc ∧ spc ≤ 64 := by
  have := h.cases
  omega

theorem fatSectorsFor_thin (h : 1 ≤ spc) : fatSectorsFor totalSectors spc * 129 ≤ 2 ^ 64 := by
  have hden : (256 * spc + 2) / 2 = 128 * spc + 1 := by omega
  unfold fatSectorsFor
  dsimp only
  rw [hden]
  calc _ ≤ (available totalSectors + (128 * spc + 1 - 1)) % 2 ^ 64 / (128 * spc + 1) *
        (128 * spc + 1) := Nat.mul_le_mul_left _ (by omega)
    _ ≤ _ := Nat.div_mul_le_self _ _
    _ ≤ 2 ^ 64 := (Nat.mod_lt _ (by decide)).le

theorem clusters_of_wrap (hlt : totalSectors < 2 ^ 64) (h : 2 ^ 64 - 2 ^ 16 ≤ totalSectors)
    (hs : ClusterSize spc) (ht : turn totalSectors spc = .found l) : 0x0FFFFFF5 < l.clusters := by
  have hthin : fatSectorsFor totalSectors spc * 129 ≤ 2 ^ 64 := fatSectorsFor_thin hs.bounds.1
  unfold turn at ht
  dsimp only at ht
  split_ifs at ht with hfound
  rw [← Turn.found.inj ht]
  generalize fatSectorsFor totalSectors spc = fatSz at hthin
  have hdata : 2 ^ 64 / 2 ≤ (available totalSectors + (2 ^ 64 - 2 * fatSz % 2 ^ 64)) % 2 ^ 64 := by
    unfold available
    omega
  calc 0x0FFFFFF5 < 2 ^ 64 / 2 / 64 := by decide
    _ ≤ _ / 64 := Nat.div_le_div_right hdata
    _ ≤ _ / spc := Nat.div_le_div_left hs.bounds.2 hs.bounds.1

theorem layout_measured (hlt : totalSectors < 2 ^ 64) (h : layout totalSectors = some l) :
    Measured totalSectors l := by
  unfold layout at h
  split_ifs at h with hmin
  cases hloop : sizeLoop (turn totalSectors) 7 (pickClusterSize totalSectors) with
  | tooSmall | halve s => simp [hloop] at h
  | found l' =>
    rw [hloop] at h
    dsimp only at h
    split_ifs at h with hmost
    obtain rfl := Option.some.inj h
    obtain ⟨hs, ht⟩ := sizeLoop_found _ (pickClusterSize_size totalSectors) hloop
    have hmax : totalSectors < 2 ^ 64 - 2 ^ 16 := by
      by_contra hwrap
      exact hmost (clusters_of_wrap hlt (Nat.le_of_not_lt hwrap) hs ht)
    have hspc := hs.bounds
    obtain ⟨hup, hlow⟩ := le_fatSectorsFor (Nat.le_of_not_lt hmin) hmax hspc.2
    unfold turn at ht
    dsimp only at ht
    split_ifs at ht with hfound
    have hl := Turn.found.inj ht
    have hfat : l'.fatSz = fatSectorsFor totalSectors l'.spc := by rw [← hl]
    rw [← hfat] at hup hlow hl hfound
    have hthin : l'.fatSz * 129 ≤ totalSectors - 32 + 128 * l'.spc :=
      le_trans (Nat.mul_le_mul_left _ (by omega)) hlow
    have hdata : (available totalSectors + (2 ^ 64 - 2 * l'.fatSz % 2 ^ 64)) % 2 ^ 64 =
        totalSectors - l'.dataStart := by
      unfold available Layout.dataStart
      omega
    rw [hdata] at hl hfound
    have hclus : (totalSectors - l'.dataStart) / l'.spc = l'.clusters := congrArg Layout.clusters hl
    have hmul : l'.clusters * l'.spc ≤ totalSectors - l'.dataStart := by
      rw [← hclus]
      exact Nat.div_mul_le_self _ _
    have hstart : l'.dataStart ≤ totalSectors := by
      unfold Layout.dataStart
      omega
    exact ⟨hs, hup, by omega, hclus, by rw [← hclus]; exact hfound, Nat.le_of_not_lt hmost⟩

theorem Measured.covered (m : Measured totalSectors l) : l.clusters + 2 ≤ 128 * l.fatSz := by
  have hr := m.rounded
  have hf := m.fits
  have hleast := m.least
  unfold Layout.dataStart at hf
  obtain h | h | h | h | h | h | h := m.size.cases <;> rw [h] at hr hf <;> omega

theorem ClusterSize.power (h : ClusterSize spc) : spc &&& (spc - 1) = 0 := by
  obtain rfl | rfl | rfl | rfl | rfl | rfl | rfl := h.cases <;> decide

theorem Measured.fatSz_pos (m : Measured totalSectors l) : 0 < l.fatSz := by
  have := m.covered
  omega

/-! ## What a reader finds -/

section Reading

variable {label : List UInt8} {volumeId : Nat} {d : Volume}

section Apart

variable {p : Sector} {bs : List UInt8} {o i v : Nat}

theorem put_apart (h : i < o ∨ o + bs.length ≤ i) : put p o bs i = p i := if_neg (by omega)

theorem rd32_put (h : i + 4 ≤ o ∨ o + bs.length ≤ i) : rd32 (put p o bs) i = rd32 p i :=
  Stam.Fat.rd32_congr fun _ _ _ => put_apart (by omega)

theorem rd16_put (h : i + 2 ≤ o ∨ o + bs.length ≤ i) : rd16 (put p o bs) i = rd16 p i :=
  Stam.Fat.rd16_congr fun _ _ _ => put_apart (by omega)

theorem rd16_wr16_of_apart (h : i + 2 ≤ o ∨ o + 2 ≤ i) : rd16 (wr16 p o v) i = rd16 p i :=
  Stam.Fat.rd16_congr fun _ _ _ => Stam.Fat.wr16_of_apart (by omega)

theorem rd16_wr32_of_apart (h : i + 2 ≤ o ∨ o + 4 ≤ i) : rd16 (wr32 p o v) i = rd16 p i :=
  Stam.Fat.rd16_congr fun _ _ _ => Stam.Fat.wr32_of_apart (by omega)

theorem rd32_wr16_of_apart (h : i + 4 ≤ o ∨ o + 2 ≤ i) : rd32 (wr16 p o v) i = rd32 p i :=
  Stam.Fat.rd32_congr fun _ _ _ => Stam.Fat.wr16_of_apart (by omega)

end Apart

/-- The fields of the boot sector that a reader looks at. -/
structure Fields (totalSectors : Nat) (l : Layout) (bs : Sector) : Prop where
  signed : bs 510 = 0x55 ∧ bs 511 = 0xAA
  bps : rd16 bs 11 = 512
  spc : bs 13 = UInt8.ofNat l.spc
  rsvd : rd16 bs 14 = 32
  nfats : bs 16 = 2
  rootEntries : rd16 bs 17 = 0
  total16 : rd16 bs 19 = 0
  fatsz16 : rd16 bs 22 = 0
  totsec : rd32 bs 32 = totalSectors % 2 ^ 32
  fatsz : rd32 bs 36 = l.fatSz % 2 ^ 32
  rootclus : rd32 bs 44 = 2
  fsinfo : rd16 bs 48 = 1
  backup : rd16 bs 50 = 6

theorem labelField_length (label : List UInt8) : (labelField label).length ≤ 11 := by
  unfold labelField
  rw [List.length_append, List.length_map, List.length_take, List.length_replicate]
  omega

theorem bootSector_fields (totalSectors : Nat) (l : Layout) (label : List UInt8) (volumeId : Nat) :
    Fields totalSectors l (bootSector totalSectors l label volumeId) := by
  have hlabel := labelField_length label
  constructor
  case signed => exact ⟨rfl, rfl⟩
  all_goals
    simp (disch := first | (simp only [List.length_cons, List.length_nil]; omega) | omega) only
      [bootSector, rd32_put, rd16_put, put_apart, Stam.Fat.rd32_wr32_of_apart, rd32_wr16_of_apart,
      rd16_wr16_of_apart, rd16_wr32_of_apart, Stam.Fat.wr32_of_apart, Stam.Fat.wr16_of_apart,
      Stam.Fat.rd32_wr32, Stam.Fat.rd16_wr16, Nat.reducePow, Nat.reduceMod]
  all_goals rfl

theorem format_layout {d' : Volume} (h : format totalSectors label volumeId d = some (l, d')) :
    layout totalSectors = some l := by
  unfold format at h
  obtain ⟨l', hl, h⟩ := Option.bind_eq_some_iff.1 h
  split_ifs at h
  · rw [hl, (Prod.mk.inj (Option.some.inj h)).1]
  · rw [hl, (Prod.mk.inj (Option.some.inj h)).1]

theorem zeroed_apart {s n i : Nat} (h : i < s ∨ s + n ≤ i) : zeroed d s n i = d i :=
  if_neg (by omega)

theorem writeFat_apart {base n i : Nat} (h : i < base) : writeFat d base n i = d i := by
  unfold writeFat
  rw [update_of_ne h.ne, zeroed_apart (.inl h)]

theorem writeFats_boot (bs fsi : Sector) (n : Nat) :
    writeFat (writeFat (update (update (update (update d 0 bs)
      1 fsi) 6 bs) 7 fsi) 32 n) (32 + n) n 0 = bs := by
  rw [writeFat_apart (by omega), writeFat_apart (by omega), update_of_ne (by decide),
    update_of_ne (by decide), update_of_ne (by decide), update_self]

theorem format_boot {d' : Volume} (h : format totalSectors label volumeId d = some (l, d')) :
    d' 0 = bootSector totalSectors l label volumeId := by
  have hpos : 0 < l.dataStart := by
    unfold Layout.dataStart
    omega
  unfold format at h
  rw [format_layout h] at h
  dsimp only [Option.bind_eq_bind, Option.bind_some] at h
  split_ifs at h
  · rw [← (Prod.mk.inj (Option.some.inj h)).2, zeroed_apart (.inl hpos), writeFats_boot]
  · rw [← (Prod.mk.inj (Option.some.inj h)).2, update_of_ne hpos.ne,
      zeroed_apart (.inl hpos), writeFats_boot]

section

variable (m : Measured totalSectors l) (hlt : totalSectors < 2 ^ 32)
  (f : Fields totalSectors l (d 0))
include m hlt f

theorem volOpen_of_fields : volOpen d = some {
      spc := l.spc, nfats := 2, rsvd := 32, fatsz := l.fatSz, totsec := totalSectors, rootclus := 2
      fsinfo := 1, backup := 6, dataStart := l.dataStart, nclus := l.clusters } := by
  have hspc : (UInt8.ofNat l.spc).toNat = l.spc := by
    rw [Stam.Fat.toNat_ofNat_byte, Nat.mod_eq_of_lt (by have := m.size.bounds; omega)]
  have hfits := m.fits
  have hstart : l.dataStart = 32 + 2 * l.fatSz := rfl
  have hfat : l.fatSz % 2 ^ 32 = l.fatSz := Nat.mod_eq_of_lt (by omega)
  have hsome : 65525 ≤ l.clusters * l.spc := le_trans m.least (Nat.le_mul_of_pos_right _ m.size.bounds.1)
  unfold volOpen
  dsimp only
  rw [f.signed.1, f.signed.2, f.bps, f.spc, f.rsvd, f.nfats, f.rootEntries, f.fatsz16, f.totsec,
    f.fatsz, f.rootclus, f.fsinfo, f.backup, hspc, hfat, Nat.mod_eq_of_lt hlt,
    show (2 : UInt8).toNat = 2 from rfl, ← hstart,
    if_neg (show ¬totalSectors = 0 by omega), m.counted, if_neg (by decide), if_neg (by decide),
    if_neg (by decide), if_neg (by decide),
    if_neg (by rw [m.size.power]; have := m.size.bounds; omega),
    if_neg (by have := m.fatSz_pos; omega), if_neg (by omega),
    if_neg (Nat.not_lt.2 m.least)]

theorem fatMount_of_fields : fatMount.run d = some (some {
      secPerClus := l.spc, fatStart := 32, fatsz := l.fatSz, nfats := 2, firstDataSec := l.dataStart
      totalClus := l.clusters + 2, rootClus := 2, fsinfoSec := 1 }, d) := by
  have hspc : (UInt8.ofNat l.spc).toNat = l.spc := by
    rw [Stam.Fat.toNat_ofNat_byte, Nat.mod_eq_of_lt (by have := m.size.bounds; omega)]
  have hfits := m.fits
  have hstart : l.dataStart = 32 + 2 * l.fatSz := rfl
  have hfat : l.fatSz % 2 ^ 32 = l.fatSz := Nat.mod_eq_of_lt (by omega)
  have hfirst : (32 + 2 * l.fatSz) % 2 ^ 32 = l.dataStart := Nat.mod_eq_of_lt (by omega)
  have htotal : (totalSectors + (2 ^ 32 - l.dataStart)) % 2 ^ 32 = totalSectors - l.dataStart := by
    omega
  have hclus : (l.clusters + 2) % 2 ^ 32 = l.clusters + 2 :=
    Nat.mod_eq_of_lt (by have := m.most; omega)
  unfold fatMount
  rw [Lib.Blocks.run_reading]
  dsimp only
  rw [f.signed.1, f.signed.2, f.bps, f.spc, f.rsvd, f.nfats, f.totsec, f.fatsz, f.rootclus,
    f.fsinfo, hspc, hfat, Nat.mod_eq_of_lt hlt, show (2 : UInt8).toNat = 2 from rfl, hfirst, htotal,
    m.counted, hclus, if_neg (by decide),
    if_neg (by have h1 := m.size.bounds; have h2 := m.fatSz_pos; omega), Lib.Blocks.run_done]

end

end Reading

/-! ## The geometry -/

/-- The reserved sectors, the two copies of the table and the clusters, each by its first sector and
its size. -/
def Layout.regions (l : Layout) : List (Nat × Nat) :=
  [(0, 32), (32, l.fatSz), (32 + l.fatSz, l.fatSz), (l.dataStart, l.clusters * l.spc)]

/-- The volume is what `format` decided on, to each of its readers. -/
structure Consistent (totalSectors : Nat) (l : Layout) (d : Volume) : Prop where
  opened : ∃ v, volOpen d = some v ∧ v.totsec = totalSectors ∧ v.spc = l.spc ∧ v.fatsz = l.fatSz
  mounted : ∃ g, fatMount.run d = some (some g, d) ∧ rd32 (d 0) 32 = totalSectors ∧
    g.secPerClus = l.spc ∧ g.fatsz = l.fatSz ∧ g.totalClus = l.clusters + 2
  covered : l.clusters + 2 ≤ 128 * l.fatSz
  disjoint : l.regions.Pairwise fun r s => r.1 + r.2 ≤ s.1
  within : ∀ r ∈ l.regions, r.1 + r.2 ≤ totalSectors
  counted : 65525 ≤ l.clusters ∧ l.clusters ≤ 0x0FFFFFF5

theorem Layout.disjoint (l : Layout) : l.regions.Pairwise fun r s => r.1 + r.2 ≤ s.1 := by
  have hstart : l.dataStart = 32 + 2 * l.fatSz := rfl
  simp only [Layout.regions, List.pairwise_cons, List.mem_cons, List.not_mem_nil, or_false,
    forall_eq_or_imp, forall_eq, List.Pairwise.nil, and_true, false_imp_iff, implies_true]
  omega

theorem Measured.within (m : Measured totalSectors l) : ∀ r ∈ l.regions, r.1 + r.2 ≤ totalSectors := by
  have hfits := m.fits
  have hstart : l.dataStart = 32 + 2 * l.fatSz := rfl
  simp only [Layout.regions, List.mem_cons, List.not_mem_nil, or_false, forall_eq_or_imp, forall_eq]
  omega

/-- For every number of sectors the loop ends. The volume that is made is the same to all its
readers exactly when its sectors can be counted in 32 bits. -/
theorem geometry_consistent (totalSectors : Nat) (hword : totalSectors < 2 ^ 64) :
    (∀ spc, sizeLoop (turn totalSectors) 7 (pickClusterSize totalSectors) ≠ .halve spc) ∧
      ∀ (label : List UInt8) (volumeId : Nat) (d d' : Volume) (l : Layout),
        format totalSectors label volumeId d = some (l, d') →
          (Consistent totalSectors l d' ↔ totalSectors < 2 ^ 32) := by
  refine ⟨fun spc => ?_, fun label volumeId d d' l h => ⟨fun hc => ?_, fun hlt => ?_⟩⟩
  · obtain ⟨k, hk, hpick⟩ := pickClusterSize_size totalSectors
    rw [hpick, sizeLoop_more (Nat.succ_le_succ hk) (sizeLoop_ends k)]
    exact sizeLoop_ends k spc
  · obtain ⟨_, _, htotal, _⟩ := hc.mounted
    rw [← htotal]
    exact Stam.Fat.rd32_lt _ _
  · have m := layout_measured hword (format_layout h)
    have f := bootSector_fields totalSectors l label volumeId
    rw [← format_boot h] at f
    exact {
      opened := ⟨_, volOpen_of_fields m hlt f, rfl, rfl, rfl⟩
      mounted := ⟨_, fatMount_of_fields m hlt f, by rw [f.totsec, Nat.mod_eq_of_lt hlt], rfl, rfl, rfl⟩
      covered := m.covered
      disjoint := l.disjoint
      within := m.within
      counted := ⟨m.least, m.most⟩ }

theorem layout_small : layout 67584 = some ⟨1, 524, 66504⟩ := by decide +kernel

theorem format_of_layout (h : layout totalSectors = some l) (label : List UInt8) (volumeId : Nat)
    (d : Volume) : ∃ d', format totalSectors label volumeId d = some (l, d') := by
  unfold format
  rw [h]
  by_cases hlabel : label = []
  · exact ⟨_, if_pos hlabel⟩
  · exact ⟨_, if_neg hlabel⟩

theorem geometry_consistent_small : ∃ d', format 67584 [] 0 (fun _ _ => 0) = some (⟨1, 524, 66504⟩, d') ∧
    Consistent 67584 ⟨1, 524, 66504⟩ d' := by
  obtain ⟨d', h⟩ := format_of_layout layout_small [] 0 fun _ _ => 0
  exact ⟨d', h, ((geometry_consistent 67584 (by decide)).2 _ _ _ _ _ h).2 (by decide)⟩

theorem layout_large : layout (2 ^ 32 + 2 ^ 23) = some ⟨64, 525248, 67223521⟩ := by decide +kernel

theorem volOpen_congr {d d' : Volume} (h : d 0 = d' 0) : volOpen d = volOpen d' := by
  unfold volOpen
  rw [h]

/-- A device of 2 TiB and 4 GiB gets a volume that is opened as one of 4 GiB. -/
theorem large_volume_shrinks : ∃ d' v,
    format (2 ^ 32 + 2 ^ 23) [] 0 (fun _ _ => 0) = some (⟨64, 525248, 67223521⟩, d') ∧
      volOpen d' = some v ∧ v.totsec = 2 ^ 23 ∧
        ¬Consistent (2 ^ 32 + 2 ^ 23) ⟨64, 525248, 67223521⟩ d' := by
  obtain ⟨d', h⟩ := format_of_layout layout_large [] 0 fun _ _ => 0
  have hopen : volOpen d' = some ⟨64, 2, 32, 525248, 2 ^ 23, 2, 1, 6, 1050528, 114657⟩ := by
    rw [@volOpen_congr d' (fun _ => bootSector (2 ^ 32 + 2 ^ 23) ⟨64, 525248, 67223521⟩ [] 0)
      (format_boot h)]
    decide +kernel
  refine ⟨d', _, h, hopen, rfl, fun hc => ?_⟩
  obtain ⟨v, hv, htotal, _⟩ := hc.opened
  rw [hopen] at hv
  rw [← Option.some.inj hv] at htotal
  exact absurd htotal (by decide)

end Verkos.Vmkfs
