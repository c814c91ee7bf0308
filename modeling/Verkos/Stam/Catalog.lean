import Verkos.Stam.FatWrite

/-!
# The files of a volume

A volume is well formed for a catalog of its files and directories: each has a chain of its own, and
each but the root an entry in a directory that says where it starts and how long it is. `fat_write`
keeps that, with the one file longer. What the file holds afterwards is what it held with the bytes
of the buffer put over, and every other file and directory is as it was, as long as the end of the
write fits the 32 bits of a size.
-/

namespace Verkos.Stam.Fat

open Verkos.Lib
open Function (update_of_ne update_self)
open Blocks (run_bind_of)

/-- What a directory says of the file whose entry is at that place. -/
def readBack (v : Volume) (sec off : Nat) : Handle := handleAt ⟨0, sec, off⟩ (entryAt (v sec) off)

/-- The files and directories of a volume: the handle and the clusters of each. -/
structure Catalog (ι : Type) where
  handle : ι → Handle
  chain : ι → List Nat

/-- A volume whose catalog this is. -/
structure WellFormed {ι : Type} (g : Geo) (v : Volume) (cat : Catalog ι) : Prop where
  chained : ∀ i, Chain g v (cat.chain i)
  head : ∀ i, (cat.handle i).cluster = (cat.chain i).getD 0 0
  apart : ∀ i j, i ≠ j → ∀ c ∈ cat.chain i, c ∉ cat.chain j
  room : ∀ i, (cat.handle i).isDir = false →
    (cat.handle i).size ≤ (cat.chain i).length * g.clusterBytes
  placed : ∀ i, (cat.handle i).dirSec ≠ 0 → ∃ d, (cat.handle d).isDir = true ∧
    ∃ c ∈ cat.chain d, g.InClus c (cat.handle i).dirSec
  slot : ∀ i, (cat.handle i).dirSec ≠ 0 →
    (cat.handle i).dirOff % 32 = 0 ∧ (cat.handle i).dirOff < 512
  live : ∀ i, (cat.handle i).dirSec ≠ 0 →
    classify (entryAt (v (cat.handle i).dirSec) (cat.handle i).dirOff) = .live
  recorded : ∀ i, (cat.handle i).dirSec ≠ 0 →
    readBack v (cat.handle i).dirSec (cat.handle i).dirOff = cat.handle i
  own : ∀ i j, (cat.handle i).dirSec ≠ 0 → (cat.handle i).dirSec = (cat.handle j).dirSec →
    (cat.handle i).dirOff = (cat.handle j).dirOff → i = j

/-- `fat_read` gives these bytes, at every offset and length that fit a buffer. -/
def Holds (g : Geo) (v : Volume) (f : Handle) (l : List UInt8) : Prop :=
  ∀ off len, off + len < 2 ^ 64 →
    (fatRead g f off len).run v = some (((((l.drop off).take len).length : Int), (l.drop off).take len), v)

/-- The bytes of an entry that say where the file starts and how long it is. -/
def Handle.Owns (f : Handle) (s o : Nat) : Prop :=
  s = f.dirSec ∧ (f.dirOff + 20 ≤ o ∧ o < f.dirOff + 22 ∨ f.dirOff + 26 ≤ o ∧ o < f.dirOff + 32)

/-- What a write of the first `n` bytes of a buffer is to do to the volume, the file it is in being
`i` of the catalog, and `f'` the handle afterwards. -/
structure Written {ι : Type} (g : Geo) (cat : Catalog ι) (i : ι) (off : Nat) (buf : List UInt8)
    (n : Nat) (f' : Handle) (v v' : Volume) : Prop where
  contents : ∃ old, old.length = (cat.handle i).size ∧ Holds g v (cat.handle i) old ∧
    Holds g v' f' (splice old off (buf.take n))
  size : f'.size = max (cat.handle i).size (off + n)
  recorded : readBack v' (cat.handle i).dirSec (cat.handle i).dirOff = f'
  whole : n = buf.length ∨ n < buf.length ∧ Full g v'
  others : ∀ j, j ≠ i → (cat.handle j).isDir = false →
    ∃ l, Holds g v (cat.handle j) l ∧ Holds g v' (cat.handle j) l
  sizes : ∀ j, j ≠ i → (cat.handle j).dirSec ≠ 0 →
    readBack v' (cat.handle j).dirSec (cat.handle j).dirOff = cat.handle j
  directories : ∀ j, (cat.handle j).isDir = true → Chain g v' (cat.chain j) ∧
    ∀ c ∈ cat.chain j, ∀ s, g.InClus c s → ∀ o < 512, ¬(cat.handle i).Owns s o → v' s o = v s o

theorem not_written_of_wrap {ι : Type} {g : Geo} {cat : Catalog ι} {i : ι} {off n : Nat}
    {buf : List UInt8} {f' : Handle} {v v' : Volume} (hwrap : 2 ^ 32 ≤ off + n) :
    ¬Written g cat i off buf n f' v v' := by
  intro h
  have hmax := h.size
  have hlt : f'.size < 2 ^ 32 := by
    rw [← h.recorded]
    exact rd32_lt _ _
  omega

/-! ## The entry of a file -/

section Entries

variable {v : Volume} {b : Sector} {f : Handle} {s o : Nat}

/-- The sector of a directory after `dir_writeback`. -/
def writtenBack (b : Sector) (f : Handle) : Sector :=
  wr16 (wr16 (wr32 b (f.dirOff + 28) f.size) (f.dirOff + 20) (f.cluster / 65536))
    (f.dirOff + 26) (f.cluster % 65536)

theorem run_dirWriteback (h : f.dirSec ≠ 0) : (dirWriteback f).run v =
    some (true, Function.update v f.dirSec (writtenBack (v f.dirSec) f)) := by
  unfold dirWriteback
  rw [if_neg h]
  rfl

theorem writtenBack_of_not_owns (h : ¬f.Owns f.dirSec o) : writtenBack b f o = b o := by
  have hout : ¬(f.dirOff + 20 ≤ o ∧ o < f.dirOff + 22 ∨ f.dirOff + 26 ≤ o ∧ o < f.dirOff + 32) :=
    fun ho => h ⟨rfl, ho⟩
  unfold writtenBack
  rw [wr16_of_apart (by omega), wr16_of_apart (by omega), wr32_of_apart (by omega)]

theorem rd32_entryAt (k : Nat) : rd32 (entryAt b o) k = rd32 b (o + k) := by
  simp only [rd32, entryAt, Nat.add_assoc]

theorem rd16_entryAt (k : Nat) : rd16 (entryAt b o) k = rd16 b (o + k) := by
  simp only [rd16, entryAt, Nat.add_assoc]

theorem readBack_writtenBack (hsize : f.size < 2 ^ 32) (hclus : f.cluster < 2 ^ 32)
    (hhead : f.cluster ≠ 1) (hdir : ((b (f.dirOff + 11)).toNat / 16 % 2 == 1) = f.isDir) :
    readBack (Function.update v f.dirSec (writtenBack b f)) f.dirSec f.dirOff = f := by
  have hcluster : entryCluster (entryAt (writtenBack b f) f.dirOff) = f.cluster := by
    unfold entryCluster
    rw [rd16_entryAt, rd16_entryAt]
    unfold writtenBack
    rw [rd16_wr16, rd16_congr (q := wr16 (wr32 b (f.dirOff + 28) f.size) (f.dirOff + 20)
      (f.cluster / 65536)) fun i h1 h2 => wr16_of_apart (by omega), rd16_wr16]
    omega
  have hlen : rd32 (entryAt (writtenBack b f) f.dirOff) 28 = f.size := by
    rw [rd32_entryAt]
    unfold writtenBack
    rw [rd32_congr (q := wr16 (wr32 b (f.dirOff + 28) f.size) (f.dirOff + 20)
      (f.cluster / 65536)) fun i h1 h2 => wr16_of_apart (by omega),
      rd32_congr (q := wr32 b (f.dirOff + 28) f.size) fun i h1 h2 => wr16_of_apart (by omega),
      rd32_wr32, Nat.mod_eq_of_lt hsize]
  have hattr : entryAt (writtenBack b f) f.dirOff 11 = b (f.dirOff + 11) :=
    writtenBack_of_not_owns fun ho => by
      have hoff := ho.2
      omega
  unfold readBack handleAt
  rw [update_self, hcluster, hlen, hattr, hdir]
  have hzero : (if f.cluster < 2 then 0 else f.cluster) = f.cluster := by
    split <;> omega
  rw [hzero]

theorem classify_congr {e e' : Sector} (h0 : e' 0 = e 0) (h11 : e' 11 = e 11) :
    classify e' = classify e := by
  unfold classify
  rw [h0, h11]

theorem readBack_congr {v' : Volume} (h : ∀ k < 32, v' s (o + k) = v s (o + k)) :
    readBack v' s o = readBack v s o ∧
      classify (entryAt (v' s) o) = classify (entryAt (v s) o) := by
  have h0 := h 0 (by omega)
  have h11 := h 11 (by omega)
  have hc20 := rd16_congr (p := v' s) (q := v s) (o := o + 20) fun i h1 h2 => by
    have hk := h (i - o) (by omega)
    rwa [Nat.add_sub_cancel' (by omega)] at hk
  have hc26 := rd16_congr (p := v' s) (q := v s) (o := o + 26) fun i h1 h2 => by
    have hk := h (i - o) (by omega)
    rwa [Nat.add_sub_cancel' (by omega)] at hk
  have hs28 := rd32_congr (p := v' s) (q := v s) (o := o + 28) fun i h1 h2 => by
    have hk := h (i - o) (by omega)
    rwa [Nat.add_sub_cancel' (by omega)] at hk
  have hcluster : entryCluster (entryAt (v' s) o) = entryCluster (entryAt (v s) o) := by
    unfold entryCluster
    rw [rd16_entryAt, rd16_entryAt, rd16_entryAt, rd16_entryAt, hc20, hc26]
  have hsize : rd32 (entryAt (v' s) o) 28 = rd32 (entryAt (v s) o) 28 := by
    rw [rd32_entryAt, rd32_entryAt, hs28]
  have hattr : entryAt (v' s) o 11 = entryAt (v s) o 11 := h11
  have hfirst : entryAt (v' s) o 0 = entryAt (v s) o 0 := h0
  refine ⟨?_, classify_congr hfirst hattr⟩
  unfold readBack handleAt
  rw [hcluster, hsize, hattr]

end Entries

/-! ## One write -/

section Write

variable {g : Geo} {v v' : Volume} {cs : List Nat} {f f' : Handle} {off n : Nat}
  {buf : List UInt8}

section

variable (h : Chain g v cs) (ok : g.Ok) (hhead : f.cluster = cs.getD 0 0)
include h ok hhead

/-- The first cluster of a file, a free one if it has none. -/
theorem Chain.run_first : ∃ v' cs', (∀ {α : Type} (k : Nat → Io α),
        (if f.cluster = 0 then clusAlloc g >>= k else pure f.cluster >>= k).run v =
          (k (cs'.getD 0 0)).run v') ∧ Grows g v v' cs cs' ∧ padded g v' cs' = padded g v cs := by
  by_cases hz : f.cluster = 0
  · obtain rfl : cs = [] :=
      List.length_eq_zero_iff.1 (Nat.le_zero.1 (h.getD_zero.1 (hhead ▸ hz)))
    rcases run_clusAlloc ok v with ⟨-, hrun⟩ | ⟨c, v', hrun, ha⟩
    · refine ⟨v, [], fun k => ?_, .refl h, rfl⟩
      rw [if_pos hz, run_bind_of hrun]
      rfl
    · obtain ⟨hgrows, hpad⟩ := ha.grows ok
      refine ⟨v', [c], fun k => ?_, hgrows, hpad⟩
      rw [if_pos hz, run_bind_of hrun]
      rfl
  · refine ⟨v, cs, fun k => ?_, .refl h, rfl⟩
    rw [if_neg hz, hhead]
    rfl

/-- A write that wrote something put the first bytes of the buffer into the chain and the handle it
leaves into the directory. -/
theorem Chain.run_fatWrite (hn : 0 < n)
    (hrun : (fatWrite g f off buf).run v = some (((n : Int), f'), v')) :
    f.isDir = false ∧ f.dirSec ≠ 0 ∧ ∃ v₁ cs', Grows g v v₁ cs cs' ∧
      padded g v₁ cs' = put (padded g v cs) off (buf.take n) ∧
      n ≤ buf.length ∧ (n = buf.length ∨ Full g v₁) ∧ off + n ≤ cs'.length * g.clusterBytes ∧
      f' = { f with
        cluster := cs'.getD 0 0
        size := if f.size < off + n then (off + n) % 2 ^ 32 else f.size } ∧
      v' = Function.update v₁ f.dirSec (writtenBack (v₁ f.dirSec) f') := by
  have hnone : ∀ {f0 : Handle} {v0 : Volume} {r : Int}, r ≤ 0 →
      some ((r, f0), v0) ≠ some (((n : Int), f'), v') := by
    rintro f0 v0 r hr he
    have hfst := congrArg Prod.fst (congrArg Prod.fst (Option.some.inj he))
    dsimp only at hfst
    omega
  unfold fatWrite at hrun
  split at hrun
  · exact absurd hrun (hnone (by decide))
  rename_i hfile
  rw [not_or, Bool.not_eq_true] at hfile
  split at hrun
  · exact absurd hrun (hnone (by decide))
  split at hrun
  · exact absurd hrun (hnone (by decide))
  obtain ⟨v0, cs0, hrun0, hv0, hpad0⟩ := h.run_first ok hhead
  dsimp only at hrun
  rw [hrun0] at hrun
  split at hrun
  · exact absurd hrun (hnone (by decide))
  rename_i hc0
  have hlen0 : 0 < cs0.length := by
    by_contra hle
    exact hc0 (hv0.chain.getD_zero.2 (by omega))
  obtain ⟨v₁, cs1, hrun1, hv1, hpad1⟩ :=
    Chain.run_extendTo ok (off / g.clusterBytes) hv0.chain hlen0
  rw [run_bind_of hrun1, Nat.zero_add] at hrun
  split at hrun
  · exact absurd hrun (hnone (by decide))
  rename_i hc1
  have hk1 : off / g.clusterBytes < cs1.length := by
    by_contra hle
    exact hc1 (hv1.chain.getD_zero.2 (by omega))
  obtain ⟨hplace, hw⟩ := place_of ok off
  obtain ⟨m, v2, cs2, hrun2, hm, -, hall, hv2, hroom, hpad2⟩ :=
    Chain.run_writeLoop ok buf.length (d := 0) hv1.chain hk1 hw le_rfl
  rw [run_bind_of hrun2] at hrun
  dsimp only at hrun
  rw [if_neg Bool.noConfusion, Nat.zero_add, run_bind_of (run_dirWriteback ?_),
    if_pos rfl] at hrun
  · have hgrows := (hv0.trans hv1).trans hv2
    have hfirst : cs2.getD 0 0 = cs0.getD 0 0 := prefix_getD (hv1.pre.trans hv2.pre) hlen0
    injection hrun with hpair
    injection hpair with hres hvol
    injection hres with hcount hhandle
    obtain rfl : m = n := Int.ofNat.inj hcount
    rw [← hplace] at hroom hpad2
    refine ⟨hfile.1, hfile.2, v2, cs2, hgrows, ?_, hm, hall, hroom, ?_, ?_⟩
    · rw [hpad2, hpad1, hpad0]
    · rw [← hhandle, hfirst]
    · rw [← hvol, ← hhandle]
  · exact hfile.2

theorem Chain.fatWrite_runs (hdir : f.isDir = false) (hsec : f.dirSec ≠ 0) (hbuf : buf ≠ [])
    (hoff : off ≤ f.size) (hin : off < cs.length * g.clusterBytes) :
    ∃ (n : Nat) (f' : Handle) (v' : Volume), 0 < n ∧ (fatWrite g f off buf).run v = some (((n : Int), f'), v') := by
  have hk : off / g.clusterBytes < cs.length := Nat.div_lt_of_lt_mul (by rwa [Nat.mul_comm] at hin)
  have hlen : 0 < cs.length := Nat.lt_of_le_of_lt (Nat.zero_le _) hk
  have hc0 : cs.getD 0 0 ≠ 0 := fun hz => by
    have hnil := h.getD_zero.1 hz
    omega
  obtain ⟨v₁, cs1, hrun1, hv1, -⟩ :=
    Chain.run_extendTo ok (off / g.clusterBytes) h hlen
  have hk1 : off / g.clusterBytes < cs1.length := Nat.lt_of_lt_of_le hk hv1.pre.length_le
  have hc1 : cs1.getD (off / g.clusterBytes) 0 ≠ 0 := fun hz => by
    have hlen := hv1.chain.getD_zero.1 hz
    omega
  obtain ⟨m, v2, cs2, hrun2, -, hpos, -⟩ :=
    Chain.run_writeLoop ok buf.length (d := 0) hv1.chain hk1 (place_of ok off).2 le_rfl
  rw [Nat.zero_add] at hrun1 hrun2
  obtain ⟨f', hf'⟩ : ∃ f' : Handle, f' = { f with
      cluster := cs.getD 0 0
      size := if f.size < off + m then (off + m) % 2 ^ 32 else f.size } := ⟨_, rfl⟩
  refine ⟨m, f', Function.update v2 f.dirSec (writtenBack (v2 f.dirSec) f'), hpos hbuf, ?_⟩
  have hsec' : f'.dirSec ≠ 0 := by rwa [hf']
  unfold fatWrite
  rw [if_neg (by rw [hdir]; simpa using hsec), if_neg hbuf, if_neg (by omega)]
  dsimp only
  rw [hhead, if_neg hc0]
  change (if cs.getD 0 0 = 0 then _ else _ : Io (Int × Handle)).run v = _
  rw [if_neg hc0, run_bind_of hrun1, if_neg hc1, run_bind_of hrun2]
  dsimp only
  rw [if_neg Bool.noConfusion, ← hf', run_bind_of (run_dirWriteback hsec'), if_pos rfl, hf']
  rfl

end

end Write

/-! ## What one file's change leaves alone -/

/-- Nothing of the catalog changed but the clusters of file `i` and what its entry says of them. -/
structure Spares {ι : Type} (g : Geo) (cat : Catalog ι) (i : ι) (v v' : Volume) : Prop where
  entry : ∀ j, j ≠ i → ∀ c ∈ cat.chain j, Fat.entry g v' c = Fat.entry g v c
  bytes : ∀ j, j ≠ i → ∀ c ∈ cat.chain j, ∀ s, g.InClus c s → ∀ o, ¬(cat.handle i).Owns s o →
    v' s o = v s o

/-- The catalog with another handle and chain for one file. -/
def Catalog.set {ι : Type} [DecidableEq ι] (cat : Catalog ι) (i : ι) (f : Handle) (cs : List Nat) :
    Catalog ι where
  handle := Function.update cat.handle i f
  chain := Function.update cat.chain i cs

section Sparing

variable {ι : Type} {g : Geo} {v v' v₁ : Volume} {cat : Catalog ι} {i j : ι} {cs' : List Nat}
  {f f' : Handle} {l : List UInt8}

theorem bytesOf_eq_padded {cs : List Nat} {size : Nat} (h : size ≤ cs.length * g.clusterBytes) :
    bytesOf g v cs size = (List.range size).map (padded g v cs) := by
  refine List.map_congr_left fun k hk => ?_
  have hlt := List.mem_range.1 hk
  rw [padded, if_pos (by omega)]

theorem Chain.holds {cs : List Nat} (h : Chain g v cs) (ok : g.Ok) (hdir : f.isDir = false)
    (hhead : f.cluster = cs.getD 0 0) (hroom : f.size ≤ cs.length * g.clusterBytes) :
    Holds g v f (bytesOf g v cs f.size) :=
  fun _ _ hlen => h.run_fatRead ok hdir hhead hroom hlen

theorem WellFormed.holds (wf : WellFormed g v cat) (ok : g.Ok)
    (hdir : (cat.handle i).isDir = false) :
    Holds g v (cat.handle i) (bytesOf g v (cat.chain i) (cat.handle i).size) :=
  (wf.chained i).holds ok hdir (wf.head i) (wf.room i hdir)

theorem Spares.chained (hs : Spares g cat i v v') (wf : WellFormed g v cat) (hj : j ≠ i) :
    Chain g v' (cat.chain j) :=
  (wf.chained j).congr (hs.entry j hj)

theorem WellFormed.not_owns (wf : WellFormed g v cat) (ok : g.Ok)
    (hi : (cat.handle i).dirSec ≠ 0) (hdir : (cat.handle j).isDir = false) {c s o : Nat}
    (hc : c ∈ cat.chain j) (hin : g.InClus c s) : ¬(cat.handle i).Owns s o := by
  rintro ⟨rfl, -⟩
  obtain ⟨d, hd, c', hc', hin'⟩ := wf.placed i hi
  have hdj : d ≠ j := by
    rintro rfl
    rw [hdir] at hd
    cases hd
  obtain rfl := inClus_unique ok ((wf.chained j).valid c hc) ((wf.chained d).valid c' hc') hin hin'
  exact wf.apart d j hdj c hc' hc

section

variable (hs : Spares g cat i v v') (wf : WellFormed g v cat) (ok : g.Ok)
  (hi : (cat.handle i).dirSec ≠ 0) (hj : j ≠ i) (hdir : (cat.handle j).isDir = false)
include hs wf ok hi hj hdir

theorem Spares.padded : padded g v' (cat.chain j) = padded g v (cat.chain j) :=
  padded_congr ok fun c hc s hin o _ => hs.bytes j hj c hc s hin o (wf.not_owns ok hi hdir hc hin)

theorem Spares.holds :
    Holds g v' (cat.handle j) (bytesOf g v (cat.chain j) (cat.handle j).size) := by
  have hroom := wf.room j hdir
  rw [bytesOf_eq_padded hroom, ← hs.padded wf ok hi hj hdir, ← bytesOf_eq_padded hroom]
  exact (hs.chained wf hj).holds ok hdir (wf.head j) hroom

end

/-- The other files' entries say what they said. -/
theorem Spares.readBack (hs : Spares g cat i v v') (wf : WellFormed g v cat)
    (hfile : (cat.handle i).isDir = false) (hi : (cat.handle i).dirSec ≠ 0) (hj : j ≠ i)
    (hjs : (cat.handle j).dirSec ≠ 0) :
    readBack v' (cat.handle j).dirSec (cat.handle j).dirOff = cat.handle j ∧
      classify (entryAt (v' (cat.handle j).dirSec) (cat.handle j).dirOff) = .live := by
  obtain ⟨d, hd, c, hc, hin⟩ := wf.placed j hjs
  have hdi : d ≠ i := by
    rintro rfl
    rw [hfile] at hd
    cases hd
  obtain ⟨hoff, hlt⟩ := wf.slot j hjs
  obtain ⟨hoff', hlt'⟩ := wf.slot i hi
  have hbytes : ∀ k < 32, v' (cat.handle j).dirSec ((cat.handle j).dirOff + k) =
      v (cat.handle j).dirSec ((cat.handle j).dirOff + k) := by
    intro k hk
    refine hs.bytes d hdi c hc _ hin _ ?_
    rintro ⟨hsec, hown⟩
    exact hj (wf.own j i hjs hsec (by omega))
  obtain ⟨hback, hclass⟩ := readBack_congr hbytes
  exact ⟨hback.trans (wf.recorded j hjs), hclass.trans (wf.live j hjs)⟩

/-- The file keeps its place in its directory. -/
structure SamePlace (f f' : Handle) : Prop where
  isDir : f'.isDir = f.isDir
  dirSec : f'.dirSec = f.dirSec
  dirOff : f'.dirOff = f.dirOff

/-- What is written back of a file is read back, and its entry stays live. -/
theorem WellFormed.back {v₁ : Volume} (wf : WellFormed g v cat) (hi : (cat.handle i).dirSec ≠ 0)
    (hplace : SamePlace (cat.handle i) f') (hv' : v' = Function.update v₁ (cat.handle i).dirSec
      (writtenBack (v₁ (cat.handle i).dirSec) f'))
    (hdirsec : v₁ (cat.handle i).dirSec = v (cat.handle i).dirSec) (hsize : f'.size < 2 ^ 32)
    (hclus : f'.cluster < 2 ^ 32) (hone : f'.cluster ≠ 1) :
    readBack v' (cat.handle i).dirSec (cat.handle i).dirOff = f' ∧
      classify (entryAt (v' (cat.handle i).dirSec) (cat.handle i).dirOff) = .live := by
  constructor
  · rw [hv', ← hplace.dirSec, ← hplace.dirOff]
    refine readBack_writtenBack hsize hclus hone ?_
    rw [hplace.dirSec, hplace.dirOff, hplace.isDir, hdirsec]
    exact congrArg Handle.isDir (wf.recorded i hi)
  · rw [← wf.live i hi, ← hdirsec, hv', update_self]
    have hkeep : ∀ k < 20, writtenBack (v₁ (cat.handle i).dirSec) f' ((cat.handle i).dirOff + k) =
        v₁ (cat.handle i).dirSec ((cat.handle i).dirOff + k) := by
      intro k hk
      refine writtenBack_of_not_owns fun hown => ?_
      have hoff' := hplace.dirOff
      have hfield := hown.2
      omega
    exact classify_congr (hkeep 0 (by omega)) (hkeep 11 (by omega))

section Set

variable [DecidableEq ι]

@[simp] theorem Catalog.set_handle_self : (cat.set i f cs').handle i = f := update_self ..

@[simp] theorem Catalog.set_chain_self : (cat.set i f cs').chain i = cs' := update_self ..

theorem Catalog.set_handle_of_ne (h : j ≠ i) : (cat.set i f cs').handle j = cat.handle j :=
  update_of_ne h ..

theorem Catalog.set_chain_of_ne (h : j ≠ i) : (cat.set i f cs').chain j = cat.chain j :=
  update_of_ne h ..

theorem Catalog.set_place (h : SamePlace (cat.handle i) f) (j : ι) :
    SamePlace (cat.handle j) ((cat.set i f cs').handle j) := by
  by_cases hj : j = i
  · subst hj
    rwa [set_handle_self]
  · rw [set_handle_of_ne hj]
    exact ⟨rfl, rfl, rfl⟩

/-- A volume on which one file has another chain and its entry says so. -/
theorem WellFormed.set (wf : WellFormed g v cat) (hs : Spares g cat i v v')
    (hfile : (cat.handle i).isDir = false) (hi : (cat.handle i).dirSec ≠ 0)
    (hplace : SamePlace (cat.handle i) f') (hchain : Chain g v' cs')
    (hhead : f'.cluster = cs'.getD 0 0) (hroom : f'.size ≤ cs'.length * g.clusterBytes)
    (hfresh : ∀ j, j ≠ i → ∀ c ∈ cat.chain j, c ∉ cs')
    (hback : Fat.readBack v' (cat.handle i).dirSec (cat.handle i).dirOff = f')
    (hlive : classify (entryAt (v' (cat.handle i).dirSec) (cat.handle i).dirOff) = .live) :
    WellFormed g v' (cat.set i f' cs') := by
  have hp : ∀ j, SamePlace (cat.handle j) ((cat.set i f' cs').handle j) :=
    Catalog.set_place hplace
  refine ⟨fun j => ?_, fun j => ?_, fun j k hjk c hc hck => ?_, fun j hj => ?_, fun j hj => ?_,
    fun j hj => ?_, fun j hj => ?_, fun j hj => ?_, fun j k hj hsec hoff => ?_⟩
  · by_cases hj : j = i
    · subst hj
      rwa [Catalog.set_chain_self]
    · rw [Catalog.set_chain_of_ne hj]
      exact hs.chained wf hj
  · by_cases hj : j = i
    · subst hj
      rw [Catalog.set_chain_self, Catalog.set_handle_self, hhead]
    · rw [Catalog.set_chain_of_ne hj, Catalog.set_handle_of_ne hj]
      exact wf.head j
  · by_cases hj : j = i
    · subst hj
      rw [Catalog.set_chain_self] at hc
      rw [Catalog.set_chain_of_ne (Ne.symm hjk)] at hck
      exact hfresh k (Ne.symm hjk) c hck hc
    · rw [Catalog.set_chain_of_ne hj] at hc
      by_cases hk : k = i
      · subst hk
        rw [Catalog.set_chain_self] at hck
        exact hfresh j hj c hc hck
      · rw [Catalog.set_chain_of_ne hk] at hck
        exact wf.apart j k hjk c hc hck
  · rw [(hp j).isDir] at hj
    by_cases hji : j = i
    · subst hji
      rwa [Catalog.set_chain_self, Catalog.set_handle_self]
    · rw [Catalog.set_chain_of_ne hji, Catalog.set_handle_of_ne hji]
      exact wf.room j hj
  · rw [(hp j).dirSec] at hj ⊢
    obtain ⟨d, hd, c, hc, hin⟩ := wf.placed j hj
    have hdi : d ≠ i := by
      rintro rfl
      rw [hfile] at hd
      cases hd
    exact ⟨d, (hp d).isDir.trans hd, c, by rwa [Catalog.set_chain_of_ne hdi], hin⟩
  · rw [(hp j).dirSec] at hj
    rw [(hp j).dirOff]
    exact wf.slot j hj
  · rw [(hp j).dirSec] at hj
    rw [(hp j).dirSec, (hp j).dirOff]
    by_cases hji : j = i
    · subst hji
      exact hlive
    · exact (hs.readBack wf hfile hi hji hj).2
  · rw [(hp j).dirSec] at hj
    rw [(hp j).dirSec, (hp j).dirOff]
    by_cases hji : j = i
    · subst hji
      rwa [Catalog.set_handle_self]
    · rw [Catalog.set_handle_of_ne hji]
      exact (hs.readBack wf hfile hi hji hj).1
  · rw [(hp j).dirSec] at hj hsec
    rw [(hp k).dirSec] at hsec
    rw [(hp j).dirOff, (hp k).dirOff] at hoff
    exact wf.own j k hj hsec hoff

end Set

/-- The new clusters of a chain that got longer were free, so no other file has them, and the
directory the file is in is another chain. -/
theorem WellFormed.grown (wf : WellFormed g v cat) (ok : g.Ok)
    (hfile : (cat.handle i).isDir = false) (hi : (cat.handle i).dirSec ≠ 0)
    (hplace : SamePlace (cat.handle i) f') (hgrows : Grows g v v₁ (cat.chain i) cs')
    (hv' : v' = Function.update v₁ (cat.handle i).dirSec
      (writtenBack (v₁ (cat.handle i).dirSec) f')) :
    Spares g cat i v v' ∧ Chain g v' cs' ∧ Fat.padded g v' cs' = Fat.padded g v₁ cs' ∧
      (∀ j, j ≠ i → ∀ c ∈ cat.chain j, c ∉ cs') ∧ v₁ (cat.handle i).dirSec =
        v (cat.handle i).dirSec ∧ ∀ c, c < g.totalClus → Fat.entry g v' c = Fat.entry g v₁ c := by
  have hfresh : ∀ j, j ≠ i → ∀ c ∈ cat.chain j, c ∉ cs' := fun j hj c hc =>
    hgrows.not_mem (wf.apart j i hj c hc) ((wf.chained j).used c hc)
  obtain ⟨d, hd, cd, hcd, hin⟩ := wf.placed i hi
  have hdi : d ≠ i := by
    rintro rfl
    rw [hfile] at hd
    cases hd
  have hcdv := (wf.chained d).valid cd hcd
  have hentry : ∀ c, c < g.totalClus → Fat.entry g v' c = Fat.entry g v₁ c := by
    intro c hc
    refine entry_of_same ok hc fun s hs => ?_
    rw [hv']
    refine update_of_ne ?_ ..
    rintro rfl
    exact InClus.not_inTable ok hcdv hin hs
  have hsame : ∀ j, j ≠ i → ∀ c ∈ cat.chain j, ∀ s, g.InClus c s → v₁ s = v s := by
    intro j hj c hc s hcs
    have hcv := (wf.chained j).valid c hc
    refine hgrows.rest s (InClus.not_inTable ok hcv hcs) fun c' hc' hcs' => ?_
    rw [← inClus_unique ok hcv (hgrows.chain.valid c' hc') hcs hcs'] at hc'
    exact hfresh j hj c hc hc'
  refine ⟨⟨fun j hj c hc => ?_, fun j hj c hc s hcs o hown => ?_⟩, ?_, ?_, hfresh,
    hsame d hdi cd hcd _ hin, hentry⟩
  · have hlt := ((wf.chained j).valid c hc).2
    rw [hentry c hlt, hgrows.entry c hlt (hfresh j hj c hc)]
  · rw [hv', ← hsame j hj c hc s hcs]
    by_cases hs : s = (cat.handle i).dirSec
    · subst hs
      rw [update_self]
      refine writtenBack_of_not_owns ?_
      unfold Handle.Owns at hown ⊢
      rwa [hplace.dirSec, hplace.dirOff]
    · rw [update_of_ne hs]
  · exact hgrows.chain.congr fun c hc => hentry c (hgrows.chain.valid c hc).2
  · refine padded_congr ok fun c hc s hcs o _ => ?_
    rw [hv', update_of_ne]
    rintro rfl
    rw [← inClus_unique ok hcdv (hgrows.chain.valid c hc) hin hcs] at hc
    exact hfresh d hdi cd hcd hc

end Sparing

/-! ## A write to a well-formed volume -/

section Writing

variable {ι : Type} [DecidableEq ι] {g : Geo} {v v' : Volume} {cat : Catalog ι} {i : ι}
  {f' : Handle} {off n : Nat} {buf : List UInt8}

/-- `fat_write` leaves a well-formed volume. If the end of the write fits a size it does what a
write is to do. -/
theorem WellFormed.written (wf : WellFormed g v cat) (ok : g.Ok)
    (hoff : off ≤ (cat.handle i).size) (hn : 0 < n)
    (hrun : (fatWrite g (cat.handle i) off buf).run v = some (((n : Int), f'), v')) :
    (∃ cs', WellFormed g v' (cat.set i f' cs')) ∧
      (off + n < 2 ^ 32 → Written g cat i off buf n f' v v') := by
  obtain ⟨hfile, hi, v₁, cs', hgrows, hpad, hle, hall, hroom, hf', hv'⟩ :=
    (wf.chained i).run_fatWrite ok (wf.head i) hn hrun
  have hplace : SamePlace (cat.handle i) f' := by
    rw [hf']
    exact ⟨rfl, rfl, rfl⟩
  obtain ⟨hspares, hchain, hpad', hfresh, hdirsec, hentry⟩ :=
    wf.grown ok hfile hi hplace hgrows hv'
  have hhead : f'.cluster = cs'.getD 0 0 := by rw [hf']
  have hsize : f'.size = if (cat.handle i).size < off + n then (off + n) % 2 ^ 32
      else (cat.handle i).size := by rw [hf']
  have hold : (cat.handle i).size < 2 ^ 32 := by
    rw [← wf.recorded i hi]
    exact rd32_lt _ _
  have hroom' : f'.size ≤ cs'.length * g.clusterBytes := by
    rw [hsize]
    have hlen := Nat.mul_le_mul_right g.clusterBytes hgrows.pre.length_le
    have hi' := wf.room i hfile
    split <;> omega
  obtain ⟨hback, hlive⟩ : readBack v' (cat.handle i).dirSec (cat.handle i).dirOff = f' ∧
      classify (entryAt (v' (cat.handle i).dirSec) (cat.handle i).dirOff) = .live := by
    refine wf.back hi hplace hv' hdirsec ?_ ?_ ?_
    · rw [hsize]
      split <;> omega
    · rw [hhead]
      by_cases hz : cs'.getD 0 0 = 0
      · omega
      · have hlt := (hgrows.chain.valid _ (List.mem_of_getElem? (hgrows.chain.get_of_ne hz))).2
        have htotal := ok.total
        omega
    · rw [hhead]
      intro hone
      have hmem := List.mem_of_getElem? (hgrows.chain.get_of_ne (by rw [hone]; exact one_ne_zero))
      have h2 := (hgrows.chain.valid _ hmem).1
      omega
  refine ⟨⟨cs', wf.set hspares hfile hi hplace hchain hhead hroom' hfresh hback hlive⟩,
    fun hfit => ?_⟩
  have hmax : f'.size = max (cat.handle i).size (off + n) := by
    rw [hsize]
    split
    · rw [Nat.mod_eq_of_lt hfit]
      omega
    · omega
  refine ⟨⟨_, length_bytesOf .., wf.holds ok hfile, ?_⟩, hmax, hback, ?_, fun j hj hdir => ?_,
    fun j hj hjs => (hspares.readBack wf hfile hi hj hjs).1, fun j hdir => ?_⟩
  · have htake : (buf.take n).length = n := by rw [List.length_take]; omega
    rw [bytesOf_eq_padded (wf.room i hfile), ← map_put hoff, htake, ← hmax, ← hpad, ← hpad',
      ← bytesOf_eq_padded hroom']
    exact hchain.holds ok (hplace.isDir.trans hfile) hhead hroom'
  · rcases Nat.lt_or_ge n buf.length with hlt | hge
    · have hfull := hall.resolve_left (by omega)
      exact .inr ⟨hlt, fun c hc => by rw [hentry c hc.2]; exact hfull c hc⟩
    · exact .inl (by omega)
  · exact ⟨_, wf.holds ok hdir, hspares.holds wf ok hi hj hdir⟩
  · have hji : j ≠ i := by
      rintro rfl
      rw [hfile] at hdir
      cases hdir
    exact ⟨hspares.chained wf hji, fun c hc s hin o _ hown =>
      hspares.bytes j hji c hc s hin o hown⟩

end Writing

/-! ## A file as long as a file can be -/

section Largest

/-- Clusters of 128 sectors, and as many as the largest file needs. -/
def largeGeo : Geo := ⟨128, 1, 513, 1, 514, 65539, 2, 0⟩

/-- The root directory is cluster 2, and all the others are the chain of one file. -/
def largeEntry (c : Nat) : Nat :=
  if c = 2 ∨ c = 65538 then 0x0ffffff8 else if 3 ≤ c ∧ c < 65538 then c + 1 else 0

/-- `A`, of 2^32 - 1 bytes from cluster 3 on. -/
def largeDirectory : Sector :=
  wr32 (wr16 (newEntry (fun _ => 0) 0 (65 :: List.replicate 10 32) 0x20) 26 3) 28 0xffffffff

def largeBoot : Sector :=
  wr16 (wr32 (wr32 (wr32 (fun o =>
    if o = 12 then 2 else if o = 13 then 128 else if o = 14 then 1 else if o = 16 then 1 else 0)
      32 8389250) 36 513) 44 2) 510 0xaa55

def largeVolume : Volume := fun s =>
  if s = 0 then largeBoot
  else if s < 514 then fun o => UInt8.ofNat (largeEntry ((s - 1) * 128 + o / 4) / 256 ^ (o % 4))
  else if s = 514 then largeDirectory
  else fun _ => 0

def largeFile : Handle := ⟨3, 0xffffffff, false, 514, 0⟩

/-- The root directory, and the file in it. -/
def largeCatalog : Catalog Bool where
  handle isFile := if isFile then largeFile else rootHandle largeGeo
  chain isFile := if isFile then List.range' 3 65536 else [2]

theorem largeGeo_ok : largeGeo.Ok := by
  refine ⟨?_, ?_, ?_, ?_, ?_, ?_⟩ <;> decide

theorem entry_largeVolume {c : Nat} (hc : c < 65539) :
    entry largeGeo largeVolume c = largeEntry c := by
  have hbyte : ∀ k < 4, (largeVolume (1 + c * 4 / 512) (c * 4 % 512 + k)).toNat =
      largeEntry c / 256 ^ k % 256 := by
    intro k hk
    have hs : (1 + c * 4 / 512 - 1) * 128 + (c * 4 % 512 + k) / 4 = c := by omega
    have ho : (c * 4 % 512 + k) % 4 = k := by omega
    unfold largeVolume
    rw [if_neg (by omega), if_pos (by omega), toNat_ofNat_byte, hs, ho]
  have h0 := hbyte 0 (by omega)
  have h1 := hbyte 1 (by omega)
  have h2 := hbyte 2 (by omega)
  have h3 := hbyte 3 (by omega)
  have hlt : largeEntry c < 2 ^ 28 := by
    unfold largeEntry
    split
    · decide
    · split <;> omega
  rw [Nat.add_zero] at h0
  unfold entry rd32
  change ((largeVolume (1 + c * 4 / 512) _).toNat + 256 * (largeVolume (1 + c * 4 / 512) _).toNat +
    65536 * (largeVolume (1 + c * 4 / 512) _).toNat +
    16777216 * (largeVolume (1 + c * 4 / 512) _).toNat) % 2 ^ 28 = _
  rw [h0, h1, h2, h3]
  omega

theorem next_largeVolume {c : Nat} (hc : 2 ≤ c) (hlt : c < 65539) :
    next largeGeo largeVolume c = if c = 2 ∨ c = 65538 then 0 else c + 1 := by
  have htotal : largeGeo.totalClus = 65539 := rfl
  unfold next
  rw [if_neg (by omega), entry_largeVolume hlt]
  unfold largeEntry
  by_cases hend : c = 2 ∨ c = 65538
  · rw [if_pos hend, if_pos hend]
    exact if_pos (.inl le_rfl)
  · have hmid : 3 ≤ c ∧ c < 65538 := by omega
    rw [if_neg hend, if_neg hend, if_pos hmid, if_neg (by omega)]

theorem largeChain {a n : Nat} (ha : 2 ≤ a) (hn : a + n ≤ 65539)
    (hlinks : ∀ k < n, (a + k = 2 ∨ a + k = 65538) ↔ k + 1 = n) :
    Chain largeGeo largeVolume (List.range' a n) := by
  have hin : ∀ c ∈ List.range' a n, 2 ≤ c ∧ c < 65539 ∧ c - a < n ∧ a ≤ c := by
    intro c hc
    rw [List.mem_range'_1] at hc
    omega
  refine ⟨fun c hc => ?_, List.nodup_range', fun k c hk => ?_, fun c hc => ?_⟩
  · exact ⟨(hin c hc).1, (hin c hc).2.1⟩
  · obtain ⟨hlt, he⟩ := List.getElem?_eq_some_iff.1 hk
    rw [List.length_range'] at hlt
    rw [List.getElem_range', Nat.one_mul] at he
    subst he
    have hlast := hlinks k hlt
    rw [next_largeVolume (by omega) (by omega)]
    split
    · rw [List.getD_eq_default _ _ (by rw [List.length_range']; omega)]
    · rw [List.getD_eq_getElem _ _ (by rw [List.length_range']; omega), List.getElem_range']
      omega
  · obtain ⟨h2, hlt, -⟩ := hin c hc
    rw [entry_largeVolume hlt]
    unfold largeEntry
    split
    · decide
    · rw [if_pos (by omega)]
      omega

theorem largeCatalog_room : (largeCatalog.chain true).length * largeGeo.clusterBytes = 2 ^ 32 := by
  have hlen : (largeCatalog.chain true).length = 65536 := List.length_range'
  have hbytes : largeGeo.clusterBytes = 65536 := rfl
  rw [hlen, hbytes]
  rfl

theorem largeVolume_wellFormed : WellFormed largeGeo largeVolume largeCatalog := by
  have hroot : Chain largeGeo largeVolume [2] :=
    largeChain (a := 2) (n := 1) le_rfl (by decide) (by omega)
  have hfile : Chain largeGeo largeVolume (List.range' 3 65536) :=
    largeChain (by decide) (by decide) (by omega)
  refine ⟨?_, ?_, ?_, ?_, ?_, ?_, ?_, ?_, ?_⟩
  · rintro (_ | _)
    · exact hroot
    · exact hfile
  · rintro (_ | _)
    · rfl
    · change 3 = (List.range' 3 65536).getD 0 0
      rw [List.getD_eq_getElem _ _ (by rw [List.length_range']; decide), List.getElem_range']
  · rintro (_ | _) (_ | _) hne c hc
    · exact absurd rfl hne
    · change c ∉ List.range' 3 65536
      obtain rfl : c = 2 := List.mem_singleton.1 hc
      rw [List.mem_range'_1]
      omega
    · change c ∉ [2]
      rw [List.mem_singleton]
      have hmem := List.mem_range'_1.1 hc
      omega
    · exact absurd rfl hne
  · rintro (_ | _) hdir
    · cases hdir
    · have hsize : (largeCatalog.handle true).size = 0xffffffff := rfl
      rw [largeCatalog_room, hsize]
      decide
  · rintro (_ | _) hsec
    · exact absurd rfl hsec
    · exact ⟨false, rfl, 2, List.mem_singleton_self 2, by decide, by decide⟩
  · rintro (_ | _) hsec
    · exact absurd rfl hsec
    · exact ⟨rfl, by decide⟩
  · rintro (_ | _) hsec
    · exact absurd rfl hsec
    · rfl
  · rintro (_ | _) hsec
    · exact absurd rfl hsec
    · change readBack largeVolume 514 0 = largeFile
      decide +kernel
  · rintro (_ | _) (_ | _) hsec hs ho
    · rfl
    · exact absurd rfl hsec
    · cases hs
    · rfl

/-- `fat_write` into a well-formed volume, with no transfer failing: once something is written, the
write is what it is to be just if its end fits the 32 bits of a size. -/
theorem fat_write_then_read_iff {ι : Type} [DecidableEq ι] (g : Geo) (v v' : Volume) (cat : Catalog ι) (i : ι) (f' : Handle)
    (off n : Nat) (buf : List UInt8) (ok : g.Ok) (wf : WellFormed g v cat)
    (hoff : off ≤ (cat.handle i).size) (hn : 0 < n)
    (hrun : (fatWrite g (cat.handle i) off buf).run v = some (((n : Int), f'), v')) :
    Written g cat i off buf n f' v v' ↔ off + n < 2 ^ 32 := by
  refine ⟨fun h => ?_, (wf.written ok hoff hn hrun).2⟩
  by_contra hwrap
  exact not_written_of_wrap (by omega) h

/-- One byte at the start of the largest file. -/
theorem fat_write_then_read_iff_firstByte : ∃ (n : Nat) (f' : Handle) (v' : Volume), 0 < n ∧
    (fatWrite largeGeo (largeCatalog.handle true) 0 [7]).run largeVolume =
      some (((n : Int), f'), v') ∧
    Written largeGeo largeCatalog true 0 [7] n f' largeVolume v' := by
  have wf := largeVolume_wellFormed
  have hin : 0 < (largeCatalog.chain true).length * largeGeo.clusterBytes := by
    rw [largeCatalog_room]
    decide
  obtain ⟨n, f', v', hn, hrun⟩ := (wf.chained true).fatWrite_runs largeGeo_ok (wf.head true) rfl
    (by decide) (List.cons_ne_nil 7 []) (by decide) hin
  obtain ⟨-, -, _, _, -, -, hle, -⟩ :=
    (wf.chained true).run_fatWrite largeGeo_ok (wf.head true) hn hrun
  have hone : n ≤ 1 := hle
  exact ⟨n, f', v', hn, hrun, (fat_write_then_read_iff largeGeo largeVolume v' largeCatalog true f'
    0 n [7] largeGeo_ok wf (by decide) hn hrun).2 (by omega)⟩

/-- One byte at the last offset of the largest file: it is written, and the file is empty. -/
theorem write_at_the_last_byte :
    (fatMount.run largeVolume = some (some largeGeo, largeVolume)) ∧ largeGeo.Ok ∧
      WellFormed largeGeo largeVolume largeCatalog ∧
      ∃ (n : Nat) (f' : Handle) (v' : Volume), 0 < n ∧
        (fatWrite largeGeo (largeCatalog.handle true) (2 ^ 32 - 1) [7]).run largeVolume =
          some (((n : Int), f'), v') ∧
        ¬Written largeGeo largeCatalog true (2 ^ 32 - 1) [7] n f' largeVolume v' := by
  have wf := largeVolume_wellFormed
  have hin : 2 ^ 32 - 1 < (largeCatalog.chain true).length * largeGeo.clusterBytes := by
    rw [largeCatalog_room]
    decide
  obtain ⟨n, f', v', hn, hrun⟩ := (wf.chained true).fatWrite_runs largeGeo_ok (wf.head true) rfl
    (by decide) (List.cons_ne_nil 7 []) (by decide) hin
  exact ⟨rfl, largeGeo_ok, wf, n, f', v', hn, hrun, not_written_of_wrap (by omega)⟩

end Largest

end Verkos.Stam.Fat
