import Verkos.Stam.FatCreate
import Verkos.Stam.Readonly

/-!
# Calls that fail

A call that fails for want of a cluster, of a slot or of a file object is to leave the volume as it
was. `fat_create` and `fat_write` do. `fat_mkdir` makes the entry before it knows that there is a
cluster for the directory, and `file_open` makes or empties the file before it knows that there is an
object for it; what they leave then is said by `VolumeCall.Clean`.
-/

namespace Verkos.Stam.Fat

open Verkos.Lib
open List
open Option (some.inj map_eq_some_iff some_ne_none)
open Blocks (run_bind run_bind_of)

/-- The entries of the directories, the contents of the files and the free clusters are the same. -/
structure Kept {ι : Type} (g : Geo) (cat : Catalog ι) (v v' : Volume) : Prop where
  free : ∀ c, g.Valid c → (entry g v' c = 0 ↔ entry g v c = 0)
  bytes : ∀ i, ∀ c ∈ cat.chain i, ∀ s, g.InClus c s → ∀ o < 512, v' s o = v s o
  chains : ∀ i, Chain g v' (cat.chain i)

/-- The calls that may fail for want of room. A write is to a file of the catalog. -/
inductive VolumeCall (ι : Type) where
  | create (path : List UInt8)
  | mkdir (path : List UInt8)
  | write (i : ι) (off : Nat) (buf : List UInt8)
  | opens (path : List UInt8) (mode : OpenMode)

/-- A call with no transfer failing: whether it fails, and the volume afterwards. -/
def VolumeCall.run {ι : Type} (m : Media) (g : Geo) (fuel : Nat) (junk : Nat → UInt8)
    (cat : Catalog ι) (st : Store) : VolumeCall ι → Option (Bool × Volume)
  | .create path => ((fatCreate g fuel junk path).run st.disk).map fun r => (r.1.isNone, r.2)
  | .mkdir path => ((fatMkdir g fuel junk path).run st.disk).map fun r => (!r.1, r.2)
  | .write i off buf =>
    ((fatWrite g (cat.handle i) off buf).run st.disk).map fun r => (decide (r.1.1 < 0), r.2)
  | .opens path mode =>
    (st.fileOpen m fuel junk (fun _ => true) path mode).map fun r =>
      (match r.2 with
        | .ok _ => false
        | .error _ => true, r.1.disk)

/-- The entry that is made is there already, byte for byte. -/
def Slot.Has (x : Slot) (name : List UInt8) : Prop := newEntry x.2 x.1.off name 0x20 = x.2

/-- One cluster is free and no other. -/
def OneFree (g : Geo) (v : Volume) : Prop :=
  ∃ n, g.Valid n ∧ entry g v n = 0 ∧ ∀ c, g.Valid c → entry g v c = 0 → c = n

/-- The call finds its room before it changes anything, or there is nothing to change. -/
def VolumeCall.Clean {ι : Type} (g : Geo) (fuel : Nat) (junk : Nat → UInt8) (cat : Catalog ι)
    (st : Store) : VolumeCall ι → Prop
  | .create _ => True
  | .write _ _ _ => True
  | .mkdir path => ∀ j name, Makes g fuel junk st.disk cat path j name →
    match freeSlot (slots g st.disk (cat.chain j)) with
    | some x => Full g st.disk → x.Has name
    | none => ¬OneFree g st.disk
  | .opens path mode => mode ≠ .read → path.head? = some 47 → st.pools.findFree = none →
    (∀ h, openedAt g fuel junk st.disk (bareName path) = some h → h.isDir = false →
      mode = .write → h.cluster = 0 ∧
        writtenBack (st.disk h.dirSec) { h with cluster := 0, size := 0 } = st.disk h.dirSec) ∧
    ∀ j name, Makes g fuel junk st.disk cat (bareName path) j name →
      match freeSlot (slots g st.disk (cat.chain j)) with
      | some x => x.Has name
      | none => Full g st.disk

/-! ## What keeps a volume -/

section Keeping

variable {ι : Type} {g : Geo} {v v' v₁ : Volume} {cat : Catalog ι} {fuel : Nat}
  {junk : Nat → UInt8} {path name name' : List UInt8} {i j j' : ι} {x : Slot} {f : Handle}

theorem Kept.refl (wf : WellFormed g v cat) : Kept g cat v v :=
  ⟨fun _ _ => Iff.rfl, fun _ _ _ _ _ _ _ => rfl, wf.chained⟩

theorem Makes.unique (wf : WellFormed g v cat) (rt : Rooted g v cat)
    (h : Makes g fuel junk v cat path j name) (h' : Makes g fuel junk v cat path j' name') :
    j = j' ∧ name = name' := by
  refine ⟨?_, some.inj (h.name.symm.trans h'.name)⟩
  have hhead := some.inj (h.dir.symm.trans h'.dir)
  have hpos := length_pos_iff.2 (rt.dirs j h.isDir)
  have hpos' := length_pos_iff.2 (rt.dirs j' h'.isDir)
  by_contra hne
  refine wf.apart j j' hne _ (getD_mem hpos) ?_
  rw [hhead]
  exact getD_mem hpos'

theorem full_congr (h : ∀ c, c < g.totalClus → entry g v' c = entry g v c) : Full g v' ↔ Full g v :=
  ⟨fun hf c hc => by rw [← h c hc.2]; exact hf c hc, fun hf c hc => by
    rw [h c hc.2]; exact hf c hc⟩

theorem kept_withSlot (wf : WellFormed g v cat) (hx : freeSlot (slots g v (cat.chain j)) = some x) :
    Kept g cat v (withSlot v x name) ↔ x.Has name := by
  obtain ⟨-, hc, hin, hmod, hoff, hsec⟩ := freeSlot_spec hx
  constructor
  · intro h
    funext o
    by_cases ho : o < x.1.off ∨ x.1.off + 32 ≤ o
    · exact newEntry_of_apart ho
    · have hkept := h.bytes j x.1.clus hc x.1.sec hin o (by omega)
      rw [hsec]
      rw [withSlot, Function.update_self, hsec] at hkept
      exact hkept
  · intro h
    have hsame : withSlot v x name = v := by
      unfold withSlot
      rw [h, hsec, Function.update_eq_self]
    rw [hsame]
    exact Kept.refl wf

theorem not_kept_of_used {c : Nat} (hc : g.Valid c) (hfree : entry g v c = 0)
    (hused : entry g v' c ≠ 0) : ¬Kept g cat v v' :=
  fun h => hused ((h.free c hc).2 hfree)

/-- Emptying a file is seen, unless it is empty and its entry says so. -/
theorem kept_truncated (wf : WellFormed g v cat) (ok : g.Ok)
    (hi : (cat.handle i).dirSec ≠ 0) (hfrees : Frees g (cat.chain i) v v₁) :
    Kept g cat v (Function.update v₁ (cat.handle i).dirSec (writtenBack (v₁ (cat.handle i).dirSec)
        { cat.handle i with cluster := 0, size := 0 })) ↔
      (cat.handle i).cluster = 0 ∧ writtenBack (v (cat.handle i).dirSec)
        { cat.handle i with cluster := 0, size := 0 } = v (cat.handle i).dirSec := by
  obtain ⟨d, -, c, hc, hin⟩ := wf.placed i hi
  have hcv := (wf.chained d).valid c hc
  have hslot := wf.slot i hi
  have hsec : v₁ (cat.handle i).dirSec = v (cat.handle i).dirSec :=
    hfrees.rest _ (InClus.not_inTable ok hcv hin)
  rw [hsec]
  constructor
  · intro h
    refine ⟨?_, ?_⟩
    · by_contra hz
      rw [wf.head i] at hz
      have hmem := mem_of_getElem? ((wf.chained i).get_of_ne hz)
      have hv := (wf.chained i).valid _ hmem
      refine (wf.chained i).used _ hmem ((h.free _ hv).1 ?_)
      rw [entry_update ok hcv hin _ hv.2, hfrees.entry _ hv.2, if_pos hmem]
    · funext o
      by_cases ho : o < 512
      · have hkept := h.bytes d c hc _ hin o ho
        rwa [Function.update_self] at hkept
      · refine writtenBack_of_not_owns ?_
        rintro ⟨-, hown⟩
        dsimp only at hown
        omega
  · rintro ⟨hz, hsame⟩
    have hnil : cat.chain i = [] := length_eq_zero_iff.1
      (Nat.le_zero.1 ((wf.chained i).getD_zero.1 (by rw [← wf.head i, hz])))
    have hentry : ∀ c', c' < g.totalClus →
        entry g (Function.update v₁ (cat.handle i).dirSec (v (cat.handle i).dirSec)) c' =
          entry g v c' := by
      intro c' hlt
      rw [entry_update ok hcv hin _ hlt, hfrees.entry c' hlt, hnil, if_neg not_mem_nil]
    rw [hsame]
    refine ⟨fun c' hv => by rw [hentry c' hv.2], fun k c' hc' s hs o _ => ?_, fun k => ?_⟩
    · by_cases he : s = (cat.handle i).dirSec
      · rw [he, Function.update_self]
      · rw [Function.update_of_ne he,
          hfrees.rest s (InClus.not_inTable ok ((wf.chained k).valid c' hc') hs)]
    · exact (wf.chained k).congr fun c' hc' => hentry c' ((wf.chained k).valid c' hc').2

theorem Created.kept_none (h : Created g fuel junk v cat path none v') : v' = v := by
  cases h <;> rfl

end Keeping

/-! ## Each call -/

section Calls

variable {ι : Type} {m : Media} {g : Geo} {cat : Catalog ι} {fuel : Nat} {junk : Nat → UInt8}
  {st : Store} {v v' : Volume}

theorem keeps_create (wf : WellFormed g v cat) (rt : Rooted g v cat) (ok : g.Ok)
    (hfuel : g.totalClus ≤ fuel) {path : List UInt8}
    (h : (fatCreate g fuel junk path).run v = some (none, v')) : Kept g cat v v' := by
  obtain ⟨r, v₁, hrun, hc⟩ := @Rooted.run_fatCreate _ g _ cat fuel junk rt wf ok hfuel path
  obtain ⟨rfl, rfl⟩ := Prod.mk.inj (some.inj (hrun.symm.trans h))
  rw [hc.kept_none]
  exact .refl wf

/-- Once the first cluster of a write is there, something is written. -/
theorem write_answers (ok : g.Ok) {off : Nat} {buf : List UInt8} {r : Int} {f' f0 : Handle}
    {cs1 : List Nat} {k : Nat} (hr : r ≤ 0) (hbuf : buf ≠ []) (h1 : Chain g v cs1)
    (hk : k < cs1.length) : (do
      let (n, whole) ← writeLoop g buf.length (cs1.getD k 0) (off % g.clusterBytes) buf 0
      if whole = false then pure (partly n, f0)
      else
        let f := { f0 with size := if f0.size < off + n then (off + n) % 2 ^ 32 else f0.size }
        if ← dirWriteback f then pure ((n : Int), f) else pure (partly n, f)
      : Io (Int × Handle)).run v ≠ some ((r, f'), v') := by
  intro he
  obtain ⟨n, v2, cs2, hrun, -, hpos, -⟩ :=
    Chain.run_writeLoop ok buf.length (d := 0) h1 hk (place_of ok off).2 le_rfl
  rw [Nat.zero_add] at hrun
  have hn := hpos hbuf
  rw [run_bind_of hrun] at he
  dsimp only at he
  rw [if_neg Bool.noConfusion] at he
  have hpartly : 0 < partly n := by
    unfold partly
    rw [if_neg (by omega)]
    omega
  have hback : ∀ {f1 : Handle} {v3 : Volume}, (do
      if ← dirWriteback f1 then pure ((n : Int), f1) else pure (partly n, f1)
      : Io (Int × Handle)).run v3 ≠ some ((r, f'), v') := by
    intro f1 v3 he
    obtain ⟨a, -, ha⟩ := Option.bind_eq_some_iff.1 (run_bind.symm.trans he)
    split at ha
    · have hres := congrArg (fun x => x.1.1) (some.inj ha)
      dsimp only at hres
      omega
    · have hres := congrArg (fun x => x.1.1) (some.inj ha)
      dsimp only at hres
      omega
  exact hback he

theorem keeps_write (wf : WellFormed g v cat) (ok : g.Ok) {i : ι} {off : Nat} {buf : List UInt8}
    {r : Int} {f' : Handle} (hr : r ≤ 0)
    (h : (fatWrite g (cat.handle i) off buf).run v = some ((r, f'), v')) : v' = v := by
  have hc := wf.chained i
  unfold fatWrite at h
  split at h
  · exact (Prod.mk.inj (some.inj h)).2.symm
  rename_i hfile
  rw [not_or, Bool.not_eq_true] at hfile
  split at h
  · exact (Prod.mk.inj (some.inj h)).2.symm
  rename_i hbuf
  split at h
  · exact (Prod.mk.inj (some.inj h)).2.symm
  rename_i hoff
  have hroom := wf.room i hfile.1
  dsimp only at h
  by_cases hz : (cat.handle i).cluster = 0
  · -- the file is empty, so the write starts in its first cluster
    have hnil : cat.chain i = [] := length_eq_zero_iff.1
      (Nat.le_zero.1 (hc.getD_zero.1 (by rw [← wf.head i, hz])))
    rw [hnil, length_nil, Nat.zero_mul] at hroom
    have hzero : off / g.clusterBytes = 0 := by
      rw [show off = 0 by omega, Nat.zero_div]
    rw [if_pos hz] at h
    rcases run_clusAlloc ok v with ⟨-, hrun⟩ | ⟨n, v₁, hrun, ha⟩
    · rw [run_bind_of hrun, if_pos rfl] at h
      exact (Prod.mk.inj (some.inj h)).2.symm
    · have hn0 : n ≠ 0 := by
        have h2 := ha.valid.1
        omega
      rw [run_bind_of hrun, if_neg hn0, hzero, extendTo] at h
      change (if n = 0 then _ else _ : Io (Int × Handle)).run v₁ = _ at h
      rw [if_neg hn0] at h
      exact absurd h (write_answers ok hr hbuf (k := 0) (ha.grows ok).1.chain Nat.one_pos)
  · rw [if_neg hz] at h
    change (if (cat.handle i).cluster = 0 then _ else _ : Io (Int × Handle)).run v = _ at h
    rw [if_neg hz, wf.head i] at h
    have hpos : 0 < (cat.chain i).length := by
      by_contra hle
      rw [wf.head i] at hz
      exact hz (hc.getD_zero.2 (by omega))
    have hlast : off / g.clusterBytes ≤ (cat.chain i).length :=
      Nat.div_le_of_le_mul (by rw [Nat.mul_comm]; omega)
    obtain ⟨v₁, cs1, hrun, hv1, -⟩ := Chain.run_extendTo ok (off / g.clusterBytes) hc hpos
    rw [run_bind_of hrun] at h
    split at h
    · rename_i h0
      rw [h0] at hrun
      rw [← (Prod.mk.inj (some.inj h)).2]
      exact hc.extendTo_failed ok _ hpos (by omega) hrun
    · rename_i h0
      have hk : 0 + off / g.clusterBytes < cs1.length := by
        by_contra hle
        exact h0 (hv1.chain.getD_zero.2 (by omega))
      exact absurd h (write_answers ok hr hbuf hv1.chain hk)

/-- `fat_mkdir` fails when the entry cannot be made, or behind that when no cluster is left. -/
theorem run_fatMkdir_failed {path : List UInt8} {r : Option Handle} {v₁ : Volume} (ok : g.Ok)
    (hrun : (fatCreate g fuel junk path).run v = some (r, v₁)) :
    (fatMkdir g fuel junk path).run v = some (false, v') ↔ v' = v₁ ∧ (r = none ∨ Full g v₁) := by
  unfold fatMkdir
  rw [run_bind_of hrun]
  cases r with
  | none =>
    constructor
    · intro h
      exact ⟨(Prod.mk.inj (some.inj h)).2.symm, .inl rfl⟩
    · rintro ⟨rfl, -⟩
      rfl
  | some d =>
    dsimp only
    rcases run_clusAlloc ok v₁ with ⟨hfull, halloc⟩ | ⟨c, v2, halloc, ha⟩
    · rw [run_bind_of halloc, if_pos rfl]
      constructor
      · intro h
        exact ⟨(Prod.mk.inj (some.inj h)).2.symm, .inr hfull⟩
      · rintro ⟨rfl, -⟩
        rfl
    · have hc0 : c ≠ 0 := by
        have h2 := ha.valid.1
        omega
      have hnot : ¬(v' = v₁ ∧ (some d = none ∨ Full g v₁)) := by
        rintro ⟨-, h | h⟩
        · cases h
        · exact h c ha.valid ha.free
      refine iff_of_false (fun h => ?_) hnot
      rw [run_bind_of halloc, if_neg hc0] at h
      cases hp : parentPart (skipSlashes path) with
      | none =>
        rw [hp] at h
        cases congrArg Prod.fst (some.inj h)
      | some pn =>
        rw [hp] at h
        dsimp only at h
        obtain ⟨⟨x, v3⟩, -, h⟩ := Option.bind_eq_some_iff.1 (run_bind.symm.trans h)
        cases x with
        | none | some pf => cases congrArg Prod.fst (some.inj h)

theorem entry_withSlot (wf : WellFormed g v cat) (ok : g.Ok) {j : ι} {x : Slot}
    {name : List UInt8} (hx : freeSlot (slots g v (cat.chain j)) = some x) {c : Nat}
    (hc : c < g.totalClus) : entry g (withSlot v x name) c = entry g v c := by
  obtain ⟨-, hin, hs, -⟩ := freeSlot_spec hx
  exact entry_update ok ((wf.chained j).valid _ hin) hs _ hc

theorem entry_withFirst (ok : g.Ok) {n : Nat} {name : List UInt8} (hn : g.Valid n) {c : Nat}
    (hc : c < g.totalClus) : entry g (withFirst g v n name) c = entry g v c :=
  entry_update ok hn (by
    have hin := inClus_of_lt (g := g) (c := n) ok.perClus
    rwa [Nat.add_zero] at hin) _ hc

section

variable {path name : List UInt8} {j : ι} {r : Option Handle}
  (h : Created g fuel junk v cat path r v') (wf : WellFormed g v cat) (rt : Rooted g v cat)
  (hm : Makes g fuel junk v cat path j name)
include h wf rt hm

theorem Created.of_slot {x : Slot} (hx : freeSlot (slots g v (cat.chain j)) = some x) :
    r = some (emptyAt x.1.sec x.1.off) ∧ v' = withSlot v x name := by
  cases h with
  | refused hno => exact absurd hm (hno j name)
  | full hm' hfree' hfull | grown hm' hfree' hl =>
    obtain ⟨rfl, rfl⟩ := hm.unique wf rt hm'
    rw [hx] at hfree'
    cases hfree'
  | reused hm' hfree' =>
    obtain ⟨rfl, rfl⟩ := hm.unique wf rt hm'
    rw [hx] at hfree'
    rw [some.inj hfree']
    exact ⟨rfl, rfl⟩

theorem Created.of_none (hx : freeSlot (slots g v (cat.chain j)) = none) :
    Full g v ∧ r = none ∨ ∃ n v₁, Links g ((cat.chain j).getD ((cat.chain j).length - 1) 0) n v v₁ ∧
      r = some (emptyAt (clusSector g n) 0) ∧ v' = withFirst g v₁ n name := by
  cases h with
  | refused hno => exact absurd hm (hno j name)
  | full hm' hfree' hfull => exact .inl ⟨hfull, rfl⟩
  | reused hm' hfree' =>
    obtain ⟨rfl, rfl⟩ := hm.unique wf rt hm'
    rw [hx] at hfree'
    cases hfree'
  | grown hm' hfree' hl =>
    obtain ⟨rfl, rfl⟩ := hm.unique wf rt hm'
    exact .inr ⟨_, _, hl, rfl, rfl⟩

end

/-- A directory that grew has used a cluster, and if that was the last one the volume is full. -/
theorem used_of_grown (ok : g.Ok) {c n : Nat} {v₁ : Volume} {name : List UInt8}
    (hl : Links g c n v v₁) (hused : entry g v c ≠ 0) : entry g (withFirst g v₁ n name) n ≠ 0 ∧
      (Full g (withFirst g v₁ n name) ↔ ∀ c', g.Valid c' → entry g v c' = 0 → c' = n) := by
  have hn := hl.valid
  have hentry : ∀ c', c' < g.totalClus → entry g (withFirst g v₁ n name) c' =
      if c' = c then n else if c' = n then 0x0ffffff8 else entry g v c' := fun c' hlt => by
    rw [entry_withFirst ok hn hlt, hl.entry c' hlt]
  have hne : n ≠ c := fun he => hused (he ▸ hl.free)
  have hn0 : n ≠ 0 := by
    have h2 := hn.1
    omega
  refine ⟨?_, fun hf c' hv hz => ?_, fun h c' hv => ?_⟩
  · rw [hentry n hn.2, if_neg hne, if_pos rfl]
    exact Nat.succ_ne_zero _
  · by_contra hc'
    refine hf c' hv ?_
    rw [hentry c' hv.2, if_neg fun he : c' = c => hused (he ▸ hz), if_neg hc', hz]
  · rw [hentry c' hv.2]
    split
    · exact hn0
    · split
      · exact Nat.succ_ne_zero _
      · rename_i hc'
        exact fun hz => hc' (h c' hv hz)

theorem last_used (wf : WellFormed g v cat) (rt : Rooted g v cat) {j : ι}
    (hj : (cat.handle j).isDir = true) :
    entry g v ((cat.chain j).getD ((cat.chain j).length - 1) 0) ≠ 0 := by
  have hpos := length_pos_iff.2 (rt.dirs j hj)
  exact (wf.chained j).used _ (getD_mem (by omega))

/-- `fat_mkdir` that fails leaves the volume as it was if it is clean, and only then. -/
theorem keeps_mkdir_iff (wf : WellFormed g st.disk cat) (rt : Rooted g st.disk cat) (ok : g.Ok)
    (hfuel : g.totalClus ≤ fuel) (path : List UInt8) :
    (∀ v', (fatMkdir g fuel junk path).run st.disk = some (false, v') → Kept g cat st.disk v') ↔
      (VolumeCall.mkdir path : VolumeCall ι).Clean g fuel junk cat st := by
  obtain ⟨r, v₁, hrun, hc⟩ := @Rooted.run_fatCreate _ g _ cat fuel junk rt wf ok hfuel path
  constructor
  · intro h j name hm
    cases hfree : freeSlot (slots g st.disk (cat.chain j)) with
    | some x =>
      intro hfull
      obtain ⟨rfl, rfl⟩ := hc.of_slot wf rt hm hfree
      refine (kept_withSlot wf hfree).1 (h _ ((run_fatMkdir_failed ok hrun).2 ⟨rfl, .inr ?_⟩))
      exact (full_congr fun c hlt => entry_withSlot wf ok hfree hlt).2 hfull
    | none =>
      rintro ⟨n, hn, hn0, honly⟩
      rcases hc.of_none wf rt hm hfree with ⟨hfull, -⟩ | ⟨n', v2, hl, rfl, rfl⟩
      · exact hfull n hn hn0
      · obtain ⟨hused, hfull⟩ := used_of_grown (n := n') ok hl (last_used wf rt hm.isDir)
        obtain rfl := honly n' hl.valid hl.free
        exact not_kept_of_used hl.valid hl.free hused
          (h _ ((run_fatMkdir_failed ok hrun).2 ⟨rfl, .inr (hfull.2 honly)⟩))
  · intro hclean v' hv'
    obtain ⟨rfl, hr⟩ := (run_fatMkdir_failed ok hrun).1 hv'
    cases hc with
    | refused hno | full hm hfree hfull => exact .refl wf
    | @reused j name x hm hfree =>
      have hfull := (full_congr fun c hlt => entry_withSlot wf ok hfree hlt).1
        (hr.resolve_left (some_ne_none _))
      have hhas := hclean j name hm
      rw [hfree] at hhas
      exact (kept_withSlot wf hfree).2 (hhas hfull)
    | @grown j name n v₁ hm hfree hl =>
      have hfull := (used_of_grown ok hl (last_used wf rt hm.isDir)).2.1
        (hr.resolve_left (some_ne_none _))
      have hone := hclean j name hm
      rw [hfree] at hone
      exact absurd ⟨n, hl.valid, hl.free, hfull⟩ hone

end Calls

/-! ## `file_open` -/

section Open

variable {ι : Type} {m : Media} {g : Geo} {cat : Catalog ι} {fuel : Nat} {junk : Nat → UInt8}
  {st : Store} {v v' : Volume} {name path : List UInt8} {mode : OpenMode}

section

variable (wf : WellFormed g v cat) (rt : Rooted g v cat) (ok : g.Ok) (hfuel : g.totalClus ≤ fuel)
include wf rt ok hfuel

/-- What the look at the disk comes to for a file that is opened for writing by an absolute name. -/
theorem run_lookUpDisk_file {h : Handle} (ho : openedAt g fuel junk v name = some h)
    (hdir : h.isDir = false) :
    (lookUpDisk g fuel junk name true .append).run v = some (.ok (some (h, true)), v) ∧
    ∃ i, cat.handle i = h ∧ (h.dirSec ≠ 0 → ∃ v₁, Frees g (cat.chain i) v v₁ ∧
      (lookUpDisk g fuel junk name true .write).run v =
        some (.ok (some ({ h with cluster := 0, size := 0 }, true)),
          Function.update v₁ h.dirSec
            (writtenBack (v₁ h.dirSec) { h with cluster := 0, size := 0 }))) := by
  obtain ⟨hrun, hknows⟩ := @Rooted.run_fatOpen _ g v cat fuel junk rt wf ok hfuel name
  have hfilter : (some h).filter (fun ff => !ff.isDir) = some h := by
    rw [Option.filter_some, hdir]
    rfl
  refine ⟨?_, ?_⟩
  · unfold lookUpDisk
    rw [if_neg OpenMode.noConfusion, if_neg Bool.noConfusion, run_bind_of hrun, ho, hfilter]
    rfl
  · rcases hknows h ho with ⟨i, hi⟩ | ⟨hd, -⟩
    · refine ⟨i, hi, fun hsec => ?_⟩
      have hhead := wf.head i
      rw [hi] at hhead
      obtain ⟨v₁, hfrees, htrunc⟩ := (wf.chained i).run_fatTruncate ok hfuel hdir hsec hhead
      refine ⟨v₁, hfrees, ?_⟩
      unfold lookUpDisk
      rw [if_neg OpenMode.noConfusion, if_neg Bool.noConfusion, run_bind_of hrun, ho, hfilter]
      dsimp only
      rw [if_pos rfl, run_bind_of htrunc]
      rfl
    · rw [hdir] at hd
      cases hd

/-- And for one that is not there, or is a directory. -/
theorem run_lookUpDisk_create (hmode : mode ≠ .read)
    (ho : ∀ h, openedAt g fuel junk v name = some h → h.isDir = true) :
    ∃ r v', Created g fuel junk v cat name r v' ∧
      (lookUpDisk g fuel junk name true mode).run v = some (match r with
        | some ff => .ok (some (ff, true))
        | none => .error (-2), v') := by
  obtain ⟨hrun, -⟩ := @Rooted.run_fatOpen _ g v cat fuel junk rt wf ok hfuel name
  obtain ⟨r, v', hcreate, hc⟩ := @Rooted.run_fatCreate _ g v cat fuel junk rt wf ok hfuel name
  have hfilter : (openedAt g fuel junk v name).filter (fun ff => !ff.isDir) = none := by
    cases h : openedAt g fuel junk v name with
    | none => rfl
    | some x =>
      rw [Option.filter_some, ho x h]
      rfl
  refine ⟨r, v', hc, ?_⟩
  unfold lookUpDisk
  rw [if_neg hmode, if_neg Bool.noConfusion, run_bind_of hrun, hfilter]
  dsimp only
  rw [run_bind_of hcreate]
  cases r with
  | some ff | none => rfl

end

/-- `file_open` with no transfer failing: the disk is what the look at it leaves, and an opening for
writing fails behind that only for want of an object. -/
theorem run_fileOpen (hm : m.disk = some g) {x : Except Int (Option (Handle × Bool))}
    (h : (lookUpDisk g fuel junk (bareName path) (path.head? == some 47) mode).run st.disk =
      some (x, v')) :
    ∃ st' res, st.fileOpen m fuel junk (fun _ => true) path mode = some (st', res) ∧
      st'.disk = v' ∧ (∀ e, x = .error e → ∃ e', res = .error e') ∧
      ∀ ff, x = .ok (some (ff, true)) → ((∃ e, res = .error e) ↔ st.pools.findFree = none) := by
  have hlook : st.lookUp m fuel junk (fun _ => true) (bareName path) (path.head? == some 47) mode =
      some (x, v') := by
    unfold Store.lookUp
    rw [hm]
    dsimp only
    rw [Blocks.exec_of_ok fun _ => rfl]
    exact h
  unfold bareName at hlook
  unfold Store.fileOpen
  dsimp only
  rw [hlook]
  refine ⟨_, _, rfl, rfl, ?_, ?_⟩
  · rintro e rfl
    exact ⟨e, rfl⟩
  · rintro ff rfl
    change (∃ e, (st.pools.openFat (.ofHandle ff) .fat mode true).2 = .error e) ↔ _
    unfold Fs.openFat Fs.allocWith Fs.fileAlloc
    cases hf : st.pools.findFree with
    | none => exact iff_of_true ⟨-24, rfl⟩ rfl
    | some f => exact iff_of_false (by rintro ⟨e, he⟩; cases he) (some_ne_none f)

/-- What is found by name and is a file has an entry of its own. -/
theorem opened_sec (wf : WellFormed g v cat) (rt : Rooted g v cat) (ok : g.Ok)
    (hfuel : g.totalClus ≤ fuel) : ∀ (parts : List (List UInt8)) {cur h : Handle},
      cat.Knows g cur → (cur.isDir = true ∨ cur.dirSec ≠ 0) →
      opened g fuel junk v parts cur = some h → h.isDir = true ∨ h.dirSec ≠ 0
  | [], cur, h, _, hcur, ho => by
    rw [← some.inj ho]
    exact hcur
  | part :: parts, cur, h, hk, _, ho => by
    unfold opened at ho
    rw [openFrom] at ho
    by_cases hdir : cur.isDir = false
    · rw [if_pos hdir] at ho
      cases ho
    · rw [if_neg hdir] at ho
      obtain ⟨j, hj, -, hrun, hknows⟩ := @Rooted.run_dirFind _ g v cat fuel junk _ rt wf ok hfuel hk
        (Bool.eq_true_of_not_eq_false hdir) part
      rw [run_bind_of hrun] at ho
      cases hl : lookIn part (slots g v (cat.chain j)) ⟨junk, 0⟩ with
      | none =>
        rw [hl] at ho
        cases ho
      | some x =>
        rw [hl] at ho
        refine opened_sec wf rt ok hfuel parts (hknows x hl) (.inr ?_) ho
        obtain ⟨c, hc, s, -, o, -, rfl⟩ := mem_slots.1 ((liveSlots_sublist _).subset (lookIn_mem hl))
        have hle := clusSector_data ok ((wf.chained j).valid c hc)
        have hpos := ok.firstData_pos
        change clusSector g c + s ≠ 0
        omega

/-- `file_open` that fails for want of room leaves the volume as it was if it is clean, and only
then. -/
theorem keeps_opens_iff (hm : m.disk = some g) (wf : WellFormed g st.disk cat)
    (rt : Rooted g st.disk cat) (ok : g.Ok) (hfuel : g.totalClus ≤ fuel) (path : List UInt8)
    (mode : OpenMode) :
    (∀ v', (VolumeCall.opens path mode : VolumeCall ι).run m g fuel junk cat st = some (true, v') →
        Kept g cat st.disk v') ↔
      (VolumeCall.opens path mode : VolumeCall ι).Clean g fuel junk cat st := by
  -- what the call does, given what the look at the disk does
  have hcall : ∀ {x : Except Int (Option (Handle × Bool))} {v₁ : Volume},
      (lookUpDisk g fuel junk (bareName path) (path.head? == some 47) mode).run st.disk =
        some (x, v₁) → ∃ res : Except Int (Fin nFile), (∀ v',
          (VolumeCall.opens path mode : VolumeCall ι).run m g fuel junk cat st = some (true, v') ↔
            v' = v₁ ∧ ∃ e, res = .error e) ∧ (∀ e, x = .error e → ∃ e', res = .error e') ∧
        ∀ ff, x = .ok (some (ff, true)) → ((∃ e, res = .error e) ↔ st.pools.findFree = none) := by
    intro x v₁ hlook
    obtain ⟨st', res, hopen, rfl, herr, hok⟩ := run_fileOpen hm hlook
    refine ⟨res, fun v' => ?_, herr, hok⟩
    unfold VolumeCall.run
    dsimp only
    rw [hopen]
    cases res with
    | ok f => exact ⟨nofun, nofun⟩
    | error e => exact ⟨fun h => ⟨(Prod.mk.inj (some.inj h)).2.symm, e, rfl⟩,
        fun h => by rw [h.1]; rfl⟩
  -- a look that leaves the volume alone
  have hsame : ∀ {x : Except Int (Option (Handle × Bool))},
      (lookUpDisk g fuel junk (bareName path) (path.head? == some 47) mode).run st.disk =
        some (x, st.disk) → ∀ v', (VolumeCall.opens path mode : VolumeCall ι).run m g fuel junk cat
          st = some (true, v') → Kept g cat st.disk v' := by
    intro x hlook v' h
    obtain ⟨_, hrun, -⟩ := hcall hlook
    rw [((hrun v').1 h).1]
    exact .refl wf
  obtain ⟨hopenRun, -⟩ := @Rooted.run_fatOpen _ g st.disk cat fuel junk rt wf ok hfuel (bareName path)
  by_cases hread : mode = .read
  · refine iff_of_true (@hsame (.ok ((openedAt g fuel junk st.disk
      (bareName path)).map fun ff => (ff, false))) ?_) fun h => absurd hread h
    unfold lookUpDisk
    rw [if_pos hread, run_bind_of hopenRun]
    rfl
  by_cases habs : path.head? = some 47
  swap
  · refine iff_of_true (@hsame (.ok none) ?_) fun _ h => absurd h habs
    unfold lookUpDisk
    rw [if_neg hread, if_pos (beq_eq_false_iff_ne.2 habs)]
    rfl
  rw [show (path.head? == some 47) = true from beq_iff_eq.2 habs] at hcall hsame
  by_cases hfile : ∃ h, openedAt g fuel junk st.disk (bareName path) = some h ∧ h.isDir = false
  · obtain ⟨h, ho, hdir⟩ := hfile
    have hno : ∀ j name, ¬Makes g fuel junk st.disk cat (bareName path) j name := by
      intro j name hmk
      rw [hmk.absent] at ho
      cases ho
    obtain ⟨happend, i, rfl, hwrite⟩ := run_lookUpDisk_file wf rt ok hfuel ho hdir
    cases mode with
    | read => exact absurd rfl hread
    | append =>
      refine iff_of_true (hsame happend) fun _ _ _ => ⟨nofun, fun j name hmk => ?_⟩
      exact absurd hmk (hno j name)
    | write =>
      have hsec := (opened_sec wf rt ok hfuel _ rt.knows_root (.inl rfl) ho).resolve_left (by
        rw [hdir]
        exact Bool.noConfusion)
      obtain ⟨v₁, hfrees, hlook⟩ := hwrite hsec
      obtain ⟨res, hrun, -, hfull⟩ := hcall hlook
      have hkept := kept_truncated wf ok hsec hfrees
      constructor
      · intro hall _ _ hfree
        refine ⟨fun h' ho' _ _ => ?_, fun j name hmk => absurd hmk (hno j name)⟩
        obtain rfl := some.inj (ho.symm.trans ho')
        exact hkept.1 (hall _ ((hrun _).2 ⟨rfl, (hfull _ rfl).2 hfree⟩))
      · intro hclean v' hv'
        obtain ⟨rfl, herr⟩ := (hrun v').1 hv'
        exact hkept.2 ((hclean hread habs ((hfull _ rfl).1 herr)).1 _ ho hdir rfl)
  · -- nothing is there, or a directory, so the file is to be made
    have hdirs : ∀ h, openedAt g fuel junk st.disk (bareName path) = some h → h.isDir = true := by
      intro h ho
      by_contra hdir
      exact hfile ⟨h, ho, Bool.eq_false_of_not_eq_true hdir⟩
    have hfirst : ∀ h, openedAt g fuel junk st.disk (bareName path) = some h → h.isDir = false →
        mode = .write → h.cluster = 0 ∧ writtenBack (st.disk h.dirSec)
          { h with cluster := 0, size := 0 } = st.disk h.dirSec :=
      fun h ho hdir => absurd ⟨h, ho, hdir⟩ hfile
    obtain ⟨r, v₁, hc, hlook⟩ := run_lookUpDisk_create wf rt ok hfuel hread hdirs
    obtain ⟨res, hrun, -, hfull⟩ := hcall hlook
    cases r with
    | none =>
      obtain rfl := hc.kept_none
      refine iff_of_true (hsame hlook) fun _ _ _ => ⟨hfirst, fun j name hmk => ?_⟩
      cases hslot : freeSlot (slots g st.disk (cat.chain j)) with
      | some x => cases (hc.of_slot wf rt hmk hslot).1
      | none =>
        rcases hc.of_none wf rt hmk hslot with ⟨hf, -⟩ | ⟨n, v2, -, h, -⟩
        · exact hf
        · cases h
    | some ff =>
      constructor
      · intro hall _ _ hfree
        have hk := hall _ ((hrun _).2 ⟨rfl, (hfull _ rfl).2 hfree⟩)
        refine ⟨hfirst, fun j name hmk => ?_⟩
        cases hslot : freeSlot (slots g st.disk (cat.chain j)) with
        | some x =>
          obtain ⟨-, rfl⟩ := hc.of_slot wf rt hmk hslot
          exact (kept_withSlot wf hslot).1 hk
        | none =>
          rcases hc.of_none wf rt hmk hslot with ⟨hf, -⟩ | ⟨n, v2, hl, -, rfl⟩
          · exact hf
          · have hused : entry g (withFirst g v2 n name) n ≠ 0 :=
              (used_of_grown ok hl (last_used wf rt hmk.isDir)).1
            exact absurd hk (not_kept_of_used hl.valid hl.free hused)
      · intro hclean v' hv'
        obtain ⟨rfl, herr⟩ := (hrun v').1 hv'
        have hmade := (hclean hread habs ((hfull _ rfl).1 herr)).2
        cases hc with
        | @reused j name x hmk hslot =>
          have hhas := hmade j name hmk
          rw [hslot] at hhas
          exact (kept_withSlot wf hslot).2 hhas
        | @grown j name n v₁ hmk hslot hl =>
          have hf := hmade j name hmk
          rw [hslot] at hf
          exact absurd hl.free (hf n hl.valid)

end Open

/-- On a well-formed volume, with no transfer failing: a call that fails leaves the volume as it was in
every outcome just if it is clean. -/
theorem failed_call_keeps_volume_iff {ι : Type} (m : Media) (g : Geo) (fuel : Nat)
    (junk : Nat → UInt8) (cat : Catalog ι) (st : Store) (call : VolumeCall ι)
    (hm : m.disk = some g) (ok : g.Ok) (wf : WellFormed g st.disk cat) (rt : Rooted g st.disk cat)
    (hfuel : g.totalClus ≤ fuel) :
    (∀ v', call.run m g fuel junk cat st = some (true, v') → Kept g cat st.disk v') ↔
      call.Clean g fuel junk cat st := by
  cases call with
  | create path =>
    refine iff_of_true (fun v' h => ?_) trivial
    obtain ⟨⟨r, v₁⟩, hrun, hr⟩ := map_eq_some_iff.1 h
    obtain ⟨hnone, rfl⟩ := Prod.mk.inj hr
    obtain rfl : r = none := Option.isNone_iff_eq_none.1 hnone
    exact keeps_create wf rt ok hfuel hrun
  | write i off buf =>
    refine iff_of_true (fun v' h => ?_) trivial
    obtain ⟨⟨⟨r, f'⟩, v₁⟩, hrun, hr⟩ := map_eq_some_iff.1 h
    obtain ⟨hneg, rfl⟩ := Prod.mk.inj hr
    rw [keeps_write wf ok (le_of_lt (of_decide_eq_true hneg)) hrun]
    exact .refl wf
  | mkdir path =>
    rw [← keeps_mkdir_iff wf rt ok hfuel path]
    refine forall_congr' fun v' => imp_congr_left ?_
    constructor
    · intro h
      obtain ⟨⟨r, v₁⟩, hrun, hr⟩ := map_eq_some_iff.1 h
      obtain ⟨hfalse, rfl⟩ := Prod.mk.inj hr
      obtain rfl : r = false := (Bool.not_eq_true' r).mp hfalse
      exact hrun
    · intro h
      unfold VolumeCall.run
      dsimp only
      rw [h]
      rfl
  | opens path mode => exact keeps_opens_iff hm wf rt ok hfuel path mode

/-! ## The disk with one file -/

/-- The root and the file `A`. -/
def oneFileCatalog : Catalog Bool where
  handle
    | false => rootHandle smallGeo
    | true => ⟨3, 1, false, 2, 0⟩
  chain
    | false => [2]
    | true => [3]

theorem smallGeo_ok : smallGeo.Ok := by
  constructor <;> decide

theorem oneFile_wellFormed : WellFormed smallGeo oneFileStore.disk oneFileCatalog := by
  have hchain : ∀ c, c = 2 ∨ c = 3 → Chain smallGeo oneFileStore.disk [c] := by
    intro c hc
    have hnext : next smallGeo oneFileStore.disk c = 0 ∧ entry smallGeo oneFileStore.disk c ≠ 0 := by
      rcases hc with rfl | rfl <;> decide +kernel
    refine ⟨fun c' hc' => ?_, nodup_singleton c, fun k c' hk => ?_, fun c' hc' => ?_⟩
    · rw [mem_singleton.1 hc']
      exact ⟨by omega, show c < 8 by omega⟩
    · cases k with
      | zero =>
        rw [← some.inj hk]
        exact hnext.1
      | succ k => cases hk
    · rw [mem_singleton.1 hc']
      exact hnext.2
  refine ⟨?_, ?_, ?_, ?_, ?_, ?_, ?_, ?_, ?_⟩
  · rintro (_ | _)
    · exact hchain 2 (.inl rfl)
    · exact hchain 3 (.inr rfl)
  · rintro (_ | _) <;> rfl
  · rintro (_ | _) (_ | _) hne
    · exact absurd rfl hne
    · decide
    · decide
    · exact absurd rfl hne
  · rintro (_ | _) hdir
    · cases hdir
    · decide
  · rintro (_ | _) hsec
    · exact absurd rfl hsec
    · exact ⟨false, rfl, 2, mem_singleton_self 2, by decide, by decide⟩
  · rintro (_ | _) hsec
    · exact absurd rfl hsec
    · exact ⟨rfl, by decide⟩
  · rintro (_ | _) hsec
    · exact absurd rfl hsec
    · rfl
  · rintro (_ | _) hsec
    · exact absurd rfl hsec
    · change readBack oneFileStore.disk 2 0 = ⟨3, 1, false, 2, 0⟩
      decide +kernel
  · rintro (_ | _) (_ | _) hsec hs ho
    · rfl
    · exact absurd rfl hsec
    · cases hs
    · rfl

theorem oneFile_rooted : Rooted smallGeo oneFileStore.disk oneFileCatalog := by
  refine ⟨⟨false, rfl⟩, ?_, ?_⟩
  · rintro (_ | _) hdir
    · exact cons_ne_nil 2 []
    · cases hdir
  · rintro (_ | _) hdir x hx
    · have hall : (liveSlots (slots smallGeo oneFileStore.disk [2])).map Slot.handle =
          [⟨3, 1, false, 2, 0⟩] := by decide +kernel
      have hmem := mem_map_of_mem (f := Slot.handle) hx
      change x.handle ∈ (liveSlots (slots smallGeo oneFileStore.disk [2])).map Slot.handle at hmem
      rw [hall] at hmem
      exact .inl ⟨true, (mem_singleton.1 hmem).symm⟩
    · cases hdir

/-- The same disk, and every file object in use. -/
def crowdedStore : Store :=
  { oneFileStore with
    pools := { startFs with files := fun f => { startFs.files f with kind := .console, refs := 1 } } }

/-- `A` cannot be made again. -/
theorem failed_call_keeps_volume_iff_again : ∃ v',
    (VolumeCall.create [65] : VolumeCall Bool).run smallMedia smallGeo 8 (fun _ => 0) oneFileCatalog
      oneFileStore = some (true, v') ∧ Kept smallGeo oneFileCatalog oneFileStore.disk v' := by
  obtain ⟨⟨failed, v'⟩, hrun, hfailed⟩ := map_eq_some_iff.1
    (by decide +kernel : ((VolumeCall.create [65] : VolumeCall Bool).run smallMedia smallGeo 8
      (fun _ => 0) oneFileCatalog oneFileStore).map (fun r => r.1) = some true)
  obtain rfl : failed = true := hfailed
  exact ⟨v', hrun, (failed_call_keeps_volume_iff smallMedia smallGeo 8 (fun _ => 0) oneFileCatalog
    oneFileStore (.create [65]) rfl smallGeo_ok oneFile_wellFormed oneFile_rooted le_rfl).2 trivial v'
      hrun⟩

/-- `file_open` of `/A` for writing with no file object free: it fails, and `A` has lost its cluster. -/
theorem failed_open_empties_file : WellFormed smallGeo crowdedStore.disk oneFileCatalog ∧
    Rooted smallGeo crowdedStore.disk oneFileCatalog ∧ ∃ v',
      (VolumeCall.opens [47, 65] .write : VolumeCall Bool).run smallMedia smallGeo 8 (fun _ => 0)
        oneFileCatalog crowdedStore = some (true, v') ∧
      ¬Kept smallGeo oneFileCatalog crowdedStore.disk v' := by
  refine ⟨oneFile_wellFormed, oneFile_rooted, ?_⟩
  obtain ⟨⟨failed, v'⟩, hrun, hv⟩ := map_eq_some_iff.1
    (by decide +kernel : ((VolumeCall.opens [47, 65] .write : VolumeCall Bool).run smallMedia
      smallGeo 8 (fun _ => 0) oneFileCatalog crowdedStore).map (fun r => (r.1, entry smallGeo r.2 3)) =
        some (true, 0))
  obtain ⟨rfl, hfreed⟩ := Prod.mk.inj hv
  refine ⟨v', hrun, fun hk => ?_⟩
  have hused : entry smallGeo crowdedStore.disk 3 ≠ 0 := by decide +kernel
  exact hused ((hk.free 3 ⟨by decide, by decide⟩).1 hfreed)

end Verkos.Stam.Fat
