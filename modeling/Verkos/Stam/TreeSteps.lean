import Verkos.Stam.Tree

/-!
# Entries that change

The changes to the entry of a file that is there: it is rewritten with another size and chain, it
becomes that of a new directory, or it is marked deleted and its clusters are given back.
-/

namespace Verkos.Stam.Fat

open Verkos.Lib
open List
open Function
open Catalog (set_chain_of_ne set_chain_self set_handle_of_ne set_handle_self set_place)
open Option (some.inj)

section Rewriting

variable {ι : Type} {g : Geo} {v v' : Volume} {cat : Catalog ι} {i : ι} {d k : ι} {m n : Nat}
  {p q : Spot} {x y : Slot} {f' : Handle} {cs' : List Nat}

/-- The entry of a file is nowhere else. -/
theorem EntryOf.handle_ne (h : EntryOf g cat d n p) (ok : g.Ok) (wf : WellFormed g v cat)
    (hsec : p.sec = (cat.handle i).dirSec) (hoff : p.off = (cat.handle i).dirOff)
    (hk : (cat.handle k).isDir = true) (hne : k = d → m ≠ n)
    (hy : (slots g v' (cat.chain k))[m]? = some y) {l : ι} (hl : cat.handle l = y.handle) : l ≠ i := by
  rintro rfl
  obtain ⟨hey, -⟩ := entryOf_slot hk hy
  obtain ⟨hkd, hmn⟩ := h.unique hey ok wf (by rw [hsec, hl]; rfl) (by rw [hoff, hl]; rfl)
  exact hne hkd hmn

theorem WellFormed.slot_handle (wf : WellFormed g v cat) (hi : (cat.handle i).dirSec ≠ 0)
    (hsec : p.sec = (cat.handle i).dirSec) (hoff : p.off = (cat.handle i).dirOff) :
    Slot.handle (p, v p.sec) = cat.handle i ∧ classify (Slot.entry (p, v p.sec)) = .live := by
  have hrec := wf.recorded i hi
  have hlive := wf.live i hi
  rw [← hsec, ← hoff] at hrec hlive
  exact ⟨hrec, hlive⟩

variable [DecidableEq ι]

/-- A file gets another chain and its entry says so. -/
theorem Tree.rewritten (t : Tree g v cat) (ok : g.Ok) (hfile : (cat.handle i).isDir = false)
    (hi : (cat.handle i).dirSec ≠ 0) (hplace : SamePlace (cat.handle i) f')
    (wf' : WellFormed g v' (cat.set i f' cs'))
    (hbytes : ∀ k, (cat.handle k).isDir = true → ∀ c ∈ cat.chain k, ∀ s, g.InClus c s → ∀ o,
      ¬(cat.handle i).Owns s o → v' s o = v s o) :
    Tree g v' (cat.set i f' cs') ∧ ∀ k, (cat.handle k).isDir = true → ∀ m y,
      (slots g v' (cat.chain k))[m]? = some y → classify y.entry = .live →
        ∃ x, (slots g v (cat.chain k))[m]? = some x ∧ ∀ junk name,
          AnswersAt (slots g v' (cat.chain k)) junk m y name →
            AnswersAt (slots g v (cat.chain k)) junk m x name := by
  obtain ⟨d, n, p, he, hsec, hoff⟩ := t.wf.entryOf hi
  obtain ⟨hx, hlx⟩ := t.wf.slot_handle hi hsec hoff
  have hne : ∀ k, (cat.handle k).isDir = true → k ≠ i := by
    rintro k hk rfl
    rw [hfile] at hk
    cases hk
  have hhandle : ∀ k, (cat.handle k).isDir = true → (cat.set i f' cs').handle k = cat.handle k :=
    fun k hk => set_handle_of_ne (hne k hk)
  have hchain : ∀ k, (cat.handle k).isDir = true → (cat.set i f' cs').chain k = cat.chain k :=
    fun k hk => set_chain_of_ne (hne k hk)
  have hdir : ∀ k, ((cat.set i f' cs').handle k).isDir = true → (cat.handle k).isDir = true :=
    fun k hk => by rw [← (set_place hplace k).isDir]; exact hk
  have hedits : DirEdits g cat p v v' := by
    intro k hk c hc s hs o ho
    refine hbytes k hk c hc s hs o ?_
    rintro ⟨rfl, hown⟩
    exact ho ⟨hsec.symm, by omega⟩
  -- the first bytes of the entry stay, and with them what it is and its name
  obtain ⟨hcd, hin, -⟩ := he.spec
  have hkeep : ∀ k < 20, Slot.entry (p, v' p.sec) k = Slot.entry (p, v p.sec) k := by
    intro k hk
    change v' p.sec (p.off + k) = v p.sec (p.off + k)
    refine hbytes d he.isDir _ hcd _ hin _ ?_
    rintro ⟨-, hown⟩
    omega
  have hly : classify (Slot.entry (p, v' p.sec)) = .live :=
    (classify_congr (hkeep 0 (by omega)) (hkeep 11 (by omega))).trans hlx
  have hshort : shortName (Slot.entry (p, v' p.sec)) = shortName (Slot.entry (p, v p.sec)) :=
    shortName_congr fun k hk => hkeep k (by omega)
  have hbx : Slot.Breaks (p, v p.sec) := by
    unfold Slot.Breaks
    rw [hlx]
    nofun
  have hby : Slot.Breaks (p, v' p.sec) := by
    unfold Slot.Breaks
    rw [hly]
    nofun
  have hchanges := hedits.changes ok t.wf he
  have hself : ∀ junk name, AnswersAt (slots g v' (cat.chain d)) junk n (p, v' p.sec) name →
      AnswersAt (slots g v (cat.chain d)) junk n (p, v p.sec) name := by
    intro junk name ha
    refine ⟨he.slot, hlx, ?_⟩
    rw [← hchanges.longName_eq he.slot he.slot hbx hby, ← hshort]
    exact ha.answers
  have hcarries : Carries cat (cat.set i f' cs') id :=
    ⟨hhandle, fun k hk => by rw [id_eq, hchain k hk], fun k hk => by
      rw [id_eq, hchain k hk]
      exact List.Subset.refl _⟩
  refine ⟨⟨wf', ?_, fun k hk => ?_, fun k hk => ?_, fun k hk m y hy hl => ?_,
    hcarries.deep t.wf t.deep wf' ok fun k => (set_place hplace k).dirSec⟩,
    fun k hk m y hy hl => ?_⟩
  · obtain ⟨r, hr⟩ := t.root
    have hrdir : (cat.handle r).isDir = true := by rw [hr]; rfl
    exact ⟨r, (hhandle r hrdir).trans hr⟩
  · rw [hchain k (hdir k hk)]
    exact t.dirs k (hdir k hk)
  · have hk' := hdir k hk
    rw [hchain k hk']
    by_cases hkd : k = d
    · subst hkd
      refine (t.neat k hk').changed hchanges he.slot he.slot hbx hby (by rw [hly]; nofun) ?_
        fun _ => .inl ⟨hlx, hshort⟩
      intro j a hj ha hf
      have hlast := (t.neat k hk').ended j n a _ ha he.slot (by omega) hf
      rw [hlx] at hlast
      cases hlast
    · rw [hedits.slots_of_ne ok t.wf he hk' hkd]
      exact t.neat k hk'
  · have hk' := hdir k hk
    rw [hchain k hk'] at hy ⊢
    by_cases hmn : k = d ∧ m = n
    · obtain ⟨rfl, rfl⟩ := hmn
      obtain rfl := some.inj (he.slot.symm.trans hy)
      refine .listed i ?_ fun junk name ha => ?_
      · rw [set_handle_self]
        have hrec := wf'.recorded i (by rw [set_handle_self, hplace.dirSec]; exact hi)
        rw [set_handle_self, hplace.dirSec, hplace.dirOff, ← hsec, ← hoff] at hrec
        exact hrec.symm
      · cases t.entries k hk' m _ he.slot hlx with
        | listed l _ hno => exact hno junk name (hself junk name ha)
        | dot hd =>
          rw [hx, hfile] at hd
          cases hd
    · have hne' : k = d → m ≠ n := fun hkd hm => hmn ⟨hkd, hm⟩
      refine t.edited hedits ok he hbx hby hk' hne' hy hl (fun l hl => ⟨l, ?_⟩)
        fun start => hcarries.leads hk'
      rw [set_handle_of_ne (he.handle_ne ok t.wf hsec hoff hk' hne' hy hl)]
      exact hl
  · by_cases hmn : k = d ∧ m = n
    · obtain ⟨rfl, rfl⟩ := hmn
      obtain rfl := some.inj (he.slot.symm.trans hy)
      exact ⟨_, he.slot, hself⟩
    · obtain ⟨x, -, hx, hans⟩ := hedits.answersAt ok t.wf he hbx hby hk
        (fun hkd hm => hmn ⟨hkd, hm⟩) hy
      exact ⟨x, hx, hans⟩

end Rewriting

/-! ## A file is removed -/

/-- The catalog without one file. -/
def Catalog.drop {ι : Type} (cat : Catalog ι) (i : ι) : Catalog {k // k ≠ i} where
  handle k := cat.handle k.1
  chain k := cat.chain k.1

section Removing

variable {ι : Type} {g : Geo} {v v₁ : Volume} {cat : Catalog ι} {i : ι}

/-- A file that nothing is in is gone when its clusters are free and its entry is deleted. -/
theorem Tree.removed (t : Tree g v cat) (ok : g.Ok) (hi : (cat.handle i).dirSec ≠ 0)
    (hempty : ∀ k, (cat.handle k).dirSec ≠ 0 → ¬cat.Within g (cat.handle k) i)
    (hfrees : Frees g (cat.chain i) v v₁) {v' : Volume} (hv' : v' = update v₁ (cat.handle i).dirSec
      (update (v₁ (cat.handle i).dirSec) (cat.handle i).dirOff 0xe5)) :
    Tree g v' (cat.drop i) ∧ ∀ k, (cat.handle k).isDir = true → ∀ m y,
      (slots g v' (cat.chain k))[m]? = some y → classify y.entry = .live →
        ∃ x, x.Agrees y ∧ (slots g v (cat.chain k))[m]? = some x ∧ x.handle ≠ cat.handle i ∧
          ∀ junk name, AnswersAt (slots g v' (cat.chain k)) junk m y name →
            AnswersAt (slots g v (cat.chain k)) junk m x name := by
  obtain ⟨d, n, p, he, hsec, hoff⟩ := t.wf.entryOf hi
  obtain ⟨hx, hlx⟩ := t.wf.slot_handle hi hsec hoff
  obtain ⟨hcd, hin, hmod, hlt⟩ := he.spec
  rw [← hsec, ← hoff] at hv'
  have hdi : d ≠ i := by
    rintro rfl
    exact hempty d hi ⟨he.isDir, _, hcd, hsec ▸ hin⟩
  have hdata : ∀ k, ∀ c ∈ cat.chain k, ∀ s, g.InClus c s → v₁ s = v s := fun k c hc s hs =>
    hfrees.rest s (InClus.not_inTable ok ((t.wf.chained k).valid c hc) hs)
  have hedit : Edits p v₁ v' := by
    rw [hv']
    refine edits_update fun o ho => update_of_ne ?_ ..
    rintro rfl
    exact ho ⟨le_rfl, by omega⟩
  have hedits : DirEdits g cat p v v' := fun k _ c hc s hs o ho => by
    rw [hedit s o ho, hdata k c hc s hs]
  have hentry : ∀ k, k ≠ i → ∀ c ∈ cat.chain k, entry g v' c = entry g v c := by
    intro k hk c hc
    have hlt := ((t.wf.chained k).valid c hc).2
    have hv := (t.wf.chained d).valid _ hcd
    rw [hv', entry_update ok hv hin _ hlt, hfrees.entry c hlt, if_neg (t.wf.apart k i hk c hc)]
  have hly : classify (Slot.entry (p, v' p.sec)) = .deleted := by
    have h0 : Slot.entry (p, v' p.sec) 0 = 0xe5 := by
      rw [entry_zero, hv', update_self]
      exact update_self ..
    unfold classify
    rw [h0]
    rfl
  have hbx : Slot.Breaks (p, v p.sec) := by
    unfold Slot.Breaks
    rw [hlx]
    nofun
  have hby : Slot.Breaks (p, v' p.sec) := by
    unfold Slot.Breaks
    rw [hly]
    nofun
  have hlive : ∀ {k m y}, (slots g v' (cat.chain k))[m]? = some y → classify y.entry = .live →
      k = d → m ≠ n := by
    rintro k m y hy hl rfl rfl
    rw [← some.inj (he.slot.symm.trans hy), hly] at hl
    cases hl
  have hother : ∀ k, k ≠ i → (cat.handle k).dirSec ≠ 0 →
      ¬((cat.handle k).dirSec = p.sec ∧ (cat.handle k).dirOff = p.off) := by
    rintro k hk hks ⟨hs, ho⟩
    exact hk (t.wf.own k i hks (hs.trans hsec) (ho.trans hoff))
  have hwf : WellFormed g v' (cat.drop i) := by
    refine .of_sits ?_ ?_ ?_ ?_
    · rintro ⟨k, hk⟩
      refine (t.wf.sits k).congr (hentry k hk) fun hks b hb => ?_
      obtain ⟨d', hd', c, hc, hin'⟩ := t.wf.placed k hks
      obtain ⟨hmod', -⟩ := t.wf.slot k hks
      refine hedits d' hd' c hc _ hin' _ ?_
      rintro ⟨hs, hlo, hhi⟩
      exact hother k hk hks ⟨hs, by omega⟩
    · rintro ⟨a, ha⟩ ⟨b, hb⟩ hne c hc
      exact t.wf.apart a b (fun he => hne (Subtype.ext he)) c hc
    · rintro ⟨k, hk⟩ hks
      obtain ⟨d', hw⟩ := t.wf.placed k hks
      have hd' : d' ≠ i := by
        rintro rfl
        exact hempty k hks hw
      exact ⟨⟨d', hd'⟩, hw⟩
    · rintro ⟨a, ha⟩ ⟨b, hb⟩ hks hs ho
      exact Subtype.ext (t.wf.own a b hks hs ho)
  refine ⟨⟨hwf, ?_, ?_, ?_, ?_, ?_⟩, fun k hk m y hy hl => ?_⟩
  · obtain ⟨r, hr⟩ := t.root
    refine ⟨⟨r, ?_⟩, hr⟩
    rintro rfl
    rw [hr] at hi
    exact hi rfl
  · rintro ⟨k, _⟩ hk
    exact t.dirs k hk
  · rintro ⟨k, _⟩ hk
    change Neat (slots g v' (cat.chain k))
    change (cat.handle k).isDir = true at hk
    by_cases hkd : k = d
    · subst hkd
      refine (t.neat k hk).changed (hedits.changes ok t.wf he) he.slot he.slot hbx hby
        (by rw [hly]; nofun) ?_ fun hl => by rw [hly] at hl; cases hl
      intro j a hj ha hf
      have hlast := (t.neat k hk).ended j n a _ ha he.slot (by omega) hf
      rw [hlx] at hlast
      cases hlast
    · rw [hedits.slots_of_ne ok t.wf he hk hkd]
      exact t.neat k hk
  · rintro ⟨k, hki⟩ hk m y hy hl
    change (cat.handle k).isDir = true at hk
    change (slots g v' (cat.chain k))[m]? = some y at hy
    refine t.edited hedits ok he hbx hby hk (hlive hy hl) hy hl (fun l hl' => ?_) fun start hs => ?_
    · exact ⟨⟨l, he.handle_ne ok t.wf hsec hoff hk (hlive hy hl) hy hl'⟩, hl'⟩
    · obtain ⟨j, hj, hstart, hcase⟩ := hs
      have hji : j ≠ i := by
        rintro rfl
        rcases hcase with rfl | ⟨hks, hw⟩ | hroot
        · exact hki rfl
        · exact hempty k hks hw
        · rw [hroot] at hi
          exact hi rfl
      refine ⟨⟨j, hji⟩, hj, hstart, ?_⟩
      rcases hcase with rfl | hw | hroot
      · exact .inl rfl
      · exact .inr (.inl hw)
      · exact .inr (.inr hroot)
  · obtain ⟨depth, hdepth⟩ := t.deep
    exact ⟨fun k => depth k.1, fun k d' hk hw => hdepth k.1 d'.1 hk hw⟩
  · obtain ⟨x, hxy, hx', hans⟩ := hedits.answersAt ok t.wf he hbx hby hk (hlive hy hl) hy
    refine ⟨x, hxy, hx', fun heq => ?_, hans⟩
    exact he.handle_ne ok t.wf hsec hoff hk (hlive hy hl) hx' heq.symm rfl

end Removing

/-! ## A file becomes a directory -/

section Dots

variable {g : Geo} {v : Volume} {b : Sector} {o c pp k : Nat}

theorem setCluster_of_apart (h : k < o + 20 ∨ o + 22 ≤ k ∧ k < o + 26 ∨ o + 28 ≤ k) :
    setCluster b o c k = b k := by
  unfold setCluster
  rw [wr16_of_apart (by omega), wr16_of_apart (by omega)]

theorem entryCluster_setCluster (hc : c < 2 ^ 32) :
    entryCluster (entryAt (setCluster b o c) o) = c := by
  unfold entryCluster setCluster
  rw [rd16_entryAt, rd16_entryAt, rd16_wr16, rd16_congr (q := wr16 b (o + 20) (c / 65536))
    fun i h1 h2 => wr16_of_apart (by omega), rd16_wr16]
  omega

theorem dotEntries_first (hlt : c < 2 ^ 32) :
    classify (entryAt (dotEntries c pp) 0) = .live ∧ shortName (entryAt (dotEntries c pp) 0) = [46] ∧
      entryCluster (entryAt (dotEntries c pp) 0) = c ∧ entryAt (dotEntries c pp) 0 11 = 0x10 := by
  have hin : ∀ k < 32, entryAt (dotEntries c pp) 0 k =
      entryAt (setCluster (newEntry (fun _ => 0) 0 (46 :: List.replicate 10 32) 0x10) 0 c) 0 k := by
    intro k hk
    unfold dotEntries entryAt
    rw [setCluster_of_apart (by omega), newEntry_of_apart (by omega)]
  have hname : ∀ k < 20, entryAt (dotEntries c pp) 0 k =
      if k < 11 then (46 :: List.replicate 10 (32 : UInt8)).getD k 0 else if k = 11 then 0x10 else 0 := by
    intro k hk
    rw [hin k (by omega), ← entry_newEntry (b := fun _ => 0) (o := 0) (by omega)]
    exact setCluster_of_apart (by omega)
  refine ⟨?_, ?_, ?_, hname 11 (by omega)⟩
  · unfold classify
    rw [hname 0 (by omega), hname 11 (by omega)]
    rfl
  · rw [shortName_congr (e := fun k => (46 :: List.replicate 10 (32 : UInt8)).getD k 0) fun k hk => by
      rw [hname k (by omega), if_pos hk]]
    rfl
  · have hclus := entryCluster_setCluster (b := newEntry (fun _ => 0) 0 (46 :: List.replicate 10 32) 0x10)
      (o := 0) hlt
    unfold entryCluster at hclus ⊢
    rw [rd16_congr fun i h1 h2 => hin i (by omega), rd16_congr fun i h1 h2 => hin i (by omega)]
    exact hclus

/-- `..` and what is in it. -/
theorem dotEntries_second (hlt : pp < 2 ^ 32) : classify (entryAt (dotEntries c pp) 32) = .live ∧
      shortName (entryAt (dotEntries c pp) 32) = [46, 46] ∧
      entryCluster (entryAt (dotEntries c pp) 32) = pp ∧ entryAt (dotEntries c pp) 32 11 = 0x10 := by
  have hname : ∀ k < 20, entryAt (dotEntries c pp) 32 k =
      if k < 11 then (46 :: 46 :: List.replicate 9 (32 : UInt8)).getD k 0
      else if k = 11 then 0x10 else 0 := by
    intro k hk
    rw [← entry_newEntry (b := setCluster (newEntry (fun _ => 0) 0 (46 :: List.replicate 10 32) 0x10) 0 c)
      (o := 32) (by omega)]
    exact setCluster_of_apart (by omega)
  refine ⟨?_, ?_, entryCluster_setCluster hlt, hname 11 (by omega)⟩
  · unfold classify
    rw [hname 0 (by omega), hname 11 (by omega)]
    rfl
  · rw [shortName_congr (e := fun k => (46 :: 46 :: List.replicate 9 (32 : UInt8)).getD k 0) fun k hk => by
      rw [hname k (by omega), if_pos hk]]
    rfl

theorem dotEntries_rest (ho : 64 ≤ o) : classify (entryAt (dotEntries c pp) o) = .fin := by
  have h0 : entryAt (dotEntries c pp) o 0 = 0 := by
    unfold dotEntries entryAt
    rw [setCluster_of_apart (by omega), newEntry_of_apart (by omega), setCluster_of_apart (by omega),
      newEntry_of_apart (by omega)]
  unfold classify
  rw [h0]
  rfl

/-- The entries of a new directory. -/
theorem slots_newDir (ok : g.Ok) (hfirst : v (clusSector g c) = dotEntries c pp)
    (hrest : ∀ s, g.InClus c s → s ≠ clusSector g c → v s = fun _ => 0) :
    ∃ rest : List Slot, slots g v [c] = (⟨c, clusSector g c, 0⟩, dotEntries c pp) ::
      (⟨c, clusSector g c, 32⟩, dotEntries c pp) :: rest ∧ ∀ y ∈ rest, classify y.entry = .fin := by
  obtain ⟨n, hn⟩ := Nat.exists_eq_succ_of_ne_zero (Nat.pos_iff_ne_zero.1 ok.perClus)
  have hoff : offsets = 0 :: 32 :: (List.range 14).map fun k => 64 + 32 * k := rfl
  have hslots : slots g v [c] = (⟨c, clusSector g c, 0⟩, dotEntries c pp) ::
      (⟨c, clusSector g c, 32⟩, dotEntries c pp) ::
      (((List.range 14).map fun k => (⟨c, clusSector g c, 64 + 32 * k⟩, dotEntries c pp)) ++
        ((List.range n).map Nat.succ).flatMap (sectorSlots g v c)) := by
    unfold slots clusterSlots
    rw [flatMap_singleton, hn, range_succ_eq_map, flatMap_cons]
    unfold sectorSlots
    rw [Nat.add_zero, hfirst, hoff, map_cons, map_cons, map_map]
    rfl
  refine ⟨_, hslots, fun y hy => ?_⟩
  rcases mem_append.1 hy with hy | hy
  · obtain ⟨k, -, rfl⟩ := mem_map.1 hy
    exact dotEntries_rest (show 64 ≤ 64 + 32 * k by omega)
  · obtain ⟨s, hs, hy⟩ := mem_flatMap.1 hy
    obtain ⟨k, hk, rfl⟩ := mem_map.1 hs
    have hlt := mem_range.1 hk
    obtain ⟨o, -, rfl⟩ := mem_map.1 hy
    unfold Slot.entry
    rw [hrest _ (inClus_of_lt (show Nat.succ k < g.secPerClus by omega)) (by omega)]
    rfl

theorem name_forget (l : Lfn) : l.forget.name = [] := rfl

theorem longName_zero (xs : List Slot) (junk : Nat → UInt8) : longName xs junk 0 = [] := rfl

theorem longName_succ {xs : List Slot} {i : Nat} {x : Slot} (hx : xs[i]? = some x) (hb : x.Breaks)
    (junk : Nat → UInt8) : longName xs junk (i + 1) = [] := by
  unfold longName
  rw [through_take_succ, hx]
  dsimp only
  rw [hb.over_eq, name_forget]

/-- A directory of `.`, `..` and nothing else. -/
theorem neat_dots {x y : Slot} {rest : List Slot} (hx : classify x.entry = .live)
    (hy : classify y.entry = .live) (hsx : shortName x.entry = [46])
    (hsy : shortName y.entry = [46, 46]) (hrest : ∀ z ∈ rest, classify z.entry = .fin) :
    Neat (x :: y :: rest) ∧ ∀ junk m z name, AnswersAt (x :: y :: rest) junk m z name →
      m = 0 ∧ z = x ∧ folded name = [46] ∨ m = 1 ∧ z = y ∧ folded name = [46, 46] := by
  have hbx : x.Breaks := by
    unfold Slot.Breaks
    rw [hx]
    nofun
  have hlong : ∀ junk, longName (x :: y :: rest) junk 1 = [] := longName_succ rfl hbx
  have hcases : ∀ {m : Nat} {z : Slot}, (x :: y :: rest)[m]? = some z →
      m = 0 ∧ z = x ∨ m = 1 ∧ z = y ∨ 2 ≤ m ∧ classify z.entry = .fin := by
    intro m z hz
    match m with
    | 0 => exact .inl ⟨rfl, (some.inj hz).symm⟩
    | 1 => exact .inr (.inl ⟨rfl, (some.inj hz).symm⟩)
    | m + 2 => exact .inr (.inr ⟨Nat.le_add_left 2 m, hrest z (mem_of_getElem? hz)⟩)
  have hans : ∀ junk m z name, AnswersAt (x :: y :: rest) junk m z name →
      m = 0 ∧ z = x ∧ folded name = [46] ∨ m = 1 ∧ z = y ∧ folded name = [46, 46] := by
    intro junk m z name ha
    rcases hcases ha.at' with ⟨rfl, rfl⟩ | ⟨rfl, rfl⟩ | ⟨-, hf⟩
    · rcases ha.answers with hs | ⟨hl, -⟩
      · rw [hsx, nameEq_iff] at hs
        exact .inl ⟨rfl, rfl, hs.symm⟩
      · exact absurd (longName_zero _ junk) hl
    · rcases ha.answers with hs | ⟨hl, -⟩
      · rw [hsy, nameEq_iff] at hs
        exact .inr ⟨rfl, rfl, hs.symm⟩
      · exact absurd (hlong junk) hl
    · have hl := ha.live
      rw [hf] at hl
      cases hl
  refine ⟨⟨fun i j a b ha hb hij hf => ?_, fun i a ha hl junk junk' => ?_,
    fun junk name i j a b ha hb => ?_⟩, hans⟩
  · rcases hcases ha with ⟨-, rfl⟩ | ⟨-, rfl⟩ | ⟨hi, -⟩
    · rw [hx] at hf
      cases hf
    · rw [hy] at hf
      cases hf
    · rcases hcases hb with ⟨rfl, -⟩ | ⟨rfl, -⟩ | ⟨-, hf'⟩
      · omega
      · omega
      · exact hf'
  · rcases hcases ha with ⟨rfl, -⟩ | ⟨rfl, -⟩ | ⟨-, hf⟩
    · rfl
    · rw [hlong, hlong]
    · rw [hl] at hf
      cases hf
  · rcases hans junk i a name ha with ⟨rfl, -, hn⟩ | ⟨rfl, -, hn⟩
    · rcases hans junk j b name hb with ⟨rfl, -⟩ | ⟨rfl, -, hn'⟩
      · rfl
      · rw [hn] at hn'
        cases hn'
    · rcases hans junk j b name hb with ⟨rfl, -, hn'⟩ | ⟨rfl, -⟩
      · rw [hn] at hn'
        cases hn'
      · rfl

end Dots

section Turning

variable {ι : Type} {g : Geo} {v v' : Volume} {cat : Catalog ι} {i : ι} {c pp : Nat}

/-- The first cluster of a directory and the entry that names it, as `fat_mkdir` writes them. -/
def asDir (g : Geo) (v : Volume) (f : Handle) (c pp : Nat) : Volume :=
  let v := Function.update v (clusSector g c) (dotEntries c pp)
  Function.update v f.dirSec
    (setCluster (wr32 (Function.update (v f.dirSec) (f.dirOff + 11) 0x10) (f.dirOff + 28) 0) f.dirOff c)

/-- What that does: the cluster has `.` and `..`, and the entry says it is a directory and where. -/
structure Turns (g : Geo) (cat : Catalog ι) (p : Spot) (c pp : Nat) (v v' : Volume) : Prop where
  table : ∀ c', c' < g.totalClus → entry g v' c' = entry g v c'
  dots : v' (clusSector g c) = dotEntries c pp
  cleared : ∀ s, g.InClus c s → s ≠ clusSector g c → v' s = fun _ => 0
  edits : DirEdits g cat p v v'
  short : shortName (Slot.entry (p, v' p.sec)) = shortName (Slot.entry (p, v p.sec))
  live : classify (Slot.entry (p, v' p.sec)) = .live
  back : readBack v' p.sec p.off = ⟨c, 0, true, p.sec, p.off⟩

theorem WellFormed.turns {d : ι} {n : Nat} {p : Spot} (wf : WellFormed g v cat) (ok : g.Ok)
    (he : EntryOf g cat d n p) (hlx : classify (Slot.entry (p, v p.sec)) = .live)
    (hsec : p.sec = (cat.handle i).dirSec) (hoff : p.off = (cat.handle i).dirOff)
    (hc : g.Valid c) (hfresh : ∀ k, c ∉ cat.chain k)
    (hclear : ∀ s, g.InClus c s → v s = fun _ => 0) :
    Turns g cat p c pp v (asDir g v (cat.handle i) c pp) := by
  obtain ⟨hcd, hin, hmod, hlt⟩ := he.spec
  have hv := (wf.chained d).valid _ hcd
  have hcin : g.InClus c (clusSector g c) := by
    have h := inClus_of_lt (g := g) (c := c) ok.perClus
    rwa [Nat.add_zero] at h
  have hsecne : clusSector g c ≠ p.sec := by
    intro heq
    rw [heq] at hcin
    rw [inClus_unique ok hc hv hcin hin] at hfresh
    exact hfresh d hcd
  obtain ⟨v₁, hv1⟩ : ∃ v₁, v₁ = update v (clusSector g c) (dotEntries c pp) := ⟨_, rfl⟩
  obtain ⟨b, hb⟩ : ∃ b, b = update (v p.sec) (p.off + 11) 0x10 := ⟨_, rfl⟩
  obtain ⟨f, hf⟩ : ∃ f : Handle, f = ⟨c, 0, true, p.sec, p.off⟩ := ⟨_, rfl⟩
  obtain ⟨v', hv'⟩ : ∃ v', v' = update v₁ p.sec (writtenBack b f) := ⟨_, rfl⟩
  have hasDir : asDir g v (cat.handle i) c pp = v' := by
    have hsame : v₁ p.sec = v p.sec := by
      rw [hv1, update_of_ne (Ne.symm hsecne)]
    rw [hv', hb, hf, ← hsame, hv1, hsec, hoff]
    rfl
  rw [hasDir]
  have hother : ∀ s, s ≠ p.sec → s ≠ clusSector g c → v' s = v s := by
    intro s h1 h2
    rw [hv', update_of_ne h1, hv1, update_of_ne h2]
  have hself : v' p.sec = writtenBack b f := by rw [hv', update_self]
  have hdots : v' (clusSector g c) = dotEntries c pp := by
    rw [hv', update_of_ne hsecne, hv1, update_self]
  have hrest : ∀ s, g.InClus c s → s ≠ clusSector g c → v' s = fun _ => 0 := by
    intro s hs hne'
    rw [hother s ?_ hne', hclear s hs]
    rintro rfl
    rw [inClus_unique ok hc hv hs hin] at hfresh
    exact hfresh d hcd
  have hentry : ∀ c', c' < g.totalClus → entry g v' c' = entry g v c' := by
    intro c' hlt'
    rw [hv', entry_update ok hv hin _ hlt', hv1, entry_update ok hc hcin _ hlt']
  -- the entry: the name stays, and it says that it is a directory now
  have hkeep : ∀ o, ¬(p.off + 11 ≤ o ∧ o < p.off + 32) → v' p.sec o = v p.sec o := by
    intro o ho
    have hfoff : f.dirOff = p.off := by rw [hf]
    rw [hself, writtenBack_of_not_owns, hb, update_of_ne]
    · rintro rfl
      exact ho ⟨le_rfl, by omega⟩
    · rintro ⟨-, hown⟩
      omega
  have hattr : Slot.entry (p, v' p.sec) 11 = 0x10 := by
    have hfoff : f.dirOff = p.off := by rw [hf]
    change v' p.sec (p.off + 11) = 0x10
    rw [hself, writtenBack_of_not_owns, hb, update_self]
    rintro ⟨-, hown⟩
    omega
  have hbytes : ∀ k < 11, Slot.entry (p, v' p.sec) k = Slot.entry (p, v p.sec) k :=
    fun k hk => hkeep (p.off + k) (by omega)
  have hshort : shortName (Slot.entry (p, v' p.sec)) = shortName (Slot.entry (p, v p.sec)) :=
    shortName_congr hbytes
  have hly : classify (Slot.entry (p, v' p.sec)) = .live := by
    unfold classify at hlx ⊢
    rw [hbytes 0 (by omega), hattr]
    split at hlx
    · cases hlx
    rename_i h0
    split at hlx
    · cases hlx
    rename_i h5
    rw [if_neg h0, if_neg h5]
    rfl
  have hback : readBack v' p.sec p.off = f := by
    have hlt32 : c < 2 ^ 32 := by
      have htotal := ok.total
      have hc2 := hc.2
      omega
    have h := readBack_writtenBack (v := v₁) (b := b) (f := f) (by rw [hf]; exact Nat.two_pow_pos 32)
      (by rw [hf]; exact hlt32) (by
        rw [hf]
        have hc2 := hc.1
        dsimp only
        omega) (by
        rw [hb, hf, update_self]
        rfl)
    rw [hv']
    rw [hf] at h ⊢
    exact h
  have hedits : DirEdits g cat p v v' := by
    intro k hk c' hc' s hs o ho
    by_cases hsp : s = p.sec
    · subst hsp
      exact hkeep o fun h => ho ⟨rfl, by omega, h.2⟩
    · rw [hother s hsp]
      rintro rfl
      rw [inClus_unique ok hc ((wf.chained k).valid c' hc') hcin hs] at hfresh
      exact hfresh k hc'
  exact ⟨hentry, hdots, hrest, hedits, hshort, hly, by rw [hback, hf]⟩

variable [DecidableEq ι]

/-- An empty file becomes a directory in a cluster of its own. -/
theorem Tree.turned (t : Tree g v cat) (ok : g.Ok) (hfile : (cat.handle i).isDir = false)
    (hi : (cat.handle i).dirSec ≠ 0) (hnil : cat.chain i = []) (hc : g.Valid c)
    (hfresh : ∀ k, c ∉ cat.chain k) (hend : entry g v c = 0x0ffffff8)
    (hclear : ∀ s, g.InClus c s → v s = fun _ => 0)
    (hpp : pp = 0 ∨ ∃ j, pp = (cat.chain j).getD 0 0 ∧ cat.Within g (cat.handle i) j) :
    Tree g (asDir g v (cat.handle i) c pp)
        (cat.set i ⟨c, 0, true, (cat.handle i).dirSec, (cat.handle i).dirOff⟩ [c]) ∧
      (∀ k, (cat.handle k).isDir = true → ∀ m y,
        (slots g (asDir g v (cat.handle i) c pp) (cat.chain k))[m]? = some y →
          classify y.entry = .live → ∃ x, (slots g v (cat.chain k))[m]? = some x ∧ ∀ junk name,
            AnswersAt (slots g (asDir g v (cat.handle i) c pp) (cat.chain k)) junk m y name →
              AnswersAt (slots g v (cat.chain k)) junk m x name) ∧
      (∀ junk m y name, AnswersAt (slots g (asDir g v (cat.handle i) c pp) [c]) junk m y name →
        Dotted name) ∧ ∀ k, (cat.handle k).isDir = true → ∀ junk m x name,
        AnswersAt (slots g v (cat.chain k)) junk m x name → ∃ y,
          AnswersAt (slots g (asDir g v (cat.handle i) c pp) (cat.chain k)) junk m y name ∧
            y.handle = if x.handle = cat.handle i then
              ⟨c, 0, true, (cat.handle i).dirSec, (cat.handle i).dirOff⟩ else x.handle := by
  obtain ⟨d, n, p, he, hsec, hoff⟩ := t.wf.entryOf hi
  obtain ⟨hx, hlx⟩ := t.wf.slot_handle hi hsec hoff
  have ht := @WellFormed.turns _ g v cat i c pp _ _ _ t.wf ok he hlx hsec hoff hc hfresh hclear
  rw [← hsec, ← hoff]
  generalize asDir g v (cat.handle i) c pp = v' at ht ⊢
  have hne : ∀ k, (cat.handle k).isDir = true → k ≠ i := by
    rintro k hk rfl
    rw [hfile] at hk
    cases hk
  have hbx : Slot.Breaks (p, v p.sec) := by
    unfold Slot.Breaks
    rw [hlx]
    nofun
  have hby : Slot.Breaks (p, v' p.sec) := by
    unfold Slot.Breaks
    rw [ht.live]
    nofun
  have hhandle : ∀ k, (cat.handle k).isDir = true →
      (cat.set i ⟨c, 0, true, p.sec, p.off⟩ [c]).handle k = cat.handle k :=
    fun k hk => set_handle_of_ne (hne k hk)
  have hplace : ∀ k, ((cat.set i ⟨c, 0, true, p.sec, p.off⟩ [c]).handle k).dirSec =
      (cat.handle k).dirSec ∧ ((cat.set i ⟨c, 0, true, p.sec, p.off⟩ [c]).handle k).dirOff =
        (cat.handle k).dirOff := by
    intro k
    by_cases hk : k = i
    · subst hk
      rw [set_handle_self]
      exact ⟨hsec, hoff⟩
    · rw [set_handle_of_ne hk]
      exact ⟨rfl, rfl⟩
  have hcarries : Carries cat (cat.set i ⟨c, 0, true, p.sec, p.off⟩ [c]) id :=
    ⟨hhandle, fun k hk => by rw [id_eq, set_chain_of_ne (hne k hk)], fun k hk => by
      rw [id_eq, set_chain_of_ne (hne k hk)]
      exact List.Subset.refl _⟩
  have hchanges := ht.edits.changes ok t.wf he
  have hself : ∀ junk name, AnswersAt (slots g v' (cat.chain d)) junk n (p, v' p.sec) name →
      AnswersAt (slots g v (cat.chain d)) junk n (p, v p.sec) name := by
    intro junk name ha
    refine ⟨he.slot, hlx, ?_⟩
    rw [← hchanges.longName_eq he.slot he.slot hbx hby, ← ht.short]
    exact ha.answers
  obtain ⟨rest, hslots, hfin⟩ := slots_newDir ok ht.dots ht.cleared
  have h32 : c < 2 ^ 32 ∧ pp < 2 ^ 32 := by
    have htotal := ok.total
    have hc2 := hc.2
    refine ⟨by omega, ?_⟩
    rcases hpp with rfl | ⟨j, rfl, hj, -⟩
    · exact Nat.two_pow_pos 32
    · have hlt := ((t.wf.chained j).valid _ (getD_mem (length_pos_iff.2 (t.dirs j hj)))).2
      omega
  obtain ⟨hl1, hs1, hc1, ha1⟩ := @dotEntries_first c pp h32.1
  obtain ⟨hl2, hs2, hc₂, ha2⟩ := @dotEntries_second c pp h32.2
  obtain ⟨hneat, hans⟩ := @neat_dots (⟨c, clusSector g c, 0⟩, dotEntries c pp)
    (⟨c, clusSector g c, 32⟩, dotEntries c pp) rest hl1 hl2 hs1 hs2 hfin
  rw [← hslots] at hneat hans
  obtain ⟨r, hr⟩ := t.root
  have hrdir : (cat.handle r).isDir = true := by rw [hr]; rfl
  have hdots : ∀ junk m y name, AnswersAt (slots g v' [c]) junk m y name → Dotted name := by
    intro junk m y name ha
    rcases hans junk m y name ha with ⟨-, -, hn⟩ | ⟨-, -, hn⟩
    · exact .inl hn
    · exact .inr hn
  have hwf : WellFormed g v' (cat.set i ⟨c, 0, true, p.sec, p.off⟩ [c]) := by
    refine .of_sits (fun k => ?_) (fun a b hab c' hca hcb => ?_) (fun k hk => ?_)
      fun a b ha hs ho => ?_
    · by_cases hk : k = i
      · subst hk
        rw [set_handle_self, set_chain_self]
        have hentry : entry g v' c = 0x0ffffff8 := by rw [ht.table c hc.2, hend]
        refine ⟨⟨fun c' hc' => ?_, nodup_singleton c, fun m c' hm => ?_, fun c' hc' => ?_⟩, rfl,
          nofun, fun _ => he.spec.2.2, fun _ => ht.live, fun _ => ht.back⟩
        · rw [mem_singleton.1 hc']
          exact hc
        · cases m with
          | zero =>
            obtain rfl : c = c' := some.inj hm
            unfold next
            rw [hentry]
            simp
          | succ m => cases hm
        · rw [mem_singleton.1 hc', hentry]
          decide
      · rw [set_handle_of_ne hk, set_chain_of_ne hk]
        refine (t.wf.sits k).congr (fun c' hc' => ht.table c' ((t.wf.chained k).valid c' hc').2)
          fun hks b hb => ?_
        obtain ⟨d', hd', c', hc', hin'⟩ := t.wf.placed k hks
        obtain ⟨hmod', -⟩ := t.wf.slot k hks
        obtain ⟨-, -, hmod, -⟩ := he.spec
        refine ht.edits d' hd' c' hc' _ hin' _ ?_
        rintro ⟨hs, hlo, hhi⟩
        exact hk (t.wf.own k i hks (hs.trans hsec) (by omega))
    · by_cases ha : a = i
      · subst ha
        rw [set_chain_self, mem_singleton] at hca
        rw [set_chain_of_ne (Ne.symm hab)] at hcb
        exact hfresh b (hca ▸ hcb)
      · rw [set_chain_of_ne ha] at hca
        by_cases hb : b = i
        · subst hb
          rw [set_chain_self, mem_singleton] at hcb
          exact hfresh a (hcb ▸ hca)
        · rw [set_chain_of_ne hb] at hcb
          exact t.wf.apart a b hab c' hca hcb
    · rw [(hplace k).1] at hk
      obtain ⟨d', hd', c', hc', hin'⟩ := t.wf.placed k hk
      refine ⟨d', by rw [hhandle d' hd']; exact hd', c', ?_, by rwa [(hplace k).1]⟩
      rwa [set_chain_of_ne (hne d' hd')]
    · rw [(hplace a).1] at ha hs
      rw [(hplace b).1] at hs
      rw [(hplace a).2, (hplace b).2] at ho
      exact t.wf.own a b ha hs ho
  refine ⟨⟨hwf, ⟨r, (hhandle r hrdir).trans hr⟩, fun k hk => ?_, fun k hk => ?_,
    fun k hk m y hy hl => ?_, hcarries.deep t.wf t.deep hwf ok fun k => (hplace k).1⟩,
    fun k hk m y hy hl => ?_, hdots, fun k hk junk m x name ha => ?_⟩
  · by_cases hki : k = i
    · subst hki
      rw [set_chain_self]
      exact cons_ne_nil c []
    · rw [set_handle_of_ne hki] at hk
      rw [set_chain_of_ne hki]
      exact t.dirs k hk
  · by_cases hki : k = i
    · subst hki
      rw [set_chain_self]
      exact hneat
    · rw [set_handle_of_ne hki] at hk
      rw [set_chain_of_ne hki]
      by_cases hkd : k = d
      · subst hkd
        refine (t.neat k hk).changed hchanges he.slot he.slot hbx hby (by rw [ht.live]; nofun) ?_
          fun _ => .inl ⟨hlx, ht.short⟩
        intro j a hj ha hf
        have hlast := (t.neat k hk).ended j n a _ ha he.slot (by omega) hf
        rw [hlx] at hlast
        cases hlast
      · rw [ht.edits.slots_of_ne ok t.wf he hk hkd]
        exact t.neat k hk
  · by_cases hki : k = i
    · subst hki
      rw [set_chain_self] at hy ⊢
      have hself' : (cat.set k ⟨c, 0, true, p.sec, p.off⟩ [c]).handle k = ⟨c, 0, true, p.sec, p.off⟩ :=
        set_handle_self
      have hget := hy
      rw [hslots] at hget
      match m with
      | 0 =>
        obtain rfl := some.inj hget
        refine .dot ?_ (fun junk name ha => hdots junk 0 _ name ha)
          ⟨k, by rw [hself'], ?_, .inl rfl⟩
        · change ((entryAt (dotEntries c pp) 0 11).toNat / 16 % 2 == 1) = true
          rw [ha1]
          rfl
        · rw [set_chain_self]
          change dirStart g (handleAt _ (entryAt (dotEntries c pp) 0)) = c
          unfold dirStart handleAt
          have hc2 := hc.1
          rw [hc1, if_neg (show ¬c < 2 by omega), if_pos (show c ≠ 0 by omega)]
      | 1 =>
        obtain rfl := some.inj hget
        refine .dot ?_ (fun junk name ha => hdots junk 1 _ name ha) ?_
        · change ((entryAt (dotEntries c pp) 32 11).toNat / 16 % 2 == 1) = true
          rw [ha2]
          rfl
        · change Catalog.Leads g _ k (dirStart g (handleAt _ (entryAt (dotEntries c pp) 32)))
          unfold dirStart handleAt
          rw [hc₂]
          rcases hpp with rfl | ⟨j, hpj, hw⟩
          · refine ⟨r, by rw [hhandle r hrdir]; exact hrdir, ?_, .inr (.inr ((hhandle r hrdir).trans hr))⟩
            rw [set_chain_of_ne (hne r hrdir), ← t.wf.head r, hr]
            rfl
          · have hpos := length_pos_iff.2 (t.dirs j hw.1)
            have h2 := ((t.wf.chained j).valid _ (getD_mem hpos)).1
            rw [← hpj] at h2
            rw [if_neg (show ¬pp < 2 by omega), if_pos (show pp ≠ 0 by omega)]
            refine ⟨j, by rw [hhandle j hw.1]; exact hw.1, ?_, .inr (.inl ?_)⟩
            · rw [set_chain_of_ne (hne j hw.1)]
              exact hpj
            · obtain ⟨hdir', c', hc', hin'⟩ := hcarries.within hw
              rw [hself']
              exact ⟨by rw [hsec]; exact hi, hdir', c', hc', by rw [hsec]; exact hin'⟩
      | m + 2 =>
        rw [hfin y (mem_of_getElem? hget)] at hl
        cases hl
    · rw [set_handle_of_ne hki] at hk
      rw [set_chain_of_ne hki] at hy ⊢
      by_cases hmn : k = d ∧ m = n
      · obtain ⟨rfl, rfl⟩ := hmn
        obtain rfl := some.inj (he.slot.symm.trans hy)
        refine .listed i ?_ fun junk name ha => ?_
        · rw [set_handle_self]
          exact ht.back.symm
        · cases t.entries k hk m _ he.slot hlx with
          | listed l _ hno => exact hno junk name (hself junk name ha)
          | dot hd =>
            rw [hx, hfile] at hd
            cases hd
      · have hne' : k = d → m ≠ n := fun hkd hm => hmn ⟨hkd, hm⟩
        refine t.edited ht.edits ok he hbx hby hk hne' hy hl (fun l hl => ⟨l, ?_⟩)
          fun start => hcarries.leads hk
        rw [set_handle_of_ne (he.handle_ne ok t.wf hsec hoff hk hne' hy hl)]
        exact hl
  · by_cases hmn : k = d ∧ m = n
    · obtain ⟨rfl, rfl⟩ := hmn
      obtain rfl := some.inj (he.slot.symm.trans hy)
      exact ⟨_, he.slot, hself⟩
    · obtain ⟨x, -, hx, hans⟩ := ht.edits.answersAt ok t.wf he hbx hby hk
        (fun hkd hm => hmn ⟨hkd, hm⟩) hy
      exact ⟨x, hx, hans⟩
  · by_cases hmn : k = d ∧ m = n
    · obtain ⟨rfl, rfl⟩ := hmn
      obtain rfl := some.inj (he.slot.symm.trans ha.at')
      rw [if_pos hx]
      refine ⟨_, ⟨he.slot, ht.live, ?_⟩, ht.back⟩
      rw [hchanges.longName_eq he.slot he.slot hbx hby, ht.short]
      exact ha.answers
    · have hne' : k = d → m ≠ n := fun hkd hm => hmn ⟨hkd, hm⟩
      obtain ⟨y, hxy, hay⟩ := ht.edits.answersAt_keep ok t.wf he hbx hby hk hne' ha
      refine ⟨y, hay, ?_⟩
      rw [if_neg fun heq => he.handle_ne ok t.wf hsec hoff hk hne' ha.at' heq.symm rfl]
      exact hxy.handle_eq

end Turning

end Verkos.Stam.Fat
