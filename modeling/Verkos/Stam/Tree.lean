import Verkos.Stam.FatCreate
import Verkos.Stam.Records

/-!
# The tree of a volume

On a volume whose catalog has everything the directories name, each directory is in order and each of
its live entries is either in the catalog, under a name that is neither `.` nor `..`, or one of these
two, leading to the directory itself, to the one it is in or to the root. Each of the changes that the
calls make keeps that: a cluster taken, an entry made, a directory grown, an entry rewritten or removed.
-/

namespace Verkos.Stam.Fat

open Verkos.Lib
open List
open Catalog (set_chain_of_ne set_chain_self)

/-- What is well formed of one file or directory. -/
structure Sits (g : Geo) (v : Volume) (f : Handle) (cs : List Nat) : Prop where
  chain : Chain g v cs
  head : f.cluster = cs.getD 0 0
  room : f.isDir = false → f.size ≤ cs.length * g.clusterBytes
  slot : f.dirSec ≠ 0 → f.dirOff % 32 = 0 ∧ f.dirOff < 512
  live : f.dirSec ≠ 0 → classify (entryAt (v f.dirSec) f.dirOff) = .live
  recorded : f.dirSec ≠ 0 → readBack v f.dirSec f.dirOff = f

/-- The directory an entry is in. -/
def Catalog.Within {ι : Type} (g : Geo) (cat : Catalog ι) (f : Handle) (d : ι) : Prop :=
  (cat.handle d).isDir = true ∧ ∃ c ∈ cat.chain d, g.InClus c f.dirSec

/-- A directory is above what is in it. -/
def Catalog.Deep {ι : Type} (g : Geo) (cat : Catalog ι) : Prop :=
  ∃ depth : ι → Nat, ∀ k d, (cat.handle k).dirSec ≠ 0 → cat.Within g (cat.handle k) d →
    depth d < depth k

/-- From directory `d` one gets to a cluster by `.` or `..`. -/
def Catalog.Leads {ι : Type} (g : Geo) (cat : Catalog ι) (d : ι) (start : Nat) : Prop :=
  ∃ j, (cat.handle j).isDir = true ∧ start = (cat.chain j).getD 0 0 ∧
    (j = d ∨ (cat.handle d).dirSec ≠ 0 ∧ cat.Within g (cat.handle d) j ∨
      cat.handle j = rootHandle g)

/-- `.` and `..`. -/
def Dotted (name : List UInt8) : Prop := folded name = [46] ∨ folded name = [46, 46]

/-- An entry of directory `d` is in the catalog or is `.` or `..`. -/
inductive Accounted {ι : Type} (g : Geo) (cat : Catalog ι) (d : ι) (xs : List Slot) (i : Nat)
    (x : Slot) : Prop where
  | listed (k : ι) : cat.handle k = x.handle →
      (∀ junk name, AnswersAt xs junk i x name → ¬Dotted name) → Accounted g cat d xs i x
  | dot : x.handle.isDir = true → (∀ junk name, AnswersAt xs junk i x name → Dotted name) →
      cat.Leads g d (dirStart g x.handle) → Accounted g cat d xs i x

/-- A volume whose directories are in order and have nothing but what the catalog has. -/
structure Tree {ι : Type} (g : Geo) (v : Volume) (cat : Catalog ι) : Prop where
  wf : WellFormed g v cat
  root : ∃ r, cat.handle r = rootHandle g
  dirs : ∀ d, (cat.handle d).isDir = true → cat.chain d ≠ []
  neat : ∀ d, (cat.handle d).isDir = true → Neat (slots g v (cat.chain d))
  entries : ∀ d, (cat.handle d).isDir = true → ∀ (i : Nat) (x : Slot),
    (slots g v (cat.chain d))[i]? = some x → classify x.entry = .live →
      Accounted g cat d (slots g v (cat.chain d)) i x
  deep : cat.Deep g

/-! ## Files one by one -/

section Sitting

variable {ι : Type} {g : Geo} {v v' : Volume} {cat : Catalog ι} {f : Handle} {cs : List Nat}

theorem WellFormed.sits (wf : WellFormed g v cat) (i : ι) : Sits g v (cat.handle i) (cat.chain i) :=
  ⟨wf.chained i, wf.head i, wf.room i, wf.slot i, wf.live i, wf.recorded i⟩

theorem WellFormed.of_sits (h : ∀ i, Sits g v (cat.handle i) (cat.chain i))
    (apart : ∀ i j, i ≠ j → ∀ c ∈ cat.chain i, c ∉ cat.chain j)
    (placed : ∀ i, (cat.handle i).dirSec ≠ 0 → ∃ d, cat.Within g (cat.handle i) d)
    (own : ∀ i j, (cat.handle i).dirSec ≠ 0 → (cat.handle i).dirSec = (cat.handle j).dirSec →
      (cat.handle i).dirOff = (cat.handle j).dirOff → i = j) : WellFormed g v cat where
  chained i := (h i).chain
  head i := (h i).head
  room i := (h i).room
  apart := apart
  placed := placed
  slot i := (h i).slot
  live i := (h i).live
  recorded i := (h i).recorded
  own := own

/-- What the file is depends on its entry and on the table for its clusters. -/
theorem Sits.congr (h : Sits g v f cs) (hentry : ∀ c ∈ cs, entry g v' c = entry g v c)
    (hbytes : f.dirSec ≠ 0 → ∀ k < 32, v' f.dirSec (f.dirOff + k) = v f.dirSec (f.dirOff + k)) :
    Sits g v' f cs where
  chain := h.chain.congr hentry
  head := h.head
  room := h.room
  slot := h.slot
  live hs := (readBack_congr (hbytes hs)).2.trans (h.live hs)
  recorded hs := (readBack_congr (hbytes hs)).1.trans (h.recorded hs)

theorem WellFormed.within_unique (wf : WellFormed g v cat) (ok : g.Ok) {f : Handle} {j k : ι}
    (h : cat.Within g f j) (h' : cat.Within g f k) : j = k := by
  obtain ⟨-, c, hc, hin⟩ := h
  obtain ⟨-, c', hc', hin'⟩ := h'
  by_contra hne
  rw [inClus_unique ok ((wf.chained j).valid c hc) ((wf.chained k).valid c' hc') hin hin'] at hc
  exact wf.apart j k hne _ hc hc'

theorem Tree.rooted (t : Tree g v cat) : Rooted g v cat where
  root := t.root
  dirs := t.dirs
  covers d hd x hx := by
    obtain ⟨i, hi, hlive⟩ := (mem_liveSlots (t.neat d hd).ended).1 hx
    cases t.entries d hd i x hi hlive with
    | listed k hk => exact .inl ⟨k, hk⟩
    | dot hdir _ hl =>
      obtain ⟨j, hj, hstart, -⟩ := hl
      exact .inr ⟨hdir, j, hj, hstart⟩

/-- The table for the clusters in use is the same, and so are the sectors of the directories. -/
theorem Tree.same (t : Tree g v cat) (hentry : ∀ i, ∀ c ∈ cat.chain i, entry g v' c = entry g v c)
    (hsec : ∀ d, (cat.handle d).isDir = true → ∀ c ∈ cat.chain d, ∀ s, g.InClus c s → v' s = v s) :
    Tree g v' cat := by
  have hslots : ∀ d, (cat.handle d).isDir = true →
      slots g v' (cat.chain d) = slots g v (cat.chain d) := fun d hd => slots_congr (hsec d hd)
  refine ⟨WellFormed.of_sits (fun i => ?_) t.wf.apart t.wf.placed t.wf.own, t.root, t.dirs,
    fun d hd => ?_, fun d hd => ?_, t.deep⟩
  · refine (t.wf.sits i).congr (hentry i) fun hi k _ => ?_
    obtain ⟨d, hd, c, hc, hin⟩ := t.wf.placed i hi
    rw [hsec d hd c hc _ hin]
  · rw [hslots d hd]
    exact t.neat d hd
  · rw [hslots d hd]
    exact t.entries d hd

theorem Tree.allocated (t : Tree g v cat) (ok : g.Ok) {c : Nat} (ha : Allocates g c v v') :
    Tree g v' cat ∧ (∀ i, c ∉ cat.chain i) ∧
      ∀ i, slots g v' (cat.chain i) = slots g v (cat.chain i) := by
  have hnot : ∀ i, c ∉ cat.chain i := fun i hc => (t.wf.chained i).used c hc ha.free
  have hsec : ∀ i, ∀ c' ∈ cat.chain i, ∀ s, g.InClus c' s → v' s = v s := by
    intro i c' hc' s hin
    have hv := (t.wf.chained i).valid c' hc'
    refine ha.rest s (InClus.not_inTable ok hv hin) fun hin' => hnot i ?_
    rwa [inClus_unique ok ha.valid hv hin' hin]
  refine ⟨t.same (fun i c' hc' => ?_) fun d _ => hsec d, hnot, fun i => slots_congr (hsec i)⟩
  rw [ha.entry c' ((t.wf.chained i).valid c' hc').2, if_neg fun he : c' = c => hnot i (he ▸ hc')]

end Sitting

/-! ## From one catalog to another -/

section Transport

variable {ι κ : Type} {g : Geo} {v v' : Volume} {cat : Catalog ι} {cat' : Catalog κ} {d : ι}
  {d' : κ} {xs ys : List Slot} {i j : Nat} {x y : Slot} {start : Nat}

/-- The directories are among the other catalog's: the same handles, as long at least. -/
structure Carries (cat : Catalog ι) (cat' : Catalog κ) (emb : ι → κ) : Prop where
  handle : ∀ d, (cat.handle d).isDir = true → cat'.handle (emb d) = cat.handle d
  head : ∀ d, (cat.handle d).isDir = true → (cat'.chain (emb d)).getD 0 0 = (cat.chain d).getD 0 0
  chain : ∀ d, (cat.handle d).isDir = true → cat.chain d ⊆ cat'.chain (emb d)

theorem Carries.within {emb : ι → κ} (h : Carries cat cat' emb) {f : Handle}
    (hw : cat.Within g f d) : cat'.Within g f (emb d) := by
  obtain ⟨hd, c, hc, hin⟩ := hw
  exact ⟨by rw [h.handle d hd]; exact hd, c, h.chain d hd hc, hin⟩

theorem Carries.leads {emb : ι → κ} (h : Carries cat cat' emb) (hd : (cat.handle d).isDir = true)
    (hl : cat.Leads g d start) : cat'.Leads g (emb d) start := by
  obtain ⟨j, hj, hstart, hcase⟩ := hl
  refine ⟨emb j, by rw [h.handle j hj]; exact hj, by rw [h.head j hj]; exact hstart, ?_⟩
  rw [h.handle d hd, h.handle j hj]
  rcases hcase with rfl | ⟨hsec, hw⟩ | hroot
  · exact .inl rfl
  · exact .inr (.inl ⟨hsec, h.within hw⟩)
  · exact .inr (.inr hroot)

theorem Carries.deep {cat' : Catalog ι} (h : Carries cat cat' id) (wf : WellFormed g v cat)
    (hdeep : cat.Deep g) (wf' : WellFormed g v' cat') (ok : g.Ok)
    (hsec : ∀ k, (cat'.handle k).dirSec = (cat.handle k).dirSec) : cat'.Deep g := by
  obtain ⟨depth, hdepth⟩ := hdeep
  refine ⟨depth, fun k d hk hw => ?_⟩
  rw [hsec k] at hk
  obtain ⟨d0, hw0⟩ := wf.placed k hk
  obtain ⟨hdir, c, hc, hin⟩ := h.within hw0
  rw [wf'.within_unique ok hw ⟨hdir, c, hc, by rw [hsec k]; exact hin⟩]
  exact hdepth k d0 hk hw0

/-- An entry that says the same and answers to no more is accounted for still. -/
theorem Accounted.carried (h : Accounted g cat d xs i x) (hxy : y.handle = x.handle)
    (hans : ∀ junk name, AnswersAt ys junk j y name → AnswersAt xs junk i x name)
    (hcat : ∀ k, cat.handle k = x.handle → ∃ k', cat'.handle k' = x.handle)
    (hleads : ∀ start, cat.Leads g d start → cat'.Leads g d' start) :
    Accounted g cat' d' ys j y := by
  cases h with
  | listed k hk hno =>
    obtain ⟨k', hk'⟩ := hcat k hk
    exact .listed k' (hk'.trans hxy.symm) fun junk name ha => hno junk name (hans junk name ha)
  | dot hdir hdots hl =>
    refine .dot (by rw [hxy]; exact hdir) (fun junk name ha => hdots junk name (hans junk name ha)) ?_
    rw [hxy]
    exact hleads _ hl

end Transport

/-! ## One entry is edited -/

/-- Nothing but the 32 bytes of one entry changed. -/
def Edits (p : Spot) (v v' : Volume) : Prop :=
  ∀ s o, ¬(s = p.sec ∧ p.off ≤ o ∧ o < p.off + 32) → v' s o = v s o

variable {b : Sector} {m o : Nat}

section Editing

variable {ι : Type} {g : Geo} {v v' : Volume} {cat : Catalog ι} {i : Nat} {d : ι} {j k : ι} {p : Spot}

theorem edits_update (h : ∀ o, ¬(p.off ≤ o ∧ o < p.off + 32) → b o = v p.sec o) :
    Edits p v (Function.update v p.sec b) := by
  intro s o ho
  by_cases hs : s = p.sec
  · rw [hs, Function.update_self]
    exact h o fun hin => ho ⟨hs, hin⟩
  · rw [Function.update_of_ne hs]

theorem Edits.sector (h : Edits p v v') {s : Nat} (hs : s ≠ p.sec) : v' s = v s :=
  funext fun o => h s o fun hin => hs hin.1

/-- An entry of a directory that is edited: its number is `i`. -/
structure EntryOf (g : Geo) (cat : Catalog ι) (d : ι) (i : Nat) (p : Spot) : Prop where
  isDir : (cat.handle d).isDir = true
  at' : (spots g (cat.chain d))[i]? = some p

theorem EntryOf.spec (h : EntryOf g cat d i p) :
    p.clus ∈ cat.chain d ∧ g.InClus p.clus p.sec ∧ p.off % 32 = 0 ∧ p.off < 512 :=
  mem_spots.1 (mem_of_getElem? h.at')

theorem EntryOf.slot (h : EntryOf g cat d i p) :
    (slots g v (cat.chain d))[i]? = some (p, v p.sec) := by
  rw [getElem_slots, h.at']
  rfl

theorem Edits.entry (h : Edits p v v') (ok : g.Ok) (wf : WellFormed g v cat)
    (he : EntryOf g cat d i p) {c : Nat} (hc : c < g.totalClus) : entry g v' c = entry g v c := by
  obtain ⟨hcd, hin, -⟩ := he.spec
  refine entry_of_same ok hc fun s hs => h.sector ?_
  rintro rfl
  exact InClus.not_inTable ok ((wf.chained d).valid _ hcd) hin hs

theorem WellFormed.entryOf (wf : WellFormed g v cat) (hj : (cat.handle j).dirSec ≠ 0) :
    ∃ d i p, EntryOf g cat d i p ∧ p.sec = (cat.handle j).dirSec ∧ p.off = (cat.handle j).dirOff := by
  obtain ⟨d, hd, c, hc, hin⟩ := wf.placed j hj
  obtain ⟨hmod, hlt⟩ := wf.slot j hj
  obtain ⟨i, hi⟩ := @exists_slot g (cat.chain d) ⟨c, (cat.handle j).dirSec, (cat.handle j).dirOff⟩ hc
    hin hmod hlt
  exact ⟨d, i, _, ⟨hd, hi⟩, rfl, rfl⟩

/-- An edit of another entry leaves a file's entry alone. -/
theorem Edits.bytes (h : Edits p v v') (wf : WellFormed g v cat) (he : EntryOf g cat d i p)
    (hj : (cat.handle j).dirSec ≠ 0)
    (hne : ¬((cat.handle j).dirSec = p.sec ∧ (cat.handle j).dirOff = p.off)) {k : Nat} (hk : k < 32) :
    v' (cat.handle j).dirSec ((cat.handle j).dirOff + k) =
      v (cat.handle j).dirSec ((cat.handle j).dirOff + k) := by
  obtain ⟨-, -, hmod, -⟩ := he.spec
  obtain ⟨hmod', -⟩ := wf.slot j hj
  refine h _ _ ?_
  rintro ⟨hsec, hlo, hhi⟩
  exact hne ⟨hsec, by omega⟩

theorem EntryOf.unique {n : Nat} {q : Spot} (h : EntryOf g cat d n p)
    (h' : EntryOf g cat k m q) (ok : g.Ok)
    (wf : WellFormed g v cat) (hsec : q.sec = p.sec) (hoff : q.off = p.off) : k = d ∧ m = n := by
  obtain ⟨hc, hin, -⟩ := h.spec
  obtain ⟨hc', hin', -⟩ := h'.spec
  have hkd : k = d := by
    by_contra hne
    rw [hsec] at hin'
    rw [inClus_unique ok ((wf.chained k).valid _ hc') ((wf.chained d).valid _ hc) hin' hin] at hc'
    exact wf.apart k d hne _ hc' hc
  subst hkd
  exact ⟨rfl, (wf.chained k).spot_unique ok h'.at' h.at' hsec hoff⟩

theorem entryOf_slot {y : Slot} (hk : (cat.handle k).isDir = true) (hy : (slots g v (cat.chain k))[m]? = some y) :
    EntryOf g cat k m y.1 ∧ y.2 = v y.1.sec := by
  rw [getElem_slots] at hy
  obtain ⟨q, hq, rfl⟩ := Option.map_eq_some_iff.1 hy
  exact ⟨⟨hk, hq⟩, rfl⟩

/-- In the directories nothing but one entry changed. -/
def DirEdits (g : Geo) (cat : Catalog ι) (p : Spot) (v v' : Volume) : Prop :=
  ∀ k, (cat.handle k).isDir = true → ∀ c ∈ cat.chain k, ∀ s, g.InClus c s → ∀ o,
    ¬(s = p.sec ∧ p.off ≤ o ∧ o < p.off + 32) → v' s o = v s o

theorem Edits.dirs (h : Edits p v v') : DirEdits g cat p v v' := fun _ _ _ _ s _ o ho => h s o ho

section

variable (h : DirEdits g cat p v v') (ok : g.Ok) (wf : WellFormed g v cat)
  (he : EntryOf g cat d i p)
include h ok wf he

theorem DirEdits.slots_of_ne (hk : (cat.handle k).isDir = true) (hkd : k ≠ d) :
    slots g v' (cat.chain k) = slots g v (cat.chain k) := by
  obtain ⟨hcd, hin, -⟩ := he.spec
  refine slots_congr fun c hc s hs => funext fun o => h k hk c hc s hs o ?_
  rintro ⟨rfl, -⟩
  rw [inClus_unique ok ((wf.chained k).valid c hc) ((wf.chained d).valid _ hcd) hs hin] at hc
  exact wf.apart k d hkd _ hc hcd

theorem DirEdits.changes : Changes i (slots g v (cat.chain d)) (slots g v' (cat.chain d)) :=
  (wf.chained d).changes ok he.at' fun c hc s hs o _ hno => h d he.isDir c hc s hs o hno

/-- What answers in a directory afterwards, but for the entry that is edited, answered before. -/
theorem DirEdits.answersAt (hbx : Slot.Breaks (p, v p.sec)) (hby : Slot.Breaks (p, v' p.sec))
    (hk : (cat.handle k).isDir = true) {y : Slot} (hne : k = d → m ≠ i)
    (hy : (slots g v' (cat.chain k))[m]? = some y) :
    ∃ x, x.Agrees y ∧ (slots g v (cat.chain k))[m]? = some x ∧ ∀ junk name,
      AnswersAt (slots g v' (cat.chain k)) junk m y name →
        AnswersAt (slots g v (cat.chain k)) junk m x name := by
  by_cases hkd : k = d
  · subst hkd
    have hc := h.changes ok wf he
    obtain ⟨x, hx⟩ := hc.symm.at' hy
    refine ⟨x, hc.others m x y (hne rfl) hx hy, hx, fun junk name ha => ?_⟩
    obtain ⟨x', -, ha'⟩ := hc.answersAt he.slot he.slot hbx hby (hne rfl) ha
    rwa [Option.some.inj (hx.symm.trans ha'.at')]
  · rw [h.slots_of_ne ok wf he hk hkd] at hy ⊢
    exact ⟨y, ⟨rfl, fun _ _ => rfl⟩, hy, fun _ _ ha => ha⟩

/-- And what answered before answers afterwards. -/
theorem DirEdits.answersAt_keep (hbx : Slot.Breaks (p, v p.sec)) (hby : Slot.Breaks (p, v' p.sec))
    (hk : (cat.handle k).isDir = true) {junk : Nat → UInt8} {x : Slot} {name : List UInt8}
    (hne : k = d → m ≠ i) (ha : AnswersAt (slots g v (cat.chain k)) junk m x name) :
    ∃ y, x.Agrees y ∧ AnswersAt (slots g v' (cat.chain k)) junk m y name := by
  by_cases hkd : k = d
  · subst hkd
    have hc := h.changes ok wf he
    obtain ⟨y, hyx, hy⟩ := hc.symm.answersAt he.slot he.slot hby hbx (hne rfl) ha
    exact ⟨y, ⟨hyx.spot.symm, fun b hb => (hyx.bytes b hb).symm⟩, hy⟩
  · rw [h.slots_of_ne ok wf he hk hkd]
    exact ⟨x, ⟨rfl, fun _ _ => rfl⟩, ha⟩

end

/-- And it is accounted for still. -/
theorem Tree.edited {κ : Type} {cat' : Catalog κ} {k' : κ} (t : Tree g v cat)
    (h : DirEdits g cat p v v') (ok : g.Ok) (he : EntryOf g cat d i p)
    (hbx : Slot.Breaks (p, v p.sec)) (hby : Slot.Breaks (p, v' p.sec))
    (hk : (cat.handle k).isDir = true) {y : Slot} (hne : k = d → m ≠ i)
    (hy : (slots g v' (cat.chain k))[m]? = some y) (hl : classify y.entry = .live)
    (hcat : ∀ l, cat.handle l = y.handle → ∃ l', cat'.handle l' = y.handle)
    (hleads : ∀ start, cat.Leads g k start → cat'.Leads g k' start) :
    Accounted g cat' k' (slots g v' (cat.chain k)) m y := by
  obtain ⟨x, hxy, hx, hans⟩ := h.answersAt ok t.wf he hbx hby hk hne hy
  refine (t.entries k hk m x hx (hxy.classify_eq ▸ hl)).carried hxy.handle_eq hans ?_ hleads
  rw [← hxy.handle_eq]
  exact hcat

end Editing

/-! ## An entry is made -/

/-- The catalog with one file more. -/
def Catalog.add {ι : Type} (cat : Catalog ι) (f : Handle) (cs : List Nat) : Catalog (Option ι) where
  handle
    | none => f
    | some i => cat.handle i
  chain
    | none => cs
    | some i => cat.chain i

section Making

variable {ι : Type} {g : Geo} {v : Volume} {cat : Catalog ι} {name : List UInt8} {x : Slot}
  {i : Nat} {d : ι} {p : Spot}

theorem entry_newEntry {k : Nat} {attr : UInt8} (hk : k < 32) :
    entryAt (newEntry b o name attr) o k =
      if k < 11 then name.getD k 0 else if k = 11 then attr else 0 := by
  unfold entryAt newEntry
  rw [if_pos (by omega)]
  by_cases h11 : k < 11
  · rw [if_pos (by omega), if_pos h11, show o + k - o = k by omega]
  · rw [if_neg (by omega), if_neg h11]
    by_cases he : k = 11
    · rw [if_pos (by omega), if_pos he]
    · rw [if_neg (by omega), if_neg he]

theorem attr_newEntry {attr : UInt8} : entryAt (newEntry b o name attr) o 11 = attr := by
  rw [entry_newEntry (by omega), if_neg (by omega), if_pos rfl]

theorem readBack_newEntry {sec : Nat} :
    readBack (Function.update v sec (newEntry b o name 0x20)) sec o = emptyAt sec o := by
  have hzero : ∀ k, 11 < k → k < 32 → entryAt (newEntry b o name 0x20) o k = 0 := by
    intro k hlo hhi
    rw [entry_newEntry hhi, if_neg (by omega), if_neg (by omega)]
  unfold readBack
  rw [Function.update_self]
  unfold handleAt entryCluster rd16 rd32
  rw [hzero 20 (by omega) (by omega), hzero 21 (by omega) (by omega),
    hzero 26 (by omega) (by omega), hzero 27 (by omega) (by omega),
    hzero 28 (by omega) (by omega), hzero 29 (by omega) (by omega), hzero 30 (by omega) (by omega),
    hzero 31 (by omega) (by omega), attr_newEntry]
  simp [emptyAt]

theorem classify_newEntry (h0 : name.getD 0 0 ≠ 0)
    (he5 : name.getD 0 0 ≠ 0xe5) : classify (entryAt (newEntry b o name 0x20) o) = .live := by
  have hfirst : entryAt (newEntry b o name 0x20) o 0 = name.getD 0 0 :=
    (entry_newEntry (by omega)).trans (if_pos (by omega))
  unfold classify
  rw [hfirst, attr_newEntry, if_neg h0, if_neg he5]
  rfl

theorem Slot.free_iff : x.free = true ↔ classify x.entry = .fin ∨ classify x.entry = .deleted := by
  unfold Slot.free classify
  rw [← entry_zero, decide_eq_true_iff]
  by_cases h0 : x.entry 0 = 0
  · rw [if_pos h0]
    simp [h0]
  · rw [if_neg h0]
    by_cases h5 : x.entry 0 = 0xe5
    · rw [if_pos h5]
      simp [h5]
    · rw [if_neg h5]
      split
      · simp [h0, h5]
      · split <;> simp [h0, h5]

theorem edits_newEntry (p : Spot) (v : Volume) (name : List UInt8) :
    Edits p v (withSlot v (p, v p.sec) name) :=
  edits_update fun o ho => newEntry_of_apart (by
    dsimp only
    omega)

/-- A file is made in the first free slot of a directory, where no long name is left over: nothing else
answers to its name. -/
theorem Tree.made (t : Tree g v cat) (ok : g.Ok) (he : EntryOf g cat d i p)
    (hfree : Slot.free (p, v p.sec) = true)
    (hfirst : ∀ k y, k < i → (slots g v (cat.chain d))[k]? = some y → y.free = false)
    (h0 : name.getD 0 0 ≠ 0) (he5 : name.getD 0 0 ≠ 0xe5)
    (hlong : ∀ junk, longName (slots g v (cat.chain d)) junk i = [])
    {n : List UInt8} (hn : folded (shortName (entryAt (newEntry (v p.sec) p.off name 0x20) p.off)) =
      folded n)
    (hdot : ¬Dotted n) (habsent : ∀ junk k y, ¬AnswersAt (slots g v (cat.chain d)) junk k y n) :
    Tree g (withSlot v (p, v p.sec) name) (cat.add (emptyAt p.sec p.off) []) ∧
      (∀ k, (cat.handle k).isDir = true → ∀ m y,
        (slots g (withSlot v (p, v p.sec) name) (cat.chain k))[m]? = some y → (k = d → m ≠ i) →
          ∃ x, (slots g v (cat.chain k))[m]? = some x ∧ ∀ junk name',
            AnswersAt (slots g (withSlot v (p, v p.sec) name) (cat.chain k)) junk m y name' →
              AnswersAt (slots g v (cat.chain k)) junk m x name') ∧
      (∀ k, (cat.handle k).isDir = true → ∀ junk m x name',
        AnswersAt (slots g v (cat.chain k)) junk m x name' → ∃ y,
          AnswersAt (slots g (withSlot v (p, v p.sec) name) (cat.chain k)) junk m y name' ∧
            y.handle = x.handle ∧ x.handle ≠ emptyAt p.sec p.off) ∧
      ∃ y, y.handle = emptyAt p.sec p.off ∧ ∀ junk,
        AnswersAt (slots g (withSlot v (p, v p.sec) name) (cat.chain d)) junk i y n ∧
        ∀ m y', AnswersAt (slots g (withSlot v (p, v p.sec) name) (cat.chain d)) junk i y' m →
          folded m = folded n := by
  have hedits := edits_newEntry p v name
  obtain ⟨hcd, hin, hmod, hlt⟩ := he.spec
  have hpos : p.sec ≠ 0 := by
    have hle := clusSector_data ok ((t.wf.chained d).valid _ hcd)
    have hpos := ok.firstData_pos
    have hlo := hin.1
    omega
  have hself : withSlot v (p, v p.sec) name p.sec = newEntry (v p.sec) p.off name 0x20 :=
    Function.update_self ..
  have hlive := classify_newEntry (b := v p.sec) (o := p.off) h0 he5
  -- no file of the catalog has the slot
  have hother : ∀ k, (cat.handle k).dirSec ≠ 0 →
      ¬((cat.handle k).dirSec = p.sec ∧ (cat.handle k).dirOff = p.off) := by
    rintro k hk ⟨hsec, hoff⟩
    have hl := t.wf.live k hk
    rw [hsec, hoff] at hl
    rcases Slot.free_iff.1 hfree with hf | hf <;> rw [Slot.entry, hl] at hf <;> cases hf
  have hchain : ∀ k, ∀ c ∈ cat.chain k, entry g (withSlot v (p, v p.sec) name) c = entry g v c :=
    fun k c hc => hedits.entry ok t.wf he ((t.wf.chained k).valid c hc).2
  have hcarries : Carries cat (cat.add (emptyAt p.sec p.off) []) some :=
    ⟨fun _ _ => rfl, fun _ _ => rfl, fun _ _ => List.Subset.refl _⟩
  have hdirs : DirEdits g cat p v (withSlot v (p, v p.sec) name) := hedits.dirs
  have hchanges := hdirs.changes ok t.wf he
  have hx := he.slot (v := v)
  have hy := he.slot (v := withSlot v (p, v p.sec) name)
  have hentry : Slot.entry (p, withSlot v (p, v p.sec) name p.sec) =
      entryAt (newEntry (v p.sec) p.off name 0x20) p.off := by
    unfold Slot.entry
    rw [hself]
  have hbx : Slot.Breaks (p, v p.sec) := by
    unfold Slot.Breaks
    rcases Slot.free_iff.1 hfree with hf | hf <;> rw [hf] <;> nofun
  have hby : Slot.Breaks (p, withSlot v (p, v p.sec) name p.sec) := by
    unfold Slot.Breaks
    rw [hentry, hlive]
    nofun
  -- the new entry answers to its name alone, and what answered before does not
  have hnew : ∀ junk m y, AnswersAt (slots g (withSlot v (p, v p.sec) name) (cat.chain d)) junk i y m →
      folded m = folded n := by
    intro junk m y ha
    obtain rfl := Option.some.inj (hy.symm.trans ha.at')
    rcases ha.answers with hs | ⟨hl, -⟩
    · rw [← hn, ← nameEq_iff.1 hs, hentry]
    · rw [hchanges.longName_eq hx hy hbx hby, hlong] at hl
      exact absurd rfl hl
  have hwf : WellFormed g (withSlot v (p, v p.sec) name) (cat.add (emptyAt p.sec p.off) []) := by
    refine .of_sits ?_ ?_ ?_ ?_
    · rintro (_ | k)
      · refine ⟨⟨nofun, nodup_nil, fun k c hk => ?_, nofun⟩, rfl, fun _ => Nat.zero_le _,
          fun _ => ⟨hmod, hlt⟩, fun _ => ?_, fun _ => readBack_newEntry⟩
        · cases hk
        · change classify (entryAt (withSlot v (p, v p.sec) name p.sec) p.off) = .live
          rw [hself]
          exact hlive
      · exact (t.wf.sits k).congr (hchain k) fun hk _ hlt => hedits.bytes t.wf he hk (hother k hk) hlt
    · rintro (_ | a) (_ | b) hne c hc
      · exact absurd rfl hne
      · cases hc
      · exact not_mem_nil
      · exact t.wf.apart a b (fun he => hne (congrArg some he)) c hc
    · rintro (_ | k) hk
      · exact ⟨some d, he.isDir, p.clus, hcd, hin⟩
      · obtain ⟨d', hd'⟩ := t.wf.placed k hk
        exact ⟨some d', hd'⟩
    · rintro (_ | a) (_ | b) hk hsec hoff
      · rfl
      · have hb : (cat.handle b).dirSec ≠ 0 := by
          change p.sec = (cat.handle b).dirSec at hsec
          rw [← hsec]
          exact hpos
        exact absurd ⟨hsec.symm, hoff.symm⟩ (hother b hb)
      · exact absurd ⟨hsec, hoff⟩ (hother a hk)
      · exact congrArg some (t.wf.own a b hk hsec hoff)
  refine ⟨⟨hwf, ?_, ?_, ?_, ?_, ?_⟩, fun k hk m y hy' hne => ?_, fun k hk junk m x name' ha => ?_, ?_⟩
  · obtain ⟨r, hr⟩ := t.root
    exact ⟨some r, hr⟩
  · rintro (_ | k) hk
    · cases hk
    · exact t.dirs k hk
  · rintro (_ | k) hk
    · cases hk
    · change Neat (slots g (withSlot v (p, v p.sec) name) (cat.chain k))
      by_cases hkd : k = d
      · subst hkd
        refine (t.neat k hk).changed hchanges hx hy hbx hby ?_ ?_ fun _ => .inr ⟨hlong, ?_⟩
        · rw [hentry, hlive]
          nofun
        · intro j a hj haj hf
          have hnot := hfirst j a hj haj
          rw [Slot.free_iff.2 (.inl hf)] at hnot
          cases hnot
        · intro junk j a m hj ha
          by_contra hm
          rw [Bool.not_eq_false, hentry, nameEq_iff] at hm
          exact habsent junk j a (ha.congr (hm.symm.trans hn))
      · rw [hdirs.slots_of_ne ok t.wf he hk hkd]
        exact t.neat k hk
  · rintro (_ | k) hk
    · cases hk
    · change ∀ (j : Nat) (y : Slot),
        (slots g (withSlot v (p, v p.sec) name) (cat.chain k))[j]? = some y →
          classify y.entry = .live → Accounted g _ (some k)
            (slots g (withSlot v (p, v p.sec) name) (cat.chain k)) j y
      intro j y hj hl
      by_cases hji : k = d ∧ j = i
      · obtain ⟨rfl, rfl⟩ := hji
        obtain rfl := Option.some.inj (hy.symm.trans hj)
        refine .listed none ?_ fun junk m ha hm => hdot ?_
        · exact (readBack_newEntry (v := v)).symm
        · have hf := hnew junk m _ ha
          unfold Dotted at hm ⊢
          rwa [← hf]
      · exact t.edited hdirs ok he hbx hby hk (fun hkd hm => hji ⟨hkd, hm⟩) hj hl
          (fun l hl => ⟨some l, hl⟩) fun start => hcarries.leads hk
  · obtain ⟨depth, hdepth⟩ := t.deep
    refine ⟨fun
      | none => depth d + 1
      | some k => depth k, ?_⟩
    rintro (_ | k) (_ | d') hk hw
    · cases hw.1
    · have hd' := t.wf.within_unique ok hw ⟨he.isDir, p.clus, hcd, hin⟩
      change depth d' < depth d + 1
      rw [hd']
      exact Nat.lt_succ_self _
    · cases hw.1
    · exact hdepth k d' hk hw
  · obtain ⟨x, -, hx', hans⟩ := hdirs.answersAt ok t.wf he hbx hby hk hne hy'
    exact ⟨x, hx', hans⟩
  · have hne : ¬(k = d ∧ m = i) := by
      rintro ⟨rfl, rfl⟩
      have hl := ha.live
      rw [← Option.some.inj (hx.symm.trans ha.at')] at hl
      rcases Slot.free_iff.1 hfree with hf | hf <;> rw [hl] at hf <;> cases hf
    obtain ⟨y, hxy, hay⟩ := hdirs.answersAt_keep ok t.wf he hbx hby hk (fun hkd hm => hne ⟨hkd, hm⟩) ha
    refine ⟨y, hay, hxy.handle_eq, fun heq => hne ?_⟩
    exact he.unique (entryOf_slot hk ha.at').1 ok t.wf (congrArg Handle.dirSec heq)
      (congrArg Handle.dirOff heq)
  · refine ⟨(p, withSlot v (p, v p.sec) name p.sec), readBack_newEntry, fun junk =>
      ⟨⟨hy, ?_, .inl ?_⟩, fun m y' => hnew junk m y'⟩⟩
    · rw [hentry]
      exact hlive
    · rw [hentry, nameEq_iff, hn]

end Making

/-! ## A directory grows -/

section Widening

variable {ι : Type} [DecidableEq ι] {g : Geo} {v v' : Volume} {cat : Catalog ι} {d : ι} {n : Nat}

@[simp] theorem Catalog.set_handle_same {cs : List Nat} :
    (cat.set d (cat.handle d) cs).handle = cat.handle := Function.update_eq_self ..

theorem slots_cleared (hclear : ∀ s, g.InClus n s → v' s = fun _ => 0) :
    ∀ y ∈ slots g v' [n], classify y.entry = .fin := by
  intro y hy
  rw [slots_eq] at hy
  obtain ⟨p, hp, rfl⟩ := mem_map.1 hy
  obtain ⟨hc, hin, -⟩ := mem_spots.1 hp
  rw [mem_singleton.1 hc] at hin
  unfold Slot.entry
  rw [hclear _ hin]
  rfl

/-- A directory with a free cluster linked behind its last one. -/
theorem Tree.widened (t : Tree g v cat) (ok : g.Ok) (hd : (cat.handle d).isDir = true)
    (hl : Links g ((cat.chain d).getD ((cat.chain d).length - 1) 0) n v v') :
    Tree g v' (cat.set d (cat.handle d) (cat.chain d ++ [n])) ∧
      slots g v' (cat.chain d ++ [n]) = slots g v (cat.chain d) ++ slots g v' [n] ∧
      ∀ k, (cat.handle k).isDir = true → k ≠ d → slots g v' (cat.chain k) = slots g v (cat.chain k) := by
  have hpos := length_pos_iff.2 (t.dirs d hd)
  have hlast : (cat.chain d)[(cat.chain d).length - 1]? =
      some ((cat.chain d).getD ((cat.chain d).length - 1) 0) := by
    rw [getD_eq_getElem _ _ (by omega), getElem?_eq_getElem (by omega)]
  obtain ⟨hgrows, -⟩ := hl.grows (t.wf.chained d) ok hlast (by omega)
  have hnot : ∀ k, n ∉ cat.chain k := fun k hk => (t.wf.chained k).used n hk hl.free
  have hentry : ∀ k, k ≠ d → ∀ c ∈ cat.chain k, entry g v' c = entry g v c := by
    intro k hk c hc
    rw [hl.entry c ((t.wf.chained k).valid c hc).2, if_neg, if_neg fun he : c = n => hnot k (he ▸ hc)]
    rintro rfl
    exact t.wf.apart k d hk _ hc (mem_of_getElem? hlast)
  have hsec : ∀ k, ∀ c ∈ cat.chain k, ∀ s, g.InClus c s → v' s = v s := by
    intro k c hc s hs
    have hv := (t.wf.chained k).valid c hc
    refine hl.rest s (InClus.not_inTable ok hv hs) fun hs' => hnot k ?_
    rwa [inClus_unique ok hl.valid hv hs' hs]
  have hbytes : ∀ k, (cat.handle k).dirSec ≠ 0 → v' (cat.handle k).dirSec = v (cat.handle k).dirSec := by
    intro k hk
    obtain ⟨d', -, c, hc, hin⟩ := t.wf.placed k hk
    exact hsec d' c hc _ hin
  have hslots : ∀ k, slots g v' (cat.chain k) = slots g v (cat.chain k) :=
    fun k => slots_congr (hsec k)
  have hgrown : slots g v' (cat.chain d ++ [n]) = slots g v (cat.chain d) ++ slots g v' [n] := by
    rw [slots_append, hslots]
  have hfin : ∀ y ∈ slots g v' [n], classify (Slot.entry y) = .fin := slots_cleared hl.cleared
  have hsub : ∀ k, cat.chain k ⊆ (cat.set d (cat.handle d) (cat.chain d ++ [n])).chain k := by
    intro k
    by_cases hk : k = d
    · subst hk
      rw [set_chain_self]
      exact subset_append_left _ _
    · rw [set_chain_of_ne hk]
      exact List.Subset.refl _
  have hmem : ∀ k c, c ∈ (cat.set d (cat.handle d) (cat.chain d ++ [n])).chain k →
      c ∈ cat.chain k ∨ k = d ∧ c = n := by
    intro k c hc
    by_cases hk : k = d
    · subst hk
      rw [set_chain_self, mem_append, mem_singleton] at hc
      exact hc.imp_right fun he => ⟨rfl, he⟩
    · rw [set_chain_of_ne hk] at hc
      exact .inl hc
  have hcarries : Carries cat (cat.set d (cat.handle d) (cat.chain d ++ [n])) id := by
    refine ⟨fun k _ => by rw [Catalog.set_handle_same]; rfl, fun k _ => ?_, fun k _ => hsub k⟩
    by_cases hk : k = d
    · rw [hk, id_eq, set_chain_self, getD_append _ _ _ _ hpos]
    · rw [id_eq, set_chain_of_ne hk]
  have hwf : WellFormed g v' (cat.set d (cat.handle d) (cat.chain d ++ [n])) := by
    refine .of_sits (fun k => ?_) (fun a b hne c hc hc' => ?_) (fun k hk => ?_) ?_
    · rw [Catalog.set_handle_same]
      by_cases hk : k = d
      · subst hk
        rw [set_chain_self]
        have hs := t.wf.sits k
        refine ⟨hgrows.chain, ?_, fun hf => ?_, hs.slot, fun h => ?_, fun h => ?_⟩
        · rw [getD_append _ _ _ _ hpos]
          exact hs.head
        · rw [hd] at hf
          cases hf
        · rw [hbytes k h]
          exact hs.live h
        · unfold readBack
          rw [hbytes k h]
          exact hs.recorded h
      · rw [set_chain_of_ne hk]
        exact (t.wf.sits k).congr (hentry k hk) fun h m _ => by rw [hbytes k h]
    · rcases hmem a c hc with ha | ⟨rfl, rfl⟩
      · rcases hmem b c hc' with hb | ⟨-, rfl⟩
        · exact t.wf.apart a b hne c ha hb
        · exact hnot a ha
      · rcases hmem b c hc' with hb | ⟨rfl, -⟩
        · exact hnot b hb
        · exact hne rfl
    · rw [Catalog.set_handle_same] at hk ⊢
      obtain ⟨d', hw⟩ := t.wf.placed k hk
      exact ⟨d', hcarries.within hw⟩
    · rw [Catalog.set_handle_same]
      exact t.wf.own
  refine ⟨⟨hwf, ?_, fun k hk => ?_, fun k hk => ?_, fun k hk => ?_,
    hcarries.deep t.wf t.deep hwf ok fun k => by rw [Catalog.set_handle_same]⟩, hgrown,
    fun k _ _ => hslots k⟩
  · rw [Catalog.set_handle_same]
    exact t.root
  · rw [Catalog.set_handle_same] at hk
    exact fun hnil => t.dirs k hk (subset_nil.1 (hnil ▸ hsub k))
  · rw [Catalog.set_handle_same] at hk
    by_cases hkd : k = d
    · subst hkd
      rw [set_chain_self, hgrown]
      exact (t.neat k hk).append hfin
    · rw [set_chain_of_ne hkd, hslots]
      exact t.neat k hk
  · rw [Catalog.set_handle_same] at hk
    intro i x hx hlive
    have hcat : ∀ l, cat.handle l = x.handle →
        ∃ l', (cat.set d (cat.handle d) (cat.chain d ++ [n])).handle l' = x.handle := by
      rw [Catalog.set_handle_same]
      exact fun l hl => ⟨l, hl⟩
    by_cases hkd : k = d
    · subst hkd
      rw [set_chain_self, hgrown] at hx ⊢
      rcases Nat.lt_or_ge i (slots g v (cat.chain k)).length with hi | hi
      · rw [getElem?_append_left hi] at hx
        refine (t.entries k hk i x hx hlive).carried rfl (fun junk name ha => ?_) hcat
          fun start => hcarries.leads hk
        exact ⟨hx, ha.live, longName_append hi.le ▸ ha.answers⟩
      · rw [getElem?_append_right hi] at hx
        rw [hfin x (mem_of_getElem? hx)] at hlive
        cases hlive
    · rw [set_chain_of_ne hkd, hslots] at hx ⊢
      exact (t.entries k hk i x hx hlive).carried rfl (fun _ _ h => h) hcat
        fun start => hcarries.leads hk

end Widening

end Verkos.Stam.Fat
