import Verkos.Stam.FatDir

/-!
# Making and emptying files

What `fat_create`, `fat_truncate` and the loop that gives a chain back do to a well-formed volume: one
statement for each, which says everything it can come to.
-/

namespace Verkos.Stam.Fat

open Verkos.Lib
open List
open Blocks (run_bind_of)

/-- The directory `fat_create` puts a file into. -/
def createDir (g : Geo) (fuel : Nat) (junk : Nat → UInt8) (v : Volume) (path : List UInt8) :
    Option Nat :=
  match parentPart (skipSlashes path) with
  | none => some g.rootClus
  | some parent =>
    (openedAt g fuel junk v parent).bind fun d => if d.isDir then some (dirStart g d) else none

/-- `fat_create` gets as far as looking for a slot: nothing has the name, the directory is `j` of the
catalog, and the last part of the path is a short name. -/
structure Makes {ι : Type} (g : Geo) (fuel : Nat) (junk : Nat → UInt8) (v : Volume)
    (cat : Catalog ι) (path : List UInt8) (j : ι) (name : List UInt8) : Prop where
  absent : openedAt g fuel junk v path = none
  isDir : (cat.handle j).isDir = true
  dir : createDir g fuel junk v path = some ((cat.chain j).getD 0 0)
  name : make83 (lastPart (skipSlashes path)) = some name

/-- The handle of a file that was just made. -/
def emptyAt (sec off : Nat) : Handle := ⟨0, 0, false, sec, off⟩

/-- The first cluster of a directory with an entry in it. -/
def withFirst (g : Geo) (v : Volume) (c : Nat) (name : List UInt8) : Volume :=
  Function.update v (clusSector g c) (newEntry (v (clusSector g c)) 0 name 0x20)

/-- The sector of a slot with an entry in it. -/
def withSlot (v : Volume) (x : Slot) (name : List UInt8) : Volume :=
  Function.update v x.1.sec (newEntry x.2 x.1.off name 0x20)

/-- What `fat_create` can come to. -/
inductive Created {ι : Type} (g : Geo) (fuel : Nat) (junk : Nat → UInt8) (v : Volume)
    (cat : Catalog ι) (path : List UInt8) : Option Handle → Volume → Prop where
  | refused : (∀ j name, ¬Makes g fuel junk v cat path j name) →
      Created g fuel junk v cat path none v
  | full {j : ι} {name : List UInt8} : Makes g fuel junk v cat path j name →
      freeSlot (slots g v (cat.chain j)) = none → Full g v → Created g fuel junk v cat path none v
  | reused {j : ι} {name : List UInt8} {x : Slot} : Makes g fuel junk v cat path j name →
      freeSlot (slots g v (cat.chain j)) = some x →
      Created g fuel junk v cat path (some (emptyAt x.1.sec x.1.off)) (withSlot v x name)
  | grown {j : ι} {name : List UInt8} {n : Nat} {v₁ : Volume} :
      Makes g fuel junk v cat path j name → freeSlot (slots g v (cat.chain j)) = none →
      Links g ((cat.chain j).getD ((cat.chain j).length - 1) 0) n v v₁ →
      Created g fuel junk v cat path (some (emptyAt (clusSector g n) 0)) (withFirst g v₁ n name)

section Create

variable {ι : Type} {g : Geo} {v : Volume} {cat : Catalog ι} {fuel : Nat} {junk : Nat → UInt8}

/-- `fat_create` once it knows the directory and the short name. -/
def createIn (g : Geo) (fuel : Nat) : Option Nat → Option (List UInt8) → Io (Option Handle)
  | none, _ => pure none
  | some _, none => pure none
  | some dir, some name => do
    match ← dirWalk g freeBody fuel dir dir with
    | .failed => pure none
    | .stopped (at', b) =>
      Blocks.writing .data at'.sec (newEntry b at'.off name 0x20) none
        (.done (some ⟨0, 0, false, at'.sec, at'.off⟩))
    | .ended last =>
      let nc ← linkNew g last
      if nc = 0 then pure none
      else
        Blocks.reading (clusSector g nc) none fun b =>
          Blocks.writing .data (clusSector g nc) (newEntry b 0 name 0x20) none
            (.done (some ⟨0, 0, false, clusSector g nc, 0⟩))

section

variable (rt : Rooted g v cat) (wf : WellFormed g v cat) (ok : g.Ok) (hfuel : g.totalClus ≤ fuel)
include rt wf ok hfuel

theorem Rooted.createDir_known {path : List UInt8} {dir : Nat}
    (hd : createDir g fuel junk v path = some dir) :
    ∃ j, (cat.handle j).isDir = true ∧ dir = (cat.chain j).getD 0 0 := by
  unfold createDir at hd
  split at hd
  · obtain ⟨j, hj, hstart⟩ := rt.knows_root.dir wf rt rfl
    have hroot : dirStart g (rootHandle g) = g.rootClus := by
      have h2 := ok.root.1
      unfold dirStart rootHandle
      rw [if_pos (show g.rootClus ≠ 0 by omega)]
    exact ⟨j, hj, by rw [← hstart, hroot]; exact (Option.some.inj hd).symm⟩
  · rename_i parent _
    obtain ⟨d, ho, hd⟩ := Option.bind_eq_some_iff.1 hd
    split at hd
    · rename_i hdir
      obtain ⟨j, hj, hstart⟩ := ((rt.run_fatOpen wf ok hfuel parent).2 d ho).dir wf rt hdir
      exact ⟨j, hj, by rw [← hstart]; exact (Option.some.inj hd).symm⟩
    · cases hd

theorem Rooted.run_fatCreate_eq (path : List UInt8) : (fatCreate g fuel junk path).run v =
      match openedAt g fuel junk v path with
      | some _ => some (none, v)
      | none => (createIn g fuel (createDir g fuel junk v path)
          (make83 (lastPart (skipSlashes path)))).run v := by
  unfold fatCreate createDir
  rw [run_bind_of (rt.run_fatOpen wf ok hfuel path).1]
  cases openedAt g fuel junk v path with
  | some h => rfl
  | none =>
    dsimp only
    cases parentPart (skipSlashes path) with
    | none => rfl
    | some parent =>
      dsimp only
      rw [run_bind_of (rt.run_fatOpen wf ok hfuel parent).1]
      cases openedAt g fuel junk v parent with
      | none | some d => rfl

theorem Rooted.run_fatCreate (path : List UInt8) :
    ∃ r v', (fatCreate g fuel junk path).run v = some (r, v') ∧
      Created g fuel junk v cat path r v' := by
  rw [rt.run_fatCreate_eq wf ok hfuel]
  cases ho : openedAt g fuel junk v path with
  | some h =>
    refine ⟨none, v, rfl, .refused fun j name hm => ?_⟩
    rw [hm.absent] at ho
    cases ho
  | none =>
    cases hd : createDir g fuel junk v path with
    | none =>
      refine ⟨none, v, rfl, .refused fun j name hm => ?_⟩
      rw [hm.dir] at hd
      cases hd
    | some dir =>
      cases hn : make83 (lastPart (skipSlashes path)) with
      | none =>
        refine ⟨none, v, rfl, .refused fun j name hm => ?_⟩
        rw [hm.name] at hn
        cases hn
      | some name =>
        obtain ⟨j, hj, rfl⟩ := rt.createDir_known wf ok hfuel hd
        have hm : Makes g fuel junk v cat path j name := ⟨ho, hj, hd, hn⟩
        have hc := wf.chained j
        have hlen := hc.length_lt ok
        have hne := rt.dirs j hj
        dsimp only
        rw [createIn, run_bind_of (hc.run_freeWalk ok (by omega) hne)]
        cases hfree : freeSlot (slots g v (cat.chain j)) with
        | some x => exact ⟨_, _, rfl, .reused hm hfree⟩
        | none =>
          have hpos := length_pos_iff.2 hne
          have hvalid := hc.valid _ (getD_mem (show (cat.chain j).length - 1 <
            (cat.chain j).length by omega))
          dsimp only
          rcases run_linkNew ok hvalid v with ⟨hfull, hrun⟩ | ⟨n, v1, hrun, hl⟩
          · rw [run_bind_of hrun]
            exact ⟨_, _, rfl, .full hm hfree hfull⟩
          · have hn0 : n ≠ 0 := by
              have h2 := hl.valid.1
              omega
            rw [run_bind_of hrun, if_neg hn0]
            exact ⟨_, _, rfl, .grown hm hfree hl⟩

end

end Create

/-! ## An entry in a free slot -/

section Entry

variable {g : Geo} {v : Volume} {x : Slot} {name : List UInt8}

theorem freeSlot_spec {cs : List Nat} (h : freeSlot (slots g v cs) = some x) :
    x.free = true ∧ x.1.clus ∈ cs ∧ g.InClus x.1.clus x.1.sec ∧ x.1.off % 32 = 0 ∧
      x.1.off < 512 ∧ x.2 = v x.1.sec := by
  have hfree := find?_some h
  obtain ⟨c, hc, s, hs, o, ho, rfl⟩ := mem_slots.1 (mem_of_find?_eq_some h)
  obtain ⟨hmod, hlt⟩ := mem_offsets.1 ho
  exact ⟨hfree, hc, inClus_of_lt hs, hmod, hlt, rfl⟩

theorem newEntry_of_apart {b : Sector} {o k : Nat} {attr : UInt8} (h : k < o ∨ o + 32 ≤ k) :
    newEntry b o name attr k = b k := by
  unfold newEntry
  rw [if_neg (by omega)]

theorem entry_update (ok : g.Ok) {c s : Nat} (hc : g.Valid c) (hs : g.InClus c s) (b : Sector)
    {c' : Nat} (hc' : c' < g.totalClus) : entry g (Function.update v s b) c' = entry g v c' := by
  refine entry_of_same ok hc' fun s' hs' => Function.update_of_ne ?_ ..
  rintro rfl
  exact InClus.not_inTable ok hc hs hs'

end Entry

/-! ## Giving clusters back -/

/-- The clusters of a chain are free, and nothing outside the table changed. -/
structure Frees (g : Geo) (cs : List Nat) (v v' : Volume) : Prop where
  entry : ∀ c, c < g.totalClus → entry g v' c = if c ∈ cs then 0 else entry g v c
  rest : ∀ s, ¬g.InTable s → v' s = v s

section Free

variable {g : Geo} {v v' : Volume} {cs : List Nat} {c fuel : Nat} {f : Handle}

theorem Chain.tail (h : Chain g v (c :: cs)) : Chain g v cs where
  valid c' hc' := h.valid c' (mem_cons_of_mem _ hc')
  nodup := (nodup_cons.1 h.nodup).2
  links k c' hk := h.links (k + 1) c' hk
  used c' hc' := h.used c' (mem_cons_of_mem _ hc')

theorem run_freeChain (ok : g.Ok) : ∀ (cs : List Nat) {fuel : Nat} {v : Volume}, Chain g v cs →
    cs.length < fuel → ∃ v', (freeChain g fuel (cs.getD 0 0)).run v = some ((), v') ∧
      Frees g cs v v'
  | [], n + 1, v, _, _ => ⟨v, rfl, ⟨fun _ _ => by rw [if_neg not_mem_nil], fun _ _ => rfl⟩⟩
  | c :: cs, n + 1, v, h, hf => by
    have hc := h.valid c mem_cons_self
    have hnot := (nodup_cons.1 h.nodup).1
    have hc0 : c ≠ 0 := by
      have h2 := hc.1
      omega
    obtain ⟨v1, hset, hsets⟩ := run_fatSet ok hc 0 v
    have hkeep : ∀ c', c' < g.totalClus → c' ≠ c → entry g v1 c' = entry g v c' := by
      intro c' hlt hne
      rw [hsets.entry c' hlt, if_neg hne]
    have htail : Chain g v1 cs := h.tail.congr fun c' hc' =>
      hkeep c' (h.tail.valid c' hc').2 fun he => hnot (he ▸ hc')
    rw [length_cons] at hf
    obtain ⟨v', hrun, hfrees⟩ := run_freeChain ok cs htail (show cs.length < n by omega)
    refine ⟨v', ?_, fun c' hlt => ?_, fun s hs => ?_⟩
    · have hnext : next g v c = cs.getD 0 0 := h.links 0 c rfl
      rw [getD_cons_zero, freeChain, if_neg hc0, run_bind_of run_fatNext,
        run_bind_of hset, if_pos rfl, hnext, hrun]
    · rw [hfrees.entry c' hlt]
      by_cases hin : c' ∈ cs
      · rw [if_pos hin, if_pos (mem_cons_of_mem _ hin)]
      · rw [if_neg hin]
        by_cases he : c' = c
        · rw [he, if_pos mem_cons_self, hsets.entry c hc.2, if_pos rfl]
          rfl
        · rw [hkeep c' hlt he, if_neg fun hm => (mem_cons.1 hm).elim he hin]
    · rw [hfrees.rest s hs, hsets.rest s hs]

/-- `fat_truncate` of a file. -/
theorem Chain.run_fatTruncate (h : Chain g v cs) (ok : g.Ok) (hf : g.totalClus ≤ fuel)
    (hdir : f.isDir = false) (hsec : f.dirSec ≠ 0) (hhead : f.cluster = cs.getD 0 0) :
    ∃ v1, Frees g cs v v1 ∧ (fatTruncate g fuel f).run v =
      some ((true, { f with cluster := 0, size := 0 }),
        Function.update v1 f.dirSec
          (writtenBack (v1 f.dirSec) { f with cluster := 0, size := 0 })) := by
  have hlen := h.length_lt ok
  obtain ⟨v1, hrun, hfrees⟩ := run_freeChain ok cs h (show cs.length < fuel by omega)
  refine ⟨v1, hfrees, ?_⟩
  have hsec' : ({ f with cluster := 0, size := 0 } : Handle).dirSec ≠ 0 := hsec
  unfold fatTruncate
  rw [if_neg (by rw [hdir]; simpa using hsec), hhead, run_bind_of hrun]
  dsimp only
  rw [run_bind_of (run_dirWriteback hsec')]
  rfl

end Free

end Verkos.Stam.Fat
