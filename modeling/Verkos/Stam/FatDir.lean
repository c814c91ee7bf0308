import Mathlib.Data.List.Perm.Subperm
import Verkos.Stam.Catalog
import Verkos.Stam.FatWalk

/-!
# Names in directories

`dir_find` gives the first live entry that answers to a name, and `fat_create` takes the first slot
that is free. On a volume whose catalog has everything the directories name, a path leads from
directory to directory of the catalog, and looking it up changes nothing.
-/

namespace Verkos.Stam.Fat

open Verkos.Lib
open List

/-- The first live entry that answers to a name, with what is put together before the entries. -/
def lookIn (name : List UInt8) : List Slot → Lfn → Option Slot
  | [], _ => none
  | x :: xs, l =>
    match classify x.entry with
    | .fin => none
    | .deleted => lookIn name xs l.forget
    | .long => lookIn name xs (l.part x.entry)
    | .label => lookIn name xs l.forget
    | .live => if answers name l x.entry then some x else lookIn name xs l.forget

/-- An entry that `fat_create` may take: behind the end, or deleted. -/
def Slot.free (x : Slot) : Bool := x.2 x.1.off = 0x00 ∨ x.2 x.1.off = 0xe5

def freeSlot (xs : List Slot) : Option Slot := xs.find? Slot.free

/-- What an entry says of its file. -/
def Slot.handle (x : Slot) : Handle := handleAt x.1 x.entry

section Directory

variable {g : Geo} {v : Volume} {cs : List Nat} {fuel : Nat} {junk : Nat → UInt8}
  {name : List UInt8} {x : Slot} {xs ys : List Slot} {l : Lfn}

theorem found_findBody (xs : List Slot) (l : Lfn) :
    found (walkSlots (findBody name) xs l).walk = (lookIn name xs l).map Slot.handle := by
  induction xs generalizing l with
  | nil => rfl
  | cons x xs ih =>
    have hentry : entryAt x.2 x.1.off = x.entry := rfl
    rw [walkSlots, lookIn, findBody, hentry]
    cases classify x.entry with
    | fin => rfl
    | deleted | long | label => exact ih _
    | live =>
      dsimp only
      cases answers name l x.entry with
      | true => rfl
      | false => exact ih _

theorem Chain.run_dirFind (h : Chain g v cs) (hf : cs.length < fuel) :
    (dirFind g fuel junk (cs.getD 0 0) name).run v =
      some ((lookIn name (slots g v cs) ⟨junk, 0⟩).map Slot.handle, v) := by
  unfold dirFind
  rw [Blocks.run_bind_of (h.run_dirWalk hf _), ← found_findBody]
  cases walkSlots (findBody name) (slots g v cs) ⟨junk, 0⟩ with
  | next st | stop a => rfl

theorem lookIn_mem : ∀ {xs : List Slot} {l : Lfn}, lookIn name xs l = some x → x ∈ liveSlots xs
  | y :: ys, l, h => by
    rw [lookIn] at h
    rw [liveSlots]
    cases hc : classify y.entry with
    | fin =>
      rw [hc] at h
      cases h
    | deleted | long | label =>
      rw [hc] at h
      exact lookIn_mem h
    | live =>
      rw [hc] at h
      dsimp only at h
      split at h
      · rw [Option.some.inj h]
        exact mem_cons_self
      · exact mem_cons_of_mem _ (lookIn_mem h)

theorem liveSlots_sublist : ∀ xs : List Slot, (liveSlots xs).Sublist xs
  | [] => .slnil
  | x :: xs => by
    rw [liveSlots]
    cases classify x.entry with
    | fin => exact nil_sublist _
    | deleted | long | label => exact (liveSlots_sublist xs).cons x
    | live => exact (liveSlots_sublist xs).cons_cons x

theorem mem_slots : x ∈ slots g v cs ↔ ∃ c ∈ cs, ∃ s < g.secPerClus, ∃ o ∈ offsets,
    x = (⟨c, clusSector g c + s, o⟩, v (clusSector g c + s)) := by
  unfold slots clusterSlots sectorSlots
  constructor
  · intro h
    obtain ⟨c, hc, h⟩ := mem_flatMap.1 h
    obtain ⟨s, hs, h⟩ := mem_flatMap.1 h
    obtain ⟨o, ho, rfl⟩ := mem_map.1 h
    exact ⟨c, hc, s, mem_range.1 hs, o, ho, rfl⟩
  · rintro ⟨c, hc, s, hs, o, ho, rfl⟩
    exact mem_flatMap.2 ⟨c, hc, mem_flatMap.2 ⟨s, mem_range.2 hs,
      mem_map.2 ⟨o, ho, rfl⟩⟩⟩

theorem mem_offsets {o : Nat} : o ∈ offsets ↔ o % 32 = 0 ∧ o < 512 := by
  unfold offsets
  rw [mem_map]
  constructor
  · rintro ⟨k, hk, rfl⟩
    have hlt := mem_range.1 hk
    omega
  · rintro ⟨hmod, hlt⟩
    exact ⟨o / 32, mem_range.2 (by omega), by omega⟩

end Directory

/-! ## A slot to write an entry to -/

section Free

variable {g : Geo} {v : Volume} {cs : List Nat} {fuel c : Nat} {xs : List Slot}

theorem walkSlots_freeBody (xs : List Slot) (c : Nat) : walkSlots freeBody xs c =
    match freeSlot xs with
    | some x => .stop x
    | none => .next (((xs.getLast?).map fun x => x.1.clus).getD c) := by
  induction xs generalizing c with
  | nil => rfl
  | cons x xs ih =>
    rw [walkSlots, freeBody, freeSlot, find?_cons]
    by_cases hfree : x.2 x.1.off = 0x00 ∨ x.2 x.1.off = 0xe5
    · have hf : x.free = true := decide_eq_true hfree
      rw [hf, if_neg (by tauto)]
    · have hf : x.free = false := decide_eq_false hfree
      rw [hf, if_pos (by tauto)]
      dsimp only
      rw [ih, freeSlot]
      cases xs.find? Slot.free with
      | some y => rfl
      | none =>
        cases xs with
        | nil => rfl
        | cons y ys =>
          dsimp only
          rw [getLast?_cons_cons]
          cases h : (y :: ys).getLast? with
          | none => simp at h
          | some z => rfl

theorem getLast_slots (hspc : 0 < g.secPerClus) (hcs : cs ≠ []) :
    ((slots g v cs).getLast?).map (fun x => x.1.clus) = some (cs.getD (cs.length - 1) 0) := by
  obtain ⟨init, c, rfl⟩ := (eq_nil_or_concat' cs).resolve_left hcs
  obtain ⟨n, hn⟩ := Nat.exists_eq_succ_of_ne_zero (Nat.pos_iff_ne_zero.1 hspc)
  have hoff : offsets = (List.range 15).map (32 * ·) ++ [480] := rfl
  have hslots : ∃ ys, slots g v (init ++ [c]) =
      ys ++ [(⟨c, clusSector g c + n, 480⟩, v (clusSector g c + n))] := by
    rw [slots, flatMap_append, flatMap_singleton, clusterSlots, hn, range_succ,
      flatMap_append, flatMap_singleton, sectorSlots, hoff, map_append,
      map_singleton, ← append_assoc, ← append_assoc]
    exact ⟨_, rfl⟩
  obtain ⟨ys, hys⟩ := hslots
  rw [hys, getLast?_concat, Option.map_some, getD_append_right _ _ _ _ (by simp)]
  simp

/-- The walk of `fat_create` finds a free slot, or has come to the last cluster. -/
theorem Chain.run_freeWalk (h : Chain g v cs) (ok : g.Ok) (hf : cs.length < fuel) (hcs : cs ≠ []) :
    (dirWalk g freeBody fuel (cs.getD 0 0) (cs.getD 0 0)).run v =
      some (match freeSlot (slots g v cs) with
        | some x => .stopped x
        | none => .ended (cs.getD (cs.length - 1) 0), v) := by
  rw [h.run_dirWalk hf, walkSlots_freeBody, getLast_slots ok.perClus hcs]
  cases freeSlot (slots g v cs) with
  | some x | none => rfl

theorem Chain.length_lt (h : Chain g v cs) (ok : g.Ok) : cs.length < g.totalClus := by
  have hroot := ok.root
  -- zero is no cluster, so it makes one more
  have hzero : 0 ∉ cs := fun hz => by
    have h2 := (h.valid 0 hz).1
    omega
  have hsub : 0 :: cs ⊆ List.range g.totalClus := by
    intro c hc
    rw [mem_range]
    rcases mem_cons.1 hc with rfl | hc
    · omega
    · exact (h.valid c hc).2
  have hle := ((nodup_cons.2 ⟨hzero, h.nodup⟩).subperm hsub).length_le
  rwa [length_range] at hle

end Free

/-! ## Paths -/

/-- A handle the catalog has, or one for a directory it has: `.` and `..` are entries too. -/
def Catalog.Knows {ι : Type} (g : Geo) (cat : Catalog ι) (h : Handle) : Prop :=
  (∃ i, cat.handle i = h) ∨
    h.isDir = true ∧ ∃ j, (cat.handle j).isDir = true ∧ dirStart g h = (cat.chain j).getD 0 0

/-- The catalog has the root and everything its directories name. -/
structure Rooted {ι : Type} (g : Geo) (v : Volume) (cat : Catalog ι) : Prop where
  root : ∃ r, cat.handle r = rootHandle g
  dirs : ∀ i, (cat.handle i).isDir = true → cat.chain i ≠ []
  covers : ∀ d, (cat.handle d).isDir = true → ∀ x ∈ liveSlots (slots g v (cat.chain d)),
    cat.Knows g x.handle

/-- What `fat_open` comes to from a directory on. -/
def opened (g : Geo) (fuel : Nat) (junk : Nat → UInt8) (v : Volume) (parts : List (List UInt8))
    (cur : Handle) : Option Handle :=
  ((openFrom g fuel junk parts cur).run v).bind fun r => r.1

/-- What `fat_open` comes to. -/
def openedAt (g : Geo) (fuel : Nat) (junk : Nat → UInt8) (v : Volume) (path : List UInt8) :
    Option Handle :=
  opened g fuel junk v (components (skipSlashes path) []) (rootHandle g)

section Paths

variable {ι : Type} {g : Geo} {v : Volume} {cat : Catalog ι} {fuel : Nat} {junk : Nat → UInt8}
  {h cur : Handle} {path : List UInt8}

theorem Catalog.Knows.dir (hk : cat.Knows g h) (wf : WellFormed g v cat) (rt : Rooted g v cat)
    (hdir : h.isDir = true) :
    ∃ j, (cat.handle j).isDir = true ∧ dirStart g h = (cat.chain j).getD 0 0 := by
  rcases hk with ⟨i, rfl⟩ | ⟨-, hj⟩
  · refine ⟨i, hdir, ?_⟩
    have hne : (cat.chain i).getD 0 0 ≠ 0 := fun hz =>
      rt.dirs i hdir (length_eq_zero_iff.1 (Nat.le_zero.1 ((wf.chained i).getD_zero.1 hz)))
    rw [dirStart, wf.head i, if_pos hne]
  · exact hj

theorem Rooted.knows_root (rt : Rooted g v cat) : cat.Knows g (rootHandle g) := .inl rt.root

/-- Looking a name up in a directory the catalog knows. -/
theorem Rooted.run_dirFind (rt : Rooted g v cat) (wf : WellFormed g v cat) (ok : g.Ok)
    (hfuel : g.totalClus ≤ fuel) (hk : cat.Knows g cur) (hdir : cur.isDir = true)
    (name : List UInt8) : ∃ j, (cat.handle j).isDir = true ∧
      dirStart g cur = (cat.chain j).getD 0 0 ∧ (dirFind g fuel junk (dirStart g cur) name).run v =
        some ((lookIn name (slots g v (cat.chain j)) ⟨junk, 0⟩).map Slot.handle, v) ∧
      ∀ x, lookIn name (slots g v (cat.chain j)) ⟨junk, 0⟩ = some x → cat.Knows g x.handle := by
  obtain ⟨j, hj, hstart⟩ := hk.dir wf rt hdir
  have hc := wf.chained j
  have hlen := hc.length_lt ok
  refine ⟨j, hj, hstart, ?_, fun x hx => rt.covers j hj x (lookIn_mem hx)⟩
  rw [hstart]
  exact hc.run_dirFind (by omega)

/-- Opening a path reads the volume and finds something the catalog knows. -/
theorem Rooted.run_openFrom (rt : Rooted g v cat) (wf : WellFormed g v cat) (ok : g.Ok)
    (hfuel : g.totalClus ≤ fuel) : ∀ (parts : List (List UInt8)) {cur : Handle}, cat.Knows g cur →
        (openFrom g fuel junk parts cur).run v = some (opened g fuel junk v parts cur, v) ∧
        ∀ h, opened g fuel junk v parts cur = some h → cat.Knows g h
  | [], cur, hk => by
    refine ⟨rfl, fun h hh => ?_⟩
    rw [← Option.some.inj hh]
    exact hk
  | part :: parts, cur, hk => by
    unfold opened
    rw [openFrom]
    by_cases hdir : cur.isDir = false
    · rw [if_pos hdir]
      exact ⟨rfl, nofun⟩
    · rw [if_neg hdir]
      obtain ⟨j, -, -, hrun, hknows⟩ :=
        @Rooted.run_dirFind _ g v cat fuel junk _ rt wf ok hfuel hk (Bool.eq_true_of_not_eq_false hdir) part
      rw [Blocks.run_bind_of hrun]
      cases hl : lookIn part (slots g v (cat.chain j)) ⟨junk, 0⟩ with
      | none => exact ⟨rfl, nofun⟩
      | some x => exact rt.run_openFrom wf ok hfuel parts (hknows x hl)

theorem Rooted.run_fatOpen (rt : Rooted g v cat) (wf : WellFormed g v cat) (ok : g.Ok)
    (hfuel : g.totalClus ≤ fuel) (path : List UInt8) :
    (fatOpen g fuel junk path).run v = some (openedAt g fuel junk v path, v) ∧
      ∀ h, openedAt g fuel junk v path = some h → cat.Knows g h :=
  rt.run_openFrom wf ok hfuel _ rt.knows_root

end Paths

end Verkos.Stam.Fat
