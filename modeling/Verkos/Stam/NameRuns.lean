import Verkos.Stam.FatCalls
import Verkos.Stam.TreeFiles

/-!
# Names over runs of calls

A name that `fat_create` or `fat_mkdir` makes is found again, and a name that `fat_unlink` takes away
stays away. Neither holds of every name and of every run: `make_83` lets names through that the entry
does not keep, and a slot that is used again can be behind what is left of a long name. `FatCall.Sound`
says of a call that it does none of that, and then both hold in every run on a volume that is a tree.
-/

namespace Verkos.Stam.Fat

open Verkos.Lib
open Option (some.inj map_eq_some_iff bind_eq_some_iff bind_some)

/-- A call that leaves the directories in order. A name that is made is kept as it is, what is unlinked
is not `.` or `..`, and what is written to is a file as it is on the volume now. -/
def FatCall.Sound (g : Geo) (fuel : Nat) (v : Volume) (junk : Nat → UInt8) : FatCall → Prop
  | .create path | .mkdir path => openedAt g fuel junk v path = none →
    createDir g fuel junk v path ≠ none → KeepsName g fuel junk v path
  | .unlink path => ∀ ps part, components (skipSlashes path) [] = ps ++ [part] → ¬Dotted part
  | .writes f _ _ | .truncate f => ∃ path junk', openedAt g fuel junk' v path = some f
  | .sync => g.fsinfoSec < g.fatStart
  | .opens _ | .reads _ _ _ | .dirent _ _ => True

/-- The name a call may make, and the first cluster of the directory it is made in. -/
def FatCall.made (g : Geo) (fuel : Nat) (v : Volume) (junk : Nat → UInt8) :
    FatCall → Option (Nat × List UInt8)
  | .create path | .mkdir path =>
    (createDir g fuel junk v path).map fun start => (start, lastPart (skipSlashes path))
  | _ => none

section Stepping

variable {ι : Type} {g : Geo} {v v' : Volume} {cat : Catalog ι} {fuel : Nat} {junk : Nat → UInt8}
  {path : List UInt8} {c : Issued}

theorem run_fatSync {r : Unit × Volume} (h : (fatSync g).run v = some r) :
    ∀ s, s ≠ g.fsinfoSec → r.2 s = v s := by
  intro s hs
  unfold fatSync at h
  split at h
  · rw [← some.inj h]
  · rw [Blocks.run_reading] at h
    split at h
    · rw [← some.inj h]
    · rw [Blocks.run_writing] at h
      rw [← some.inj h]
      exact Function.update_of_ne hs ..

theorem Tree.create_idle (t : Tree g v cat) (ok : g.Ok) (hfuel : g.totalClus ≤ fuel)
    (h : openedAt g fuel junk v path = none → createDir g fuel junk v path = none) :
    (fatCreate g fuel junk path).run v = some (none, v) := by
  rw [t.rooted.run_fatCreate_eq t.wf ok hfuel]
  cases ho : openedAt g fuel junk v path with
  | some f => rfl
  | none =>
    rw [h ho]
    rfl

/-- One call that leaves the directories in order. -/
theorem Tree.step (t : Tree g v cat) (ok : g.Ok) (hfuel : g.totalClus ≤ fuel)
    (hs : c.1.Sound g fuel v c.2) (h : fatStep g fuel v c = some v') :
    ∃ (κ : Type) (cat' : Catalog κ), Tree g v' cat' ∧
      Evolves g v cat v' cat' (c.1.made g fuel v c.2) := by
  have hsame : v' = v → ∃ (κ : Type) (cat' : Catalog κ), Tree g v' cat' ∧
      Evolves g v cat v' cat' (c.1.made g fuel v c.2) := by
    rintro rfl
    exact ⟨ι, cat, t, Evolves.refl⟩
  obtain ⟨call, junk⟩ := c
  cases call with
  | opens path =>
    obtain ⟨a, hrun⟩ := run_dropped h
    exact hsame ((reads_openFrom ..).run hrun)
  | reads f off len =>
    obtain ⟨a, hrun⟩ := run_dropped h
    exact hsame ((reads_fatRead ..).run hrun)
  | dirent dir index =>
    obtain ⟨a, hrun⟩ := run_dropped h
    exact hsame ((reads_fatDirent ..).run hrun)
  | create path =>
    obtain ⟨r, hrun⟩ := run_dropped h
    by_cases hidle : openedAt g fuel junk v path = none → createDir g fuel junk v path = none
    · have hr := (t.create_idle ok hfuel hidle).symm.trans hrun
      exact hsame (Prod.mk.inj (some.inj hr)).2.symm
    · obtain ⟨ho, hd⟩ := Classical.not_imp.1 hidle
      obtain ⟨κ, cat', t', hev, -⟩ := t.run_fatCreate ok hfuel (hs ho hd) hrun
      exact ⟨κ, cat', t', hev⟩
  | mkdir path =>
    obtain ⟨r, hrun⟩ := run_dropped h
    by_cases hidle : openedAt g fuel junk v path = none → createDir g fuel junk v path = none
    · unfold fatMkdir at hrun
      rw [Blocks.run_bind_of (t.create_idle ok hfuel hidle)] at hrun
      exact hsame (Prod.mk.inj (some.inj hrun)).2.symm
    · obtain ⟨ho, hd⟩ := Classical.not_imp.1 hidle
      obtain ⟨κ, cat', t', hev, -⟩ := t.run_fatMkdir ok hfuel (hs ho hd) hrun
      exact ⟨κ, cat', t', hev⟩
  | unlink path =>
    obtain ⟨r, hrun⟩ := run_dropped h
    rcases t.run_fatUnlink ok hfuel hs hrun with ⟨-, rfl⟩ | ⟨-, i, -, -, t', hback⟩
    · exact hsame rfl
    · refine ⟨_, _, t', fun k hk junk m y name ha => .inl ?_⟩
      obtain ⟨x, hx, -⟩ := hback k.1 hk junk m y name ha
      exact ⟨k.1, m, x, hk, rfl, hx⟩
  | writes f off buf =>
    obtain ⟨⟨r, f'⟩, hrun⟩ := run_dropped h
    obtain ⟨path, junk', ho⟩ := hs
    rcases (t.rooted.run_fatOpen t.wf ok hfuel path).2 f ho with ⟨i, rfl⟩ | ⟨hdir, -⟩
    · obtain ⟨cat', t', hev⟩ := t.run_fatWrite ok hrun
      exact ⟨ι, cat', t', hev⟩
    · unfold fatWrite at hrun
      rw [if_pos (.inl hdir)] at hrun
      exact hsame (Prod.mk.inj (some.inj hrun)).2.symm
  | truncate f =>
    obtain ⟨⟨r, f'⟩, hrun⟩ := run_dropped h
    obtain ⟨path, junk', ho⟩ := hs
    rcases (t.rooted.run_fatOpen t.wf ok hfuel path).2 f ho with ⟨i, rfl⟩ | ⟨hdir, -⟩
    · obtain ⟨cat', t', hev⟩ := t.run_fatTruncate ok hfuel hrun
      exact ⟨ι, cat', t', hev⟩
    · unfold fatTruncate at hrun
      rw [if_pos (.inl hdir)] at hrun
      exact hsame (Prod.mk.inj (some.inj hrun)).2.symm
  | sync =>
    obtain ⟨r, hrun, rfl⟩ := map_eq_some_iff.1 h
    have hrest := run_fatSync hrun
    refine ⟨ι, cat, ?_⟩
    have hdata : ∀ s, g.fatStart ≤ s → r.2 s = v s := fun s hle => hrest s (by
      have hlt : g.fsinfoSec < g.fatStart := hs
      omega)
    have hslots : ∀ k, ∀ c ∈ cat.chain k, ∀ s, g.InClus c s → r.2 s = v s := by
      intro k c hc s hin
      refine hdata s ?_
      have hle := clusSector_data ok ((t.wf.chained k).valid c hc)
      have hdata := ok.data
      have hlo := hin.1
      omega
    refine ⟨t.same (fun k c hc => ?_) fun k _ => hslots k, fun k hk junk m y name ha => .inl ?_⟩
    · exact entry_of_same ok ((t.wf.chained k).valid c hc).2 fun s hin => hdata s hin.1
    · rw [slots_congr (hslots k)] at ha
      exact ⟨k, m, y, hk, rfl, ha⟩

end Stepping

/-! ## Names that are made -/

/-- A path leads to a file, and no path with another last part does. A part of 63 bytes in front of the
last one is the exception: what is behind it is cut off. -/
structure Finds (g : Geo) (fuel : Nat) (v : Volume) (path : List UInt8) (h : Handle) : Prop where
  found : ∀ junk, openedAt g fuel junk v path = some h
  only : ∀ junk q, (∀ c ∈ (components (skipSlashes q) []).dropLast, c.length ≠ 63) →
    openedAt g fuel junk v q = some h → folded (finalPart q) = folded (lastPart (skipSlashes path))

section Made

variable {ι κ : Type} {g : Geo} {v v' : Volume} {cat : Catalog ι} {cat' : Catalog κ} {fuel start : Nat}
  {junk : Nat → UInt8} {path : List UInt8} {h : Handle}

theorem Named.finds (hn : Named g v cat v' cat' start (lastPart (skipSlashes path)) h)
    (t : Tree g v cat) (ok : g.Ok) (hfuel : g.totalClus ≤ fuel) {name : List UInt8}
    (hname : make83 (lastPart (skipSlashes path)) = some name)
    (hpar : (skipSlashes path).length ≤ (lastPart (skipSlashes path)).length + 128)
    (hstart : createDir g fuel junk v path = some start) : Finds g fuel v' path h := by
  have t' := hn.tree
  refine ⟨fun junk' => ?_, fun junk' q hq ho => ?_⟩
  · obtain ⟨ps, hcomp, hdir⟩ := @create_split g v fuel junk path name hname hpar
    rw [hdir] at hstart
    obtain ⟨d, hd, hstart⟩ := bind_eq_some_iff.1 hstart
    obtain ⟨hd', -⟩ := t.opened_stable t' ok hfuel junk' hn.persists t.rooted.knows_root
      t'.rooted.knows_root hd
    obtain ⟨k', m, y, hk', hhead, hyh, hans⟩ := hn.answers
    have hc := t'.wf.chained k'
    unfold openedAt
    rw [components_skip, hcomp, t'.opened_snoc ok hfuel t'.rooted.knows_root, hd', bind_some]
    split at hstart
    · rename_i hdd
      rw [if_pos hdd, some.inj hstart, ← hhead,
        hc.dirSlots_eq (Nat.lt_of_lt_of_le (hc.length_lt ok) hfuel),
        (t'.neat k' hk').lookIn_eq (hans junk'), Option.map_some, hyh]
    · cases hstart
  · unfold openedAt at ho
    rw [components_skip] at ho hq
    rcases components_final q with hnil | ⟨cs, x, hcs, hx⟩
    · rw [hnil] at ho
      exact absurd (congrArg Handle.dirSec (some.inj ho)).symm hn.sec
    · rw [hcs] at ho hq
      obtain ⟨d, j, m, y, -, -, hj, -, ha, hyh⟩ := t'.opened_cases ok hfuel ho
      have hfold := hn.only j hj junk' m y x ha hyh
      rw [List.dropLast_concat] at hq
      rcases hx with rfl | ⟨-, c, hc, h63⟩
      · exact hfold
      · exact absurd h63 (hq c hc)

end Made

theorem neat_single (x : Slot) : Neat [x] := by
  have hcases : ∀ {m : Nat} {y : Slot}, [x][m]? = some y → m = 0 ∧ y = x := by
    intro m y hy
    cases m with
    | zero => exact ⟨rfl, (some.inj hy).symm⟩
    | succ m => cases hy
  refine ⟨fun i j a b ha hb _ hf => ?_, fun i a ha _ _ _ => ?_, fun _ _ i j a b ha hb => ?_⟩
  · rw [(hcases hb).2]
    rwa [(hcases ha).2] at hf
  · rw [(hcases ha).1]
    rfl
  · rw [(hcases ha.at').1, (hcases hb.at').1]

/-- A path whose last part is plain, in a directory where nothing is left over of a long name. -/
theorem keepsName_of {g : Geo} {fuel : Nat} {junk : Nat → UInt8} {v : Volume} {path : List UInt8}
    (hplain : Plain (lastPart (skipSlashes path))) (hlen : (skipSlashes path).length ≤ 128)
    (hclear : (createDir g fuel junk v path).map (fun start => (through
      ((dirSlots g fuel v start).takeWhile fun x => !x.free) ⟨fun _ => 0, 0⟩).len) = some 0) :
    KeepsName g fuel junk v path := by
  refine ⟨.inr hplain, by omega, fun start hstart => ?_⟩
  rw [hstart] at hclear
  exact some.inj hclear

theorem oneFile_tree : Tree smallGeo oneFileStore.disk oneFileCatalog := by
  obtain ⟨x, rest, hslots⟩ : ∃ x rest, slots smallGeo oneFileStore.disk [2] = x :: rest :=
    ⟨_, _, rfl⟩
  have hclass : (slots smallGeo oneFileStore.disk [2]).map (fun x => classify x.entry) =
      .live :: List.replicate 15 .fin := by decide +kernel
  have hhead : (slots smallGeo oneFileStore.disk [2]).head?.map (fun x => (x.handle, shortName x.entry)) =
      some (⟨3, 1, false, 2, 0⟩, [65]) := by decide +kernel
  rw [hslots] at hclass hhead
  obtain ⟨hlive, hrest⟩ := List.cons.inj hclass
  obtain ⟨hx, hshort⟩ := Prod.mk.inj (some.inj hhead)
  have hfin : ∀ y ∈ rest, classify y.entry = .fin := fun y hy =>
    List.eq_of_mem_replicate (hrest ▸ List.mem_map_of_mem (f := fun x : Slot => classify x.entry) hy)
  have hneat : Neat (x :: rest) := (neat_single x).append hfin
  refine ⟨oneFile_wellFormed, ⟨false, rfl⟩, ?_, ?_, ?_, ?_⟩
  · rintro (_ | _) hdir
    · exact List.cons_ne_nil 2 []
    · cases hdir
  · rintro (_ | _) hdir
    · exact hslots ▸ hneat
    · cases hdir
  · rintro (_ | _) hdir m y hy hl
    · change (slots smallGeo oneFileStore.disk [2])[m]? = some y at hy
      rw [hslots] at hy
      cases m with
      | zero =>
        obtain rfl := some.inj hy
        refine .listed true hx.symm fun junk name ha hdot => ?_
        have hfold : folded name = [65] := by
          rcases ha.answers with hs | ⟨hlong, -⟩
          · rw [hshort] at hs
            exact (nameEq_iff.1 hs).symm
          · exact absurd rfl hlong
        unfold Dotted at hdot
        rw [hfold] at hdot
        revert hdot
        decide
      | succ m =>
        rw [hfin y (List.mem_of_getElem? hy)] at hl
        cases hl
    · cases hdir
  · refine ⟨fun i => if i then 1 else 0, ?_⟩
    rintro (_ | _) (_ | _) hsec hw
    · exact absurd rfl hsec
    · exact absurd rfl hsec
    · exact Nat.one_pos
    · cases hw.1

/-- A volume that is the tree of some catalog. -/
def IsTree (g : Geo) (v : Volume) : Prop := ∃ (ι : Type) (cat : Catalog ι), Tree g v cat

theorem tree_of_run {ι : Type} {g : Geo} {fuel : Nat} {cat : Catalog ι} {v0 v : Volume}
    {calls : List Issued} (ok : g.Ok) (hfuel : g.totalClus ≤ fuel) (t0 : Tree g v0 cat)
    (run : Run (fatStep g fuel) (fun v c => c.1.Sound g fuel v c.2) v0 calls v) : IsTree g v := by
  have hkeep : ∀ v (c : Issued) v', IsTree g v → c.1.Sound g fuel v c.2 →
      fatStep g fuel v c = some v' → IsTree g v' := by
    rintro v c v' ⟨κ, cat, t⟩ hs hstep
    obtain ⟨κ', cat', t', -⟩ := t.step ok hfuel hs hstep
    exact ⟨κ', cat', t'⟩
  have h0 : IsTree g v0 := ⟨ι, cat, t0⟩
  exact run.invariant hkeep h0

/-- A volume that is a tree stays one in every run of calls that leave the directories in order: no
chain is a circle or has a free cluster, no two share one, and every entry is accounted for. A look-up
of any path then comes to its end, at a file of the tree, and so does `fat_create`. -/
theorem volume_stays_tree {ι : Type} (g : Geo) (fuel : Nat) (cat : Catalog ι) (v₀ v : Volume)
    (calls : List Issued) (ok : g.Ok) (hfuel : g.totalClus ≤ fuel) (t₀ : Tree g v₀ cat)
    (run : Run (fatStep g fuel) (fun v c => c.1.Sound g fuel v c.2) v₀ calls v) :
    ∃ (κ : Type) (cat' : Catalog κ), Tree g v cat' ∧ ∀ path junk,
      ((fatOpen g fuel junk path).run v = some (openedAt g fuel junk v path, v) ∧
        ∀ f, openedAt g fuel junk v path = some f → cat'.Knows g f) ∧
      ∃ r v', (fatCreate g fuel junk path).run v = some (r, v') := by
  obtain ⟨κ, cat', t⟩ := tree_of_run ok hfuel t₀ run
  refine ⟨κ, cat', t, fun path junk => ⟨t.rooted.run_fatOpen t.wf ok hfuel path, ?_⟩⟩
  obtain ⟨r, v', hrun, -⟩ := t.rooted.run_fatCreate t.wf ok hfuel path
  exact ⟨r, v', hrun⟩

/-- A byte is written to the file `A`. -/
theorem volume_stays_tree_written : ∃ v, fatStep smallGeo 8 oneFileStore.disk
    (.writes ⟨3, 1, false, 2, 0⟩ 0 [7], fun _ => 0) = some v ∧ IsTree smallGeo v := by
  obtain ⟨v, hstep⟩ := Option.isSome_iff_exists.1 (by decide +kernel : (fatStep smallGeo 8
    oneFileStore.disk (.writes ⟨3, 1, false, 2, 0⟩ 0 [7], fun _ => 0)).isSome = true)
  obtain ⟨κ, cat, t, -⟩ := volume_stays_tree smallGeo 8 oneFileCatalog oneFileStore.disk v _ smallGeo_ok
    le_rfl oneFile_tree (.cons (by exact ⟨[65], fun _ => 0, by decide +kernel⟩) hstep (.nil v))
  exact ⟨v, hstep, κ, cat, t⟩

/-- In every run of calls that leave the directories in order, what a path is made of is what it leads
to, and no directory has two entries for one name. The names that an entry keeps are those without a
blank, without a dot at their end, and not with the first byte of a deleted entry. -/
theorem made_names_are_found {ι : Type} (g : Geo) (fuel : Nat) (cat : Catalog ι) (v₀ v : Volume)
    (calls : List Issued) (ok : g.Ok) (hfuel : g.totalClus ≤ fuel) (t₀ : Tree g v₀ cat)
    (run : Run (fatStep g fuel) (fun v c => c.1.Sound g fuel v c.2) v₀ calls v) :
    (∀ name, Faithful name ↔ make83 name = none ∨ Plain name) ∧
    (∀ path junk d, openedAt g fuel junk v path = some d → d.isDir = true →
      ∀ junk junk' i j x y name, AnswersAt (dirSlots g fuel v (dirStart g d)) junk i x name →
        AnswersAt (dirSlots g fuel v (dirStart g d)) junk' j y name → i = j) ∧
    (∀ path junk h v', (FatCall.create path).Sound g fuel v junk →
      (fatCreate g fuel junk path).run v = some (some h, v') →
        Faithful (lastPart (skipSlashes path)) ∧ Finds g fuel v' path h) ∧
    ∀ path junk v', (FatCall.mkdir path).Sound g fuel v junk →
      (fatMkdir g fuel junk path).run v = some (true, v') → Faithful (lastPart (skipSlashes path)) ∧
          ∃ e v₁ c, (fatCreate g fuel junk path).run v = some (some e, v₁) ∧
            Finds g fuel v' path ⟨c, 0, true, e.dirSec, e.dirOff⟩ := by
  obtain ⟨κ, cat, t⟩ := tree_of_run ok hfuel t₀ run
  -- what is made is made in a directory that is there
  have hkeeps : ∀ {path junk h v'}, (FatCall.create path).Sound g fuel v junk →
      (fatCreate g fuel junk path).run v = some (some h, v') →
        KeepsName g fuel junk v path ∧ ∃ name, make83 (lastPart (skipSlashes path)) = some name := by
    intro path junk h v' hs hrun
    have hmakes : ∃ j name, Makes g fuel junk v cat path j name := by
      obtain ⟨r, v₁, hrun', hc⟩ := t.rooted.run_fatCreate t.wf ok hfuel path
      obtain ⟨rfl, rfl⟩ := Prod.mk.inj (some.inj (hrun'.symm.trans hrun))
      cases hc with
      | reused hm _ | grown hm _ _ => exact ⟨_, _, hm⟩
    obtain ⟨j, name, hm⟩ := hmakes
    exact ⟨hs hm.absent (by rw [hm.dir]; nofun), name, hm.name⟩
  refine ⟨faithful_iff, fun path junk d ho hdir junk1 junk2 i j x y name hx hy => ?_,
    fun path junk h v' hs hrun => ?_, fun path junk v' hs hrun => ?_⟩
  · obtain ⟨k, hk, -, hslots⟩ :=
      t.dir ok hfuel ((t.rooted.run_fatOpen t.wf ok hfuel path).2 d ho) hdir
    rw [hslots] at hx hy
    exact (t.neat k hk).unique junk1 name i j x y hx ((t.neat k hk).answersAt_any hy junk1)
  · obtain ⟨hk, name, hname⟩ := hkeeps hs hrun
    obtain ⟨κ', cat', -, -, hnew⟩ := t.run_fatCreate ok hfuel hk hrun
    obtain ⟨start, hstart, hn⟩ := hnew h rfl
    exact ⟨(faithful_iff _).2 hk.plain, hn.toNamed.finds t ok hfuel hname hk.parent hstart⟩
  · have hcreate : ∃ h v₁, (fatCreate g fuel junk path).run v = some (some h, v₁) := by
      obtain ⟨⟨r, v₁⟩, hcreate, hrest⟩ :=
        bind_eq_some_iff.1 (Blocks.run_bind.symm.trans hrun)
      cases r with
      | none => cases congrArg Prod.fst (some.inj hrest)
      | some h => exact ⟨h, v₁, hcreate⟩
    obtain ⟨h, v₁, hcreate⟩ := hcreate
    obtain ⟨hk, name, hname⟩ := hkeeps hs hcreate
    obtain ⟨κ', cat', -, -, hnew⟩ := t.run_fatMkdir ok hfuel hk hrun
    obtain ⟨start, e, v2, c, hstart, he, hn⟩ := hnew rfl
    exact ⟨(faithful_iff _).2 hk.plain, e, v2, c, he,
      hn.finds t ok hfuel hname hk.parent hstart⟩

/-- `B` is made, and then `C`. -/
theorem made_names_are_found_twice : ∃ v h v',
    Run (fatStep smallGeo 8) (fun v c => c.1.Sound smallGeo 8 v c.2) oneFileStore.disk
      [(.create [66], fun _ => 0)] v ∧
    (fatCreate smallGeo 8 (fun _ => 0) [67]).run v = some (some h, v') ∧
    Finds smallGeo 8 v' [67] h := by
  obtain ⟨v, hstep, hv⟩ := map_eq_some_iff.1
    (by decide +kernel : (fatStep smallGeo 8 oneFileStore.disk (.create [66], fun _ => 0)).map
      (fun v => ((createDir smallGeo 8 (fun _ => 0) v [67]).map (fun start => (through
        ((dirSlots smallGeo 8 v start).takeWhile fun x => !x.free) ⟨fun _ => 0, 0⟩).len),
        ((fatCreate smallGeo 8 (fun _ => 0) [67]).run v).map fun r => r.1)) =
      some (some 0, some (some ⟨0, 0, false, 2, 64⟩)))
  obtain ⟨hclear, hmade⟩ := Prod.mk.inj hv
  obtain ⟨⟨r, v'⟩, hcreate, rfl⟩ := map_eq_some_iff.1 hmade
  have hrun : Run (fatStep smallGeo 8) (fun v c => c.1.Sound smallGeo 8 v c.2) oneFileStore.disk
      [(.create [66], fun _ => 0)] v := by
    refine .cons (fun _ _ => keepsName_of ⟨by decide, by decide, by decide⟩ (by decide) ?_) hstep
      (.nil v)
    decide +kernel
  have hall := made_names_are_found smallGeo 8 oneFileCatalog oneFileStore.disk v _ smallGeo_ok le_rfl
    oneFile_tree hrun
  exact ⟨v, _, v', hrun, hcreate, (hall.2.2.1 [67] (fun _ => 0) _ v'
    (fun _ _ => keepsName_of ⟨by decide, by decide, by decide⟩ (by decide) hclear) hcreate).2⟩

/-- `B.` is made, and what is made answers to `B`. It can be made again then, and `B` has two entries. -/
theorem dotted_name_is_not_found : Tree smallGeo oneFileStore.disk oneFileCatalog ∧ ∃ h h' v v',
    (fatCreate smallGeo 8 (fun _ => 0) [66, 46]).run oneFileStore.disk = some (some h, v) ∧
    openedAt smallGeo 8 (fun _ => 0) v [66, 46] = none ∧
    openedAt smallGeo 8 (fun _ => 0) v [66] = some h ∧
    (fatCreate smallGeo 8 (fun _ => 0) [66, 46]).run v = some (some h', v') ∧
    (liveSlots (slots smallGeo v' [2])).map (fun x => shortName x.entry) = [[65], [66], [66]] := by
  refine ⟨oneFile_tree, ?_⟩
  have hagain : ((fatCreate smallGeo 8 (fun _ => 0) [66, 46]).run oneFileStore.disk).bind
      (fun r => ((fatCreate smallGeo 8 (fun _ => 0) [66, 46]).run r.2).bind fun r' =>
        r'.1.map fun _ => (liveSlots (slots smallGeo r'.2 [2])).map fun x => shortName x.entry) =
      some [[65], [66], [66]] := by decide +kernel
  obtain ⟨⟨r, v⟩, hfirst, hv⟩ := map_eq_some_iff.1
    (by decide +kernel : ((fatCreate smallGeo 8 (fun _ => 0) [66, 46]).run oneFileStore.disk).map
      (fun r => (r.1, openedAt smallGeo 8 (fun _ => 0) r.2 [66, 46],
        openedAt smallGeo 8 (fun _ => 0) r.2 [66])) =
      some (some ⟨0, 0, false, 2, 32⟩, none, some ⟨0, 0, false, 2, 32⟩))
  rw [hfirst, bind_some] at hagain
  obtain ⟨rfl, hv⟩ := Prod.mk.inj hv
  obtain ⟨hnone, hplain⟩ := Prod.mk.inj hv
  obtain ⟨⟨r', v'⟩, hsecond, hv⟩ := bind_eq_some_iff.1 hagain
  obtain ⟨h', rfl, hnames⟩ := map_eq_some_iff.1 hv
  exact ⟨_, _, v, v', hfirst, hnone, hplain, hsecond, hnames⟩

/-! ## Names that are taken away -/

/-- Nothing in the directory that starts at a cluster answers to a name. -/
def Absent {ι : Type} (g : Geo) (v : Volume) (cat : Catalog ι) (start : Nat) (n : List UInt8) :
    Prop :=
  ∀ k, (cat.handle k).isDir = true → (cat.chain k).getD 0 0 = start → ∀ junk m x name,
    folded name = folded n → ¬AnswersAt (slots g v (cat.chain k)) junk m x name

/-- A tree where that is so. -/
def LacksName (g : Geo) (v : Volume) (start : Nat) (n : List UInt8) : Prop :=
  ∃ (ι : Type) (cat : Catalog ι), Tree g v cat ∧ Absent g v cat start n

section Away

variable {ι κ : Type} {g : Geo} {v v' : Volume} {cat : Catalog ι} {cat' : Catalog κ} {fuel start : Nat}
  {junk : Nat → UInt8} {n : List UInt8} {d : Handle}

theorem Absent.evolves {made : Option (Nat × List UInt8)} (h : Absent g v cat start n)
    (hev : Evolves g v cat v' cat' made) (hn : ¬Dotted n)
    (hmade : ∀ nm, made = some (start, nm) → folded nm ≠ folded n) : Absent g v' cat' start n := by
  intro k hk hhead junk m x name hname ha
  rcases hev k hk junk m x name ha with ⟨k', j, y, hk', hhead', hy⟩ | hdot | ⟨nm, hnm, hfold⟩
  · exact h k' hk' (hhead'.trans hhead) junk j y name hname hy
  · unfold Dotted at hn hdot
    rw [hname] at hdot
    exact hn hdot
  · rw [hhead] at hnm
    exact hmade nm hnm (hfold.symm.trans hname)

/-- What is unlinked was the only entry of its name. -/
theorem Tree.absent_unlinked (t : Tree g v cat) {i j : ι} {m : Nat} {x : Slot}
    (hj : (cat.handle j).isDir = true) (ha : AnswersAt (slots g v (cat.chain j)) junk m x n)
    (hx : x.handle = cat.handle i) (hback : ∀ k, (cat.handle k).isDir = true → ∀ junk m y name,
      AnswersAt (slots g v' (cat.chain k)) junk m y name →
        ∃ x, AnswersAt (slots g v (cat.chain k)) junk m x name ∧ x.handle ≠ cat.handle i) :
    Absent g v' (cat.drop i) ((cat.chain j).getD 0 0) n := by
  rintro ⟨k, hki⟩ hk hhead junk' l y name hname hy
  obtain rfl : k = j := t.head_inj hk hj hhead
  obtain ⟨z, hz, hne⟩ := hback k hk junk' l y name hy
  have hz' := (t.neat k hk).answersAt_any (hz.congr hname) junk
  obtain rfl := (t.neat k hk).unique junk n l m z x hz' ha
  obtain rfl := some.inj (hz'.at'.symm.trans ha.at')
  exact hne hx

/-- A directory that does not answer to a name neither finds it nor lists it. -/
theorem Tree.absent_gone (t : Tree g v cat) (ok : g.Ok) (hfuel : g.totalClus ≤ fuel)
    (h : Absent g v cat (dirStart g d) n) (hk : cat.Knows g d) :
    (∀ m, folded m = folded n → opened g fuel junk v [m] d = none) ∧
      ∀ i y, (fatDirent g fuel junk d i).run v = some (some y, v) → folded y.name ≠ folded n := by
  by_cases hdir : d.isDir = true
  · obtain ⟨k, hkd, hstart, hslots⟩ := t.dir ok hfuel hk hdir
    have hc := t.wf.chained k
    refine ⟨fun m hm => ?_, fun i y hy hfold => ?_⟩
    · rw [t.opened_cons ok hfuel hk, if_pos hdir, hslots]
      have hnone : lookIn m (slots g v (cat.chain k)) ⟨junk, 0⟩ = none :=
        (t.neat k hkd).ended.lookIn_eq_none.2 fun l x ha => h k hkd hstart.symm junk l x m hm ha
      rw [hnone]
      rfl
    · rw [hc.run_fatDirent (Nat.lt_of_lt_of_le (hc.length_lt ok) hfuel) hdir hstart i] at hy
      obtain ⟨hy, -⟩ := Prod.mk.inj (some.inj hy)
      obtain ⟨l, x, hx, hl, rfl⟩ := mem_listing (List.mem_of_getElem? hy)
      exact h k hkd hstart.symm junk l x _ hfold (answersAt_listed hx hl junk)
  · rw [Bool.not_eq_true] at hdir
    refine ⟨fun m _ => ?_, fun i y hy => ?_⟩
    · rw [t.opened_cons ok hfuel hk, hdir, if_neg Bool.noConfusion]
    · unfold fatDirent at hy
      rw [if_pos hdir] at hy
      cases congrArg Prod.fst (some.inj hy)

end Away

/-- What `fat_unlink` took away stays away in every run of calls that leave the directories in order and
do not make that name in that directory: no path into the directory finds it, and `fat_dirent` does not
list it. -/
theorem unlinked_name_stays_away {ι : Type} (g : Geo) (fuel : Nat) (cat : Catalog ι)
    (v₀ v v' : Volume) (before : List Issued) (path : List UInt8) (junk : Nat → UInt8) (ok : g.Ok)
    (hfuel : g.totalClus ≤ fuel) (t₀ : Tree g v₀ cat)
    (run : Run (fatStep g fuel) (fun v c => c.1.Sound g fuel v c.2) v₀ before v)
    (hsound : (FatCall.unlink path).Sound g fuel v junk)
    (hunlink : (fatUnlink g fuel junk path).run v = some (true, v')) :
    ∃ ps n d, components (skipSlashes path) [] = ps ++ [n] ∧
      opened g fuel junk v ps (rootHandle g) = some d ∧ d.isDir = true ∧
      ∀ (after : List Issued) (v'' : Volume),
        Run (fatStep g fuel) (fun v c => c.1.Sound g fuel v c.2 ∧
          ∀ nm, c.1.made g fuel v c.2 = some (dirStart g d, nm) → folded nm ≠ folded n) v' after v'' →
        ∀ q e junk, openedAt g fuel junk v'' q = some e → dirStart g e = dirStart g d →
          (∀ r m junk, components (skipSlashes r) [] = components (skipSlashes q) [] ++ [m] →
            folded m = folded n → openedAt g fuel junk v'' r = none) ∧
          ∀ junk i y, (fatDirent g fuel junk e i).run v'' = some (some y, v'') →
            folded y.name ≠ folded n := by
  obtain ⟨κ, cat, t⟩ := tree_of_run ok hfuel t₀ run
  rcases t.run_fatUnlink ok hfuel hsound hunlink with ⟨h, -⟩ | ⟨-, i, ho, hsec, t', hback⟩
  · cases h
  unfold openedAt at ho
  rcases List.eq_nil_or_concat' (components (skipSlashes path) []) with hnil | ⟨ps, n, hcomp⟩
  · rw [hnil] at ho
    exact absurd (congrArg Handle.dirSec (some.inj ho)).symm hsec
  rw [hcomp] at ho
  obtain ⟨d, j, m, x, hd, hdir, hj, hstart, ha, hx⟩ := t.opened_cases ok hfuel ho
  refine ⟨ps, n, d, hcomp, hd, hdir, fun after v'' hafter q e junk1 hq he => ?_⟩
  have habsent := t.absent_unlinked hj ha hx hback
  rw [← hstart] at habsent
  -- over the run nothing comes to answer to the name
  have hkeep : ∀ w (c : Issued) w', LacksName g w (dirStart g d) n →
      (c.1.Sound g fuel w c.2 ∧
        ∀ nm, c.1.made g fuel w c.2 = some (dirStart g d, nm) → folded nm ≠ folded n) →
      fatStep g fuel w c = some w' → LacksName g w' (dirStart g d) n := by
    rintro w c w' ⟨κ, cat, tw, hw⟩ ⟨hs, hmade⟩ hstep
    obtain ⟨κ', cat', tw', hev⟩ := tw.step ok hfuel hs hstep
    exact ⟨κ', cat', tw', hw.evolves hev (hsound ps n hcomp) hmade⟩
  have hlacks : LacksName g v' (dirStart g d) n := ⟨_, _, t', habsent⟩
  obtain ⟨κ'', cat'', t'', hgone⟩ := hafter.invariant hkeep hlacks
  have hknows := (t''.rooted.run_fatOpen t''.wf ok hfuel q).2 e hq
  rw [← he] at hgone
  refine ⟨fun r l junk2 hr hl => ?_, fun junk2 => (t''.absent_gone ok hfuel hgone hknows).2⟩
  obtain ⟨hq2, -⟩ := t''.opened_stable t'' ok hfuel junk2 Persists.refl t''.rooted.knows_root
    t''.rooted.knows_root hq
  have hnone := (@Tree.absent_gone _ g v'' cat'' fuel junk2 n e t'' ok hfuel hgone hknows).1 l hl
  unfold openedAt
  rw [hr, t''.opened_snoc ok hfuel t''.rooted.knows_root, hq2, bind_some]
  rw [t''.opened_cons ok hfuel hknows] at hnone
  split at hnone
  · rename_i hdir
    rw [if_pos hdir]
    cases hl : lookIn l (dirSlots g fuel v'' (dirStart g e)) ⟨junk2, 0⟩ with
    | none => rfl
    | some y =>
      rw [hl] at hnone
      cases hnone
  · rename_i hdir
    rw [if_neg hdir]

/-- `A` is unlinked and `B` is made. -/
theorem unlinked_name_stays_away_one : ∃ v' v'',
    (fatUnlink smallGeo 8 (fun _ => 0) [65]).run oneFileStore.disk = some (true, v') ∧
    fatStep smallGeo 8 v' (.create [66], fun _ => 0) = some v'' ∧
    openedAt smallGeo 8 (fun _ => 0) v'' [65] = none ∧
    openedAt smallGeo 8 (fun _ => 0) v'' [66] = some ⟨0, 0, false, 2, 0⟩ := by
  obtain ⟨⟨b, v'⟩, hunlink, hb⟩ := map_eq_some_iff.1
    (by decide +kernel : ((fatUnlink smallGeo 8 (fun _ => 0) [65]).run oneFileStore.disk).map
      (fun r => (r.1, createDir smallGeo 8 (fun _ => 0) r.2 [66],
        (createDir smallGeo 8 (fun _ => 0) r.2 [66]).map fun start => (through
          ((dirSlots smallGeo 8 r.2 start).takeWhile fun x => !x.free) ⟨fun _ => 0, 0⟩).len)) =
      some (true, some 2, some 0))
  obtain ⟨rfl, hb⟩ := Prod.mk.inj hb
  obtain ⟨hdir, hclear⟩ := Prod.mk.inj hb
  have hnext : (((fatUnlink smallGeo 8 (fun _ => 0) [65]).run oneFileStore.disk).bind fun r =>
      fatStep smallGeo 8 r.2 (.create [66], fun _ => 0)).map (fun v =>
        openedAt smallGeo 8 (fun _ => 0) v [66]) = some (some ⟨0, 0, false, 2, 0⟩) := by
    decide +kernel
  rw [hunlink, bind_some] at hnext
  obtain ⟨v'', hstep, hmade⟩ := map_eq_some_iff.1 hnext
  have hone : ∀ {ps : List (List UInt8)} {part : List UInt8},
      components (skipSlashes [65]) [] = ps ++ [part] → ps = [] ∧ part = [65] := by
    intro ps part h
    obtain ⟨hps, hpart⟩ := List.append_inj' (show [] ++ [[65]] = ps ++ [part] from h) rfl
    exact ⟨hps.symm, (List.cons.inj hpart).1.symm⟩
  obtain ⟨ps, n, d, hcomp, hd, -, hall⟩ := unlinked_name_stays_away smallGeo 8 oneFileCatalog
    oneFileStore.disk oneFileStore.disk v' [] [65] (fun _ => 0) smallGeo_ok le_rfl oneFile_tree (.nil _)
    (fun ps part h => by
      obtain ⟨-, rfl⟩ := hone h
      unfold Dotted
      decide) hunlink
  obtain ⟨rfl, rfl⟩ := hone hcomp
  obtain rfl : rootHandle smallGeo = d := some.inj hd
  have hafter := hall [(.create [66], fun _ => 0)] v'' (.cons ⟨fun _ _ =>
    keepsName_of ⟨by decide, by decide, by decide⟩ (by decide) hclear, fun nm hnm => ?_⟩ hstep (.nil _))
  · exact ⟨v', v'', hunlink, hstep,
      (hafter [] (rootHandle smallGeo) (fun _ => 0) rfl rfl).1 [65] [65] (fun _ => 0) rfl rfl, hmade⟩
  · have hmap : (createDir smallGeo 8 (fun _ => 0) v' [66]).map (fun start => (start, [66])) =
        some (dirStart smallGeo (rootHandle smallGeo), nm) := hnm
    obtain ⟨start, -, hstart⟩ := map_eq_some_iff.1 hmap
    rw [← (Prod.mk.inj hstart).2]
    decide

/-- The root has a file by its long name `a+b`, and nothing else. -/
def longNameVolume : Volume :=
  smallVolume [0, 0, 0x0ffffff8, 0x0ffffff8]
    [sectorOf (0x41 :: 97 :: 0 :: 43 :: 0 :: 98 :: 0 :: 0 :: 0 :: 255 :: 255 :: 0x0f :: 0 :: 0 ::
      List.replicate 12 255 ++ [0, 0, 255, 255, 255, 255] ++
      smallEntry (65 :: 95 :: 66 :: 126 :: 49 :: List.replicate 6 32) 0x20 3 1)]

/-- `a+b` is unlinked, and `C` is made in the slot behind what is left of its long name: `a+b` is there
again. -/
theorem unlinked_long_name_comes_back :
    fatMount.run longNameVolume = some (some smallGeo, longNameVolume) ∧ ∃ v v',
      (fatUnlink smallGeo 8 (fun _ => 0) [97, 43, 98]).run longNameVolume = some (true, v) ∧
      openedAt smallGeo 8 (fun _ => 0) v [97, 43, 98] = none ∧
      (fatCreate smallGeo 8 (fun _ => 0) [67]).run v = some (some ⟨0, 0, false, 2, 32⟩, v') ∧
      openedAt smallGeo 8 (fun _ => 0) v' [97, 43, 98] = some ⟨0, 0, false, 2, 32⟩ := by
  refine ⟨smallVolume_mounts _ _, ?_⟩
  obtain ⟨⟨b, v⟩, hunlink, hv⟩ := map_eq_some_iff.1
    (by decide +kernel : ((fatUnlink smallGeo 8 (fun _ => 0) [97, 43, 98]).run longNameVolume).map
      (fun r => (r.1, openedAt smallGeo 8 (fun _ => 0) r.2 [97, 43, 98],
        ((fatCreate smallGeo 8 (fun _ => 0) [67]).run r.2).map fun r' =>
          (r'.1, openedAt smallGeo 8 (fun _ => 0) r'.2 [97, 43, 98]))) =
      some (true, none, some (some ⟨0, 0, false, 2, 32⟩, some ⟨0, 0, false, 2, 32⟩)))
  obtain ⟨rfl, hv⟩ := Prod.mk.inj hv
  obtain ⟨hnone, hv⟩ := Prod.mk.inj hv
  obtain ⟨⟨r, v'⟩, hcreate, hv'⟩ := map_eq_some_iff.1 hv
  obtain ⟨rfl, hfound⟩ := Prod.mk.inj hv'
  exact ⟨v, v', hunlink, hnone, hcreate, hfound⟩

end Verkos.Stam.Fat
