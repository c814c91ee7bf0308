import Verkos.Stam.TreeCalls

/-!
# Files of a tree

`fat_unlink`, `fat_write` and `fat_truncate` add no name. What `fat_unlink` takes away is the entry its
path leads to, and it takes a directory away only when that has nothing but `.` and `..`.
-/

namespace Verkos.Stam.Fat

open Verkos.Lib
open Option (some.inj)

/-! ## `fat_unlink` -/

section Emptiness

variable {ι : Type} {g : Geo} {v : Volume} {cat : Catalog ι} {cs : List Nat} {fuel : Nat}
  {junk : Nat → UInt8} {f : Handle} {i : ι}

theorem dotted_iff (name : List UInt8) :
    (nameEq name [46] || nameEq name [46, 46]) = true ↔ Dotted name := by
  rw [Bool.or_eq_true, nameEq_iff, nameEq_iff]
  rfl

/-- The entries are gone through one by one. -/
theorem Chain.run_isEmptyFrom (h : Chain g v cs) (hf : cs.length < fuel) (hdir : f.isDir = true)
    (hstart : dirStart g f = cs.getD 0 0) : ∀ n i : Nat,
      i ≤ (listing (slots g v cs) ⟨junk, 0⟩).length →
      (listing (slots g v cs) ⟨junk, 0⟩).length < n + i → ∃ b,
        (isEmptyFrom g fuel junk f n i).run v = some (b, v) ∧
        (b = true ↔ ∀ z ∈ (listing (slots g v cs) ⟨junk, 0⟩).drop i, Dotted z.name)
  | 0, i, hle, hn => by omega
  | n + 1, i, hle, hn => by
    unfold isEmptyFrom
    rw [Blocks.run_bind_of (h.run_fatDirent hf hdir hstart i)]
    cases hz : (listing (slots g v cs) ⟨junk, 0⟩)[i]? with
    | none =>
      refine ⟨true, rfl, iff_of_true rfl fun z hz' => ?_⟩
      rw [List.drop_eq_nil_of_le (List.getElem?_eq_none_iff.1 hz)] at hz'
      exact absurd hz' List.not_mem_nil
    | some z =>
      obtain ⟨hi, hget⟩ := List.getElem?_eq_some_iff.1 hz
      rw [List.drop_eq_getElem_cons hi, hget, List.forall_mem_cons]
      by_cases hdot : (nameEq z.name [46] || nameEq z.name [46, 46]) = true
      · obtain ⟨b, hrun, hb⟩ := h.run_isEmptyFrom hf hdir hstart n (i + 1) hi (by omega)
        refine ⟨b, ?_, ?_⟩
        · dsimp only
          rw [if_pos hdot, hrun]
        · rw [hb, and_iff_right ((dotted_iff z.name).1 hdot)]
      · refine ⟨false, ?_, ?_⟩
        · dsimp only
          rw [if_neg hdot]
          rfl
        · exact iff_of_false Bool.noConfusion fun hall => hdot ((dotted_iff z.name).2 hall.1)

theorem length_listing_le : ∀ (xs : List Slot) (l : Lfn), (listing xs l).length ≤ xs.length
  | [], _ => le_rfl
  | x :: xs, l => by
    rw [listing]
    split
    · exact Nat.zero_le _
    · exact Nat.le_succ_of_le (length_listing_le xs _)
    · exact Nat.le_succ_of_le (length_listing_le xs _)
    · exact Nat.le_succ_of_le (length_listing_le xs _)
    · exact Nat.succ_le_succ (length_listing_le xs _)

theorem length_spots (cs : List Nat) : (spots g cs).length = cs.length * (g.secPerClus * 16) := by
  unfold spots
  induction cs with
  | nil => rw [List.flatMap_nil, List.length_nil, List.length_nil, Nat.zero_mul]
  | cons c cs ih =>
    rw [List.flatMap_cons, List.length_append, ih, List.length_cons, Nat.succ_mul, Nat.add_comm]
    congr 1
    rw [List.length_flatMap]
    simp [offsets]

/-- Nothing of the catalog is in a directory that has nothing but `.` and `..`. -/
theorem Tree.nothing_within (t : Tree g v cat) (ok : g.Ok) {junk : Nat → UInt8}
    (hi : (cat.handle i).dirSec ≠ 0)
    (hall : ∀ z ∈ listing (slots g v (cat.chain i)) ⟨junk, 0⟩, Dotted z.name) {k : ι}
    (hk : (cat.handle k).dirSec ≠ 0) : ¬cat.Within g (cat.handle k) i := by
  intro hw
  obtain ⟨d, n, p, he, hsec, hoff⟩ := t.wf.entryOf hk
  obtain ⟨hcd, hin, -⟩ := he.spec
  have hdi : d = i := t.wf.within_unique ok ⟨he.isDir, p.clus, hcd, hsec ▸ hin⟩ hw
  subst hdi
  obtain ⟨hx, hl⟩ := t.wf.slot_handle hk hsec hoff
  have hends := (t.neat d he.isDir).ended
  obtain ⟨x, hxeq⟩ : ∃ x : Slot, x = (p, v p.sec) := ⟨_, rfl⟩
  have hslot : (slots g v (cat.chain d))[n]? = some x := hxeq ▸ he.slot
  rw [← hxeq] at hx hl
  have hdot := hall _ (hends.listed_mem (l := ⟨junk, 0⟩) hslot hl)
  have hans := answersAt_listed hslot hl junk
  obtain ⟨depth, hdepth⟩ := t.deep
  have hbelow := hdepth k d hk hw
  cases t.entries d he.isDir n x hslot hl with
  | listed k' hk' hno => exact hno junk _ hans hdot
  | dot hxdir _ hleads =>
    -- the entry is a directory, and `.` and `..` lead up
    obtain ⟨j, hj, hstart, hor⟩ := hleads
    rw [hx] at hxdir hstart
    rw [t.dirStart_eq hxdir] at hstart
    obtain rfl := t.head_inj hxdir hj hstart
    rcases hor with rfl | ⟨hd, hwd⟩ | hroot
    · exact absurd hbelow (lt_irrefl _)
    · exact absurd (hdepth d k hd hwd) (lt_asymm hbelow)
    · rw [hroot] at hk
      exact hk rfl

end Emptiness

section Unlinking

variable {ι : Type} {g : Geo} {v v' : Volume} {cat : Catalog ι} {fuel : Nat} {junk : Nat → UInt8}
  {path : List UInt8} {b : Bool} {f : Handle}

section

variable (t : Tree g v cat) (ok : g.Ok) (hfuel : g.totalClus ≤ fuel)
  (hlast : ∀ ps part, components (skipSlashes path) [] = ps ++ [part] → ¬Dotted part)
include t ok hfuel hlast

theorem Tree.catalogued (ho : openedAt g fuel junk v path = some f) (hsec : f.dirSec ≠ 0) :
    ∃ i, cat.handle i = f := by
  unfold openedAt at ho
  rcases List.eq_nil_or_concat' (components (skipSlashes path) []) with hnil | ⟨ps, part, hcomp⟩
  · rw [hnil] at ho
    obtain rfl := some.inj ho
    exact absurd rfl hsec
  · rw [hcomp] at ho
    obtain ⟨d, j, m, x, -, -, hj, -, ha, rfl⟩ := t.opened_cases ok hfuel ho
    cases t.entries j hj m x ha.at' ha.live with
    | listed k hk _ => exact ⟨k, hk⟩
    | dot _ hdot _ => exact absurd (hdot junk part ha) (hlast ps part hcomp)

/-- What `fat_unlink` takes away is an entry the catalog has, with nothing in it. -/
theorem Tree.run_fatUnlink (hrun : (fatUnlink g fuel junk path).run v = some (b, v')) :
    b = false ∧ v' = v ∨ b = true ∧ ∃ i, openedAt g fuel junk v path = some (cat.handle i) ∧
      (cat.handle i).dirSec ≠ 0 ∧ Tree g v' (cat.drop i) ∧
      ∀ k, (cat.handle k).isDir = true → ∀ junk m y name,
        AnswersAt (slots g v' (cat.chain k)) junk m y name →
          ∃ x, AnswersAt (slots g v (cat.chain k)) junk m x name ∧ x.handle ≠ cat.handle i := by
  unfold fatUnlink at hrun
  rw [Blocks.run_bind_of (t.rooted.run_fatOpen t.wf ok hfuel path).1] at hrun
  cases ho : openedAt g fuel junk v path with
  | none =>
    rw [ho] at hrun
    obtain ⟨rfl, rfl⟩ := Prod.mk.inj (some.inj hrun)
    exact .inl ⟨rfl, rfl⟩
  | some f =>
    rw [ho] at hrun
    dsimp only at hrun
    by_cases hsec : f.dirSec = 0
    · rw [if_pos hsec] at hrun
      obtain ⟨rfl, rfl⟩ := Prod.mk.inj (some.inj hrun)
      exact .inl ⟨rfl, rfl⟩
    rw [if_neg hsec] at hrun
    obtain ⟨i, rfl⟩ := t.catalogued ok hfuel hlast ho hsec
    have hc := t.wf.chained i
    have hlen := hc.length_lt ok
    -- a directory is looked through first
    have hempty : ∃ e : Bool, (if e = false then pure false
        else do
          freeChain g fuel (cat.handle i).cluster
          Blocks.reading (cat.handle i).dirSec false fun b =>
            Blocks.writing .data (cat.handle i).dirSec
              (Function.update b (cat.handle i).dirOff 0xe5) false (.done true)
        : Io Bool).run v = some (b, v') ∧
          (e = true → ∀ k, (cat.handle k).dirSec ≠ 0 → ¬cat.Within g (cat.handle k) i) := by
      cases hdir : (cat.handle i).isDir with
      | false =>
        rw [hdir, if_neg Bool.noConfusion] at hrun
        refine ⟨true, hrun, fun _ k _ hw => ?_⟩
        have hwd := hw.1
        rw [hdir] at hwd
        cases hwd
      | true =>
        have hbound := length_listing_le (slots g v (cat.chain i)) ⟨junk, 0⟩
        rw [length_slots, length_spots] at hbound
        have hmul := Nat.mul_le_mul_right (g.secPerClus * 16)
          (show (cat.chain i).length ≤ fuel by omega)
        rw [← Nat.mul_assoc fuel] at hmul
        obtain ⟨e, hrune, he⟩ := @Chain.run_isEmptyFrom g v _ fuel junk _ hc (show _ < fuel by omega) hdir
          (t.dirStart_eq hdir) (fuel * g.secPerClus * 16 + 1) 0 (Nat.zero_le _) (by omega)
        rw [List.drop_zero] at he
        rw [hdir, if_pos rfl, Blocks.run_bind_of hrune] at hrun
        exact ⟨e, hrun, fun ht k => t.nothing_within ok hsec (he.1 ht)⟩
    obtain ⟨e, hrun, hnothing⟩ := hempty
    cases e with
    | false =>
      obtain ⟨rfl, rfl⟩ := Prod.mk.inj (some.inj hrun)
      exact .inl ⟨rfl, rfl⟩
    | true =>
      rw [if_neg Bool.noConfusion] at hrun
      obtain ⟨v1, hfree, hfrees⟩ := run_freeChain ok (cat.chain i) hc (show (cat.chain i).length < fuel by omega)
      rw [t.wf.head i, Blocks.run_bind_of hfree] at hrun
      obtain ⟨rfl, hv'⟩ := Prod.mk.inj (some.inj hrun)
      obtain ⟨t', hback⟩ := t.removed ok hsec (hnothing rfl) hfrees hv'.symm
      refine .inr ⟨rfl, i, rfl, hsec, t', fun k hk junk m y name ha => ?_⟩
      obtain ⟨x, -, -, hne, hx⟩ := hback k hk m y ha.at' ha.live
      exact ⟨x, hx junk name ha, hne⟩

end

end Unlinking

/-! ## `fat_write` and `fat_truncate` -/

section Writing

variable {ι : Type} {g : Geo} {v v' : Volume} {cat : Catalog ι} {fuel off : Nat} {buf : List UInt8}
  {i : ι} {f f' : Handle} {r : Int} {b : Bool}

/-- A file gets another chain, and nothing gets another name. -/
theorem Tree.respelled [DecidableEq ι] {cs' : List Nat} (t : Tree g v cat) (ok : g.Ok)
    (hfile : (cat.handle i).isDir = false) (hi : (cat.handle i).dirSec ≠ 0)
    (hplace : SamePlace (cat.handle i) f') (hs : Spares g cat i v v')
    (wf' : WellFormed g v' (cat.set i f' cs')) :
    Tree g v' (cat.set i f' cs') ∧ Evolves g v cat v' (cat.set i f' cs') none := by
  have hne : ∀ k, (cat.handle k).isDir = true → k ≠ i := by
    rintro k hk rfl
    rw [hfile] at hk
    cases hk
  obtain ⟨t', hback⟩ := t.rewritten ok hfile hi hplace wf' fun k hk => hs.bytes k (hne k hk)
  refine ⟨t', fun k hk junk m y name ha => .inl ?_⟩
  rw [(Catalog.set_place hplace k).isDir] at hk
  rw [Catalog.set_chain_of_ne (hne k hk)] at ha ⊢
  obtain ⟨x, -, hx⟩ := hback k hk m y ha.at' ha.live
  exact ⟨k, m, x, hk, rfl, hx junk name ha⟩

theorem Tree.run_fatWrite (t : Tree g v cat) (ok : g.Ok)
    (hrun : (fatWrite g (cat.handle i) off buf).run v = some ((r, f'), v')) :
    ∃ cat' : Catalog ι, Tree g v' cat' ∧ Evolves g v cat v' cat' none := by
  classical
  by_cases hr : r ≤ 0
  · rw [keeps_write t.wf ok hr hrun]
    exact ⟨cat, t, Evolves.refl⟩
  · obtain ⟨n, rfl⟩ := Int.eq_ofNat_of_zero_le (show 0 ≤ r by omega)
    have hn : 0 < n := by omega
    obtain ⟨hfile, hi, v1, cs', hgrows, -, -, -, -, hf', hv'⟩ :=
      (t.wf.chained i).run_fatWrite ok (t.wf.head i) hn hrun
    have hplace : SamePlace (cat.handle i) f' := by
      rw [hf']
      exact ⟨rfl, rfl, rfl⟩
    have hoff : off ≤ (cat.handle i).size := by
      by_contra hlt
      unfold fatWrite at hrun
      split at hrun
      · cases congrArg (fun x => x.1.1) (some.inj hrun)
      split at hrun
      · have hzero := congrArg (fun x => x.1.1) (some.inj hrun)
        dsimp only at hzero
        omega
      · rw [if_pos (show (cat.handle i).size < off by omega)] at hrun
        cases congrArg (fun x => x.1.1) (some.inj hrun)
    obtain ⟨⟨cs, wf'⟩, -⟩ := t.wf.written ok hoff hn hrun
    obtain ⟨hs, -⟩ := t.wf.grown ok hfile hi hplace hgrows hv'
    obtain ⟨t', hev⟩ := t.respelled ok hfile hi hplace hs wf'
    exact ⟨_, t', hev⟩

/-- A file whose clusters are free, and whose entry says that it is empty. -/
theorem WellFormed.emptied [DecidableEq ι] {v1 : Volume} (wf : WellFormed g v cat) (ok : g.Ok)
    (hfile : (cat.handle i).isDir = false) (hi : (cat.handle i).dirSec ≠ 0)
    (hfrees : Frees g (cat.chain i) v v1) (hf' : f' = { cat.handle i with cluster := 0, size := 0 })
    (hv' : v' = Function.update v1 (cat.handle i).dirSec
      (writtenBack (v1 (cat.handle i).dirSec) f')) :
    Spares g cat i v v' ∧ WellFormed g v' (cat.set i f' []) := by
  have hplace : SamePlace (cat.handle i) f' := by
    rw [hf']
    exact ⟨rfl, rfl, rfl⟩
  obtain ⟨d, hd, c, hc, hin⟩ := wf.placed i hi
  have hdv := (wf.chained d).valid c hc
  have hsame : ∀ k, ∀ c ∈ cat.chain k, ∀ s, g.InClus c s → v1 s = v s := fun k c hc s hs =>
    hfrees.rest s (InClus.not_inTable ok ((wf.chained k).valid c hc) hs)
  have hs : Spares g cat i v v' := by
    refine ⟨fun j hj c hc => ?_, fun j hj c hc s hcs o hown => ?_⟩
    · have hlt := ((wf.chained j).valid c hc).2
      rw [hv', entry_update ok hdv hin _ hlt, hfrees.entry c hlt, if_neg (wf.apart j i hj c hc)]
    · rw [hv', ← hsame j c hc s hcs]
      by_cases hsec : s = (cat.handle i).dirSec
      · subst hsec
        rw [Function.update_self]
        refine writtenBack_of_not_owns ?_
        unfold Handle.Owns at hown ⊢
        rwa [hplace.dirSec, hplace.dirOff]
      · rw [Function.update_of_ne hsec]
  have hclus : f'.cluster = 0 ∧ f'.size = 0 := by
    rw [hf']
    exact ⟨rfl, rfl⟩
  obtain ⟨hback, hlive⟩ := wf.back hi hplace hv' (hsame d c hc _ hin)
    (by rw [hclus.2]; exact Nat.two_pow_pos 32) (by rw [hclus.1]; exact Nat.two_pow_pos 32)
    (by rw [hclus.1]; exact zero_ne_one)
  refine ⟨hs, wf.set hs hfile hi hplace ?_ hclus.1 ?_ (fun _ _ _ _ => List.not_mem_nil) hback hlive⟩
  · exact ⟨nofun, List.nodup_nil, nofun, nofun⟩
  · rw [hclus.2]
    exact Nat.zero_le _

theorem Tree.run_fatTruncate (t : Tree g v cat) (ok : g.Ok) (hfuel : g.totalClus ≤ fuel)
    (hrun : (fatTruncate g fuel (cat.handle i)).run v = some ((b, f'), v')) :
    ∃ cat' : Catalog ι, Tree g v' cat' ∧ Evolves g v cat v' cat' none := by
  classical
  by_cases hdir : (cat.handle i).isDir = true ∨ (cat.handle i).dirSec = 0
  · unfold fatTruncate at hrun
    rw [if_pos hdir] at hrun
    obtain ⟨-, rfl⟩ := Prod.mk.inj (some.inj hrun)
    exact ⟨cat, t, .refl⟩
  · rw [not_or, Bool.not_eq_true] at hdir
    obtain ⟨hfile, hi⟩ := hdir
    obtain ⟨v1, hfrees, hrun'⟩ :=
      (t.wf.chained i).run_fatTruncate ok hfuel hfile hi (t.wf.head i)
    obtain ⟨hres, hv'⟩ := Prod.mk.inj (some.inj (hrun'.symm.trans hrun))
    obtain ⟨-, hf'⟩ := Prod.mk.inj hres
    rw [hf'] at hv'
    obtain ⟨hs, wf'⟩ := t.wf.emptied ok hfile hi hfrees hf'.symm hv'.symm
    obtain ⟨t', hev⟩ := t.respelled ok hfile hi (by rw [← hf']; exact ⟨rfl, rfl, rfl⟩) hs wf'
    exact ⟨_, t', hev⟩

end Writing

end Verkos.Stam.Fat
