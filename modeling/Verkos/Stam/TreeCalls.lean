import Verkos.Stam.FailedCalls
import Verkos.Stam.TreeSteps

/-!
# Calls on a tree

`fat_create`, `fat_mkdir`, `fat_unlink`, `fat_write` and `fat_truncate` keep the tree of a volume when the
names they are given are kept as they are. What each of them can add to what the directories answer to
is said by `Evolves`: nothing, or the one name that is made.
-/

namespace Verkos.Stam.Fat

open Verkos.Lib
open List
open Option (some.inj bind_eq_some_iff bind_some)

section Opening

variable {ι : Type} {g : Geo} {v : Volume} {cat : Catalog ι} {fuel : Nat} {junk : Nat → UInt8}
  {cur h : Handle} {part : List UInt8} {parts : List (List UInt8)}

section

variable (t : Tree g v cat)
include t

/-- A directory the catalog knows is one of its own. -/
theorem Tree.dir (ok : g.Ok) (hfuel : g.totalClus ≤ fuel) (hk : cat.Knows g cur)
    (hdir : cur.isDir = true) : ∃ j, (cat.handle j).isDir = true ∧
      dirStart g cur = (cat.chain j).getD 0 0 ∧
      dirSlots g fuel v (dirStart g cur) = slots g v (cat.chain j) := by
  obtain ⟨j, hj, hstart⟩ := hk.dir t.wf t.rooted hdir
  refine ⟨j, hj, hstart, ?_⟩
  rw [hstart]
  exact (t.wf.chained j).dirSlots_eq (Nat.lt_of_lt_of_le ((t.wf.chained j).length_lt ok) hfuel)

theorem Tree.head_inj {j k : ι} (hj : (cat.handle j).isDir = true)
    (hk : (cat.handle k).isDir = true) (heq : (cat.chain j).getD 0 0 = (cat.chain k).getD 0 0) :
    j = k := by
  by_contra hne
  refine t.wf.apart j k hne _ (getD_mem (length_pos_iff.2 (t.dirs j hj))) ?_
  rw [heq]
  exact getD_mem (length_pos_iff.2 (t.dirs k hk))

theorem Tree.dirStart_eq {k : ι} (hk : (cat.handle k).isDir = true) :
    dirStart g (cat.handle k) = (cat.chain k).getD 0 0 := by
  have hc := t.wf.chained k
  have hne : (cat.chain k).getD 0 0 ≠ 0 := fun hz =>
    t.dirs k hk (length_eq_zero_iff.1 (Nat.le_zero.1 (hc.getD_zero.1 hz)))
  rw [dirStart, t.wf.head k, if_pos hne]

/-- One step of a path. -/
theorem Tree.opened_cons (ok : g.Ok) (hfuel : g.totalClus ≤ fuel) (hk : cat.Knows g cur) :
    opened g fuel junk v (part :: parts) cur =
      if cur.isDir then (lookIn part (dirSlots g fuel v (dirStart g cur)) ⟨junk, 0⟩).bind fun x =>
        opened g fuel junk v parts x.handle
      else none := by
  unfold opened
  rw [openFrom]
  cases hdir : cur.isDir with
  | false =>
    rw [if_pos rfl, if_neg Bool.noConfusion]
    rfl
  | true =>
    rw [if_neg Bool.noConfusion, if_pos rfl]
    obtain ⟨j, hj, hstart, hslots⟩ := t.dir ok hfuel hk hdir
    obtain ⟨j', -, hstart', hrun, -⟩ :=
      @Rooted.run_dirFind _ g v cat fuel junk _ t.rooted t.wf ok hfuel hk hdir part
    have hc := t.wf.chained j'
    have hsame : dirSlots g fuel v (dirStart g cur) = slots g v (cat.chain j') := by
      rw [hstart']
      exact hc.dirSlots_eq (Nat.lt_of_lt_of_le (hc.length_lt ok) hfuel)
    rw [Blocks.run_bind_of hrun, hsame]
    cases lookIn part (slots g v (cat.chain j')) ⟨junk, 0⟩ with
    | none | some x => rfl

theorem Tree.knows_found (ok : g.Ok) (hfuel : g.totalClus ≤ fuel) (hk : cat.Knows g cur)
    (hdir : cur.isDir = true) {x : Slot}
    (hx : lookIn part (dirSlots g fuel v (dirStart g cur)) ⟨junk, 0⟩ = some x) :
    cat.Knows g x.handle := by
  obtain ⟨j, hj, -, hslots⟩ := t.dir ok hfuel hk hdir
  rw [hslots] at hx
  exact t.rooted.covers j hj x (lookIn_mem hx)

end

/-- The last step of a path. -/
theorem Tree.opened_snoc (t : Tree g v cat) (ok : g.Ok) (hfuel : g.totalClus ≤ fuel) :
    ∀ {parts : List (List UInt8)} {cur : Handle}, cat.Knows g cur →
      opened g fuel junk v (parts ++ [part]) cur = (opened g fuel junk v parts cur).bind fun d =>
        if d.isDir then (lookIn part (dirSlots g fuel v (dirStart g d)) ⟨junk, 0⟩).map Slot.handle
        else none
  | [], cur, hk => by
    rw [nil_append, t.opened_cons ok hfuel hk]
    change _ = if cur.isDir then _ else _
    cases cur.isDir with
    | false => rfl
    | true =>
      rw [if_pos rfl, if_pos rfl]
      cases lookIn part (dirSlots g fuel v (dirStart g cur)) ⟨junk, 0⟩ <;> rfl
  | q :: parts, cur, hk => by
    rw [cons_append, t.opened_cons ok hfuel hk, t.opened_cons ok hfuel hk]
    cases hdir : cur.isDir with
    | false => rfl
    | true =>
      rw [if_pos rfl, if_pos rfl]
      cases hl : lookIn q (dirSlots g fuel v (dirStart g cur)) ⟨junk, 0⟩ with
      | none => rfl
      | some x => exact t.opened_snoc ok hfuel (t.knows_found ok hfuel hk hdir hl)

/-- What a path leads to is the root or answers to its last component in a directory. -/
theorem Tree.opened_cases (t : Tree g v cat) (ok : g.Ok) (hfuel : g.totalClus ≤ fuel)
    (ho : opened g fuel junk v (parts ++ [part]) (rootHandle g) = some h) :
    ∃ d j m x, opened g fuel junk v parts (rootHandle g) = some d ∧ d.isDir = true ∧
      (cat.handle j).isDir = true ∧ dirStart g d = (cat.chain j).getD 0 0 ∧
      AnswersAt (slots g v (cat.chain j)) junk m x part ∧ x.handle = h := by
  rw [t.opened_snoc ok hfuel t.rooted.knows_root] at ho
  obtain ⟨d, hd, ho⟩ := bind_eq_some_iff.1 ho
  split at ho
  · rename_i hdir
    obtain ⟨x, hx, hxh⟩ := Option.map_eq_some_iff.1 ho
    have hk := (t.rooted.run_openFrom t.wf ok hfuel parts t.rooted.knows_root).2 d hd
    obtain ⟨j, hj, hstart, hslots⟩ := t.dir ok hfuel hk hdir
    rw [hslots] at hx
    obtain ⟨m, hm⟩ := (t.neat j hj).ended.answersAt_of_lookIn hx
    exact ⟨d, j, m, x, hd, hdir, hj, hstart, hm, hxh⟩
  · cases ho

end Opening

/-! ## What a call can add -/

/-- What the directories answer to was answered before by the directory that starts there, or is `.` or
`..`, or is the one name that is made. -/
def Evolves {ι κ : Type} (g : Geo) (v : Volume) (cat : Catalog ι) (v' : Volume) (cat' : Catalog κ)
    (made : Option (Nat × List UInt8)) : Prop :=
  ∀ k', (cat'.handle k').isDir = true → ∀ junk m y name,
    AnswersAt (slots g v' (cat'.chain k')) junk m y name →
      (∃ k n x, (cat.handle k).isDir = true ∧
        (cat.chain k).getD 0 0 = (cat'.chain k').getD 0 0 ∧
        AnswersAt (slots g v (cat.chain k)) junk n x name) ∨
      Dotted name ∨
      ∃ nm, made = some ((cat'.chain k').getD 0 0, nm) ∧ folded name = folded nm

/-- What the directories answered before they answer still. -/
def Persists {ι κ : Type} (g : Geo) (v : Volume) (cat : Catalog ι) (v' : Volume) (cat' : Catalog κ) :
    Prop :=
  ∀ k, (cat.handle k).isDir = true → ∃ k', (cat'.handle k').isDir = true ∧
    (cat'.chain k').getD 0 0 = (cat.chain k).getD 0 0 ∧
    ∀ junk m x name, AnswersAt (slots g v (cat.chain k)) junk m x name →
      ∃ m' y, AnswersAt (slots g v' (cat'.chain k')) junk m' y name ∧ y.handle = x.handle

/-- A path to be made is kept as it is: the last part is a plain name or is refused, the buffer has
room for what is in front of it, and no part of a long name is left over where the entry goes. -/
structure KeepsName (g : Geo) (fuel : Nat) (junk : Nat → UInt8) (v : Volume) (path : List UInt8) :
    Prop where
  plain : make83 (lastPart (skipSlashes path)) = none ∨ Plain (lastPart (skipSlashes path))
  parent : (skipSlashes path).length ≤ (lastPart (skipSlashes path)).length + 128
  clear : ∀ start, createDir g fuel junk v path = some start →
    (through ((dirSlots g fuel v start).takeWhile fun x => !x.free) ⟨fun _ => 0, 0⟩).len = 0

section Evolving

variable {ι κ ν : Type} {g : Geo} {v v' v'' : Volume} {cat : Catalog ι} {cat' : Catalog κ}
  {cat'' : Catalog ν} {made : Option (Nat × List UInt8)}

theorem Evolves.refl : Evolves g v cat v cat made :=
  fun k' hk _ m y _ ha => .inl ⟨k', m, y, hk, rfl, ha⟩

theorem Evolves.trans (h1 : Evolves g v cat v' cat' made) (h2 : Evolves g v' cat' v'' cat'' made) :
    Evolves g v cat v'' cat'' made := by
  intro k'' hk junk m y name ha
  rcases h2 k'' hk junk m y name ha with ⟨k', n, x, hk', hhead, hx⟩ | hrest
  · rcases h1 k' hk' junk n x name hx with ⟨k, l, z, hk, hhead', hz⟩ | hdot | ⟨nm, hmade, hn⟩
    · exact .inl ⟨k, l, z, hk, hhead'.trans hhead, hz⟩
    · exact .inr (.inl hdot)
    · exact .inr (.inr ⟨nm, hhead ▸ hmade, hn⟩)
  · exact .inr hrest

theorem Persists.refl : Persists g v cat v cat :=
  fun k hk => ⟨k, hk, rfl, fun _ m x _ ha => ⟨m, x, ha, rfl⟩⟩

theorem Persists.trans (h1 : Persists g v cat v' cat') (h2 : Persists g v' cat' v'' cat'') :
    Persists g v cat v'' cat'' := by
  intro k hk
  obtain ⟨k', hk', hhead, hall⟩ := h1 k hk
  obtain ⟨k'', hk'', hhead', hall'⟩ := h2 k' hk'
  refine ⟨k'', hk'', hhead'.trans hhead, fun junk m x name ha => ?_⟩
  obtain ⟨m', y, hy, hyx⟩ := hall junk m x name ha
  obtain ⟨m'', z, hz, hzy⟩ := hall' junk m' y name hy
  exact ⟨m'', z, hz, hzy.trans hyx⟩

/-- Where what was found stays, paths lead to where they did. -/
theorem Tree.opened_stable (t : Tree g v cat) (t' : Tree g v' cat') (ok : g.Ok) {fuel : Nat}
    (hfuel : g.totalClus ≤ fuel) {junk : Nat → UInt8} (junk' : Nat → UInt8)
    (hext : Persists g v cat v' cat') : ∀ {parts : List (List UInt8)} {cur f : Handle},
      cat.Knows g cur → cat'.Knows g cur → opened g fuel junk v parts cur = some f →
        opened g fuel junk' v' parts cur = some f ∧ cat'.Knows g f
  | [], cur, f, _, hk', ho => by
    obtain rfl := some.inj ho
    exact ⟨rfl, hk'⟩
  | part :: parts, cur, f, hk, hk', ho => by
    rw [t.opened_cons ok hfuel hk] at ho
    rw [t'.opened_cons ok hfuel hk']
    cases hdir : cur.isDir with
    | false =>
      rw [hdir] at ho
      cases ho
    | true =>
      rw [hdir, if_pos rfl] at ho
      rw [if_pos rfl]
      obtain ⟨x, hx, ho⟩ := bind_eq_some_iff.1 ho
      have hkx := t.knows_found ok hfuel hk hdir hx
      obtain ⟨j, hj, hstart, hslots⟩ := t.dir ok hfuel hk hdir
      rw [hslots] at hx
      obtain ⟨m, hm⟩ := (t.neat j hj).ended.answersAt_of_lookIn hx
      obtain ⟨k', hk'dir, hhead, hall⟩ := hext j hj
      obtain ⟨m', y, hy, hyx⟩ := hall junk m x part hm
      have hslots' : dirSlots g fuel v' (dirStart g cur) = slots g v' (cat'.chain k') := by
        rw [hstart, ← hhead]
        have hc := t'.wf.chained k'
        exact hc.dirSlots_eq (Nat.lt_of_lt_of_le (hc.length_lt ok) hfuel)
      have hlook := (t'.neat k' hk'dir).lookIn_eq ((t'.neat k' hk'dir).answersAt_any hy junk')
      have hky := @Tree.knows_found _ g v' cat' fuel junk' cur part t' ok hfuel hk' hdir y
        (by rw [hslots']; exact hlook)
      rw [hslots', hlook, bind_some]
      rw [← hyx] at ho hkx
      exact t.opened_stable t' ok hfuel junk' hext hkx hky ho

end Evolving

/-! ## `fat_create` -/

/-- An entry was made: it answers to its name in the directory, and to nothing else. -/
structure Named {ι κ : Type} (g : Geo) (v : Volume) (cat : Catalog ι) (v' : Volume)
    (cat' : Catalog κ) (start : Nat) (name : List UInt8) (h : Handle) : Prop where
  tree : Tree g v' cat'
  evolves : Evolves g v cat v' cat' (some (start, name))
  persists : Persists g v cat v' cat'
  answers : ∃ k' m y, (cat'.handle k').isDir = true ∧ (cat'.chain k').getD 0 0 = start ∧
    y.handle = h ∧ ∀ junk, AnswersAt (slots g v' (cat'.chain k')) junk m y name
  only : ∀ k', (cat'.handle k').isDir = true → ∀ junk m y nm,
    AnswersAt (slots g v' (cat'.chain k')) junk m y nm → y.handle = h → folded nm = folded name
  sec : h.dirSec ≠ 0

/-- The entry is that of an empty file. -/
structure NewEntry {ι κ : Type} (g : Geo) (v : Volume) (cat : Catalog ι) (v' : Volume)
    (cat' : Catalog κ) (start : Nat) (name : List UInt8) (h : Handle) : Prop extends
    Named g v cat v' cat' start name h where
  fresh : ∀ k, (cat.handle k).isDir = true → ∀ junk m x nm,
    AnswersAt (slots g v (cat.chain k)) junk m x nm → x.handle ≠ h
  listed : ∃ k, cat'.handle k = h ∧ cat'.chain k = []
  placed : ∀ k', (cat'.handle k').isDir = true → (cat'.chain k').getD 0 0 = start →
    cat'.Within g h k'
  file : h.isDir = false

section Creating

variable {ι κ : Type} {g : Geo} {v v₁ v' : Volume} {cat : Catalog ι} {d : ι} {i : Nat} {p : Spot}
  {fuel : Nat} {junk : Nat → UInt8} {path n name : List UInt8} {r : Option Handle} {xs : List Slot}

theorem make83_bounds (h : make83 n = some name) : n ≠ [] ∧ n.length ≤ 12 ∧ 0 ∉ n ∧ 47 ∉ n := by
  obtain ⟨base, ext, -, hs⟩ := make83_splits h
  have hbefore := hs.before
  have hbehind := hs.behind
  have hpos := length_pos_iff.2 hs.pos
  have hlen : n.length = (n.map upper).length := (length_map ..).symm
  have hbounds : 0 < n.length ∧ n.length ≤ 12 := by
    rcases hs.parts with ⟨hm, -⟩ | ⟨hm, -⟩
    · rw [hm] at hlen
      omega
    · rw [hm, length_append, length_cons] at hlen
      omega
  exact ⟨length_pos_iff.1 hbounds.1, hbounds.2, hs.zero, hs.slash⟩

theorem Plain.not_dotted (h : Plain n) (h0 : 0 ∉ n) : ¬Dotted n := by
  have hlast : ∀ l : List UInt8, folded n ≠ l ++ [46] := by
    intro l hn
    unfold folded at hn
    rw [cstr_of_not_mem h0] at hn
    have hget := congrArg List.getLast? hn
    rw [getLast?_map, getLast?_concat] at hget
    obtain ⟨c, hc, hcu⟩ := Option.map_eq_some_iff.1 hget
    rw [upper_eq_iff (.inl (by decide))] at hcu
    exact h.dot (hcu ▸ hc)
  rintro (hn | hn)
  · exact hlast [] hn
  · exact hlast [46] hn

theorem through_len (xs : List Slot) {l l' : Lfn} (h : l.len = l'.len) :
    (through xs l).len = (through xs l').len := by
  induction xs generalizing l l' with
  | nil => exact h
  | cons x xs ih =>
    refine ih ?_
    unfold Lfn.over
    cases classify x.entry with
    | long =>
      unfold Lfn.part
      dsimp only
      split
      · exact congrArg (fun n => max n (((x.entry 0).toNat % 64 - 1) * 13 + 13)) h
      · exact h
    | _ => rfl

theorem longName_of_len (h : (through (xs.take i) ⟨fun _ => 0, 0⟩).len = 0) (junk : Nat → UInt8) :
    longName xs junk i = [] := by
  have hlen : (through (xs.take i) ⟨junk, 0⟩).len = 0 := (@through_len _ ⟨junk, 0⟩ ⟨fun _ => 0, 0⟩ rfl).trans h
  unfold longName Lfn.name
  rw [hlen]
  rfl

theorem spots_head (ok : g.Ok) (c : Nat) : ∃ rest, spots g [c] = ⟨c, clusSector g c, 0⟩ :: rest := by
  obtain ⟨m, hm⟩ := Nat.exists_eq_succ_of_ne_zero (Nat.pos_iff_ne_zero.1 ok.perClus)
  have hoff : offsets = 0 :: (List.range 15).map fun k => 32 + 32 * k := rfl
  unfold spots
  rw [flatMap_singleton, hm, range_succ_eq_map, flatMap_cons, hoff, map_cons,
    Nat.add_zero, cons_append]
  exact ⟨_, rfl⟩

/-- A plain name is made in the first free slot. -/
theorem Tree.entered (t : Tree g v cat) (ok : g.Ok) (he : EntryOf g cat d i p)
    (hfree : Slot.free (p, v p.sec) = true)
    (hfirst : ∀ k y, k < i → (slots g v (cat.chain d))[k]? = some y → y.free = false)
    (hname : make83 n = some name) (hplain : Plain n)
    (hlen : (through ((slots g v (cat.chain d)).take i) ⟨fun _ => 0, 0⟩).len = 0)
    (habsent : ∀ junk k y, ¬AnswersAt (slots g v (cat.chain d)) junk k y n) :
    NewEntry g v cat (withSlot v (p, v p.sec) name) (cat.add (emptyAt p.sec p.off) [])
      ((cat.chain d).getD 0 0) n (emptyAt p.sec p.off) := by
  obtain ⟨-, hlen12, h0, -⟩ := make83_bounds hname
  obtain ⟨hfold, he5, hzero, -⟩ := make83_plain hname hplain
    (e := entryAt (newEntry (v p.sec) p.off name 0x20) p.off) fun k hk => by
      rw [entry_newEntry (by omega), if_pos hk]
  rw [entry_newEntry (by omega), if_pos (by omega)] at he5 hzero
  obtain ⟨t', hback, hkeep, y, hy, hans⟩ := t.made ok he hfree hfirst hzero he5
    (longName_of_len hlen) hfold (hplain.not_dotted h0) habsent
  obtain ⟨hcd, hin, -⟩ := he.spec
  have hdd := he.isDir
  have hsec : p.sec ≠ 0 := by
    have hle := clusSector_data ok ((t.wf.chained d).valid _ hcd)
    have hpos := ok.firstData_pos
    have hlo := hin.1
    omega
  refine ⟨⟨t', ?_, ?_, ⟨some d, i, y, hdd, rfl, hy, fun junk => (hans junk).1⟩, ?_, hsec⟩, ?_,
    ⟨none, rfl, rfl⟩, ?_, rfl⟩
  · rintro (_ | k) hk junk m z nm ha
    · cases hk
    · by_cases hmi : k = d ∧ m = i
      · obtain ⟨rfl, rfl⟩ := hmi
        exact .inr (.inr ⟨n, rfl, (hans junk).2 nm z ha⟩)
      · obtain ⟨x, -, hx⟩ := hback k hk m z ha.at' fun hkd hm => hmi ⟨hkd, hm⟩
        exact .inl ⟨k, m, x, hk, rfl, hx junk nm ha⟩
  · intro k hk
    refine ⟨some k, hk, rfl, fun junk m x nm ha => ?_⟩
    obtain ⟨z, hz, hzx, -⟩ := hkeep k hk junk m x nm ha
    exact ⟨m, z, hz, hzx⟩
  · rintro (_ | k) hk junk m z nm ha hz
    · cases hk
    · have hez : EntryOf g cat k m z.1 := ⟨hk, (entryOf_slot hk ha.at').1.at'⟩
      obtain ⟨rfl, rfl⟩ := he.unique hez ok t.wf (congrArg Handle.dirSec hz)
        (congrArg Handle.dirOff hz)
      exact (hans junk).2 nm z ha
  · intro k hk junk m x nm ha
    obtain ⟨z, -, -, hne⟩ := hkeep k hk junk m x nm ha
    exact hne
  · rintro (_ | k) hk hhead
    · cases hk
    · rw [show k = d from t.head_inj hk hdd hhead]
      exact ⟨hdd, p.clus, hcd, hin⟩

/-- The directory `fat_create` uses is the one the rest of the path leads to. -/
theorem create_split (hname : make83 (lastPart (skipSlashes path)) = some name)
    (hpar : (skipSlashes path).length ≤ (lastPart (skipSlashes path)).length + 128) :
    ∃ ps, components path [] = ps ++ [lastPart (skipSlashes path)] ∧
      createDir g fuel junk v path = (opened g fuel junk v ps (rootHandle g)).bind fun d =>
        if d.isDir then some (dirStart g d) else none := by
  obtain ⟨hpos, hlen, -, hslash⟩ := make83_bounds hname
  obtain ⟨hone, hsplit⟩ := components_create hslash hpos (by omega)
  unfold createDir
  rw [← components_skip]
  generalize skipSlashes path = q at *
  rcases slash_cases q with h | ⟨p, l, rfl, h⟩
  · rw [lastPart_of_not_mem h] at *
    refine ⟨[], hone, ?_⟩
    rw [parentPart_of_not_mem h]
    change some g.rootClus = some (dirStart g (rootHandle g))
    unfold dirStart rootHandle
    dsimp only
    rw [ite_self]
  · rw [lastPart_append p h] at *
    refine ⟨components p [], hsplit p, ?_⟩
    rw [length_append, length_cons] at hpar
    rw [parentPart_append p h, take_of_length_le (by omega)]
    dsimp only
    unfold openedAt
    rw [components_skip]

/-- Nothing in the directory answers to a name that is to be made. -/
theorem Makes.absent_in (hm : Makes g fuel junk v cat path d name) (t : Tree g v cat) (ok : g.Ok)
    (hfuel : g.totalClus ≤ fuel)
    (hpar : (skipSlashes path).length ≤ (lastPart (skipSlashes path)).length + 128) :
    ∀ junk' k y, ¬AnswersAt (slots g v (cat.chain d)) junk' k y (lastPart (skipSlashes path)) := by
  obtain ⟨ps, hcomp, hdir⟩ := @create_split g v fuel junk path name hm.name hpar
  have habs := hm.absent
  unfold openedAt at habs
  rw [components_skip, hcomp, t.opened_snoc ok hfuel t.rooted.knows_root] at habs
  rw [hm.dir] at hdir
  obtain ⟨f, hf, hstart⟩ := bind_eq_some_iff.1 hdir.symm
  rw [hf, bind_some] at habs
  split at hstart
  · rename_i hfdir
    rw [if_pos hfdir, Option.map_eq_none_iff, some.inj hstart,
      (t.wf.chained d).dirSlots_eq (Nat.lt_of_lt_of_le ((t.wf.chained d).length_lt ok) hfuel)] at habs
    intro junk' k y ha
    exact (t.neat d hm.isDir).ended.lookIn_eq_none.1 habs k y
      ((t.neat d hm.isDir).answersAt_any ha junk)
  · cases hstart

theorem freeSlot_some {x : Slot} (h : freeSlot xs = some x) : ∃ i : Nat, xs[i]? = some x ∧
    x.free = true ∧ (∀ (k : Nat) (y : Slot), k < i → xs[k]? = some y → y.free = false) ∧
      (xs.takeWhile fun x => !x.free) = xs.take i := by
  induction xs with
  | nil => cases h
  | cons z xs ih =>
    unfold freeSlot at h ih
    rw [find?_cons] at h
    cases hz : z.free with
    | true =>
      rw [hz] at h
      obtain rfl := some.inj h
      refine ⟨0, rfl, hz, fun k y hk => absurd hk (Nat.not_lt_zero k), ?_⟩
      rw [takeWhile_cons, hz]
      rfl
    | false =>
      rw [hz] at h
      obtain ⟨i, hi, hx, hbefore, htake⟩ := ih h
      refine ⟨i + 1, hi, hx, fun k y hk hy => ?_, ?_⟩
      · cases k with
        | zero => exact some.inj hy ▸ hz
        | succ k => exact hbefore k y (by omega) hy
      · rw [takeWhile_cons, hz, htake]
        rfl

theorem freeSlot_none (h : freeSlot xs = none) :
    (∀ y ∈ xs, y.free = false) ∧ (xs.takeWhile fun x => !x.free) = xs := by
  have hall : ∀ y ∈ xs, y.free = false := fun y hy =>
    Bool.eq_false_of_not_eq_true (find?_eq_none.1 h y hy)
  refine ⟨hall, takeWhile_eq_self_iff.2 fun y hy => ?_⟩
  rw [hall y hy]
  rfl

section

variable (t : Tree g v cat) (ok : g.Ok) (hfuel : g.totalClus ≤ fuel)
  (hk : KeepsName g fuel junk v path)
include t ok hfuel hk

theorem Tree.created {h : Handle} (hc : Created g fuel junk v cat path (some h) v') :
    ∃ (κ : Type) (cat' : Catalog κ) (start : Nat), createDir g fuel junk v path = some start ∧
      NewEntry g v cat v' cat' start (lastPart (skipSlashes path)) h := by
  have hplain : ∀ {j name}, Makes g fuel junk v cat path j name →
      Plain (lastPart (skipSlashes path)) := by
    intro j name hm
    refine hk.plain.resolve_left fun hnone => ?_
    rw [hm.name] at hnone
    cases hnone
  have hclear : ∀ {j name}, Makes g fuel junk v cat path j name →
      (through ((slots g v (cat.chain j)).takeWhile fun x => !x.free) ⟨fun _ => 0, 0⟩).len = 0 := by
    intro j name hm
    have hc := t.wf.chained j
    rw [← hc.dirSlots_eq (Nat.lt_of_lt_of_le (hc.length_lt ok) hfuel)]
    exact hk.clear _ hm.dir
  cases hc with
  | @reused j name x hm hslot =>
    obtain ⟨i, hi, hfree, hfirst, htake⟩ := freeSlot_some hslot
    obtain ⟨he, hx⟩ := entryOf_slot hm.isDir hi
    have hxeq : x = (x.1, v x.1.sec) := by
      rw [← hx]
    have hlen := hclear hm
    rw [htake] at hlen
    rw [hxeq] at hfree ⊢
    exact ⟨_, _, _, hm.dir, t.entered ok he hfree hfirst hm.name (hplain hm) hlen
      (hm.absent_in t ok hfuel hk.parent)⟩
  | @grown j name n v₁ hm hslot hl =>
    classical
    obtain ⟨t₁, hgrown, hsame⟩ := t.widened ok hm.isDir hl
    obtain ⟨hfull, hall⟩ := freeSlot_none hslot
    have hpos := length_pos_iff.2 (t.dirs j hm.isDir)
    have hfin : ∀ y ∈ slots g v₁ [n], classify (Slot.entry y) = .fin := slots_cleared hl.cleared
    have hlen := hclear hm
    rw [hall] at hlen
    have hchain : (cat.set j (cat.handle j) (cat.chain j ++ [n])).chain j = cat.chain j ++ [n] :=
      Catalog.set_chain_self
    have hdir : ∀ k, ((cat.set j (cat.handle j) (cat.chain j ++ [n])).handle k).isDir = true ↔
        (cat.handle k).isDir = true := fun k => by rw [Catalog.set_handle_same]
    -- what the larger directory answers to, and what the others do
    have hback : ∀ k, (cat.handle k).isDir = true → ∀ junk m y nm, AnswersAt (slots g v₁
        ((cat.set j (cat.handle j) (cat.chain j ++ [n])).chain k)) junk m y nm →
          AnswersAt (slots g v (cat.chain k)) junk m y nm := by
      intro k hk junk m y nm ha
      by_cases hkj : k = j
      · subst hkj
        rw [hchain, hgrown] at ha
        exact (ha.of_append hfin).2
      · rw [Catalog.set_chain_of_ne hkj, hsame k hk hkj] at ha
        exact ha
    have hkeep : ∀ k, (cat.handle k).isDir = true → ∀ junk m y nm,
        AnswersAt (slots g v (cat.chain k)) junk m y nm → AnswersAt (slots g v₁
          ((cat.set j (cat.handle j) (cat.chain j ++ [n])).chain k)) junk m y nm := by
      intro k hk junk m y nm ha
      by_cases hkj : k = j
      · subst hkj
        rw [hchain, hgrown]
        exact ha.append _
      · rw [Catalog.set_chain_of_ne hkj, hsame k hk hkj]
        exact ha
    have hhead : ∀ k, ((cat.set j (cat.handle j) (cat.chain j ++ [n])).chain k).getD 0 0 =
        (cat.chain k).getD 0 0 := by
      intro k
      by_cases hkj : k = j
      · rw [hkj, hchain, getD_append _ _ _ _ hpos]
      · rw [Catalog.set_chain_of_ne hkj]
    obtain ⟨rest, hrest⟩ := spots_head ok n
    have he : EntryOf g (cat.set j (cat.handle j) (cat.chain j ++ [n])) j
        (slots g v (cat.chain j)).length ⟨n, clusSector g n, 0⟩ := by
      refine ⟨(hdir j).2 hm.isDir, ?_⟩
      rw [hchain, spots_append, length_slots, getElem?_append_right le_rfl, Nat.sub_self, hrest]
      rfl
    have hin : g.InClus n (clusSector g n) := by
      have h := inClus_of_lt (g := g) (c := n) ok.perClus
      rwa [Nat.add_zero] at h
    have hentered := t₁.entered ok he ?_ ?_ hm.name (hplain hm) ?_ ?_
    · rw [hhead j] at hentered
      refine ⟨_, _, _, hm.dir, ⟨hentered.tree, ?_, ?_, hentered.answers, hentered.only, hentered.sec⟩,
        ?_, hentered.listed, hentered.placed, hentered.file⟩
      · refine Evolves.trans (fun k hk junk m y nm ha => .inl ⟨k, m, y, (hdir k).1 hk, (hhead k).symm,
          hback k ((hdir k).1 hk) junk m y nm ha⟩) hentered.evolves
      · refine Persists.trans (fun k hk => ⟨k, (hdir k).2 hk, hhead k, fun junk m x nm ha =>
          ⟨m, x, hkeep k hk junk m x nm ha, rfl⟩⟩) hentered.persists
      · exact fun k hk junk m x nm ha =>
          hentered.fresh k ((hdir k).2 hk) junk m x nm (hkeep k hk junk m x nm ha)
    · rw [Slot.free_iff]
      left
      unfold Slot.entry
      rw [hl.cleared _ hin]
      rfl
    · intro k y hk hy
      rw [hchain, hgrown, getElem?_append_left hk] at hy
      exact hfull y (mem_of_getElem? hy)
    · rw [hchain, hgrown, take_left']
      · exact hlen
      · rfl
    · exact fun junk' k y ha =>
        hm.absent_in t ok hfuel hk.parent junk' k y (hback j hm.isDir junk' k y _ ha)

theorem Tree.run_fatCreate (hrun : (fatCreate g fuel junk path).run v = some (r, v')) :
    ∃ (κ : Type) (cat' : Catalog κ), Tree g v' cat' ∧
      Evolves g v cat v' cat' ((createDir g fuel junk v path).map fun start =>
        (start, lastPart (skipSlashes path))) ∧
      ∀ h, r = some h → ∃ start, createDir g fuel junk v path = some start ∧
        NewEntry g v cat v' cat' start (lastPart (skipSlashes path)) h := by
  obtain ⟨r', v₁, hrun', hc⟩ := @Rooted.run_fatCreate _ g v cat fuel junk t.rooted t.wf ok hfuel path
  obtain ⟨rfl, rfl⟩ := Prod.mk.inj (some.inj (hrun'.symm.trans hrun))
  cases r' with
  | none =>
    rw [hc.kept_none]
    exact ⟨ι, cat, t, Evolves.refl, nofun⟩
  | some h =>
    obtain ⟨κ, cat', start, hstart, hnew⟩ := t.created ok hfuel hk hc
    refine ⟨κ, cat', hnew.tree, ?_, fun h' hh => ⟨start, hstart, some.inj hh ▸ hnew⟩⟩
    rw [hstart]
    exact hnew.evolves

end

end Creating

/-! ## `fat_mkdir` -/

section Directories

variable {ι κ : Type} {g : Geo} {v v₁ v₂ v' : Volume} {cat : Catalog ι} {cat₁ : Catalog κ} {fuel : Nat}
  {junk : Nat → UInt8} {path name : List UInt8} {start c pp : Nat} {h : Handle}

theorem NewEntry.turned (hn : NewEntry g v cat v₁ cat₁ start name h) (ok : g.Ok)
    (ha : Allocates g c v₁ v₂) (hpp : pp = 0 ∨ pp = start) : ∃ cat2 : Catalog κ,
      Named g v cat (asDir g v₂ h c pp) cat2 start name ⟨c, 0, true, h.dirSec, h.dirOff⟩ := by
  classical
  obtain ⟨t₂, hfresh, hsame⟩ := hn.tree.allocated ok ha
  obtain ⟨i, hi, hnil⟩ := hn.listed
  have hsec := hn.sec
  have hfile := hn.file
  have hor : pp = 0 ∨ ∃ j, pp = (cat₁.chain j).getD 0 0 ∧ cat₁.Within g (cat₁.handle i) j := by
    refine hpp.imp_right ?_
    rintro rfl
    obtain ⟨k', -, -, hk', hhead, -⟩ := hn.answers
    exact ⟨k', hhead.symm, hi ▸ hn.placed k' hk' hhead⟩
  have hend : entry g v₂ c = 0x0ffffff8 := by rw [ha.entry c ha.valid.2, if_pos rfl]
  rw [← hi] at hsec hfile
  obtain ⟨t', hback, hdots, hforth⟩ :=
    t₂.turned ok hfile hsec hnil ha.valid hfresh hend ha.cleared hor
  rw [hi] at t' hback hdots hforth
  have hne : ∀ k, (cat₁.handle k).isDir = true → k ≠ i := by
    rintro k hk rfl
    rw [hfile] at hk
    cases hk
  have hkept : ∀ k, (cat₁.handle k).isDir = true →
      ((cat₁.set i ⟨c, 0, true, h.dirSec, h.dirOff⟩ [c]).handle k).isDir = true ∧
        (cat₁.set i ⟨c, 0, true, h.dirSec, h.dirOff⟩ [c]).chain k = cat₁.chain k := fun k hk =>
    ⟨by rw [Catalog.set_handle_of_ne (hne k hk)]; exact hk, Catalog.set_chain_of_ne (hne k hk)⟩
  have hcases : ∀ k, ((cat₁.set i ⟨c, 0, true, h.dirSec, h.dirOff⟩ [c]).handle k).isDir = true →
      k = i ∨ (cat₁.handle k).isDir = true := by
    intro k hk
    by_cases hki : k = i
    · exact .inl hki
    · rw [Catalog.set_handle_of_ne hki] at hk
      exact .inr hk
  refine ⟨_, t', hn.evolves.trans fun k hk junk m y nm hy => ?_, fun k hk => ?_, ?_,
    fun k hk junk m y nm hy hyh => ?_, hn.sec⟩
  · rcases hcases k hk with rfl | hk
    · rw [Catalog.set_chain_self] at hy
      exact .inr (.inl (hdots junk m y nm hy))
    · rw [(hkept k hk).2] at hy ⊢
      obtain ⟨x, -, hx⟩ := hback k hk m y hy.at' hy.live
      exact .inl ⟨k, m, x, hk, rfl, hsame k ▸ hx junk nm hy⟩
  · obtain ⟨k', hk', hhead, hall⟩ := hn.persists k hk
    refine ⟨k', (hkept k' hk').1, by rw [(hkept k' hk').2, hhead], fun junk m x nm hx => ?_⟩
    obtain ⟨m', y, hy, hyx⟩ := hall junk m x nm hx
    obtain ⟨z, hz, hzy⟩ := hforth k' hk' junk m' y nm (hsame k' ▸ hy)
    refine ⟨m', z, by rw [(hkept k' hk').2]; exact hz, ?_⟩
    rw [hzy, hyx, if_neg (hn.fresh k hk junk m x nm hx)]
  · obtain ⟨k', m, y, hk', hhead, hyh, hall⟩ := hn.answers
    have hz : ∀ junk, ∃ z, AnswersAt (slots g (asDir g v₂ h c pp) (cat₁.chain k')) junk m z name ∧
        z.handle = ⟨c, 0, true, h.dirSec, h.dirOff⟩ := by
      intro junk
      obtain ⟨z, hz, hzy⟩ := hforth k' hk' junk m y name (hsame k' ▸ hall junk)
      exact ⟨z, hz, by rw [hzy, if_pos hyh]⟩
    obtain ⟨z, hzat, hzh⟩ := hz fun _ => 0
    refine ⟨k', m, z, (hkept k' hk').1, by rw [(hkept k' hk').2, hhead], hzh, fun junk => ?_⟩
    obtain ⟨z', hz', -⟩ := hz junk
    rw [(hkept k' hk').2]
    obtain rfl := some.inj (hzat.at'.symm.trans hz'.at')
    exact hz'
  · rcases hcases k hk with rfl | hk
    · rw [Catalog.set_chain_self] at hy
      -- what is in the new directory is not the entry it is named by
      obtain ⟨b, hb, s, hs, o, -, hyeq⟩ := mem_slots.1 (mem_of_getElem? hy.at')
      rw [mem_singleton] at hb
      subst hb
      obtain ⟨d, hd, c', hc', hin⟩ := t₂.wf.placed k hsec
      have hys : h.dirSec = y.1.sec := (congrArg Handle.dirSec hyh).symm
      rw [hi, hys, hyeq] at hin
      have hcc := inClus_unique ok ha.valid ((t₂.wf.chained d).valid c' hc') (inClus_of_lt hs) hin
      exact absurd (hcc ▸ hc') (hfresh d)
    · rw [(hkept k hk).2] at hy
      obtain ⟨x, hxat, hx⟩ := hback k hk m y hy.at' hy.live
      obtain ⟨hey, -⟩ := entryOf_slot hk hy.at'
      obtain ⟨hex, hxv⟩ := entryOf_slot hk hxat
      have hp : x.1 = y.1 := some.inj (hex.at'.symm.trans hey.at')
      obtain ⟨hxh, -⟩ := @WellFormed.slot_handle _ g v₂ cat₁ i x.1 t₂.wf hsec
        (by rw [hp, hi]; exact congrArg Handle.dirSec hyh)
        (by rw [hp, hi]; exact congrArg Handle.dirOff hyh)
      rw [← hxv, hi] at hxh
      exact hn.only k hk junk m x nm (hsame k ▸ hx junk nm hy) hxh

theorem Tree.run_fatMkdir {b : Bool} (t : Tree g v cat) (ok : g.Ok) (hfuel : g.totalClus ≤ fuel)
    (hk : KeepsName g fuel junk v path) (hrun : (fatMkdir g fuel junk path).run v = some (b, v')) :
    ∃ (κ : Type) (cat' : Catalog κ), Tree g v' cat' ∧
      Evolves g v cat v' cat' ((createDir g fuel junk v path).map fun start =>
        (start, lastPart (skipSlashes path))) ∧
      (b = true → ∃ start e v₁ c, createDir g fuel junk v path = some start ∧
        (fatCreate g fuel junk path).run v = some (some e, v₁) ∧
        Named g v cat v' cat' start (lastPart (skipSlashes path))
          ⟨c, 0, true, e.dirSec, e.dirOff⟩) := by
  unfold fatMkdir at hrun
  obtain ⟨⟨r, v₁⟩, hcreate, hrun⟩ := bind_eq_some_iff.1 (Blocks.run_bind.symm.trans hrun)
  obtain ⟨κ, cat₁, t₁, hev, hnew⟩ := t.run_fatCreate ok hfuel hk hcreate
  cases r with
  | none =>
    obtain ⟨rfl, rfl⟩ := Prod.mk.inj (some.inj hrun)
    exact ⟨κ, cat₁, t₁, hev, nofun⟩
  | some h =>
    obtain ⟨start, hstart, hn⟩ := hnew h rfl
    dsimp only at hrun
    rcases run_clusAlloc ok v₁ with ⟨-, halloc⟩ | ⟨c, v₂, halloc, ha⟩
    · rw [Blocks.run_bind_of halloc, if_pos rfl] at hrun
      obtain ⟨rfl, rfl⟩ := Prod.mk.inj (some.inj hrun)
      exact ⟨κ, cat₁, t₁, hev, nofun⟩
    · have hc0 : c ≠ 0 := by
        have h2 := ha.valid.1
        omega
      obtain ⟨t₂, -, hsame⟩ := t₁.allocated ok ha
      have hpersists : Persists g v cat v₂ cat₁ := by
        intro k hk
        obtain ⟨k', hk', hhead, hall⟩ := hn.persists k hk
        exact ⟨k', hk', hhead, fun junk m x nm hx => by rw [hsame k']; exact hall junk m x nm hx⟩
      rw [Blocks.run_bind_of halloc, if_neg hc0] at hrun
      -- `..` leads to where the entry was made
      have hend : ∀ pp, pp = g.rootClus ∨ pp = 0 ∨ pp = start →
          some (true, asDir g v₂ h c (if pp = g.rootClus then 0 else pp)) = some (b, v') →
            ∃ (κ : Type) (cat' : Catalog κ), Tree g v' cat' ∧
              Evolves g v cat v' cat' ((createDir g fuel junk v path).map fun start =>
                (start, lastPart (skipSlashes path))) ∧
              (b = true → ∃ start e v₁ c, createDir g fuel junk v path = some start ∧
                (fatCreate g fuel junk path).run v = some (some e, v₁) ∧
                Named g v cat v' cat' start (lastPart (skipSlashes path))
                  ⟨c, 0, true, e.dirSec, e.dirOff⟩) := by
        intro pp hpp heq
        obtain ⟨rfl, rfl⟩ := Prod.mk.inj (some.inj heq)
        obtain ⟨cat2, hturned⟩ := @NewEntry.turned _ _ g v v₁ v₂ cat cat₁ _ start c
          (if pp = g.rootClus then 0 else pp) h hn ok ha (by
            split
            · exact .inl rfl
            · exact hpp.resolve_left ‹_›)
        refine ⟨κ, cat2, hturned.tree, ?_, fun _ => ⟨start, h, v₁, c, hstart, hcreate, hturned⟩⟩
        rw [hstart]
        exact hturned.evolves
      cases hp : parentPart (skipSlashes path) with
      | none =>
        rw [hp] at hrun
        exact hend g.rootClus (.inl rfl) hrun
      | some pn =>
        rw [hp] at hrun
        dsimp only at hrun
        unfold createDir at hstart
        rw [hp] at hstart
        obtain ⟨d, hd, hstart⟩ := bind_eq_some_iff.1 hstart
        have hd2 : openedAt g fuel junk v₂ pn = some d :=
          (t.opened_stable t₂ ok hfuel junk hpersists t.rooted.knows_root t₂.rooted.knows_root hd).1
        rw [Blocks.run_bind_of (t₂.rooted.run_fatOpen t₂.wf ok hfuel pn).1, hd2] at hrun
        refine hend (if d.isDir then d.cluster else g.rootClus) ?_ hrun
        split at hstart
        · rename_i hdir
          rw [if_pos hdir, ← some.inj hstart]
          unfold dirStart
          split
          · exact .inr (.inr rfl)
          · rename_i hz
            exact .inr (.inl (not_not.1 hz))
        · cases hstart

end Directories

end Verkos.Stam.Fat
