import Verkos.Lib.Steps
import Verkos.Sav.Buffer

/-!
# Where control can go

`pastItem` is one step in the buffer, with a call as a step of its own: what it comes back with is
open. A set of instructions is `Confined` when each of them returns, or goes on inside the set or to
one of its exits, whatever the registers hold. What the generator appends for one construct is
confined to itself, to its end and to the labels it was given (`Seg.confined`), and two confined sets
that lead into each other are one.
-/

namespace Verkos.Sav

open Verkos.Lib (Emit)
open Option (some.inj)

/-- One step, past a call. -/
def pastItem (its : List Item) (m : Machine) (r : Reply × Machine) : Option Machine :=
  match (coded its)[m.pc]? with
  | some (.bl _) => some (r.2.goto (m.pc + 1))
  | some it => execItem its r.1 m it
  | none => none

/-- A return is not taken. -/
def NotRet (its : List Item) (m : Machine) : Prop := (coded its)[m.pc]? ≠ some (.ins .ret)

/-- From every instruction of `A` control returns, or goes to one of `A` or of `Q`. -/
def Confined (its : List Item) (A Q : Nat → Prop) : Prop :=
  ∀ m r m', A m.pc → NotRet its m → pastItem its m r = some m' → A m'.pc ∨ Q m'.pc

/-- Control is in the set or at an exit. -/
def Held (A Q : Nat → Prop) (m : Machine) : Prop := A m.pc ∨ Q m.pc

/-- A run that neither returns nor gets to one of the exits. -/
def Stretch (its : List Item) (Q : Nat → Prop) (m : Machine) (rs : List (Reply × Machine))
    (m' : Machine) : Prop :=
  Lib.Run (pastItem its) (fun m _ => NotRet its m ∧ ¬Q m.pc) m rs m'

namespace Confined

variable {its : List Item} {A B Q R T : Nat → Prop} {m m' : Machine} {rs : List (Reply × Machine)}

theorem run (h : Confined its A Q) (hrun : Stretch its Q m rs m') (hm : Held A Q m) : Held A Q m' := by
  have keep : ∀ m r m', Held A Q m → NotRet its m ∧ ¬Q m.pc → pastItem its m r = some m' →
      Held A Q m' := by
    intro m r m' hin hok hs
    rcases hin with hin | hin
    · exact h m r m' hin hok.1 hs
    · exact absurd hin hok.2
  exact Lib.Run.invariant keep hrun hm

theorem mono (h : Confined its A Q) (hQ : ∀ k, Q k → A k ∨ R k) : Confined its A R := by
  intro m r m' hin hret hs
  rcases h m r m' hin hret hs with ha | hq
  · exact .inl ha
  · exact hQ _ hq

theorem union (h : Confined its A Q) (h' : Confined its B R) (hQ : ∀ k, Q k → A k ∨ B k ∨ T k)
    (hR : ∀ k, R k → A k ∨ B k ∨ T k) : Confined its (fun k => A k ∨ B k) T := by
  intro m r m' hin hret hs
  rcases hin with hin | hin
  · rcases h m r m' hin hret hs with ha | hq
    · exact .inl (.inl ha)
    · rcases hQ _ hq with ha | hb | ht
      · exact .inl (.inl ha)
      · exact .inl (.inr hb)
      · exact .inr ht
  · rcases h' m r m' hin hret hs with hb | hr
    · exact .inl (.inr hb)
    · rcases hR _ hr with ha | hb | ht
      · exact .inl (.inl ha)
      · exact .inl (.inr hb)
      · exact .inr ht

end Confined

/-! ## One item -/

section Items

theorem Confined.cbz {its : List Item} {k t l : Nat} {rt : Reg} (hk : (coded its)[k]? = some (.cbz rt l))
    (hl : labelPos l its = some t) : Confined its (· = k) fun q => q = k + 1 ∨ q = t := by
  intro m r m' hin _ hs
  rw [pastItem, hin, hk] at hs
  dsimp only [execItem] at hs
  split at hs
  · rw [Machine.toLabel, hl] at hs
    obtain rfl := some.inj hs
    exact .inr (.inr rfl)
  · obtain rfl := some.inj hs
    exact .inr (.inl (congrArg (· + 1) hin))

variable {its : List Item} {m m' : Machine} {r : Reply × Machine} {it : Item} {Q : Nat → Prop}

/-- An item that is neither a return nor a branch with a displacement of its own goes on to the next
one or to the label it names. -/
theorem pastItem_goes (hk : (coded its)[m.pc]? = some it) (hret : it ≠ .ins .ret)
    (hraw : ∀ i, it = .ins i → i.isBranch = true → i = .b 0) (hs : pastItem its m r = some m') :
    m'.pc = m.pc + 1 ∧ (∀ l, it ≠ .b l) ∨ m'.pc = m.pc ∧ it = .ins (.b 0) ∨
      ∃ l, it.target = some l ∧ labelPos l its = some m'.pc := by
  rw [pastItem, hk] at hs
  have hlabel : ∀ l, it.target = some l → ∀ m : Machine, m.toLabel its l = some m' →
      ∃ l, it.target = some l ∧ labelPos l its = some m'.pc := by
    intro l hl m hm
    obtain ⟨t, ht, rfl⟩ := Option.map_eq_some_iff.1 hm
    exact ⟨l, hl, ht⟩
  cases it with
  | place l => cases hs
  | bl l =>
    obtain rfl := some.inj hs
    exact .inl ⟨rfl, nofun⟩
  | b l => exact .inr (.inr (hlabel l rfl m hs))
  | bcond c l | cbz rt l | cbnz rt l =>
    dsimp only [execItem] at hs
    split at hs
    · exact .inr (.inr (hlabel l rfl m hs))
    · obtain rfl := some.inj hs
      exact .inl ⟨rfl, nofun⟩
  | adrp rd s o | add12 rd s o =>
    obtain rfl := some.inj hs
    exact .inl ⟨by simp, nofun⟩
  | ins i =>
    cases hb : i.isBranch with
    | true =>
      obtain rfl := hraw i rfl hb
      have hself := Machine.jump_to m m.pc
      rw [Int.sub_self] at hself
      obtain rfl := some.inj (hself.symm.trans hs)
      exact .inr (.inl ⟨rfl, rfl⟩)
    | false =>
      left
      refine ⟨?_, nofun⟩
      cases hp : i.isPlain with
      | true =>
        have hrun := @execItem_plain its m (.ins i) hp r.1
        obtain rfl := some.inj (hrun.symm.trans hs)
        exact Item.run_pc hp
      | false =>
        cases i with
        | svc =>
          obtain rfl := some.inj hs
          rfl
        | ret => exact absurd rfl hret
        | b off | bl off | bcond c off | cbz rt off | cbnz rt off => cases hb
        | _ => cases hp

end Items

/-! ## A segment -/

section Segments

variable {its pre l l' : List Item} {S own out : List Nat} {calls : Nat → Prop} {n n' n'' k j : Nat}
  {it : Item}

theorem newlab_ok {s s' : GState} :
    newlab s = .ok (k, l, s') ↔ k = s.nlab ∧ l = [] ∧ s' = { s with nlab := s.nlab + 1 } := by
  simp only [newlab, Except.ok.injEq, Prod.mk.injEq]
  exact ⟨fun h => ⟨h.1.symm, h.2.1.symm, h.2.2.symm⟩, fun h => ⟨h.1.symm, h.2.1.symm, h.2.2.symm⟩⟩

theorem Fresh.mono (h : Fresh pre n) (hn : n ≤ n') : Fresh pre n' :=
  fun k hk => Nat.lt_of_lt_of_le (h k hk) hn

theorem Fresh.snoc {i : Item} (h : Fresh pre n) (hi : ∀ k, i = .place k → k < n) :
    Fresh (pre ++ [i]) n := by
  intro k hk
  rcases List.mem_append.1 hk with hk | hk
  · exact h k hk
  · exact hi k (List.mem_singleton.1 hk).symm

/-- The instructions of a piece. -/
def Span (pre l : List Item) (k : Nat) : Prop :=
  (coded pre).length ≤ k ∧ k < (coded pre).length + (coded l).length

/-- The end of a piece, and where the labels stand that it was given. -/
def Exits (its pre l : List Item) (out : List Nat) (k : Nat) : Prop :=
  k = (coded (pre ++ l)).length ∨ ∃ lab ∈ out, labelPos lab its = some k

theorem StandsAt.item (h : StandsAt its pre l) (hk : (coded l)[j]? = some it) :
    (coded its)[(coded pre).length + j]? = some it := by
  obtain ⟨post, rfl⟩ := h
  have hlt := (List.getElem?_eq_some_iff.1 hk).1
  rw [List.append_assoc, coded_append, List.getElem?_append_right (by omega), coded_append,
    Nat.add_sub_cancel_left, List.getElem?_append_left hlt, hk]

theorem StandsAt.label_in (h : StandsAt its pre l) (hnew : .place k ∉ pre)
    (hk : labelPos k l = some j) : labelPos k its = some ((coded pre).length + j) := by
  obtain ⟨post, rfl⟩ := h
  rw [List.append_assoc, labelPos_append_right hnew, labelPos_append_left _ hk, Option.map_some,
    Nat.add_comm]

/-- From an instruction of a segment control goes on to the next, stays, or goes to a label of the
segment or to one it was given. -/
theorem Seg.goes {m m' : Machine} {r : Reply × Machine} (hseg : Seg S calls [] out n n' l)
    (hat : StandsAt its pre l) (hf : Fresh pre n) (hpc : m.pc = (coded pre).length + j)
    (hj : (coded l)[j]? = some it) (hret : NotRet its m) (hs : pastItem its m r = some m') :
    (m'.pc = m.pc + 1 ∧ ∀ lab, it ≠ .b lab) ∨ m'.pc = m.pc ∨
      (∃ lab t, labelPos lab l = some t ∧ m'.pc = (coded pre).length + t) ∨
      ∃ lab ∈ out, labelPos lab its = some m'.pc := by
  have hmem := mem_coded (List.mem_of_getElem? hj)
  have hitem : (coded its)[m.pc]? = some it := hpc ▸ hat.item hj
  rcases pastItem_goes hitem (fun he => hret (he ▸ hitem)) (fun i hi hb => hseg.raw i (hi ▸ hmem) hb)
    hs with hnext | ⟨hself, -⟩ | ⟨lab, hlab, hto⟩
  · exact .inl hnext
  · exact .inr (.inl hself)
  · rcases hseg.targets it hmem lab hlab with hp | hp
    · obtain ⟨t, ht⟩ := labelPos_isSome hp
      have hnew : .place lab ∉ pre := fun hin => by
        have hlt := hf lab hin
        rcases hseg.labels lab hp with hb | hb
        · omega
        · cases hb
      rw [hat.label_in hnew ht, Option.some.injEq] at hto
      exact .inr (.inr (.inl ⟨lab, t, ht, hto.symm⟩))
    · exact .inr (.inr (.inr ⟨lab, hp, hto⟩))

theorem Span.item (h : Span pre l k) : ∃ j it, k = (coded pre).length + j ∧
    (coded l)[j]? = some it := by
  obtain ⟨hlo, hhi⟩ := h
  exact ⟨k - (coded pre).length, _, by omega, List.getElem?_eq_getElem (by omega)⟩

section

variable (hseg : Seg S calls [] out n n' l) (hat : StandsAt its pre l) (hf : Fresh pre n)
include hseg hat hf

theorem Seg.confined : Confined its (Span pre l) (Exits its pre l out) := by
  intro m r m' hin hret hs
  obtain ⟨j, it, hpc, hj⟩ := hin.item
  obtain ⟨hlo, hhi⟩ := hin
  -- a place at or behind the start is in the piece or is its end
  have hplace : ∀ k, (coded pre).length ≤ k → k ≤ (coded pre).length + (coded l).length →
      Span pre l k ∨ Exits its pre l out k := by
    intro k h1 h2
    by_cases hend : k = (coded pre).length + (coded l).length
    · refine .inr (.inl ?_)
      rw [coded_append, List.length_append, hend]
    · exact .inl ⟨h1, by omega⟩
  rcases hseg.goes hat hf hpc hj hret hs with ⟨hnext, -⟩ | hself | ⟨lab, t, ht, hto⟩ | hout
  · exact hplace _ (by omega) (by omega)
  · exact hplace _ (by omega) (by omega)
  · have hle := labelPos_le ht
    exact hplace _ (by omega) (by omega)
  · exact .inr (.inr hout)

/-- A segment that ends with a return or with a branch is left through a label it was given, or by
returning. -/
theorem Seg.confined_sealed {p : List Item} (hl : l = p ++ [it])
    (hit : it = .ins .ret ∨ ∃ lab, it = .b lab) :
    Confined its (Span pre l) fun k => ∃ lab ∈ out, labelPos lab its = some k := by
  intro m r m' hin hret hs
  obtain ⟨j, it', hpc, hj⟩ := hin.item
  obtain ⟨hlo, hhi⟩ := hin
  have hcode : it.isCode = true := by
    rcases hit with rfl | ⟨lab, rfl⟩ <;> rfl
  rcases hseg.goes hat hf hpc hj hret hs with ⟨hnext, hnb⟩ | hself | ⟨lab, t, ht, hto⟩ | hout
  · by_cases hlast : j + 1 = (coded l).length
    · -- the last instruction does not go on to the next one
      have hitem := hat.item hj
      have hone : coded [it] = [it] := by rw [coded_cons hcode]; rfl
      rw [hl, coded_append, hone] at hj hlast
      have hjp : j = (coded p).length := by
        rw [List.length_append, List.length_singleton] at hlast
        omega
      rw [hjp, List.getElem?_append_right le_rfl, Nat.sub_self] at hj
      obtain rfl : it = it' := by simpa using hj
      rcases hit with rfl | ⟨lab, rfl⟩
      · exact absurd (hpc ▸ hitem) hret
      · exact absurd rfl (hnb lab)
    · exact .inl ⟨by omega, by omega⟩
  · exact .inl ⟨by omega, by omega⟩
  · subst hl
    have hlt := labelPos_lt hcode ht
    exact .inl ⟨by omega, by omega⟩
  · exact .inr hout

theorem Seg.confined_ret {p : List Item} (hl : l = p ++ [Item.ins .ret]) :
    Confined its (Span pre l) fun k => ∃ lab ∈ out, labelPos lab its = some k :=
  hseg.confined_sealed hat hf hl (.inl rfl)

end

end Segments

end Verkos.Sav
