import Verkos.Sav.Gen

/-!
# Where the items of the code buffer end up

A label takes no room, every other item is one instruction. `coded` is the buffer without its
labels, so the item behind instruction `k` of the image is `(coded its)[k]?`, and `labelPos` is the
number of coded items before a label. `resolve_get` ties an instruction of the image to its item;
`DisplacementsFit` is the condition under which the fixups cut nothing off, and then `lands` says a
branch goes where its label is.
-/

namespace Verkos.Sav

def Item.isCode : Item → Bool
  | .place _ => false
  | _ => true

/-- The items that become instructions. -/
def coded (its : List Item) : List Item := its.filter Item.isCode

@[simp] theorem coded_nil : coded [] = [] := rfl

@[simp] theorem coded_append (a b : List Item) : coded (a ++ b) = coded a ++ coded b :=
  List.filter_append ..

@[simp] theorem coded_place (l : Nat) (its : List Item) : coded (.place l :: its) = coded its := rfl

variable {it : Item} {its : List Item} {l k : Nat} {code : List Instr}

theorem coded_cons (h : it.isCode = true) (its : List Item) : coded (it :: its) = it :: coded its :=
  List.filter_cons_of_pos h

theorem mem_coded (h : it ∈ coded its) : it ∈ its :=
  (List.mem_filter.1 h).1

/-! ## Labels -/

theorem labelPos_split (h : labelPos l its = some k) :
    ∃ p q, its = p ++ Item.place l :: q ∧ k = (coded p).length ∧ .place l ∉ p := by
  induction its generalizing k with
  | nil => cases h
  | cons it its ih =>
    -- an instruction in front moves everything one further
    have hcode : it.isCode = true → labelPos l (it :: its) = (labelPos l its).map (· + 1) := by
      intro hc
      cases it <;> first | rfl | cases hc
    cases hc : it.isCode with
    | true =>
      rw [hcode hc] at h
      obtain ⟨k', hk', rfl⟩ := Option.map_eq_some_iff.1 h
      obtain ⟨p, q, rfl, rfl, hp⟩ := ih hk'
      refine ⟨it :: p, q, rfl, ?_, ?_⟩
      · rw [coded_cons hc, List.length_cons]
      · rintro (_ | ⟨_, hm⟩)
        · cases hc
        · exact hp hm
    | false =>
      cases it <;> cases hc
      rename_i l'
      rw [labelPos] at h
      split at h
      · rename_i he
        subst he
        cases h
        exact ⟨[], its, rfl, rfl, by simp⟩
      · rename_i he
        obtain ⟨p, q, rfl, rfl, hp⟩ := ih h
        refine ⟨.place l' :: p, q, rfl, rfl, ?_⟩
        rintro (_ | ⟨_, hm⟩)
        · exact he rfl
        · exact hp hm

theorem labelPos_none (h : .place l ∉ its) : labelPos l its = none := by
  cases hk : labelPos l its with
  | none => rfl
  | some k =>
    obtain ⟨p, q, rfl, -, -⟩ := labelPos_split hk
    exact (h (by simp)).elim

theorem labelPos_isSome (h : .place l ∈ its) : ∃ k, labelPos l its = some k := by
  induction its with
  | nil => simp at h
  | cons it its ih =>
    rcases List.mem_cons.1 h with rfl | h
    · exact ⟨0, by simp [labelPos]⟩
    · obtain ⟨k, hk⟩ := ih h
      cases it with
      | place l' =>
        by_cases he : l' = l
        · exact ⟨0, by simp [labelPos, he]⟩
        · exact ⟨k, by simp [labelPos, he, hk]⟩
      | _ => exact ⟨k + 1, by simp [labelPos, hk]⟩

theorem labelPos_append_right {a b : List Item} (h : .place l ∉ a) :
    labelPos l (a ++ b) = (labelPos l b).map (· + (coded a).length) := by
  induction a with
  | nil => simp
  | cons it a ih =>
    have ha := ih fun hm => h (List.mem_cons_of_mem _ hm)
    cases it with
    | place l' =>
      have hne : l' ≠ l := fun he => h (by rw [he]; exact List.mem_cons_self)
      rw [List.cons_append, labelPos, if_neg hne, ha, coded_place]
    | _ =>
      rw [List.cons_append, labelPos, ha, coded_cons rfl, Option.map_map]
      · congr 1
      · simp

theorem labelPos_append_left {a : List Item} (b : List Item)
    (h : labelPos l a = some k) : labelPos l (a ++ b) = some k := by
  induction a generalizing k with
  | nil => cases h
  | cons it a ih =>
    cases it with
    | place l' =>
      rw [List.cons_append, labelPos]
      rw [labelPos] at h
      split at h
      · rename_i he
        rw [if_pos he, h]
      · rename_i he
        rw [if_neg he, ih h]
    | _ =>
      rw [labelPos] at h
      · obtain ⟨k', hk', rfl⟩ := Option.map_eq_some_iff.1 h
        rw [List.cons_append, labelPos, ih hk']
        · rfl
        · simp
      · simp

theorem labelPos_le (h : labelPos l its = some k) : k ≤ (coded its).length := by
  obtain ⟨p, q, rfl, rfl, -⟩ := labelPos_split h
  rw [coded_append]
  simp

theorem labelPos_lt {p : List Item} (hc : it.isCode = true)
    (h : labelPos l (p ++ [it]) = some k) : k < (coded (p ++ [it])).length := by
  have hin : .place l ∈ p := by
    by_contra hn
    rw [labelPos_append_right hn, labelPos_none] at h
    · cases h
    · rw [List.mem_singleton]
      rintro rfl
      cases hc
  obtain ⟨j, hj⟩ := labelPos_isSome hin
  have hle := labelPos_le hj
  rw [labelPos_append_left _ hj, Option.some.injEq] at h
  rw [coded_append, List.length_append, coded_cons hc, List.length_cons]
  omega

/-! ## The image -/

theorem resolveItem_code {lab : Nat → Option Nat} {ro at' : Nat} {l : List Instr}
    (hc : it.isCode = true) (h : resolveItem lab ro at' it = some l) : ∃ i, l = [i] := by
  cases it with
  | place => cases hc
  | ins i => exact ⟨i, (Option.some.inj h).symm⟩
  | adrp | add12 => exact ⟨_, (Option.some.inj h).symm⟩
  | _ =>
    obtain ⟨t, -, rfl⟩ := Option.map_eq_some_iff.1 h
    exact ⟨_, rfl⟩

theorem resolveFrom_get {lab : Nat → Option Nat} {ro : Nat} :
    ∀ {at' : Nat} {code : List Instr}, resolveFrom lab ro at' its = some code →
      code.length = (coded its).length ∧ ∀ k i, code[k]? = some i →
        ∃ it, (coded its)[k]? = some it ∧ resolveItem lab ro (at' + k) it = some [i] := by
  induction its with
  | nil =>
    intro at' code h
    cases h
    exact ⟨rfl, fun k i hk => by simp at hk⟩
  | cons it its ih =>
    intro at' code h
    unfold resolveFrom at h
    cases hr : resolveItem lab ro at' it with
    | none => simp [hr] at h
    | some l =>
      cases hrs : resolveFrom lab ro (at' + it.size) its with
      | none => simp [hr, hrs] at h
      | some ls =>
        simp only [hr, hrs, Option.some.injEq] at h
        subst h
        obtain ⟨hlen, hget⟩ := ih hrs
        cases hc : it.isCode with
        | false =>
          cases it <;> cases hc
          cases hr
          exact ⟨hlen, hget⟩
        | true =>
          obtain ⟨i0, rfl⟩ := resolveItem_code hc hr
          have hsz : it.size = 1 := by cases it <;> first | rfl | cases hc
          rw [coded_cons hc]
          refine ⟨by simp [hlen], fun k i hk => ?_⟩
          cases k with
          | zero =>
            simp only [List.singleton_append, List.getElem?_cons_zero, Option.some.injEq] at hk
            subst hk
            exact ⟨it, rfl, hr⟩
          | succ k =>
            obtain ⟨it', hit', hr'⟩ := hget k i (by simpa using hk)
            refine ⟨it', by simpa using hit', ?_⟩
            rw [hsz, Nat.add_assoc, Nat.add_comm 1 k] at hr'
            exact hr'

theorem resolve_length (h : resolve its = some code) : code.length = (coded its).length :=
  (resolveFrom_get h).1

theorem resolve_get (h : resolve its = some code)
    {i : Instr} (hk : code[k]? = some i) : ∃ it, (coded its)[k]? = some it ∧
      resolveItem (labelPos · its) (rodataOff its) k it = some [i] := by
  obtain ⟨it, hit, hr⟩ := (resolveFrom_get h).2 k i hk
  exact ⟨it, hit, by simpa using hr⟩

theorem resolve_ins (h : resolve its = some code)
    {i : Instr} (hk : (coded its)[k]? = some (.ins i)) : code[k]? = some i := by
  have hlt : k < code.length := by
    rw [resolve_length h]
    exact (List.getElem?_eq_some_iff.1 hk).1
  obtain ⟨it, hit, hr⟩ := resolve_get h (List.getElem?_eq_getElem hlt)
  rw [hk] at hit
  cases hit
  rw [List.getElem?_eq_getElem hlt]
  simpa [resolveItem] using hr.symm

/-- The label a branch or a call names, and how many bits its displacement has. -/
def Item.disp : Item → Option (Nat × Nat)
  | .b l | .bl l => some (l, 26)
  | .bcond _ l | .cbz _ l | .cbnz _ l => some (l, 19)
  | _ => none

/-- Every displacement of the buffer fits its field. -/
def DisplacementsFit (its : List Item) : Prop :=
  ∀ (k : Nat) (it : Item) (l w t : Nat), (coded its)[k]? = some it → it.disp = some (l, w) →
    labelPos l its = some t →
      ((t : Int) - k).bmod (2 ^ w) = (t : Int) - k

theorem Machine.jump_to (m : Machine) (t : Nat) :
    m.jump ((t : Int) - m.pc) = some { m with pc := t } := by
  unfold Machine.jump
  have h : (m.pc : Int) + ((t : Int) - m.pc) = t := by omega
  rw [h, if_pos (by omega)]
  rfl

end Verkos.Sav
