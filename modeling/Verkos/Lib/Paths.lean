import Verkos.Lib.Links

/-!
# Paths as they are written

A path is written with a separator between the names; a name of one dot or of two is no name. What
stands in front of a separator is a path too, and goes by what the whole goes by first.
-/

namespace Verkos.Lib.Paths

open Links
open List

variable {α : Type*} [DecidableEq α]

section Defs

variable (sep dot : α)

/-- What stands between the separators. -/
def pieces : List α → List (List α)
  | [] => [[]]
  | c :: cs =>
    if c = sep then [] :: pieces cs
    else
      match pieces cs with
      | [] => [[c]]
      | p :: ps => (c :: p) :: ps

/-- What a piece says; an empty one says nothing. -/
def comp (p : List α) : Option (Comp (List α)) :=
  if p = [] then none
  else if p = [dot] then some .here
  else if p = [dot, dot] then some .up
  else some (.name p)

def comps (s : List α) : List (Comp (List α)) := (pieces sep s).filterMap (comp dot)

/-- The path that is written. -/
def route (s : List α) : Route (List α) :=
  ⟨s.head? = some sep, comps sep dot s, s.getLast? = some sep⟩

/-- What is in front of each separator, `done` being what has been gone over. -/
def fronts (done : List α) : List α → List (List α)
  | [] => []
  | c :: cs => if c = sep then done :: fronts (done ++ [c]) cs else fronts (done ++ [c]) cs

/-- Whether a piece is two dots. -/
def climbs (s : List α) : Bool := (pieces sep s).any (· = [dot, dot])

end Defs

variable {sep dot : α} {s q : List α}

theorem pieces_ne_nil (s : List α) : pieces sep s ≠ [] := by
  cases s with
  | nil => exact cons_ne_nil _ _
  | cons c cs =>
    rw [pieces]
    split
    · exact cons_ne_nil _ _
    · split <;> exact cons_ne_nil _ _

theorem pieces_append (a b : List α) :
    pieces sep (a ++ sep :: b) = pieces sep a ++ pieces sep b := by
  induction a with
  | nil => simp [pieces]
  | cons c a ih =>
    rw [cons_append, pieces, pieces, ih]
    split
    · rfl
    · cases h : pieces sep a with
      | nil => exact absurd h (pieces_ne_nil a)
      | cons p ps => rfl

theorem comps_append (a b : List α) :
    comps sep dot (a ++ sep :: b) = comps sep dot a ++ comps sep dot b := by
  rw [comps, pieces_append, filterMap_append]
  rfl

theorem comps_piece {p : List α} (h : sep ∉ p) : comps sep dot p = (comp dot p).toList := by
  have hpieces : pieces sep p = [p] := by
    induction p with
    | nil => rfl
    | cons c p ih =>
      rw [pieces, if_neg fun hc => h (by simp [hc]), ih fun hmem => h (.tail _ hmem)]
  rw [comps, hpieces]
  cases hc : comp dot p <;> simp [hc]

theorem climbs_append (a b : List α) :
    climbs sep dot (a ++ sep :: b) = (climbs sep dot a || climbs sep dot b) := by
  rw [climbs, pieces_append, any_append]
  rfl

theorem fronts_append (done a b : List α) : fronts sep done (a ++ sep :: b) =
      fronts sep done a ++ (done ++ a) :: fronts sep (done ++ a ++ [sep]) b := by
  induction a generalizing done with
  | nil => simp [fronts]
  | cons c a ih =>
    rw [cons_append, fronts, fronts, ih]
    split <;> simp

theorem mem_fronts {done : List α} (h : q ∈ fronts sep done s) :
    ∃ a b, q = done ++ a ∧ s = a ++ sep :: b := by
  induction s generalizing done with
  | nil => cases h
  | cons c s ih =>
    have hlater : q ∈ fronts sep (done ++ [c]) s → ∃ a b, q = done ++ a ∧ c :: s = a ++ sep :: b := by
      intro hq
      obtain ⟨a, b, rfl, rfl⟩ := ih hq
      exact ⟨c :: a, b, by simp, rfl⟩
    rw [fronts] at h
    split at h
    · rename_i hc
      rcases mem_cons.1 h with rfl | hq
      · exact ⟨[], s, by simp, by rw [hc]; rfl⟩
      · exact hlater hq
    · exact hlater h

theorem straight_of_mem_fronts {δ φ : Type*} {t : Tree (List α) δ φ} {behind : Bool}
    {cur : Place (List α)} (h : Straight t behind cur (comps sep dot s))
    (hq : q ∈ fronts sep [] s) : Straight t false cur (comps sep dot q) := by
  obtain ⟨a, b, rfl, rfl⟩ := mem_fronts hq
  rw [comps_append] at h
  by_cases hb : comps sep dot b = []
  · rw [hb, append_nil] at h
    exact h.at_end
  · exact (h.front hb).at_end

theorem comp_eq_up {p : List α} : comp dot p = some .up ↔ p = [dot, dot] := by
  unfold comp
  split_ifs with h1 h2 h3 <;> simp_all

theorem up_notMem_comps (h : climbs sep dot s = false) : Comp.up ∉ comps sep dot s := by
  intro hup
  obtain ⟨p, hp, hcomp⟩ := mem_filterMap.1 hup
  have := any_eq_false.1 h p hp
  simp [comp_eq_up.1 hcomp] at this

/-- What is cut off a path that does not climb can climb at its end only. -/
theorem concat_up_of_mem {z : List α} (h : climbs sep dot (q ++ z) = false)
    (hup : Comp.up ∈ comps sep dot q) : ∃ cs, comps sep dot q = cs ++ [Comp.up] := by
  induction hlen : q.length using Nat.strong_induction_on generalizing q with
  | _ k ih =>
    by_cases hsep : sep ∈ q
    · obtain ⟨a, b, rfl, -⟩ := eq_append_cons_of_mem hsep
      rw [append_assoc, cons_append, climbs_append, Bool.or_eq_false_iff] at h
      rw [comps_append] at hup ⊢
      have hb := (mem_append.1 hup).resolve_left (up_notMem_comps h.1)
      rw [length_append, length_cons] at hlen
      obtain ⟨cs, hcs⟩ := ih b.length (by omega) h.2 hb rfl
      exact ⟨comps sep dot a ++ cs, by rw [hcs, append_assoc]⟩
    · rw [comps_piece hsep] at hup ⊢
      cases hc : comp dot q with
      | none => simp [hc] at hup
      | some c =>
        obtain rfl : Comp.up = c := by simpa [hc] using hup
        exact ⟨[], rfl⟩

end Verkos.Lib.Paths
