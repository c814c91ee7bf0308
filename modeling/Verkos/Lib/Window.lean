import Mathlib.Data.List.Basic
import Mathlib.Data.List.Sort
import Mathlib.Order.Defs.LinearOrder
import Mathlib.Tactic.Common

/-!
# A limit for each window of time

What is counted is let through as long as no more than `max` have been counted in the window that is
open. A window is not opened by the clock: the first count that comes more than `len` after the open
one began opens the next. So a stretch of time of that length can meet two windows, and twice `max`
is what is let through in it at most (`length_admitted_le`).
-/

namespace Verkos.Lib.Window

/-- When the window was opened, and what has been counted in it. -/
structure Limiter where
  opened : Int
  counted : Int
deriving DecidableEq

/-- One more is counted. -/
def Limiter.count (len : Int) (l : Limiter) (now : Int) : Limiter :=
  if len < now - l.opened then ⟨now, 1⟩ else ⟨l.opened, l.counted + 1⟩

variable (len : Int) (max : Nat)

/-- The times at which something is let through. -/
def admitted : Limiter → List Int → List Int
  | _, [] => []
  | l, now :: ts =>
    if (l.count len now).counted ≤ max then now :: admitted (l.count len now) ts
    else admitted (l.count len now) ts

/-- What the window that is open has left. -/
def Limiter.room (l : Limiter) : Nat := (max - l.counted).toNat

/-- Those of some times that are in the stretch that begins at `a`. -/
def within (a : Int) (ts : List Int) : List Int := ts.filter fun t => a ≤ t ∧ t ≤ a + len

variable {len max} {l : Limiter} {a t : Int} {ts : List Int}

theorem admitted_sublist (l : Limiter) (ts : List Int) : (admitted len max l ts).Sublist ts := by
  induction ts generalizing l with
  | nil => exact .slnil
  | cons t ts ih =>
    rw [admitted]
    split_ifs
    · exact (ih _).cons_cons t
    · exact (ih _).cons t

theorem count_nonneg (h : 0 ≤ l.counted) (t : Int) : 0 ≤ (l.count len t).counted := by
  rw [Limiter.count]
  split_ifs
  · exact Int.one_nonneg
  · exact Int.add_nonneg h Int.one_nonneg

variable (max) in
theorem room_le (h : 0 ≤ l.counted) : l.room max ≤ max := by
  rw [Limiter.room]
  omega

variable (max) in
/-- One more in the open window takes of the room, whether it is let through or not. -/
theorem room_count (h : ¬ len < t - l.opened) :
    (if (l.count len t).counted ≤ max then 1 else 0) + (l.count len t).room max ≤ l.room max := by
  rw [Limiter.count, if_neg h, Limiter.room, Limiter.room]
  dsimp only
  split_ifs <;> omega

variable (max) in
/-- The one that opens a window is in it. -/
theorem room_opened (h : len < t - l.opened) :
    (if (l.count len t).counted ≤ max then 1 else 0) + (l.count len t).room max ≤ max := by
  rw [Limiter.count, if_pos h, Limiter.room]
  dsimp only
  split_ifs <;> omega

theorem within_eq_nil (h : ∀ t ∈ ts, a + len < t) : within len a ts = [] := by
  rw [within, List.filter_eq_nil_iff]
  intro t ht hin
  have hlt := h t ht
  have hle := (of_decide_eq_true hin).2
  omega

variable (len max a) in
/-- One time more. -/
theorem length_within_admitted (l : Limiter) (t : Int) (ts : List Int) :
    (within len a (admitted len max l (t :: ts))).length ≤
      (if (l.count len t).counted ≤ max then 1 else 0) +
        (within len a (admitted len max (l.count len t) ts)).length := by
  rw [admitted]
  split_ifs
  · rw [within, List.filter_cons]
    split_ifs
    · rw [List.length_cons, Nat.add_comm]
      rfl
    · exact Nat.le_add_left _ _
  · exact Nat.le_add_left _ _

/-- In a stretch that begins before the open window, no other window is opened. -/
theorem length_within_le_room (hopen : a ≤ l.opened) (hts : ts.Pairwise (· ≤ ·)) :
    (within len a (admitted len max l ts)).length ≤ l.room max := by
  induction ts generalizing l with
  | nil => exact Nat.zero_le _
  | cons t ts ih =>
    obtain ⟨hle, hts⟩ := List.pairwise_cons.1 hts
    by_cases ht : a + len < t
    · have hnone : within len a (admitted len max l (t :: ts)) = [] := by
        apply within_eq_nil
        intro t' ht'
        rcases List.mem_cons.1 ((admitted_sublist l (t :: ts)).subset ht') with rfl | hmem
        · exact ht
        · exact lt_of_lt_of_le ht (hle t' hmem)
      rw [hnone]
      exact Nat.zero_le _
    · have hold : ¬ len < t - l.opened := by omega
      have hopen' : a ≤ (l.count len t).opened := by
        rw [Limiter.count, if_neg hold]
        exact hopen
      have hone := length_within_admitted len max a l t ts
      have hrest := ih hopen' hts
      have hroom := room_count max hold
      omega

/-- From the beginning of a stretch on, at most one window more is opened in it. -/
theorem length_within_le (hstart : ∀ t ∈ ts, a ≤ t) (hts : ts.Pairwise (· ≤ ·)) :
    (within len a (admitted len max l ts)).length ≤ l.room max + max := by
  induction ts generalizing l with
  | nil => exact Nat.zero_le _
  | cons t ts ih =>
    obtain ⟨hle, hts⟩ := List.pairwise_cons.1 hts
    have hone := length_within_admitted len max a l t ts
    by_cases hnew : len < t - l.opened
    · have hopen : a ≤ (l.count len t).opened := by
        rw [Limiter.count, if_pos hnew]
        exact hstart t List.mem_cons_self
      have hrest : (within len a (admitted len max _ ts)).length ≤ _ :=
        length_within_le_room hopen hts
      have hroom := room_opened max hnew
      omega
    · have hrest := ih (l := l.count len t) (fun t ht => hstart t (List.mem_cons_of_mem _ ht)) hts
      have hroom := room_count max hnew
      omega

/-- Twice the limit in any stretch of a window's length. -/
theorem length_admitted_le (h : 0 ≤ l.counted) (hts : ts.Pairwise (· ≤ ·)) (a : Int) :
    (within len a (admitted len max l ts)).length ≤ 2 * max := by
  induction ts generalizing l with
  | nil => exact Nat.zero_le _
  | cons t ts ih =>
    by_cases ht : a ≤ t
    · have hstart : ∀ t' ∈ t :: ts, a ≤ t' := by
        intro t' ht'
        rcases List.mem_cons.1 ht' with rfl | hmem
        · exact ht
        · exact ht.trans ((List.pairwise_cons.1 hts).1 t' hmem)
      have hbound : (within len a (admitted len max l (t :: ts))).length ≤ l.room max + max :=
        length_within_le hstart hts
      have hroom := room_le max h
      omega
    · have hskip : within len a (admitted len max l (t :: ts)) =
          within len a (admitted len max (l.count len t) ts) := by
        rw [admitted]
        split_ifs
        · rw [within, List.filter_cons_of_neg (by simp [ht])]
          rfl
        · rfl
      rw [hskip]
      exact ih (count_nonneg h t) (List.pairwise_cons.1 hts).2

end Verkos.Lib.Window
