import Mathlib.Data.List.Perm.Basic
import Mathlib.Logic.Relation
import Mathlib.Tactic.Common

/-!
# Depth-first search in postorder

A search that marks what it comes to as seen, and puts a vertex into the order once everything it
depends on has been searched. `Visit deps l s s'` is the search from the vertices `l`, one after
another, with what is seen and the order so far kept all the way. From the start the order has every
vertex that can be reached, once (`Visit.mem_order`, `Visit.nodup`), and each one after what it
depends on where nothing depends on itself (`Visit.sorted`).
-/

namespace Verkos.Lib.Postorder

open List

variable {α : Type}

structure Marks (α : Type) where
  seen : List α
  order : List α

variable (deps : α → List α)

inductive Visit : List α → Marks α → Marks α → Prop
  | nil (s : Marks α) : Visit [] s s
  | seen {a : α} {l : List α} {s s' : Marks α} (ha : a ∈ s.seen) (h : Visit l s s') :
    Visit (a :: l) s s'
  | new {a : α} {l : List α} {s t s' : Marks α} (ha : a ∉ s.seen)
    (below : Visit (deps a) ⟨s.seen ++ [a], s.order⟩ t) (h : Visit l ⟨t.seen, t.order ++ [a]⟩ s') :
    Visit (a :: l) s s'

/-- What a vertex depends on, itself included. -/
def Reach : α → α → Prop := Relation.ReflTransGen fun a b => b ∈ deps a

/-- What a vertex depends on in at least one step. -/
def Below : α → α → Prop := Relation.TransGen fun a b => b ∈ deps a

/-- Each vertex comes after everything it depends on. -/
def Sorted (order : List α) : Prop :=
  ∀ l x l', order = l ++ x :: l' → ∀ y ∈ deps x, y ∈ l

/-- Seen, and still waiting for what it depends on. -/
def Marks.Open (s : Marks α) (x : α) : Prop := x ∈ s.seen ∧ x ∉ s.order

variable {deps} {a : α} {l m : List α} {s t s' : Marks α}

theorem sorted_nil : Sorted deps [] := by
  intro l x l' h
  simp at h

theorem Sorted.concat (h : Sorted deps l) (ha : ∀ y ∈ deps a, y ∈ l) : Sorted deps (l ++ [a]) := by
  intro k x k' heq
  rcases eq_nil_or_concat k' with rfl | ⟨k'', z, rfl⟩
  · obtain ⟨rfl, hx⟩ := append_inj' heq rfl
    obtain rfl := singleton_inj.1 hx
    exact ha
  · rw [concat_eq_append, ← cons_append, ← append_assoc] at heq
    obtain ⟨rfl, -⟩ := append_inj' heq rfl
    exact h k x k'' rfl

namespace Visit

/-- One vertex, and then others. -/
theorem trans (h : Visit deps [a] s t) (h' : Visit deps l t s') : Visit deps (a :: l) s s' := by
  cases h with
  | seen ha h => cases h with | nil => exact .seen ha h'
  | new ha below h => cases h with | nil => exact .new ha below h'

section

variable (h : Visit deps l s s')
include h

/-- What is added to the order is what is added to the seen. -/
theorem grows : ∃ new post, s'.seen = s.seen ++ new ∧
    s'.order = s.order ++ post ∧ post.Perm new := by
  induction h with
  | nil s => exact ⟨[], [], (append_nil _).symm, (append_nil _).symm, .nil⟩
  | seen _ _ ih => exact ih
  | @new a l s t s' _ _ _ ihb ih =>
    obtain ⟨newb, postb, hseenb, horderb, hpermb⟩ := ihb
    obtain ⟨new, post, hseen, horder, hperm⟩ := ih
    refine ⟨[a] ++ newb ++ new, postb ++ [a] ++ post, ?_, ?_, ?_⟩
    · rw [hseen, hseenb]
      simp only [append_assoc]
    · rw [horder, horderb]
      simp only [append_assoc]
    · exact ((perm_append_comm.trans (hpermb.append_left [a]))).append hperm

theorem seen_mono : s.seen ⊆ s'.seen := by
  obtain ⟨new, post, hseen, -, -⟩ := h.grows
  rw [hseen]
  exact subset_append_left _ _

/-- A vertex that waits has waited from before. -/
theorem open_of {x : α} (hx : s'.Open x) : s.Open x := by
  obtain ⟨new, post, hseen, horder, hperm⟩ := h.grows
  obtain ⟨hxs, hxo⟩ := hx
  rw [hseen, mem_append] at hxs
  rw [horder, mem_append, hperm.mem_iff] at hxo
  exact ⟨hxs.resolve_right fun hn => hxo (.inr hn), fun ho => hxo (.inl ho)⟩

theorem covers : ∀ a ∈ l, a ∈ s'.seen := by
  induction h with
  | nil s => exact fun a ha => absurd ha not_mem_nil
  | @seen b l s s' hb h ih =>
    intro a ha
    rcases mem_cons.1 ha with rfl | ha
    · exact h.seen_mono hb
    · exact ih a ha
  | @new b l s t s' hb below h ihb ih =>
    intro a ha
    rcases mem_cons.1 ha with rfl | ha
    · exact h.seen_mono (below.seen_mono (mem_append_right _ (mem_singleton_self _)))
    · exact ih a ha

theorem seen_nodup (hs : s.seen.Nodup) : s'.seen.Nodup := by
  induction h with
  | nil s => exact hs
  | seen _ _ ih => exact ih hs
  | @new a l s t s' ha _ _ ihb ih =>
    refine ih (ihb ?_)
    exact (perm_append_singleton a s.seen).nodup_iff.2 (nodup_cons.2 ⟨ha, hs⟩)

/-- Everything that is seen is in any set that has the start and is closed. -/
theorem seen_subset {P : α → Prop} (hP : ∀ a, P a → ∀ b ∈ deps a, P b) (hl : ∀ a ∈ l, P a)
    (hs : ∀ a ∈ s.seen, P a) : ∀ a ∈ s'.seen, P a := by
  induction h with
  | nil s => exact hs
  | @seen b l s s' _ _ ih => exact ih (fun a ha => hl a (mem_cons_of_mem _ ha)) hs
  | @new b l s t s' _ _ _ ihb ih =>
    have hb : P b := hl b mem_cons_self
    refine ih (fun a ha => hl a (mem_cons_of_mem _ ha)) (ihb (hP b hb) fun a ha => ?_)
    rcases mem_append.1 ha with ha | ha
    · exact hs a ha
    · rwa [mem_singleton.1 ha]

/-- What a newly seen vertex depends on is seen. -/
theorem closed : ∀ x ∈ s'.seen, x ∈ s.seen ∨ ∀ y ∈ deps x, y ∈ s'.seen := by
  induction h with
  | nil s => exact fun x hx => .inl hx
  | seen _ _ ih => exact ih
  | @new a l s t s' ha below h ihb ih =>
    intro x hx
    rcases ih x hx with hxt | hdeps
    · rcases ihb x hxt with hxs | hdeps
      · rcases mem_append.1 hxs with hxs | hxa
        · exact .inl hxs
        · rw [mem_singleton.1 hxa]
          exact .inr fun y hy => h.seen_mono (below.covers y hy)
      · exact .inr fun y hy => h.seen_mono (hdeps y hy)
    · exact .inr hdeps

/-- The order stays sorted. What waits is above everything that is searched. -/
theorem sorted_of (hacyclic : ∀ x ∈ s'.seen, ¬ Below deps x x)
    (hopen : ∀ x, s.Open x → ∀ a ∈ l, Below deps x a) (hs : Sorted deps s.order) :
    Sorted deps s'.order := by
  induction h with
  | nil s => exact hs
  | seen _ _ ih => exact ih hacyclic (fun x hx a ha => hopen x hx a (mem_cons_of_mem _ ha)) hs
  | @new a l s t s' ha below h ihb ih =>
    have hbelow : ∀ x, Marks.Open ⟨s.seen ++ [a], s.order⟩ x → ∀ y ∈ deps a, Below deps x y := by
      rintro x ⟨hxs, hxo⟩ y hy
      rcases mem_append.1 hxs with hxs | hxa
      · exact (hopen x ⟨hxs, hxo⟩ a mem_cons_self).tail hy
      · rw [mem_singleton.1 hxa]
        exact .single hy
    have hdeps : ∀ y ∈ deps a, y ∈ t.order := by
      intro y hy
      by_contra hno
      have hseen := below.covers y hy
      exact hacyclic y (h.seen_mono hseen) (hbelow y (below.open_of ⟨hseen, hno⟩) y hy)
    have hsub := ihb (fun x hx => hacyclic x (h.seen_mono hx)) hbelow hs
    refine ih hacyclic (fun x hx b hb => ?_) (hsub.concat hdeps)
    obtain ⟨hxs, hxo⟩ := hx
    have hxt := below.open_of ⟨hxs, fun ho => hxo (mem_append_left _ ho)⟩
    refine hopen x ⟨?_, hxt.2⟩ b (mem_cons_of_mem _ hb)
    rcases mem_append.1 hxt.1 with hxs | hxa
    · exact hxs
    · exact absurd (mem_append_right _ hxa) hxo

end

/-! ## From the start -/

section Start

variable (h : Visit deps l ⟨[], []⟩ s)

include h

theorem order_perm : s.order.Perm s.seen := by
  obtain ⟨new, post, hseen, horder, hperm⟩ := h.grows
  rw [hseen, horder]
  exact hperm

theorem nodup : s.order.Nodup := h.order_perm.nodup_iff.2 (h.seen_nodup nodup_nil)

theorem mem_order (x : α) : x ∈ s.order ↔ ∃ a ∈ l, Reach deps a x := by
  rw [h.order_perm.mem_iff]
  constructor
  · refine h.seen_subset (P := fun x => ∃ a ∈ l, Reach deps a x) ?_ ?_ ?_ x
    · rintro b ⟨a, ha, hab⟩ c hc
      exact ⟨a, ha, hab.tail hc⟩
    · exact fun a ha => ⟨a, ha, .refl⟩
    · exact fun a ha => absurd ha not_mem_nil
  · rintro ⟨a, ha, hax⟩
    induction hax with
    | refl => exact h.covers a ha
    | tail _ hbc ih => exact (h.closed _ ih).resolve_left not_mem_nil _ hbc

theorem sorted (hacyclic : ∀ x ∈ s.seen, ¬ Below deps x x) : Sorted deps s.order :=
  h.sorted_of hacyclic (fun _ hx => absurd hx.1 not_mem_nil) sorted_nil

end Start

end Visit

end Verkos.Lib.Postorder
