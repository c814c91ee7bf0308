import Verkos.Lib.Shared

/-!
# Two programs, step by step

`System` is two programs over the same cells; a schedule says whose step is next, and a step that
takes the lock can only come when nobody has it. `trace` is what the steps of a schedule have asked
and put.

`serial` is the serialization rule. Of the programs one is the `first`; the run is as if it had
run before the other if what the other was answered is still the answer once the `first` is through
with that cell, and if the `first` no longer touches what the other has put.
-/

namespace Verkos.Lib

open Function

variable {F V : Type} {X : Asks F V} {α : Type}

/-- A question with the answer it got, new contents, or the lock. -/
inductive Event (X : Asks F V)
  | ask (q : X.Query) (a : X.Answer q)
  | put (f : F) (v : V)
  | lock
  | unlock

/-- The cell that an event is about. -/
def Event.Touches (f : F) : Event X → Prop
  | ask q _ => X.cell q = f
  | put g _ => g = f
  | lock | unlock => False

structure System (X : Asks F V) (α : Type) where
  store : F → V
  owner : Option Bool
  prog : Bool → Prog X α

variable [DecidableEq F]

/-- The next step of a program: what it does, the cells then, and how it goes on. -/
def Prog.act (σ : F → V) : Prog X α → Option (Event X × (F → V) × Prog X α)
  | done _ | fail => none
  | ask q k => some (.ask q (X.answer q (σ (X.cell q))), σ, k (X.answer q (σ (X.cell q))))
  | put f v k => some (.put f v, Function.update σ f v, k)
  | lock k => some (.lock, σ, k)
  | unlock k => some (.unlock, σ, k)

variable {p p' : Prog X α} {σ σ₁ : F → V} {a : α}

namespace System

/-- Who has the lock after an event, if it can come. -/
def ownerAfter (owner : Option Bool) (i : Bool) : Event X → Option (Option Bool)
  | .lock => if owner = none then some (some i) else none
  | .unlock => some none
  | .ask _ _ | .put _ _ => some owner

/-- A step of program `i`, with its event. -/
def next (s : System X α) (i : Bool) : Option (Event X × System X α) :=
  ((s.prog i).act s.store).bind fun (e, σ, p) =>
    (ownerAfter s.owner i e).map fun owner => (e, ⟨σ, owner, Function.update s.prog i p⟩)

def step (s : System X α) (i : Bool) : Option (System X α) := (s.next i).map (·.2)

/-- The events of a schedule. -/
def trace (s : System X α) : List Bool → List (Bool × Event X)
  | [] => []
  | i :: is =>
    match s.next i with
    | none => []
    | some (e, s') => (i, e) :: trace s' is

/-- The contents that program `i` puts into a cell last. -/
def lastPut (i : Bool) (f : F) : List (Bool × Event X) → Option V
  | [] => none
  | (j, .put g v) :: τ => (lastPut i f τ).or (if j = i ∧ g = f then some v else none)
  | (_, .ask _ _) :: τ | (_, .lock) :: τ | (_, .unlock) :: τ => lastPut i f τ

/-- What an event of the other program asks of the events behind it. -/
def Stands (first : Bool) (τ : List (Bool × Event X)) : Event X → Prop
  | .ask q a => ∀ v, lastPut first (X.cell q) τ = some v → X.answer q v = a
  | .put f _ => ∀ e ∈ τ, e.1 = first → ¬e.2.Touches f
  | .lock | .unlock => True

/-- No answer of the other program becomes wrong by what `first` still does, and `first` does not
touch what the other has put. -/
def Unaffected (first : Bool) : List (Bool × Event X) → Prop
  | [] => True
  | (i, e) :: τ => (i ≠ first → Stands first τ e) ∧ Unaffected first τ

/-- Program `i` on its own does what it does in the trace, from any cells that have what it looks
at. -/
def RunsAs (p : Prog X α) (σ : F → V) (i : Bool) (a : α) (τ : List (Bool × Event X)) : Prop :=
  ∀ σ' : F → V, (∀ e ∈ τ, e.1 = i → ∀ f, e.2.Touches f → σ' f = σ f) →
    p.run σ' = (some a, fun f => (lastPut i f τ).getD (σ' f))

variable {s s' s₁ : System X α} {first i : Bool} {e : Event X} {τ : List (Bool × Event X)} {f : F}

theorem lastPut_of_untouched (h : ∀ e ∈ τ, e.1 = i → ¬e.2.Touches f) : lastPut i f τ = none := by
  induction τ with
  | nil => rfl
  | cons d τ ih =>
    have hrest := ih fun e he => h e (.tail _ he)
    obtain ⟨j, e⟩ := d
    cases e with
    | put g v =>
      have hno : ¬(j = i ∧ g = f) := fun hsame => h _ (.head _) hsame.1 hsame.2
      rw [lastPut, hrest, if_neg hno]
      rfl
    | ask q a | lock | unlock => exact hrest

/-- A step is one of a program whose next step it is. -/
theorem next_eq_some (h : s.next i = some (e, s₁)) :
    ∃ p, (s.prog i).act s.store = some (e, s₁.store, p) ∧ s₁.prog = update s.prog i p := by
  obtain ⟨⟨e', σ, p⟩, hact, hrest⟩ := Option.bind_eq_some_iff.1 h
  obtain ⟨owner, -, heq⟩ := Option.map_eq_some_iff.1 hrest
  obtain ⟨rfl, rfl⟩ := Prod.mk.inj heq
  exact ⟨p, hact, rfl⟩

/-- A step of its own in front. -/
theorem RunsAs.own (hact : p.act σ = some (e, σ₁, p'))
    (h : RunsAs p' σ₁ i a τ) : RunsAs p σ i a ((i, e) :: τ) := by
  intro σ' hσ'
  have hlater : ∀ d ∈ τ, d.1 = i → ∀ f, d.2.Touches f → σ' f = σ f :=
    fun d hd => hσ' d (.tail _ hd)
  cases p with
  | done _ | fail => cases hact
  | ask q k =>
    cases hact
    have hcell : σ' (X.cell q) = σ (X.cell q) := hσ' _ (.head _) rfl _ rfl
    rw [Prog.run, hcell, h σ' hlater]
    rfl
  | put g v k =>
    cases hact
    have hsame : ∀ d ∈ τ, d.1 = i → ∀ f, d.2.Touches f →
        update σ' g v f = update σ g v f := by
      intro d hd hi f hf
      by_cases hg : f = g
      · rw [hg, update_self, update_self]
      · rw [update_of_ne hg, update_of_ne hg]
        exact hlater d hd hi f hf
    rw [Prog.run, h _ hsame]
    congr 1
    funext f
    rw [lastPut]
    by_cases hg : g = f
    · rw [if_pos ⟨rfl, hg⟩, hg, update_self]
      cases lastPut i f τ <;> rfl
    · rw [if_neg fun hsame => hg hsame.2, update_of_ne (Ne.symm hg), Option.or_none]
  | lock k | unlock k =>
    cases hact
    exact h σ' hlater

/-- A step of the other program in front: what it asks is no matter, and what it puts is not
touched. -/
theorem RunsAs.other {q q' : Prog X α} {j : Bool} (hj : j ≠ i)
    (hact : q.act σ = some (e, σ₁, q')) (hstands : Stands i τ e) (h : RunsAs p σ₁ i a τ) :
    RunsAs p σ i a ((j, e) :: τ) := by
  intro σ' hσ'
  have hlater : ∀ d ∈ τ, d.1 = i → ∀ f, d.2.Touches f → σ' f = σ f :=
    fun d hd => hσ' d (.tail _ hd)
  cases q with
  | done _ | fail => cases hact
  | ask r k | lock k | unlock k =>
    cases hact
    exact h σ' hlater
  | put g v k =>
    cases hact
    have hsame : ∀ d ∈ τ, d.1 = i → ∀ f, d.2.Touches f → σ' f = update σ g v f := by
      intro d hd hi f hf
      have hg : f ≠ g := by
        rintro rfl
        exact hstands d hd hi hf
      rw [update_of_ne hg]
      exact hlater d hd hi f hf
    rw [h σ' hsame]
    congr 1
    funext f
    rw [lastPut, if_neg fun hsame => hj hsame.1, Option.or_none]

theorem run_act (hact : p.act σ = some (e, σ₁, p')) : p.run σ = p'.run σ₁ := by
  cases p with
  | done _ | fail => cases hact
  | ask q k | put f v k | lock k | unlock k =>
    cases hact
    rfl

/-- The other program goes on alike behind the `first`. -/
theorem run_other {r : Option α × (F → V)}
    (hact : p.act σ = some (e, σ₁, p')) (hstands : Stands first τ e)
    (h : p'.run (fun f => (lastPut first f τ).getD (σ₁ f)) = r) :
    p.run (fun f => (lastPut first f τ).getD (σ f)) = r := by
  cases p with
  | done _ | fail => cases hact
  | ask q k =>
    cases hact
    have hanswer : X.answer q ((lastPut first (X.cell q) τ).getD (σ (X.cell q))) =
        X.answer q (σ (X.cell q)) := by
      cases hlast : lastPut first (X.cell q) τ with
      | none => rfl
      | some v => exact hstands v hlast
    rw [Prog.run, hanswer, h]
  | put g v k =>
    cases hact
    rw [Prog.run, ← h]
    congr 1
    funext f
    by_cases hg : f = g
    · rw [hg, update_self, lastPut_of_untouched hstands, Option.getD_none,
        update_self]
    · rw [update_of_ne hg, update_of_ne hg]
  | lock k | unlock k =>
    cases hact
    exact h

section

variable {is : List Bool} {b : α} (hrun : exec step s is = some s')
  (hdone : s'.prog first = .done a) (hother : s'.prog (!first) = .done b)
  (hun : Unaffected first (s.trace is))
include hrun hdone hother hun

/-- Two programs whose steps leave each other's answers alone have run one after the other. -/
theorem serial_run : RunsAs (s.prog first) s.store first a (s.trace is) ∧
    (s.prog (!first)).run (fun f => (lastPut first f (s.trace is)).getD (s.store f)) =
      (some b, s'.store) := by
  induction is generalizing s with
  | nil =>
    obtain rfl := Option.some.inj hrun
    rw [hdone, hother]
    exact ⟨fun _ _ => rfl, rfl⟩
  | cons i is ih =>
    obtain ⟨s₁, hstep, hrun⟩ := Option.bind_eq_some_iff.1 hrun
    obtain ⟨⟨e, s2⟩, hnext, heq⟩ := Option.map_eq_some_iff.1 hstep
    obtain rfl : s2 = s₁ := heq
    have htrace : s.trace (i :: is) = (i, e) :: trace s2 is := by
      rw [trace, hnext]
    rw [htrace] at hun ⊢
    obtain ⟨hstands, hun⟩ := hun
    obtain ⟨p, hact, hprog⟩ := next_eq_some hnext
    obtain ⟨hfirst, hlast⟩ := ih hrun hun
    by_cases hi : i = first
    · subst hi
      have hself : s2.prog i = p := by rw [hprog, update_self]
      have hnot : s2.prog (!i) = s.prog (!i) := by
        rw [hprog, update_of_ne (Bool.not_ne_self i)]
      rw [hself] at hfirst
      rw [hnot] at hlast
      have hown := hfirst.own hact
      refine ⟨hown, ?_⟩
      -- the cells behind the first program are the same, seen from one step earlier
      have hcells : (fun f => (lastPut i f ((i, e) :: trace s2 is)).getD (s.store f)) =
          fun f => (lastPut i f (trace s2 is)).getD (s2.store f) := by
        have hrunOwn := hown s.store fun _ _ _ _ _ => rfl
        have hrunLater := hfirst s2.store fun _ _ _ _ _ => rfl
        have hsame : (s.prog i).run s.store = p.run s2.store := run_act hact
        rw [hrunOwn, hrunLater] at hsame
        exact (Prod.mk.inj hsame).2
      rw [hcells]
      exact hlast
    · have hi' : i = !first := Bool.eq_not.2 hi
      subst hi'
      have hself : s2.prog (!first) = p := by rw [hprog, update_self]
      have hnot : s2.prog first = s.prog first := by
        rw [hprog, update_of_ne (Ne.symm hi)]
      rw [hnot] at hfirst
      rw [hself] at hlast
      refine ⟨hfirst.other hi hact (hstands hi), ?_⟩
      have hskip : ∀ f, lastPut first f ((!first, e) :: trace s2 is) =
          lastPut first f (trace s2 is) := by
        intro f
        cases e with
        | put g v => rw [lastPut, if_neg fun hsame => hi hsame.1, Option.or_none]
        | ask q a | lock | unlock => rfl
      simp only [hskip]
      exact run_other hact (hstands hi) hlast

/-- The serialization rule. -/
theorem serial : ∃ σ, (s.prog first).run s.store = (some a, σ) ∧
      (s.prog (!first)).run σ = (some b, s'.store) := by
  obtain ⟨hfirst, hlast⟩ := serial_run hrun hdone hother hun
  exact ⟨_, hfirst s.store fun _ _ _ _ _ => rfl, hlast⟩

end

end System

end Verkos.Lib
