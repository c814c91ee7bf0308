import Verkos.Stam.Descriptors

/-!
# Slots handed out twice

`alloc_slot` finds a free thread slot and leaves it free: the creator makes it runnable with its last
line, and no lock is held in between. `file_alloc` tests an object and takes it with the next
statement; `file_open`, `file_pipe` and `file_console` hold the scheduler's lock around it, `file_udp`,
`file_tcp` and `file_tcp_adopt` do not. So two that look at the same time can find the same slot, or
the same object.

A run here is of the statements of any number of callers, in any order the lock allows. `Creating`
and `Allocating` say where a caller stands; `given` counts, for each object, the calls that were
given it and have not had it closed.
-/

namespace Verkos.Stam

open Function

/-- Where a caller stands in `thread_create` or `thread_fork`: in the loop of `alloc_slot`, in its
last lines with the slot behind the ones in use, or with a slot it builds a thread in. -/
inductive Creating
  | idle
  | scanning (i : Nat)
  | clearing (slot : Nat)
  | counting (slot : Nat)
  | building (slot : Nat)
deriving DecidableEq

/-- The slot a caller has. -/
def Creating.slot : Creating → Option Nat
  | .idle => none
  | .scanning _ => none
  | .clearing slot => some slot
  | .counting slot => some slot
  | .building slot => some slot

/-- Where a caller stands in `file_alloc`, and whether it holds the lock. -/
inductive Allocating
  | idle
  | scanning (locked : Bool) (i : Nat)
  | storing (locked : Bool) (i : Nat)
deriving DecidableEq

def Allocating.locked : Allocating → Bool
  | .idle => false
  | .scanning locked _ => locked
  | .storing locked _ => locked

structure Handout (ι : Type) where
  nThreads : Nat
  threadFree : Nat → Bool
  creating : ι → Creating
  lock : Option ι
  fileFree : Nat → Bool
  allocating : ι → Allocating
  given : Nat → Nat

inductive HandoutEvent (ι : Type)
  /-- `alloc_slot` begins. -/
  | creates (a : ι)
  /-- The next statement of `alloc_slot`. -/
  | looks (a : ι)
  /-- The last line of a creator, or the one that gives up. -/
  | finishes (a : ι) (ok : Bool)
  /-- A thread that is over is collected. -/
  | releases (slot : Nat)
  /-- `file_alloc` begins, under the lock or not. -/
  | allocs (a : ι) (locked : Bool)
  /-- The next statement of `file_alloc`. -/
  | tests (a : ι)
  /-- `file_close` by the last holder. -/
  | frees (f : Nat)

namespace Handout

variable {ι : Type} [DecidableEq ι]

def setCreating (w : Handout ι) (a : ι) (c : Creating) : Handout ι :=
  { w with creating := Function.update w.creating a c }

def setAllocating (w : Handout ι) (a : ι) (c : Allocating) : Handout ι :=
  { w with allocating := Function.update w.allocating a c }

def setThreadFree (w : Handout ι) (slot : Nat) (free : Bool) : Handout ι :=
  { w with threadFree := Function.update w.threadFree slot free }

/-- A statement of `alloc_slot`. -/
def look (w : Handout ι) (a : ι) : Option (Handout ι) :=
  match w.creating a with
  | .scanning i =>
    if i < w.nThreads then
      some (w.setCreating a (if w.threadFree i then .building i else .scanning (i + 1)))
    else if w.nThreads < maxThreads then some (w.setCreating a (.clearing w.nThreads))
    else some (w.setCreating a .idle)
  | .clearing slot => some ((w.setThreadFree slot true).setCreating a (.counting slot))
  | .counting slot => some (({ w with nThreads := w.nThreads + 1 }).setCreating a (.building slot))
  | _ => none

/-- The lock is let go by whoever held it. -/
def leave (w : Handout ι) (locked : Bool) : Handout ι :=
  if locked then { w with lock := none } else w

/-- A statement of `file_alloc`; what is behind the store fills the object in. -/
def test (w : Handout ι) (a : ι) : Option (Handout ι) :=
  match w.allocating a with
  | .scanning locked i =>
    if i < nFile then
      some (w.setAllocating a (if w.fileFree i then .storing locked i else .scanning locked (i + 1)))
    else some ((w.leave locked).setAllocating a .idle)
  | .storing locked i =>
    some (({ w.leave locked with
      fileFree := Function.update w.fileFree i false
      given := Function.update w.given i (w.given i + 1) }).setAllocating a .idle)
  | .idle => none

def step (w : Handout ι) : HandoutEvent ι → Option (Handout ι)
  | .creates a => if w.creating a = .idle then some (w.setCreating a (.scanning 0)) else none
  | .looks a => w.look a
  | .finishes a ok =>
    match w.creating a with
    | .building slot => some ((w.setThreadFree slot (!ok)).setCreating a .idle)
    | _ => none
  | .releases slot => if w.threadFree slot then none else some (w.setThreadFree slot true)
  | .allocs a locked =>
    if w.allocating a = .idle ∧ (locked = true → w.lock = none) then
      some (({ w with lock := if locked then some a else w.lock }).setAllocating a (.scanning locked 0))
    else none
  | .tests a => w.test a
  | .frees f =>
    if w.fileFree f = false ∧ 0 < w.given f ∧ w.lock = none then
      some { w with
        fileFree := Function.update w.fileFree f true
        given := Function.update w.given f (w.given f - 1) }
    else none

/-- Nothing under way, nothing given. -/
structure Fresh (w : Handout ι) : Prop where
  creating : ∀ a, w.creating a = .idle
  allocating : ∀ a, w.allocating a = .idle
  lock : w.lock = none
  fileFree : ∀ f, w.fileFree f = true
  given : ∀ f, w.given f = 0

/-- No slot is with two creators, and no object was given to two calls. -/
structure Once (w : Handout ι) : Prop where
  slots : ∀ a b slot, (w.creating a).slot = some slot → (w.creating b).slot = some slot → a = b
  files : ∀ f, w.given f ≤ 1

/-- A creation begins when no other is under way; a `file_alloc` without the lock when no other is,
and one with the lock when no other without it is. -/
def Apart (w : Handout ι) : HandoutEvent ι → Prop
  | .creates _ => ∀ b, w.creating b = .idle
  | .allocs _ locked => ∀ b, w.allocating b = .idle ∨
      (locked = true ∧ (w.allocating b).locked = true)
  | _ => True

end Handout

/-- What can be reached by steps that each meet `ok`. -/
inductive Handout.Run {ι : Type} [DecidableEq ι] (ok : Handout ι → HandoutEvent ι → Prop) :
    Handout ι → Prop
  | start {w : Handout ι} : w.Fresh → Run ok w
  | step {w w' : Handout ι} (e : HandoutEvent ι) : Run ok w → ok w e → w.step e = some w' → Run ok w'

/-! ## One at a time -/

/-- At most one creation and one `file_alloc` are under way, and an object is free exactly when it is
given to nobody; the one that is about to be taken is. -/
structure Handout.Inv {ι : Type} (w : Handout ι) : Prop where
  creating : ∀ a b, w.creating a ≠ .idle → w.creating b ≠ .idle → a = b
  allocating : ∀ a b, w.allocating a ≠ .idle → w.allocating b ≠ .idle → a = b
  lock : ∀ a, (w.allocating a).locked = true → w.lock = some a
  given : ∀ f, w.given f = if w.fileFree f then 0 else 1
  storing : ∀ a locked f, w.allocating a = .storing locked f → w.fileFree f = true

namespace Handout

variable {ι : Type} [DecidableEq ι] {w : Handout ι}

omit [DecidableEq ι] in
theorem Fresh.inv (h : w.Fresh) : w.Inv := by
  refine ⟨fun a b ha => (ha (h.creating a)).elim, fun a b ha => (ha (h.allocating a)).elim,
    fun a ha => ?_, fun f => ?_, fun a locked f ha => ?_⟩
  · rw [h.allocating a] at ha
    cases ha
  · rw [h.given f, h.fileFree f]
    rfl
  · exact h.fileFree f

theorem Inv.setCreating (h : w.Inv) {a : ι} {c : Creating}
    (ha : ∀ b, w.creating b ≠ .idle → b = a) : (w.setCreating a c).Inv := by
  have hone : ∀ b, (w.setCreating a c).creating b ≠ .idle → b = a := by
    intro b hb
    by_cases hba : b = a
    · exact hba
    · simp only [Handout.setCreating, update_of_ne hba] at hb
      exact ha b hb
  exact ⟨fun x y hx hy => (hone x hx).trans (hone y hy).symm, h.allocating, h.lock, h.given, h.storing⟩

omit [DecidableEq ι] in
theorem Inv.alone (h : w.Inv) {a : ι} (ha : w.creating a ≠ .idle) :
    ∀ b, w.creating b ≠ .idle → b = a := fun b hb => h.creating b a hb ha

theorem Inv.look (h : w.Inv) {a : ι} {w' : Handout ι} (hs : w.look a = some w') : w'.Inv := by
  unfold Handout.look at hs
  split at hs
  · rename_i i hc
    have halone := h.alone (a := a) (by rw [hc]; exact fun he => nomatch he)
    split at hs
    · cases hs
      exact h.setCreating halone
    · split at hs
      · cases hs
        exact h.setCreating halone
      · cases hs
        exact h.setCreating halone
  · rename_i slot hc
    have halone := h.alone (a := a) (by rw [hc]; exact fun he => nomatch he)
    cases hs
    have h1 : (w.setThreadFree slot true).Inv :=
      ⟨h.creating, h.allocating, h.lock, h.given, h.storing⟩
    exact h1.setCreating halone
  · rename_i slot hc
    have halone := h.alone (a := a) (by rw [hc]; exact fun he => nomatch he)
    cases hs
    have h1 : ({ w with nThreads := w.nThreads + 1 } : Handout ι).Inv :=
      ⟨h.creating, h.allocating, h.lock, h.given, h.storing⟩
    exact h1.setCreating halone
  · cases hs

/-- A caller of `file_alloc` that is alone goes on, stops or begins. -/
theorem Inv.setAllocating (h : w.Inv) (lock : Option ι) {a : ι} {c : Allocating}
    (ha : ∀ b, w.allocating b ≠ .idle → b = a) (hl : c.locked = true → lock = some a)
    (hs : ∀ locked f, c = .storing locked f → w.fileFree f = true) :
    (({ w with lock := lock }).setAllocating a c).Inv := by
  have hself : (({ w with lock := lock }).setAllocating a c).allocating a = c :=
    update_self _ _ _
  have hother : ∀ b, b ≠ a → (({ w with lock := lock }).setAllocating a c).allocating b = .idle := by
    intro b hba
    refine (update_of_ne hba _ _).trans ?_
    by_contra hb
    exact hba (ha b hb)
  have hone : ∀ b, (({ w with lock := lock }).setAllocating a c).allocating b ≠ .idle → b = a := by
    intro b hb
    by_contra hba
    exact hb (hother b hba)
  refine ⟨h.creating, fun x y hx hy => (hone x hx).trans (hone y hy).symm, fun b hb => ?_, h.given,
    fun b locked f hb => ?_⟩
  · by_cases hba : b = a
    · subst hba
      rw [hself] at hb
      exact hl hb
    · rw [hother b hba] at hb
      cases hb
  · by_cases hba : b = a
    · subst hba
      rw [hself] at hb
      exact hs locked f hb
    · rw [hother b hba] at hb
      cases hb

omit [DecidableEq ι] in
theorem Inv.allocAlone (h : w.Inv) {a : ι} (ha : w.allocating a ≠ .idle) :
    ∀ b, w.allocating b ≠ .idle → b = a := fun b hb => h.allocating b a hb ha

omit [DecidableEq ι] in
theorem leave_eq (w : Handout ι) (locked : Bool) :
    w.leave locked = { w with lock := if locked then none else w.lock } := by
  cases locked <;> rfl

theorem Inv.test (h : w.Inv) {a : ι} {w' : Handout ι} (hs : w.test a = some w') : w'.Inv := by
  unfold Handout.test at hs
  split at hs
  · rename_i locked i hc
    have halone := h.allocAlone (a := a) (by rw [hc]; exact fun he => nomatch he)
    split at hs
    · cases hs
      have hlock : locked = true → w.lock = some a := by
        intro hl
        apply h.lock
        rw [hc]
        exact hl
      refine h.setAllocating w.lock halone ?_ ?_
      · split <;> exact hlock
      · intro l f he
        split at he
        · rename_i hfree
          cases he
          exact hfree
        · cases he
    · cases hs
      rw [leave_eq]
      exact h.setAllocating _ halone (fun hl => (nomatch hl)) (fun _ _ he => (nomatch he))
  · rename_i locked i hc
    have halone := h.allocAlone (a := a) (by rw [hc]; exact fun he => nomatch he)
    have hfree := h.storing a locked i hc
    cases hs
    have hidle := h.setAllocating (if locked then none else w.lock) (c := .idle) halone
      (fun hl => (nomatch hl)) (fun _ _ he => (nomatch he))
    rw [leave_eq]
    refine ⟨hidle.creating, hidle.allocating, hidle.lock, fun f => ?_, fun b l f hb => ?_⟩
    · have hg := h.given i
      rw [hfree] at hg
      change update w.given i (w.given i + 1) f =
        if update w.fileFree i false f then 0 else 1
      by_cases hfi : f = i
      · subst hfi
        simpa using hg
      · simp only [update_of_ne hfi]
        exact h.given f
    · -- the only caller there was is through
      change update w.allocating a .idle b = .storing l f at hb
      by_cases hba : b = a
      · subst hba
        rw [update_self] at hb
        cases hb
      · rw [update_of_ne hba] at hb
        refine (hba (halone b ?_)).elim
        rw [hb]
        exact fun he => nomatch he
  · cases hs

theorem Inv.step (h : w.Inv) {e : HandoutEvent ι} {w' : Handout ι} (hok : w.Apart e)
    (hs : w.step e = some w') : w'.Inv := by
  cases e with
  | creates a =>
    obtain ⟨-, hw⟩ := Option.ite_none_right_eq_some.1 hs
    cases hw
    exact h.setCreating fun b hb => (hb (hok b)).elim
  | looks a => exact h.look hs
  | finishes a ok =>
    simp only [Handout.step] at hs
    split at hs
    · rename_i slot hc
      cases hs
      have halone := h.alone (a := a) (by rw [hc]; exact fun he => nomatch he)
      have h1 : (w.setThreadFree slot (!ok)).Inv :=
        ⟨h.creating, h.allocating, h.lock, h.given, h.storing⟩
      exact h1.setCreating halone
    · cases hs
  | releases slot =>
    obtain ⟨-, hw⟩ := Option.ite_none_left_eq_some.1 hs
    cases hw
    exact ⟨h.creating, h.allocating, h.lock, h.given, h.storing⟩
  | allocs a locked =>
    obtain ⟨⟨-, hl⟩, hw⟩ := Option.ite_none_right_eq_some.1 hs
    cases hw
    -- whoever else was under way would hold the lock that is taken here
    have hnone : ∀ b, w.allocating b = .idle := by
      intro b
      rcases hok b with hb | ⟨hlocked, hb⟩
      · exact hb
      · have := h.lock b hb
        rw [hl hlocked] at this
        cases this
    refine h.setAllocating _ (fun b hb => (hb (hnone b)).elim) (fun hc => ?_) (fun _ _ he => (nomatch he))
    exact if_pos hc
  | tests a => exact h.test hs
  | frees f =>
    obtain ⟨⟨hused, hpos, -⟩, hw⟩ := Option.ite_none_right_eq_some.1 hs
    cases hw
    refine ⟨h.creating, h.allocating, h.lock, fun g => ?_, fun a locked g ha => ?_⟩
    · change update w.given f (w.given f - 1) g =
        if update w.fileFree f true g then 0 else 1
      by_cases hgf : g = f
      · subst hgf
        have := h.given g
        rw [hused] at this
        simp [this]
      · simp only [update_of_ne hgf]
        exact h.given g
    · change update w.fileFree f true g = true
      by_cases hgf : g = f
      · subst hgf
        exact update_self _ _ _
      · rw [update_of_ne hgf]
        exact h.storing a locked g ha

omit [DecidableEq ι] in
theorem Inv.once (h : w.Inv) : w.Once := by
  constructor
  · intro a b slot ha hb
    refine h.creating a b ?_ ?_
    · intro he
      rw [he] at ha
      cases ha
    · intro he
      rw [he] at hb
      cases hb
  · intro f
    rw [h.given f]
    split
    · exact Nat.zero_le 1
    · exact le_rfl

end Handout

/-- In every run in which no two creations overlap, and no `file_alloc` without the lock overlaps
another: no slot is ever with two creators, and no object is given to a call while another has it. -/
theorem handed_out_once {ι : Type} [DecidableEq ι] {w : Handout ι} (h : Handout.Run Handout.Apart w) :
    w.Once := by
  have hinv : w.Inv := by
    induction h with
    | start hf => exact hf.inv
    | step e _ hok hs ih => exact ih.step hok hs
  exact hinv.once

/-! ## Two at a time -/

namespace Handout

variable {ι : Type} [DecidableEq ι]

/-- The events one after the other, as far as they can be taken. -/
def steps (w : Handout ι) (es : List (HandoutEvent ι)) : Option (Handout ι) :=
  es.foldlM (fun w e => w.step e) w

theorem Run.steps {ok : Handout ι → HandoutEvent ι → Prop} (es : List (HandoutEvent ι))
    {w w' : Handout ι} (hok : ∀ w, ∀ e ∈ es, ok w e) (h : Run ok w) (hs : w.steps es = some w') :
    Run ok w' := by
  induction es generalizing w with
  | nil =>
    cases hs
    exact h
  | cons e es ih =>
    obtain ⟨w1, h1, hs1⟩ := Option.bind_eq_some_iff.1 (show (w.step e).bind
      (fun w1 => w1.steps es) = some w' from hs)
    exact ih (fun w e he => hok w e (List.mem_cons_of_mem _ he))
      (h.step e (hok w e List.mem_cons_self) h1) hs1

end Handout

/-- One thread and no objects in use; two callers. -/
def freshHandout : Handout Bool where
  nThreads := 1
  threadFree := fun t => t != 0
  creating := fun _ => .idle
  lock := none
  fileFree := fun _ => true
  allocating := fun _ => .idle
  given := fun _ => 0

theorem freshHandout_fresh : freshHandout.Fresh :=
  ⟨fun _ => rfl, fun _ => rfl, rfl, fun _ => rfl, fun _ => rfl⟩

/-- A thread is created up to its last line, and a socket's object taken. -/
theorem handed_out_once_apart : ∃ w : Handout Bool, Handout.Run Handout.Apart w ∧
    (w.creating true).slot = some 1 ∧ w.given 0 = 1 ∧ w.Once := by
  have h0 : Handout.Run Handout.Apart freshHandout := .start freshHandout_fresh
  have h1 := h0.step (.creates true) (fun _ => rfl) rfl
  have h2 := h1.step (.looks true) trivial rfl
  have h3 := h2.step (.looks true) trivial rfl
  have h4 := h3.step (.looks true) trivial rfl
  have h5 := h4.step (.looks true) trivial rfl
  have h6 := h5.step (.allocs false false) (fun _ => .inl rfl) rfl
  have h7 := h6.step (.tests false) trivial rfl
  have h8 := h7.step (.tests false) trivial rfl
  exact ⟨_, h8, rfl, rfl, handed_out_once h8⟩

/-- Two creators take the slot behind the ones in use; a `file_udp` and a `file_open` take the first
object. -/
theorem overlapping_takes_twice :
    (∃ w : Handout Bool, Handout.Run (fun _ _ => True) w ∧ w.creating true = .building 1 ∧
      w.creating false = .building 1 ∧ ¬w.Once) ∧
      ∃ w : Handout Bool, Handout.Run (fun _ _ => True) w ∧ w.given 0 = 2 ∧ ¬w.Once := by
  have h0 : Handout.Run (fun _ _ => True) freshHandout := .start freshHandout_fresh
  have hslot : (freshHandout.steps [.creates true, .creates false, .looks true, .looks false,
      .looks true, .looks false, .looks true, .looks false, .looks true, .looks false]).any
      (fun w => w.creating true = .building 1 ∧ w.creating false = .building 1) = true := by
    decide
  have hfile : (freshHandout.steps [.allocs true false, .tests true, .allocs false true,
      .tests false, .tests true, .tests false]).any (fun w => w.given 0 = 2) = true := by
    decide
  constructor
  · obtain ⟨w, hw, hc⟩ := (Option.any_eq_true _ _).1 hslot
    obtain ⟨ht, hf⟩ := of_decide_eq_true hc
    refine ⟨w, Handout.Run.steps _ (fun _ _ _ => trivial) h0 hw, ht, hf, fun ho => ?_⟩
    have := ho.slots true false 1 (by rw [ht]; rfl) (by rw [hf]; rfl)
    cases this
  · obtain ⟨w, hw, hc⟩ := (Option.any_eq_true _ _).1 hfile
    have hg := of_decide_eq_true hc
    refine ⟨w, Handout.Run.steps _ (fun _ _ _ => trivial) h0 hw, hg, fun ho => ?_⟩
    have := ho.files 0
    omega

end Verkos.Stam
