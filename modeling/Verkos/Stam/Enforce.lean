import Verkos.Stam.Elf

/-!
# The manifest, enforced

A program savc built says in its executable which system calls it can make. `elf_load` reads that,
`exec` puts it into the thread's slot, `fork` copies it from slot to slot, and `handle_user_sync`
looks at it before every call.

`slot_init` clears what a slot carries from its last occupant, but not the manifest; `exec` and `fork`
write it anyway, and a thread that loads its own program does too. One that enters user mode without
loading an executable keeps what it found.

A thread is created in several statements, without a lock, in a slot that stays free until the last
one. The steps below are those statements for a creation and whole calls otherwise. Beside `sav`, a
slot has the manifest of the program that runs in it, `image`, which no code reads.
-/

namespace Verkos.Stam

open Verkos.Sav

/-- The function a new thread runs: `run_program`, `initrd_program`, or one that never leaves the
kernel. -/
inductive Start
  | program
  | initrd
  | kernel
deriving DecidableEq

/-- Where a thread is. -/
inductive Where
  | starting (f : Start)
  | user
  | inCall (nr : Word)
deriving DecidableEq

/-- A slot. Whether a thread is running, runnable or blocked makes no difference here: `runnable` is
all three. -/
structure ThreadSlot where
  state : ThreadState
  id : Option Nat
  parent : Option Nat
  pos : Where
  sav : SavManifest
  image : SavManifest

inductive Creation
  | fork
  | create (f : Start)
deriving DecidableEq

/-- Where a thread is that creates another: `fork` is a call, `thread_create` the kernel's own. -/
def Creation.place : Creation → Where
  | .fork => .inCall 220
  | .create _ => .starting .kernel

/-- How far a creation is: `alloc_slot`, `slot_init`, and the copy `fork` makes are behind it. -/
inductive Stage
  | taken
  | inited
  | copied
deriving DecidableEq

/-- The slot table, who is creating a thread where, and every handler that has run, with the manifest
of the program it ran for. -/
structure Manifests where
  slots : Fin maxThreads → ThreadSlot
  creating : Fin maxThreads → Option (Creation × Fin maxThreads × Stage)
  nextId : Nat
  ran : List (SavManifest × Word)

def sysExit : Word := 93
def sysClone : Word := 220
def sysExecve : Word := 221
def sysWait4 : Word := 260

/-- The cases of `do_syscall`; every other number goes to the default. -/
def handled : List Word :=
  [63, 198, 200, 203, 201, 242, 202, 206, 207, 220, 221, 64, 172, 129, 154, 155, 29, 57, 23, 24, 56,
    59, 260, 134, 61, 34, 35, 139, 93]

/-- What happens. Between any two of these a signal may be raised or a handler of the program's
entered; neither touches a manifest. -/
inductive Deed
  /-- `alloc_slot` in `thread_create` or `thread_fork`. -/
  | takes (a : Fin maxThreads) (what : Creation)
  /-- No pages for a stack. -/
  | noStack (a : Fin maxThreads)
  | inits (a : Fin maxThreads)
  | copies (a : Fin maxThreads)
  /-- The last line of a creator. -/
  | finishes (a : Fin maxThreads)
  /-- `sched_cpu_init`. -/
  | adopts
  /-- `enter_user` in `run_program`. -/
  | enters (i : Fin maxThreads)
  /-- `initrd_program`, with the executable and the memory it finds. -/
  | loads (i : Fin maxThreads) (e : List UInt8) (pm : Pmm) (sp : Space) (stack : Bool)
  /-- `svc`. -/
  | calls (i : Fin maxThreads) (nr : Word)
  /-- `do_execve`, once the executable is found. -/
  | execs (i : Fin maxThreads) (e : List UInt8) (pm : Pmm) (sp : Space) (stack : Bool)
  /-- The call is over; also every failure of `do_fork` and `do_execve` before the above. -/
  | returns (i : Fin maxThreads)
  /-- `thread_exit`: the call itself, a signal, a fault, or the end of a thread's function. -/
  | exits (i : Fin maxThreads)
  /-- `thread_wait` or `thread_reap` finds a child that is over. -/
  | reaps (i j : Fin maxThreads)

namespace Manifests

def setSlot (w : Manifests) (i : Fin maxThreads) (s : ThreadSlot) : Manifests :=
  { w with slots := Function.update w.slots i s }

def setCreating (w : Manifests) (a : Fin maxThreads)
    (c : Option (Creation × Fin maxThreads × Stage)) : Manifests :=
  { w with creating := Function.update w.creating a c }

/-- `alloc_slot`. Slots that were never used are free too, and come after the others. -/
def allocSlot (w : Manifests) : Option (Fin maxThreads) :=
  (List.finRange maxThreads).find? fun i => (w.slots i).state == .free

/-- `slot_init`: a new id, a parent, another space. The manifest is not among what it clears. -/
def slotInit (w : Manifests) (s : Fin maxThreads) (parent : Option Nat) (image : SavManifest) :
    Manifests :=
  { w.setSlot s { w.slots s with id := some w.nextId, parent, image } with nextId := w.nextId + 1 }

/-- `thread_exit`. -/
def exit (w : Manifests) (i : Fin maxThreads) : Manifests :=
  w.setSlot i { w.slots i with state := .zombie }

/-- `release_slot`. -/
def release (w : Manifests) (j : Fin maxThreads) : Manifests :=
  w.setSlot j { w.slots j with state := .free, id := none, parent := none }

/-- What the slot of a thread says when a program has been loaded in it. -/
def become (w : Manifests) (i : Fin maxThreads) (m : SavManifest) : Manifests :=
  w.setSlot i { w.slots i with sav := m, image := m, pos := .user }

/-- `handle_user_sync`: the call is made, or the program dies of `SIGSYS`. -/
def userSync (w : Manifests) (i : Fin maxThreads) (nr : Word) : Manifests :=
  if (w.slots i).sav.present && !savAllows (w.slots i).sav nr then w.exit i
  else
    { w.setSlot i { w.slots i with pos := .inCall nr } with
      ran := w.ran ++ if nr ∈ handled then [((w.slots i).image, nr)] else [] }

/-- Whether a thread may be doing something of its own: it is alive and not creating another. -/
def acts (w : Manifests) (i : Fin maxThreads) : Bool :=
  (w.slots i).state == .runnable && (w.creating i).isNone

def step (w : Manifests) : Deed → Option Manifests
  | .takes a what =>
    if w.acts a ∧ (w.slots a).pos = what.place then
      match w.allocSlot with
      | none => some w
      | some s => some (w.setCreating a (some (what, s, .taken)))
    else none
  | .noStack a =>
    match w.creating a with
    | some (_, s, .taken) => some ((w.setSlot s { w.slots s with state := .free }).setCreating a none)
    | _ => none
  | .inits a =>
    match w.creating a with
    | some (.fork, s, .taken) =>
      some ((w.slotInit s (w.slots a).id (w.slots a).image).setCreating a (some (.fork, s, .inited)))
    | some (.create f, s, .taken) =>
      some ((w.slotInit s (w.slots a).id noManifest).setCreating a (some (.create f, s, .inited)))
    | _ => none
  | .copies a =>
    match w.creating a with
    | some (.fork, s, .inited) =>
      some ((w.setSlot s { w.slots s with sav := (w.slots a).sav }).setCreating a
        (some (.fork, s, .copied)))
    | _ => none
  | .finishes a =>
    match w.creating a with
    | some (.fork, s, .copied) =>
      some ((w.setSlot s { w.slots s with state := .runnable, pos := .user }).setCreating a none)
    | some (.create f, s, .inited) =>
      some ((w.setSlot s { w.slots s with state := .runnable, pos := .starting f }).setCreating a none)
    | _ => none
  | .adopts =>
    match w.allocSlot with
    | none => some w
    | some s =>
      let w' := w.slotInit s none noManifest
      some (w'.setSlot s { w'.slots s with state := .runnable, pos := .starting .kernel })
  | .enters i =>
    if w.acts i ∧ (w.slots i).pos = .starting .program then
      some (w.setSlot i { w.slots i with pos := .user })
    else none
  | .loads i e pm sp stack =>
    if w.acts i ∧ (w.slots i).pos = .starting .initrd then
      match elfLoad e pm sp with
      | none => none
      | some ⟨_, _, _, .error _⟩ => some (w.exit i)
      | some ⟨_, _, m, .ok _⟩ => some (if stack then w.become i m else (w.become i m).exit i)
    else none
  | .calls i nr =>
    if w.acts i ∧ (w.slots i).pos = .user then some (w.userSync i nr) else none
  | .execs i e pm sp stack =>
    if w.acts i ∧ (w.slots i).pos = .inCall sysExecve then
      match elfLoad e pm sp with
      | none => none
      | some ⟨_, _, _, .error _⟩ => some w
      | some ⟨_, _, m, .ok _⟩ => some (if stack then w.become i m else w)
    else none
  | .returns i =>
    match (w.slots i).pos with
    | .inCall nr =>
      if w.acts i ∧ nr ≠ sysExit then some (w.setSlot i { w.slots i with pos := .user }) else none
    | _ => none
  | .exits i => if w.acts i then some (w.exit i) else none
  | .reaps i j =>
    if w.acts i ∧ (w.slots i).pos = .inCall sysWait4 ∧ (w.slots j).state = .zombie ∧
        (w.slots j).parent = (w.slots i).id then
      some (w.release j)
    else none

/-- The machine after `sched_init`: one thread, which is the kernel's, and a table of zeros. -/
def boot : Manifests where
  slots i := ⟨if i.val = 0 then .runnable else .free, if i.val = 0 then some 0 else none, none,
    .starting .kernel, noManifest, noManifest⟩
  creating _ := none
  nextId := 1
  ran := []

/-- A run from there, every step of which meets a condition. -/
inductive Run (P : Manifests → Deed → Prop) : Manifests → Prop
  | boot : Run P boot
  | step {w w' : Manifests} {d : Deed} (h : Run P w) (hd : w.step d = some w') (hp : P w d) : Run P w'

end Manifests

/-- A thread in the middle of a program. -/
def ThreadSlot.InProgram (s : ThreadSlot) : Prop := s.state = .runnable ∧ ∀ f, s.pos ≠ .starting f

/-- The manifest lists the call, or there is none. -/
def SavManifest.Lists (m : SavManifest) (nr : Word) : Prop := m.present = false ∨ nr.toNat ∈ m.call

variable {t : ThreadSlot} {what : Creation} {st : Stage}

namespace Manifests

/-- Every handler ran for a program that had asked for it, and every program is held to its own
manifest and no other. -/
structure Enforced (w : Manifests) : Prop where
  ran : ∀ x ∈ w.ran, SavManifest.Lists x.1 x.2
  own : ∀ i, (w.slots i).InProgram → (w.slots i).sav = (w.slots i).image

/-- Threads are created one at a time, and a thread that enters user mode without an executable finds
no manifest in its slot. -/
def Apart (w : Manifests) : Deed → Prop
  | .takes _ _ => ∀ b, w.creating b = none
  | .adopts => ∀ b, w.creating b = none
  | .enters i => (w.slots i).sav = noManifest
  | _ => True

/-! ## The invariant -/

/-- What holds of the slot a thread is being built in, and of who builds it. -/
structure Building (w : Manifests) (a : Fin maxThreads) (what : Creation) (s : Fin maxThreads)
    (st : Stage) : Prop where
  slot : (w.slots s).state = .free
  maker : (w.slots a).state = .runnable
  fork : what = .fork → (w.slots a).pos = .inCall sysClone ∧
    (st ≠ .taken → (w.slots s).image = (w.slots a).image) ∧
    (st = .copied → (w.slots s).sav = (w.slots a).sav)
  create : ∀ f, what = .create f → st ≠ .taken → (w.slots s).image = noManifest

structure Inv (w : Manifests) : Prop where
  enforced : w.Enforced
  fresh : ∀ i f, (w.slots i).state = .runnable → (w.slots i).pos = .starting f →
    (w.slots i).image = noManifest
  one : ∀ a b, w.creating a ≠ none → w.creating b ≠ none → a = b
  building : ∀ a what s st, w.creating a = some (what, s, st) → w.Building a what s st

theorem boot_inv : boot.Inv where
  enforced := ⟨fun x hx => (by cases hx), fun i hi => rfl⟩
  fresh _ _ _ _ := rfl
  one a b ha := absurd rfl ha
  building a what s st h := by cases h

section Steps

variable {w w' : Manifests} {a i j s : Fin maxThreads}

/-- A number that has a handler is its own low half, so `sav_allows` compares the whole of it. -/
theorem lists_of_allows {m : SavManifest} {nr : Word} (hh : nr ∈ handled)
    (ha : ¬(m.present && !savAllows m nr) = true) : SavManifest.Lists m nr := by
  have hsmall : ∀ x ∈ handled, x.toNat < 2 ^ 32 := by
    simp [handled]
  have hlt := hsmall nr hh
  cases hp : m.present with
  | false => exact .inl hp
  | true =>
    right
    simp only [savAllows, hp, Bool.true_and, Bool.not_true, Bool.false_or, Bool.not_eq_true',
      Bool.not_eq_false, Nat.mod_eq_of_lt hlt, List.any_eq_true, beq_iff_eq] at ha
    obtain ⟨x, hx, rfl⟩ := ha
    exact hx

theorem acts_iff : w.acts i = true ↔ (w.slots i).state = .runnable ∧ w.creating i = none := by
  unfold acts
  rw [Bool.and_eq_true, beq_iff_eq, Option.isNone_iff_eq_none]

theorem allocSlot_free (h : w.allocSlot = some s) : (w.slots s).state = .free := by
  have := List.find?_some h
  simpa using this

@[simp] theorem setSlot_slots_self (t : ThreadSlot) : (w.setSlot i t).slots i = t := by
  simp [setSlot]

theorem setSlot_slots_of_ne (t : ThreadSlot) (h : j ≠ i) : (w.setSlot i t).slots j = w.slots j := by
  simp [setSlot, h]

/-- A slot may hold anything that is held to its own manifest, or has loaded nothing yet. -/
structure Lawful (t : ThreadSlot) : Prop where
  own : t.InProgram → t.sav = t.image
  fresh : ∀ f, t.state = .runnable → t.pos = .starting f → t.image = noManifest

theorem Lawful.of_free (h : t.state = .free) : Lawful t :=
  ⟨fun hp => (nomatch h.symm.trans hp.1), fun _ hr => (nomatch h.symm.trans hr)⟩

theorem Inv.lawful (h : w.Inv) (i : Fin maxThreads) : Lawful (w.slots i) :=
  ⟨h.enforced.own i, h.fresh i⟩

theorem Inv.lawful_setSlot (h : w.Inv) (ht : Lawful t) (k : Fin maxThreads) :
    Lawful ((w.setSlot i t).slots k) := by
  by_cases hki : k = i
  · subst hki
    rw [setSlot_slots_self]
    exact ht
  · rw [setSlot_slots_of_ne t hki]
    exact h.lawful k

/-- A thread that is not creating another changes its own slot: what is being built elsewhere is
left alone. -/
theorem Inv.setActing (h : w.Inv) (hc : w.creating i = none)
    (hi : (w.slots i).state ≠ .free) (ht : Lawful t) : (w.setSlot i t).Inv where
  enforced := ⟨h.enforced.ran, fun k => (h.lawful_setSlot ht k).own⟩
  fresh k := (h.lawful_setSlot ht k).fresh
  one := h.one
  building := by
    intro a what s st hb
    have hB := h.building a what s st hb
    have hai : a ≠ i := by
      rintro rfl
      rw [show (w.setSlot a t).creating a = w.creating a from rfl, hc] at hb
      cases hb
    have hsi : s ≠ i := by
      rintro rfl
      exact hi hB.slot
    refine ⟨?_, ?_, fun hf => ?_, fun f hf hst => ?_⟩
    · rw [setSlot_slots_of_ne t hsi]
      exact hB.slot
    · rw [setSlot_slots_of_ne t hai]
      exact hB.maker
    · rw [setSlot_slots_of_ne t hsi, setSlot_slots_of_ne t hai]
      exact hB.fork hf
    · rw [setSlot_slots_of_ne t hsi]
      exact hB.create f hf hst

theorem Inv.exit (h : w.Inv) (ha : w.acts i = true) : (w.exit i).Inv := by
  obtain ⟨hst, hc⟩ := acts_iff.1 ha
  exact h.setActing hc (by rw [hst]; decide) ⟨fun hp => (nomatch hp.1), fun f hr => (nomatch hr)⟩

theorem Inv.become (h : w.Inv) (ha : w.acts i = true) (m : SavManifest) : (w.become i m).Inv := by
  obtain ⟨hst, hc⟩ := acts_iff.1 ha
  exact h.setActing hc (by rw [hst]; decide) ⟨fun _ => rfl, fun f _ hp => (nomatch hp)⟩

theorem become_acts (ha : w.acts i = true) (m : SavManifest) : (w.become i m).acts i = true := by
  obtain ⟨hst, hc⟩ := acts_iff.1 ha
  refine acts_iff.2 ⟨?_, hc⟩
  unfold become
  rw [setSlot_slots_self]
  exact hst

section

variable (h : w.Inv)
include h

/-- A thread in a program goes somewhere else in it. -/
theorem Inv.moveTo (ha : w.acts i = true) (hp : (w.slots i).InProgram) (p : Where)
    (hne : ∀ f, p ≠ .starting f) : (w.setSlot i { w.slots i with pos := p }).Inv := by
  obtain ⟨hst, hc⟩ := acts_iff.1 ha
  exact h.setActing hc (by rw [hst]; decide)
    ⟨fun _ => h.enforced.own i hp, fun f _ hf => absurd hf (hne f)⟩

theorem Inv.userSync (ha : w.acts i = true) (hp : (w.slots i).pos = .user) (nr : Word) :
    (w.userSync i nr).Inv := by
  have hin : (w.slots i).InProgram := ⟨(acts_iff.1 ha).1, fun f => by rw [hp]; exact nofun⟩
  unfold Manifests.userSync
  split
  · exact h.exit ha
  · rename_i hallow
    have hm := h.moveTo ha hin (.inCall nr) (fun f => nofun)
    refine ⟨⟨fun x hx => ?_, hm.enforced.own⟩, hm.fresh, hm.one, ?_⟩
    · rcases List.mem_append.1 hx with hx | hx
      · exact h.enforced.ran x hx
      · split at hx
        · rename_i hh
          rw [List.mem_singleton.1 hx]
          -- the manifest that was looked at is the program's own
          rw [h.enforced.own i hin] at hallow
          exact lists_of_allows hh hallow
        · cases hx
    · intro a what s st hb
      have hB := hm.building a what s st hb
      exact ⟨hB.slot, hB.maker, hB.fork, hB.create⟩

theorem Inv.release (hz : (w.slots j).state = .zombie) (hc : w.creating j = none) :
    (w.release j).Inv :=
  h.setActing hc (by rw [hz]; decide) ⟨fun hp => (nomatch hp.1), fun f hr => (nomatch hr)⟩

/-- A creator that has gone on has the only slot being built. -/
theorem Inv.setBuilding {st' : Stage} (hb : w.creating a = some (what, s, st))
    (ht : t.state = .free)
    (hB : ((w.setSlot s t).setCreating a (some (what, s, st'))).Building a what s st') :
    ((w.setSlot s t).setCreating a (some (what, s, st'))).Inv where
  enforced := ⟨h.enforced.ran, fun k => (h.lawful_setSlot (.of_free ht) k).own⟩
  fresh k := (h.lawful_setSlot (.of_free ht) k).fresh
  one := by
    have hsame : ∀ b, ((w.setSlot s t).setCreating a (some (what, s, st'))).creating b ≠ none →
        w.creating b ≠ none := by
      intro b hcb
      by_cases hba : b = a
      · rw [hba, hb]
        exact nofun
      · simpa [setCreating, setSlot, hba] using hcb
    intro b c hcb hcc
    exact h.one b c (hsame b hcb) (hsame c hcc)
  building := by
    intro b what' s' st'' hcb
    by_cases hba : b = a
    · subst hba
      have heq : some (what, s, st') = some (what', s', st'') := by
        simpa [setCreating] using hcb
      cases heq
      exact hB
    · have hcb' : w.creating b = some (what', s', st'') := by
        simpa [setCreating, setSlot, hba] using hcb
      exact absurd (h.one b a (by rw [hcb']; exact nofun) (by rw [hb]; exact nofun)) hba

/-- The slot being built is nobody's, so no maker is in it. -/
theorem Inv.maker_ne (hb : w.creating a = some (what, s, st)) : a ≠ s := by
  rintro rfl
  have hB := h.building a what a st hb
  exact nomatch hB.slot.symm.trans hB.maker

theorem Inv.setBuilt (hb : w.creating a = some (what, s, st)) (ht : Lawful t) :
    ((w.setSlot s t).setCreating a none).Inv where
  enforced := ⟨h.enforced.ran, fun k => (h.lawful_setSlot ht k).own⟩
  fresh k := (h.lawful_setSlot ht k).fresh
  one := by
    intro b c hcb hcc
    have hsame : ∀ b, ((w.setSlot s t).setCreating a none).creating b ≠ none →
        b ≠ a ∧ w.creating b ≠ none := by
      intro b hcb
      by_cases hba : b = a
      · subst hba
        exact absurd (by simp [setCreating]) hcb
      · exact ⟨hba, by simpa [setCreating, setSlot, hba] using hcb⟩
    exact h.one b c (hsame b hcb).2 (hsame c hcc).2
  building := by
    intro b what' s' st' hcb
    by_cases hba : b = a
    · subst hba
      simp [setCreating] at hcb
    · have hcb' : w.creating b = some (what', s', st') := by
        simpa [setCreating, setSlot, hba] using hcb
      exact absurd (h.one b a (by rw [hcb']; exact nofun) (by rw [hb]; exact nofun)) hba

theorem Inv.withNextId (n : Nat) : { w with nextId := n }.Inv where
  enforced := ⟨h.enforced.ran, h.enforced.own⟩
  fresh := h.fresh
  one := h.one
  building a what s st hb :=
    have hB := h.building a what s st hb
    ⟨hB.slot, hB.maker, hB.fork, hB.create⟩

/-- `slot_init` in a slot that is being built. -/
theorem Inv.inits (hb : w.creating a = some (what, s, .taken)) {parent : Option Nat}
    {m : SavManifest} (hfork : what = .fork → m = (w.slots a).image)
    (hcreate : ∀ f, what = .create f → m = noManifest) :
    ((w.slotInit s parent m).setCreating a (some (what, s, .inited))).Inv := by
  have hB := h.building a what s .taken hb
  have hne := h.maker_ne hb
  have hin : (((w.setSlot s { w.slots s with id := some w.nextId, parent, image := m }).setCreating a
      (some (what, s, .inited)))).Inv := by
    refine h.setBuilding hb hB.slot ⟨?_, ?_, fun hf => ⟨?_, fun _ => ?_, fun hst => (nomatch hst)⟩,
      fun f hf _ => ?_⟩
    · exact (congrArg ThreadSlot.state (setSlot_slots_self _)).trans hB.slot
    · exact (congrArg ThreadSlot.state (setSlot_slots_of_ne _ hne)).trans hB.maker
    · exact (congrArg ThreadSlot.pos (setSlot_slots_of_ne _ hne)).trans (hB.fork hf).1
    · refine (congrArg ThreadSlot.image (setSlot_slots_self _)).trans ((hfork hf).trans ?_)
      exact (congrArg ThreadSlot.image (setSlot_slots_of_ne _ hne)).symm
    · exact (congrArg ThreadSlot.image (setSlot_slots_self _)).trans (hcreate f hf)
  exact hin.withNextId (w.nextId + 1)

theorem Inv.copies (hb : w.creating a = some (.fork, s, .inited)) :
    ((w.setSlot s { w.slots s with sav := (w.slots a).sav }).setCreating a
      (some (.fork, s, .copied))).Inv := by
  have hB := h.building a .fork s .inited hb
  have hne := h.maker_ne hb
  obtain ⟨hpos, himage, -⟩ := hB.fork rfl
  refine h.setBuilding hb hB.slot ⟨?_, ?_, fun _ => ⟨?_, fun _ => ?_, fun _ => ?_⟩,
    fun f hf => (nomatch hf)⟩
  · exact (congrArg ThreadSlot.state (setSlot_slots_self _)).trans hB.slot
  · exact (congrArg ThreadSlot.state (setSlot_slots_of_ne _ hne)).trans hB.maker
  · exact (congrArg ThreadSlot.pos (setSlot_slots_of_ne _ hne)).trans hpos
  · refine (congrArg ThreadSlot.image (setSlot_slots_self _)).trans ((himage nofun).trans ?_)
    exact (congrArg ThreadSlot.image (setSlot_slots_of_ne _ hne)).symm
  · refine (congrArg ThreadSlot.sav (setSlot_slots_self _)).trans ?_
    exact (congrArg ThreadSlot.sav (setSlot_slots_of_ne _ hne)).symm

theorem Inv.forked (hb : w.creating a = some (.fork, s, .copied)) :
    (w.slots s).sav = (w.slots a).sav ∧ (w.slots s).sav = (w.slots s).image := by
  have hB := h.building a .fork s .copied hb
  obtain ⟨hpos, himage, hsav⟩ := hB.fork rfl
  refine ⟨hsav rfl, ?_⟩
  rw [hsav rfl, himage nofun]
  exact h.enforced.own a ⟨hB.maker, fun f => by rw [hpos]; exact nofun⟩

theorem Inv.takes (hnone : ∀ b, w.creating b = none) (hs : (w.slots s).state = .free)
    (ha : (w.slots a).state = .runnable) (hpos : what = .fork → (w.slots a).pos = .inCall sysClone) :
    (w.setCreating a (some (what, s, .taken))).Inv where
  enforced := ⟨h.enforced.ran, h.enforced.own⟩
  fresh := h.fresh
  one := by
    intro b c hcb hcc
    have honly : ∀ b, (w.setCreating a (some (what, s, .taken))).creating b ≠ none → b = a := by
      intro b hcb
      by_contra hba
      exact hcb (by simpa [setCreating, hba] using hnone b)
    rw [honly b hcb, honly c hcc]
  building := by
    intro b what' s' st' hcb
    by_cases hba : b = a
    · subst hba
      have heq : some (what, s, Stage.taken) = some (what', s', st') := by
        simpa [setCreating] using hcb
      cases heq
      exact ⟨hs, ha, fun hf => ⟨hpos hf, fun hst => absurd rfl hst, fun hst => (nomatch hst)⟩,
        fun f hf hst => absurd rfl hst⟩
    · have hcb' : w.creating b = some (what', s', st') := by
        simpa [setCreating, hba] using hcb
      rw [hnone b] at hcb'
      cases hcb'

theorem Inv.adopts (hnone : ∀ b, w.creating b = none) (ht : Lawful t) : (w.setSlot s t).Inv where
  enforced := ⟨h.enforced.ran, fun k => (h.lawful_setSlot ht k).own⟩
  fresh k := (h.lawful_setSlot ht k).fresh
  one := h.one
  building a what s st hb := by
    rw [show (w.setSlot _ t).creating a = w.creating a from rfl, hnone a] at hb
    cases hb

theorem Inv.step {d : Deed} (hd : w.step d = some w') (hp : w.Apart d) : w'.Inv := by
  cases d with
  | takes a what =>
    simp only [Manifests.step] at hd
    split at hd
    · rename_i hg
      obtain ⟨hst, -⟩ := acts_iff.1 hg.1
      cases hs : w.allocSlot with
      | none =>
        simp only [hs, Option.some.injEq] at hd
        rw [← hd]
        exact h
      | some s =>
        simp only [hs, Option.some.injEq] at hd
        rw [← hd]
        refine h.takes hp (allocSlot_free hs) hst fun hf => ?_
        subst hf
        exact hg.2
    · cases hd
  | noStack a =>
    simp only [Manifests.step] at hd
    split at hd
    · rename_i what s hb
      cases hd
      exact h.setBuilt hb (.of_free rfl)
    · cases hd
  | inits a =>
    simp only [Manifests.step] at hd
    split at hd
    · rename_i s hb
      cases hd
      exact h.inits hb (fun _ => rfl) (fun f hf => (nomatch hf))
    · rename_i f s hb
      cases hd
      exact h.inits hb (fun hf => (nomatch hf)) (fun _ _ => rfl)
    · cases hd
  | copies a =>
    simp only [Manifests.step] at hd
    split at hd
    · rename_i s hb
      cases hd
      exact h.copies hb
    · cases hd
  | finishes a =>
    simp only [Manifests.step] at hd
    split at hd
    · rename_i s hb
      cases hd
      exact h.setBuilt hb ⟨fun _ => (h.forked hb).2, fun f _ hf => (nomatch hf)⟩
    · rename_i f s hb
      cases hd
      have hB := h.building a (.create f) s .inited hb
      exact h.setBuilt hb ⟨fun hi => absurd rfl (hi.2 f), fun _ _ _ => hB.create f rfl nofun⟩
    · cases hd
  | adopts =>
    simp only [Manifests.step] at hd
    cases hs : w.allocSlot with
    | none =>
      simp only [hs, Option.some.injEq] at hd
      rw [← hd]
      exact h
    | some s =>
      simp only [hs, Option.some.injEq] at hd
      rw [← hd]
      have hfree : ({ w.slots s with
          id := some w.nextId, parent := none, image := noManifest } : ThreadSlot).state = .free :=
        allocSlot_free hs
      have hinit : (w.slotInit s none noManifest).Inv :=
        (h.adopts hp (.of_free hfree)).withNextId (w.nextId + 1)
      refine hinit.adopts hp ⟨fun hi => absurd rfl (hi.2 .kernel), fun _ _ _ => ?_⟩
      exact congrArg ThreadSlot.image (setSlot_slots_self _)
  | enters i =>
    simp only [Manifests.step] at hd
    split at hd
    · rename_i hg
      cases hd
      obtain ⟨hst, hc⟩ := acts_iff.1 hg.1
      refine h.setActing hc (by rw [hst]; decide) ⟨fun _ => ?_, fun f _ hf => (nomatch hf)⟩
      exact Eq.trans hp (h.fresh i .program hst hg.2).symm
    · cases hd
  | loads i e pm sp stack =>
    simp only [Manifests.step] at hd
    split at hd
    · rename_i hg
      split at hd
      · cases hd
      · cases hd
        exact h.exit hg.1
      · rename_i m _ _
        cases hd
        split
        · exact h.become hg.1 m
        · exact (h.become hg.1 m).exit (become_acts hg.1 m)
    · cases hd
  | calls i nr =>
    simp only [Manifests.step] at hd
    split at hd
    · rename_i hg
      cases hd
      exact h.userSync hg.1 hg.2 nr
    · cases hd
  | execs i e pm sp stack =>
    simp only [Manifests.step] at hd
    split at hd
    · rename_i hg
      split at hd
      · cases hd
      · cases hd
        exact h
      · rename_i m _ _
        cases hd
        split
        · exact h.become hg.1 m
        · exact h
    · cases hd
  | returns i =>
    simp only [Manifests.step] at hd
    split at hd
    · rename_i nr hpos
      split at hd
      · rename_i hg
        cases hd
        exact h.moveTo hg.1 ⟨(acts_iff.1 hg.1).1, fun f => by rw [hpos]; exact nofun⟩ .user
          (fun f => nofun)
      · cases hd
    · cases hd
  | exits i =>
    simp only [Manifests.step] at hd
    split at hd
    · rename_i hg
      cases hd
      exact h.exit hg
    · cases hd
  | reaps i j =>
    simp only [Manifests.step] at hd
    split at hd
    · rename_i hg
      cases hd
      refine h.release hg.2.2.1 ?_
      cases hc : w.creating j with
      | none => rfl
      | some x =>
        obtain ⟨what, s, st⟩ := x
        have hB := h.building j what s st hc
        exact nomatch hg.2.2.1.symm.trans hB.maker
    · cases hd

end

theorem Run.inv {w : Manifests} (h : Run Apart w) : w.Inv := by
  induction h with
  | boot => exact boot_inv
  | step _ hd hp ih => exact ih.step hd hp

end Steps

/-- What an `exec` comes to: the manifest of the program it loaded, if it did. -/
def execGives (e : List UInt8) (pm : Pmm) (sp : Space) (stack : Bool) : Option SavManifest :=
  match elfLoad e pm sp with
  | some ⟨_, _, m, .ok _⟩ => if stack then some m else none
  | _ => none

deriving instance DecidableEq for SavManifest

instance (w : Manifests) : DecidablePred w.Apart
  | .takes _ _ => inferInstanceAs (Decidable (∀ b, w.creating b = none))
  | .adopts => inferInstanceAs (Decidable (∀ b, w.creating b = none))
  | .enters i => inferInstanceAs (Decidable ((w.slots i).sav = noManifest))
  | .noStack _ | .inits _ | .copies _ | .finishes _ | .loads .. | .calls .. | .execs .. | .returns _
  | .exits _ | .reaps .. => inferInstanceAs (Decidable True)

/-- A list of deeds, as long as each can be done and meets the condition. -/
def doAll (P : Manifests → Deed → Prop) [∀ w, DecidablePred (P w)] :
    Manifests → List Deed → Option Manifests
  | w, [] => some w
  | w, d :: ds =>
    if P w d then
      match w.step d with
      | none => none
      | some w' => doAll P w' ds
    else none

theorem Run.doAll {P : Manifests → Deed → Prop} [∀ w, DecidablePred (P w)] :
    ∀ {ds : List Deed} {w w' : Manifests}, Run P w → Manifests.doAll P w ds = some w' → Run P w' := by
  intro ds
  induction ds with
  | nil =>
    intro w w' h hd
    cases hd
    exact h
  | cons d ds ih =>
    intro w w' h hd
    simp only [Manifests.doAll] at hd
    split at hd
    · rename_i hp
      cases hs : w.step d with
      | none => simp [hs] at hd
      | some w1 =>
        simp only [hs] at hd
        exact ih (h.step hs hp) hd
    · cases hd

/-- An executable of one empty segment, with a note or with something no loader reads. -/
def tinyElf (type : Nat) (note : List UInt8) : List UInt8 :=
  [0x7f, 69, 76, 70, 2, 1, 1, 0] ++ [0, 0, 0, 0, 0, 0, 0, 0] ++ [2, 0] ++ [183, 0] ++ put32 1 ++
    put32 0x400000 ++ put32 0 ++ put32 64 ++ put32 0 ++ put32 0 ++ put32 0 ++ put32 0 ++ [64, 0] ++
    [56, 0] ++ [2, 0] ++ [64, 0] ++ [0, 0] ++ [0, 0] ++
    -- a page at 0x400000
    put32 1 ++ put32 5 ++ put32 0 ++ put32 0 ++ put32 0x400000 ++ put32 0 ++ put32 0x400000 ++
    put32 0 ++ put32 0 ++ put32 0 ++ put32 1 ++ put32 0 ++ put32 4096 ++ put32 0 ++
    put32 type ++ put32 4 ++ put32 176 ++ put32 0 ++ put32 0 ++ put32 0 ++ put32 0 ++ put32 0 ++
    put32 note.length ++ put32 0 ++ put32 note.length ++ put32 0 ++ put32 4 ++ put32 0 ++ note

/-- A program without a manifest. -/
def plainElf : List UInt8 := tinyElf 0 []

/-- One that may call `exit` and `clone`. -/
def savElf : List UInt8 := tinyElf 4 (noteBytes [93, 220] [])

instance : NeZero maxThreads := ⟨by decide⟩

def someMemory : Pmm where
  start := 0
  top := 64
  freeNext := 1
  freeList := []
  refs _ := 0
  mem _ _ := 0

/-- `initrd_program` starts a plain program in slot 1, and that forks into slot 2. -/
def forkOnce : List Deed :=
  [.takes 0 (.create .initrd), .inits 0, .finishes 0, .loads 1 plainElf someMemory (.empty 0) true,
    .calls 1 220, .takes 1 .fork, .inits 1, .copies 1, .finishes 1, .returns 1]

/-- The child becomes a program that declared `exit` and `clone`. -/
def childExecs : List Deed := [.calls 2 221, .execs 2 savElf someMemory (.empty 0) true]

/-- The child exits and is collected, and so does its parent; then the kernel starts a program of its
own, which gets the child's slot. -/
def slotAgain : List Deed :=
  [.calls 2 93, .exits 2, .calls 1 260, .reaps 1 2, .returns 1, .exits 1,
    .takes 0 (.create .program), .inits 0, .finishes 0, .enters 2]

/-- The two programs fork at the same time, and find the same slot. -/
def forkTogether : List Deed :=
  [.calls 1 220, .calls 2 220, .takes 1 .fork, .takes 2 .fork, .inits 1, .inits 2, .copies 2,
    .copies 1, .finishes 2, .calls 3 64]

end Manifests

end Verkos.Stam
