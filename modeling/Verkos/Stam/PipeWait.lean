import Verkos.Stam.File

/-!
# Waiting at a pipe

A reader of an empty pipe and a writer of a full one go to sleep, and whoever changes the pipe wakes
everyone who sleeps at it. The test and the sleep are under the scheduler's lock, so no change comes
between them. But a write that fills the pipe goes to sleep inside its loop, and the wakeup is
behind the loop: what it wrote until then woke nobody. A reader that slept since the pipe was empty
sleeps on, and reader and writer wait for each other.

What a thread does from where it takes the lock to where it lets it go, or goes to sleep, is one
step here. `Doing` is where each thread stands between its steps.
-/

namespace Verkos.Stam

attribute [local instance] neZero4096

namespace Pipe

/-- `pipe_bytes`. -/
def bytes (x : Pipe) : Nat := (x.head - x.tail).val

/-- A byte into the pipe. -/
def put (x : Pipe) (b : UInt8) : Pipe :=
  { x with buf := Function.update x.buf x.head b, head := x.head + 1 }

/-- A byte out of it. -/
def get (x : Pipe) : Pipe := { x with tail := x.tail + 1 }

/-- The loop of `file_read`: what is there, as far as there is room for it. -/
def take (x : Pipe) : Nat → Pipe × List UInt8
  | 0 => (x, [])
  | len + 1 =>
    if x.bytes = 0 then (x, [])
    else ((x.get.take len).1, x.buf x.tail :: (x.get.take len).2)

end Pipe

/-- Where a section of a read or a write ends: the call returns, with a wakeup before it or without
one, or goes to sleep, a write with what is left of it. -/
inductive Ended
  | returns (ret : Int) (data : List UInt8) (wakes : Bool)
  | sleepsReading
  | sleepsWriting (rest : List UInt8) (n : Nat)

/-- `file_read` of a pipe, from a test of the pipe on. -/
def Pipe.read (x : Pipe) (len : Nat) : Pipe × Ended :=
  if x.bytes = 0 then
    if x.writers ≤ 0 then (x, .returns 0 [] false) else (x, .sleepsReading)
  else ((x.take len).1, .returns (x.take len).2.length (x.take len).2 true)

/-- `file_write` to a pipe, from a test of its loop on; `n` bytes are written already. -/
def Pipe.write (x : Pipe) (n : Nat) : List UInt8 → Pipe × Ended
  | [] => (x, .returns n [] true)
  | b :: rest =>
    if x.readers ≤ 0 then (x, .returns (if n = 0 then -32 else n) [] false)
    else if x.bytes = pipeSize - 1 then (x, .sleepsWriting (b :: rest) n)
    else (x.put b).write (n + 1) rest

/-- Where a thread stands: in no call at the pipe, or in a read or a write that went to sleep, and
whether it sleeps still. -/
inductive Doing
  | out
  | reading (len : Nat) (asleep : Bool)
  | writing (rest : List UInt8) (n : Nat) (asleep : Bool)
deriving DecidableEq

def Doing.asleep : Doing → Bool
  | .out => false
  | .reading _ a => a
  | .writing _ _ a => a

def Doing.awake : Doing → Doing
  | .out => .out
  | .reading len _ => .reading len false
  | .writing rest n _ => .writing rest n false

/-- A pipe and the threads at it. -/
structure Waiting (ι : Type) where
  pipe : Pipe
  doing : ι → Doing

inductive WaitEvent (ι : Type)
  /-- `file_read`, for at least one byte. -/
  | reads (t : ι) (len : Nat)
  /-- `file_write`. -/
  | writes (t : ι) (buf : List UInt8)
  /-- A thread that was woken gets a processor and tests again. -/
  | resumes (t : ι)
  /-- `file_close` of the last descriptor of an end. -/
  | closes (kind : Kind)
  /-- A signal wakes a thread. -/
  | signals (t : ι)

namespace Waiting

variable {ι : Type} [DecidableEq ι]

def set (w : Waiting ι) (t : ι) (d : Doing) : Waiting ι :=
  { w with doing := Function.update w.doing t d }

/-- `thread_wake_pipe`. -/
def wake (w : Waiting ι) : Waiting ι := { w with doing := fun t => (w.doing t).awake }

/-- The end of a section of `t`, a read of `len` or a write. -/
def ends (w : Waiting ι) (t : ι) (len : Nat) : Pipe × Ended → Waiting ι
  | (x, .returns _ _ wakes) =>
    let w₁ : Waiting ι := ({ w with pipe := x }).set t .out
    if wakes then w₁.wake else w₁
  | (x, .sleepsReading) => ({ w with pipe := x }).set t (.reading len true)
  | (x, .sleepsWriting rest n) => ({ w with pipe := x }).set t (.writing rest n true)

/-- A thread calls with a descriptor it holds and holds it until the call returns; so an end is
closed for good only when nobody is in a call at it. -/
def step (w : Waiting ι) : WaitEvent ι → Waiting ι → Prop
  | .reads t len, w' => w.doing t = .out ∧ 0 < len ∧ 0 < w.pipe.readers ∧
      w' = w.ends t len (w.pipe.read len)
  | .writes t buf, w' => w.doing t = .out ∧ 0 < w.pipe.writers ∧
      w' = w.ends t 0 (w.pipe.write 0 buf)
  | .resumes t, w' =>
    (∃ len, w.doing t = .reading len false ∧ w' = w.ends t len (w.pipe.read len)) ∨
      ∃ rest n, w.doing t = .writing rest n false ∧ w' = w.ends t 0 (w.pipe.write n rest)
  | .closes kind, w' =>
    kind.IsEnd ∧ 0 < w.pipe.ends kind ∧
      (∀ t, kind = .pipeR → ∀ len a, w.doing t ≠ .reading len a) ∧
      (∀ t, kind = .pipeW → ∀ rest n a, w.doing t ≠ .writing rest n a) ∧
      w' = ({ w with pipe := w.pipe.closeEnd kind }).wake
  | .signals t, w' => w' = w.set t (w.doing t).awake

/-- A new pipe with nobody at it. -/
structure Fresh (w : Waiting ι) : Prop where
  empty : w.pipe.bytes = 0
  readers : w.pipe.readers = 1
  writers : w.pipe.writers = 1
  out : ∀ t, w.doing t = .out

/-- A thread that sleeps reading sees the pipe empty and a writer open, one that sleeps writing sees
it full and a reader open. -/
structure Justified (w : Waiting ι) : Prop where
  reading : ∀ t len, w.doing t = .reading len true → w.pipe.bytes = 0 ∧ 0 < w.pipe.writers
  writing : ∀ t rest n, w.doing t = .writing rest n true →
    w.pipe.bytes = pipeSize - 1 ∧ 0 < w.pipe.readers

/-- Somebody sleeps reading. -/
def ReaderAsleep (w : Waiting ι) : Prop := ∃ t len, w.doing t = .reading len true

/-- A write that begins, or goes on, while somebody sleeps reading fits into the pipe. -/
def Fits (w : Waiting ι) : WaitEvent ι → Prop
  | .writes _ buf => w.ReaderAsleep → buf.length ≤ pipeSize - 1
  | .resumes t => ∀ rest n, w.doing t = .writing rest n false → w.ReaderAsleep →
      rest.length ≤ pipeSize - 1
  | _ => True

end Waiting

/-- What can be reached by steps that each meet `ok`. -/
inductive Waiting.Run {ι : Type} [DecidableEq ι] (ok : Waiting ι → WaitEvent ι → Prop) :
    Waiting ι → Prop
  | start {w : Waiting ι} : w.Fresh → Run ok w
  | step {w w' : Waiting ι} (e : WaitEvent ι) : Run ok w → ok w e → w.step e w' → Run ok w'

/-! ## The pipe -/

namespace Pipe

theorem bytes_put (x : Pipe) (b : UInt8) (h : x.bytes ≠ pipeSize - 1) :
    (x.put b).bytes = x.bytes + 1 := by
  have hh : x.head.val < 4096 := x.head.isLt
  have ht : x.tail.val < 4096 := x.tail.isLt
  have hone : (1 : Fin pipeSize).val = 1 := rfl
  unfold bytes put at *
  simp only [Fin.val_sub, Fin.val_add, hone] at *
  change (4096 - x.tail.val + x.head.val) % 4096 ≠ 4095 at h
  change (4096 - x.tail.val + (x.head.val + 1) % 4096) % 4096 =
    (4096 - x.tail.val + x.head.val) % 4096 + 1
  omega

/-- A write puts bytes until they are in or the pipe is full, and sleeps only then. -/
theorem write_spec (rest : List UInt8) (x : Pipe) (n : Nat) (hr : 0 < x.readers)
    (hb : x.bytes ≤ pipeSize - 1) :
    (rest.length ≤ pipeSize - 1 - x.bytes ∧ ∃ ret, (x.write n rest).2 = .returns ret [] true) ∨
      (pipeSize - 1 - x.bytes < rest.length ∧ (x.write n rest).1.bytes = pipeSize - 1 ∧
        (x.write n rest).1.readers = x.readers ∧ (x.write n rest).1.writers = x.writers ∧
        ∃ rest' n', (x.write n rest).2 = .sleepsWriting rest' n') := by
  induction rest generalizing x n with
  | nil => exact .inl ⟨Nat.zero_le _, n, rfl⟩
  | cons b rest ih =>
    rw [write, if_neg (by omega)]
    by_cases hfull : x.bytes = pipeSize - 1
    · rw [if_pos hfull]
      refine .inr ⟨?_, hfull, rfl, rfl, b :: rest, n, rfl⟩
      rw [hfull, Nat.sub_self]
      exact Nat.succ_pos _
    · rw [if_neg hfull]
      have hput := x.bytes_put b hfull
      rcases ih (x.put b) (n + 1) hr (by omega) with ⟨hle, ret⟩ | ⟨hlt, hfin⟩
      · refine .inl ⟨?_, ret⟩
        rw [hput] at hle
        rw [List.length_cons]
        omega
      · refine .inr ⟨?_, hfin⟩
        rw [hput] at hlt
        rw [List.length_cons]
        omega

theorem write_broken (x : Pipe) (n : Nat) (rest : List UInt8) (hr : x.readers ≤ 0) :
    (x.write n rest).1 = x ∧ ∃ ret wakes, (x.write n rest).2 = .returns ret [] wakes := by
  cases rest with
  | nil => exact ⟨rfl, _, _, rfl⟩
  | cons b rest =>
    rw [write, if_pos hr]
    exact ⟨rfl, _, _, rfl⟩

theorem bytes_le (x : Pipe) : x.bytes ≤ pipeSize - 1 := Nat.le_pred_of_lt (x.head - x.tail).isLt

end Pipe

/-! ## The steps -/

namespace Waiting.Justified

variable {ι : Type} [DecidableEq ι] {w : Waiting ι} {t : ι}

omit [DecidableEq ι] in
theorem wake (w : Waiting ι) : w.wake.Justified := by
  constructor
  · intro t len h
    change (w.doing t).awake = _ at h
    cases hd : w.doing t <;> rw [hd] at h <;> cases h
  · intro t rest n h
    change (w.doing t).awake = _ at h
    cases hd : w.doing t <;> rw [hd] at h <;> cases h

/-- One thread does something else, and does not sleep. -/
theorem set_awake (h : w.Justified) {d : Doing} (hd : d.asleep = false) : (w.set t d).Justified := by
  constructor
  · intro u len hu
    by_cases hut : u = t
    · subst hut
      simp only [Waiting.set, Function.update_self] at hu
      rw [hu] at hd
      cases hd
    · simp only [Waiting.set, Function.update_of_ne hut] at hu
      exact h.reading u len hu
  · intro u rest n hu
    by_cases hut : u = t
    · subst hut
      simp only [Waiting.set, Function.update_self] at hu
      rw [hu] at hd
      cases hd
    · simp only [Waiting.set, Function.update_of_ne hut] at hu
      exact h.writing u rest n hu

theorem reads (h : w.Justified) (len : Nat) : (w.ends t len (w.pipe.read len)).Justified := by
  unfold Pipe.read
  split
  · rename_i hempty
    split
    · exact Justified.set_awake (w := { w with pipe := w.pipe }) h rfl
    · rename_i hopen
      change (w.set t (.reading len true)).Justified
      constructor
      · intro u len' _
        exact ⟨hempty, Int.not_le.1 hopen⟩
      · intro u rest n hu
        by_cases hut : u = t
        · subst hut
          simp [Waiting.set] at hu
        · simp only [Waiting.set, Function.update_of_ne hut] at hu
          exact h.writing u rest n hu
  · exact wake _

/-- A section of a write. If it sleeps it has filled the pipe, and a reader that slept would have
been promised that it could not. -/
theorem writes (h : w.Justified) {n : Nat} {rest : List UInt8}
    (hfit : w.ReaderAsleep → rest.length ≤ pipeSize - 1) :
    (w.ends t 0 (w.pipe.write n rest)).Justified := by
  by_cases hr : 0 < w.pipe.readers
  · rcases w.pipe.write_spec rest n hr w.pipe.bytes_le with ⟨-, ret, he⟩ | ⟨hlt, hfull, hrd, -, rest', n', he⟩
    · rcases hres : w.pipe.write n rest with ⟨x, e⟩
      rw [hres] at he
      subst he
      exact wake _
    · rcases hres : w.pipe.write n rest with ⟨x, e⟩
      rw [hres] at he hfull hrd
      subst he
      have hno : ∀ u len, w.doing u ≠ .reading len true := by
        intro u len hu
        have hle := hfit ⟨u, len, hu⟩
        rw [(h.reading u len hu).1] at hlt
        omega
      constructor
      · intro u len hu
        by_cases hut : u = t
        · subst hut
          simp [Waiting.ends, Waiting.set] at hu
        · simp only [Waiting.ends, Waiting.set, Function.update_of_ne hut] at hu
          exact (hno u len hu).elim
      · intro u rest1 n₁ _
        refine ⟨hfull, ?_⟩
        change 0 < x.readers
        rw [show x.readers = w.pipe.readers from hrd]
        exact hr
  · obtain ⟨hx, ret, wakes, he⟩ := w.pipe.write_broken n rest (by omega)
    rcases hres : w.pipe.write n rest with ⟨x, e⟩
    rw [hres] at hx he
    subst hx he
    unfold Waiting.ends
    dsimp only
    split
    · exact wake _
    · exact Justified.set_awake (w := { w with pipe := w.pipe }) h rfl

theorem step (h : w.Justified) {e : WaitEvent ι} {w' : Waiting ι} (hok : w.Fits e)
    (hs : w.step e w') : w'.Justified := by
  cases e with
  | reads t len =>
    obtain ⟨-, -, -, rfl⟩ := hs
    exact h.reads len
  | writes t buf =>
    obtain ⟨-, -, rfl⟩ := hs
    exact h.writes hok
  | resumes t =>
    rcases hs with ⟨len, -, rfl⟩ | ⟨rest, n, hd, rfl⟩
    · exact h.reads len
    · exact h.writes (hok rest n hd)
  | closes kind =>
    obtain ⟨-, -, -, -, rfl⟩ := hs
    exact wake _
  | signals t =>
    obtain rfl := hs
    refine h.set_awake ?_
    cases w.doing t <;> rfl

end Waiting.Justified

/-- In every run in which no write that does not fit into the pipe begins or goes on while somebody
sleeps reading: whoever sleeps reading sees the pipe empty and a writer open, and whoever sleeps
writing sees it full and a reader open. So a reader and a writer never both sleep. -/
theorem no_lost_wakeup {ι : Type} [DecidableEq ι] {w : Waiting ι} (h : Waiting.Run Waiting.Fits w) :
    w.Justified ∧ ∀ t u len rest n, w.doing t = .reading len true → w.doing u ≠ .writing rest n true := by
  have hj : w.Justified := by
    induction h with
    | start hf =>
      constructor
      · intro t len ht
        rw [hf.out t] at ht
        cases ht
      · intro t rest n ht
        rw [hf.out t] at ht
        cases ht
    | step e _ hok hs ih => exact ih.step hok hs
  refine ⟨hj, fun t u len rest n ht hu => ?_⟩
  have hempty := (hj.reading t len ht).1
  have hfull := (hj.writing u rest n hu).1
  rw [hempty] at hfull
  exact absurd hfull (by decide)

/-! ## A write that does not fit -/

/-- Two threads: one reads and one writes. -/
def freshWaiting : Waiting Bool := ⟨⟨fun _ => 0, 0, 0, 1, 1, true⟩, fun _ => .out⟩

theorem freshWaiting_fresh : freshWaiting.Fresh := ⟨rfl, rfl, rfl, fun _ => rfl⟩

/-- The reader finds the pipe empty. -/
def readerWaits : Waiting Bool := freshWaiting.set true (.reading 1 true)

theorem freshWaiting_reads : freshWaiting.step (.reads true 1) readerWaits :=
  ⟨rfl, Nat.one_pos, Int.one_pos, rfl⟩

/-- A write of one byte wakes the reader, which takes it. -/
theorem no_lost_wakeup_oneByte : ∃ w : Waiting Bool, Waiting.Run Waiting.Fits w ∧
    w.doing true = .reading 1 false ∧ w.Justified := by
  have h1 : Waiting.Run Waiting.Fits readerWaits :=
    (Waiting.Run.start freshWaiting_fresh).step (.reads true 1) trivial freshWaiting_reads
  have h2 := h1.step (.writes false [7]) (fun _ => by decide) ⟨rfl, Int.one_pos, rfl⟩
  exact ⟨_, h2, rfl, (no_lost_wakeup h2).1⟩

/-- A write of one byte more than the pipe holds goes to sleep, and the reader sleeps on. -/
theorem big_write_wakes_nobody : ∃ w : Waiting Bool, Waiting.Run (fun _ _ => True) w ∧
    w.doing true = .reading 1 true ∧ (∃ rest n, w.doing false = .writing rest n true) ∧
    ¬w.Justified := by
  have h1 : Waiting.Run (fun _ _ => True) readerWaits :=
    (Waiting.Run.start freshWaiting_fresh).step (.reads true 1) trivial freshWaiting_reads
  have h2 := h1.step (.writes false (List.replicate 4096 7)) trivial ⟨rfl, Int.one_pos, rfl⟩
  rcases readerWaits.pipe.write_spec (List.replicate 4096 7) 0 Int.one_pos readerWaits.pipe.bytes_le
    with ⟨hle, -⟩ | ⟨-, hfull, -, -, rest, n, he⟩
  · rw [List.length_replicate] at hle
    exact absurd hle (by decide)
  · rcases hres : readerWaits.pipe.write 0 (List.replicate 4096 7) with ⟨x, e⟩
    rw [hres] at h2 hfull he
    subst he
    refine ⟨_, h2, rfl, ⟨rest, n, rfl⟩, fun hj => ?_⟩
    have hempty : x.bytes = 0 := (hj.reading true 1 rfl).1
    rw [hempty] at hfull
    exact absurd hfull (by decide)

end Verkos.Stam
