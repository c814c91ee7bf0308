import Verkos.Lib.Ring
import Verkos.Stam.PipeWait

/-!
# A pipe is a queue

The bytes of a pipe come out in the order they went in. A read takes what is there in one section; a
write may stop in the middle of its loop when the pipe is full and go on when others have moved both
indices. `Traffic` is a pipe and its threads with what was accepted and what was returned so far, and
what is in the pipe is always what lies between the two.

A read of no bytes returns zero before it looks at the pipe.
-/

namespace Verkos.Stam

open List
open Function

attribute [local instance] neZero4096

namespace Pipe

/-- What is in the pipe, the oldest byte first. -/
def contents (x : Pipe) : List UInt8 := Lib.Ring.contents x.buf x.tail x.bytes

/-- What a section of `file_write` puts into the pipe. -/
def accepts (x : Pipe) : List UInt8 → List UInt8
  | [] => []
  | b :: rest =>
    if x.readers ≤ 0 then []
    else if x.bytes = pipeSize - 1 then []
    else b :: (x.put b).accepts rest

theorem head_eq (x : Pipe) : x.head = x.tail + Fin.ofNat pipeSize x.bytes := by
  have hof : Fin.ofNat pipeSize x.bytes = x.head - x.tail :=
    Fin.ext (Nat.mod_eq_of_lt (x.head - x.tail).isLt)
  rw [hof]
  exact (add_sub_cancel x.tail x.head).symm

theorem contents_put (x : Pipe) (b : UInt8) (h : x.bytes ≠ pipeSize - 1) :
    (x.put b).contents = x.contents ++ [b] := by
  have hle := x.bytes_le
  have hlt : x.bytes < pipeSize := (x.head - x.tail).isLt
  rw [contents, x.bytes_put b h, contents, ← Lib.Ring.contents_put hlt, ← x.head_eq]
  rfl

theorem bytes_get (x : Pipe) (h : x.bytes ≠ 0) : x.get.bytes + 1 = x.bytes := by
  have hh : x.head.val < 4096 := x.head.isLt
  have ht : x.tail.val < 4096 := x.tail.isLt
  have hone : (1 : Fin pipeSize).val = 1 := rfl
  unfold bytes get at *
  simp only [Fin.val_sub, Fin.val_add, hone] at *
  change (4096 - x.tail.val + x.head.val) % 4096 ≠ 0 at h
  change (4096 - (x.tail.val + 1) % 4096 + x.head.val) % 4096 + 1 =
    (4096 - x.tail.val + x.head.val) % 4096
  omega

theorem contents_get (x : Pipe) (h : x.bytes ≠ 0) : x.contents = x.buf x.tail :: x.get.contents := by
  rw [contents, ← x.bytes_get h]
  rfl

theorem contents_nil {x : Pipe} (h : x.bytes = 0) : x.contents = [] := by
  rw [contents, h]
  rfl

theorem length_contents (x : Pipe) : x.contents.length = x.bytes := Lib.Ring.length_contents ..

theorem contents_take (x : Pipe) (len : Nat) :
    (x.take len).2 ++ (x.take len).1.contents = x.contents := by
  induction len generalizing x with
  | zero => rfl
  | succ len ih =>
    rw [take]
    split
    · rfl
    · rename_i h
      rw [contents_get x h, ← ih x.get]
      rfl

theorem contents_write (x : Pipe) (n : Nat) (rest : List UInt8) :
    (x.write n rest).1.contents = x.contents ++ x.accepts rest := by
  induction rest generalizing x n with
  | nil => exact (append_nil _).symm
  | cons b rest ih =>
    rw [write, accepts]
    split
    · exact (append_nil _).symm
    · split
      · exact (append_nil _).symm
      · rename_i hfull
        rw [ih, contents_put x b hfull, append_assoc]
        rfl

/-- A section of a write returns how many bytes of the call were accepted, or, when there were none
and there is no reader, that; or it sleeps with the bytes that were not. -/
theorem write_ended (x : Pipe) (n : Nat) (rest : List UInt8) : match (x.write n rest).2 with
    | .returns ret _ _ => x.accepts rest <+: rest ∧ (ret = n + (x.accepts rest).length ∨
        ret = -32 ∧ n = 0 ∧ x.accepts rest = [])
    | .sleepsReading => False
    | .sleepsWriting rest' n' => x.accepts rest ++ rest' = rest ∧ n' = n + (x.accepts rest).length := by
  induction rest generalizing x n with
  | nil => exact ⟨prefix_rfl, .inl rfl⟩
  | cons b rest ih =>
    rw [write, accepts]
    by_cases hr : x.readers ≤ 0
    · rw [if_pos hr, if_pos hr]
      refine ⟨ nil_prefix, ?_⟩
      by_cases hn : n = 0
      · exact .inr ⟨if_pos hn, hn, rfl⟩
      · exact .inl (if_neg hn)
    · rw [if_neg hr, if_neg hr]
      by_cases hfull : x.bytes = pipeSize - 1
      · rw [if_pos hfull, if_pos hfull]
        exact ⟨rfl, rfl⟩
      · rw [if_neg hfull, if_neg hfull]
        have hih := ih (x.put b) (n + 1)
        cases hres : ((x.put b).write (n + 1) rest).2 with
        | returns ret data wakes =>
          rw [hres] at hih
          obtain ⟨hpre, hret⟩ := hih
          refine ⟨cons_prefix_cons.2 ⟨rfl, hpre⟩, .inl ?_⟩
          rw [length_cons]
          rcases hret with hret | ⟨-, hn, -⟩
          · omega
          · omega
        | sleepsReading =>
          rw [hres] at hih
          exact hih
        | sleepsWriting rest' n' =>
          rw [hres] at hih
          obtain ⟨hrest, hn⟩ := hih
          refine ⟨congrArg (b :: ·) hrest, ?_⟩
          rw [length_cons]
          omega

end Pipe

/-! ## Histories -/

/-- What a section of a read takes out. -/
def Ended.data : Ended → List UInt8
  | .returns _ data _ => data
  | _ => []

/-- A call that returned: a read of up to `len` bytes with what it got, or a write of `buf` with what
was accepted of it. -/
inductive Return
  | read (len : Nat) (data : List UInt8)
  | wrote (buf accepted : List UInt8) (ret : Int)

/-- A pipe and the threads at it, all that was accepted and all that was returned, and for each
thread the buffer of its last write with what was accepted of that. -/
structure Traffic (ι : Type) where
  waiting : Waiting ι
  took : List UInt8
  gave : List UInt8
  buf : ι → List UInt8
  done : ι → List UInt8

namespace Traffic

variable {ι : Type} [DecidableEq ι]

/-- A section of a read of `t`. -/
def reading (w : Traffic ι) (t : ι) (len : Nat) : Traffic ι × Option Return :=
  let r := w.waiting.pipe.read len
  ({ w with
      waiting := w.waiting.ends t len r
      gave := w.gave ++ r.2.data },
    match r.2 with
    | .returns _ data _ => some (.read len data)
    | _ => none)

/-- A section of a write of `t`: `n` bytes are accepted already. -/
def writing (w : Traffic ι) (t : ι) (n : Nat) (rest : List UInt8) : Traffic ι × Option Return :=
  let r := w.waiting.pipe.write n rest
  let accepted := w.waiting.pipe.accepts rest
  ({ w with
      waiting := w.waiting.ends t 0 r
      took := w.took ++ accepted
      done := Function.update w.done t (w.done t ++ accepted) },
    match r.2 with
    | .returns ret _ _ => some (.wrote (w.buf t) (w.done t ++ accepted) ret)
    | _ => none)

/-- A write begins. -/
def calls (w : Traffic ι) (t : ι) (buf : List UInt8) : Traffic ι :=
  { w with buf := Function.update w.buf t buf, done := Function.update w.done t [] }

/-- A step of `Waiting` with what it returns. A read of no bytes does not come to the pipe. -/
def step (w : Traffic ι) : WaitEvent ι → Option Return → Traffic ι → Prop
  | .reads t len, r, w' => w.waiting.doing t = .out ∧ 0 < w.waiting.pipe.readers ∧
      (w', r) = if len = 0 then (w, some (.read 0 [])) else w.reading t len
  | .writes t buf, r, w' => w.waiting.doing t = .out ∧ 0 < w.waiting.pipe.writers ∧
      (w', r) = (w.calls t buf).writing t 0 buf
  | .resumes t, r, w' =>
    (∃ len, w.waiting.doing t = .reading len false ∧ (w', r) = w.reading t len) ∨
      ∃ rest n, w.waiting.doing t = .writing rest n false ∧ (w', r) = w.writing t n rest
  | .closes kind, r, w' =>
    r = none ∧ ∃ v, w.waiting.step (.closes kind) v ∧ w' = { w with waiting := v }
  | .signals t, r, w' =>
    r = none ∧ ∃ v, w.waiting.step (.signals t) v ∧ w' = { w with waiting := v }

/-- What can be reached from a new pipe. -/
inductive Reached : Traffic ι → Prop
  | start {w : Traffic ι} : w.waiting.Fresh → w.took = [] → w.gave = [] → Reached w
  | step {w w' : Traffic ι} (e : WaitEvent ι) (r : Option Return) :
    Reached w → w.step e r w' → Reached w'

/-- The pipe holds what was accepted and not returned yet, and a write that sleeps has the rest of
its buffer. -/
structure Orderly (w : Traffic ι) : Prop where
  fifo : w.gave ++ w.waiting.pipe.contents = w.took
  pending : ∀ t rest n a, w.waiting.doing t = .writing rest n a →
    w.buf t = w.done t ++ rest ∧ n = (w.done t).length

/-- What a call that returns in this state may say. A read that asked for something and got nothing
found no writer and nothing left; a write counts what was accepted, the first bytes of its buffer. -/
def Honest (w : Traffic ι) : Return → Prop
  | .read len data => 0 < len → data = [] → w.waiting.pipe.writers ≤ 0 ∧ w.gave = w.took
  | .wrote buf accepted ret => accepted <+: buf ∧
      (ret = accepted.length ∨ ret = -32 ∧ accepted = [])

end Traffic

/-! ## The sections -/

theorem Pipe.contents_read (x : Pipe) (len : Nat) :
    (x.read len).2.data ++ (x.read len).1.contents = x.contents := by
  unfold Pipe.read
  split
  · split
    · rfl
    · rfl
  · exact x.contents_take len

theorem Pipe.read_nothing {x : Pipe} {len : Nat} {ret : Int} {data : List UInt8} {wakes : Bool}
    (h : (x.read len).2 = .returns ret data wakes) (hlen : 0 < len) (hnil : data = []) :
    x.bytes = 0 ∧ x.writers ≤ 0 := by
  unfold Pipe.read at h
  split at h
  · rename_i hempty
    split at h
    · exact ⟨hempty, ‹_›⟩
    · cases h
  · rename_i hempty
    obtain ⟨len, rfl⟩ := Nat.exists_eq_succ_of_ne_zero (Nat.pos_iff_ne_zero.1 hlen)
    rw [Pipe.take, if_neg hempty] at h
    cases h
    cases hnil

theorem Pipe.contents_closeEnd (x : Pipe) (kind : Kind) : (x.closeEnd kind).contents = x.contents := by
  unfold Pipe.closeEnd
  split <;> rfl

namespace Waiting

variable {ι : Type} {w : Waiting ι} {t u : ι} {len n : Nat} {p : Pipe × Ended}
  {rest : List UInt8} {a : Bool}

theorem pipe_ends [DecidableEq ι] : (w.ends t len p).pipe = p.1 := by
  obtain ⟨x, e⟩ := p
  cases e with
  | returns ret data wakes => cases wakes <;> rfl
  | sleepsReading | sleepsWriting rest n => rfl

theorem awake_writing {d : Doing} (h : d.awake = .writing rest n a) : ∃ a', d = .writing rest n a' := by
  cases d with
  | out | reading len a => cases h
  | writing rest n a =>
    cases h
    exact ⟨a, rfl⟩

variable [DecidableEq ι]

theorem set_writing {d : Doing} (h : (w.set t d).doing u = .writing rest n a) :
    (u = t ∧ d = .writing rest n a) ∨ (u ≠ t ∧ w.doing u = .writing rest n a) := by
  change update w.doing t d u = _ at h
  by_cases hut : u = t
  · subst hut
    rw [update_self] at h
    exact .inl ⟨rfl, h⟩
  · rw [update_of_ne hut] at h
    exact .inr ⟨hut, h⟩

theorem ends_writing (h : (w.ends t len p).doing u = .writing rest n a) :
    (u = t ∧ p.2 = .sleepsWriting rest n) ∨ (u ≠ t ∧ ∃ a', w.doing u = .writing rest n a') := by
  obtain ⟨x, e⟩ := p
  cases e with
  | returns ret data wakes =>
    have hset : ∃ a', ((({ w with pipe := x } : Waiting ι).set t .out).doing u) = .writing rest n a' := by
      cases wakes with
      | true => exact awake_writing h
      | false => exact ⟨a, h⟩
    obtain ⟨a', hset⟩ := hset
    rcases set_writing hset with ⟨-, hd⟩ | ⟨hut, hd⟩
    · cases hd
    · exact .inr ⟨hut, a', hd⟩
  | sleepsReading =>
    rcases set_writing h with ⟨-, hd⟩ | ⟨hut, hd⟩
    · cases hd
    · exact .inr ⟨hut, a, hd⟩
  | sleepsWriting rest' n' =>
    rcases set_writing h with ⟨hut, hd⟩ | ⟨hut, hd⟩
    · cases hd
      exact .inl ⟨hut, rfl⟩
    · exact .inr ⟨hut, a, hd⟩

end Waiting

namespace Traffic.Orderly

variable {ι : Type} [DecidableEq ι] {w : Traffic ι} {t : ι}

theorem reading (h : w.Orderly) (t : ι) (len : Nat) : (w.reading t len).1.Orderly where
  fifo := by
    change (w.gave ++ (w.waiting.pipe.read len).2.data) ++
      (w.waiting.ends t len (w.waiting.pipe.read len)).pipe.contents = w.took
    rw [Waiting.pipe_ends, append_assoc, Pipe.contents_read, h.fifo]
  pending := fun u rest n a hu => by
    rcases Waiting.ends_writing hu with ⟨-, he⟩ | ⟨-, a', hd⟩
    · unfold Pipe.read at he
      split at he
      · split at he <;> cases he
      · cases he
    · exact h.pending u rest n a' hd

/-- A read that is given nothing though it asked for something. -/
theorem read_honest (h : w.Orderly) (t : ι) {len : Nat} {r : Return} (hr : (w.reading t len).2 = some r) :
    w.Honest r := by
  change (match (w.waiting.pipe.read len).2 with
    | .returns _ data _ => some (Return.read len data)
    | _ => none) = some r at hr
  cases hres : (w.waiting.pipe.read len).2 with
  | sleepsReading | sleepsWriting rest' n' =>
    rw [hres] at hr
    cases hr
  | returns ret data wakes =>
    rw [hres] at hr
    obtain rfl := Option.some.inj hr
    intro hlen hnil
    obtain ⟨hempty, hwr⟩ := Pipe.read_nothing hres hlen hnil
    have hfifo := h.fifo
    rw [Pipe.contents_nil hempty, append_nil] at hfifo
    exact ⟨hwr, hfifo⟩

theorem writing (h : w.Orderly) {n : Nat} {rest : List UInt8} (hbuf : w.buf t = w.done t ++ rest)
    (hn : n = (w.done t).length) : (w.writing t n rest).1.Orderly where
  fifo := by
    change w.gave ++ (w.waiting.ends t 0 (w.waiting.pipe.write n rest)).pipe.contents =
      w.took ++ w.waiting.pipe.accepts rest
    rw [Waiting.pipe_ends, Pipe.contents_write, ← append_assoc, h.fifo]
  pending := fun u rest' n' a hu => by
    change w.buf u = update w.done t (w.done t ++ w.waiting.pipe.accepts rest) u ++ rest' ∧
      n' = (update w.done t (w.done t ++ w.waiting.pipe.accepts rest) u).length
    rcases Waiting.ends_writing hu with ⟨rfl, he⟩ | ⟨hut, a', hd⟩
    · have hended := w.waiting.pipe.write_ended n rest
      rw [he] at hended
      obtain ⟨hrest, hn'⟩ := hended
      rw [update_self, append_assoc, hrest, length_append]
      exact ⟨hbuf, by omega⟩
    · rw [update_of_ne hut]
      exact h.pending u rest' n' a' hd

theorem write_honest {n : Nat} {rest : List UInt8} (hbuf : w.buf t = w.done t ++ rest)
    (hn : n = (w.done t).length) {r : Return} (hr : (w.writing t n rest).2 = some r) :
    w.Honest r := by
  have hended := w.waiting.pipe.write_ended n rest
  change (match (w.waiting.pipe.write n rest).2 with
    | .returns ret _ _ => some (Return.wrote (w.buf t) (w.done t ++ w.waiting.pipe.accepts rest) ret)
    | _ => none) = some r at hr
  cases hres : (w.waiting.pipe.write n rest).2 with
  | sleepsReading | sleepsWriting rest' n' =>
    rw [hres] at hr
    cases hr
  | returns ret data wakes =>
    rw [hres] at hr hended
    obtain rfl := Option.some.inj hr
    obtain ⟨hpre, hret⟩ := hended
    refine ⟨?_, ?_⟩
    · rw [hbuf]
      exact (prefix_append_right_inj _).2 hpre
    · rw [length_append]
      rcases hret with hret | ⟨hret, hz, hnil⟩
      · exact .inl (by omega)
      · have hdone : w.done t = [] := length_eq_zero_iff.1 (by omega)
        exact .inr ⟨hret, by rw [hdone, hnil]; rfl⟩

theorem calls (h : w.Orderly) (hout : w.waiting.doing t = .out) (buf : List UInt8) :
    (w.calls t buf).Orderly where
  fifo := h.fifo
  pending := fun u rest n a hu => by
    have hut : u ≠ t := by
      rintro rfl
      rw [show (w.calls u buf).waiting.doing u = .out from hout] at hu
      cases hu
    change update w.buf t buf u = update w.done t [] u ++ rest ∧
      n = (update w.done t [] u).length
    rw [update_of_ne hut, update_of_ne hut]
    exact h.pending u rest n a hu

omit [DecidableEq ι] in
/-- The pipe keeps what is in it, and who is in a write stays in it. -/
theorem withWaiting (h : w.Orderly) {v : Waiting ι} (hc : v.pipe.contents = w.waiting.pipe.contents)
    (hd : ∀ u rest n a, v.doing u = .writing rest n a → ∃ a', w.waiting.doing u = .writing rest n a') :
    ({ w with waiting := v } : Traffic ι).Orderly where
  fifo := by
    change w.gave ++ v.pipe.contents = w.took
    rw [hc, h.fifo]
  pending := fun u rest n a hu => by
    obtain ⟨a', hu'⟩ := hd u rest n a hu
    exact h.pending u rest n a' hu'

theorem step (h : w.Orderly) {e : WaitEvent ι} {r : Option Return} {w' : Traffic ι}
    (hs : w.step e r w') : w'.Orderly ∧ ∀ x, r = some x → w.Honest x := by
  cases e with
  | reads t len =>
    obtain ⟨-, -, he⟩ := hs
    split at he
    · obtain ⟨rfl, rfl⟩ := Prod.mk.inj he
      refine ⟨h, ?_⟩
      rintro x hx
      cases hx
      intro hlen
      cases hlen
    · obtain ⟨rfl, rfl⟩ := Prod.mk.inj he
      exact ⟨h.reading t len, fun x hx => h.read_honest t hx⟩
  | writes t buf =>
    obtain ⟨hout, -, he⟩ := hs
    obtain ⟨rfl, rfl⟩ := Prod.mk.inj he
    have hbuf : (w.calls t buf).buf t = (w.calls t buf).done t ++ buf := by
      change update w.buf t buf t = update w.done t [] t ++ buf
      rw [update_self, update_self, nil_append]
    have hn : 0 = ((w.calls t buf).done t).length := by
      change 0 = (update w.done t [] t).length
      rw [update_self, length_nil]
    refine ⟨(h.calls hout buf).writing hbuf hn, fun x hx => ?_⟩
    have hx := write_honest hbuf hn hx
    cases x with
    | read len data | wrote buf' accepted ret => exact hx
  | resumes t =>
    rcases hs with ⟨len, -, he⟩ | ⟨rest, n, hd, he⟩
    · obtain ⟨rfl, rfl⟩ := Prod.mk.inj he
      exact ⟨h.reading t len, fun x hx => h.read_honest t hx⟩
    · obtain ⟨rfl, rfl⟩ := Prod.mk.inj he
      obtain ⟨hbuf, hn⟩ := h.pending t rest n false hd
      exact ⟨h.writing hbuf hn, fun x hx => write_honest hbuf hn hx⟩
  | closes kind =>
    obtain ⟨rfl, v, ⟨-, -, -, -, rfl⟩, rfl⟩ := hs
    exact ⟨h.withWaiting (w.waiting.pipe.contents_closeEnd kind)
      fun u rest n a hu => Waiting.awake_writing hu, nofun⟩
  | signals t =>
    obtain ⟨rfl, v, rfl, rfl⟩ := hs
    refine ⟨h.withWaiting rfl fun u rest n a hu => ?_, nofun⟩
    rcases Waiting.set_writing hu with ⟨rfl, hd⟩ | ⟨-, hd⟩
    · exact Waiting.awake_writing hd
    · exact ⟨a, hd⟩

end Traffic.Orderly

theorem Traffic.Reached.orderly {ι : Type} [DecidableEq ι] {w : Traffic ι} (h : w.Reached) :
    w.Orderly := by
  induction h with
  | start hf htook hgave =>
    refine ⟨?_, fun t rest n a ht => ?_⟩
    · rw [htook, hgave, Pipe.contents_nil hf.empty]
      rfl
    · rw [hf.out t] at ht
      cases ht
  | step e r _ hs ih => exact (ih.step hs).1

/-- In every state that any number of readers and writers can reach, what was returned is the first
part of what was accepted and the pipe holds exactly the rest, at most 4095 bytes; and whatever
returns next is honest: a read that asked for at least one byte gets none only when no writer is
open and everything accepted has been returned, and a write returns how many bytes of its buffer
were accepted. -/
theorem pipe_is_queue {ι : Type} [DecidableEq ι] {w : Traffic ι} (h : w.Reached) :
    w.gave ++ w.waiting.pipe.contents = w.took ∧ w.waiting.pipe.contents.length ≤ pipeSize - 1 ∧
      ∀ e r w', w.step e (some r) w' → w.Honest r := by
  have hord := h.orderly
  refine ⟨hord.fifo, ?_, fun e r w' hs => (hord.step hs).2 r rfl⟩
  rw [Pipe.length_contents]
  exact w.waiting.pipe.bytes_le

/-! ## A read of no bytes -/

/-- A new pipe and two threads. -/
def freshTraffic : Traffic Bool := ⟨freshWaiting, [], [], fun _ => [], fun _ => []⟩

/-- It returns nothing while a writer is open. -/
theorem empty_read_is_no_end : ¬∀ w : Traffic Bool, w.Reached → ∀ e len data w',
    w.step e (some (.read len data)) w' → data = [] →
      w.waiting.pipe.writers ≤ 0 ∧ w.gave = w.took := by
  intro h
  have hnew : freshTraffic.Reached := .start freshWaiting_fresh rfl rfl
  have hread : freshTraffic.step (.reads true 0) (some (.read 0 [])) freshTraffic :=
    ⟨rfl, Int.one_pos, rfl⟩
  have hwriters := (h freshTraffic hnew _ _ _ _ hread rfl).1
  exact absurd hwriters (by decide)

/-- A byte that was written is read, and counted on both sides. -/
theorem pipe_is_queue_oneByte : ∃ w : Traffic Bool, w.Reached ∧ w.took = [7] ∧ w.gave = [7] ∧
    w.gave ++ w.waiting.pipe.contents = w.took := by
  have hnew : freshTraffic.Reached := .start freshWaiting_fresh rfl rfl
  have h1 := hnew.step (.writes false [7]) (some (.wrote [7] [7] 1)) ⟨rfl, Int.one_pos, rfl⟩
  have h2 := h1.step (.reads true 1) (some (.read 1 [7])) ⟨rfl, Int.one_pos, rfl⟩
  exact ⟨_, h2, rfl, rfl, (pipe_is_queue h2).1⟩

end Verkos.Stam
