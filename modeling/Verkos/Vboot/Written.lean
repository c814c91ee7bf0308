import Verkos.Vboot.Fdtgen

/-!
# What the calls write

The structure block is a list of tokens and the string table a list of names, each name once
(`Enc`). `Writes` ties the generator to them: as long as nothing has overflowed, the two areas of
the buffer hold exactly their bytes; once something has, they would not have fitted; and whatever
happens, nothing behind the buffer is touched. Sizes are kept from wrapping by `Short`: a name or a
value that is not near 4 GiB.
-/

namespace Verkos.Vboot

open Lib Lib.Bytes
open List
open Memory (copy_down read_add read_write_other read_write_self store_eq_write write_out)

/-! ## Tokens -/

/-- A token of the structure block; a property has its name and where the table has it. -/
inductive Tok
  | node (name : Name)
  | prop (name : Name) (noff : Nat) (val : List UInt8)
  | endNode

/-- Filled up to a word. -/
def pad4 (bs : List UInt8) : List UInt8 := bs ++ List.replicate (Fdtgen.padOf bs.length) 0

def Tok.bytes : Tok → List UInt8
  | .node name => be32 fdtBeginNode ++ pad4 (name ++ [0])
  | .prop _ noff val => be32 fdtProp ++ (be32 val.length ++ (be32 noff ++ pad4 val))
  | .endNode => be32 fdtEndNode

def structBytes (toks : List Tok) : List UInt8 := toks.flatMap Tok.bytes

/-- The string table. -/
def poolBytes (pool : List Name) : List UInt8 := pool.flatMap (· ++ [0])

/-- Where a name is in the table, which starts at `i`. -/
def findIn (name : Name) : List Name → Nat → Option Nat
  | [], _ => none
  | c :: cs, i => if c = name then some i else findIn name cs (i + c.length + 1)

/-- The tokens so far, and the names. -/
structure Enc where
  toks : List Tok
  pool : List Name

/-- The table with a name in it, and where. -/
def internIn (pool : List Name) (name : Name) : List Name × Nat :=
  match findIn name pool 0 with
  | some i => (pool, i)
  | none => (pool ++ [name], (poolBytes pool).length)

def Enc.call (e : Enc) : Call → Enc
  | .node name => { e with toks := e.toks ++ [Tok.node name] }
  | .prop name val =>
    ⟨e.toks ++ [Tok.prop name (internIn e.pool name).2 val], (internIn e.pool name).1⟩
  | .endNode => { e with toks := e.toks ++ [Tok.endNode] }

/-- A string that does not wrap a size when it is added. -/
def Short (cap : Nat) (bs : List UInt8) : Prop := cap + bs.length + 76 < 2 ^ 32

/-- What is asked of a call: names without NUL, and nothing near 4 GiB. -/
def Call.Fair (cap : Nat) : Call → Prop
  | .node name => 0 ∉ name ∧ Short cap name
  | .prop name val => 0 ∉ name ∧ Short cap name ∧ Short cap val
  | .endNode => True

instance (cap : Nat) (c : Call) : Decidable (c.Fair cap) := by
  cases c <;> unfold Call.Fair Short <;> infer_instance

/-! ## Sizes -/

theorem padOf_lt (n : Nat) : Fdtgen.padOf n < 4 := by
  unfold Fdtgen.padOf
  omega

theorem length_pad4 (bs : List UInt8) : (pad4 bs).length = bs.length + Fdtgen.padOf bs.length := by
  rw [pad4, length_append, length_replicate]

@[simp] theorem length_be32 (v : Nat) : (be32 v).length = 4 := length_big 4 v

theorem pad4_be32 (v : Nat) : pad4 (be32 v) = be32 v := by
  have h : Fdtgen.padOf (be32 v).length = 0 := by rw [length_be32]; rfl
  rw [pad4, h, replicate_zero, append_nil]

theorem pad4_nil : pad4 [] = [] := rfl

/-! ## The generator -/

/-- Room for a structure block and a string table. -/
def Fits (cap : Nat) (s t : List UInt8) : Prop :=
  (s = [] ∨ fdtgenHdr + s.length ≤ cap - cap / 4) ∧ t.length ≤ cap / 4

instance (cap : Nat) (s t : List UInt8) : Decidable (Fits cap s t) :=
  inferInstanceAs (Decidable (_ ∧ _))

/-- The generator has written `s` and `t`, or it has run out of room; `old` is the memory before. -/
structure Writes (old : Memory) (cap : Nat) (g : Fdtgen) (s t : List UInt8) : Prop where
  capEq : g.cap = cap
  stcapEq : g.stcap = cap / 4
  off : g.off = 0 ∨ fdtgenHdr + g.off ≤ cap - cap / 4
  stroff : g.stroff ≤ cap / 4
  outside : ∀ x, cap ≤ x → g.buf x = old x
  offEq : g.overflow = false → g.off = s.length
  stroffEq : g.overflow = false → g.stroff = t.length
  struct : g.overflow = false → g.buf.read fdtgenHdr s.length = s
  strings : g.overflow = false → g.buf.read (cap - cap / 4) t.length = t
  empty : g.overflow = false → ∀ x, fdtgenHdr + s.length ≤ x → x < cap - cap / 4 → g.buf x = 0
  full : g.overflow = true → ¬Fits cap s t

variable {old : Memory} {cap : Nat} {g : Fdtgen} {s t : List UInt8}

theorem fgInit_writes (old : Memory) (cap : Nat) : Writes old cap (fgInit old cap) [] [] where
  capEq := rfl
  stcapEq := rfl
  off := .inl rfl
  stroff := Nat.zero_le _
  outside x hx := write_out (by rw [length_replicate]; omega)
  offEq _ := rfl
  stroffEq _ := rfl
  struct _ := rfl
  strings _ := rfl
  empty _ x _ hx := by
    show Memory.write old 0 _ x = 0
    rw [Memory.write_in (by rw [length_replicate]; omega), getD_eq_getElem?_getD,
      getElem?_replicate]
    split <;> rfl
  full h := nomatch h

theorem Fits.left {s' : List UInt8} (h : Fits cap (s ++ s') t) : Fits cap s t := by
  obtain ⟨hs, ht⟩ := h
  refine ⟨?_, ht⟩
  rcases hs with hs | hs
  · exact .inl (append_eq_nil_iff.1 hs).1
  · rw [length_append] at hs
    exact .inr (by omega)

theorem Fits.right {t' : List UInt8} (h : Fits cap s (t ++ t')) : Fits cap s t := by
  have ht := h.2
  rw [length_append] at ht
  exact ⟨h.1, by omega⟩

theorem put32_eq (g : Fdtgen) (v : Nat) (h : fdtgenHdr + g.off + 4 < 2 ^ 32) :
    g.put32 v = g.putbytes (be32 v) := by
  have hpad : Fdtgen.padOf 4 = 0 := rfl
  have hstore : g.buf.store (fun i => fdtgenHdr + (g.off + i) % 2 ^ 32) (be32 v) =
      g.buf.write (fdtgenHdr + g.off) (be32 v) := by
    apply store_eq_write
    intro i hi
    rw [length_be32] at hi
    rw [Nat.mod_eq_of_lt (by omega), Nat.add_assoc]
  unfold Fdtgen.put32 Fdtgen.putbytes
  dsimp only
  rw [length_be32, hpad, Nat.add_zero, Nat.add_zero, hstore]

/-- A range that has not been written since the buffer was cleared. -/
theorem read_zeros {m : Memory} {a n : Nat} (h : ∀ x, a ≤ x → x < a + n → m x = 0) :
    m.read a n = List.replicate n 0 := by
  rw [Memory.read_eq_iff]
  refine ⟨length_replicate, fun i hi => ?_⟩
  rw [h _ (by omega) (by omega), getElem?_replicate, if_pos hi]

section

variable (h : Writes old cap g s t)
include h

theorem Writes.extend {src : List UInt8} {g' : Fdtgen}
    (hroom : fdtgenHdr + g.off + (pad4 src).length ≤ cap - cap / 4)
    (heq : g' = { g with buf := g.buf.write (fdtgenHdr + g.off) src, off := g.off + (pad4 src).length }) :
    Writes old cap g' (s ++ pad4 src) t := by
  have hlen := length_pad4 src
  have hover : g.overflow = true → ¬Fits cap (s ++ pad4 src) t := fun ho hf => h.full ho hf.left
  subst heq
  refine { h with off := .inr ?_, outside := ?_, offEq := ?_, struct := ?_, strings := ?_,
                  empty := ?_, full := hover }
  · show fdtgenHdr + (g.off + (pad4 src).length) ≤ cap - cap / 4
    omega
  · intro x hx
    show Memory.write g.buf _ src x = old x
    rw [write_out (by omega)]
    exact h.outside x hx
  · intro ho
    show g.off + (pad4 src).length = (s ++ pad4 src).length
    rw [h.offEq ho, length_append]
  · intro ho
    have hoff := h.offEq ho
    have hzeros : (g.buf.write (fdtgenHdr + g.off) src).read (fdtgenHdr + s.length + src.length)
        (Fdtgen.padOf src.length) = List.replicate (Fdtgen.padOf src.length) 0 := by
      apply read_zeros
      intro x hx hx'
      rw [write_out (by omega)]
      exact h.empty ho x (by omega) (by omega)
    show (g.buf.write (fdtgenHdr + g.off) src).read fdtgenHdr (s ++ pad4 src).length = _
    rw [length_append, hlen, read_add, read_add, hzeros,
      read_write_other (by omega), h.struct ho, hoff, read_write_self]
    rfl
  · intro ho
    show (g.buf.write (fdtgenHdr + g.off) src).read (cap - cap / 4) t.length = t
    rw [read_write_other (by omega)]
    exact h.strings ho
  · intro ho x hx hx'
    have hoff := h.offEq ho
    rw [length_append] at hx
    show Memory.write g.buf _ src x = 0
    rw [write_out (by omega)]
    exact h.empty ho x (by omega) hx'

theorem Writes.overflowed {s' t' : List UInt8} (hno : ¬Fits cap s' t') :
    Writes old cap { g with overflow := true } s' t' where
  capEq := h.capEq
  stcapEq := h.stcapEq
  off := h.off
  stroff := h.stroff
  outside := h.outside
  offEq := nofun
  stroffEq := nofun
  struct := nofun
  strings := nofun
  empty := nofun
  full _ := hno

theorem Writes.stale {s' t' : List UInt8} (ho : g.overflow = true) (hno : ¬Fits cap s' t') :
    Writes old cap g s' t' := by
  have hg : ({ g with overflow := true } : Fdtgen) = g := by rw [← ho]
  have hover := h.overflowed hno
  rwa [hg] at hover

theorem Writes.putbytes {src : List UInt8} (hne : src ≠ [])
    (hshort : cap + src.length + 72 < 2 ^ 32) :
    Writes old cap (g.putbytes src) (s ++ pad4 src) t := by
  have hcap := h.capEq
  have hstcap := h.stcapEq
  have hoff := h.off
  have hpad := padOf_lt src.length
  have hlen := length_pad4 src
  have hhdr : fdtgenHdr = 64 := rfl
  have hnowrap : (fdtgenHdr + g.off + src.length + Fdtgen.padOf src.length) % 2 ^ 32 =
      fdtgenHdr + g.off + src.length + Fdtgen.padOf src.length := Nat.mod_eq_of_lt (by omega)
  unfold Fdtgen.putbytes
  dsimp only
  rw [hnowrap]
  split_ifs with hfull
  · apply h.overflowed
    intro hf
    cases ho : g.overflow with
    | true => exact h.full ho hf.left
    | false =>
      obtain ⟨hs | hs, -⟩ := hf
      · rw [append_eq_nil_iff] at hs
        have hzero : (pad4 src).length = 0 := by rw [hs.2]; rfl
        exact hne (length_eq_zero_iff.1 (by omega))
      · have hs' := h.offEq ho
        rw [length_append] at hs
        omega
  · have hstore : g.buf.store (fun i => fdtgenHdr + (g.off + i) % 2 ^ 32) src =
        g.buf.write (fdtgenHdr + g.off) src := by
      apply store_eq_write
      intro i hi
      rw [Nat.mod_eq_of_lt (by omega), Nat.add_assoc]
    apply h.extend (by omega)
    rw [hstore, Nat.mod_eq_of_lt (by omega), hlen, Nat.add_assoc]

theorem Writes.put32 (hcap : cap + 76 < 2 ^ 32) (v : Nat) :
    Writes old cap (g.put32 v) (s ++ be32 v) t := by
  have hoff := h.off
  have hhdr : fdtgenHdr = 64 := rfl
  have hne : be32 v ≠ [] := ne_nil_of_length_pos (by rw [length_be32]; omega)
  rw [put32_eq g v (by omega)]
  have hput := h.putbytes hne (by rw [length_be32]; omega)
  rwa [pad4_be32] at hput

end

/-! ## The names -/

theorem poolBytes_split (pool more : List Name) :
    poolBytes (pool ++ more) = poolBytes pool ++ poolBytes more := flatMap_append

theorem poolBytes_append (pool : List Name) (name : Name) :
    poolBytes (pool ++ [name]) = poolBytes pool ++ (name ++ [0]) := by
  simp [poolBytes]

theorem takeWhile_name {name : Name} (h : 0 ∉ name) (rest : List UInt8) :
    (name ++ (0 :: rest)).takeWhile (· ≠ 0) = name := by
  have hall : ∀ b ∈ name, (decide (b ≠ 0)) = true := by
    intro b hb
    rw [decide_eq_true_eq]
    rintro rfl
    exact h hb
  rw [takeWhile_append_of_pos hall]
  simp

theorem findName_eq {pool : List Name} (hpool : ∀ c ∈ pool, 0 ∉ c) (name : Name)
    (pre : List UInt8) {k : Nat} (hk : (poolBytes pool).length ≤ k) :
    Fdtgen.findName (pre ++ poolBytes pool) name k pre.length = findIn name pool pre.length := by
  induction pool generalizing pre k with
  | nil =>
    cases k with
    | zero => rfl
    | succ k =>
      rw [Fdtgen.findName, if_pos (by simp [poolBytes])]
      rfl
  | cons c cs ih =>
    have hbytes : poolBytes (c :: cs) = c ++ (0 :: poolBytes cs) := by simp [poolBytes]
    have hlen : (poolBytes (c :: cs)).length = c.length + (1 + (poolBytes cs).length) := by
      rw [hbytes, length_append, length_cons, Nat.add_comm 1]
    cases k with
    | zero => omega
    | succ k =>
      have hcand : ((pre ++ poolBytes (c :: cs)).drop pre.length).takeWhile (· ≠ 0) = c := by
        rw [drop_left, hbytes]
        exact takeWhile_name (hpool c (.head _)) _
      have hrest := ih (fun d hd => hpool d (.tail _ hd)) (pre ++ (c ++ [0])) (k := k) (by omega)
      have happ : pre ++ (c ++ [0]) ++ poolBytes cs = pre ++ poolBytes (c :: cs) := by
        rw [hbytes]
        simp
      have hpos : (pre ++ (c ++ [0])).length = pre.length + c.length + 1 := by
        simp only [length_append, length_singleton, Nat.add_assoc]
      rw [happ, hpos] at hrest
      unfold Fdtgen.findName findIn
      dsimp only
      rw [if_neg (by rw [length_append]; omega), hcand, hrest]

/-- A name behind the others in the table. -/
theorem Writes.addName (h : Writes old cap g s t) {src : List UInt8} {g' : Fdtgen}
    (hroom : g.stroff + src.length ≤ cap / 4) (heq : g' = { g with
      buf := g.buf.write (g.strings + g.stroff) src, stroff := g.stroff + src.length }) :
    Writes old cap g' s (t ++ src) := by
  have hcap := h.capEq
  have hstcap := h.stcapEq
  have hat : g.strings = cap - cap / 4 := by rw [Fdtgen.strings, hcap, hstcap]
  rw [hat] at heq
  subst heq
  refine { h with stroff := hroom, outside := ?_, stroffEq := ?_, struct := ?_, strings := ?_,
                  empty := ?_, full := ?_ }
  · intro x hx
    show Memory.write g.buf _ src x = old x
    rw [write_out (by omega)]
    exact h.outside x hx
  · intro ho
    show g.stroff + src.length = (t ++ src).length
    rw [h.stroffEq ho, length_append]
  · intro ho
    have hoff := h.offEq ho
    have hin := h.off
    show (g.buf.write (cap - cap / 4 + g.stroff) src).read fdtgenHdr s.length = s
    by_cases hs : s = []
    · subst hs
      rfl
    · have hpos := length_pos_of_ne_nil hs
      rw [read_write_other (by omega)]
      exact h.struct ho
  · intro ho
    show (g.buf.write (cap - cap / 4 + g.stroff) src).read (cap - cap / 4) (t ++ src).length = _
    rw [length_append, read_add, ← h.stroffEq ho, read_write_self,
      read_write_other (by omega), h.stroffEq ho, h.strings ho]
  · intro ho x hx hx'
    show Memory.write g.buf _ src x = 0
    rw [write_out (by omega)]
    exact h.empty ho x hx hx'
  · exact fun ho hf => h.full ho hf.right

theorem internIn_grows (pool : List Name) (name : Name) :
    ∃ more, (internIn pool name).1 = pool ++ more := by
  unfold internIn
  split
  · exact ⟨[], (append_nil _).symm⟩
  · exact ⟨[name], rfl⟩

theorem Writes.intern {pool : List Name} (h : Writes old cap g s (poolBytes pool))
    (hpool : ∀ c ∈ pool, 0 ∉ c) {name : Name} (hshort : Short cap name) :
    Writes old cap (g.intern name).1 s (poolBytes (internIn pool name).1) ∧
    ((g.intern name).1.overflow = false → (g.intern name).2 = (internIn pool name).2) := by
  have hcap := h.capEq
  have hstcap := h.stcapEq
  have hstroff := h.stroff
  have hat : g.strings = cap - cap / 4 := by rw [Fdtgen.strings, hcap, hstcap]
  have hfind : g.overflow = false →
      Fdtgen.findName (g.buf.read g.strings g.stroff) name g.stroff 0 = findIn name pool 0 := by
    intro ho
    have hlen := h.stroffEq ho
    rw [hat, hlen, h.strings ho]
    exact findName_eq hpool name [] (Nat.le_refl _)
  unfold Short at hshort
  have hnowrap : (g.stroff + (name.length + 1)) % 2 ^ 32 = g.stroff + (name.length + 1) :=
    Nat.mod_eq_of_lt (by omega)
  have hstore : g.buf.store (fun i => g.strings + (g.stroff + i) % 2 ^ 32) (name ++ [0]) =
      g.buf.write (g.strings + g.stroff) (name ++ [0]) := by
    apply store_eq_write
    intro i hi
    rw [length_append, length_singleton] at hi
    rw [Nat.mod_eq_of_lt (by omega), Nat.add_assoc]
  have hlen : (name ++ [0]).length = name.length + 1 := by
    rw [length_append, length_singleton]
  -- once something has not fitted, the table may be anything that is at least as long
  have hgrown : ∀ {g' : Fdtgen} {t' : List UInt8}, g.overflow = true → g'.overflow = true →
      Writes old cap g' s t' → Writes old cap g' s (poolBytes (internIn pool name).1) := by
    intro g' t' ho ho' h'
    obtain ⟨more, hmore⟩ := internIn_grows pool name
    refine h'.stale ho' fun hf => h.full ho ?_
    rw [hmore, poolBytes_split] at hf
    exact hf.right
  unfold Fdtgen.intern
  dsimp only
  rw [hnowrap, hstore]
  cases hfound : Fdtgen.findName (g.buf.read g.strings g.stroff) name g.stroff 0 with
  | some i =>
    dsimp only
    cases ho : g.overflow with
    | true => exact ⟨hgrown ho ho h, nofun⟩
    | false =>
      have hin : internIn pool name = (pool, i) := by
        rw [internIn, ← hfind ho, hfound]
      rw [hin]
      exact ⟨h, fun _ => rfl⟩
  | none =>
    dsimp only
    have hin : g.overflow = false →
        internIn pool name = (pool ++ [name], (poolBytes pool).length) := by
      intro ho
      rw [internIn, ← hfind ho, hfound]
    split_ifs with hfull
    · refine ⟨?_, nofun⟩
      cases ho : g.overflow with
      | true => exact hgrown ho rfl (h.overflowed (h.full ho))
      | false =>
        have hlong := h.stroffEq ho
        rw [hin ho, poolBytes_append]
        refine h.overflowed fun hf => ?_
        have hf' := hf.2
        rw [length_append, hlen] at hf'
        omega
    · have hadd := @Writes.addName old cap g s (poolBytes pool) h (name ++ [0]) _ (by omega) rfl
      rw [hlen] at hadd
      cases ho : g.overflow with
      | true =>
        rw [ho] at hadd
        exact ⟨hgrown ho rfl hadd, nofun⟩
      | false =>
        rw [hin ho, poolBytes_append]
        rw [ho] at hadd
        exact ⟨hadd, fun _ => h.stroffEq ho⟩

/-! ## Calls -/

theorem put32_sticky (v : Nat) (h : g.overflow = true) : (g.put32 v).overflow = true := by
  unfold Fdtgen.put32
  split_ifs
  · rfl
  · exact h

theorem putbytes_sticky (src : List UInt8) (h : g.overflow = true) :
    (g.putbytes src).overflow = true := by
  unfold Fdtgen.putbytes
  dsimp only
  split_ifs
  · rfl
  · exact h

theorem clean_internIn {pool : List Name} (hpool : ∀ c ∈ pool, 0 ∉ c) {name : Name}
    (hname : 0 ∉ name) : ∀ c ∈ (internIn pool name).1, 0 ∉ c := by
  unfold internIn
  split
  · exact hpool
  · intro c hc
    rcases mem_append.1 hc with hc | hc
    · exact hpool c hc
    · rw [mem_singleton.1 hc]
      exact hname

theorem Writes.node (h : Writes old cap g s t) {name : Name} (hshort : Short cap name) :
    Writes old cap (g.node name) (s ++ Tok.bytes (.node name)) t := by
  have hlen : (name ++ [0]).length = name.length + 1 := by
    rw [length_append, length_singleton]
  unfold Short at hshort
  have hput := (h.put32 (by omega) fdtBeginNode).putbytes (by simp : name ++ [0] ≠ [])
    (by omega)
  rwa [append_assoc] at hput

theorem Writes.prop {pool : List Name} (h : Writes old cap g s (poolBytes pool))
    (hpool : ∀ c ∈ pool, 0 ∉ c) {name : Name} {val : List UInt8} (hname : Short cap name)
    (hval : Short cap val) : Writes old cap (g.prop name val)
      (s ++ Tok.bytes (.prop name (internIn pool name).2 val))
      (poolBytes (internIn pool name).1) := by
  obtain ⟨hintern, hnoff⟩ := h.intern hpool hname
  have hcap : cap + 76 < 2 ^ 32 := by
    unfold Short at hval
    omega
  -- what is written has the offset that the generator has found
  have hwrites : Writes old cap (g.prop name val)
      (s ++ Tok.bytes (.prop name (g.intern name).2 val)) (poolBytes (internIn pool name).1) := by
    have hwords := ((hintern.put32 hcap fdtProp).put32 hcap val.length).put32 hcap (g.intern name).2
    rw [append_assoc, append_assoc] at hwords
    unfold Fdtgen.prop Tok.bytes
    dsimp only
    split_ifs with hnil
    · rw [hnil, pad4_nil, append_nil]
      rwa [hnil] at hwords
    · have hput := hwords.putbytes hnil (by unfold Short at hval; omega)
      rwa [append_assoc, append_assoc, append_assoc] at hput
  cases ho : (g.intern name).1.overflow with
  | false => rwa [hnoff ho] at hwrites
  | true =>
    have hlast : (g.prop name val).overflow = true := by
      have hwords := put32_sticky (g.intern name).2
        (put32_sticky val.length (put32_sticky fdtProp ho))
      unfold Fdtgen.prop
      dsimp only
      split_ifs
      · exact hwords
      · exact putbytes_sticky val hwords
    have hlen : (Tok.bytes (.prop name (internIn pool name).2 val)).length =
        (Tok.bytes (.prop name (g.intern name).2 val)).length := by
      simp only [Tok.bytes, length_append, length_be32]
    refine hwrites.stale hlast fun hf => hwrites.full hlast ⟨?_, hf.2⟩
    rcases hf.1 with hs | hs
    · left
      rw [← length_eq_zero_iff, length_append] at hs ⊢
      omega
    · right
      rw [length_append] at hs ⊢
      omega

/-- The generator is at what the calls have said so far. -/
structure At (old : Memory) (cap : Nat) (g : Fdtgen) (e : Enc) : Prop where
  writes : Writes old cap g (structBytes e.toks) (poolBytes e.pool)
  clean : ∀ c ∈ e.pool, 0 ∉ c

theorem structBytes_append (toks : List Tok) (tok : Tok) :
    structBytes (toks ++ [tok]) = structBytes toks ++ tok.bytes := by
  rw [structBytes, flatMap_append, flatMap_singleton]
  rfl

theorem At.call {e : Enc} (h : At old cap g e) (hcap : cap + 76 < 2 ^ 32) {c : Call}
    (hc : c.Fair cap) : At old cap (g.call c) (e.call c) := by
  obtain ⟨hwrites, hclean⟩ := h
  cases c with
  | node name =>
    refine ⟨?_, hclean⟩
    show Writes old cap _ (structBytes (e.toks ++ [_])) (poolBytes e.pool)
    rw [structBytes_append]
    exact hwrites.node hc.2
  | prop name val =>
    refine ⟨?_, clean_internIn hclean hc.1⟩
    show Writes old cap _ (structBytes (e.toks ++ [_])) (poolBytes (internIn e.pool name).1)
    rw [structBytes_append]
    exact hwrites.prop hclean hc.2.1 hc.2.2
  | endNode =>
    refine ⟨?_, hclean⟩
    show Writes old cap _ (structBytes (e.toks ++ [_])) (poolBytes e.pool)
    rw [structBytes_append]
    exact hwrites.put32 hcap fdtEndNode

theorem At.calls {e : Enc} (h : At old cap g e) (hcap : cap + 76 < 2 ^ 32) {calls : List Call}
    (hcalls : ∀ c ∈ calls, c.Fair cap) :
    At old cap (calls.foldl Fdtgen.call g) (calls.foldl Enc.call e) := by
  induction calls generalizing g e with
  | nil => exact h
  | cons c cs ih =>
    exact ih (h.call hcap (hcalls c (.head _))) fun d hd => hcalls d (.tail _ hd)

/-! ## The finished buffer -/

theorem length_header (total st so n size : Nat) :
    (Fdtgen.header total st so n size).length = 40 := by
  simp [Fdtgen.header]

/-- What a buffer holds in the end: the header, and behind byte 64 the structure and the names. -/
structure Finished (s t : List UInt8) (r : Nat × Fdtgen) : Prop where
  total : r.1 = fdtgenHdr + s.length + t.length
  header : r.2.buf.read 0 40 = Fdtgen.header (fdtgenHdr + s.length + t.length) fdtgenHdr
    (fdtgenHdr + s.length) t.length s.length
  struct : r.2.buf.read fdtgenHdr s.length = s
  strings : r.2.buf.read (fdtgenHdr + s.length) t.length = t

/-- `fg_finish` gives 0 if something has not fitted, and it does not write behind the buffer. -/
theorem Writes.finish (h : Writes old cap g s t) (hcap : cap + 76 < 2 ^ 32) :
    (¬Fits cap (s ++ be32 fdtEnd) t → g.finish.1 = 0) ∧
    (Fits cap (s ++ be32 fdtEnd) t → Finished (s ++ be32 fdtEnd) t g.finish) ∧
    ∀ x, cap ≤ x → g.finish.2.buf x = old x := by
  have hput := h.put32 hcap fdtEnd
  generalize hs' : s ++ be32 fdtEnd = s' at hput ⊢
  generalize hg' : g.put32 fdtEnd = g' at hput
  have hhdr : fdtgenHdr = 64 := rfl
  have hpos : 0 < s'.length := by
    rw [← hs', length_append, length_be32]
    omega
  unfold Fdtgen.finish
  rw [hg']
  dsimp only
  cases ho : g'.overflow with
  | true =>
    rw [if_pos rfl]
    exact ⟨fun _ => rfl, fun hf => absurd hf (hput.full ho), hput.outside⟩
  | false =>
    rw [if_neg Bool.false_ne_true]
    have hoff := hput.offEq ho
    have hstroff := hput.stroffEq ho
    have hcapEq := hput.capEq
    have hroom := hput.off
    have hroom' := hput.stroff
    have hat : g'.strings = cap - cap / 4 := by rw [Fdtgen.strings, hcapEq, hput.stcapEq]
    have hso : (fdtgenHdr + g'.off) % 2 ^ 32 = fdtgenHdr + s'.length := by
      rw [hoff, Nat.mod_eq_of_lt (by omega)]
    have htotal : (fdtgenHdr + s'.length + t.length) % 2 ^ 32 = fdtgenHdr + s'.length + t.length :=
      Nat.mod_eq_of_lt (by omega)
    rw [hso, hstroff, hat, hoff, hcapEq, htotal]
    have hlen := length_header (fdtgenHdr + s'.length + t.length) fdtgenHdr (fdtgenHdr + s'.length)
      t.length s'.length
    have hzeros : (List.replicate (cap - (fdtgenHdr + s'.length + t.length)) (0 : UInt8)).length =
        cap - (fdtgenHdr + s'.length + t.length) := length_replicate
    refine ⟨fun hno => absurd ⟨.inr (by omega), by omega⟩ hno, fun _ => ⟨rfl, ?_, ?_, ?_⟩, ?_⟩
    · rw [← hlen]
      exact read_write_self ..
    · -- the names move down to behind the structure block
      dsimp only
      rw [read_write_other (by omega), read_write_other (by omega)]
      calc Memory.read _ fdtgenHdr s'.length = g'.buf.read fdtgenHdr s'.length :=
            Memory.read_congr fun x _ _ => by
              rw [copy_down (by omega), if_neg (by omega)]
        _ = s' := hput.struct ho
    · dsimp only
      rw [read_write_other (by omega), read_write_other (by omega),
        Memory.read_copy (by omega)]
      exact hput.strings ho
    · intro x hx
      show Memory.write _ 0 _ x = old x
      rw [write_out (by omega), write_out (by omega), copy_down (by omega),
        if_neg (by omega)]
      exact hput.outside x hx

end Verkos.Vboot
