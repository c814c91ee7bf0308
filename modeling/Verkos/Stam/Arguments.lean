import Verkos.Sav.Args
import Verkos.Stam.Execve

/-!
# From `execve` to `Args.get`

The caller's strings go into a buffer, the buffer into the stack page, the page into the new space,
and there the program looks for them with code savc wrote. What each of these hands to the next is a
lemma; `arguments_delivered` puts them together for every program savc accepts, every caller, and
every state of the page allocator.

The word the program keeps its stack pointer in is behind its globals. It is where it should be as
long as the sizes of the globals add up to something that is not negative and an `adrp` can reach
it; the sizes are kept in an `int`, and an array can have more bytes than that.
-/

namespace Verkos.Stam

open Verkos.Lib Verkos.Sav
open List (get_eq_getElem get_mem length_append length_cons length_singleton)
open BitVec (add_zero ofNat_add toNat_ofNat)

/-! ## What the caller hands over -/

/-- A string in the caller's memory. -/
structure Caller.CString (u : Caller) (p : Nat) (s : List UInt8) : Prop where
  bytes : ∀ j (h : j < s.length), u.byte (p + j) = s.get ⟨j, h⟩
  nonzero : 0 ∉ s
  zero : u.byte (p + s.length) = 0

/-- A path, and a vector of strings that ends with a null pointer, or no vector. -/
structure Caller.Hands (u : Caller) (path argv : Nat) (name : List UInt8)
    (strs : List (List UInt8)) : Prop where
  path : u.CString path name
  null : argv = 0 → strs = []
  each : argv ≠ 0 → ∀ i (h : i < strs.length), u.pointer (slotOf argv i) ≠ 0 ∧
    u.CString (u.pointer (slotOf argv i)) (strs.get ⟨i, h⟩)
  last : argv ≠ 0 → u.pointer (slotOf argv strs.length) = 0

/-- The arguments of the new program: the strings, or the path when there are none. -/
def argsOf (name : List UInt8) (strs : List (List UInt8)) : List (List UInt8) :=
  if strs = [] then [name] else strs

/-- Strings one after the other, each with its zero. -/
def bufferOf (strs : List (List UInt8)) : ArgBuf :=
  ⟨strs.flatMap (· ++ [0]), strs.map (·.length + 1)⟩

/-! ## The copy -/

variable {n argv path q k i : Nat}

variable {max off j disk : Nat} {l : List UInt8} {f : List UInt8 → Option Found}

section Copy

variable {u : Caller} {p : Nat} {s : List UInt8}

theorem Caller.CString.strlenFrom (h : u.CString p s) :
    ∀ (left i n : Nat), i ≤ s.length → u.strlenFrom p left i = some n → n = s.length := by
  intro left
  induction left with
  | zero =>
    intro i n _ hn
    cases hn
  | succ left ih =>
    intro i n hi hn
    rw [Caller.strlenFrom] at hn
    split at hn
    · cases hn
    · split at hn
      · rename_i hz
        cases hn
        by_contra hne
        rw [h.bytes i (by omega)] at hz
        exact h.nonzero (hz ▸ get_mem s ⟨i, by omega⟩)
      · rename_i hz
        refine ih (i + 1) n ?_ hn
        by_contra hne
        obtain rfl : i = s.length := by omega
        exact hz h.zero

theorem Caller.CString.strlen (h : u.CString p s) (hn : u.strlen p max = some n) :
    n = s.length := by
  unfold Caller.strlen at hn
  split at hn
  · cases hn
  · exact h.strlenFrom _ _ _ (Nat.zero_le _) hn

theorem Caller.strlenFrom_lt : ∀ (left i n : Nat), u.strlenFrom p left i = some n → n < i + left := by
  intro left
  induction left with
  | zero =>
    intro i n hn
    cases hn
  | succ left ih =>
    intro i n hn
    rw [Caller.strlenFrom] at hn
    split at hn
    · cases hn
    · split at hn
      · cases hn
        omega
      · have hlt := ih (i + 1) n hn
        omega

theorem Caller.strlen_lt (hn : u.strlen p max = some n) : n < max := by
  unfold Caller.strlen at hn
  split at hn
  · cases hn
  · have hlt := Caller.strlenFrom_lt _ _ _ hn
    omega

theorem Caller.CString.bytes_eq (h : u.CString p s) : u.bytes p s.length = s := by
  apply List.ext_getElem
  · rw [Caller.bytes, List.length_map, List.length_range]
  · intro j hj hj'
    simp only [Caller.bytes, List.getElem_map, List.getElem_range]
    rw [h.bytes j hj', get_eq_getElem]

theorem Caller.CString.bytes_zero (h : u.CString p s) : u.bytes p (s.length + 1) = s ++ [0] := by
  rw [Caller.bytes, List.range_succ, List.map_append]
  congr 1
  · exact h.bytes_eq
  · rw [List.map_singleton, h.zero]

theorem Caller.CString.of_bytes (h : u.bytes p (s.length + 1) = s ++ [0]) (h0 : 0 ∉ s) :
    u.CString p s := by
  have hbyte : ∀ j, j < s.length + 1 → (s ++ [0])[j]? = some (u.byte (p + j)) := by
    intro j hj
    rw [← h, Caller.bytes, List.getElem?_map, List.getElem?_range hj]
    rfl
  refine ⟨fun j hj => ?_, h0, ?_⟩
  · have hb := hbyte j (by omega)
    rw [List.getElem?_append_left hj, List.getElem?_eq_getElem hj, Option.some.injEq] at hb
    exact hb.symm
  · have hb := hbyte s.length (by omega)
    rw [List.getElem?_append_right le_rfl, Nat.sub_self, List.getElem?_cons_zero,
      Option.some.injEq] at hb
    exact hb.symm

/-- What the loop has copied when it comes to the null pointer. -/
theorem copyArgs_spec : ∀ {left argc : Nat} {b b' : ArgBuf} (strs : List (List UInt8)),
      copyArgs u argv left argc b = .ok b' →
      (∀ i (h : i < strs.length), u.pointer (slotOf argv (argc + i)) ≠ 0 ∧
        u.CString (u.pointer (slotOf argv (argc + i))) (strs.get ⟨i, h⟩)) →
      u.pointer (slotOf argv (argc + strs.length)) = 0 → b.argbuf.length ≤ argBytes →
      b'.argbuf = b.argbuf ++ (bufferOf strs).argbuf ∧
        b'.arglen = b.arglen ++ (bufferOf strs).arglen ∧ strs.length ≤ left ∧
        b'.argbuf.length ≤ argBytes := by
  intro left
  induction left with
  | zero =>
    intro argc b b' strs h hstrs hlast hb
    rw [copyArgs] at h
    split at h
    · cases h
    · split at h
      · cases h
      · rename_i hz
        cases h
        cases strs with
        | nil => exact ⟨by simp [bufferOf], by simp [bufferOf], le_rfl, hb⟩
        | cons s rest => exact absurd (hstrs 0 (by simp)).1 hz
  | succ left ih =>
    intro argc b b' strs h hstrs hlast hb
    rw [copyArgs] at h
    split at h
    · cases h
    · dsimp only at h
      split at h
      · rename_i hz
        cases h
        cases strs with
        | nil => exact ⟨by simp [bufferOf], by simp [bufferOf], Nat.zero_le _, hb⟩
        | cons s rest => exact absurd hz (hstrs 0 (by simp)).1
      · rename_i hz
        cases strs with
        | nil => exact absurd hlast hz
        | cons s rest =>
          have hs : u.CString (u.pointer (slotOf argv argc)) s := (hstrs 0 (by simp)).2
          split at h
          · cases h
          · rename_i n hn
            obtain rfl := hs.strlen hn
            split at h
            · cases h
            · rename_i hfit
              rw [hs.bytes_zero] at h
              obtain ⟨hbuf, hlen, hcount, hle⟩ := ih rest h (fun i hi => by
                  rw [Nat.add_assoc, Nat.add_comm 1 i]
                  exact hstrs (i + 1) (by simpa using hi))
                (by rw [Nat.add_assoc, Nat.add_comm 1]; exact hlast)
                (by rw [length_append, length_append, length_singleton]; omega)
              refine ⟨?_, ?_, by rw [length_cons]; omega, hle⟩
              · rw [hbuf]
                simp [bufferOf]
              · rw [hlen]
                simp [bufferOf]

theorem takeWhile_nonzero (h : 0 ∉ s) : s.takeWhile (· != 0) = s := by
  rw [List.takeWhile_eq_self_iff]
  intro b hb
  rw [bne_iff_ne]
  rintro rfl
  exact h hb

/-- What `do_execve` has after the copy, when it goes on. -/
structure Copied (name : List UInt8) (strs : List (List UInt8)) (b : ArgBuf) : Prop where
  buffer : b = bufferOf (argsOf name strs)
  nonzero : ∀ s ∈ argsOf name strs, 0 ∉ s
  few : (argsOf name strs).length ≤ maxArgs
  small : b.argbuf.length ≤ argBytes

theorem execArgs_spec {name name' : List UInt8} {strs : List (List UInt8)}
    {b : ArgBuf} (h : execArgs u path argv = .ok (name', b)) (hh : u.Hands path argv name strs) :
    name' = name ∧ name.length ≤ 62 ∧ Copied name strs b := by
  unfold execArgs at h
  split at h
  · cases h
  · rename_i plen hplen
    obtain rfl := hh.path.strlen hplen
    have hshort := Caller.strlen_lt hplen
    rw [hh.path.bytes_eq] at h
    dsimp only at h
    have hname : Copied name [] (orName name ⟨[], []⟩) := by
      refine ⟨?_, ?_, ?_, ?_⟩
      · simp [orName, takeWhile_nonzero hh.path.nonzero, bufferOf, argsOf]
      · intro s hs
        rw [argsOf, if_pos rfl, List.mem_singleton] at hs
        rw [hs]
        exact hh.path.nonzero
      · simp [argsOf, maxArgs]
      · simp only [orName, takeWhile_nonzero hh.path.nonzero, if_true, length_append,
          length_singleton, argBytes]
        omega
    split at h
    · rename_i hz
      cases h
      rw [hh.null hz]
      exact ⟨rfl, by omega, hname⟩
    · rename_i hz
      split at h
      · cases h
      · rename_i b1 hb1
        cases h
        obtain ⟨hbuf, hlen, hcount, hle⟩ := copyArgs_spec strs hb1
          (fun i hi => by rw [Nat.zero_add]; exact hh.each hz i hi)
          (by rw [Nat.zero_add]; exact hh.last hz) (Nat.zero_le _)
        rw [List.nil_append] at hbuf hlen
        refine ⟨rfl, by omega, ?_⟩
        cases strs with
        | nil =>
          obtain rfl : b1 = ⟨[], []⟩ := by
            cases b1
            simp_all [bufferOf]
          exact hname
        | cons s rest =>
          have hb : orName name b1 = b1 := by
            unfold orName
            rw [if_neg]
            simp [hlen, bufferOf]
          have hargs : argsOf name (s :: rest) = s :: rest := if_neg (List.cons_ne_nil s rest)
          rw [hb]
          refine ⟨?_, ?_, ?_, hle⟩
          · rw [hargs]
            cases b1
            simp_all [bufferOf]
          · rw [hargs]
            intro s' hs'
            obtain ⟨i, hi⟩ := List.get_of_mem hs'
            rw [← hi]
            exact (hh.each hz i i.isLt).2.nonzero
          · rw [hargs]
            exact hcount

end Copy

/-! ## The page -/

section Page

variable {args : List (List UInt8)} {b : ArgBuf} {page : Nat → Nat}

theorem ArgBuf.layout (hfew : b.argc ≤ maxArgs) (hsmall : b.used ≤ argBytes) :
    0 < b.spOff ∧ b.spOff % 8 = 0 ∧ b.spOff + 8 * (b.argc + 3) ≤ b.strOff ∧
      b.strOff + b.used ≤ 4096 := by
  unfold maxArgs at hfew
  unfold argBytes at hsmall
  unfold ArgBuf.spOff ArgBuf.ptrBytes ArgBuf.strOff
  omega

theorem putBytes_inside (h : q < l.length) :
    putBytes page off l (off + q) = (l.get ⟨q, h⟩).toNat := by
  unfold putBytes
  rw [dif_pos (by omega)]
  simp only [Nat.add_sub_cancel_left]

theorem putBytes_above (h : off + l.length ≤ q) : putBytes page off l q = page q :=
  dif_neg (by omega)

theorem put64_get (n : Nat) (hk : k < 8) : (put64 n)[k]? = some (UInt8.ofNat (n / 256 ^ k)) := by
  interval_cases k <;> simp [put64, put32, Nat.div_div_eq_div_mul]

theorem flatMap_put64_get (l : List Nat) : ∀ {i k : Nat} (hi : i < l.length), k < 8 →
    (l.flatMap put64)[8 * i + k]? = some (UInt8.ofNat (l.get ⟨i, hi⟩ / 256 ^ k)) := by
  induction l with
  | nil => intro i k hi _; exact absurd hi (Nat.not_lt_zero i)
  | cons n l ih =>
    intro i k hi hk
    have hlen : (put64 n).length = 8 := rfl
    rw [List.flatMap_cons]
    cases i with
    | zero =>
      rw [List.getElem?_append_left (by omega), Nat.mul_zero, Nat.zero_add]
      exact put64_get n hk
    | succ i =>
      rw [List.getElem?_append_right (by omega), hlen,
        show 8 * (i + 1) + k - 8 = 8 * i + k by omega]
      exact ih (by simpa using hi) hk

theorem length_flatMap_put64 (l : List Nat) : (l.flatMap put64).length = 8 * l.length := by
  induction l with
  | nil => rfl
  | cons n l ih =>
    have hlen : (put64 n).length = 8 := rfl
    rw [List.flatMap_cons, length_append, ih, hlen, length_cons]
    omega

theorem ArgBuf.length_pointers (base : Nat) : ∀ (at' : Nat) (lens : List Nat),
    (ArgBuf.pointers base at' lens).length = lens.length := by
  intro at' lens
  induction lens generalizing at' with
  | nil => rfl
  | cons n rest ih => rw [ArgBuf.pointers, length_cons, length_cons, ih]

theorem ArgBuf.length_vector (b : ArgBuf) : b.vector.length = b.argc + 3 := by
  simp [ArgBuf.vector, ArgBuf.length_pointers, ArgBuf.argc]

theorem ArgBuf.lay_vector (hi : i < b.vector.length) (hk : k < 8) :
    b.lay page (b.spOff + (8 * i + k)) = b.vector.get ⟨i, hi⟩ / 256 ^ k % 256 := by
  have hget := flatMap_put64_get b.vector hi hk
  obtain ⟨hlt, hval⟩ := List.getElem?_eq_some_iff.1 hget
  unfold ArgBuf.lay
  rw [putBytes_inside hlt, get_eq_getElem, hval]
  simp [UInt8.toNat_ofNat']

theorem ArgBuf.lay_string (hfew : b.argc ≤ maxArgs) (hsmall : b.used ≤ argBytes)
    (hq : q < b.argbuf.length) : b.lay page (b.strOff + q) = (b.argbuf.get ⟨q, hq⟩).toNat := by
  have hlay := ArgBuf.layout hfew hsmall
  unfold ArgBuf.lay
  rw [putBytes_above, putBytes_inside hq]
  rw [length_flatMap_put64, ArgBuf.length_vector]
  omega

theorem ArgBuf.pointers_get (base : Nat) : ∀ (lens : List Nat) (at' i : Nat), i < lens.length →
    (ArgBuf.pointers base at' lens)[i]? = some (base + (at' + (lens.take i).sum)) := by
  intro lens
  induction lens with
  | nil => intro at' i hi; exact absurd hi (Nat.not_lt_zero i)
  | cons n rest ih =>
    intro at' i hi
    rw [ArgBuf.pointers]
    cases i with
    | zero => rfl
    | succ i =>
      rw [List.getElem?_cons_succ, ih (at' + n) i (by simpa using hi), List.take_succ_cons,
        List.sum_cons, Nat.add_assoc at' n]

theorem length_bufferOf (strs : List (List UInt8)) :
    (bufferOf strs).argbuf.length = (strs.map (·.length + 1)).sum := by
  simp [bufferOf, List.length_flatMap]

theorem bufferOf_split (pre post : List (List UInt8)) (s : List UInt8) :
    (bufferOf (pre ++ s :: post)).argbuf =
      (bufferOf pre).argbuf ++ ((s ++ [0]) ++ (bufferOf post).argbuf) := by
  simp [bufferOf]

/-- Where the `i`-th string starts in the buffer. -/
def startOf (strs : List (List UInt8)) (i : Nat) : Nat := ((strs.map (·.length + 1)).take i).sum

theorem bufferOf_get (hi : i < args.length) (hj : j < (args.get ⟨i, hi⟩ ++ [0]).length) :
    (bufferOf args).argbuf[startOf args i + j]? = some ((args.get ⟨i, hi⟩ ++ [0]).get ⟨j, hj⟩) := by
  have hsplit : args = args.take i ++ args.get ⟨i, hi⟩ :: args.drop (i + 1) := by
    rw [get_eq_getElem, List.getElem_cons_drop, List.take_append_drop]
  have hlen : (bufferOf (args.take i)).argbuf.length = startOf args i := by
    rw [length_bufferOf, startOf, List.map_take]
  have hbuf : (bufferOf args).argbuf = (bufferOf (args.take i)).argbuf ++
      ((args.get ⟨i, hi⟩ ++ [0]) ++ (bufferOf (args.drop (i + 1))).argbuf) := by
    conv_lhs => rw [hsplit]
    exact bufferOf_split _ _ _
  rw [hbuf, List.getElem?_append_right (by omega), hlen, Nat.add_sub_cancel_left,
    List.getElem?_append_left hj, List.getElem?_eq_getElem hj]
  rfl

end Page

/-! ## The program finds them -/

section Found

variable {args : List (List UInt8)} {b : ArgBuf} {page : Nat → Nat} {mapped : Word → Bool}
  {mem : Mem}

/-- The memory of the program from the stack pointer up is the page the kernel laid out. -/
structure OnStack (b : ArgBuf) (page : Nat → Nat) (mapped : Word → Bool) (mem : Mem) : Prop where
  bytes : ∀ q, b.spOff ≤ q → q < 4096 →
    (mem (BitVec.ofNat 64 (stackBase + q))).toNat = b.lay page q
  mapped : ∀ q < 4096, mapped (BitVec.ofNat 64 (stackBase + q)) = true

theorem OnStack.word (h : OnStack b page mapped mem) (hfew : b.argc ≤ maxArgs)
    (hsmall : b.used ≤ argBytes) (hi : i < b.vector.length) (hv : b.vector.get ⟨i, hi⟩ < 2 ^ 64) :
    mem.load (BitVec.ofNat 64 (stackBase + b.spOff) + BitVec.ofNat 64 (8 * i)) .w64 false =
      BitVec.ofNat 64 (b.vector.get ⟨i, hi⟩) := by
  have hlay := ArgBuf.layout hfew hsmall
  have hlen := b.length_vector
  refine Mem.load_digits hv fun k hk => ?_
  rw [← ofNat_add, ← ofNat_add, ← ArgBuf.lay_vector hi hk,
    ← h.bytes _ (by omega) (by omega)]
  congr 3
  omega

theorem OnStack.has (h : OnStack b page mapped mem) (hq : q + n ≤ 4096) :
    has mapped (BitVec.ofNat 64 (stackBase + q)) n = true := by
  refine has_iff.2 fun k hk => ?_
  rw [← ofNat_add, Nat.add_assoc]
  exact h.mapped _ (by omega)

theorem ArgBuf.vector_get (hb : b = bufferOf args) (hi : i < args.length) :
    b.vector[i + 1]? = some (stackBase + b.strOff + startOf args i) := by
  have hlen : i < b.arglen.length := by
    rw [hb]
    simpa [bufferOf] using hi
  rw [ArgBuf.vector, List.getElem?_cons_succ, List.getElem?_append_left (by
    rw [ArgBuf.length_pointers]
    exact hlen), ArgBuf.pointers_get _ _ _ _ hlen, Nat.zero_add, hb]
  rfl

/-- A byte of a string, or its zero. -/
theorem OnStack.byte (h : OnStack b page mapped mem) (hb : b = bufferOf args)
    (hfew : b.argc ≤ maxArgs) (hsmall : b.used ≤ argBytes) (hi : i < args.length)
    (hj : j < (args.get ⟨i, hi⟩ ++ [0]).length) :
    mem (BitVec.ofNat 64 (stackBase + b.strOff + startOf args i) + BitVec.ofNat 64 j) =
      ((args.get ⟨i, hi⟩ ++ [0]).get ⟨j, hj⟩).toBitVec := by
  have hlay := ArgBuf.layout hfew hsmall
  have hget := bufferOf_get hi hj
  rw [← hb] at hget
  obtain ⟨hlt, hval⟩ := List.getElem?_eq_some_iff.1 hget
  have hin : startOf args i + j < b.used := hlt
  apply BitVec.eq_of_toNat_eq
  rw [← ofNat_add, Nat.add_assoc, Nat.add_assoc, h.bytes _ (by omega) (by omega),
    ArgBuf.lay_string hfew hsmall hlt, get_eq_getElem, hval]
  rfl

theorem OnStack.argsAt (h : OnStack b page mapped mem) (hb : b = bufferOf args)
    (hnonzero : ∀ s ∈ args, 0 ∉ s) (hfew : b.argc ≤ maxArgs) (hsmall : b.used ≤ argBytes) :
    ArgsAt mapped mem (BitVec.ofNat 64 (stackBase + b.spOff)) args := by
  have hlay := ArgBuf.layout hfew hsmall
  have hlen := b.length_vector
  have hargc : b.argc = args.length := by
    rw [hb]
    simp [ArgBuf.argc, bufferOf]
  have hbase : stackBase = 0x7f00100000 := rfl
  unfold maxArgs at hfew
  refine ⟨?_, fun i hi => ?_, fun i hi => ?_, by omega⟩
  · have hw := h.word hfew hsmall (i := 0) (by omega) (by
      change b.argc < 2 ^ 64
      omega)
    rw [add_zero] at hw
    rw [hw, ← hargc]
    rfl
  · have hstart : startOf args i + (args.get ⟨i, hi⟩ ++ [0]).length ≤ b.used := by
      have hpos : 0 < (args.get ⟨i, hi⟩ ++ [0]).length := by simp
      have hget := bufferOf_get hi (Nat.sub_lt hpos Nat.one_pos)
      obtain ⟨hlt, -⟩ := List.getElem?_eq_some_iff.1 hget
      rw [← hb] at hlt
      change _ ≤ b.argbuf.length
      omega
    rw [length_append, length_singleton] at hstart
    obtain ⟨hlt, hval⟩ := List.getElem?_eq_some_iff.1 (ArgBuf.vector_get hb hi)
    have hw := h.word hfew hsmall hlt (by
      rw [get_eq_getElem, hval]
      omega)
    rw [hw, get_eq_getElem, hval]
    have hbyte := fun j hj => h.byte hb hfew hsmall hi (j := j) hj
    refine ⟨fun j hj => ?_, hnonzero _ (get_mem args ⟨i, hi⟩), ?_, ?_, ?_⟩
    · rw [hbyte j (by rw [length_append]; omega)]
      exact congrArg UInt8.toBitVec (List.getElem_append_left hj)
    · rw [hbyte _ (by rw [length_append, length_singleton]; omega)]
      simp only [get_eq_getElem, List.getElem_append_right le_rfl, Nat.sub_self]
      rfl
    · rw [Nat.add_assoc]
      exact h.has (by omega)
    · unfold argBytes at hsmall
      omega
  · rw [← ofNat_add, Nat.add_assoc]
    exact h.has (by omega)

end Found

/-! ## The new space -/

section Space

variable {word : Instr → BitVec 32} {img : Image} {pm pm' : Pmm} {own held : Nat → Nat} {l1 : Nat}
  {r : Loaded}

theorem freePages_mem (pm : Pmm) (p n : Nat) : (pm.freePages p n).mem = pm.mem := by
  induction n generalizing pm p with
  | zero => rfl
  | succ n ih => exact ih (pm.freePage p) (p + 1)

/-- What a call that succeeds went through. -/
theorem doExecve_ok {u : Caller} {name e : List UInt8} {b : ArgBuf} {s : Started}
    (h : doExecve u (some f) pm path argv = some (pm', .ok s))
    (ha : execArgs u path argv = .ok (name, b)) (hf : f name = some ⟨some e, disk⟩) :
    ∃ from' pmS l1 pm1 r stack pm2 pm3, Kernel.stage pm disk = some (from', pmS) ∧
      pmS.allocPage = some (l1, pm1) ∧ elfLoad e pm1 (Space.empty l1) = some r ∧
      r.answer = .ok s.entry ∧ r.pm.allocPage = some (stack, pm2) ∧
      r.sp.mapUserPage pm2 (vaOf stackBase) stack false = (pm3, s.sp, true) ∧
      s.spEl0 = stackBase + b.spOff ∧
      pm'.mem = Function.update pm3.mem stack (b.lay (pm3.mem stack)) := by
  simp only [doExecve, ha, hf] at h
  cases hs : Kernel.stage pm disk with
  | none => simp [hs] at h
  | some q =>
    obtain ⟨from', pmS⟩ := q
    simp only [hs] at h
    cases hl : pmS.allocPage with
    | none => simp [hl] at h
    | some q =>
      obtain ⟨l1, pm1⟩ := q
      simp only [hl] at h
      cases he : elfLoad e pm1 (Space.empty l1) with
      | none => simp [he] at h
      | some r =>
        obtain ⟨pm, sp, manifest, answer⟩ := r
        cases answer with
        | error err => simp [he] at h
        | ok entry =>
          simp only [he] at h
          cases hk : pm.allocPage with
          | none => simp [hk] at h
          | some q =>
            obtain ⟨stack, pm2⟩ := q
            simp only [hk] at h
            cases hm : sp.mapUserPage pm2 (vaOf stackBase) stack false with
            | mk pm3 q =>
              obtain ⟨sp', ok⟩ := q
              cases ok with
              | false => simp [hm] at h
              | true =>
                simp only [hm, Option.some.injEq, Prod.mk.injEq, Except.ok.injEq] at h
                obtain ⟨rfl, rfl⟩ := h
                refine ⟨from', pmS, l1, pm1, _, stack, pm2, pm3, rfl, hl, he, rfl, hk, hm, rfl, ?_⟩
                rw [freePages_mem]

theorem Segments.unmapped (h : Segments word img pm l1 own held r)
    (hlow : baseVa + img.seg1Size word ≤ userTop) (hdata : dataVa + img.bssBytes ≤ userTop) {a : Nat}
    (htop : a < userTop) (ha : a / 4096 ∉ imagePages word img) : r.sp.walk (vaOf a) = none := by
  obtain ⟨pm1, sp1, mem, hmapped, -, hmapped2⟩ := h.mapped
  have hne : ∀ {vaddr memsz : Nat}, vaddr % 4096 = 0 → vaddr + memsz ≤ userTop →
      a / 4096 ∉ pagesOf vaddr memsz → ∀ p ∈ pagesOf vaddr memsz, vaOf (4096 * p) ≠ vaOf a := by
    intro vaddr memsz hv hle hnot p hp he
    have hpa := vaOf_inj (pagesOf_low hv hle p hp) htop he
    rw [Nat.mul_div_cancel_left p (by decide)] at hpa
    exact hnot (hpa ▸ hp)
  rw [imagePages, List.mem_append, not_or] at ha
  rw [hmapped2.others _ (hne (by decide) hdata ha.2), hmapped.others _ (hne (by decide) hlow ha.1),
    Space.empty_walk]

/-- The stack page, put into a space that has nothing there: the page is what was laid out on it,
and every other address is as it was. -/
theorem stack_mapped {b : ArgBuf} {stack : Nat} {pm2 pm3 : Pmm} {sp' : Space}
    (hl : Ledger r.pm (fun q => own q + r.sp.tables q) (fun q => held q + r.sp.frames q))
    (ha : r.pm.allocPage = some (stack, pm2))
    (hm : r.sp.mapUserPage pm2 (vaOf stackBase) stack false = (pm3, sp', true))
    (hmem : pm'.mem = Function.update pm3.mem stack (b.lay (pm3.mem stack))) :
    (∀ q < 4096, userByte pm' sp' (stackBase + q) = some (b.lay (fun _ => 0) q)) ∧
      ∀ a, a / 4096 ≠ stackBase / 4096 → userByte pm' sp' a = userByte r.pm r.sp a := by
  have hown : Ledger pm2 (fun q => (own q + if stack = q then 1 else 0) + r.sp.tables q)
      (fun q => held q + r.sp.frames q) :=
    (hl.allocPage ha).congr (fun _ => by omega) (fun _ => rfl)
  have hnew : r.sp.frames stack = 0 := by
    have hs := (hl.allocPage ha).single stack
    simp only [if_true] at hs
    omega
  obtain ⟨-, hw, -⟩ := Space.mapUserPageRaw_spec hm hown
  have hwalk := hw rfl
  have hbase : stackBase < userTop := by decide
  have hbase0 : stackBase % 4096 = 0 := by decide
  have htop0 : userTop % 4096 = 0 := by decide
  have hzero : pm3.mem stack = fun _ => 0 := by
    rw [mapUserPageRaw_keeps hm hown (by simp), allocPage_mem ha, Function.update_self]
  constructor
  · intro q hq
    have hdiv : (stackBase + q) / 4096 = stackBase / 4096 := by omega
    have hmod : (stackBase + q) % 4096 = q := by omega
    have hva : vaOf (stackBase + q) = vaOf stackBase := by
      rw [← vaOf_page (stackBase + q), ← vaOf_page stackBase, hdiv]
    unfold userByte
    rw [if_pos (by omega), hva, hwalk, Function.update_self, Option.map_some, hmem,
      Function.update_self, hzero, hmod]
  · intro a hne
    unfold userByte
    split
    · rename_i hlt
      have hva : vaOf a ≠ vaOf stackBase := fun he => hne (vaOf_inj hlt hbase he)
      rw [hwalk, Function.update_of_ne hva]
      cases hd : r.sp.walk (vaOf a) with
      | none => rfl
      | some d =>
        have hpos : 0 < r.sp.frames d.page := Space.frames_pos_iff.2 ⟨_, d, hd, rfl⟩
        have hpage : d.page ≠ stack := by
          rintro he
          rw [he, hnew] at hpos
          exact absurd hpos (Nat.lt_irrefl 0)
        rw [Option.map_some, Option.map_some, hmem, Function.update_of_ne hpage,
          mapUserPageRaw_keeps hm hown (by omega), allocPage_keeps ha hl (by omega)]
    · rfl

end Space

/-! ## Delivery -/

/-- What a program sees of its memory. -/
def memOf (pm : Pmm) (sp : Space) : Mem := fun a => BitVec.ofNat 8 ((userByte pm sp a.toNat).getD 0)

/-- Which addresses it can use. -/
def mappedOf (pm : Pmm) (sp : Space) (a : Word) : Bool := (userByte pm sp a.toNat).isSome

/-- The state in which the kernel lets a new program go. -/
structure Enters (pm : Pmm) (s : Started) (m : Sav.Machine) : Prop where
  pc : indexOf (BitVec.ofNat 64 s.entry) = some m.pc
  sp : m.sp = BitVec.ofNat 64 s.spEl0
  mem : m.mem = memOf pm s.sp

/-- The two methods of `Args`, from one state of the program. -/
structure Answers (c : Compiled) (mapped : Word → Bool) (r : Sav.Reply) (args : List (List UInt8))
    (m : Sav.Machine) : Prop where
  count : ∀ as pre its post, Site c "count" as pre its post → m.pc = (coded pre).length →
    ∃ m', Reaches mapped c.code r m m' ∧ m'.pc = (coded (pre ++ its)).length ∧ m'.mem = m.mem ∧
      m'.x X0 = BitVec.ofNat 64 args.length
  get : ∀ a pre its post, Site c "get" [a] pre its post → m.pc + 1 = (coded (pre ++ its)).length →
    ∃ m', Reaches mapped c.code r m m' ∧ m'.pc = m.pc + 1 ∧ m'.mem = m.mem ∧
      SliceIs m'.mem (m'.x X0) (m'.x X1) (argOf args (m.x X0))

/-- The word and the arguments are as the entry code left them. Anything else a program may have
changed, its globals and the stack below where it started among them. -/
structure Kept (c : Compiled) (m₀ m₁ m : Sav.Machine) : Prop where
  word : ∀ k < 8, m.mem (reserved c.checked.globals + BitVec.ofNat 64 k) =
    m₁.mem (reserved c.checked.globals + BitVec.ofNat 64 k)
  stack : ∀ a, m₀.sp.toNat ≤ a.toNat → a.toNat < stackBase + 4096 → m.mem a = m₁.mem a

/-- The entry code keeps the stack pointer in the word reserved for it, and from then on the methods
answer with the arguments. -/
def Delivered (c : Compiled) (mapped : Word → Bool) (m₀ : Sav.Machine) (args : List (List UInt8)) : Prop :=
  ∀ r, ∃ m₁, userSteps mapped c.code r 4 m₀ = some m₁ ∧
    m₁.mem.load (reserved c.checked.globals) .w64 false = m₀.sp ∧
    ∀ m, Kept c m₀ m₁ m → Answers c mapped r args m

/-- The word lies behind the globals and where an `adrp` of the entry code reaches. -/
def WordInPlace (c : Compiled) : Prop :=
  0 ≤ bssSp c.checked.globals ∧ bssSp c.checked.globals < 2 ^ 32 - 2 ^ 20

/-! ### The word -/

theorem bssSp_mod8 (gs : List Global) : bssSp gs % 8 = 0 := by
  unfold bssSp roundUp8
  omega

theorem bssSize_eq (gs : List Global) : bssSize gs = bssSp gs + 312 := by
  have h := bssSp_mod8 gs
  unfold bssSize bssSave bssNumbuf bssCstr roundUp8
  omega

theorem bssBytes_eq (c : Compiled) (h : -312 ≤ bssSp c.checked.globals)
    (h' : bssSp c.checked.globals < 2 ^ 63) :
    (c.image.bssBytes : Int) = bssSp c.checked.globals + 312 := by
  unfold Image.bssBytes
  change (((bssSize c.checked.globals % 2 ^ 64).toNat : Nat) : Int) = _
  rw [bssSize_eq]
  omega

theorem code_short {c : Compiled} {word : Instr → BitVec 32}
    (h : c.image.seg1Size word ≤ dataVa - baseVa) : c.code.length < 2 ^ 18 := by
  have hle := Image.textOff_add_le word c.image
  have hcode : (c.image.codeBytes word).length = 4 * c.code.length := by
    change (c.code.flatMap fun i => put32 (word i).toNat).length = _
    rw [List.length_flatMap]
    simp [Nat.mul_comm]
  have htext : 4 * c.code.length ≤ (c.image.text word).length := by
    rw [Image.text, length_append, align8, length_append, hcode]
    omega
  unfold Image.textOff textVa baseVa at hle
  unfold dataVa baseVa at h
  omega

theorem reserved_add {gs : List Global} (hn : dataVa + bssSp gs = n)
    (hk : n + k < 2 ^ 64) : (reserved gs + BitVec.ofNat 64 k).toNat = n + k := by
  unfold reserved
  rw [hn, show BitVec.ofInt 64 (n : Int) = BitVec.ofNat 64 n from rfl, ← ofNat_add,
    toNat_ofNat, Nat.mod_eq_of_lt hk]

theorem WordInPlace.inReach {c : Compiled} (h : WordInPlace c) (hk : k < 2 ^ 18) :
    InReach (dataVa + bssSp c.checked.globals) k := by
  obtain ⟨hlo, hhi⟩ := h
  unfold InReach dataVa textVa
  omega

/-! ### What the new program sees -/

/-- The memory of a program that was started: its globals, the page of its stack, and nothing beside
these and its text. -/
structure Sees (c : Compiled) (word : Instr → BitVec 32) (b : ArgBuf) (pm : Pmm) (s : Started) :
    Prop where
  globals : ∀ i < c.image.bssBytes, userByte pm s.sp (dataVa + i) = some 0
  stack : ∀ q < 4096, userByte pm s.sp (stackBase + q) = some (b.lay (fun _ => 0) q)
  rest : ∀ a, a / 4096 ≠ stackBase / 4096 → a / 4096 ∉ imagePages word c.image →
    userByte pm s.sp a = none
  entry : s.entry = textVa
  spEl0 : s.spEl0 = stackBase + b.spOff

section Started

variable {c : Compiled} {word : Instr → BitVec 32} {b : ArgBuf} {pm : Pmm} {s : Started} {m₀ : Sav.Machine}
  {name : List UInt8} {strs : List (List UInt8)}

theorem lay_lt (b : ArgBuf) (q : Nat) : b.lay (fun _ => 0) q < 256 := by
  unfold ArgBuf.lay putBytes
  split
  · exact UInt8.toNat_lt _
  · split
    · exact UInt8.toNat_lt _
    · exact Nat.zero_lt_succ _

theorem Enters.pc_eq (h : Enters pm s m₀) (hs : s.entry = textVa) : m₀.pc = 0 := by
  have hpc := h.pc
  rw [hs] at hpc
  have hzero : indexOf (BitVec.ofNat 64 textVa) = some 0 := by decide
  rw [hzero] at hpc
  exact (Option.some.inj hpc).symm

/-- A state of the program with the stack above its first pointer as it was is one where the page
is what the kernel laid out. -/
theorem Sees.onStack (h : Sees c word b pm s) (he : Enters pm s m₀) (hfew : b.argc ≤ maxArgs)
    (hsmall : b.used ≤ argBytes) {mem : Mem}
    (hmem : ∀ a : Word, m₀.sp.toNat ≤ a.toNat → a.toNat < stackBase + 4096 → mem a = m₀.mem a) :
    OnStack b (fun _ => 0) (mappedOf pm s.sp) mem := by
  have hlay := ArgBuf.layout hfew hsmall
  have hbase : stackBase = 0x7f00100000 := rfl
  have hnat : ∀ q < 4096, (BitVec.ofNat 64 (stackBase + q)).toNat = stackBase + q := by
    intro q hq
    rw [toNat_ofNat, Nat.mod_eq_of_lt (by omega)]
  refine ⟨fun q hq hlt => ?_, fun q hlt => ?_⟩
  · have hsp : m₀.sp.toNat = stackBase + b.spOff := by
      rw [he.sp, h.spEl0, hnat _ (by omega)]
    rw [hmem _ (by rw [hsp, hnat q hlt]; omega) (by rw [hnat q hlt]; omega), he.mem, memOf,
      hnat q hlt, h.stack q hlt, Option.getD_some, toNat_ofNat,
      Nat.mod_eq_of_lt (lay_lt b q)]
  · rw [mappedOf, hnat q hlt, h.stack q hlt]
    rfl

theorem Sees.delivered (h : Sees c word b pm s) (he : Enters pm s m₀) (hc : Copied name strs b)
    (hp : WordInPlace c) (hseg : c.image.seg1Size word ≤ dataVa - baseVa) :
    Delivered c (mappedOf pm s.sp) m₀ (argsOf name strs) := by
  intro r
  obtain ⟨hlo, hhi⟩ := hp
  obtain ⟨n, hn⟩ := Int.eq_ofNat_of_zero_le hlo
  have hcode := code_short hseg
  have hlen : (coded c.items).length < 2 ^ 18 := by
    rw [← resolve_length c.resolved]
    exact hcode
  have hbytes := bssBytes_eq c (by omega) (by omega)
  have hdata : dataVa = 0x500000 := rfl
  have hbase : stackBase = 0x7f00100000 := rfl
  have hword : ∀ k < 8, (reserved c.checked.globals + BitVec.ofNat 64 k).toNat = dataVa + n + k :=
    fun k hk => reserved_add (by omega) (by omega)
  have hstart : startWord c = reserved c.checked.globals := by
    unfold startWord reserved
    rw [formed_of_inReach (WordInPlace.inReach ⟨hlo, hhi⟩ (by decide))]
  have hmap : has (mappedOf pm s.sp) (reserved c.checked.globals) 8 = true := by
    refine has_iff.2 fun k hk => ?_
    rw [mappedOf, hword k hk, Nat.add_assoc, h.globals (n + k) (by omega)]
    rfl
  have hstores : userSteps (mappedOf pm s.sp) c.code r 4 m₀ = _ := start_stores (he.pc_eq h.entry)
  rw [hstart, if_pos hmap] at hstores
  refine ⟨_, hstores, Mem.load_write _ _ _, fun m hk => ?_⟩
  have hargc : b.argc = (argsOf name strs).length := by
    rw [hc.buffer]
    simp [ArgBuf.argc, bufferOf]
  have hfew : b.argc ≤ maxArgs := hargc ▸ hc.few
  have hlay := ArgBuf.layout hfew hc.small
  have hsp : m₀.sp.toNat = stackBase + b.spOff := by
    rw [he.sp, h.spEl0, toNat_ofNat, Nat.mod_eq_of_lt (by omega)]
  have hstack : OnStack b (fun _ => 0) (mappedOf pm s.sp) m.mem := by
    refine h.onStack he hfew hc.small fun a hlow hhigh => ?_
    rw [hk.stack a hlow hhigh]
    refine Mem.write_of_apart fun k hk' heq => ?_
    have hnat := hword k hk'
    rw [← heq] at hnat
    omega
  have hready : Ready (mappedOf pm s.sp) c.checked.globals m₀.sp (argsOf name strs) m.mem := by
    refine ⟨?_, hmap, ?_⟩
    · rw [Mem.load_congr hk.word]
      exact Mem.load_write _ _ _
    · rw [he.sp, h.spEl0]
      exact hstack.argsAt hc.buffer hc.nonzero hfew hc.small
  refine ⟨fun as pre its post hsite hpc => ?_, fun a pre its post hsite hpc => ?_⟩
  · refine hsite.count_returns hready hpc (WordInPlace.inReach ⟨hlo, hhi⟩ ?_)
    rw [hsite.split, coded_append, length_append] at hlen
    omega
  · have hle : (coded (pre ++ its)).length ≤ (coded c.items).length := by
      rw [hsite.split, ← List.append_assoc, coded_append (pre ++ its), length_append]
      exact Nat.le_add_right _ _
    refine hsite.get_returns (displacementsFit_of_small hlen) hready hpc (fun t ht => ?_) ?_
    · refine WordInPlace.inReach ⟨hlo, hhi⟩ ?_
      obtain ⟨q, q', hq, rfl, -⟩ := labelPos_split ht
      rw [hq, coded_append, length_append] at hlen
      omega
    · unfold textVa
      omega

variable (c word) in
/-- The page before the globals is free, these end below the stack, and their sizes add up to what
an `i64` holds. -/
structure LeavesRoom : Prop where
  text : c.image.seg1Size word ≤ 0xff000
  bss : dataVa + c.image.bssBytes ≤ stackBase
  low : -2 ^ 63 ≤ bssSp c.checked.globals
  high : bssSp c.checked.globals < 2 ^ 63

theorem Sees.not_before (h : Sees c word b pm s) (hroom : LeavesRoom c word)
    (hneg : bssSp c.checked.globals < 0) : has (mappedOf pm s.sp) (startWord c) 8 = false := by
  obtain ⟨htext, hbss, hlow, hhigh⟩ := hroom
  have hdata : dataVa = 0x500000 := rfl
  have hbaseVa : baseVa = 0x400000 := rfl
  have hbase : stackBase = 0x7f00100000 := rfl
  have htextVa : textVa = 0x400100 := rfl
  have hmod := bssSp_mod8 c.checked.globals
  -- the size of the segment is then no more than the compiler's own words
  have hge : -312 ≤ bssSp c.checked.globals := by
    have hbytes : (c.image.bssBytes : Int) = bssSize c.checked.globals % 2 ^ 64 := by
      have hnonneg := Int.emod_nonneg (bssSize c.checked.globals) (show (2 ^ 64 : Int) ≠ 0 by decide)
      unfold Image.bssBytes
      exact Int.toNat_of_nonneg hnonneg
    rw [bssSize_eq] at hbytes
    omega
  obtain ⟨n, hn⟩ := Int.eq_ofNat_of_zero_le (show 0 ≤ dataVa + bssSp c.checked.globals by omega)
  have hreach : InReach (dataVa + bssSp c.checked.globals) 1 := by
    unfold InReach
    omega
  have hword : (startWord c).toNat = n := by
    unfold startWord
    rw [formed_of_inReach hreach, hn, show BitVec.ofInt 64 (n : Int) = BitVec.ofNat 64 n from rfl,
      toNat_ofNat, Nat.mod_eq_of_lt (by omega)]
  have hnone : mappedOf pm s.sp (startWord c) = false := by
    unfold mappedOf
    rw [hword, h.rest n (by omega)]
    · rfl
    · intro hmem
      rw [imagePages, List.mem_append, mem_pagesOf (by decide), mem_pagesOf (by decide)] at hmem
      rcases hmem with ⟨a, hle, hlt, he⟩ | ⟨a, hle, hlt, he⟩
      · omega
      · omega
  refine Bool.eq_false_iff.2 fun hhas => ?_
  have h0 := has_iff.1 hhas 0 (by decide)
  rw [add_zero, hnone] at h0
  cases h0

theorem Sees.not_beyond (h : Sees c word b pm s) (he : Enters pm s m₀) (hroom : LeavesRoom c word)
    (hbeyond : 2 ^ 32 - 2 ^ 20 ≤ bssSp c.checked.globals) (v : Word) :
    (m₀.mem.write (startWord c) 8 v).load (reserved c.checked.globals) .w64 false = 0 := by
  obtain ⟨htext, hbss, hlow, hhigh⟩ := hroom
  have hdata : dataVa = 0x500000 := rfl
  have hbase : stackBase = 0x7f00100000 := rfl
  have htextVa : textVa = 0x400100 := rfl
  have hbytes := bssBytes_eq c (by omega) hhigh
  obtain ⟨n, hn⟩ := Int.eq_ofNat_of_zero_le (show 0 ≤ bssSp c.checked.globals by omega)
  have hword : ∀ k < 8, (reserved c.checked.globals + BitVec.ofNat 64 k).toNat = dataVa + n + k :=
    fun k hk => reserved_add (by omega) (by omega)
  have hzero := Mem.load_digits (m := m₀.mem.write (startWord c) 8 v)
    (a := reserved c.checked.globals) (n := 0) (by decide) (fun k hk => by
      rw [Mem.write_of_apart]
      · rw [he.mem, memOf, hword k hk, Nat.add_assoc, h.globals (n + k) (by omega)]
        simp
      · -- the two addresses are apart by a multiple of the eight gibibytes an `adrp` covers
        intro j hj heq
        have hnat := congrArg BitVec.toNat heq
        rw [hword k hk, BitVec.toNat_add, toNat_ofNat, startWord, BitVec.toNat_ofInt] at hnat
        unfold formed at hnat
        rw [Int.bmod_def] at hnat
        split at hnat <;> omega)
  exact hzero

theorem Sees.inPlace (h : Sees c word b pm s) (he : Enters pm s m₀) (hroom : LeavesRoom c word)
    {args : List (List UInt8)} (hd : Delivered c (mappedOf pm s.sp) m₀ args) : WordInPlace c := by
  obtain ⟨m1, hsteps, hsaved, -⟩ := hd ⟨0, m₀.mem⟩
  rw [start_stores (he.pc_eq h.entry)] at hsteps
  by_contra hnot
  rcases Int.lt_or_le (bssSp c.checked.globals) 0 with hneg | hpos
  · rw [h.not_before hroom hneg] at hsteps
    cases hsteps
  · have hbeyond : 2 ^ 32 - 2 ^ 20 ≤ bssSp c.checked.globals := by
      by_contra hlt
      exact hnot ⟨hpos, by omega⟩
    split at hsteps
    · cases hsteps
      rw [h.not_beyond he hroom hbeyond] at hsaved
      have hsp : m₀.sp ≠ 0 := by
        have hle : b.spOff ≤ 4096 := by
          unfold ArgBuf.spOff ArgBuf.strOff
          omega
        have hbase : stackBase = 0x7f00100000 := rfl
        intro hz
        have hnat := congrArg BitVec.toNat hz
        rw [he.sp, h.spEl0, toNat_ofNat, Nat.mod_eq_of_lt (by omega)] at hnat
        change _ = 0 at hnat
        omega
      exact hsp hsaved.symm
    · cases hsteps

end Started

/-- A program that was started sees its globals and its stack. -/
theorem sees_of_exec {c : Compiled} {word : Instr → BitVec 32} {own held : Nat → Nat} {u : Caller}
    {pm pm' : Pmm} {name : List UInt8} {b : ArgBuf} {s : Started} (hl : Ledger pm own held)
    (hx : doExecve u (some f) pm path argv = some (pm', .ok s))
    (ha : execArgs u path argv = .ok (name, b))
    (hfile : f name = some ⟨some (c.image.writeElf word), disk⟩)
    (hseg : c.image.seg1Size word ≤ dataVa - baseVa) (hbss : dataVa + c.image.bssBytes ≤ stackBase) :
    Sees c word b pm' s := by
  obtain ⟨from', pmS, l1, pm1, r, stack, pm2, pm3, hstage, hl1, hr, hans, hstk, hm, hsp, hmem⟩ :=
    doExecve_ok hx ha hfile
  have hbase : stackBase < userTop := by decide
  have hpage : stackBase % 4096 = 0 := by decide
  have hva : dataVa % 4096 = 0 := by decide
  have hdata : dataVa = 0x500000 := rfl
  have hbaseVa : baseVa = 0x400000 := rfl
  obtain ⟨hl', hp⟩ := Kernel.empty_ledger (Kernel.stage_spec hl hstage) hl1
  have hfits : Fits word c.image pm1 :=
    fits_of_loaded (by omega) hr hans (.inr hseg) (by omega)
  obtain ⟨r', hr', hsegs⟩ := segments_of_fits hl' hp hfits
  obtain ⟨r'', hr'', harr⟩ := arrived_of_fits hl' hp hfits
  rw [hr] at hr' hr''
  cases hr'
  cases hr''
  obtain ⟨hstack, hothers⟩ := stack_mapped hsegs.ledger hstk hm hmem
  have hentry : s.entry = textVa := by
    have heq := harr.entry
    rw [hans] at heq
    exact Except.ok.inj heq
  refine ⟨fun i hi => ?_, hstack, fun a hne hnot => ?_, hentry, hsp⟩
  · rw [hothers _ (by omega)]
    exact harr.bss i hi
  · rw [hothers a hne]
    unfold userByte
    split
    · rename_i htop
      rw [hsegs.unmapped hfits.textLow hfits.dataLow htop hnot]
      rfl
    · rfl

/-- The strings `do_execve` accepts reach a program savc compiled as `Args.count` and `Args.get`
exactly when the word for its stack pointer is in place: that is enough whenever the first segment
ends before the globals, and where there is room around them it is needed too. -/
theorem arguments_delivered (c : Compiled) (word : Instr → BitVec 32) (start top : Nat)
    (mem : Nat → Nat → Nat) (ops : List Kernel.Op) (u : Caller) (f : List UInt8 → Option Found)
    (path argv disk : Nat) {name : List UInt8} {strs : List (List UInt8)} {pm : Pmm} {s : Started}
    {m₀ : Sav.Machine} (hcall : u.Hands path argv name strs)
    (hfile : f name = some ⟨some (c.image.writeElf word), disk⟩)
    (hx : doExecve u (some f) ((Kernel.boot start top mem).run ops).pm path argv = some (pm, .ok s))
    (he : Enters pm s m₀) (hseg : c.image.seg1Size word ≤ dataVa - baseVa) :
    (WordInPlace c → Delivered c (mappedOf pm s.sp) m₀ (argsOf name strs)) ∧
      (LeavesRoom c word → Delivered c (mappedOf pm s.sp) m₀ (argsOf name strs) → WordInPlace c) := by
  have hinv := Kernel.inv_run (Kernel.inv_boot start top mem) ops
  cases ha : execArgs u path argv with
  | error e => simp [doExecve, ha] at hx
  | ok q =>
    obtain ⟨name', b⟩ := q
    obtain ⟨rfl, -, hcopied⟩ := execArgs_spec ha hcall
    constructor
    · intro hp
      obtain ⟨hlo, hhi⟩ := hp
      have hbytes := bssBytes_eq c (by omega) (by omega)
      have hdata : dataVa = 0x500000 := rfl
      have hbase : stackBase = 0x7f00100000 := rfl
      have hsees := sees_of_exec hinv.ledger hx ha hfile hseg (by omega)
      exact hsees.delivered he hcopied ⟨hlo, hhi⟩ hseg
    · intro hroom hd
      have hsees := sees_of_exec hinv.ledger hx ha hfile hseg hroom.bss
      exact hsees.inPlace he hroom hd

/-- `entry fn main(args: Args) -> i64 { return args!count(); }`, with globals. -/
def countArgs (globals : List Global) : SavUnit :=
  ⟨[⟨"main", ⟨1, 7⟩, "a.sav", [("args", .cap .args)], .i64, none, [], [], .block [
    .ret ⟨1, 36⟩ (some (.method ⟨1, 43⟩ (.var ⟨1, 43⟩ "args") "count" []))], true⟩], globals⟩

/-- A caller with one page: the path `a`, and at `0x1008` a vector of `b` and the empty string. -/
def twoStrings : Caller where
  mapped p := p == 1
  byte a := [97, 0, 98, 0, 0, 0, 0, 0, 0x02, 0x10, 0, 0, 0, 0, 0, 0, 0x04, 0x10].getD (a - 0x1000) 0

theorem twoStrings_hands : twoStrings.Hands 0x1000 0x1008 [97] [[98], []] where
  path := .of_bytes (by decide +kernel) (by decide)
  null h := by cases h
  each _ i hi := by
    have h0 : twoStrings.pointer (slotOf 0x1008 0) = 0x1002 := by decide +kernel
    have h1 : twoStrings.pointer (slotOf 0x1008 1) = 0x1004 := by decide +kernel
    have hlt : i < 2 := hi
    interval_cases i
    · rw [h0]
      exact ⟨by decide,
        show twoStrings.CString 0x1002 [98] from .of_bytes (by decide +kernel) (by decide)⟩
    · rw [h1]
      exact ⟨by decide,
        show twoStrings.CString 0x1004 [] from .of_bytes (by decide +kernel) (by decide)⟩
  last _ := by decide +kernel

/-- The only file there is. -/
def onlyFile (c : Compiled) : List UInt8 → Option Found := fun _ =>
  some ⟨some (c.image.writeElf nops), 0⟩

/-- Whether a small machine starts the program. -/
def starts (c : Compiled) : Bool :=
  match doExecve twoStrings (some (onlyFile c)) (Kernel.boot 0 64 (fun _ _ => 0)).pm 0x1000 0x1008 with
  | some (_, .ok s) => s.entry == textVa
  | _ => false

theorem exists_started {c : Compiled} (h : starts c = true) : ∃ pm s m₀,
    doExecve twoStrings (some (onlyFile c)) (Kernel.boot 0 64 (fun _ _ => 0)).pm 0x1000 0x1008 =
      some (pm, .ok s) ∧ Enters pm s m₀ := by
  unfold starts at h
  split at h
  · rename_i pm s hx
    refine ⟨pm, s, ⟨fun _ => 0, BitVec.ofNat 64 s.spEl0, false, false, false, false, memOf pm s.sp, 0⟩,
      hx, ?_, rfl, rfl⟩
    rw [beq_iff_eq.1 h]
    exact show indexOf (BitVec.ofNat 64 textVa) = some 0 by decide
  · cases h

/-- A program that counts its arguments gets both of them. -/
theorem arguments_delivered_two : ∃ c : Compiled, c.unit = countArgs [] ∧ ∃ pm s m₀,
    doExecve twoStrings (some (onlyFile c)) (Kernel.boot 0 64 (fun _ _ => 0)).pm 0x1000 0x1008 =
      some (pm, .ok s) ∧ Enters pm s m₀ ∧ Delivered c (mappedOf pm s.sp) m₀ [[98], []] := by
  have hc : (compile "a.sav" (countArgs []) true).any (fun c => starts c &&
      decide (c.image.seg1Size nops ≤ dataVa - baseVa) &&
      decide (0 ≤ bssSp c.checked.globals ∧ bssSp c.checked.globals < 2 ^ 32 - 2 ^ 20)) = true := by
    decide +kernel
  obtain ⟨c, hcomp, hc⟩ := (Option.any_eq_true _ _).1 hc
  simp only [Bool.and_eq_true, decide_eq_true_eq] at hc
  obtain ⟨⟨hstarts, hseg⟩, hword⟩ := hc
  obtain ⟨pm, s, m₀, hx, he⟩ := exists_started hstarts
  exact ⟨c, compile_unit hcomp, pm, s, m₀, hx, he,
    (arguments_delivered c nops 0 64 (fun _ _ => 0) [] twoStrings (onlyFile c) 0x1000 0x1008 0
      twoStrings_hands rfl hx he hseg).1 hword⟩

/-- `var a: [4294967000]u8;` has a size of -296, and the word for the stack pointer is in front of the
globals, where there is no page: the entry code of the program faults, whatever its arguments. -/
theorem overflown_global_faults : ∃ c : Compiled,
    c.unit = countArgs [⟨"a", .array .u8 4294967000, ⟨1, 1⟩, none⟩] ∧ ∃ pm s m₀,
    doExecve twoStrings (some (onlyFile c)) (Kernel.boot 0 64 (fun _ _ => 0)).pm 0x1000 0x1008 =
      some (pm, .ok s) ∧ Enters pm s m₀ ∧ (∀ r, userSteps (mappedOf pm s.sp) c.code r 4 m₀ = none) ∧
      ¬Delivered c (mappedOf pm s.sp) m₀ [[98], []] := by
  have hc : (compile "a.sav" (countArgs [⟨"a", .array .u8 4294967000, ⟨1, 1⟩, none⟩]) true).any
      (fun c => starts c && decide (c.image.seg1Size nops ≤ 0xff000) &&
        decide (dataVa + c.image.bssBytes ≤ stackBase) &&
        decide (bssSp c.checked.globals = -296)) = true := by
    decide +kernel
  obtain ⟨c, hcomp, hc⟩ := (Option.any_eq_true _ _).1 hc
  simp only [Bool.and_eq_true, decide_eq_true_eq] at hc
  obtain ⟨⟨⟨hstarts, hseg⟩, hbss⟩, hword⟩ := hc
  obtain ⟨pm, s, m₀, hx, he⟩ := exists_started hstarts
  have hva : (0xff000 : Nat) ≤ dataVa - baseVa := by decide
  have hinv := Kernel.inv_boot 0 64 (fun _ _ => 0)
  cases ha : execArgs twoStrings 0x1000 0x1008 with
  | error e => simp [doExecve, ha] at hx
  | ok q =>
    obtain ⟨name, b⟩ := q
    have hsees : Sees c nops b pm s :=
      sees_of_exec hinv.ledger hx ha rfl (hseg.trans hva) hbss
    have hfault : ∀ r, userSteps (mappedOf pm s.sp) c.code r 4 m₀ = none := by
      intro r
      rw [start_stores (he.pc_eq hsees.entry),
        hsees.not_before ⟨hseg, hbss, by omega, by omega⟩ (by omega)]
      rfl
    refine ⟨c, compile_unit hcomp, pm, s, m₀, hx, he, hfault, fun hd => ?_⟩
    obtain ⟨m1, hsteps, -⟩ := hd ⟨0, m₀.mem⟩
    rw [hfault] at hsteps
    cases hsteps

end Verkos.Stam
