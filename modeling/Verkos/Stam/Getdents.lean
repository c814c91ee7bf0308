import Verkos.Stam.File
import Verkos.Stam.Catalog
import Verkos.Stam.FatWalk

/-!
# Reading a directory in pieces

`file_getdents` asks `fat_dirent` for one name after the other, by number, and puts each into the
buffer as a record while there is room. The position of the open directory is the number of the next
name, so calls go on from each other. A sector that cannot be read ends the directory for
`fat_dirent`, and `file_getdents` then returns zero, as it does behind the last name.
-/

namespace Verkos.Stam.Fat

open Verkos.Lib
open List (append_assoc flatten_cons flatten_nil length_append length_cons length_map length_range
  map_cons mem_cons)

/-! ## The call -/

/-- `(19 + n + 1 + 7) & ~7ull`. -/
def recLen (n : Nat) : Nat := (19 + n + 1 + 7) / 8 * 8

/-- The record of a name: no inode number, the number of the next name, the length of the record, the
type, the name and its end, and zeros to the end of the record. -/
def direntRecord (pos : Nat) (x : Listed) : List UInt8 :=
  let name := cstr x.name
  let len := recLen name.length
  List.replicate 8 0 ++ (List.range 8).map (fun i => UInt8.ofNat ((pos + 1) / 256 ^ i)) ++
    [UInt8.ofNat len, UInt8.ofNat (len / 256), if x.isDir then 4 else 8] ++ name ++
    List.replicate (len - (19 + name.length)) 0

section Call

variable (g : Geo) (fuel : Nat) (junk : Nat → Nat → UInt8) (dir : Handle) (len : Nat)

/-- The loop of `file_getdents`, of at most `n` rounds: what is returned, the position and the
buffer. Each round has a stack of its own. -/
def getdentsLoop : Nat → Nat → (Nat → UInt8) → Nat → Io (Int × Nat × (Nat → UInt8))
  | 0, _, _, _ => .stuck
  | n + 1, pos, buf, used => do
    match ← fatDirent g fuel (junk n) dir (pos % 2 ^ 32) with
    | none => pure (used, pos, buf)
    | some x =>
      let size := recLen (cstr x.name).length
      if len < used + size then
        if used = 0 then pure (-22, pos, buf) else pure (used, pos, buf)
      else getdentsLoop n (pos + 1) (put buf used (direntRecord pos x)) (used + size)

/-- `file_getdents`. -/
def fileGetdents (kind : Kind) (pos : Nat) (buf : Nat → UInt8) : Io (Int × Nat × (Nat → UInt8)) :=
  if kind ≠ .fatDir then .done (-20, pos, buf)
  else getdentsLoop g fuel junk dir len (len / 8 + 1) pos buf 0

end Call

/-! ## What a directory lists -/

/-- The names of a directory, with what is put together before each. -/
def listing : List Slot → Lfn → List Listed
  | [], _ => []
  | x :: xs, l =>
    match classify x.entry with
    | .fin => []
    | .deleted => listing xs l.forget
    | .long => listing xs (l.part x.entry)
    | .label => listing xs l.forget
    | .live => listed l x.entry :: listing xs l.forget

section Listing

variable {g : Geo} {v : Volume} {cs : List Nat} {fuel : Nat} {junk : Nat → UInt8} {dir : Handle}

theorem found_direntBody (i : Nat) : ∀ (xs : List Slot) (n : Nat) (l : Lfn), n ≤ i →
    found (walkSlots (direntBody i) xs (n, l)).walk = (listing xs l)[i - n]?
  | [], _, _, _ => rfl
  | x :: xs, n, l, h => by
    have hentry : entryAt x.2 x.1.off = x.entry := rfl
    rw [walkSlots, listing, direntBody, hentry]
    cases classify x.entry with
    | fin => rfl
    | deleted | long | label => exact found_direntBody i xs n _ h
    | live =>
      dsimp only
      by_cases hn : n = i
      · subst hn
        rw [if_pos rfl, Nat.sub_self]
        rfl
      · rw [if_neg hn, show i - n = i - (n + 1) + 1 by omega, List.getElem?_cons_succ]
        exact found_direntBody i xs (n + 1) _ (by omega)

theorem Chain.run_fatDirent (h : Chain g v cs) (hf : cs.length < fuel) (hdir : dir.isDir = true)
    (hstart : dirStart g dir = cs.getD 0 0) (i : Nat) :
    (fatDirent g fuel junk dir i).run v = some ((listing (slots g v cs) ⟨junk, 0⟩)[i]?, v) := by
  unfold fatDirent
  rw [if_neg (by rw [hdir]; exact Bool.noConfusion), hstart,
    Blocks.run_bind_of (h.run_dirWalk hf _), ← Nat.sub_zero i,
    ← found_direntBody i _ 0 ⟨junk, 0⟩ (Nat.zero_le i), Nat.sub_zero]
  cases walkSlots (direntBody i) (slots g v cs) (0, ⟨junk, 0⟩) with
  | next st | stop a => rfl

theorem listing_live (xs : List Slot) (l : Lfn) : (listing xs l).map (fun y => (y.size, y.isDir)) =
      (liveSlots xs).map fun x => (rd32 x.entry 28, (x.entry 11).toNat / 16 % 2 == 1) := by
  induction xs generalizing l with
  | nil => rfl
  | cons x xs ih =>
    rw [listing, liveSlots]
    cases classify x.entry with
    | fin => rfl
    | deleted | long | label => exact ih _
    | live =>
      rw [map_cons, map_cons, ih]
      rfl

theorem length_cstr_le (l : List UInt8) : (cstr l).length ≤ l.length :=
  (List.takeWhile_prefix _).length_le

theorem length_name_listed (l : Lfn) (e : Sector) : (cstr (listed l e).name).length ≤ 260 := by
  have hname : l.name.length ≤ 260 := by
    refine (length_cstr_le _).trans ?_
    rw [length_map, length_range]
    omega
  have hunpad : ∀ m : List UInt8, (unpad m).length ≤ m.length := fun m =>
    (List.takeWhile_prefix _).length_le
  have hshort : (shortName e).length ≤ 260 := by
    have h8 := hunpad ((List.range 8).map e)
    have h3 := hunpad ((List.range 3).map fun i => e (8 + i))
    rw [length_map, length_range] at h8 h3
    unfold shortName
    rw [length_append]
    split
    · rw [List.length_nil]
      omega
    · rw [length_cons]
      omega
  refine (length_cstr_le _).trans ?_
  unfold listed
  dsimp only
  split
  · exact hshort
  · exact hname

theorem length_name_of_mem {xs : List Slot} {y : Listed} : ∀ {l : Lfn}, y ∈ listing xs l →
    (cstr y.name).length ≤ 260 := by
  induction xs with
  | nil => exact fun h => absurd h List.not_mem_nil
  | cons x xs ih =>
    intro l h
    rw [listing] at h
    cases hc : classify x.entry with
    | fin =>
      rw [hc] at h
      exact absurd h List.not_mem_nil
    | deleted | long | label =>
      rw [hc] at h
      exact ih h
    | live =>
      rw [hc] at h
      rcases mem_cons.1 h with rfl | h
      · exact length_name_listed _ _
      · exact ih h

end Listing

/-! ## Records -/

section Records

variable {pos : Nat} {x : Listed}

theorem le_recLen (n : Nat) : 19 + n < recLen n ∧ 24 ≤ recLen n := by
  unfold recLen
  omega

theorem length_direntRecord (pos : Nat) (x : Listed) :
    (direntRecord pos x).length = recLen (cstr x.name).length := by
  have hle := (le_recLen (cstr x.name).length).1
  unfold direntRecord
  simp only [length_append, List.length_replicate, length_map, length_range,
    length_cons, List.length_nil]
  omega

/-- The record of the live entry with a number: its length, the number behind it, its type, and the
name that `fat_dirent` reports for it. -/
structure IsRecord (g : Geo) (fuel : Nat) (v : Volume) (dir : Handle) (i : Nat) (x : Slot)
    (r : List UInt8) : Prop where
  aligned : r.length % 8 = 0
  next : i + 1 < 2 ^ 64 ∧ ∀ k < 8, r.getD (8 + k) 0 = UInt8.ofNat ((i + 1) / 256 ^ k)
  reclen : (r.getD 16 0).toNat + 256 * (r.getD 17 0).toNat = r.length
  type : r.getD 18 0 = if (x.entry 11).toNat / 16 % 2 = 1 then 4 else 8
  name : ∃ junk y, (fatDirent g fuel junk dir i).run v = some (some y, v) ∧
    (r.drop 19).take ((cstr y.name).length + 1) = cstr y.name ++ [0]

theorem direntRecord_next (pos : Nat) (x : Listed) {k : Nat} (hk : k < 8) :
    (direntRecord pos x).getD (8 + k) 0 = UInt8.ofNat ((pos + 1) / 256 ^ k) := by
  unfold direntRecord
  simp only [append_assoc]
  rw [List.getD_append_right _ _ _ _ (by simp), List.getD_append _ _ _ _ (by simp; omega),
    List.length_replicate, Nat.add_sub_cancel_left, List.getD_eq_getElem _ _ (by simpa using hk)]
  simp

theorem direntRecord_header (pos : Nat) (x : Listed) {k : Nat} (hk : k < 3) :
    (direntRecord pos x).getD (16 + k) 0 = [UInt8.ofNat (recLen (cstr x.name).length),
      UInt8.ofNat (recLen (cstr x.name).length / 256), if x.isDir then 4 else 8].getD k 0 := by
  unfold direntRecord
  simp only [append_assoc]
  rw [List.getD_append_right _ _ _ _ (by simp; omega),
    List.getD_append_right _ _ _ _ (by simp; omega), List.getD_append _ _ _ _ (by simp; omega)]
  congr 1
  simp
  omega

theorem direntRecord_name (pos : Nat) (x : Listed) :
    ((direntRecord pos x).drop 19).take ((cstr x.name).length + 1) = cstr x.name ++ [0] := by
  have hle := (le_recLen (cstr x.name).length).1
  obtain ⟨n, hn⟩ : ∃ n, recLen (cstr x.name).length - (19 + (cstr x.name).length) = n + 1 :=
    ⟨_, (Nat.sub_add_cancel (by omega)).symm⟩
  have hbehind : ∀ head name : List UInt8, head.length = 19 →
      ((head ++ name ++ List.replicate (n + 1) 0).drop 19).take (name.length + 1) =
        name ++ [0] := by
    intro head name hlen
    rw [append_assoc, ← hlen, List.drop_left, List.take_length_add_append,
      List.replicate_succ, List.take_succ_cons, List.take_zero]
  unfold direntRecord
  dsimp only
  rw [hn]
  exact hbehind _ _ (by simp)

end Records

/-! ## Calls that follow each other -/

section Calls

variable {g : Geo} {v : Volume} {cs : List Nat} {fuel len : Nat} {junk : Nat → Nat → UInt8}
  {dir : Handle}

/-- The record of a name that is listed. -/
theorem Chain.isRecord (h : Chain g v cs) (hf : cs.length < fuel) (hdir : dir.isDir = true)
    (hstart : dirStart g dir = cs.getD 0 0) {i : Nat} {q : Nat → UInt8} {x : Slot} {y : Listed}
    (hi : i + 1 < 2 ^ 64) (hy : (listing (slots g v cs) ⟨q, 0⟩)[i]? = some y)
    (hx : (liveSlots (slots g v cs))[i]? = some x) :
    IsRecord g fuel v dir i x (direntRecord i y) := by
  have hlen := length_name_of_mem (List.mem_of_getElem? hy)
  have hsmall : recLen (cstr y.name).length < 65536 := by
    unfold recLen
    omega
  have hlive := congrArg (fun l => l[i]?) (listing_live (slots g v cs) ⟨q, 0⟩)
  rw [List.getElem?_map, List.getElem?_map, hy, hx, Option.map_some, Option.map_some,
    Option.some.injEq, Prod.mk.injEq] at hlive
  refine ⟨?_, ⟨hi, fun k hk => direntRecord_next i y hk⟩, ?_, ?_, q, y, ?_,
    direntRecord_name i y⟩
  · rw [length_direntRecord]
    unfold recLen
    omega
  · have h0 := direntRecord_header i y (show 0 < 3 by omega)
    have h1 := direntRecord_header i y (show 1 < 3 by omega)
    rw [Nat.add_zero, List.getD_cons_zero] at h0
    rw [List.getD_cons_succ, List.getD_cons_zero] at h1
    rw [h0, h1, length_direntRecord, toNat_ofNat_byte, toNat_ofNat_byte]
    omega
  · have h2 := direntRecord_header i y (show 2 < 3 by omega)
    rw [List.getD_cons_succ, List.getD_cons_succ, List.getD_cons_zero, hlive.2] at h2
    simpa using h2
  · rw [h.run_fatDirent hf hdir hstart, hy]

/-- The records a call puts into the buffer, one for each name from its position on. -/
theorem Chain.run_getdentsLoop (h : Chain g v cs) (hf : cs.length < fuel)
    (hdir : dir.isDir = true) (hstart : dirStart g dir = cs.getD 0 0) :
    ∀ (n pos used : Nat) (buf : Nat → UInt8), used ≤ len → len < used + 8 * n →
      ∃ (recs : List (List UInt8)) (ret : Int),
        (getdentsLoop g fuel junk dir len n pos buf used).run v =
          some ((ret, pos + recs.length, put buf used recs.flatten), v) ∧
        used + recs.flatten.length ≤ len ∧
        (∀ j r, recs[j]? = some r → ∃ q y, (listing (slots g v cs) ⟨q, 0⟩)[(pos + j) % 2 ^ 32]? =
          some y ∧ r = direntRecord (pos + j) y) ∧
        (ret = -22 ∧ used = 0 ∧ recs = [] ∨ ret = (used + recs.flatten.length : Nat) ∧ (0 < ret ∨
          ∃ q, (listing (slots g v cs) ⟨q, 0⟩)[(pos + recs.length) % 2 ^ 32]? = none))
  | 0, _, _, _, _, _ => by omega
  | n + 1, pos, used, buf, hu, hn => by
    rw [getdentsLoop, Blocks.run_bind_of (h.run_fatDirent hf hdir hstart _)]
    cases hy : (listing (slots g v cs) ⟨junk n, 0⟩)[pos % 2 ^ 32]? with
    | none =>
      refine ⟨[], used, ?_, by simpa using hu, nofun, .inr ⟨rfl, .inr ⟨junk n, hy⟩⟩⟩
      rw [flatten_nil, put_nil]
      rfl
    | some y =>
      dsimp only
      have hsize := le_recLen (cstr y.name).length
      split
      · rename_i hfull
        split
        · rename_i hz
          refine ⟨[], -22, ?_, by simpa using hu, nofun, .inl ⟨rfl, hz, rfl⟩⟩
          rw [flatten_nil, put_nil]
          rfl
        · rename_i hpos
          refine ⟨[], used, ?_, by simpa using hu, nofun, .inr ⟨rfl, .inl (by omega)⟩⟩
          rw [flatten_nil, put_nil]
          rfl
      · rename_i hfits
        obtain ⟨recs, ret, hrun, hlen, hrecs, hret⟩ :=
          h.run_getdentsLoop hf hdir hstart n (pos + 1) (used + recLen (cstr y.name).length)
            (put buf used (direntRecord pos y)) (by omega) (by omega)
        refine ⟨direntRecord pos y :: recs, ret, ?_, ?_, ?_, ?_⟩
        · rw [hrun, ← length_direntRecord pos, put_put, flatten_cons, length_cons,
            Nat.add_right_comm, Nat.add_assoc pos]
        · rw [flatten_cons, length_append, length_direntRecord]
          omega
        · intro j r hr
          cases j with
          | zero => exact ⟨junk n, y, hy, (Option.some.inj hr).symm⟩
          | succ j =>
            obtain ⟨q, y', hy', rfl⟩ := hrecs j r hr
            rw [show pos + (j + 1) = pos + 1 + j by omega]
            exact ⟨q, y', hy', rfl⟩
        · rcases hret with ⟨-, hz, -⟩ | ⟨hret, hend⟩
          · omega
          · refine .inr ⟨?_, ?_⟩
            · rw [hret, flatten_cons, length_append, length_direntRecord, Nat.add_assoc]
            · rwa [length_cons, Nat.add_comm recs.length, ← Nat.add_assoc]

/-- A call: how long its buffer is and what that held, the stacks of its rounds, and which transfers
go through. -/
structure Call where
  len : Nat
  buf : Nat → UInt8
  junk : Nat → Nat → UInt8
  ok : Nat → Bool

def Call.run (c : Call) (g : Geo) (fuel : Nat) (v : Volume) (dir : Handle) (pos : Nat) :
    Option ((Int × Nat × (Nat → UInt8)) × Volume) :=
  (fileGetdents g fuel c.junk dir c.len .fatDir pos c.buf).exec c.ok 0 v

/-- Calls with buffers large enough for the next record, each going on where the one before it
stopped, until one returns zero; what each put into its buffer. -/
inductive Lists (g : Geo) (fuel : Nat) (v : Volume) (dir : Handle) :
    Nat → List Call → List (List UInt8) → Prop where
  | last {c : Call} {pos pos' : Nat} {buf' : Nat → UInt8} :
      c.run g fuel v dir pos = some ((0, pos', buf'), v) → Lists g fuel v dir pos [c] []
  | more {c : Call} {cs : List Call} {pos pos' n : Nat} {buf' : Nat → UInt8}
      {outs : List (List UInt8)} : c.run g fuel v dir pos = some (((n : Int), pos', buf'), v) →
      0 < n → Lists g fuel v dir pos' cs outs →
      Lists g fuel v dir pos (c :: cs) ((List.range n).map buf' :: outs)

/-- What one call does when every sector can be read. -/
theorem Chain.run_call (h : Chain g v cs) (hf : cs.length < fuel) (hdir : dir.isDir = true)
    (hstart : dirStart g dir = cs.getD 0 0) {c : Call} (hok : ∀ n, c.ok n = true) (pos : Nat) :
    ∃ (recs : List (List UInt8)) (ret : Int),
      c.run g fuel v dir pos = some ((ret, pos + recs.length, put c.buf 0 recs.flatten), v) ∧
      recs.flatten.length ≤ c.len ∧
      (∀ j r, recs[j]? = some r → ∃ q y, (listing (slots g v cs) ⟨q, 0⟩)[(pos + j) % 2 ^ 32]? =
        some y ∧ r = direntRecord (pos + j) y) ∧
      (ret = -22 ∧ recs = [] ∨ ret = (recs.flatten.length : Nat) ∧ (0 < ret ∨
        ∃ q, (listing (slots g v cs) ⟨q, 0⟩)[(pos + recs.length) % 2 ^ 32]? = none)) := by
  obtain ⟨recs, ret, hrun, hlen, hrecs, hret⟩ := @Chain.run_getdentsLoop g v cs fuel c.len
    c.junk dir h hf hdir hstart (c.len / 8 + 1) pos 0 c.buf (Nat.zero_le _) (by omega)
  rw [Nat.zero_add] at hlen hret
  refine ⟨recs, ret, ?_, hlen, hrecs, hret.imp_left fun hr => ⟨hr.1, hr.2.2⟩⟩
  rw [Call.run, Blocks.exec_of_ok hok, fileGetdents, if_neg (by simp)]
  exact hrun

theorem map_range_put {buf : Nat → UInt8} (l : List UInt8) :
    (List.range l.length).map (put buf 0 l) = l := by
  have hput := @map_put l buf 0 0 le_rfl
  rw [Nat.zero_add, Nat.zero_max] at hput
  rw [hput]
  simp [splice]

/-- The records of all the calls, from the position of the first one on to the end. -/
theorem Lists.records (h : Chain g v cs) (hf : cs.length < fuel) (hdir : dir.isDir = true)
    (hstart : dirStart g dir = cs.getD 0 0) {pos : Nat} {calls : List Call}
    {outs : List (List UInt8)} (hlists : Lists g fuel v dir pos calls outs)
    (hok : ∀ c ∈ calls, ∀ n, c.ok n = true) :
    ∃ groups : List (List (List UInt8)), outs = groups.map List.flatten ∧
      (∀ j r, groups.flatten[j]? = some r → ∃ q y,
        (listing (slots g v cs) ⟨q, 0⟩)[(pos + j) % 2 ^ 32]? = some y ∧
          r = direntRecord (pos + j) y) ∧
      ∃ q, (listing (slots g v cs) ⟨q, 0⟩)[(pos + groups.flatten.length) % 2 ^ 32]? = none := by
  induction hlists with
  | @last c pos pos' buf' hrun =>
    obtain ⟨recs, ret, hrun', -, hrecs, hret⟩ :=
      h.run_call hf hdir hstart (hok _ List.mem_cons_self) pos
    have heq := Option.some.inj (hrun'.symm.trans hrun)
    have hzero : ret = 0 := congrArg (fun r => r.1.1) heq
    refine ⟨[], rfl, nofun, ?_⟩
    rcases hret with ⟨hneg, -⟩ | ⟨hret, hpos | hend⟩
    · omega
    · omega
    · -- a call that returns zero put no record into its buffer
      have hlen : recs.flatten.length = 0 := by omega
      cases recs with
      | nil => exact hend
      | cons r recs =>
        obtain ⟨-, y, -, rfl⟩ := hrecs 0 r rfl
        have hsize := (le_recLen (cstr y.name).length).2
        rw [flatten_cons, length_append, length_direntRecord] at hlen
        omega
  | @more c cs pos pos' n buf' outs hrun hn _ ih =>
    obtain ⟨recs, ret, hrun', -, hrecs, hret⟩ :=
      h.run_call hf hdir hstart (hok _ List.mem_cons_self) pos
    obtain ⟨groups, rfl, hgroups, hend⟩ := ih fun c hc => hok c (List.mem_cons_of_mem _ hc)
    have heq := Option.some.inj (hrun'.symm.trans hrun)
    have hcount : ret = n := congrArg (fun r => r.1.1) heq
    have hnext : pos + recs.length = pos' := congrArg (fun r => r.1.2.1) heq
    have hbuf : put c.buf 0 recs.flatten = buf' := congrArg (fun r => r.1.2.2) heq
    have hlen : n = recs.flatten.length := by
      rcases hret with ⟨hneg, -⟩ | ⟨hret, -⟩ <;> omega
    subst hnext
    refine ⟨recs :: groups, ?_, fun j r hr => ?_, ?_⟩
    · rw [← hbuf, hlen, map_range_put, map_cons]
    · rw [flatten_cons] at hr
      rcases Nat.lt_or_ge j recs.length with hj | hj
      · rw [List.getElem?_append_left hj] at hr
        exact hrecs j r hr
      · rw [List.getElem?_append_right hj] at hr
        obtain ⟨q, y, hy, rfl⟩ := hgroups _ r hr
        rw [show pos + recs.length + (j - recs.length) = pos + j by omega] at hy ⊢
        exact ⟨q, y, hy, rfl⟩
    · rwa [flatten_cons, length_append, ← Nat.add_assoc]

/-- Reading a directory in pieces, with no sector failing: the records list the live entries, each
once and in order, and the buffers are as they were behind what is returned. -/
theorem getdents_lists_all (g : Geo) (v : Volume) (cs : List Nat) (fuel : Nat) (dir : Handle)
    (calls : List Call) (outs : List (List UInt8)) (h : Chain g v cs) (hf : cs.length < fuel)
    (hdir : dir.isDir = true) (hstart : dirStart g dir = cs.getD 0 0)
    (hlists : Lists g fuel v dir 0 calls outs) (hok : ∀ c ∈ calls, ∀ n, c.ok n = true) :
    (∃ groups : List (List (List UInt8)), outs = groups.map List.flatten ∧
      groups.flatten.length = (liveSlots (slots g v cs)).length ∧
      ∀ i x, (liveSlots (slots g v cs))[i]? = some x →
        ∃ r, groups.flatten[i]? = some r ∧ IsRecord g fuel v dir i x r) ∧
    ∀ c ∈ calls, ∀ pos, ∃ n pos' buf', c.run g fuel v dir pos = some ((n, pos', buf'), v) ∧
      n ≤ c.len ∧ ∀ i : Nat, n ≤ i → buf' i = c.buf i := by
  refine ⟨?_, fun c hc pos => ?_⟩
  · obtain ⟨groups, hgroups, hrecs, q, hend⟩ := hlists.records h hf hdir hstart hok
    have hcount : ∀ q, (listing (slots g v cs) ⟨q, 0⟩).length =
        (liveSlots (slots g v cs)).length := by
      intro q
      have hlive := congrArg List.length (listing_live (slots g v cs) ⟨q, 0⟩)
      rwa [length_map, length_map] at hlive
    rw [Nat.zero_add, List.getElem?_eq_none_iff, hcount] at hend
    have hin : ∀ j, j < groups.flatten.length →
        j % 2 ^ 32 < (liveSlots (slots g v cs)).length := by
      intro j hj
      obtain ⟨q, y, hy, -⟩ := hrecs j _ (List.getElem?_eq_getElem hj)
      rw [Nat.zero_add] at hy
      rw [← hcount q]
      exact (List.getElem?_eq_some_iff.1 hy).1
    -- the number of the name that is asked for is cut to 32 bits, and there is a name that has none
    have hlen : groups.flatten.length = (liveSlots (slots g v cs)).length := by
      by_contra hne
      have hlt := hin (liveSlots (slots g v cs)).length (by omega)
      omega
    refine ⟨groups, hgroups, hlen, fun i x hx => ?_⟩
    have hi := (List.getElem?_eq_some_iff.1 hx).1
    have hg : groups.flatten[i]? = some groups.flatten[i] :=
      List.getElem?_eq_getElem (by omega)
    obtain ⟨q, y, hy, hr⟩ := hrecs i _ hg
    rw [Nat.zero_add] at hy hr
    rw [Nat.mod_eq_of_lt (by omega)] at hy
    refine ⟨_, hg, ?_⟩
    rw [hr]
    exact h.isRecord hf hdir hstart (by omega) hy hx
  · obtain ⟨recs, ret, hrun, hlen, -, hret⟩ := h.run_call hf hdir hstart (hok c hc) pos
    refine ⟨ret, _, _, hrun, by omega, fun i hi => ?_⟩
    have hout : ¬(0 ≤ i ∧ i < 0 + recs.flatten.length) := by
      rcases hret with ⟨-, rfl⟩ | ⟨hret, -⟩
      · simp
      · omega
    rw [put, if_neg hout]

/-- A call with a buffer for one short name. -/
def oneName (ok : Nat → Bool) : Call := ⟨24, fun _ => 0, fun _ _ => 0, ok⟩

/-- The root directory of the volume with one file, in two calls. -/
theorem getdents_lists_all_root : ∃ outs, Lists largeGeo 2 largeVolume (rootHandle largeGeo) 0
    [oneName fun _ => true, oneName fun _ => true] outs ∧
    ∃ groups : List (List (List UInt8)), outs = groups.map List.flatten ∧
      groups.flatten.length = (liveSlots (slots largeGeo largeVolume [2])).length := by
  have hlists : ∃ outs, Lists largeGeo 2 largeVolume (rootHandle largeGeo) 0
      [oneName fun _ => true, oneName fun _ => true] outs :=
    ⟨_, .more (n := 24) rfl (by decide) (.last rfl)⟩
  obtain ⟨outs, hlists⟩ := hlists
  obtain ⟨groups, hgroups, hlen, -⟩ := (getdents_lists_all largeGeo largeVolume [2] 2
    (rootHandle largeGeo) _ outs (largeVolume_wellFormed.chained false) (by decide) rfl rfl hlists
    (by
      intro c hc n
      rcases mem_cons.1 hc with rfl | hc
      · rfl
      · rw [List.mem_singleton.1 hc]
        rfl)).1
  exact ⟨outs, hlists, groups, hgroups, hlen⟩

/-- A sector of the directory that cannot be read is taken for the end of the directory. -/
theorem failed_read_ends_directory : ∃ calls outs,
    Lists largeGeo 2 largeVolume (rootHandle largeGeo) 0 calls outs ∧
    ¬∃ groups : List (List (List UInt8)), outs = groups.map List.flatten ∧
      groups.flatten.length = (liveSlots (slots largeGeo largeVolume [2])).length := by
  refine ⟨[oneName fun _ => false], [], .last rfl, ?_⟩
  rintro ⟨groups, hgroups, hlen⟩
  obtain rfl : groups = [] := List.map_eq_nil_iff.1 hgroups.symm
  have hfirst : ∃ xs, slots largeGeo largeVolume [2] = (⟨2, 514, 0⟩, largeDirectory) :: xs :=
    ⟨_, rfl⟩
  obtain ⟨xs, hxs⟩ := hfirst
  rw [hxs] at hlen
  cases hlen

end Calls

end Verkos.Stam.Fat
