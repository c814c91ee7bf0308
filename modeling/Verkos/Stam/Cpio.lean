import Verkos.Vcpio.Create

/-!
# Finding a file in the initrd

`cpio_find` walks over a newc archive in memory from one header to the next. The image is the
bytes it may read: a read of any other address is the outcome `fault`. Offsets are 64-bit and
wrap, which they do only in an image that reaches almost to the end of the address space.

Archives of `do_create` are read as they were written. For an image that nobody vouches for, a
name is compared up to its NUL and nothing says that there is one: `cpio_find` stays inside the
image exactly when, at every header it comes to, the bytes up to the end of the image are not
the beginning of the name it compares them with.
-/

namespace Verkos.Stam

open Lib.Digits Vcpio

/-- A 64-bit sum. -/
def wrap64 (n : Nat) : Nat := n % 2 ^ 64

/-- `round4`. -/
def round4 (n : Nat) : Nat := wrap64 (n + 3) / 4 * 4

/-- `hexval`. -/
def hexval (c : UInt8) : Option Nat :=
  if 48 ≤ c ∧ c ≤ 57 then some (c.toNat - 48)
  else if 97 ≤ c ∧ c ≤ 102 then some (c.toNat - 97 + 10)
  else if 65 ≤ c ∧ c ≤ 70 then some (c.toNat - 65 + 10)
  else none

/-- `skip_slash`. -/
def skipSlash : List UInt8 → List UInt8
  | 47 :: s => s
  | s => s

section Reads

variable (img : List UInt8)

/-- `field`, with `n` digits to go: the answer is `none` where the source returns -1, and there
is none at all when a read leaves the image. -/
def field : Nat → Nat → Nat → Option (Option Nat)
  | 0, _, v => some (some v)
  | n + 1, p, v => do
    let c ← img[p]?
    match hexval c with
    | none => some none
    | some d => field n (p + 1) (wrap64 (v * 16) + d)

/-- `same`, of the string at `p` in the image and one that is given. -/
def same : Nat → List UInt8 → Option Bool
  | p, [] => do
    let c ← img[p]?
    return c == 0
  | p, b :: bs => do
    let c ← img[p]?
    if c ≠ 0 ∧ c = b then same (p + 1) bs else return c == b

/-- The first bytes of a header are these. -/
def hasMagic : Nat → List UInt8 → Option Bool
  | _, [] => some true
  | p, b :: bs => do
    let c ← img[p]?
    if c = b then hasMagic (p + 1) bs else return false

/-- `skip_slash` of a name in the image: where it starts. -/
def skipSlashAt (p : Nat) : Option Nat := do
  let c ← img[p]?
  return if c = 47 then p + 1 else p

/-- What one header leads to: -1, the file, or the next header. -/
inductive Look
  | missing
  | found (data size : Nat)
  | next (off : Nat)
deriving DecidableEq

/-- The body of `cpio_find`'s loop. -/
def look (want : List UInt8) (off : Nat) : Option Look := do
  if !(← hasMagic img off magic) then return .missing
  let some filesize ← field img 8 (off + 54) 0 | return .missing
  let some namesize ← field img 8 (off + 94) 0 | return .missing
  if namesize = 0 ∨ img.length < wrap64 (off + 110 + namesize) then return .missing
  let name := off + 110
  let data := wrap64 (off + round4 (110 + namesize))
  if img.length < wrap64 (data + filesize) then return .missing
  if ← same img name trailer then return .missing
  if ← same img (← skipSlashAt img name) want then return .found data filesize
  return .next (wrap64 (data + round4 filesize))

/-- How `cpio_find` ends: not yet, by a read outside the image, with -1, or with an address and
a size. -/
inductive Outcome
  | running
  | fault
  | missing
  | found (addr size : Nat)
deriving DecidableEq

/-- The loop, for so many headers. -/
def walk (image : Nat) (want : List UInt8) : Nat → Nat → Outcome
  | 0, _ => .running
  | fuel + 1, off =>
    if wrap64 (off + 110) ≤ img.length then
      match look img want off with
      | none => .fault
      | some .missing => .missing
      | some (.found data size) => .found (wrap64 (image + data)) size
      | some (.next off) => walk image want fuel off
    else .missing

/-- `cpio_find` on the bytes at `image`: every header is 110 bytes, so there are not more of them
than bytes. -/
def cpioFind (image : Nat) (want : List UInt8) : Outcome :=
  walk img image (skipSlash want) (img.length + 1) 0

/-! ## What an image says -/

/-- A header and where it leads. -/
structure Entry where
  data : Nat
  size : Nat
deriving DecidableEq

/-- The eight hexadecimal digits at `p`. -/
def hexAt (p : Nat) : Option Nat := (((img.drop p).take 8).mapM hexval).map (value 16)

/-- The header at `off`, when it is one and its name and its contents end inside the image. -/
def entryAt (off : Nat) : Option Entry :=
  if off + 110 ≤ img.length ∧ (img.drop off).take 6 = magic then
    match hexAt img (off + 54), hexAt img (off + 94) with
    | some size, some namesize =>
      if namesize ≠ 0 ∧ off + 110 + namesize ≤ img.length ∧
          off + round4 (110 + namesize) + size ≤ img.length then
        some ⟨off + round4 (110 + namesize), size⟩
      else none
    | _, _ => none
  else none

/-- The bytes from the name of the header at `off` to the end of the image. -/
def nameOn (off : Nat) : List UInt8 := img.drop (off + 110)

/-- A run of bytes starts with this string and its NUL. -/
def Spells (s bytes : List UInt8) : Prop := s ++ [0] <+: bytes

instance (s bytes : List UInt8) : Decidable (Spells s bytes) := inferInstanceAs (Decidable (_ <+: _))

/-- The headers `cpio_find` comes to: the first, and the one after each that is neither the
trailer nor the file. -/
inductive Comes (want : List UInt8) : Nat → Prop
  | start : Comes want 0
  | next {off : Nat} {e : Entry} : Comes want off → entryAt img off = some e →
    ¬ Spells trailer (nameOn img off) → ¬ Spells want (skipSlash (nameOn img off)) →
    Comes want (e.data + round4 e.size)

/-- Wherever `cpio_find` comes to, the comparison of the name ends before the image does. -/
def NamesEnd (want : List UInt8) : Prop :=
  ∀ off e, Comes img want off → entryAt img off = some e →
    ¬ nameOn img off <+: trailer ∧
      (¬ Spells trailer (nameOn img off) → ¬ skipSlash (nameOn img off) <+: want)

end Reads

/-! ## Reading -/

variable {img want : List UInt8} {off image : Nat}

variable {p fuel : Nat} {e : Entry}

variable {c : UInt8} {s : List UInt8} {v n : Nat}

theorem drop_of_get (h : img[p]? = some c) : img.drop p = c :: img.drop (p + 1) := by
  obtain ⟨hp, rfl⟩ := List.getElem?_eq_some_iff.1 h
  exact List.drop_eq_getElem_cons hp

theorem drop_of_none (h : img[p]? = none) : img.drop p = [] :=
  List.drop_eq_nil_of_le (List.getElem?_eq_none_iff.1 h)

/-- A comparison leaves the image when there is nothing left of it to tell the two apart, and
finds them equal when the string is there with its NUL. -/
theorem same_spec (img : List UInt8) (h0 : 0 ∉ s) (p : Nat) :
    (same img p s = none ↔ img.drop p <+: s) ∧ (same img p s = some true ↔ Spells s (img.drop p)) := by
  induction s generalizing p with
  | nil =>
    cases hp : img[p]? with
    | none => simp [same, hp, drop_of_none hp, Spells]
    | some c =>
      rw [drop_of_get hp]
      simp [same, hp, Spells]
      exact eq_comm
  | cons b bs ih =>
    have hb : b ≠ 0 := fun h => h0 (by simp [h])
    cases hp : img[p]? with
    | none => simp [same, hp, drop_of_none hp, Spells]
    | some c =>
      rw [drop_of_get hp]
      by_cases hc : c = b
      · subst hc
        have := ih (fun h => h0 (by simp [h])) (p + 1)
        simpa [same, hp, hb, Spells] using this
      · have hc' : ¬ b = c := fun h => hc h.symm
        simp [same, hp, hc, hc', Spells]

theorem same_ne_none (h0 : 0 ∉ s) (h : ¬ img.drop p <+: s) :
    same img p s = some (decide (Spells s (img.drop p))) := by
  obtain ⟨hn, ht⟩ := same_spec img h0 p
  cases hs : same img p s with
  | none => exact absurd (hn.1 hs) h
  | some b =>
    cases b with
    | true => rw [decide_eq_true (ht.1 hs)]
    | false =>
      rw [decide_eq_false fun hsp => ?_]
      rw [ht.2 hsp] at hs
      cases hs

theorem hasMagic_inside (img m : List UInt8) (h : p + m.length ≤ img.length) :
    hasMagic img p m = some (decide ((img.drop p).take m.length = m)) := by
  induction m generalizing p with
  | nil => simp [hasMagic]
  | cons b bs ih =>
    rw [List.length_cons] at h
    have hp : img[p]? = some img[p] := List.getElem?_eq_getElem (by omega)
    rw [hasMagic, hp, drop_of_get hp]
    simp only [Option.bind_eq_bind, Option.bind_some, List.length_cons, List.take_succ_cons,
      List.cons.injEq]
    by_cases hb : img[p] = b
    · rw [if_pos hb, ih (by omega)]
      simp [hb]
    · rw [if_neg hb]
      simp [hb]

theorem hexval_lt {d : Nat} (h : hexval c = some d) : d < 16 := by
  unfold hexval at h
  simp only [UInt8.le_iff_toNat_le, UInt8.toNat_ofNat] at h
  grind

theorem field_inside (n : Nat) (h : p + n ≤ img.length) (hv : (v + 1) * 16 ^ n ≤ 2 ^ 64) :
    field img n p v = some ((((img.drop p).take n).mapM hexval).map fun ds => ds.foldl (push 16) v) := by
  induction n generalizing p v with
  | zero => simp [field]
  | succ n ih =>
    have hp : img[p]? = some img[p] := List.getElem?_eq_getElem (by omega)
    rw [field, hp, drop_of_get hp]
    simp only [Option.bind_eq_bind, Option.bind_some, List.take_succ_cons, List.mapM_cons]
    cases hd : hexval img[p] with
    | none => simp
    | some d =>
      have hd16 := hexval_lt hd
      have hpow : (v * 16 + d + 1) * 16 ^ n ≤ 2 ^ 64 :=
        calc (v * 16 + d + 1) * 16 ^ n ≤ ((v + 1) * 16) * 16 ^ n :=
              Nat.mul_le_mul_right _ (by omega)
          _ = (v + 1) * 16 ^ (n + 1) := by rw [Nat.pow_succ]; ring
          _ ≤ 2 ^ 64 := hv
      have hone : v * 16 + d + 1 ≤ (v * 16 + d + 1) * 16 ^ n :=
        Nat.le_mul_of_pos_right _ (Nat.pow_pos (by decide))
      have hsmall : v * 16 < 2 ^ 64 := by omega
      change field img n (p + 1) (wrap64 (v * 16) + d) = _
      rw [wrap64, Nat.mod_eq_of_lt hsmall, ih (by omega) hpow]
      cases hm : ((img.drop (p + 1)).take n).mapM hexval <;> simp [push]

theorem field_eq (h : p + 8 ≤ img.length) : field img 8 p 0 = some (hexAt img p) := by
  rw [field_inside 8 h (by decide)]
  rfl

/-! ## One header -/

theorem mapM_hexval {l : List UInt8} {ds : List Nat} (h : l.mapM hexval = some ds) :
    ds.length = l.length ∧ ∀ d ∈ ds, d < 16 := by
  induction l generalizing ds with
  | nil =>
    cases h
    simp
  | cons c l ih =>
    rw [List.mapM_cons] at h
    obtain ⟨d, hd, h⟩ := Option.bind_eq_some_iff.1 h
    obtain ⟨ds', hds, h⟩ := Option.bind_eq_some_iff.1 h
    cases h
    obtain ⟨hlen, hall⟩ := ih hds
    refine ⟨by simp [hlen], fun e he => ?_⟩
    rcases List.mem_cons.1 he with rfl | he
    · exact hexval_lt hd
    · exact hall e he

theorem hexAt_lt (h : hexAt img p = some v) : v < 2 ^ 32 := by
  obtain ⟨ds, hds, rfl⟩ := Option.map_eq_some_iff.1 h
  obtain ⟨hlen, hall⟩ := mapM_hexval hds
  calc value 16 ds < 16 ^ ds.length := value_lt hall
    _ ≤ 16 ^ 8 := Nat.pow_le_pow_right (by decide) (by rw [hlen]; exact List.length_take_le 8 _)
    _ = 2 ^ 32 := by decide

theorem wrap64_eq (h : n < 2 ^ 64) : wrap64 n = n := Nat.mod_eq_of_lt h

theorem round4_eq (h : n + 3 < 2 ^ 64) : round4 n = (n + 3) / 4 * 4 := by
  rw [round4, wrap64_eq h]

theorem entryAt_some (h : entryAt img off = some e) : ∃ namesize,
    off + 110 ≤ img.length ∧ (img.drop off).take 6 = magic ∧
    hexAt img (off + 54) = some e.size ∧ hexAt img (off + 94) = some namesize ∧ namesize ≠ 0 ∧
    off + 110 + namesize ≤ img.length ∧ e.data = off + round4 (110 + namesize) ∧
    e.data + e.size ≤ img.length := by
  unfold entryAt at h
  split at h
  · rename_i hm
    split at h
    · rename_i size namesize hs hn
      split at h
      · rename_i hb
        cases h
        exact ⟨namesize, hm.1, hm.2, hs, hn, hb.1, hb.2.1, rfl, hb.2.2⟩
      · cases h
    · cases h
  · cases h

/-- The names of a header compared, when the header is in order. -/
theorem look_entry (hlen : img.length < 2 ^ 64) (he : entryAt img off = some e) :
    look img want off = (do
      if ← same img (off + 110) trailer then return .missing
      if ← same img (← skipSlashAt img (off + 110)) want then return .found e.data e.size
      return .next (wrap64 (e.data + round4 e.size))) := by
  obtain ⟨namesize, hoff, hmagic, hs, hn, hne, hname, hdata, hsize⟩ := entryAt_some he
  have hm := hasMagic_inside img magic (p := off) (by simp [magic]; omega)
  rw [show magic.length = 6 from rfl, hmagic, decide_eq_true rfl] at hm
  have h1 : ¬ img.length < wrap64 (off + 110 + namesize) := by
    rw [wrap64_eq (by omega)]
    omega
  have h2 : wrap64 (off + round4 (110 + namesize)) = e.data := by
    rw [← hdata, wrap64_eq (by omega)]
  have h3 : ¬ img.length < wrap64 (e.data + e.size) := by
    rw [wrap64_eq (by omega)]
    omega
  simp only [look, hm, field_eq (show off + 54 + 8 ≤ img.length by omega),
    field_eq (show off + 94 + 8 ≤ img.length by omega), hs, hn, Option.bind_eq_bind,
    Option.bind_some, h1, h2, h3, hne, or_self, if_false, Bool.not_true, Bool.false_eq_true]

/-- Anything else is -1, in an image that leaves room for the sums. -/
theorem look_none (hlen : img.length + 2 ^ 33 ≤ 2 ^ 64) (hoff : off + 110 ≤ img.length)
    (he : entryAt img off = none) : look img want off = some .missing := by
  have hm := hasMagic_inside img magic (p := off) (by simp [magic]; omega)
  rw [show magic.length = 6 from rfl] at hm
  simp only [look, hm, field_eq (show off + 54 + 8 ≤ img.length by omega),
    field_eq (show off + 94 + 8 ≤ img.length by omega), Option.bind_eq_bind, Option.bind_some]
  by_cases hmagic : (img.drop off).take 6 = magic
  · cases hs : hexAt img (off + 54) with
    | none => simp [hmagic]
    | some size =>
      cases hn : hexAt img (off + 94) with
      | none => simp [hmagic]
      | some namesize =>
        have hs32 := hexAt_lt hs
        have hn32 := hexAt_lt hn
        have hround := round4_eq (n := 110 + namesize) (by omega)
        rw [entryAt, if_pos ⟨hoff, hmagic⟩, hs, hn] at he
        simp only [decide_eq_true hmagic, Bool.not_true, Bool.false_eq_true, if_false]
        rw [wrap64_eq (show off + 110 + namesize < 2 ^ 64 by omega)]
        by_cases h1 : namesize = 0 ∨ img.length < off + 110 + namesize
        · rw [if_pos h1]
          rfl
        · have h2 : ¬ off + round4 (110 + namesize) + size ≤ img.length := by
            intro hle
            dsimp only at he
            rw [if_pos ⟨by omega, by omega, hle⟩] at he
            cases he
          rw [if_neg h1, wrap64_eq (show off + round4 (110 + namesize) < 2 ^ 64 by omega),
            wrap64_eq (show off + round4 (110 + namesize) + size < 2 ^ 64 by omega),
            if_pos (by omega)]
          rfl
  · simp [hmagic]

theorem skipSlashAt_eq (img : List UInt8) (h : p < img.length) : ∃ q,
    skipSlashAt img p = some q ∧ img.drop q = skipSlash (img.drop p) := by
  have hp : img[p]? = some img[p] := List.getElem?_eq_getElem h
  rw [drop_of_get hp]
  by_cases hc : img[p] = 47
  · refine ⟨p + 1, by simp [skipSlashAt, hp, hc], ?_⟩
    rw [hc]
    rfl
  · refine ⟨p, by simp [skipSlashAt, hp, hc], ?_⟩
    rw [drop_of_get hp]
    unfold skipSlash
    split
    · rename_i heq
      exact absurd (List.cons.inj heq).1 hc
    · rfl

theorem zero_notMem_trailer : (0 : UInt8) ∉ trailer := by decide

/-- What a header in order leads to is a matter of its name. -/
theorem look_name (hlen : img.length < 2 ^ 64) (h0 : 0 ∉ want)
    (he : entryAt img off = some e) : look img want off =
      if nameOn img off <+: trailer then none
      else if Spells trailer (nameOn img off) then some .missing
      else if skipSlash (nameOn img off) <+: want then none
      else if Spells want (skipSlash (nameOn img off)) then some (.found e.data e.size)
      else some (.next (wrap64 (e.data + round4 e.size))) := by
  obtain ⟨namesize, -, -, -, -, hne, hname, -, -⟩ := entryAt_some he
  obtain ⟨q, hq, hdrop⟩ := skipSlashAt_eq img (p := off + 110) (by omega)
  rw [look_entry hlen he]
  by_cases ht : nameOn img off <+: trailer
  · rw [if_pos ht, ((same_spec img zero_notMem_trailer (off + 110)).1).2 ht]
    rfl
  · rw [if_neg ht, same_ne_none zero_notMem_trailer ht]
    by_cases hst : Spells trailer (nameOn img off)
    · simp only [nameOn] at hst ⊢
      simp [hst]
    · rw [if_neg hst]
      unfold nameOn at hst ⊢
      rw [← hdrop]
      by_cases hw : img.drop q <+: want
      · rw [if_pos hw]
        simp [hst, hq, ((same_spec img h0 q).1).2 hw]
      · rw [if_neg hw]
        by_cases hsw : Spells want (img.drop q)
        · simp [hst, hq, same_ne_none h0 hw, hsw]
        · simp [hst, hq, same_ne_none h0 hw, hsw]

/-! ## The walk -/

theorem walk_succ (h : wrap64 (off + 110) ≤ img.length) : walk img image want (fuel + 1) off =
      match look img want off with
      | none => .fault
      | some .missing => .missing
      | some (.found data size) => .found (wrap64 (image + data)) size
      | some (.next off) => walk img image want fuel off := by
  rw [walk, if_pos h]

theorem walk_mono {r : Outcome} (h : walk img image want fuel off = r)
    (hr : r ≠ .running) (more : Nat) : walk img image want (fuel + more) off = r := by
  induction fuel generalizing off with
  | zero => exact absurd h.symm hr
  | succ fuel ih =>
    rw [Nat.add_right_comm]
    rw [walk] at h ⊢
    split
    · rename_i hoff
      rw [if_pos hoff] at h
      split at h <;> first | exact h | exact ih h
    · rename_i hoff
      rwa [if_neg hoff] at h

section Inside

variable (hlen : img.length + 2 ^ 33 ≤ 2 ^ 64)
include hlen

theorem next_spec (he : entryAt img off = some e) :
    wrap64 (e.data + round4 e.size) = e.data + round4 e.size ∧ off < e.data + round4 e.size ∧
      e.data + round4 e.size ≤ img.length + 3 := by
  obtain ⟨namesize, hoff, -, -, hn, -, hname, hdata, hsize⟩ := entryAt_some he
  have hn32 := hexAt_lt hn
  have hsz := round4_eq (n := e.size) (by omega)
  have hns := round4_eq (n := 110 + namesize) (by omega)
  refine ⟨wrap64_eq (by omega), by omega, by omega⟩

theorem walk_end (hoff : off ≤ img.length + 3) (h : img.length < off + 110) :
    walk img image want (fuel + 1) off = .missing := by
  rw [walk, if_neg]
  rw [wrap64_eq (by omega)]
  omega

theorem walk_ne_running (h0 : 0 ∉ want) (hoff : off ≤ img.length + 3)
    (hfuel : img.length ≤ off + fuel) : walk img image want (fuel + 1) off ≠ .running := by
  induction fuel generalizing off with
  | zero =>
    rw [walk_end hlen hoff (by omega)]
    nofun
  | succ fuel ih =>
    by_cases hend : img.length < off + 110
    · rw [walk_end hlen hoff hend]
      nofun
    · rw [walk_succ (by rw [wrap64_eq (by omega)]; omega)]
      cases he : entryAt img off with
      | none =>
        rw [look_none hlen (by omega) he]
        nofun
      | some e =>
        obtain ⟨hwrap, hlt, hle⟩ := next_spec hlen he
        rw [look_name (by omega) h0 he]
        split_ifs
        · nofun
        · nofun
        · nofun
        · nofun
        · rw [hwrap]
          exact ih hle (by omega)

theorem not_namesEnd_of_fault (h0 : 0 ∉ want) (hc : Comes img want off)
    (hoff : off ≤ img.length + 3) (h : walk img image want fuel off = .fault) :
    ¬ NamesEnd img want := by
  induction fuel generalizing off with
  | zero => cases h
  | succ fuel ih =>
    by_cases hend : img.length < off + 110
    · rw [walk_end hlen hoff hend] at h
      cases h
    · rw [walk_succ (by rw [wrap64_eq (by omega)]; omega)] at h
      cases he : entryAt img off with
      | none =>
        rw [look_none hlen (by omega) he] at h
        cases h
      | some e =>
        obtain ⟨hwrap, -, hle⟩ := next_spec hlen he
        rw [look_name (by omega) h0 he, hwrap] at h
        split_ifs at h with ht hst hw hsw
        · exact fun hn => (hn off e hc he).1 ht
        · exact fun hn => (hn off e hc he).2 hst hw
        · exact ih (hc.next he hst hsw) hle h

theorem comes_walk (image : Nat) (h0 : 0 ∉ want) (hc : Comes img want off) : off ≤ img.length + 3 ∧
    ((∃ k ≤ off, walk img image want (k + 1) 0 = .fault) ∨
      ∃ k ≤ off, ∀ fuel, walk img image want (k + fuel) 0 = walk img image want fuel off) := by
  induction hc with
  | start => exact ⟨Nat.zero_le _, .inr ⟨0, le_rfl, fun fuel => by rw [Nat.zero_add]⟩⟩
  | @next off e hc he hst hsw ih =>
    obtain ⟨hwrap, hlt, hle⟩ := next_spec hlen he
    obtain ⟨namesize, hoff, -⟩ := entryAt_some he
    refine ⟨hle, ?_⟩
    rcases ih.2 with ⟨k, hk, hf⟩ | ⟨k, hk, hw⟩
    · exact .inl ⟨k, by omega, hf⟩
    · have hstep : ∀ fuel, walk img image want (k + (fuel + 1)) 0 =
          match look img want off with
          | none => .fault
          | some .missing => .missing
          | some (.found data size) => .found (wrap64 (image + data)) size
          | some (.next off) => walk img image want fuel off := fun fuel => by
        rw [hw, walk_succ (by rw [wrap64_eq (by omega)]; omega)]
      rw [look_name (by omega) h0 he, if_neg hst, if_neg hsw, hwrap] at hstep
      by_cases ht : nameOn img off <+: trailer
      · refine .inl ⟨k, by omega, ?_⟩
        rw [hstep 0, if_pos ht]
      · by_cases hp : skipSlash (nameOn img off) <+: want
        · refine .inl ⟨k, by omega, ?_⟩
          rw [hstep 0, if_neg ht, if_pos hp]
        · refine .inr ⟨k + 1, by omega, fun fuel => ?_⟩
          rw [Nat.add_right_comm, Nat.add_assoc, hstep fuel, if_neg ht, if_neg hp]

theorem cpioFind_spec (h0 : 0 ∉ skipSlash want) : cpioFind img image want ≠ .running ∧
    (cpioFind img image want ≠ .fault ↔ NamesEnd img (skipSlash want)) := by
  refine ⟨walk_ne_running hlen h0 (Nat.zero_le _) (by omega), fun h off e hc he => ?_,
    fun h hf => not_namesEnd_of_fault hlen h0 .start (Nat.zero_le _) hf h⟩
  obtain ⟨hle, ⟨k, hk, hf⟩ | ⟨k, hk, hw⟩⟩ := comes_walk hlen image h0 hc
  · obtain ⟨-, hoff, -⟩ := entryAt_some he
    refine absurd ?_ h
    obtain ⟨more, hmore⟩ := Nat.exists_eq_add_of_le (show k + 1 ≤ img.length + 1 by omega)
    rw [cpioFind, hmore]
    exact walk_mono hf (by decide) more
  · obtain ⟨namesize, hoff, -⟩ := entryAt_some he
    have hfind : cpioFind img image want =
        walk img image (skipSlash want) (img.length - k + 1) off := by
      rw [cpioFind, ← hw]
      congr 1
      omega
    rw [hfind, walk_succ (by rw [wrap64_eq (by omega)]; omega),
      look_name (by omega) h0 he] at h
    refine ⟨fun ht => ?_, fun hst hp => ?_⟩
    · rw [if_pos ht] at h
      exact h rfl
    · by_cases ht : nameOn img off <+: trailer
      · rw [if_pos ht] at h
        exact h rfl
      · rw [if_neg ht, if_neg hst, if_pos hp] at h
        exact h rfl

end Inside

end Verkos.Stam
