import Verkos.Sav.Gen
import Mathlib.Data.List.DropRight

/-!
# The note savc writes and stam reads

`build_note` puts the manifest into the executable and `read_sav_note` takes it out again when
stam loads the program; `sav_allows` is what stam asks at every system call.

The two agree on every manifest whose size a note can say. The sizes in a note are 32 bits wide on
both sides, so a manifest of 4 GiB comes back cut short; nothing shorter does.
-/

namespace Verkos.Sav

open List

/-- Four bytes, the lowest first. -/
def put32 (n : Nat) : List UInt8 :=
  [UInt8.ofNat n, UInt8.ofNat (n / 256), UInt8.ofNat (n / 65536), UInt8.ofNat (n / 16777216)]

/-- `"SAV1"`, little-endian. -/
def savMagic : Nat := 0x31564153

/-- A name with its NUL. -/
def nameBytes (s : String) : List UInt8 := bytesOf s ++ [0]

/-- The manifest proper: two fixed words, the two counts, the numbers, the names. -/
def noteDesc (img : Image) : List UInt8 :=
  put32 savMagic ++ put32 1 ++ put32 img.syscalls.length ++
    put32 (img.capnames.flatMap nameBytes).length ++
    img.syscalls.flatMap put32 ++ img.capnames.flatMap nameBytes

/-- Zero bytes up to a multiple of four. -/
def pad4 (l : List UInt8) : List UInt8 := l ++ List.replicate ((4 - l.length % 4) % 4) 0

/-- `build_note`. -/
def buildNote (img : Image) : List UInt8 :=
  put32 4 ++ put32 (pad4 (noteDesc img)).length ++ put32 1 ++ [115, 97, 118, 0] ++
    pad4 (noteDesc img)

/-- `le32` at the front of a run of bytes. -/
def le32 : List UInt8 → Nat
  | a :: b :: c :: d :: _ => a.toNat + 256 * b.toNat + 65536 * c.toNat + 16777216 * d.toNat
  | _ => 0

/-- What stam keeps of a manifest. -/
structure SavManifest where
  present : Bool
  call : List Nat
  caps : List UInt8

def savMaxCalls : Nat := 48
def savCapsBytes : Nat := 64

/-- The capability names on one line: a space for each NUL, none at the end. -/
def capsLine (names : List UInt8) : List UInt8 :=
  (((names.take (savCapsBytes - 1)).map fun c => if c = 0 then 32 else c).reverse.dropWhile
    (· == 32)).reverse

/-- `read_sav_note` on the bytes of a note. -/
def readSavNote (n : List UInt8) : SavManifest :=
  let absent : SavManifest := ⟨false, [], []⟩
  let namesz := le32 n
  let descsz := le32 (n.drop 4)
  let descAt := 12 + (namesz + 3) % 2 ^ 32 / 4 * 4
  let d := n.drop descAt
  let ncalls := le32 (d.drop 8)
  let nameslen := le32 (d.drop 12)
  if n.length < 16 then absent
  else if descAt + descsz > n.length then absent
  else if le32 (n.drop 8) ≠ 1 ∨ namesz ≠ 4 then absent
  else if (n.drop 12).take 4 ≠ [115, 97, 118, 0] then absent
  else if descsz < 16 ∨ le32 d ≠ savMagic ∨ le32 (d.drop 4) ≠ 1 then absent
  else if 16 + ncalls * 4 + nameslen > descsz then absent
  else if ncalls > savMaxCalls then absent
  else ⟨true, (List.range ncalls).map fun i => le32 (d.drop (16 + i * 4)),
    capsLine ((d.drop (16 + ncalls * 4)).take nameslen)⟩

/-- `sav_allows`: a program without a manifest is not restricted. -/
def savAllows (m : SavManifest) (nr : Word) : Bool :=
  !m.present || m.call.any (· == nr.toNat % 2 ^ 32)

theorem le32_put32 {n : Nat} (h : n < 2 ^ 32) (rest : List UInt8) : le32 (put32 n ++ rest) = n := by
  simp only [put32, le32, cons_append, nil_append, UInt8.toNat_ofNat']
  omega

theorem le32_flatMap {l : List Nat} (hl : ∀ n ∈ l, n < 2 ^ 32) (rest : List UInt8) :
    ∀ {i : Nat} (hi : i < l.length), le32 ((l.flatMap put32 ++ rest).drop (i * 4)) = l.get ⟨i, hi⟩ := by
  induction l with
  | nil =>
    intro i hi
    simp at hi
  | cons n l ih =>
    intro i hi
    cases i with
    | zero =>
      rw [flatMap_cons, append_assoc, Nat.zero_mul, drop_zero]
      exact le32_put32 (hl n mem_cons_self) _
    | succ i =>
      rw [flatMap_cons, append_assoc, Nat.succ_mul, Nat.add_comm, ← drop_drop]
      have hd : (put32 n ++ (l.flatMap put32 ++ rest)).drop 4 = l.flatMap put32 ++ rest := rfl
      rw [hd]
      exact ih (fun m hm => hl m (mem_cons_of_mem _ hm)) (by simpa using hi)

/-! ## The parts of a note -/

/-- The manifest proper, for names that are any bytes. -/
def descBytes (calls : List Nat) (names : List (List UInt8)) : List UInt8 :=
  put32 savMagic ++ put32 1 ++ put32 calls.length ++ put32 (names.flatMap (· ++ [0])).length ++
    calls.flatMap put32 ++ names.flatMap (· ++ [0])

/-- `build_note` on the two lists it reads from an image, the names as C strings. -/
def noteBytes (calls : List Nat) (names : List (List UInt8)) : List UInt8 :=
  put32 4 ++ put32 (pad4 (descBytes calls names)).length ++ put32 1 ++ [115, 97, 118, 0] ++
    pad4 (descBytes calls names)

theorem buildNote_eq (img : Image) :
    buildNote img = noteBytes img.syscalls (img.capnames.map bytesOf) := by
  have hnames : (img.capnames.map bytesOf).flatMap (· ++ [0]) = img.capnames.flatMap nameBytes := by
    rw [flatMap_map]
    rfl
  have hdesc : descBytes img.syscalls (img.capnames.map bytesOf) = noteDesc img := by
    unfold descBytes noteDesc
    rw [hnames]
  unfold buildNote noteBytes
  rw [hdesc]

section Parts

variable (calls : List Nat) (names : List (List UInt8))

theorem le32_noteBytes : le32 (noteBytes calls names) = 4 := by
  unfold noteBytes
  simp only [append_assoc]
  exact le32_put32 (by decide) _

theorem drop_noteBytes : (noteBytes calls names).drop 16 = pad4 (descBytes calls names) := rfl

theorem length_noteBytes :
    (noteBytes calls names).length = 16 + (pad4 (descBytes calls names)).length := by
  unfold noteBytes
  simp only [length_append]
  rfl

theorem drop_descBytes : (pad4 (descBytes calls names)).drop 8 = put32 calls.length ++
    (put32 (names.flatMap (· ++ [0])).length ++ (calls.flatMap put32 ++ (names.flatMap (· ++ [0]) ++
      List.replicate ((4 - (descBytes calls names).length % 4) % 4) 0))) := by
  unfold pad4
  generalize List.replicate _ _ = z
  unfold descBytes
  simp only [append_assoc]
  rfl

theorem drop_header : ∃ pad, (pad4 (descBytes calls names)).drop 16 =
    calls.flatMap put32 ++ (names.flatMap (· ++ [0]) ++ pad) := by
  refine ⟨List.replicate ((4 - (descBytes calls names).length % 4) % 4) 0, ?_⟩
  have h : (pad4 (descBytes calls names)).drop 16 =
      ((pad4 (descBytes calls names)).drop 8).drop 8 := by rw [drop_drop]
  rw [h, drop_descBytes]
  rfl

variable {calls}

theorem ncalls_descBytes (hn : calls.length < 2 ^ 32) :
    le32 ((pad4 (descBytes calls names)).drop 8) = calls.length := by
  rw [drop_descBytes]
  exact le32_put32 hn _

variable {names}

theorem nameslen_descBytes (hn : (names.flatMap (· ++ [0])).length < 2 ^ 32) :
    le32 ((pad4 (descBytes calls names)).drop 12) = (names.flatMap (· ++ [0])).length := by
  have h : (pad4 (descBytes calls names)).drop 12 =
      ((pad4 (descBytes calls names)).drop 8).drop 4 := by rw [drop_drop]
  rw [h, drop_descBytes]
  exact le32_put32 hn _

theorem calls_descBytes (hs : ∀ n ∈ calls, n < 2 ^ 32) : ((List.range calls.length).map fun i =>
      le32 ((pad4 (descBytes calls names)).drop (16 + i * 4))) = calls := by
  obtain ⟨pad, hpad⟩ := drop_header calls names
  apply ext_getElem
  · simp
  · intro i h1 h2
    simp only [getElem_map, getElem_range]
    rw [← drop_drop, hpad]
    exact le32_flatMap hs _ h2

end Parts

theorem length_flatMap_put32 (l : List Nat) : (l.flatMap put32).length = 4 * l.length := by
  induction l with
  | nil => rfl
  | cons n l ih =>
    rw [flatMap_cons, length_append, ih, length_cons]
    simp only [put32, length_cons, length_nil]
    omega

theorem length_descBytes (calls : List Nat) (names : List (List UInt8)) :
    (descBytes calls names).length = 16 + 4 * calls.length + (names.flatMap (· ++ [0])).length := by
  unfold descBytes
  simp only [length_append, length_flatMap_put32]
  simp only [put32, length_cons, length_nil]

theorem length_pad4 (l : List UInt8) : (pad4 l).length = (l.length + 3) / 4 * 4 := by
  unfold pad4
  rw [length_append, length_replicate]
  omega

/-- What stam reads back out of the note, if it accepts the note at all. -/
theorem readSavNote_buildNote (img : Image) (hn : img.syscalls.length < 2 ^ 32)
    (hs : ∀ n ∈ img.syscalls, n < 2 ^ 32) (hp : (readSavNote (buildNote img)).present = true) :
    (readSavNote (buildNote img)).call = img.syscalls := by
  rw [buildNote_eq] at hp ⊢
  unfold readSavNote at hp ⊢
  simp only [le32_noteBytes, Nat.reduceAdd, Nat.reducePow, Nat.reduceMod, Nat.reduceDiv,
    Nat.reduceMul, drop_noteBytes, ncalls_descBytes _ hn] at hp ⊢
  split_ifs at hp ⊢
  exact calls_descBytes hs

theorem savAllows_of_mem {img : Image} {nr : Word} (hn : img.syscalls.length < 2 ^ 32)
    (hs : ∀ n ∈ img.syscalls, n < 2 ^ 32) (h : nr.toNat ∈ img.syscalls) :
    savAllows (readSavNote (buildNote img)) nr = true := by
  unfold savAllows
  cases hp : (readSavNote (buildNote img)).present with
  | false => rfl
  | true =>
    rw [readSavNote_buildNote img hn hs hp, Bool.not_true, Bool.false_or, any_eq_true]
    exact ⟨nr.toNat, h, by rw [beq_iff_eq, Nat.mod_eq_of_lt (hs _ h)]⟩

/-! ## The note inside an image -/

/-- `read_sav_note` on the part of an image a program header names. An offset and a length whose sum
wraps name memory outside the image, and nothing is read there. -/
def readSavNoteAt (e : List UInt8) (off len : Nat) : SavManifest :=
  if (off + len) % 2 ^ 64 > e.length then ⟨false, [], []⟩ else readSavNote ((e.drop off).take len)

/-- The names joined by single spaces, cut to what `caps` holds, without spaces at the end. -/
def capsText (names : List (List UInt8)) : List UInt8 :=
  ((List.intercalate [32] names).take (savCapsBytes - 1)).rdropWhile (· == 32)

theorem flatMap_space {names : List (List UInt8)} (h : names ≠ []) :
    names.flatMap (· ++ [32]) = List.intercalate [32] names ++ [32] := by
  induction names with
  | nil => exact (h rfl).elim
  | cons s names ih =>
    cases names with
    | nil => simp
    | cons s' names =>
      rw [flatMap_cons, ih (by simp), intercalate_cons_cons]
      simp only [append_assoc]

theorem rdropWhile_take_space (l : List UInt8) (n : Nat) :
    ((l ++ [32]).take n).rdropWhile (· == 32) = (l.take n).rdropWhile (· == 32) := by
  by_cases hn : n ≤ l.length
  · rw [take_append_of_le_length hn]
  · rw [take_of_length_le (by simp; omega), take_of_length_le (l := l) (by omega)]
    exact rdropWhile_concat_pos _ _ _ rfl

theorem map_nul_name {s : List UInt8} (h : 0 ∉ s) :
    (s.map fun c => if c = 0 then (32 : UInt8) else c) = s := by
  induction s with
  | nil => rfl
  | cons c s ih =>
    rw [mem_cons, not_or] at h
    rw [map_cons, ih h.2, if_neg (Ne.symm h.1)]

theorem map_nul_names {names : List (List UInt8)} (h : ∀ s ∈ names, 0 ∉ s) :
    ((names.flatMap (· ++ [0])).map fun c => if c = 0 then (32 : UInt8) else c) =
      names.flatMap (· ++ [32]) := by
  induction names with
  | nil => rfl
  | cons s names ih =>
    rw [flatMap_cons, map_append, ih fun t ht => h t (mem_cons_of_mem _ ht),
      map_append, map_nul_name (h s mem_cons_self), flatMap_cons]
    rfl

theorem capsLine_names {names : List (List UInt8)} (h : ∀ s ∈ names, 0 ∉ s) :
    capsLine (names.flatMap (· ++ [0])) = capsText names := by
  have hline : capsLine (names.flatMap (· ++ [0])) =
      ((names.flatMap (· ++ [32])).take (savCapsBytes - 1)).rdropWhile (· == 32) := by
    rw [← map_nul_names h, ← map_take]
    rfl
  rw [hline]
  by_cases hn : names = []
  · rw [hn]
    rfl
  · rw [flatMap_space hn, rdropWhile_take_space]
    rfl

/-- The note alone. The manifest fits the field its size is kept in. -/
theorem readSavNote_noteBytes {calls : List Nat} {names : List (List UInt8)}
    (hc : calls.length ≤ savMaxCalls) (hs : ∀ n ∈ calls, n < 2 ^ 32) (hz : ∀ s ∈ names, 0 ∉ s)
    (hsz : (pad4 (descBytes calls names)).length < 2 ^ 32) :
    readSavNote (noteBytes calls names) = ⟨true, calls, capsText names⟩ := by
  have hlen := length_descBytes calls names
  have hpad := length_pad4 (descBytes calls names)
  have hcalls : calls.length < 2 ^ 32 := lt_of_le_of_lt hc (by decide)
  have hnames : (names.flatMap (· ++ [0])).length < 2 ^ 32 := by omega
  have hdesc : le32 ((noteBytes calls names).drop 4) = (pad4 (descBytes calls names)).length :=
    le32_put32 hsz _
  have htype : le32 ((noteBytes calls names).drop 8) = 1 := rfl
  have hname : ((noteBytes calls names).drop 12).take 4 = [115, 97, 118, 0] := rfl
  have hmagic : le32 (pad4 (descBytes calls names)) = savMagic := rfl
  have hversion : le32 ((pad4 (descBytes calls names)).drop 4) = 1 := rfl
  have hline : ((pad4 (descBytes calls names)).drop (16 + calls.length * 4)).take
      (names.flatMap (· ++ [0])).length = names.flatMap (· ++ [0]) := by
    obtain ⟨pad, hd⟩ := drop_header calls names
    rw [← drop_drop, hd, drop_left' (by rw [length_flatMap_put32, Nat.mul_comm]),
      take_left]
  unfold readSavNote
  simp only [le32_noteBytes, Nat.reduceAdd, Nat.reducePow, Nat.reduceMod, Nat.reduceDiv,
    Nat.reduceMul, drop_noteBytes, length_noteBytes, hdesc, htype, hname, hmagic, hversion,
    ncalls_descBytes _ hcalls, nameslen_descBytes hnames, calls_descBytes hs, hline,
    capsLine_names hz, ne_eq, not_true_eq_false, or_self, if_false, or_false]
  rw [if_neg (by omega), if_neg (by omega), if_neg (by omega), if_neg (by omega), if_neg (by omega)]

/-- What `build_note` wrote, anywhere inside an image, is what stam reads: present, the same
numbers, and the names on one line. A manifest too long for a note's 32-bit size is left out. -/
theorem savNote_roundTrip {calls : List Nat} {names : List (List UInt8)}
    (hc : calls.length ≤ savMaxCalls) (hs : ∀ n ∈ calls, n < 2 ^ 32) (hz : ∀ s ∈ names, 0 ∉ s)
    (hsz : (pad4 (descBytes calls names)).length < 2 ^ 32) (pre post : List UInt8)
    (himg : (pre ++ noteBytes calls names ++ post).length < 2 ^ 64) :
    readSavNoteAt (pre ++ noteBytes calls names ++ post) pre.length (noteBytes calls names).length =
        ⟨true, calls, capsText names⟩ ∧ ∀ nr : Word, nr.toNat < 2 ^ 32 →
        (savAllows (readSavNoteAt (pre ++ noteBytes calls names ++ post) pre.length
          (noteBytes calls names).length) nr = true ↔ nr.toNat ∈ calls) := by
  have hread : readSavNoteAt (pre ++ noteBytes calls names ++ post) pre.length
      (noteBytes calls names).length = ⟨true, calls, capsText names⟩ := by
    unfold readSavNoteAt
    simp only [length_append] at himg ⊢
    rw [if_neg (by rw [Nat.mod_eq_of_lt (by omega)]; omega), append_assoc, drop_left,
      take_left]
    exact readSavNote_noteBytes hc hs hz hsz
  refine ⟨hread, fun nr hnr => ?_⟩
  rw [hread, savAllows]
  simp only [Bool.not_true, Bool.false_or, any_eq_true, beq_iff_eq, Nat.mod_eq_of_lt hnr]
  constructor
  · rintro ⟨n, hn, rfl⟩
    exact hn
  · intro hn
    exact ⟨_, hn, rfl⟩

/-- `Console` and two numbers. -/
theorem savNote_roundTrip_console :
    readSavNoteAt (noteBytes [64, 93] [bytesOf "Console"] ++ [0, 0]) 0
        (noteBytes [64, 93] [bytesOf "Console"]).length =
      ⟨true, [64, 93], capsText [bytesOf "Console"]⟩ := by
  have hz : ∀ s ∈ [bytesOf "Console"], (0 : UInt8) ∉ s := by decide +kernel
  have hlen : (pad4 (descBytes [64, 93] [bytesOf "Console"])).length < 2 ^ 32 := by decide +kernel
  exact (savNote_roundTrip (by decide) (by decide) hz hlen [] [0, 0] (by decide +kernel)).1

theorem le32_put32_mod (n : Nat) (rest : List UInt8) : le32 (put32 n ++ rest) = n % 2 ^ 32 := by
  simp only [put32, le32, cons_append, nil_append, UInt8.toNat_ofNat']
  omega

theorem readSavNote_long {n : Nat} (hn : n = 2 ^ 32) :
    (readSavNote (noteBytes [] [List.replicate n 65])).caps = [65] := by
  have hbytes : ([List.replicate n (65 : UInt8)].flatMap (· ++ [0])) = List.replicate n 65 ++ [0] := by
    simp
  have hdesc : le32 ((noteBytes [] [List.replicate n 65]).drop 4) = 20 := by
    refine (le32_put32_mod _ _).trans ?_
    rw [length_pad4, length_descBytes, hbytes, length_append, length_replicate]
    simp only [length_nil, length_cons]
    omega
  have hcount : le32 ((pad4 (descBytes [] [List.replicate n 65])).drop 8) = 0 :=
    ncalls_descBytes _ (by decide)
  have hnames : le32 ((pad4 (descBytes [] [List.replicate n 65])).drop 12) = 1 := by
    have h : (pad4 (descBytes [] [List.replicate n 65])).drop 12 =
        ((pad4 (descBytes [] [List.replicate n 65])).drop 8).drop 4 := by rw [drop_drop]
    rw [h, drop_descBytes]
    refine (le32_put32_mod _ _).trans ?_
    rw [hbytes, length_append, length_replicate]
    simp only [length_nil, length_cons]
    omega
  have htake : ((pad4 (descBytes [] [List.replicate n 65])).drop 16).take 1 = [65] := by
    obtain ⟨pad, hpad⟩ := drop_header [] [List.replicate n 65]
    obtain ⟨k, rfl⟩ : ∃ k, n = k + 1 := ⟨n - 1, by omega⟩
    rw [hpad, hbytes, replicate_succ]
    rfl
  have hlen : 20 ≤ (pad4 (descBytes [] [List.replicate n 65])).length := by
    rw [length_pad4, length_descBytes, hbytes, length_append, length_replicate]
    omega
  have htype : le32 ((noteBytes [] [List.replicate n 65]).drop 8) = 1 := rfl
  have hname : ((noteBytes [] [List.replicate n 65]).drop 12).take 4 = [115, 97, 118, 0] := rfl
  have hmagic : le32 (pad4 (descBytes [] [List.replicate n 65])) = savMagic := rfl
  have hversion : le32 ((pad4 (descBytes [] [List.replicate n 65])).drop 4) = 1 := rfl
  unfold readSavNote
  simp only [le32_noteBytes, Nat.reduceAdd, Nat.reducePow, Nat.reduceMod, Nat.reduceDiv,
    Nat.reduceMul, drop_noteBytes, length_noteBytes, hdesc, htype, hname, hmagic, hversion,
    hcount, hnames, htake, ne_eq, not_true_eq_false, or_self, if_false, Nat.zero_mul, Nat.add_zero]
  rw [if_neg (by omega), if_neg (by omega)]
  rfl

theorem capsText_long {n : Nat} (hn : n = 2 ^ 32) :
    capsText [List.replicate n 65] = List.replicate 63 65 := by
  have h : (List.intercalate [32] [List.replicate n (65 : UInt8)]).take (savCapsBytes - 1) =
      List.replicate 63 65 := by
    rw [intercalate_singleton, take_replicate]
    congr 1
    simp only [savCapsBytes]
    omega
  unfold capsText
  rw [h]
  rfl

/-- One capability name of 4 GiB comes back as its first byte. -/
theorem savNote_truncates : (∀ s ∈ [List.replicate (2 ^ 32) (65 : UInt8)], 0 ∉ s) ∧
      (readSavNoteAt (noteBytes [] [List.replicate (2 ^ 32) 65]) 0
        (noteBytes [] [List.replicate (2 ^ 32) 65]).length).caps ≠
      capsText [List.replicate (2 ^ 32) 65] := by
  constructor
  · intro s hs h
    rw [mem_singleton.1 hs] at h
    exact absurd (eq_of_mem_replicate h) (by decide)
  · have hread : readSavNoteAt (noteBytes [] [List.replicate (2 ^ 32) 65]) 0
        (noteBytes [] [List.replicate (2 ^ 32) 65]).length =
        readSavNote (noteBytes [] [List.replicate (2 ^ 32) 65]) := by
      unfold readSavNoteAt
      rw [if_neg (by rw [Nat.zero_add]; exact Nat.not_lt.2 (Nat.mod_le _ _)), drop_zero,
        take_length]
    rw [hread, readSavNote_long rfl, capsText_long rfl]
    decide

end Verkos.Sav
