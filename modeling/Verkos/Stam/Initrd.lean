import Verkos.Stam.Cpio

/-!
# An initrd that vcpio made

What `do_create` writes for some regular files, `cpio_find` finds: the first file whose name is the
one that is asked for, a leading slash aside, and -1 when there is none. Writer and reader pad
apart from each other, the one by its position and the other by the offset within the entry;
the two agree because every entry begins at a multiple of four.
-/

namespace Verkos.Stam

open Lib.Digits Vcpio
open List

variable {img want : List UInt8} {image : Nat}

/-! ## An entry read back -/

theorem hexval_hexDigit : ∀ d < 16, hexval (hexDigit d) = some d := by decide

theorem mapM_hexDigit {ds : List Nat} (h : ∀ d ∈ ds, d < 16) :
    (ds.map hexDigit).mapM hexval = some ds := by
  induction ds with
  | nil => rfl
  | cons d ds ih =>
    rw [map_cons, mapM_cons, hexval_hexDigit d (h d (by simp)),
      ih fun e he => h e (by simp [he])]
    rfl

theorem hexAt_hexfield {p v : Nat} {a : List UInt8} (b : List UInt8) (hp : a.length = p)
    (hv : v < 2 ^ 32) : hexAt (a ++ (hexfield v ++ b)) p = some v := by
  rw [hexAt, drop_left' hp, take_left' (length_hexfield v), hexfield,
    mapM_hexDigit (digits_lt (by decide)), Option.map_some, value_digits_mod]
  congr 1
  omega

theorem hexAt_inside {p k : Nat} {a b c : List UInt8} (hp : p = a.length + k)
    (hk : k + 8 ≤ b.length) : hexAt (a ++ (b ++ c)) p = hexAt b k := by
  rw [hexAt, hexAt, hp, ← drop_drop, drop_left, drop_append_of_le_length (by omega),
    take_append_of_le_length (by rw [length_drop]; omega)]

theorem hexAt_filesize (st : Stat) (nsize : Nat) (h : st.size < 2 ^ 32) :
    hexAt (header st nsize) 54 = some st.size := by
  have hsplit : header st nsize = (magic ++ hexfield st.ino ++ hexfield st.mode ++
      hexfield st.uid ++ hexfield st.gid ++ hexfield st.nlink ++ hexfield st.mtime) ++
      (hexfield st.size ++ (hexfield 0 ++ hexfield 0 ++ hexfield 0 ++ hexfield 0 ++
        hexfield nsize ++ hexfield 0)) := by
    simp only [header, append_assoc]
  rw [hsplit]
  exact hexAt_hexfield _ (by simp [magic]) h

theorem hexAt_namesize (st : Stat) (nsize : Nat) (h : nsize < 2 ^ 32) :
    hexAt (header st nsize) 94 = some nsize := by
  have hsplit : header st nsize = (magic ++ hexfield st.ino ++ hexfield st.mode ++
      hexfield st.uid ++ hexfield st.gid ++ hexfield st.nlink ++ hexfield st.mtime ++
      hexfield st.size ++ hexfield 0 ++ hexfield 0 ++ hexfield 0 ++ hexfield 0) ++
      (hexfield nsize ++ hexfield 0) := by
    simp only [header, append_assoc]
  rw [hsplit]
  exact hexAt_hexfield _ (by simp [magic]) h

theorem spells_iff {s name : List UInt8} (hs : 0 ∉ s) (hn : 0 ∉ name) (more : List UInt8) :
    Spells s (name ++ 0 :: more) ↔ s = name := by
  unfold Spells
  induction s generalizing name with
  | nil =>
    cases name with
    | nil => simp
    | cons c name =>
      have hc : c ≠ 0 := fun h => hn (by simp [h])
      simp [hc.symm]
  | cons b s ih =>
    have hb : b ≠ 0 := fun h => hs (by simp [h])
    cases name with
    | nil => simp [hb]
    | cons c name =>
      have hn' : 0 ∉ name := fun h => hn (by simp [h])
      simp [cons_prefix_cons, ih (fun h => hs (by simp [h])) hn']

theorem nul_not_within {s : List UInt8} (hs : 0 ∉ s) (name more : List UInt8) :
    ¬ name ++ 0 :: more <+: s := fun h => hs (h.subset (by simp))

theorem skipSlash_append (name more : List UInt8) :
    skipSlash (name ++ 0 :: more) = skipSlash name ++ 0 :: more := by
  cases name with
  | nil => rfl
  | cons c name =>
    unfold skipSlash
    split
    · rename_i heq
      cases heq
      rfl
    · rename_i hne
      split
      · rename_i heq
        cases heq
        exact absurd rfl (hne _)
      · rfl

theorem skipSlash_subset {s : List UInt8} {b : UInt8} (h : b ∉ s) : b ∉ skipSlash s := by
  unfold skipSlash
  split
  · exact fun hm => h (mem_cons_of_mem _ hm)
  · exact h

/-- Where the contents of an entry are, from its beginning. -/
def dataOff (name : List UInt8) : Nat := (110 + (name.length + 1) + 3) / 4 * 4

/-- An entry in an image, and what the reader makes of its header. -/
structure At (img pre : List UInt8) (st : Stat) (name d : List UInt8) : Prop where
  holds : ∃ post, img = pre ++ (entryBytes st name d ++ post)
  small : img.length < 2 ^ 64
  noNul : 0 ∉ name
  short : name.length < 4096
  size : st.size = d.length
  fits : d.length < 2 ^ 32

namespace At

variable {pre name d : List UInt8} {st : Stat} (h : At img pre st name d)
include h

theorem length_le : pre.length + (dataOff name + (d.length + 3) / 4 * 4) ≤ img.length := by
  obtain ⟨post, himg⟩ := h.holds
  have : img.length = pre.length + ((entryBytes st name d).length + post.length) := by
    rw [himg]
    simp
  simp only [entryBytes, length_append, length_padded, length_header,
    length_singleton] at this
  unfold dataOff
  omega

theorem nameOn_eq : ∃ more, nameOn img pre.length = name ++ 0 :: more := by
  obtain ⟨post, himg⟩ := h.holds
  have hsplit : img = (pre ++ header st (name.length + 1)) ++ (name ++ 0 ::
      (List.replicate ((4 - (header st (name.length + 1) ++ (name ++ [0])).length % 4) % 4) 0 ++
        (padded d ++ post))) := by
    rw [himg, entryBytes, padded]
    simp
  rw [nameOn, hsplit, drop_left' (by simp)]
  exact ⟨_, rfl⟩

theorem data : (img.drop (pre.length + dataOff name)).take d.length = d := by
  obtain ⟨post, himg⟩ := h.holds
  have hlen : (padded (header st (name.length + 1) ++ (name ++ [0]))).length = dataOff name := by
    rw [length_padded]
    simp [dataOff]
  have hsplit : img = (pre ++ padded (header st (name.length + 1) ++ (name ++ [0]))) ++
      (d ++ (List.replicate ((4 - d.length % 4) % 4) 0 ++ post)) := by
    rw [himg, entryBytes, padded, padded]
    simp
  rw [hsplit, drop_left' (by rw [length_append, hlen]), take_left]

theorem entryAt_eq : entryAt img pre.length = some ⟨pre.length + dataOff name, d.length⟩ := by
  obtain ⟨post, himg⟩ := h.holds
  have hle := h.length_le
  have hshort := h.short
  have hround : round4 (110 + (name.length + 1)) = dataOff name := round4_eq (by omega)
  have hmagic : (img.drop pre.length).take 6 = magic := by
    rw [himg, drop_left, entryBytes, padded, header]
    simp only [append_assoc]
    exact take_left' rfl
  have hfield : ∀ k, k + 8 ≤ 110 →
      hexAt img (pre.length + k) = hexAt (header st (name.length + 1)) k := by
    intro k hk
    rw [himg, entryBytes, padded]
    simp only [append_assoc]
    exact hexAt_inside rfl (by simpa using hk)
  have hsize := (hfield 54 (by decide)).trans (hexAt_filesize st _ (h.size ▸ h.fits))
  have hname := (hfield 94 (by decide)).trans (hexAt_namesize st _ (by omega))
  have hdata : 110 + (name.length + 1) ≤ dataOff name := by
    unfold dataOff
    omega
  rw [entryAt, if_pos ⟨by omega, hmagic⟩, hsize, hname, h.size]
  dsimp only
  rw [hround]
  exact if_pos ⟨by omega, by omega, by omega⟩

/-- An entry that is neither the trailer nor the file is stepped over; the file is found. -/
theorem walk_eq (h0 : 0 ∉ want) (fuel : Nat) : walk img image want (fuel + 1) pre.length =
      if name = trailer then .missing
      else if skipSlash name = want then
        .found (wrap64 (image + (pre.length + dataOff name))) d.length
      else walk img image want fuel (pre.length + (entryBytes st name d).length) := by
  obtain ⟨more, hmore⟩ := h.nameOn_eq
  have hle := h.length_le
  have hsmall := h.small
  have hd := h.fits
  have hnext : wrap64 (pre.length + dataOff name + round4 d.length) =
      pre.length + (entryBytes st name d).length := by
    rw [round4_eq (by omega), wrap64_eq (by omega)]
    simp only [entryBytes, length_append, length_padded, length_header,
      length_singleton, dataOff]
    omega
  have hlow : 110 ≤ dataOff name := by
    unfold dataOff
    omega
  rw [walk_succ (by rw [wrap64_eq (by omega)]; omega), look_name hsmall h0 h.entryAt_eq, hmore,
    skipSlash_append, hnext, if_neg (nul_not_within zero_notMem_trailer _ _),
    if_neg (nul_not_within h0 _ _)]
  have htrailer := spells_iff zero_notMem_trailer h.noNul more
  have hwant := spells_iff h0 (skipSlash_subset h.noNul) more
  by_cases ht : name = trailer
  · rw [if_pos (htrailer.2 ht.symm), if_pos ht]
  · rw [if_neg fun hs => ht (htrailer.1 hs).symm, if_neg ht]
    by_cases hw : skipSlash name = want
    · rw [if_pos (hwant.2 hw.symm), if_pos hw]
    · rw [if_neg fun hs => hw (hwant.1 hs).symm, if_neg hw]

end At

/-! ## Finding a file -/

/-- Two names are one, a leading slash aside. -/
def SameName (a b : List UInt8) : Prop := skipSlash a = skipSlash b

instance (a b : List UInt8) : Decidable (SameName a b) := inferInstanceAs (Decidable (_ = _))

/-- The outcome is where these bytes are. -/
def Delimits (img : List UInt8) (image : Nat) (contents : List UInt8) (o : Outcome) : Prop :=
  ∃ data, o = .found (image + data) contents.length ∧ data + contents.length ≤ img.length ∧
    (img.drop data).take contents.length = contents

/-- The rest of an archive from a header on. -/
structure Rest (img pre : List UInt8) (files : List Vcpio.File) : Prop where
  holds : img = pre ++ (files.flatMap Vcpio.File.bytes ++ trailerBytes)
  small : img.length < 2 ^ 64
  ok : ∀ f ∈ files, f.Ok
  size : ∀ f ∈ files, f.st.size = f.contents.length

namespace Rest

variable {pre : List UInt8} {f : Vcpio.File} {files : List Vcpio.File}

theorem head (h : Rest img pre (f :: files)) : At img pre f.st f.name f.contents where
  holds := ⟨files.flatMap Vcpio.File.bytes ++ trailerBytes, by
    rw [h.holds, flatMap_cons, append_assoc]
    rfl⟩
  small := h.small
  noNul := (h.ok f (by simp)).noNul
  short := (h.ok f (by simp)).short
  size := h.size f (by simp)
  fits := (h.ok f (by simp)).size

theorem tail (h : Rest img pre (f :: files)) : Rest img (pre ++ f.bytes) files where
  holds := by
    rw [h.holds, flatMap_cons]
    simp only [append_assoc]
  small := h.small
  ok g hg := h.ok g (by simp [hg])
  size g hg := h.size g (by simp [hg])

theorem last (h : Rest img pre []) : At img pre ⟨0, 0, 0, 0, 1, 0, 0⟩ trailer [] where
  holds := ⟨[], by rw [h.holds]; simp [trailerBytes]⟩
  small := h.small
  noNul := zero_notMem_trailer
  short := by decide
  size := rfl
  fits := by decide

theorem length_le (h : Rest img pre files) : pre.length + 110 * files.length < img.length := by
  induction files generalizing pre with
  | nil =>
    have := h.last.length_le
    simp only [dataOff, trailer, length_cons, length_nil] at this ⊢
    omega
  | cons f files ih =>
    have := ih h.tail
    have hbytes : 110 ≤ f.bytes.length := by
      simp only [Vcpio.File.bytes, entryBytes, length_append, length_padded, length_header]
      omega
    rw [length_append] at this
    rw [length_cons]
    omega

theorem walk_missing (h : Rest img pre files) (h0 : 0 ∉ want) {fuel : Nat}
    (hfuel : files.length < fuel) (hne : ∀ g ∈ files, skipSlash g.name ≠ want) :
    walk img image want fuel pre.length = .missing := by
  induction files generalizing pre fuel with
  | nil =>
    obtain ⟨fuel, rfl⟩ := Nat.exists_eq_succ_of_ne_zero (show fuel ≠ 0 by omega)
    rw [h.last.walk_eq h0, if_pos rfl]
  | cons f files ih =>
    obtain ⟨fuel, rfl⟩ := Nat.exists_eq_succ_of_ne_zero (show fuel ≠ 0 by omega)
    rw [length_cons] at hfuel
    have hrest := ih h.tail (show _ < fuel by omega) fun g hg => hne g (by simp [hg])
    rw [h.head.walk_eq h0, if_neg (h.ok f (by simp)).notTrailer, if_neg (hne f (by simp)), ← hrest,
      length_append]
    rfl

theorem walk_found {before after : List Vcpio.File} (h : Rest img pre (before ++ f :: after))
    (h0 : 0 ∉ want) {fuel : Nat} (hfuel : before.length < fuel)
    (hne : ∀ g ∈ before, skipSlash g.name ≠ want) (hf : skipSlash f.name = want)
    (himage : image + img.length < 2 ^ 64) :
    Delimits img image f.contents (walk img image want fuel pre.length) := by
  induction before generalizing pre fuel with
  | nil =>
    obtain ⟨fuel, rfl⟩ := Nat.exists_eq_succ_of_ne_zero (show fuel ≠ 0 by omega)
    have hle := h.head.length_le
    refine ⟨pre.length + dataOff f.name, ?_, by omega, h.head.data⟩
    rw [h.head.walk_eq h0, if_neg (h.ok f (by simp)).notTrailer, if_pos hf, wrap64_eq (by omega)]
  | cons g before ih =>
    obtain ⟨fuel, rfl⟩ := Nat.exists_eq_succ_of_ne_zero (show fuel ≠ 0 by omega)
    rw [length_cons] at hfuel
    have hrest := ih h.tail (show _ < fuel by omega) fun g hg => hne g (by simp [hg])
    rw [h.head.walk_eq h0, if_neg (h.ok g (by simp)).notTrailer, if_neg (hne g (by simp))]
    rwa [length_append] at hrest

end Rest

/-- Archives of `do_create` are found as they were written, and `cpio_find` on any image whatever
ends, without a read outside the image exactly when every name it compares ends inside. -/
theorem initrd_readable (want : List UInt8) (h0 : 0 ∉ want) :
    (∀ (fs : Vcpio.Fs) (files : List Vcpio.File) (image : Nat),
      (∀ f ∈ files, f.Ok) → (∀ f ∈ files, f.On fs) →
      image + (doCreate fs (listing files)).length < 2 ^ 64 →
      (∀ before f after, files = before ++ f :: after → SameName f.name want →
        (∀ g ∈ before, ¬ SameName g.name want) →
        Delimits (doCreate fs (listing files)) image f.contents
          (cpioFind (doCreate fs (listing files)) image want)) ∧
      ((∀ f ∈ files, ¬ SameName f.name want) →
        cpioFind (doCreate fs (listing files)) image want = .missing)) ∧
    ∀ (img : List UInt8) (image : Nat), img.length + 2 ^ 33 ≤ 2 ^ 64 →
      cpioFind img image want ≠ .running ∧
        (cpioFind img image want ≠ .fault ↔ NamesEnd img (skipSlash want)) := by
  refine ⟨fun fs files image hok hon himage => ?_, fun img image hlen =>
    cpioFind_spec hlen (skipSlash_subset h0)⟩
  have hrest : Rest (doCreate fs (listing files)) [] files :=
    ⟨doCreate_files files hok hon, by omega, hok, fun f hf => (hon f hf).1⟩
  have hfuel : files.length < (doCreate fs (listing files)).length + 1 := by
    have := hrest.length_le
    omega
  refine ⟨fun before f after hfiles hf hne => ?_, fun hne => ?_⟩
  · subst hfiles
    refine hrest.walk_found (skipSlash_subset h0) ?_ hne hf himage
    rw [length_append] at hfuel
    omega
  · exact hrest.walk_missing (skipSlash_subset h0) hfuel hne

/-- A file `init` with three bytes in it. -/
def initFile : Vcpio.File :=
  ⟨[105, 110, 105, 116], { ino := 7, mode := 0o100755, uid := 0, gid := 0, nlink := 1, mtime := 9, size := 3 },
    [1, 2, 3]⟩

def initFs : Vcpio.Fs := fun path =>
  if path = initFile.name then some (.reg initFile.st (some initFile.contents)) else none

theorem initFile_ok : initFile.Ok :=
  ⟨by decide, by decide, by decide, by decide, by decide, by decide⟩

/-- `/init` is found in the archive of `init`, and `/bin` is not. -/
theorem initrd_readable_init : Delimits (doCreate initFs (listing [initFile])) 0 [1, 2, 3]
      (cpioFind (doCreate initFs (listing [initFile])) 0 [47, 105, 110, 105, 116]) ∧
    cpioFind (doCreate initFs (listing [initFile])) 0 [47, 98, 105, 110] = .missing ∧
    cpioFind [48, 55] 0 [97] ≠ .running := by
  have hok : ∀ f ∈ [initFile], f.Ok := by
    intro f hf
    rw [mem_singleton.1 hf]
    exact initFile_ok
  have hon : ∀ f ∈ [initFile], f.On initFs := by
    intro f hf
    rw [mem_singleton.1 hf]
    exact ⟨rfl, rfl⟩
  have hlen : 0 + (doCreate initFs (listing [initFile])).length < 2 ^ 64 := by decide +kernel
  exact ⟨((initrd_readable [47, 105, 110, 105, 116] (by decide)).1 initFs [initFile] 0 hok hon
      hlen).1 [] initFile [] rfl (by decide) (by simp),
    ((initrd_readable [47, 98, 105, 110] (by decide)).1 initFs [initFile] 0 hok hon hlen).2
      (by decide),
    ((initrd_readable [97] (by decide)).2 [48, 55] 0 (by decide)).1⟩

/-- A header whose name has two bytes, and the two bytes, at the end of an image. -/
def unendedName : List UInt8 := header ⟨0, 0, 0, 0, 1, 0, 0⟩ 2 ++ [97, 98]

/-- Looking for `ab`, `cpio_find` reads the byte after the image. -/
theorem unended_name_read : cpioFind unendedName 0 [97, 98] = .fault := by decide +kernel

end Verkos.Stam
