import Verkos.Lib.Digits
import Mathlib.Data.List.TakeWhile

/-!
# Writing a cpio archive

`do_create` reads names, one a line, and writes an entry in the newc format for each of them: a
header of hexadecimal fields, the name with its NUL, the contents, both padded to four by the
running position `pos`. What the names lead to is the `Fs` the tool runs on.
-/

namespace Verkos.Vcpio

open Lib.Digits
open List

/-- The fields of `struct stat` that an entry has. -/
structure Stat where
  ino : Nat
  mode : Nat
  uid : Nat
  gid : Nat
  nlink : Nat
  mtime : Nat
  size : Nat

/-- What `lstat` finds. A regular file may refuse to be opened and a symbolic link to be read. -/
inductive Node
  | reg (st : Stat) (contents : Option (List UInt8))
  | lnk (st : Stat) (target : Option (List UInt8))
  | other (st : Stat)

abbrev Fs := List UInt8 → Option Node

/-- A hexadecimal digit. -/
def hexDigit (d : Nat) : UInt8 := if d < 10 then UInt8.ofNat (48 + d) else UInt8.ofNat (87 + d)

/-- `hexfield`: `%08x` of a 32-bit number. -/
def hexfield (v : Nat) : List UInt8 := (digits 16 8 (v % 2 ^ 32)).map hexDigit

/-- `"070701"`. -/
def magic : List UInt8 := [48, 55, 48, 55, 48, 49]

/-- `"TRAILER!!!"`. -/
def trailer : List UInt8 := [84, 82, 65, 73, 76, 69, 82, 33, 33, 33]

/-- What has been written, and the position `pos` the tool keeps beside it. -/
structure Out where
  bytes : List UInt8
  pos : Nat

/-- `pad4`, with the loop that brings the position up after it. -/
def Out.pad4 (o : Out) : Out :=
  ⟨o.bytes ++ List.replicate ((4 - o.pos % 4) % 4) 0, o.pos + (4 - o.pos % 4) % 4⟩

/-- A header: the magic and thirteen fields. -/
def header (st : Stat) (nsize : Nat) : List UInt8 :=
  magic ++ hexfield st.ino ++ hexfield st.mode ++ hexfield st.uid ++ hexfield st.gid ++
    hexfield st.nlink ++ hexfield st.mtime ++ hexfield st.size ++
    hexfield 0 ++ hexfield 0 ++ hexfield 0 ++ hexfield 0 ++ hexfield nsize ++ hexfield 0

/-- `write_entry`. -/
def writeEntry (o : Out) (name : List UInt8) (st : Stat) (data : Option (List UInt8)) : Out :=
  let nsize := name.length + 1
  let o := Out.pad4 ⟨o.bytes ++ header st nsize ++ (name ++ [0]), o.pos + 110 + nsize⟩
  match data with
  | some d => if st.size ≠ 0 then Out.pad4 ⟨o.bytes ++ d.take st.size, o.pos + st.size⟩ else o
  | none => o

/-- What is left in `line` once the newline is cut off, as a string. -/
def chomp (line : List UInt8) : List UInt8 := line.takeWhile fun b => b ≠ 10 ∧ b ≠ 0

/-- `fgets` with a buffer of 4096, over and over: a line ends after a newline or after 4095 bytes. -/
def fgetsLines (cur : List UInt8) : List UInt8 → List (List UInt8)
  | [] => if cur = [] then [] else [cur]
  | b :: rest =>
    if b = 10 ∨ cur.length + 1 = 4095 then (cur ++ [b]) :: fgetsLines [] rest
    else fgetsLines (cur ++ [b]) rest

/-- One turn of `do_create`'s loop. -/
def addLine (fs : Fs) (o : Out) (line : List UInt8) : Out :=
  let name := chomp line
  if name = [] then o
  else
    match fs name with
    | none => o
    | some (.reg _ none) => o
    | some (.reg st (some contents)) =>
      let d := contents.take st.size
      writeEntry o name { st with size := d.length } (some d)
    | some (.lnk _ none) => o
    | some (.lnk st (some target)) =>
      let t := target.take 4095
      writeEntry o name { st with size := t.length } (some t)
    | some (.other st) => writeEntry o name { st with size := 0 } none

/-- `do_create`: the bytes of the archive. -/
def doCreate (fs : Fs) (stdin : List UInt8) : List UInt8 :=
  (writeEntry ((fgetsLines [] stdin).foldl (addLine fs) ⟨[], 0⟩) trailer
    ⟨0, 0, 0, 0, 1, 0, 0⟩ none).bytes

/-! ## What an archive is made of -/

/-- Zero bytes up to a multiple of four. -/
def padded (l : List UInt8) : List UInt8 := l ++ List.replicate ((4 - l.length % 4) % 4) 0

/-- An entry by itself. -/
def entryBytes (st : Stat) (name data : List UInt8) : List UInt8 :=
  padded (header st (name.length + 1) ++ (name ++ [0])) ++ padded data

/-- A position that says how much has been written, at the beginning of an entry. -/
structure Out.Aligned (o : Out) : Prop where
  pos : o.pos = o.bytes.length
  four : 4 ∣ o.pos

@[simp] theorem length_hexfield (v : Nat) : (hexfield v).length = 8 := by simp [hexfield]

@[simp] theorem length_header (st : Stat) (nsize : Nat) : (header st nsize).length = 110 := by
  simp [header, magic]

theorem length_padded (l : List UInt8) : (padded l).length = (l.length + 3) / 4 * 4 := by
  simp [padded]
  omega

variable {o : Out} {name : List UInt8} {fs : Fs}

/-- Padding by the position is padding what was written since it was aligned. -/
theorem Out.Aligned.pad4 (h : o.Aligned) (l : List UInt8) :
    Out.pad4 ⟨o.bytes ++ l, o.pos + l.length⟩ = ⟨o.bytes ++ padded l, o.pos + (padded l).length⟩ ∧
    Out.Aligned ⟨o.bytes ++ padded l, o.pos + (padded l).length⟩ := by
  obtain ⟨k, hk⟩ := h.four
  have hmod : (o.pos + l.length) % 4 = l.length % 4 := by omega
  refine ⟨?_, ⟨by simp [h.pos], ?_⟩⟩
  · rw [Out.pad4, hmod, length_padded, padded, append_assoc, Out.mk.injEq]
    exact ⟨rfl, by dsimp only; omega⟩
  · rw [length_padded]
    dsimp only
    omega

theorem writeEntry_eq (h : o.Aligned) {st : Stat} {d : List UInt8} (hs : st.size = d.length) :
    writeEntry o name st (some d) =
        ⟨o.bytes ++ entryBytes st name d, o.pos + (entryBytes st name d).length⟩ ∧
      (writeEntry o name st (some d)).Aligned := by
  obtain ⟨hhead, ha⟩ := h.pad4 (header st (name.length + 1) ++ (name ++ [0]))
  obtain ⟨hdata, hb⟩ := ha.pad4 d
  have heq : writeEntry o name st (some d) =
      ⟨o.bytes ++ entryBytes st name d, o.pos + (entryBytes st name d).length⟩ := by
    have hlen : o.pos + 110 + (name.length + 1) =
        o.pos + (header st (name.length + 1) ++ (name ++ [0])).length := by
      simp
      omega
    unfold writeEntry
    dsimp only
    rw [append_assoc, hlen, hhead, hs, take_length]
    unfold entryBytes
    split
    · rw [hdata]
      simp [Nat.add_assoc]
    · rename_i hd
      obtain rfl : d = [] := length_eq_zero_iff.1 (not_not.1 hd)
      simp [padded]
  refine ⟨heq, ?_⟩
  rw [heq]
  refine ⟨by simp [h.pos], ?_⟩
  have h4 := hb.four
  simp only [entryBytes, length_append] at h4 ⊢
  omega

/-- The trailer has no contents, so no data is handed to it. -/
theorem writeEntry_none (o : Out) (name : List UInt8) {st : Stat} (hs : st.size = 0) :
    writeEntry o name st none = writeEntry o name st (some []) := by
  simp [writeEntry, hs]

/-- A regular file: its path, what `lstat` says of it, what is in it. -/
structure File where
  name : List UInt8
  st : Stat
  contents : List UInt8

/-- A file that a line of the input can name: not the trailer, and with a size that a header can
say. -/
structure File.Ok (f : File) : Prop where
  nonempty : f.name ≠ []
  noNul : 0 ∉ f.name
  noNewline : 10 ∉ f.name
  short : f.name.length < 4096
  notTrailer : f.name ≠ trailer
  size : f.contents.length < 2 ^ 32

/-- The file is there. -/
def File.On (f : File) (fs : Fs) : Prop :=
  f.st.size = f.contents.length ∧ fs f.name = some (.reg f.st (some f.contents))

/-- The names of some files, one a line. -/
def listing (files : List File) : List UInt8 := files.flatMap fun f => f.name ++ [10]

def File.bytes (f : File) : List UInt8 := entryBytes f.st f.name f.contents

/-- The entry after the last file. -/
def trailerBytes : List UInt8 := entryBytes ⟨0, 0, 0, 0, 1, 0, 0⟩ trailer []

theorem fgetsLines_line (h : 10 ∉ name) (cur rest : List UInt8)
    (hlen : cur.length + name.length < 4095) :
    fgetsLines cur (name ++ 10 :: rest) = (cur ++ name ++ [10]) :: fgetsLines [] rest := by
  induction name generalizing cur with
  | nil => simp [fgetsLines]
  | cons b name ih =>
    have hb : b ≠ 10 := fun hb => h (by simp [hb])
    rw [length_cons] at hlen
    rw [cons_append, fgetsLines, if_neg (by simp [hb]; omega),
      ih (fun hm => h (by simp [hm])) _ (by simp; omega)]
    simp

theorem fgetsLines_full (h : 10 ∉ name) (hne : name ≠ [])
    (cur rest : List UInt8) (hlen : cur.length + name.length = 4095) :
    fgetsLines cur (name ++ 10 :: rest) = (cur ++ name) :: [10] :: fgetsLines [] rest := by
  induction name generalizing cur with
  | nil => exact absurd rfl hne
  | cons b name ih =>
    have hb : b ≠ 10 := fun hb => h (by simp [hb])
    rw [length_cons] at hlen
    rw [cons_append, fgetsLines]
    cases name with
    | nil =>
      rw [if_pos (by simp at hlen ⊢; omega)]
      simp [fgetsLines]
    | cons c name =>
      rw [if_neg (by simp at hlen ⊢; simp [hb]; omega),
        ih (fun hm => h (by simp [hm])) (by simp) _ (by simp at hlen ⊢; omega)]
      simp

theorem chomp_eq (h0 : 0 ∉ name) (h10 : 10 ∉ name) (l : List UInt8) :
    chomp (name ++ 10 :: l) = name ∧ chomp name = name := by
  have hall : ∀ b ∈ name, b ≠ 10 ∧ b ≠ 0 :=
    fun b hb => ⟨fun h => h10 (h ▸ hb), fun h => h0 (h ▸ hb)⟩
  unfold chomp
  refine ⟨?_, ?_⟩
  · rw [takeWhile_append_of_pos fun b hb => by simpa using hall b hb]
    simp
  · rw [takeWhile_eq_self_iff]
    exact fun b hb => by simpa using hall b hb

theorem addLine_newline (fs : Fs) (o : Out) : addLine fs o [10] = o := by
  simp [addLine, chomp]

/-- The line of a file adds its entry. -/
theorem addLine_file {f : File} (hok : f.Ok) (hon : f.On fs) (h : o.Aligned)
    {line : List UInt8} (hline : chomp line = f.name) :
    addLine fs o line = ⟨o.bytes ++ f.bytes, o.pos + f.bytes.length⟩ ∧
      (addLine fs o line).Aligned := by
  obtain ⟨hsize, hfs⟩ := hon
  have hst : ({ f.st with size := (f.contents.take f.st.size).length } : Stat) = f.st := by
    rw [hsize, take_length, ← hsize]
  have heq : addLine fs o line = writeEntry o f.name f.st (some f.contents) := by
    simp only [addLine, hline, if_neg hok.nonempty, hfs, hst]
    rw [hsize, take_length]
  rw [heq]
  exact writeEntry_eq h hsize

/-- What the loop of `do_create` has written after the files. -/
theorem foldl_addLine (files : List File) (hok : ∀ f ∈ files, f.Ok)
    (hon : ∀ f ∈ files, f.On fs) (h : o.Aligned) :
    ((fgetsLines [] (listing files)).foldl (addLine fs) o).bytes =
        o.bytes ++ files.flatMap File.bytes ∧
      ((fgetsLines [] (listing files)).foldl (addLine fs) o).Aligned := by
  induction files generalizing o with
  | nil => simpa [listing, fgetsLines] using h
  | cons f files ih =>
    have hf := hok f (by simp)
    have hchomp := chomp_eq hf.noNul hf.noNewline
    have hlist : listing (f :: files) = f.name ++ 10 :: listing files := by simp [listing]
    have hfold : (fgetsLines [] (listing (f :: files))).foldl (addLine fs) o =
        (fgetsLines [] (listing files)).foldl (addLine fs)
          ⟨o.bytes ++ f.bytes, o.pos + f.bytes.length⟩ := by
      rw [hlist]
      by_cases hshort : f.name.length < 4095
      · have ha := (addLine_file hf (hon f (by simp)) h (hchomp []).1).1
        rw [fgetsLines_line hf.noNewline [] _ (by simpa using hshort), foldl_cons,
          nil_append, ha]
      · have hfull : f.name.length = 4095 := by have := hf.short; omega
        have ha := (addLine_file hf (hon f (by simp)) h (hchomp []).2).1
        rw [fgetsLines_full hf.noNewline hf.nonempty [] _ (by simpa using hfull), foldl_cons,
          foldl_cons, nil_append, ha, addLine_newline]
    have hal := (addLine_file hf (hon f (by simp)) h (hchomp []).1).2
    rw [(addLine_file hf (hon f (by simp)) h (hchomp []).1).1] at hal
    obtain ⟨hbytes, hal'⟩ := ih (fun g hg => hok g (by simp [hg])) (fun g hg => hon g (by simp [hg]))
      hal
    rw [hfold]
    exact ⟨by rw [hbytes]; simp, hal'⟩

theorem doCreate_files (files : List File) (hok : ∀ f ∈ files, f.Ok) (hon : ∀ f ∈ files, f.On fs) :
    doCreate fs (listing files) = files.flatMap File.bytes ++ trailerBytes := by
  obtain ⟨hbytes, hal⟩ := foldl_addLine files hok hon (o := ⟨[], 0⟩) ⟨rfl, ⟨0, rfl⟩⟩
  rw [doCreate, writeEntry_none _ _ rfl, (writeEntry_eq hal rfl).1, hbytes]
  rfl

end Verkos.Vcpio
