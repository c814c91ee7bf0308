import Verkos.Sav.Note

/-!
# The executable savc writes

`write_elf` puts the headers, the code with its read-only data, and the note into one segment that
begins the file, and gives the globals a second segment that has no bytes in the file. A section
table for readers follows; no loader looks at it.

Nothing here depends on which 32 bits an instruction becomes, so `word` stands for the encoders.
-/

namespace Verkos.Sav

open List

/-- `w16`. -/
def put16 (n : Nat) : List UInt8 := [UInt8.ofNat n, UInt8.ofNat (n / 256)]

/-- `w64`. -/
def put64 (n : Nat) : List UInt8 := put32 n ++ put32 (n / 2 ^ 32)

def baseVa : Nat := 0x400000

/-- The next multiple of `a`. -/
def roundUp (a n : Nat) : Nat := (n + a - 1) / a * a

/-- Zero bytes up to an offset in the file. -/
def padTo (n : Nat) (l : List UInt8) : List UInt8 := l ++ List.replicate (n - l.length) 0

namespace Image

variable (word : Instr → BitVec 32) (img : Image)

/-- The code alone. -/
def codeBytes : List UInt8 := img.code.flatMap fun i => put32 (word i).toNat

/-- `img->text`: the code, and the read-only data from the next multiple of eight. -/
def text : List UInt8 := align8 (img.codeBytes word) ++ img.rodata

/-- `img->rodata_off`. -/
def rodataAt : Nat := (align8 (img.codeBytes word)).length

/-- `img->bss_size`, a `size_t`. -/
def bssBytes : Nat := (img.bssSize % 2 ^ 64).toNat

/-- `img->entry`: `gen_start` is the first thing in the code. -/
def entry (_ : Image) : Nat := textVa

def textOff : Nat := textVa - baseVa

/-- `note_off`. -/
def noteOff : Nat := roundUp 4 (textOff + (img.text word).length)

/-- `seg1_size`: everything up to the end of the note is loaded. -/
def seg1Size : Nat := img.noteOff word + (buildNote img).length

/-- `data_off`, where the names of the sections also are. -/
def dataOff : Nat := roundUp 4096 (img.seg1Size word)

/-- `phdr`. -/
def phdr (type flags off va filesz memsz align : Nat) : List UInt8 :=
  put32 type ++ put32 flags ++ put64 off ++ put64 va ++ put64 va ++ put64 filesz ++ put64 memsz ++
    put64 align

/-- `shdr`. -/
def shdr (name type flags addr off size align : Nat) : List UInt8 :=
  put32 name ++ put32 type ++ put64 flags ++ put64 addr ++ put64 off ++ put64 size ++ put32 0 ++
    put32 0 ++ put64 align ++ put64 0

/-- The names of the sections, with the NUL a C string ends in. -/
def shstr : List UInt8 :=
  [0] ++ nameBytes ".text" ++ nameBytes ".rodata" ++ nameBytes ".note.sav" ++ nameBytes ".bss" ++
    nameBytes ".shstrtab"

def shOff : Nat := roundUp 8 (img.dataOff word + shstr.length)

/-- The file header. -/
def ehdr : List UInt8 :=
  [0x7f, 69, 76, 70, 2, 1, 1, 0] ++ [0, 0, 0, 0, 0, 0, 0, 0] ++
    put16 2 ++ put16 183 ++ put32 1 ++ put64 img.entry ++ put64 64 ++ put64 (img.shOff word) ++
    put32 0 ++ put16 64 ++ put16 56 ++ put16 3 ++ put16 64 ++ put16 6 ++ put16 5

/-- The three program headers. -/
def phdrs : List UInt8 :=
  phdr 1 5 0 baseVa (img.seg1Size word) (img.seg1Size word) 0x1000 ++
    phdr 1 6 (img.dataOff word) dataVa 0 img.bssBytes 0x1000 ++
    phdr 4 4 (img.noteOff word) (baseVa + img.noteOff word) (buildNote img).length
      (buildNote img).length 4

/-- The six section headers. -/
def shdrs : List UInt8 :=
  shdr 0 0 0 0 0 0 0 ++
    shdr 1 1 0x6 textVa textOff (img.rodataAt word) 4 ++
    shdr 7 1 0x2 (textVa + img.rodataAt word) (textOff + img.rodataAt word)
      ((img.text word).length - img.rodataAt word) 8 ++
    shdr 15 7 0x2 (baseVa + img.noteOff word) (img.noteOff word) (buildNote img).length 4 ++
    shdr 25 8 0x3 dataVa (img.dataOff word) img.bssBytes 8 ++
    shdr 30 3 0 0 (img.dataOff word) shstr.length 1

/-- The first segment, as it is in the file. -/
def seg1 : List UInt8 :=
  padTo (img.noteOff word) (padTo textOff (img.ehdr word ++ img.phdrs word) ++ img.text word) ++
    buildNote img

/-- `write_elf`. -/
def writeElf : List UInt8 :=
  padTo (img.shOff word) (padTo (img.dataOff word) (img.seg1 word) ++ shstr) ++ img.shdrs word

end Image

/-! ## Where things are in the file -/

theorem length_padTo {n : Nat} {l : List UInt8} (h : l.length ≤ n) : (padTo n l).length = n := by
  unfold padTo
  rw [length_append, length_replicate]
  omega

theorem le_roundUp {a : Nat} (ha : 0 < a) (n : Nat) : n ≤ roundUp a n := by
  unfold roundUp
  have hd := Nat.div_add_mod (n + a - 1) a
  have hm := Nat.mod_lt (n + a - 1) ha
  rw [Nat.mul_comm] at hd
  omega

namespace Image

variable (word : Instr → BitVec 32) (img : Image)

@[simp] theorem length_put16 (n : Nat) : (put16 n).length = 2 := rfl

@[simp] theorem length_put32 (n : Nat) : (put32 n).length = 4 := rfl

@[simp] theorem length_put64 (n : Nat) : (put64 n).length = 8 := rfl

theorem length_ehdr : (img.ehdr word).length = 64 := by
  simp [ehdr]

theorem length_phdrs : (img.phdrs word).length = 168 := by
  simp [phdrs, phdr]

theorem length_headers : (padTo textOff (img.ehdr word ++ img.phdrs word)).length = textOff := by
  apply length_padTo
  rw [length_append, length_ehdr, length_phdrs]
  decide

theorem length_upToNote :
    (padTo (img.noteOff word) (padTo textOff (img.ehdr word ++ img.phdrs word) ++
      img.text word)).length = img.noteOff word := by
  apply length_padTo
  rw [length_append, length_headers]
  exact le_roundUp (by decide) _

theorem length_seg1 : (img.seg1 word).length = img.seg1Size word := by
  unfold seg1 seg1Size
  rw [length_append, length_upToNote]

theorem writeElf_eq_seg1 : ∃ rest, img.writeElf word = img.seg1 word ++ rest := by
  simp only [writeElf, padTo, append_assoc]
  exact ⟨_, rfl⟩

theorem writeElf_eq_headers : ∃ rest, img.writeElf word = img.ehdr word ++ (img.phdrs word ++ rest) := by
  simp only [writeElf, seg1, padTo, append_assoc]
  exact ⟨_, rfl⟩

theorem seg1_text {i : Nat} (hi : i < (img.text word).length) :
    (img.seg1 word)[textOff + i]? = some ((img.text word).get ⟨i, hi⟩) := by
  have hlen := length_headers word img
  obtain ⟨tail, htail⟩ : ∃ tail, img.seg1 word =
      padTo textOff (img.ehdr word ++ img.phdrs word) ++ (img.text word ++ tail) := by
    unfold seg1
    rw [padTo, append_assoc, append_assoc]
    exact ⟨_, rfl⟩
  rw [htail, getElem?_append_right (by omega), hlen, Nat.add_sub_cancel_left,
    getElem?_append_left hi, getElem?_eq_getElem hi]
  rfl

theorem textOff_add_le : textOff + (img.text word).length ≤ img.seg1Size word := by
  have h := le_roundUp (a := 4) (by decide) (textOff + (img.text word).length)
  unfold seg1Size noteOff
  omega

theorem seg1Size_pos : 0 < img.seg1Size word := by
  have h := textOff_add_le word img
  have hoff : 0 < textOff := by decide
  omega

theorem seg1Size_le_dataOff : img.seg1Size word ≤ img.dataOff word := le_roundUp (by decide) _

theorem dataOff_le_length : img.dataOff word ≤ (img.writeElf word).length := by
  have hseg : (padTo (img.dataOff word) (img.seg1 word)).length = img.dataOff word := by
    apply length_padTo
    rw [length_seg1]
    exact seg1Size_le_dataOff word img
  unfold writeElf
  conv_rhs => rw [length_append]
  unfold padTo at hseg ⊢
  simp only [length_append] at hseg ⊢
  omega

end Image

end Verkos.Sav
