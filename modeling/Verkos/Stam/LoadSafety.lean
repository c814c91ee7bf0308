import Verkos.Stam.Load

/-!
# What a file can make the loader touch

`elf_load` as the tree of what it touches: a byte of the image, the pages of a segment, a byte stored
through a user address. `Safe` says of such a tree that every byte it reads lies in the image and that
every byte it stores goes to a page mapped for the segment it is of. `elfLoad` in `Stam.Elf` is the
same function without the touching.

Offsets are kept to 64 bits, as pointers are. The sums that the loader checks wrap and the bytes it
then reads one by one do not, which is where the two come apart.
-/

namespace Verkos.Stam

open Verkos.Sav
open List

/-- What the loader does next: read a byte of the image, map the pages of a segment, store a byte. -/
inductive Loader (α : Type) where
  | done (a : α)
  | rd (x : Nat) (k : UInt8 → Loader α)
  | map (executable : Bool) (ps : List Nat) (k : Option ElfError → Loader α)
  | st (a : Nat) (b : UInt8) (k : Loader α)

variable {k : Nat → Loader α} {R : Prop} {i : Nat}

namespace Loader

variable {α : Type}

/-- Every read is inside the image, and every store to a user page of those mapped last. -/
def Safe (e : List UInt8) : Loader α → Pmm → Space → List Nat → Prop
  | .done _, _, _, _ => True
  | .rd x k, pm, sp, ps => ∃ h : x < e.length, (k e[x]).Safe e pm sp ps
  | .map x ps k, pm, sp, _ =>
    (k (mapPages x pm sp ps).2.2).Safe e (mapPages x pm sp ps).1 (mapPages x pm sp ps).2.1 ps
  | .st a _ k, pm, sp, ps => (a < userTop ∧ a / 4096 ∈ ps) ∧ k.Safe e pm sp ps

/-! ## Reading -/

/-- `e[x]`, with `x` a pointer's offset. -/
def byte (x : Nat) (k : UInt8 → Loader α) : Loader α := .rd (x % 2 ^ 64) k

/-- `le16(e + x)`. -/
def le16 (x : Nat) (k : Nat → Loader α) : Loader α :=
  byte x fun a => byte (x + 1) fun b => k (a.toNat + 256 * b.toNat)

/-- `le32(e + x)`. -/
def le32 (x : Nat) (k : Nat → Loader α) : Loader α :=
  byte x fun a => byte (x + 1) fun b => byte (x + 2) fun c => byte (x + 3) fun d =>
    k (a.toNat + 256 * b.toNat + 65536 * c.toNat + 16777216 * d.toNat)

/-- `le64(e + x)`. -/
def le64 (x : Nat) (k : Nat → Loader α) : Loader α :=
  le32 x fun lo => le32 (x + 4) fun hi => k (lo + 2 ^ 32 * hi)

/-- Whether the bytes at `x` are these, compared up to the first that is not. -/
def isName (x : Nat) : List UInt8 → (Bool → Loader α) → Loader α
  | [], k => k true
  | c :: cs, k => byte x fun b => if b = c then isName (x + 1) cs k else k false

/-- `n` words from `x` on. -/
def words (x : Nat) : Nat → (List Nat → Loader α) → Loader α
  | 0, k => k []
  | n + 1, k => le32 x fun w => words (x + 4) n fun ws => k (w :: ws)

/-- `n` bytes from `x` on. -/
def bytes (x : Nat) : Nat → (List UInt8 → Loader α) → Loader α
  | 0, k => k []
  | n + 1, k => byte x fun b => bytes (x + 1) n fun bs => k (b :: bs)

/-! ## The loader -/

/-- `read_sav_note`. -/
def readSavNote (size off len : Nat) (out : SavManifest) (k : SavManifest → Loader α) : Loader α :=
  if size < (off + len) % 2 ^ 64 ∨ len < 16 then k out
  else
    le32 off fun namesz => le32 (off + 4) fun descsz => le32 (off + 8) fun type =>
      let descAt := 12 + (namesz + 3) % 2 ^ 32 / 4 * 4
      if len < descAt + descsz then k out
      else if type ≠ 1 ∨ namesz ≠ 4 then k out
      else
        isName (off + 12) [115, 97, 118, 0] fun named =>
          if named = false then k out
          else
            let d := off + descAt
            if descsz < 16 then k out
            else
              le32 d fun magic =>
                if magic ≠ savMagic then k out
                else
                  le32 (d + 4) fun version =>
                    if version ≠ 1 then k out
                    else
                      le32 (d + 8) fun ncalls => le32 (d + 12) fun nameslen =>
                        if descsz < 16 + ncalls * 4 + nameslen then k out
                        else if savMaxCalls < ncalls then k out
                        else
                          words (d + 16) ncalls fun call =>
                            bytes (d + 16 + ncalls * 4) (min nameslen (savCapsBytes - 1)) fun names =>
                              k ⟨true, call, capsLine names⟩

/-- `for (b = 0; b < filesz; b++) dst[b] = src[b]`. -/
def copy (dst src : Nat) : Nat → Loader α → Loader α
  | 0, k => k
  | n + 1, k => byte src fun b => .st (dst % 2 ^ 64) b (copy (dst + 1) (src + 1) n k)

/-- A `PT_LOAD` segment. -/
def loadSegment (size i : Nat) (ph : Phdr) (k : Option ElfError → Loader α) : Loader α :=
  if size < (ph.offset + ph.filesz) % 2 ^ 64 then k (some (.pastEnd i))
  else if ph.memsz < ph.filesz then k (some (.lessMemory i))
  else
    .map ph.executable ph.pages fun err =>
      match err with
      | some err => k (some err)
      | none => copy ph.vaddr ph.offset ph.filesz (k none)

/-- The walk over `n` program headers from the `i`-th on, `ph` being where that one is. -/
def loadHeaders (size phentsize : Nat) :
    Nat → Nat → Nat → SavManifest → Nat →
      (SavManifest → Nat → Option ElfError → Loader α) → Loader α
  | 0, _, _, m, loaded, k => k m loaded none
  | n + 1, i, ph, m, loaded, k =>
    le32 ph fun type =>
      if type = ptNote then
        le64 (ph + 8) fun off => le64 (ph + 32) fun len =>
          readSavNote size off len m fun m =>
            loadHeaders size phentsize n (i + 1) (ph + phentsize) m loaded k
      else if type = ptLoad then
        le32 (ph + 4) fun flags => le64 (ph + 8) fun offset => le64 (ph + 16) fun vaddr =>
          le64 (ph + 32) fun filesz => le64 (ph + 40) fun memsz =>
            loadSegment size i { type, flags, offset, vaddr, filesz, memsz } fun err =>
              match err with
              | some err => k m loaded (some err)
              | none => loadHeaders size phentsize n (i + 1) (ph + phentsize) m (loaded + 1) k
      else loadHeaders size phentsize n (i + 1) (ph + phentsize) m loaded k

/-- `elf_load` of an image of `size` bytes: the manifest, and the entry point or why not. -/
def elfLoad (size : Nat) : Loader (SavManifest × Except ElfError Nat) :=
  let refuse (m : SavManifest) (err : ElfError) : Loader (SavManifest × Except ElfError Nat) :=
    .done (m, .error err)
  if size < 64 then refuse noManifest .tooSmall
  else
    isName 0 [0x7f, 69, 76, 70] fun magic =>
      if magic = false then refuse noManifest .noMagic
      else
        byte 4 fun cls =>
          if cls ≠ 2 then refuse noManifest .not64Bit
          else
            byte 5 fun data =>
              if data ≠ 1 then refuse noManifest .notLittleEndian
              else
                le16 18 fun machine =>
                  if machine ≠ 183 then refuse noManifest (.machine machine)
                  else
                    le64 32 fun phoff => le16 54 fun phentsize => le16 56 fun phnum =>
                      if phnum = 0 ∨ size < (phoff + phnum * phentsize) % 2 ^ 64 then
                        refuse noManifest .headersOutside
                      else
                        loadHeaders size phentsize phnum 0 phoff noManifest 0 fun m loaded err =>
                          match err with
                          | some err => refuse m err
                          | none =>
                            if loaded = 0 then refuse m .nothingToLoad
                            else le64 24 fun entry => .done (m, .ok entry)

/-! ## What a read takes -/

variable {e : List UInt8} {pm pm' : Pmm} {sp sp' : Space} {ps : List Nat} {x n : Nat}

theorem le32_drop (h : x + 4 ≤ e.length) :
    Sav.le32 (e.drop x) = e[x].toNat + 256 * e[x + 1].toNat + 65536 * e[x + 2].toNat +
      16777216 * e[x + 3].toNat := by
  rw [drop_eq_getElem_cons (by omega), drop_eq_getElem_cons (by omega),
    drop_eq_getElem_cons (by omega), drop_eq_getElem_cons (by omega)]
  rfl

theorem succ_mod (hsize : e.length < 2 ^ 64) (h : x % 2 ^ 64 + n ≤ e.length) :
    (x + n) % 2 ^ 64 = x % 2 ^ 64 + n := by
  omega

theorem safe_byte {k : UInt8 → Loader α} : (byte x k).Safe e pm sp ps ↔ x % 2 ^ 64 + 1 ≤ e.length ∧
      ∀ h : x % 2 ^ 64 < e.length, (k e[x % 2 ^ 64]).Safe e pm sp ps := by
  constructor
  · rintro ⟨h, hk⟩
    exact ⟨h, fun _ => hk⟩
  · rintro ⟨h, hk⟩
    exact ⟨h, hk h⟩

/-- How many bytes of `n` a comparison with `cs` looks at. -/
def looked : List UInt8 → List UInt8 → Nat
  | _, [] => 0
  | [], _ :: _ => 1
  | b :: n, c :: cs => if b = c then looked n cs + 1 else 1

section Words

variable (hsize : e.length < 2 ^ 64)
include hsize

theorem safe_le32 : (le32 x k).Safe e pm sp ps ↔
      x % 2 ^ 64 + 4 ≤ e.length ∧ (k (Sav.le32 (e.drop (x % 2 ^ 64)))).Safe e pm sp ps := by
  constructor
  · rintro ⟨h0, h1, h2, h3, hk⟩
    have hin : x % 2 ^ 64 + 4 ≤ e.length := by omega
    rw [le32_drop hin]
    simp only [succ_mod hsize (show x % 2 ^ 64 + 1 ≤ e.length by omega),
      succ_mod hsize (show x % 2 ^ 64 + 2 ≤ e.length by omega),
      succ_mod hsize (show x % 2 ^ 64 + 3 ≤ e.length by omega)] at hk
    exact ⟨hin, hk⟩
  · rintro ⟨hin, hk⟩
    rw [le32_drop hin] at hk
    have e1 := succ_mod hsize (show x % 2 ^ 64 + 1 ≤ e.length by omega)
    have e2 := succ_mod hsize (show x % 2 ^ 64 + 2 ≤ e.length by omega)
    have e3 := succ_mod hsize (show x % 2 ^ 64 + 3 ≤ e.length by omega)
    refine ⟨by omega, by omega, by omega, by omega, ?_⟩
    simp only [e1, e2, e3]
    exact hk

theorem safe_le32_at (hx : x ≤ e.length) :
    (le32 x k).Safe e pm sp ps ↔ x + 4 ≤ e.length ∧ (k (Sav.le32 (e.drop x))).Safe e pm sp ps := by
  have hmod : x % 2 ^ 64 = x := Nat.mod_eq_of_lt (by omega)
  rw [safe_le32 hsize, hmod]

theorem and_safe_le32 : x ≤ e.length ∧ (le32 x k).Safe e pm sp ps ↔
      x + 4 ≤ e.length ∧ (k (Sav.le32 (e.drop x))).Safe e pm sp ps := by
  constructor
  · rintro ⟨hx, h⟩
    exact (safe_le32_at hsize hx).mp h
  · rintro ⟨hx, h⟩
    exact ⟨by omega, (safe_le32_at hsize (by omega)).mpr ⟨hx, h⟩⟩

theorem safe_le16 : (le16 x k).Safe e pm sp ps ↔
      x % 2 ^ 64 + 2 ≤ e.length ∧ (k (Stam.le16 (e.drop (x % 2 ^ 64)))).Safe e pm sp ps := by
  have hval : ∀ h : x % 2 ^ 64 + 2 ≤ e.length, Stam.le16 (e.drop (x % 2 ^ 64)) =
      e[x % 2 ^ 64].toNat + 256 * e[x % 2 ^ 64 + 1].toNat := by
    intro h
    rw [drop_eq_getElem_cons (by omega), drop_eq_getElem_cons (by omega)]
    rfl
  constructor
  · rintro ⟨h0, h1, hk⟩
    have hin : x % 2 ^ 64 + 2 ≤ e.length := by omega
    rw [hval hin]
    simp only [succ_mod hsize (show x % 2 ^ 64 + 1 ≤ e.length by omega)] at hk
    exact ⟨hin, hk⟩
  · rintro ⟨hin, hk⟩
    rw [hval hin] at hk
    have e1 := succ_mod hsize (show x % 2 ^ 64 + 1 ≤ e.length by omega)
    refine ⟨by omega, by omega, ?_⟩
    simp only [e1]
    exact hk

theorem safe_le64 : (le64 x k).Safe e pm sp ps ↔
      x % 2 ^ 64 + 8 ≤ e.length ∧ (k (Stam.le64 (e.drop (x % 2 ^ 64)))).Safe e pm sp ps := by
  rw [le64, safe_le32 hsize, safe_le32 hsize]
  constructor
  · rintro ⟨h0, h1, hk⟩
    rw [succ_mod hsize h0] at h1 hk
    rw [Stam.le64, drop_drop]
    exact ⟨h1, hk⟩
  · rintro ⟨hin, hk⟩
    rw [Stam.le64, drop_drop] at hk
    rw [succ_mod hsize (show x % 2 ^ 64 + 4 ≤ e.length by omega)]
    exact ⟨by omega, hin, hk⟩

/-- A comparison looks at the bytes up to the first that differs. -/
theorem safe_isName {cs : List UInt8} {k : Bool → Loader α} :
    ∀ {x}, x ≤ e.length → ((isName x cs k).Safe e pm sp ps ↔ x + looked (e.drop x) cs ≤ e.length ∧
        (k (cs.isPrefixOf (e.drop x))).Safe e pm sp ps) := by
  induction cs with
  | nil =>
    intro x hx
    rw [isName, looked, isPrefixOf_nil_left]
    exact ⟨fun h => ⟨hx, h⟩, fun h => h.2⟩
  | cons c cs ih =>
    intro x hx
    have hmod : x % 2 ^ 64 = x := Nat.mod_eq_of_lt (by omega)
    rw [isName, safe_byte, hmod]
    by_cases h1 : x < e.length
    · rw [drop_eq_getElem_cons h1, looked, isPrefixOf_cons_cons]
      by_cases hc : e[x] = c
      · simp only [hc, if_true, beq_self_eq_true, Bool.true_and]
        constructor
        · rintro ⟨-, hrest⟩
          obtain ⟨hn, hr⟩ := (ih (x := x + 1) h1).mp (hrest h1)
          exact ⟨by omega, hr⟩
        · rintro ⟨hn, hr⟩
          exact ⟨h1, fun h => (ih (x := x + 1) h1).mpr ⟨by omega, hr⟩⟩
      · have hbeq : (c == e[x]) = false := beq_false_of_ne fun h => hc h.symm
        simp only [hc, if_false, hbeq, Bool.false_and]
        exact ⟨fun h => ⟨h.1, h.2 h1⟩, fun h => ⟨h.1, fun _ => h.2⟩⟩
    · have hnil : e.drop x = [] := drop_eq_nil_of_le (by omega)
      rw [hnil, looked]
      exact ⟨fun h => absurd h.1 (by omega), fun h => absurd h.1 (by omega)⟩

theorem safe_words : ∀ {n x} {k : List Nat → Loader α}, x ≤ e.length →
      (∀ l, x + 4 * n ≤ e.length → ((k l).Safe e pm sp ps ↔ R)) →
      ((words x n k).Safe e pm sp ps ↔ x + 4 * n ≤ e.length ∧ R) := by
  intro n
  induction n with
  | zero =>
    intro x k hx hk
    rw [words, hk [] (by omega)]
    exact ⟨fun h => ⟨by omega, h⟩, fun h => h.2⟩
  | succ n ih =>
    intro x k hx hk
    have hrest : ∀ w, x + 4 ≤ e.length → ((words (x + 4) n fun ws => k (w :: ws)).Safe e pm sp ps ↔
        x + 4 + 4 * n ≤ e.length ∧ R) := fun w h4 =>
      ih h4 fun l hl => hk (w :: l) (by omega)
    rw [words, safe_le32_at hsize hx]
    constructor
    · rintro ⟨h4, h⟩
      obtain ⟨hn, hr⟩ := (hrest _ h4).mp h
      exact ⟨by omega, hr⟩
    · rintro ⟨hn, hr⟩
      have h4 : x + 4 ≤ e.length := by omega
      exact ⟨h4, (hrest _ h4).mpr ⟨by omega, hr⟩⟩

theorem safe_bytes {k : List UInt8 → Loader α} (hk : ∀ l, (k l).Safe e pm sp ps ↔ R) :
    ∀ {n x}, x ≤ e.length → ((bytes x n k).Safe e pm sp ps ↔ x + n ≤ e.length ∧ R) := by
  intro n
  induction n generalizing k with
  | zero =>
    intro x hx
    rw [bytes, hk]
    exact ⟨fun h => ⟨by omega, h⟩, fun h => h.2⟩
  | succ n ih =>
    intro x hx
    have hmod : x % 2 ^ 64 = x := Nat.mod_eq_of_lt (by omega)
    rw [bytes, safe_byte, hmod]
    constructor
    · rintro ⟨h1, hrest⟩
      obtain ⟨hn, hr⟩ := (ih (fun l => hk _) h1).mp (hrest (by omega))
      exact ⟨by omega, hr⟩
    · rintro ⟨hn, hr⟩
      have h1 : x + 1 ≤ e.length := by omega
      exact ⟨h1, fun h => (ih (fun l => hk _) h1).mpr ⟨by omega, hr⟩⟩

end Words

/-! ## A note -/

/-- How many bytes of a note of size `len` are looked at, by what they say. -/
def noteReach (n : List UInt8) (len : Nat) : Nat :=
  let descsz := Sav.le32 (n.drop 4)
  let descAt := 12 + (Sav.le32 n + 3) % 2 ^ 32 / 4 * 4
  if len < descAt + descsz ∨ Sav.le32 (n.drop 8) ≠ 1 ∨ Sav.le32 n ≠ 4 then 12
  else if [115, 97, 118, 0].isPrefixOf (n.drop 12) = false then
    12 + looked (n.drop 12) [115, 97, 118, 0]
  else if descsz < 16 then 16
  else if Sav.le32 (n.drop 16) ≠ savMagic then 20
  else if Sav.le32 (n.drop 20) ≠ 1 then 24
  else if descsz < 16 + Sav.le32 (n.drop 24) * 4 + Sav.le32 (n.drop 28) ∨
      savMaxCalls < Sav.le32 (n.drop 24) then 32
  else 32 + 4 * Sav.le32 (n.drop 24) + min (Sav.le32 (n.drop 28)) (savCapsBytes - 1)

/-- The note at `off` is passed over, or what is looked at of it lies in the file. -/
def NoteInside (e : List UInt8) (off len : Nat) : Prop :=
  e.length < (off + len) % 2 ^ 64 ∨ len < 16 ∨ off + noteReach (e.drop off) len ≤ e.length

theorem looked_of_prefix {n cs : List UInt8} (h : cs.isPrefixOf n = true) :
    looked n cs = cs.length := by
  induction cs generalizing n with
  | nil => cases n <;> rfl
  | cons c cs ih =>
    cases n with
    | nil => cases h
    | cons b n =>
      rw [isPrefixOf_cons_cons, Bool.and_eq_true, beq_iff_eq] at h
      rw [looked, if_pos h.1.symm, ih h.2, length_cons]

theorem le_noteReach (n : List UInt8) (len : Nat) : 12 ≤ noteReach n len := by
  unfold noteReach
  dsimp only
  split_ifs <;> omega

/-- `read_sav_note` reads what its note makes it read, and goes on as it would without. -/
theorem safe_readSavNote (hsize : e.length < 2 ^ 64) {off len : Nat} (hoff : off < 2 ^ 64)
    {out : SavManifest} {k : SavManifest → Loader α} (hk : ∀ m, (k m).Safe e pm sp ps ↔ R) :
    (readSavNote e.length off len out k).Safe e pm sp ps ↔ NoteInside e off len ∧ R := by
  unfold readSavNote NoteInside
  by_cases hskip : e.length < (off + len) % 2 ^ 64 ∨ len < 16
  · rw [if_pos hskip, hk]
    exact ⟨fun h => ⟨hskip.imp_right .inl, h⟩, fun h => h.2⟩
  rw [if_neg hskip, ← or_assoc, or_iff_right hskip]
  have hreach := le_noteReach (e.drop off) len
  by_cases h12 : off + 12 ≤ e.length
  swap
  · refine iff_of_false (fun h => ?_) fun h => by omega
    rw [safe_le32 hsize, Nat.mod_eq_of_lt hoff] at h
    obtain ⟨h4, h⟩ := h
    rw [safe_le32_at hsize h4] at h
    obtain ⟨h8, h⟩ := h
    rw [safe_le32_at hsize h8] at h
    omega
  rw [safe_le32_at hsize (by omega), safe_le32_at hsize (by omega), safe_le32_at hsize (by omega),
    ← drop_drop, ← drop_drop, and_iff_right (by omega), and_iff_right (by omega),
    and_iff_right (by omega)]
  unfold noteReach
  dsimp only
  generalize hn : e.drop off = n
  by_cases hlen : len < 12 + (Sav.le32 n + 3) % 2 ^ 32 / 4 * 4 + Sav.le32 (n.drop 4)
  · rw [if_pos hlen, if_pos (.inl hlen), hk]
    exact ⟨fun h => ⟨h12, h⟩, fun h => h.2⟩
  by_cases htype : Sav.le32 (n.drop 8) ≠ 1 ∨ Sav.le32 n ≠ 4
  · rw [if_neg hlen, if_pos htype, if_pos (.inr htype), hk]
    exact ⟨fun h => ⟨h12, h⟩, fun h => h.2⟩
  rw [if_neg hlen, if_neg htype, if_neg (not_or.mpr ⟨hlen, htype⟩), safe_isName hsize h12,
    ← drop_drop, hn]
  by_cases hname : List.isPrefixOf [115, 97, 118, 0] (n.drop 12) = false
  · rw [hname, if_pos rfl, if_pos rfl, hk, Nat.add_assoc]
  rw [Bool.not_eq_false] at hname
  have h16 : looked (n.drop 12) [115, 97, 118, 0] = 4 := looked_of_prefix hname
  obtain ⟨-, h4⟩ := not_or.mp htype
  rw [not_not] at h4
  have hdesc : 12 + (Sav.le32 n + 3) % 2 ^ 32 / 4 * 4 = 16 := by rw [h4]; rfl
  have hdrop : ∀ c, e.drop (off + c) = n.drop c := fun c => by rw [← drop_drop, hn]
  have htf : ¬ true = false := nofun
  rw [hname, h16, hdesc, if_neg htf, if_neg htf]
  by_cases hd16 : Sav.le32 (n.drop 4) < 16
  · rw [if_pos hd16, if_pos hd16, hk]
  have hassoc : ∀ a b, off + a + b = off + (a + b) := Nat.add_assoc off
  rw [if_neg hd16, if_neg hd16]
  simp only [hassoc, Nat.reduceAdd]
  rw [and_safe_le32 hsize, hdrop, hassoc]
  by_cases hmagic : Sav.le32 (n.drop 16) ≠ savMagic
  · rw [if_pos hmagic, if_pos hmagic, hk]
  rw [if_neg hmagic, if_neg hmagic, and_safe_le32 hsize, hdrop, hassoc]
  by_cases hversion : Sav.le32 (n.drop 20) ≠ 1
  · rw [if_pos hversion, if_pos hversion, hk]
  rw [if_neg hversion, if_neg hversion, and_safe_le32 hsize, hdrop, hassoc, and_safe_le32 hsize,
    hdrop, hassoc]
  by_cases hfit : Sav.le32 (n.drop 4) < 16 + Sav.le32 (n.drop 24) * 4 + Sav.le32 (n.drop 28)
  · rw [if_pos hfit, if_pos (.inl hfit), hk]
  by_cases hmax : savMaxCalls < Sav.le32 (n.drop 24)
  · rw [if_neg hfit, if_pos hmax, if_pos (.inr hmax), hk]
  rw [if_neg hfit, if_neg hmax, if_neg (not_or.mpr ⟨hfit, hmax⟩)]
  have hcalls : off + 32 ≤ e.length → ((words (off + 32) (Sav.le32 (n.drop 24)) fun call =>
      bytes (off + (32 + Sav.le32 (n.drop 24) * 4)) (min (Sav.le32 (n.drop 28)) (savCapsBytes - 1))
        fun names => k ⟨true, call, capsLine names⟩).Safe e pm sp ps ↔
        off + 32 + 4 * Sav.le32 (n.drop 24) ≤ e.length ∧
          off + (32 + Sav.le32 (n.drop 24) * 4) + min (Sav.le32 (n.drop 28)) (savCapsBytes - 1) ≤
            e.length ∧ R) := fun h32 =>
    safe_words hsize h32 fun call hend => safe_bytes hsize (fun names => hk _) (by omega)
  constructor
  · rintro ⟨h32, h⟩
    obtain ⟨-, hend, hr⟩ := (hcalls h32).mp h
    exact ⟨by omega, hr⟩
  · rintro ⟨hend, hr⟩
    have h32 : off + 32 ≤ e.length := by omega
    exact ⟨h32, (hcalls h32).mpr ⟨by omega, by omega, hr⟩⟩

/-! ## A segment -/

/-- The bytes of a segment lie in the file, and the pages mapped for it, below the limit, take them. -/
def SegmentInside (e : List UInt8) (ph : Phdr) : Prop :=
  ph.filesz = 0 ∨ ph.offset + ph.filesz ≤ e.length ∧ ph.vaddr + ph.filesz ≤ userTop ∧
    ph.vaddr + ph.filesz ≤ (ph.vaddr + ph.memsz + 4095) % 2 ^ 64 / 4096 * 4096

theorem safe_copy {k : Loader α} : ∀ {n dst src}, (copy dst src n k).Safe e pm sp ps ↔
      (∀ b < n, (src + b) % 2 ^ 64 < e.length ∧ (dst + b) % 2 ^ 64 < userTop ∧
        (dst + b) % 2 ^ 64 / 4096 ∈ ps) ∧ k.Safe e pm sp ps := by
  intro n
  induction n with
  | zero => exact fun {dst src} => ⟨fun h => ⟨fun b hb => by omega, h⟩, fun h => h.2⟩
  | succ n ih =>
    intro dst src
    constructor
    · rintro ⟨hr, hw, h⟩
      obtain ⟨hrest, hk⟩ := ih.mp h
      refine ⟨fun b hb => ?_, hk⟩
      cases b with
      | zero => exact ⟨hr, hw⟩
      | succ b =>
        have := hrest b (by omega)
        rwa [Nat.add_assoc, Nat.add_comm 1, Nat.add_assoc, Nat.add_comm 1] at this
    · rintro ⟨hall, hk⟩
      obtain ⟨hr, hw⟩ := hall 0 (by omega)
      refine ⟨hr, hw, ih.mpr ⟨fun b hb => ?_, hk⟩⟩
      have := hall (b + 1) (by omega)
      rwa [Nat.add_comm b, ← Nat.add_assoc, ← Nat.add_assoc] at this

/-- The loop over the bytes of a segment stays inside when the segment does. -/
theorem segmentInside_iff (hsize : e.length < 2 ^ 64) {ph : Phdr} (ho : ph.offset < 2 ^ 64)
    (hv : ph.vaddr < 2 ^ 64) :
    (∀ b < ph.filesz, (ph.offset + b) % 2 ^ 64 < e.length ∧ (ph.vaddr + b) % 2 ^ 64 < userTop ∧
      (ph.vaddr + b) % 2 ^ 64 / 4096 ∈ ph.pages) ↔ SegmentInside e ph := by
  unfold SegmentInside Phdr.pages userTop
  simp only [mem_range'_1]
  set last := (ph.vaddr + ph.memsz + 4095) % 2 ^ 64 / 4096 with hlast
  have hl : last < 2 ^ 52 := by omega
  constructor
  · intro h
    rcases Nat.eq_zero_or_pos ph.filesz with h0 | hpos
    · exact .inl h0
    refine .inr ⟨?_, ?_, ?_⟩
    · by_contra hgt
      by_cases hb : e.length < ph.offset
      · have := (h 0 hpos).1
        omega
      · have := (h (e.length - ph.offset) (by omega)).1
        omega
    · by_contra hgt
      by_cases hb : 2 ^ 39 < ph.vaddr
      · have := (h 0 hpos).2.1
        omega
      · have := (h (2 ^ 39 - ph.vaddr) (by omega)).2.1
        omega
    · by_contra hgt
      by_cases hb : last * 4096 < ph.vaddr
      · have := (h 0 hpos).2.2
        omega
      · have := (h (last * 4096 - ph.vaddr) (by omega)).2.2
        omega
  · rintro h b hb
    rcases h with h0 | ⟨h1, h2, h3⟩
    · omega
    · have hob : (ph.offset + b) % 2 ^ 64 = ph.offset + b := Nat.mod_eq_of_lt (by omega)
      have hvb : (ph.vaddr + b) % 2 ^ 64 = ph.vaddr + b := Nat.mod_eq_of_lt (by omega)
      rw [hob, hvb]
      omega

/-! ## Whether there are pages -/

/-- There is a page for each of these, and for each table above them that is not there yet. -/
def Enough (pm : Pmm) (sp : Space) (ps : List Nat) : Prop :=
  ps.length + (tables2 sp ∪ under2 ps).card + (tables3 sp ∪ under3 ps).card ≤
    pm.avail + (tables2 sp).card + (tables3 sp).card

/-- What is left once these pages are mapped. -/
structure After (pm : Pmm) (sp : Space) (ps : List Nat) (pm' : Pmm) (sp' : Space) : Prop where
  tables2 : tables2 sp' = tables2 sp ∪ under2 ps
  tables3 : tables3 sp' = tables3 sp ∪ under3 ps
  avail : pm.avail + (Stam.tables2 sp).card + (Stam.tables3 sp).card =
    pm'.avail + ps.length + (Stam.tables2 sp').card + (Stam.tables3 sp').card

theorem under2_append (ps qs : List Nat) : under2 (ps ++ qs) = under2 ps ∪ under2 qs := by
  simp only [under2, map_append, toFinset_append]

theorem under3_append (ps qs : List Nat) : under3 (ps ++ qs) = under3 ps ∪ under3 qs := by
  simp only [under3, map_append, toFinset_append]

theorem Enough.prefix {qs : List Nat} (h : Enough pm sp (ps ++ qs)) : Enough pm sp ps := by
  unfold Enough at h ⊢
  rw [under2_append, under3_append, ← Finset.union_assoc, ← Finset.union_assoc,
    length_append] at h
  have h2 : (tables2 sp ∪ under2 ps).card ≤ (tables2 sp ∪ under2 ps ∪ under2 qs).card :=
    Finset.card_le_card Finset.subset_union_left
  have h3 : (tables3 sp ∪ under3 ps).card ≤ (tables3 sp ∪ under3 ps ∪ under3 qs).card :=
    Finset.card_le_card Finset.subset_union_left
  omega

theorem After.nil : After pm sp [] pm sp :=
  ⟨by simp [under2], by simp [under3], by simp⟩

theorem After.enough {qs : List Nat} (h : After pm sp ps pm' sp') :
    Enough pm' sp' qs ↔ Enough pm sp (ps ++ qs) := by
  have havail := h.avail
  unfold Enough
  rw [under2_append, under3_append, ← Finset.union_assoc, ← Finset.union_assoc, ← h.tables2,
    ← h.tables3, length_append]
  omega

/-- Mapping succeeds when there are pages for it, and leaves what is left. -/
theorem After.mapPages (h : After pm sp ps pm' sp') (x : Bool) (qs : List Nat) :
    (Enough pm sp (ps ++ qs) ∧ (Stam.mapPages x pm' sp' qs).2.2 = none ∧
      After pm sp (ps ++ qs) (Stam.mapPages x pm' sp' qs).1 (Stam.mapPages x pm' sp' qs).2.1) ∨
    (¬ Enough pm sp (ps ++ qs) ∧ ∃ err, (Stam.mapPages x pm' sp' qs).2.2 = some err) := by
  cases hm : Stam.mapPages x pm' sp' qs with
  | mk pm2 r =>
    obtain ⟨sp2, err⟩ := r
    obtain ⟨hyes, hno⟩ := mapPages_avail hm
    cases err with
    | none =>
      obtain ⟨h2, h3, hsum⟩ := hyes rfl
      have havail := h.avail
      refine .inl ⟨h.enough.mp ?_, rfl, ?_, ?_, ?_⟩
      · unfold Enough
        rw [← h2, ← h3]
        omega
      · rw [h2, h.tables2, under2_append, Finset.union_assoc]
      · rw [h3, h.tables3, under3_append, Finset.union_assoc]
      · rw [length_append]
        dsimp only
        omega
    | some err =>
      have hlt := hno (Option.some_ne_none err)
      refine .inr ⟨fun hen => ?_, err, rfl⟩
      have := h.enough.mpr hen
      unfold Enough at this
      omega

/-! ## The program headers -/

/-- Where program header `i` is, and a field of it. -/
def entryAt (e : List UInt8) (i : Nat) : Nat :=
  (Stam.le64 (e.drop 32) + i * Stam.le16 (e.drop 54)) % 2 ^ 64

def fieldAt (e : List UInt8) (i c : Nat) : Nat := (entryAt e i + c) % 2 ^ 64

/-- Program header `i`, as far as it is in the file. -/
def header (e : List UInt8) (i : Nat) : Phdr where
  type := Sav.le32 (e.drop (entryAt e i))
  flags := Sav.le32 (e.drop (fieldAt e i 4))
  offset := Stam.le64 (e.drop (fieldAt e i 8))
  vaddr := Stam.le64 (e.drop (fieldAt e i 16))
  filesz := Stam.le64 (e.drop (fieldAt e i 32))
  memsz := Stam.le64 (e.drop (fieldAt e i 40))

/-- A segment that the loader refuses by its sizes. -/
def Refused (e : List UInt8) (ph : Phdr) : Prop :=
  e.length < (ph.offset + ph.filesz) % 2 ^ 64 ∨ ph.memsz < ph.filesz

/-- The pages that header `i` asks for. -/
def pagesOf (e : List UInt8) (i : Nat) : List Nat :=
  if (header e i).type = ptLoad then (header e i).pages else []

/-- The pages that the headers before `i` ask for. -/
def pagesBefore (e : List UInt8) (i : Nat) : List Nat := (List.range i).flatMap (pagesOf e)

/-- The walk gets as far as header `i`: no segment before it is refused, and there are pages for
them all. -/
def Reached (e : List UInt8) (pm : Pmm) (sp : Space) (i : Nat) : Prop :=
  (∀ j < i, (header e j).type = ptLoad → ¬ Refused e (header e j)) ∧
    Enough pm sp (pagesBefore e i)

/-- Header `i` keeps the loader inside: the fields it reads of it lie in the file, and so does what
they point to. -/
structure HeaderInside (e : List UInt8) (pm : Pmm) (sp : Space) (i : Nat) : Prop where
  type : entryAt e i + 4 ≤ e.length
  note : (header e i).type = ptNote → fieldAt e i 8 + 8 ≤ e.length ∧
    fieldAt e i 32 + 8 ≤ e.length ∧ NoteInside e (header e i).offset (header e i).filesz
  load : (header e i).type = ptLoad → fieldAt e i 4 + 4 ≤ e.length ∧
    fieldAt e i 8 + 8 ≤ e.length ∧ fieldAt e i 16 + 8 ≤ e.length ∧
    fieldAt e i 32 + 8 ≤ e.length ∧ fieldAt e i 40 + 8 ≤ e.length ∧
    (¬ Refused e (header e i) → Enough pm sp (pagesBefore e (i + 1)) →
      SegmentInside e (header e i))

theorem pagesBefore_succ (e : List UInt8) (i : Nat) :
    pagesBefore e (i + 1) = pagesBefore e i ++ pagesOf e i := by
  simp only [pagesBefore, range_succ, flatMap_append, flatMap_cons, flatMap_nil,
    append_nil]

theorem Reached.pred (h : Reached e pm sp (i + 1)) : Reached e pm sp i := by
  obtain ⟨hr, he⟩ := h
  rw [pagesBefore_succ] at he
  exact ⟨fun j hj => hr j (by omega), he.prefix⟩

theorem Reached.mono {j : Nat} (h : Reached e pm sp j) (hij : i ≤ j) : Reached e pm sp i := by
  induction hij with
  | refl => exact h
  | step _ ih => exact ih h.pred

/-- What is to hold of the headers from `i` up to `m`. -/
def Inside (e : List UInt8) (pm : Pmm) (sp : Space) (i m : Nat) : Prop :=
  ∀ j, i ≤ j → j < m → Reached e pm sp j → HeaderInside e pm sp j

theorem inside_step {m : Nat} (him : i < m) (hi : Reached e pm sp i) : Inside e pm sp i m ↔
      HeaderInside e pm sp i ∧ (Reached e pm sp (i + 1) → Inside e pm sp (i + 1) m) := by
  constructor
  · exact fun h => ⟨h i (Nat.le_refl _) him hi, fun _ j hj hjm hr => h j (by omega) hjm hr⟩
  · rintro ⟨hhead, hrest⟩ j hj hjm hr
    rcases Nat.eq_or_lt_of_le hj with rfl | hlt
    · exact hhead
    · exact hrest (hr.mono hlt) j hlt hjm hr

theorem le32_lt (l : List UInt8) : Sav.le32 l < 2 ^ 32 := by
  match l with
  | [] | [_] | [_, _] | [_, _, _] => exact Nat.two_pow_pos 32
  | a :: b :: c :: d :: _ =>
    have ha := a.toNat_lt
    have hb := b.toNat_lt
    have hc := c.toNat_lt
    have hd := d.toNat_lt
    simp only [Sav.le32]
    omega

theorem le64_lt (l : List UInt8) : Stam.le64 l < 2 ^ 64 := by
  have h0 := le32_lt l
  have h4 := le32_lt (l.drop 4)
  unfold Stam.le64
  omega

theorem Reached.skip {pm' : Pmm} {sp' : Space} (h : Reached e pm sp i)
    (ha : After pm sp (pagesBefore e i) pm' sp') (hl : (header e i).type ≠ ptLoad) :
    Reached e pm sp (i + 1) ∧ After pm sp (pagesBefore e (i + 1)) pm' sp' := by
  have hsame : pagesBefore e (i + 1) = pagesBefore e i := by
    rw [pagesBefore_succ, pagesOf, if_neg hl, append_nil]
  rw [Reached, hsame]
  refine ⟨⟨fun j hj hjl => ?_, h.2⟩, ha⟩
  rcases Nat.eq_or_lt_of_le (Nat.le_of_lt_succ hj) with rfl | hlt
  · exact absurd hjl hl
  · exact h.1 j hlt hjl

section Walk

variable (hsize : e.length < 2 ^ 64)
include hsize

/-- A segment: what is left of the walk is reached when the segment is accepted and has its
pages. -/
theorem safe_loadSegment (qs : List Nat) {pm' : Pmm} {sp' : Space}
    {k : Option ElfError → Loader α} (hl : (header e i).type = ptLoad)
    (hreach : Reached e pm sp i) (hafter : After pm sp (pagesBefore e i) pm' sp')
    (herr : ∀ err pm sp ps, (k (some err)).Safe e pm sp ps)
    (hk : ∀ pm2 sp2 ps, Reached e pm sp (i + 1) → After pm sp (pagesBefore e (i + 1)) pm2 sp2 →
      ((k none).Safe e pm2 sp2 ps ↔ R)) :
    (loadSegment e.length i (header e i) k).Safe e pm' sp' qs ↔
      (¬ Refused e (header e i) → Enough pm sp (pagesBefore e (i + 1)) →
        SegmentInside e (header e i)) ∧ (Reached e pm sp (i + 1) → R) := by
  have hgone : Refused e (header e i) → ¬ Reached e pm sp (i + 1) := fun href h =>
    h.1 i (Nat.lt_succ_self i) hl href
  unfold loadSegment
  by_cases hend : e.length < ((header e i).offset + (header e i).filesz) % 2 ^ 64
  · rw [if_pos hend]
    exact ⟨fun _ => ⟨fun hn => absurd (.inl hend) hn, fun h => absurd h (hgone (.inl hend))⟩,
      fun _ => herr _ _ _ _⟩
  by_cases hmem : (header e i).memsz < (header e i).filesz
  · rw [if_neg hend, if_pos hmem]
    exact ⟨fun _ => ⟨fun hn => absurd (.inr hmem) hn, fun h => absurd h (hgone (.inr hmem))⟩,
      fun _ => herr _ _ _ _⟩
  have hok : ¬ Refused e (header e i) := not_or.mpr ⟨hend, hmem⟩
  have hpages : pagesBefore e (i + 1) = pagesBefore e i ++ (header e i).pages := by
    rw [pagesBefore_succ, pagesOf, if_pos hl]
  rw [if_neg hend, if_neg hmem]
  unfold Safe
  rw [hpages] at hk ⊢
  rcases hafter.mapPages (header e i).executable (header e i).pages with
    ⟨hen, hnone, hmapped⟩ | ⟨hno, err, herr'⟩
  · have hnext : Reached e pm sp (i + 1) := by
      refine ⟨fun j hj hjl => ?_, by rw [hpages]; exact hen⟩
      rcases Nat.eq_or_lt_of_le (Nat.le_of_lt_succ hj) with rfl | hlt
      · exact hok
      · exact hreach.1 j hlt hjl
    rw [hnone]
    dsimp only
    rw [safe_copy, segmentInside_iff hsize (le64_lt _) (le64_lt _), hk _ _ _ hnext hmapped]
    exact ⟨fun h => ⟨fun _ _ => h.1, fun _ => h.2⟩, fun h => ⟨h.1 hok hen, h.2 hnext⟩⟩
  · rw [herr']
    refine ⟨fun _ => ⟨fun _ hen => absurd hen hno, fun h => absurd h.2 ?_⟩, fun _ => herr _ _ _ _⟩
    rw [hpages]
    exact hno

/-- The walk over the program headers stays inside when each header that it gets to does. -/
theorem safe_loadHeaders {k : SavManifest → Nat → Option ElfError → Loader α}
    (hk : ∀ m l err pm sp ps, (k m l err).Safe e pm sp ps) :
    ∀ {n i ph m l} {pm' : Pmm} {sp' : Space} {ps : List Nat}, ph % 2 ^ 64 = entryAt e i →
      Reached e pm sp i → After pm sp (pagesBefore e i) pm' sp' →
      ((loadHeaders e.length (Stam.le16 (e.drop 54)) n i ph m l k).Safe e pm' sp' ps ↔
        Inside e pm sp i (i + n)) := by
  intro n
  induction n with
  | zero =>
    intro i ph m l pm' sp' ps _ _ _
    exact ⟨fun _ j hj hjm => by omega, fun _ => hk _ _ _ _ _ _⟩
  | succ n ih =>
    intro i ph m l pm' sp' ps hph hreach hafter
    have hfield : ∀ c, (ph + c) % 2 ^ 64 = fieldAt e i c := by
      intro c
      rw [fieldAt, ← hph]
      omega
    have hnext : (ph + Stam.le16 (e.drop 54)) % 2 ^ 64 = entryAt e (i + 1) := by
      have h : entryAt e i = (Stam.le64 (e.drop 32) + i * Stam.le16 (e.drop 54)) % 2 ^ 64 := rfl
      rw [entryAt, Nat.succ_mul]
      omega
    have hlen : i + (n + 1) = i + 1 + n := by omega
    rw [inside_step (by omega) hreach, loadHeaders, safe_le32 hsize, hph, hlen]
    by_cases hnote : (header e i).type = ptNote
    · have hl : (header e i).type ≠ ptLoad := by rw [hnote]; decide
      obtain ⟨hr, ha⟩ := hreach.skip hafter hl
      have hn : Sav.le32 (e.drop (entryAt e i)) = ptNote := hnote
      rw [if_pos hn, safe_le64 hsize, safe_le64 hsize, hfield, hfield,
        safe_readSavNote hsize (le64_lt _) fun m => ih hnext hr ha]
      exact ⟨fun ⟨h4, h8, h32, hin, hrest⟩ =>
          ⟨⟨h4, fun _ => ⟨h8, h32, hin⟩, fun h => absurd h hl⟩, fun _ => hrest⟩,
        fun ⟨hh, hrest⟩ => ⟨hh.type, (hh.note hnote).1, (hh.note hnote).2.1, (hh.note hnote).2.2,
          hrest hr⟩⟩
    · have hn : ¬ Sav.le32 (e.drop (entryAt e i)) = ptNote := hnote
      rw [if_neg hn]
      by_cases hl : (header e i).type = ptLoad
      · have hl' : Sav.le32 (e.drop (entryAt e i)) = ptLoad := hl
        rw [if_pos hl', safe_le32 hsize, safe_le64 hsize, safe_le64 hsize, safe_le64 hsize,
          safe_le64 hsize]
        simp only [hfield]
        rw [← header, safe_loadSegment hsize ps (R := Inside e pm sp (i + 1) (i + 1 + n)) hl hreach hafter]
        · constructor
          · rintro ⟨h4, a4, a8, a16, a32, a40, hin, hrest⟩
            exact ⟨⟨h4, fun h => absurd h hnote, fun _ => ⟨a4, a8, a16, a32, a40, hin⟩⟩, hrest⟩
          · rintro ⟨hh, hrest⟩
            obtain ⟨a4, a8, a16, a32, a40, hin⟩ := hh.load hl
            exact ⟨hh.type, a4, a8, a16, a32, a40, hin, hrest⟩
        · exact fun _ _ _ _ => hk _ _ _ _ _ _
        · exact fun _ _ _ hr ha => ih hnext hr ha
      · have hl' : ¬ Sav.le32 (e.drop (entryAt e i)) = ptLoad := hl
        obtain ⟨hr, ha⟩ := hreach.skip hafter hl
        rw [if_neg hl', ih hnext hr ha]
        exact ⟨fun ⟨h4, hrest⟩ => ⟨⟨h4, fun h => absurd h hnote, fun h => absurd h hl⟩,
          fun _ => hrest⟩, fun ⟨hh, hrest⟩ => ⟨hh.type, hrest hr⟩⟩

end Walk

/-! ## The whole file -/

theorem looked_le (n cs : List UInt8) : looked n cs ≤ cs.length := by
  induction cs generalizing n with
  | nil => cases n <;> exact Nat.le_refl _
  | cons c cs ih =>
    cases n with
    | nil => exact Nat.succ_le_succ (Nat.zero_le _)
    | cons b n =>
      rw [looked, length_cons]
      split_ifs
      · exact Nat.succ_le_succ (ih n)
      · exact Nat.succ_le_succ (Nat.zero_le _)

theorem safe_byte_at (hsize : e.length < 2 ^ 64) (hx : x < e.length) {k : UInt8 → Loader α} :
    (byte x k).Safe e pm sp ps ↔ (k (e.getD x 0)).Safe e pm sp ps := by
  have hmod : x % 2 ^ 64 = x := Nat.mod_eq_of_lt (by omega)
  have hget : e.getD x 0 = e[x] := by simp [hx]
  rw [safe_byte, hmod, hget]
  exact ⟨fun h => h.2 hx, fun h => ⟨hx, fun _ => h⟩⟩

theorem safe_elfLoad (e : List UInt8) (hsize : e.length < 2 ^ 64) (pm : Pmm) (sp : Space) :
    (elfLoad e.length).Safe e pm sp [] ↔
      (headerError e = none → Inside e pm sp 0 (Stam.le16 (e.drop 56))) := by
  have refused : ∀ {P : Prop} {err : ElfError}, (some err = none → P) ↔ True :=
    fun {_ _} => ⟨fun _ => trivial, fun _ h => nomatch h⟩
  unfold elfLoad headerError
  dsimp only
  by_cases h64 : e.length < 64
  · rw [if_pos h64, if_pos h64, refused]
    exact Iff.rfl
  have hlook : looked (e.drop 0) [0x7f, 69, 76, 70] ≤ 4 := looked_le _ _
  rw [if_neg h64, if_neg h64, safe_isName hsize (Nat.zero_le _), and_iff_right (by omega)]
  have hmagic : List.isPrefixOf [0x7f, 69, 76, 70] (e.drop 0) = false ↔
      e.take 4 ≠ [0x7f, 69, 76, 70] := by
    rw [← Bool.not_eq_true, isPrefixOf_iff_prefix, prefix_iff_eq_take]
    exact not_congr eq_comm
  by_cases hm : e.take 4 ≠ [0x7f, 69, 76, 70]
  · rw [hmagic.mpr hm, if_pos rfl, if_pos hm, refused]
    exact Iff.rfl
  rw [if_neg (fun h => hm (hmagic.mp h)), if_neg hm, safe_byte_at hsize (by omega)]
  by_cases h4 : e.getD 4 0 ≠ 2
  · rw [if_pos h4, if_pos h4, refused]
    exact Iff.rfl
  rw [if_neg h4, if_neg h4, safe_byte_at hsize (by omega)]
  by_cases h5 : e.getD 5 0 ≠ 1
  · rw [if_pos h5, if_pos h5, refused]
    exact Iff.rfl
  have hlow : ∀ x, x < 64 → x % 2 ^ 64 = x := fun x hx => Nat.mod_eq_of_lt (by omega)
  rw [if_neg h5, if_neg h5, safe_le16 hsize, hlow 18 (by decide), and_iff_right (by omega)]
  by_cases h18 : Stam.le16 (e.drop 18) ≠ 183
  · rw [if_pos h18, if_pos h18, refused]
    exact Iff.rfl
  rw [if_neg h18, if_neg h18, safe_le64 hsize, hlow 32 (by decide), and_iff_right (by omega),
    safe_le16 hsize, hlow 54 (by decide), and_iff_right (by omega), safe_le16 hsize,
    hlow 56 (by decide), and_iff_right (by omega)]
  by_cases hout : Stam.le16 (e.drop 56) = 0 ∨ e.length < (Stam.le64 (e.drop 32) +
      Stam.le16 (e.drop 56) * Stam.le16 (e.drop 54)) % 2 ^ 64
  · rw [if_pos hout, if_pos hout, refused]
    exact Iff.rfl
  rw [if_neg hout, if_neg hout]
  have hstart : Stam.le64 (e.drop 32) % 2 ^ 64 = entryAt e 0 := by
    rw [entryAt, Nat.zero_mul, Nat.add_zero]
  have hreach : Reached e pm sp 0 := by
    refine ⟨fun j hj => by omega, ?_⟩
    simp [Enough, pagesBefore, under2, under3]
  rw [safe_loadHeaders hsize (fun m l err pm sp ps => ?_) hstart hreach After.nil, Nat.zero_add]
  · exact ⟨fun h _ => h, fun h => h rfl⟩
  · cases err with
    | some err => exact trivial
    | none =>
      dsimp only
      split_ifs
      · exact trivial
      · exact (safe_le64 hsize).mpr ⟨by omega, trivial⟩

end Loader

open Loader in
/-- `elf_load` touches nothing it should not exactly when, once the file has passed the first checks,
every program header that the walk gets to keeps it inside. -/
theorem elf_load_inside (e : List UInt8) (hsize : e.length < 2 ^ 64) (pm : Pmm) (sp : Space) :
    (Loader.elfLoad e.length).Safe e pm sp [] ↔
      (headerError e = none → ∀ i < Stam.le16 (e.drop 56), Reached e pm sp i →
        HeaderInside e pm sp i) := by
  rw [safe_elfLoad e hsize]
  exact imp_congr_right fun _ => ⟨fun h i hi => h i (Nat.zero_le _) hi, fun h i _ hi => h i hi⟩

/-- A file that is its header: one program header of no size, behind the end. -/
def shortTable : List UInt8 :=
  [0x7f, 69, 76, 70, 2, 1] ++ List.replicate 12 0 ++ [183, 0] ++ List.replicate 12 0 ++
    [64, 0, 0, 0, 0, 0, 0, 0] ++ List.replicate 14 0 ++ [0, 0, 1, 0] ++ List.replicate 6 0

theorem elf_load_inside_short :
    (Loader.elfLoad shortTable.length).Safe shortTable (Kernel.boot 0 8 fun _ _ => 0).pm
        (Space.empty 0) [] ↔ (headerError shortTable = none → ∀ i < Stam.le16 (shortTable.drop 56),
        Loader.Reached shortTable (Kernel.boot 0 8 fun _ _ => 0).pm (Space.empty 0) i →
        Loader.HeaderInside shortTable (Kernel.boot 0 8 fun _ _ => 0).pm (Space.empty 0) i) :=
  elf_load_inside shortTable (by decide) _ _

/-- The table is where the file ends, so the loader reads its first entry behind the end. -/
theorem elf_load_outside : ¬ (Loader.elfLoad shortTable.length).Safe shortTable
    (Kernel.boot 0 8 fun _ _ => 0).pm (Space.empty 0) [] := by
  rw [Loader.safe_elfLoad shortTable (by decide)]
  intro h
  have hreach : Loader.Reached shortTable (Kernel.boot 0 8 fun _ _ => 0).pm (Space.empty 0) 0 := by
    refine ⟨fun j hj => by omega, ?_⟩
    simp [Loader.Enough, Loader.pagesBefore, under2, under3]
  have hin := (h (by decide) 0 (Nat.le_refl _) (by decide) hreach).type
  have hat : Loader.entryAt shortTable 0 = 64 := by decide
  rw [hat] at hin
  exact absurd hin (by decide)

end Verkos.Stam
