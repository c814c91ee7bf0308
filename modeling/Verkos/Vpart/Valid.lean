import Verkos.Stam.Gpt
import Verkos.Vpart.Sizes

/-!
# The table is valid, and stam reads it back

`Valid` is about the bytes of a disk alone: two headers that check and agree, one array in two
places, partitions that are in nobody's way, of the sizes asked for, and the first of them found
by `gpt_find_esp`. `gpt_valid_iff` says that a disk that vpart wrote without an error is valid if
and only if every size it used was below 2^53 MiB.
-/

namespace Verkos.Vpart

open Lib (Crc.bits)
open Lib.Bytes
open List
open UInt64 (toNat_inj toNat_ofNat' toNat_sub)

/-! ## What a valid table is -/

/-- A field of a record. -/
def le (off len : Nat) (l : List UInt8) : Nat := ofLittle (part off len l)

/-- The CRC-32 of the specification. -/
def crcOf (data : List UInt8) : Nat := (Crc.bits 0xEDB88320 data).toNat

section Table

variable (d : Disk) (sectors : Nat)

/-- A header, in its sector. -/
def hdr (lba : Nat) : List UInt8 := d.read lba 92

/-- The array that a header is about. -/
def arrayOf (h : List UInt8) : List UInt8 := d.read (le 72 8 h) (le 80 4 h * le 84 4 h)

/-- The first and last sector of each entry that is used. -/
def partitions : List (Nat × Nat) :=
  (List.range (le 80 4 (hdr d 1))).filterMap fun i =>
    let e := part (i * 128) 128 (arrayOf d (hdr d 1))
    if part 0 16 e = List.replicate 16 0 then none else some (le 32 8 e, le 40 8 e)

/-- The sectors that are no partition's: the MBR, the headers and their arrays. -/
def reserved : List (Nat × Nat) :=
  [(0, 0), (1, 1), (le 72 8 (hdr d 1), le 72 8 (hdr d 1) + 31),
    (le 72 8 (hdr d (sectors - 1)), le 72 8 (hdr d (sectors - 1)) + 31),
    (sectors - 1, sectors - 1)]

def Apart (p q : Nat × Nat) : Prop := p.2 < q.1 ∨ q.2 < p.1

/-- A header whose checksums are right. -/
structure Checks (h : List UInt8) : Prop where
  signed : part 0 8 h = signature
  crc : le 16 4 h = crcOf (part 0 16 h ++ [0, 0, 0, 0] ++ part 20 72 h)
  arrayCrc : le 88 4 h = crcOf (arrayOf d h)

/-- What the disk reads to the kernel: one sector at a time. -/
def sectorsOf (lba : Nat) : Option (List UInt8) :=
  if lba < sectors then some (d.read lba 512) else none

structure Valid (o : Opts) : Prop where
  primary : Checks d (hdr d 1)
  backup : Checks d (hdr d (sectors - 1))
  /-- The headers are the same but for their checksum, for where they and each other are, and for
  where their array is. -/
  alike : ∀ i < 92, ¬(16 ≤ i ∧ i < 20) → ¬(24 ≤ i ∧ i < 40) → ¬(72 ≤ i ∧ i < 80) →
    (hdr d 1)[i]? = (hdr d (sectors - 1))[i]?
  located : le 24 8 (hdr d 1) = 1 ∧ le 32 8 (hdr d 1) = sectors - 1 ∧
    le 24 8 (hdr d (sectors - 1)) = sectors - 1 ∧ le 32 8 (hdr d (sectors - 1)) = 1
  arrays : arrayOf d (hdr d 1) = arrayOf d (hdr d (sectors - 1))
  apart : (partitions d).Pairwise Apart
  within : ∀ p ∈ partitions d,
    le 40 8 (hdr d 1) ≤ p.1 ∧ p.1 ≤ p.2 ∧ p.2 ≤ le 48 8 (hdr d 1)
  clear : ∀ p ∈ partitions d, ∀ r ∈ reserved d sectors, Apart p r
  sizes : (partitions d).map (fun p => p.2 + 1 - p.1) = asked o sectors
  found : ∃ p, (partitions d).head? = some p ∧
    Stam.Gpt.gptFindEsp (some (sectorsOf d sectors)) = some (p.1, p.2 + 1 - p.1)

end Table

/-! ## Reading what was written -/

section Reading

variable {d : Disk} {w : Nat × List UInt8} {lba len : Nat}

@[simp] theorem length_read (d : Disk) (lba len : Nat) : (d.read lba len).length = len := by
  rw [Disk.read, length_map, length_range]

theorem read_write_self (d : Disk) {bs : List UInt8} (h : len ≤ bs.length) :
    (d.write (lba, bs)).read lba len = bs.take len := by
  apply ext_getElem
  · rw [length_read, length_take, Nat.min_eq_left h]
  · intro i h1 h2
    rw [length_read] at h1
    have hi : i < bs.length := by omega
    simp [Disk.read, Disk.write, hi]

theorem read_write_other (h : (lba * 512 + len ≤ w.1 * 512) ∨ w.1 * 512 + w.2.length ≤ lba * 512) :
    (d.write w).read lba len = d.read lba len := by
  apply map_congr_left
  intro i hi
  rw [mem_range] at hi
  unfold Disk.write
  split_ifs with hle
  · rw [getD_eq_getElem?_getD, getElem?_eq_none (by omega), Option.getD_none]
  · rfl

theorem take_read {n : Nat} (h : n ≤ len) : (d.read lba len).take n = d.read lba n := by
  rw [Disk.read, ← map_take, take_range, Nat.min_eq_left h, Disk.read]

end Reading

/-! ## The header -/

section Header

variable (crc my alternate lastUsable arrayLba arrayCrc : Nat) (diskGuid : List UInt8)

@[simp] theorem length_put32 (v : Nat) : (put32 v).length = 4 := length_little 4 v
@[simp] theorem length_put64 (v : Nat) : (put64 v).length = 8 := length_little 8 v
@[simp] theorem length_signature : signature.length = 8 := by decide

section

variable (hg : diskGuid.length = 16)
include hg

theorem length_headerBytes :
    (headerBytes crc my alternate lastUsable arrayLba diskGuid arrayCrc).length = 92 := by
  simp [headerBytes, hg]

theorem headerBytes_fields (rest : List UInt8) :
    let h := headerBytes crc my alternate lastUsable arrayLba diskGuid arrayCrc ++ rest
    part 0 8 h = signature ∧ le 16 4 h = crc % 2 ^ 32 ∧ le 24 8 h = my % 2 ^ 64 ∧
      le 32 8 h = alternate % 2 ^ 64 ∧ le 40 8 h = 34 ∧ le 48 8 h = lastUsable % 2 ^ 64 ∧
      le 72 8 h = arrayLba % 2 ^ 64 ∧ le 80 4 h = 128 ∧ le 84 4 h = 128 ∧
      le 88 4 h = arrayCrc % 2 ^ 32 := by
  have h32 : ∀ v, ofLittle (put32 v) = v % 2 ^ 32 := ofLittle_little 4
  have h64 : ∀ v, ofLittle (put64 v) = v % 2 ^ 64 := ofLittle_little 8
  have h34 : firstUsable.toNat = 34 := by decide
  dsimp only
  simp only [headerBytes, append_assoc]
  refine ⟨part_here _ _ length_signature, ?_, ?_, ?_, ?_, ?_, ?_, ?_, ?_, ?_⟩ <;>
    simp [le, part_skip, part_here, h32, h64, hg, h34]

theorem headerBytes_split : ∃ a b, a.length = 16 ∧ b.length = 72 ∧
      ∀ crc, headerBytes crc my alternate lastUsable arrayLba diskGuid arrayCrc =
        a ++ (put32 crc ++ b) := by
  refine ⟨signature ++ (put32 0x00010000 ++ put32 92),
    put32 0 ++ (put64 my ++ (put64 alternate ++ (put64 firstUsable.toNat ++ (put64 lastUsable ++
      (diskGuid ++ (put64 arrayLba ++ (put32 128 ++ (put32 128 ++ put32 arrayCrc)))))))),
    by simp, by simp [hg], fun crc => ?_⟩
  simp only [headerBytes, append_assoc]

theorem headerBytes_crc :
    let h := headerBytes crc my alternate lastUsable arrayLba diskGuid arrayCrc
    part 0 16 h ++ [0, 0, 0, 0] ++ part 20 72 h =
      headerBytes 0 my alternate lastUsable arrayLba diskGuid arrayCrc := by
  obtain ⟨a, b, ha, hb, h⟩ :=
    headerBytes_split my alternate lastUsable arrayLba arrayCrc diskGuid hg
  have h0 : put32 0 = [0, 0, 0, 0] := by decide
  have hbehind : part 20 72 (a ++ (put32 crc ++ b)) = b := by
    rw [part_skip _ _ (by omega), part_skip _ _ (by rw [ha, length_put32]), ha, length_put32]
    exact part_all b hb
  dsimp only
  rw [h crc, h 0, h0, part_here _ _ ha, hbehind, append_assoc]

end

theorem getElem?_append_congr {p q x y : List UInt8} {i n : Nat} (hp : p.length = n)
    (hq : q.length = n) (hfront : i < n → p = q) (hback : n ≤ i → x[i - n]? = y[i - n]?) :
    (p ++ x)[i]? = (q ++ y)[i]? := by
  by_cases hi : i < n
  · rw [getElem?_append_left (by omega), getElem?_append_left (by omega), hfront hi]
  · rw [getElem?_append_right (by omega), getElem?_append_right (by omega), hp, hq]
    exact hback (by omega)

/-- Two headers of one table differ in four fields. -/
theorem headerBytes_alike {crc' my' alternate' arrayLba' : Nat} (hg : diskGuid.length = 16) {i : Nat}
    (hi : i < 92) (hcrc : ¬(16 ≤ i ∧ i < 20)) (hlba : ¬(24 ≤ i ∧ i < 40))
    (harr : ¬(72 ≤ i ∧ i < 80)) :
    (headerBytes crc my alternate lastUsable arrayLba diskGuid arrayCrc)[i]? =
      (headerBytes crc' my' alternate' lastUsable arrayLba' diskGuid arrayCrc)[i]? := by
  unfold headerBytes
  refine getElem?_append_congr length_signature length_signature (fun _ => rfl) fun _ => ?_
  refine getElem?_append_congr (length_put32 _) (length_put32 _) (fun _ => rfl) fun _ => ?_
  refine getElem?_append_congr (length_put32 _) (length_put32 _) (fun _ => rfl) fun _ => ?_
  refine getElem?_append_congr (length_put32 _) (length_put32 _) (by omega) fun _ => ?_
  refine getElem?_append_congr (length_put32 _) (length_put32 _) (fun _ => rfl) fun _ => ?_
  refine getElem?_append_congr (length_put64 _) (length_put64 _) (by omega) fun _ => ?_
  refine getElem?_append_congr (length_put64 _) (length_put64 _) (by omega) fun _ => ?_
  refine getElem?_append_congr (length_put64 _) (length_put64 _) (fun _ => rfl) fun _ => ?_
  refine getElem?_append_congr (length_put64 _) (length_put64 _) (fun _ => rfl) fun _ => ?_
  refine getElem?_append_congr hg hg (fun _ => rfl) fun _ => ?_
  exact getElem?_append_congr (length_put64 _) (length_put64 _) (by omega) fun _ => rfl

end Header

/-! ## The array -/

section Array

variable {rnd : Nat → Fin 16 → UInt8} {ps : List Part}

theorem length_guidRandom (r : Fin 16 → UInt8) : (guidRandom r).length = 16 := length_ofFn

theorem length_nameField (name : List UInt8) : (nameField name).length = 72 := by
  have h : ((name.take 35).flatMap fun c : UInt8 => [c, 0]).length = 2 * (name.take 35).length := by
    rw [length_flatMap]
    simp [Nat.mul_comm]
  have hle : (name.take 35).length ≤ 35 := length_take_le _ _
  rw [nameField, length_append, length_replicate, h]
  omega

theorem length_entry {p : Part} (r : Fin 16 → UInt8) (hp : p.type.length = 16) :
    (entry p r).length = 128 := by
  simp [entry, hp, length_guidRandom, length_nameField]

theorem entry_fields {p : Part} (r : Fin 16 → UInt8) (hp : p.type.length = 16) :
    part 0 16 (entry p r) = p.type ∧ le 32 8 (entry p r) = p.first.toNat ∧
      le 40 8 (entry p r) = p.last.toNat := by
  have h64 : ∀ v : UInt64, ofLittle (put64 v.toNat) = v.toNat := by
    intro v
    have hv := v.toNat_lt
    rw [put64, ofLittle_little]
    omega
  refine ⟨part_here _ _ hp, ?_, ?_⟩ <;>
    simp [le, entry, part_skip, part_here, h64, hp, length_guidRandom]

theorem entries_get (i : Nat) : (entries rnd ps)[i]? = ps[i]?.map fun p => entry p (rnd i) := by
  simp [entries, getElem?_map, getElem?_zipIdx, Option.map_map, Function.comp_def]

theorem length_entries (hps : ∀ p ∈ ps, p.type.length = 16) :
    ∀ e ∈ entries rnd ps, e.length = 128 := by
  intro e he
  obtain ⟨i, hi⟩ := mem_iff_getElem?.1 he
  rw [entries_get, Option.map_eq_some_iff] at hi
  obtain ⟨p, hp, rfl⟩ := hi
  exact length_entry _ (hps p (mem_of_getElem? hp))

theorem length_flatten_of {len : Nat} {ls : List (List UInt8)} (h : ∀ l ∈ ls, l.length = len) :
    ls.flatten.length = ls.length * len := by
  induction ls with
  | nil => simp
  | cons l ls ih =>
    rw [flatten_cons, length_append, h l mem_cons_self,
      ih fun l hl => h l (mem_cons_of_mem _ hl), length_cons]
    ring

section

variable (hps : ∀ p ∈ ps, p.type.length = 16) (hn : ps.length ≤ 128)
include hps hn

theorem length_array : (array rnd ps).length = 128 * 128 := by
  have h : (entries rnd ps).length = ps.length := by
    rw [entries, length_map, length_zipIdx]
  rw [array, length_append, length_replicate, length_flatten_of (length_entries hps), h]
  omega

theorem array_entry {i : Nat} (hi : i < 128) : part (i * 128) 128 (array rnd ps) =
      match ps[i]? with
      | some p => entry p (rnd i)
      | none => List.replicate 128 0 := by
  cases hp : ps[i]? with
  | some p => exact part_flatten _ (length_entries hps) (by rw [entries_get, hp]; rfl)
  | none =>
    have hge : ps.length ≤ i := getElem?_eq_none_iff.1 hp
    have h : (entries rnd ps).length = ps.length := by
      rw [entries, length_map, length_zipIdx]
    have hlen : (entries rnd ps).flatten.length = ps.length * 128 := by
      rw [length_flatten_of (length_entries hps), h]
    rw [array, part_skip _ _ (by omega), part, drop_replicate, take_replicate]
    congr 1
    omega

end

end Array

/-! ## The pieces on the disk -/

theorem length_header (my alternate lastUsable arrayLba : Nat) {diskGuid : List UInt8}
    (arrayCrc : Nat) (hg : diskGuid.length = 16) :
    (header my alternate lastUsable arrayLba diskGuid arrayCrc).length = 512 := by
  rw [header, length_append, length_headerBytes _ _ _ _ _ _ _ hg, length_replicate]

theorem length_mbr (lastLba : UInt64) : (mbr lastLba).length = 512 := by
  unfold mbr
  rw [length_append, length_append, length_append, length_append,
    length_append, length_replicate, length_replicate, length_put32, length_put32]
  rfl

/-- None of the five pieces is written over. -/
theorem read_writes (d : Disk) {arr h1 h2 m : List UInt8} {sectors : Nat} (hs : 2048 ≤ sectors)
    (harr : arr.length = 128 * 128) (hh1 : h1.length = 512) (hh2 : h2.length = 512)
    (hm : m.length = 512) :
    let d' := d.writes [(2, arr), (1, h1), (sectors - 33, arr), (sectors - 1, h2), (0, m)]
    d'.read 2 (128 * 128) = arr ∧ d'.read 1 512 = h1 ∧ d'.read (sectors - 33) (128 * 128) = arr ∧
      d'.read (sectors - 1) 512 = h2 := by
  simp only [Disk.writes, foldl_cons, foldl_nil]
  refine ⟨?_, ?_, ?_, ?_⟩
  · rw [read_write_other (by dsimp only; omega), read_write_other (by dsimp only; omega),
      read_write_other (by dsimp only; omega), read_write_other (by dsimp only; omega),
      read_write_self _ harr.ge, ← harr, take_length]
  · rw [read_write_other (by dsimp only; omega), read_write_other (by dsimp only; omega),
      read_write_other (by dsimp only; omega), read_write_self _ hh1.ge, ← hh1, take_length]
  · rw [read_write_other (by dsimp only; omega), read_write_other (by dsimp only; omega),
      read_write_self _ harr.ge, ← harr, take_length]
  · rw [read_write_other (by dsimp only; omega), read_write_self _ hh2.ge, ← hh2, take_length]

/-- A header where it was written. -/
theorem hdr_of_read {d : Disk} {lba my alternate lastUsable arrayLba arrayCrc : Nat}
    {diskGuid : List UInt8} (hg : diskGuid.length = 16)
    (h : d.read lba 512 = header my alternate lastUsable arrayLba diskGuid arrayCrc) :
    ∃ crc, crc = crc32 (headerBytes 0 my alternate lastUsable arrayLba diskGuid arrayCrc) ∧
      hdr d lba = headerBytes crc my alternate lastUsable arrayLba diskGuid arrayCrc := by
  refine ⟨_, rfl, ?_⟩
  have hle : (92 : Nat) ≤ 512 := by decide
  rw [hdr, ← take_read hle, h, header, ← length_headerBytes _ my alternate lastUsable arrayLba
    arrayCrc diskGuid hg, take_left]

theorem crc32_eq (data : List UInt8) : crc32 data = crcOf data := by
  rw [crc32, crcOf, Lib.Crc.table_eq_bits]

theorem crc32_lt (data : List UInt8) : crc32 data < 2 ^ 32 := (Lib.Crc.table _ data).isLt

/-- The checksums of a header where it was written, if its array is where it says. -/
theorem hdr_checks {d : Disk} {lba my alternate lastUsable arrayLba : Nat} {arr diskGuid : List UInt8}
    (hg : diskGuid.length = 16) (hlba : arrayLba < 2 ^ 64)
    (h : d.read lba 512 = header my alternate lastUsable arrayLba diskGuid (crc32 arr))
    (harr : d.read arrayLba (128 * 128) = arr) :
    arrayOf d (hdr d lba) = arr ∧ Checks d (hdr d lba) := by
  obtain ⟨crc, hcrc, hhdr⟩ := hdr_of_read hg h
  have hf := headerBytes_fields crc my alternate lastUsable arrayLba (crc32 arr) diskGuid hg []
  rw [append_nil, ← hhdr] at hf
  obtain ⟨hsig, hc, -, -, -, -, ha, hn, hsz, hac⟩ := hf
  have harray : arrayOf d (hdr d lba) = arr := by
    rw [arrayOf, ha, hn, hsz, Nat.mod_eq_of_lt hlba, harr]
  refine ⟨harray, hsig, ?_, ?_⟩
  · rw [hc, Nat.mod_eq_of_lt (by rw [hcrc]; exact crc32_lt _), hhdr,
      headerBytes_crc crc my alternate lastUsable arrayLba (crc32 arr) diskGuid hg, hcrc, crc32_eq]
  · rw [harray, hac, Nat.mod_eq_of_lt (crc32_lt _), crc32_eq]

/-! ## The partitions read back -/

theorem filterMap_range_getElem? {α β : Type} (f : α → β) : ∀ {l : List α} {n : Nat}, l.length ≤ n →
      (List.range n).filterMap (fun i => (l[i]?).map f) = l.map f
  | [], n, _ => by simp
  | a :: l, 0, h => by simp at h
  | a :: l, n + 1, h => by
    have ih := filterMap_range_getElem? f (l := l) (n := n) (by simpa using h)
    simpa [range_succ_eq_map, filterMap_map, Function.comp_def] using ih

theorem layout_types {o : Opts} {lu : UInt64} {ps : List Part} (h : layout o lu = .ok ps) :
    (∀ p ∈ ps, p.type.length = 16 ∧ p.type ≠ List.replicate 16 0) ∧ ps.length ≤ 128 ∧
      ∃ p, ps.head? = some p ∧ p.type = Stam.Gpt.espType := by
  have hswap : ∀ next, (∀ p ∈ swapParts o next, p.type = swapType) ∧
      (swapParts o next).length ≤ 1 := by
    intro next
    unfold swapParts
    split_ifs
    · exact ⟨fun p hp => by rw [mem_singleton.1 hp]; rfl, le_refl 1⟩
    · exact ⟨nofun, Nat.zero_le 1⟩
  have hhome : ∀ next, (∀ p ∈ homeParts o next, p.type = homeType ∨ p.type = swapType) ∧
      (homeParts o next).length ≤ 2 := by
    intro next
    unfold homeParts
    dsimp only
    split_ifs
    · obtain ⟨hs, hn⟩ := hswap ((sized homeType "home" next o.homeMb).last + 1)
      refine ⟨fun p hp => ?_, by rw [length_cons]; omega⟩
      rcases mem_cons.1 hp with rfl | hp
      · exact .inl rfl
      · exact .inr (hs p hp)
    · obtain ⟨hs, hn⟩ := hswap next
      exact ⟨fun p hp => .inr (hs p hp), by omega⟩
  have htype : ∀ t, t = espType ∨ t = linuxType ∨ t = homeType ∨ t = swapType →
      t.length = 16 ∧ t ≠ List.replicate 16 0 := by
    rintro t (rfl | rfl | rfl | rfl) <;> decide
  have hesp : espType = Stam.Gpt.espType := by decide
  unfold layout at h
  dsimp only at h
  split_ifs at h with hroot hno
  · obtain rfl := Except.ok.inj h
    obtain ⟨ht, hn⟩ := hhome (rootEnd o lu ((espPart o lu).last + 1) + 1)
    refine ⟨fun p hp => htype _ ?_, ?_, _, rfl, hesp⟩
    · rcases mem_cons.1 hp with rfl | hp
      · exact .inl rfl
      · rcases mem_cons.1 hp with rfl | hp
        · exact .inr (.inl rfl)
        · exact .inr (.inr (ht p hp))
    · rw [length_cons, length_cons]
      omega
  · obtain rfl := Except.ok.inj h
    obtain ⟨ht, hn⟩ := hhome ((espPart o lu).last + 1)
    refine ⟨fun p hp => htype _ ?_, ?_, _, rfl, hesp⟩
    · rcases mem_cons.1 hp with rfl | hp
      · exact .inl rfl
      · exact .inr (.inr (ht p hp))
    · rw [length_cons]
      omega

/-- What a run without an error comes to. -/
structure Written (o : Opts) (sectors : Nat) (rnd : Nat → Fin 16 → UInt8)
    (ws : List (Nat × List UInt8)) (ps : List Part) : Prop where
  least : 2048 ≤ sectors
  layout : layout o (UInt64.ofNat (sectors - 34)) = .ok ps
  checked : check (UInt64.ofNat (sectors - 34)) none ps = .ok ()
  writes : ∃ m : List UInt8, m.length = 512 ∧
    let head (my alternate arrayLba : Nat) :=
      header my alternate (sectors - 34) arrayLba (guidRandom (rnd ps.length)) (crc32 (array rnd ps))
    ws = [(2, array rnd ps), (1, head 1 (sectors - 1) 2), (sectors - 33, array rnd ps),
      (sectors - 1, head (sectors - 1) 1 (sectors - 33)), (0, m)]

theorem vpart_written {strtoul : String → UInt64} {rnd : Nat → Fin 16 → UInt8} {argv : List String}
    {size : Nat} {o : Opts} {ws : List (Nat × List UInt8)} (hsize : size < 2 ^ 63)
    (hparse : parseArgs strtoul argv {} = .ok o) (h : vpart strtoul rnd argv size = .ok ws) :
    ∃ ps, Written o (size / 512) rnd ws ps := by
  set sectors := size / 512 with hsectors
  have hlt : sectors < 2 ^ 54 := by omega
  have hnat : (UInt64.ofNat sectors).toNat = sectors := UInt64.toNat_ofNat_of_lt' (by
    have : UInt64.size = 2 ^ 64 := rfl
    omega)
  have h2048 : (2048 : UInt64).toNat = 2048 := rfl
  have h32 : arraySecs.toNat = 32 := rfl
  have h1 : (1 : UInt64).toNat = 1 := rfl
  have h2 : (2 : UInt64).toNat = 2 := rfl
  unfold vpart at h
  rw [hparse] at h
  dsimp only at h
  rw [← hsectors] at h
  split_ifs at h with husage hneed hsmall
  have hleast : 2048 ≤ sectors := by
    rw [UInt64.not_lt, UInt64.le_iff_toNat_le, hnat, h2048] at hsmall
    exact hsmall
  have hlast : (UInt64.ofNat sectors - 1).toNat = sectors - 1 := by
    rw [toNat_sub, hnat, h1]
    omega
  have hlu : UInt64.ofNat sectors - arraySecs - 2 = UInt64.ofNat (sectors - 34) := by
    apply toNat_inj.1
    rw [toNat_sub, toNat_sub, hnat, h32, h2, toNat_ofNat']
    omega
  have hlu' : UInt64.ofNat sectors - 1 - arraySecs - 1 = UInt64.ofNat (sectors - 34) := by
    apply toNat_inj.1
    rw [toNat_sub, toNat_sub, hlast, h32, h1, toNat_ofNat']
    omega
  have hlunat : (UInt64.ofNat (sectors - 34)).toNat = sectors - 34 := by
    rw [toNat_ofNat']
    omega
  have hbehind : (UInt64.ofNat (sectors - 34) + 1).toNat = sectors - 33 := by
    rw [UInt64.toNat_add, hlunat, h1]
    omega
  rw [hlu] at h
  cases hlay : layout o (UInt64.ofNat (sectors - 34)) with
  | error e => rw [hlay] at h; cases h
  | ok ps =>
    rw [hlay] at h
    dsimp only at h
    unfold writeGpt at h
    dsimp only at h
    rw [hlu'] at h
    cases hcheck : check (UInt64.ofNat (sectors - 34)) none ps with
    | error e => rw [hcheck] at h; cases h
    | ok u =>
      rw [hcheck] at h
      dsimp only at h
      refine ⟨ps, hleast, hlay, hcheck, mbr (UInt64.ofNat sectors - 1), length_mbr _, ?_⟩
      rw [← Except.ok.inj h, hlast, hbehind, hlunat, h1, h2]

section Final

variable {o : Opts} {sectors : Nat} {rnd : Nat → Fin 16 → UInt8} {ws : List (Nat × List UInt8)}
  {ps : List Part}

/-- The partitions on the disk are those that were laid out. -/
theorem Written.partitions_eq (hw : Written o sectors rnd ws ps) (d : Disk)
    (hn : le 80 4 (hdr (d.writes ws) 1) = 128)
    (harr : arrayOf (d.writes ws) (hdr (d.writes ws) 1) = array rnd ps) :
    partitions (d.writes ws) = ps.map fun p => (p.first.toNat, p.last.toNat) := by
  obtain ⟨htypes, hlen, -⟩ := layout_types hw.layout
  have h16 : ∀ p ∈ ps, p.type.length = 16 := fun p hp => (htypes p hp).1
  rw [partitions, hn, harr, ← filterMap_range_getElem? (fun p : Part => (p.first.toNat, p.last.toNat)) hlen]
  apply filterMap_congr
  intro i hi
  rw [array_entry h16 hlen (mem_range.1 hi)]
  cases hp : ps[i]? with
  | none =>
    dsimp only
    rw [part, drop_zero, take_replicate, Nat.min_eq_left (by decide), if_pos rfl]
    rfl
  | some p =>
    obtain ⟨h1, h2, h3⟩ := entry_fields (rnd i) (h16 p (mem_of_getElem? hp))
    dsimp only
    rw [h1, h2, h3, if_neg (htypes p (mem_of_getElem? hp)).2]
    rfl

/-- The kernel finds the first partition. -/
theorem find_first {d : Disk} {n alternate lastUsable arrayCrc : Nat} {diskGuid : List UInt8}
    {p : Part} (hg : diskGuid.length = 16) (hn : 2 < n ∧ n < 2 ^ 54)
    (hhdr : d.read 1 512 = header 1 alternate lastUsable 2 diskGuid arrayCrc)
    (harr : d.read 2 (128 * 128) = array rnd ps) (h16 : ∀ p ∈ ps, p.type.length = 16)
    (hlen : ps.length ≤ 128) (hhead : ps.head? = some p) (hesp : p.type = Stam.Gpt.espType)
    (hp : Placed (n - 34) p) : Stam.Gpt.gptFindEsp (some (sectorsOf d n)) =
      some (p.first.toNat, p.last.toNat + 1 - p.first.toNat) := by
  have hmem : p ∈ ps := mem_of_mem_head? hhead
  have hp0 : ps[0]? = some p := by rw [← head?_eq_getElem?, hhead]
  have hread1 : sectorsOf d n 1 = some (d.read 1 512) := if_pos (by omega)
  have hread2 : sectorsOf d n 2 = some (d.read 2 512) := if_pos hn.1
  obtain ⟨hsig, -, -, -, -, -, hlba, hnum, hsz, -⟩ :=
    headerBytes_fields (crc32 (headerBytes 0 1 alternate lastUsable 2 diskGuid arrayCrc)) 1 alternate
      lastUsable 2 arrayCrc diskGuid hg (List.replicate 420 0)
  have hheader : d.read 1 512 = headerBytes (crc32 (headerBytes 0 1 alternate lastUsable 2 diskGuid
      arrayCrc)) 1 alternate lastUsable 2 diskGuid arrayCrc ++ List.replicate 420 0 := hhdr
  rw [← hheader] at hsig hlba hnum hsz
  -- a field of the first sector of the array is one of the first entry
  have hfield : ∀ off len, off + len ≤ 128 →
      part off len (d.read 2 512) = part off len (entry p (rnd 0)) := by
    intro off len hle
    have hentry : part (0 * 128) 128 (array rnd ps) = entry p (rnd 0) := by
      rw [array_entry h16 hlen (by decide), hp0]
    have hle512 : 512 ≤ 128 * 128 := by decide
    rw [← hentry, Nat.zero_mul, part, part, part, drop_zero, ← part, ← part, part_take _ hle,
      ← take_read hle512, harr, part_take _ (by omega)]
  obtain ⟨h1, h2, h3⟩ := entry_fields (rnd 0) (h16 p hmem)
  have hfirst : Stam.Gpt.rd64 32 (d.read 2 512) = p.first.toNat := by
    rw [Stam.Gpt.rd64, hfield _ _ (by decide)]
    exact h2
  have hlast : Stam.Gpt.rd64 40 (d.read 2 512) = p.last.toNat := by
    rw [Stam.Gpt.rd64, hfield _ _ (by decide)]
    exact h3
  have hplace := hp.order
  have hend := hp.last
  have hfind := Stam.Gpt.findFrom_first (n := 127) hread2 (by decide)
    (by rw [hfield _ _ (by decide), h1, hesp]) (by rw [hfirst, hlast]; exact hplace)
  have hsig' : part 0 8 (d.read 1 512) = Stam.Gpt.sig := by
    rw [hsig]
    decide
  have hsz' : Stam.Gpt.rd32 84 (d.read 1 512) = 128 := hsz
  have hnum' : Stam.Gpt.rd32 80 (d.read 1 512) = 128 := hnum
  have hlba' : Stam.Gpt.rd64 72 (d.read 1 512) = 2 := hlba
  unfold Stam.Gpt.gptFindEsp
  dsimp only
  rw [hread1]
  dsimp only
  have hsize : (p.last.toNat - p.first.toNat + 1) % 2 ^ 64 = p.last.toNat + 1 - p.first.toNat := by
    omega
  rw [if_neg (not_not.2 hsig'), hsz', hnum', hlba', if_neg (by decide), hfind, hfirst, hlast, hsize]

theorem Written.valid_iff (hw : Written o sectors rnd ws ps) (hsec : sectors < 2 ^ 54) (d : Disk) :
    Valid (d.writes ws) sectors o ↔ ps.map Part.size = asked o sectors := by
  obtain ⟨htypes, hlen, p0, hhead, hesp⟩ := layout_types hw.layout
  have h16 : ∀ p ∈ ps, p.type.length = 16 := fun p hp => (htypes p hp).1
  have hleast := hw.least
  have hlu : (UInt64.ofNat (sectors - 34)).toNat = sectors - 34 := by
    rw [toNat_ofNat']
    omega
  obtain ⟨m, hm, hws⟩ := hw.writes
  dsimp only at hws
  have hg := length_guidRandom (rnd ps.length)
  have harrlen : (array rnd ps).length = 128 * 128 := length_array h16 hlen
  obtain ⟨hr1, hr2, hr3, hr4⟩ := read_writes d hleast harrlen
    (length_header 1 (sectors - 1) (sectors - 34) 2 (crc32 (array rnd ps)) hg)
    (length_header (sectors - 1) 1 (sectors - 34) (sectors - 33) (crc32 (array rnd ps)) hg) hm
  rw [← hws] at hr1 hr2 hr3 hr4
  obtain ⟨ha1, hc1⟩ := hdr_checks hg (by omega) hr2 hr1
  obtain ⟨ha2, hc2⟩ := hdr_checks hg (by omega) hr4 hr3
  obtain ⟨crc1, -, hh1⟩ := hdr_of_read hg hr2
  obtain ⟨crc2, -, hh2⟩ := hdr_of_read hg hr4
  have hf1 := headerBytes_fields crc1 1 (sectors - 1) (sectors - 34) 2 (crc32 (array rnd ps)) _ hg []
  have hf2 := headerBytes_fields crc2 (sectors - 1) 1 (sectors - 34) (sectors - 33)
    (crc32 (array rnd ps)) _ hg []
  rw [append_nil, ← hh1] at hf1
  rw [append_nil, ← hh2] at hf2
  obtain ⟨-, -, hmy1, halt1, hfu1, hlu1, harr1, hn1, hsz1, -⟩ := hf1
  obtain ⟨-, -, hmy2, halt2, -, -, harr2, -, -, -⟩ := hf2
  rw [Nat.mod_eq_of_lt (by omega)] at hmy1 halt1 hlu1 harr1 hmy2 halt2 harr2
  have hparts := hw.partitions_eq d hn1 ha1
  have hsizes : (partitions (d.writes ws)).map (fun p => p.2 + 1 - p.1) = ps.map Part.size := by
    rw [hparts, map_map]
    rfl
  have hplaced : ∀ p ∈ ps, Placed (sectors - 34) p := by
    rw [← hlu]
    exact check_placed hw.checked
  constructor
  · intro h
    rw [← hsizes]
    exact h.sizes
  · intro hasked
    constructor
    · exact hc1
    · exact hc2
    · intro i hi hcrc hlba harr
      rw [hh1, hh2]
      exact headerBytes_alike _ _ _ _ _ _ _ hg hi hcrc hlba harr
    · exact ⟨hmy1, halt1, hmy2, halt2⟩
    · rw [ha1, ha2]
    · rw [hparts]
      exact (check_pairwise hw.checked).map _ fun p q hpq => .inl hpq
    · rw [hparts, hfu1, hlu1]
      intro p hp
      obtain ⟨q, hq, rfl⟩ := mem_map.1 hp
      exact ⟨(hplaced q hq).first, (hplaced q hq).order, (hplaced q hq).last⟩
    · rw [hparts]
      intro p hp r hr
      obtain ⟨q, hq, rfl⟩ := mem_map.1 hp
      have hfirst := (hplaced q hq).first
      have hlast := (hplaced q hq).last
      rw [reserved, harr1, harr2] at hr
      simp only [mem_cons, not_mem_nil, or_false] at hr
      unfold Apart
      rcases hr with rfl | rfl | rfl | rfl | rfl <;> dsimp only <;> omega
    · rw [hsizes, hasked]
    · refine ⟨(p0.first.toNat, p0.last.toNat), ?_, ?_⟩
      · rw [hparts, head?_map, hhead]
        rfl
      · exact find_first hg (by omega) hr2 hr1 h16 hlen hhead hesp
          (hplaced p0 (mem_of_mem_head? hhead))

end Final

/-- A disk that vpart wrote without an error has a valid table if and only if every size it used is
below 2^53 MiB. -/
theorem gpt_valid_iff (strtoul : String → UInt64) (rnd : Nat → Fin 16 → UInt8) (argv : List String)
    (size : Nat) (hsize : size < 2 ^ 63) (d : Disk) (o : Opts) (ws : List (Nat × List UInt8))
    (hparse : parseArgs strtoul argv {} = .ok o) (h : vpart strtoul rnd argv size = .ok ws) :
    Valid (d.writes ws) (size / 512) o ↔ Fits o := by
  obtain ⟨ps, hw⟩ := vpart_written hsize hparse h
  have hsec : size / 512 < 2 ^ 54 := by omega
  rw [hw.valid_iff hsec d]
  constructor
  · intro hsizes
    exact fits_of_sizes hsizes hw.checked
  · intro hfits
    refine layout_sizes hfits ?_ hsec hw.layout hw.checked
    rw [toNat_ofNat']
    omega

/-- `strtoul`, of digits. -/
def decimal (s : String) : UInt64 :=
  s.toList.foldl (fun v c => v * 10 + UInt64.ofNat (c.toNat - 48)) 0

/-- A disk of 64 MiB with half of it for the EFI system partition. -/
theorem gpt_valid_half : ∃ ws,
    vpart decimal (fun _ _ => 0) ["disk", "--esp", "32"] 67108864 = .ok ws ∧
      Valid (Disk.writes (fun _ => 0) ws) 131072 { path := some "disk", espMb := 32 } :=
  ⟨_, rfl, (gpt_valid_iff decimal (fun _ _ => 0) ["disk", "--esp", "32"] 67108864 (by decide)
    (fun _ => 0) { path := some "disk", espMb := 32 } _ rfl rfl).2
    ⟨fun _ => by decide, nofun, by decide, by decide⟩⟩

/-- One MiB more than 2^53 is taken for one MiB. -/
theorem gpt_invalid : ∃ ws,
    vpart decimal (fun _ _ => 0) ["disk", "--esp", "9007199254740993"] 67108864 = .ok ws ∧
      ¬Valid (Disk.writes (fun _ => 0) ws) 131072
        { path := some "disk", espMb := 9007199254740993 } := by
  have hparse : parseArgs decimal ["disk", "--esp", "9007199254740993"] {} =
    .ok { path := some "disk", espMb := 9007199254740993 } := rfl
  refine ⟨_, rfl, fun h => ?_⟩
  obtain ⟨ps, hw⟩ := @vpart_written decimal (fun _ _ => 0) _ 67108864 _ _ (by decide) hparse rfl
  have hfits := fits_of_sizes ((hw.valid_iff (by decide) _).1 h) hw.checked
  exact absurd (hfits.esp rfl) (by decide)

end Verkos.Vpart
