import Verkos.Sav.Straight

/-!
# Values that are copied

A struct, an array and an enum are their addresses until one of them is stored, and then
`store_value` moves the bytes: eight at a time, then one at a time, each through a load and a store
whose offset the encoder cuts to what its field holds. What such a copy leaves at an address stood
somewhere before, so a copy is exact when its origins are those of the whole
(`Verkos.Lib.Tiles.origins_eq_iff`).

The generator copies in four ways, which `Place` lists: through an address in a register (a `let`,
an assignment, a result), into a frame slot (a parameter), into a field of a slot (what a case
carries), and from a field of a value into a slot (a name of a match arm).
-/

namespace Verkos.Sav

open Verkos.Lib (Emit origin origins origin_in origin_out origin_self placed Tiles within_iff
  toInt_setWidth_ofInt)
open List
open Machine (goto_goto goto_mem goto_pc goto_withMem goto_x set_mem set_withMem set_x_of_ne)
open BitVec (add_assoc toNat_ofNat)

/-! ## Bytes through a register -/

namespace Mem

variable {m m' : Mem} {a b : Word} {n : Nat} {w : Width} {sg : Bool}

theorem read_lt (m : Mem) (a : Word) (n : Nat) : m.read a n < 256 ^ n := by
  induction n generalizing a with
  | zero => exact Nat.one_pos
  | succ n ih =>
    have hb := (m a).isLt
    have hr := ih (a + 1)
    rw [Mem.read, Nat.pow_succ']
    omega

theorem read_byte {k : Nat} (hk : k < n) :
    m.read a n / 256 ^ k % 256 = (m (a + BitVec.ofNat 64 k)).toNat := by
  induction n generalizing a k with
  | zero => omega
  | succ n ih =>
    have hb := (m a).isLt
    rw [Mem.read]
    cases k with
    | zero =>
      rw [Nat.pow_zero, Nat.div_one, BitVec.add_zero]
      omega
    | succ k =>
      have hrest := ih (a := a + 1) (show k < n by omega)
      have hdiv : ((m a).toNat + 256 * m.read (a + 1) n) / 256 = m.read (a + 1) n := by omega
      rw [Nat.pow_succ', ← Nat.div_div_eq_div_mul, hdiv, hrest, add_assoc, Nat.add_comm k 1,
        BitVec.ofNat_add]
      rfl

theorem pow_bytes (w : Width) : 256 ^ w.bytes = 2 ^ w.bits := by cases w <;> rfl

theorem load_mod : (m.load a w sg).toNat % 256 ^ w.bytes = m.read a w.bytes := by
  have hlt := read_lt m a w.bytes
  rw [pow_bytes] at hlt ⊢
  have hle : w.bits ≤ 64 := by cases w <;> decide
  have hdvd : 2 ^ w.bits ∣ 2 ^ 64 := Nat.pow_dvd_pow 2 hle
  unfold Mem.load
  split_ifs
  · have hcut : BitVec.setWidth w.bits (BitVec.ofInt 64 ((m.read a w.bytes : Int).bmod (2 ^ w.bits))) =
        BitVec.ofNat w.bits (m.read a w.bytes) := by
      apply BitVec.eq_of_toInt_eq
      rw [toInt_setWidth_ofInt hle, Int.bmod_bmod, ← BitVec.ofInt_natCast, BitVec.toInt_ofInt]
    have htoNat := congrArg BitVec.toNat hcut
    rwa [BitVec.toNat_setWidth, toNat_ofNat, Nat.mod_eq_of_lt hlt] at htoNat
  · rw [toNat_ofNat, Nat.mod_mod_of_dvd _ hdvd, Nat.mod_eq_of_lt hlt]

theorem write_load : m'.write b w.bytes (m.load a w sg) = fun q =>
    if (q - b).toNat < w.bytes then m (a + (q - b)) else m' q := by
  funext q
  unfold Mem.write
  split_ifs with hq
  · apply BitVec.eq_of_toNat_eq
    have hsplit : 256 ^ w.bytes = 256 ^ (q - b).toNat * 256 ^ (w.bytes - (q - b).toNat) := by
      rw [← Nat.pow_add]
      congr 1
      omega
    have hbyte := read_byte (m := m) (a := a) hq
    rw [← @load_mod m a w sg] at hbyte
    rw [BitVec.ofNat_toNat, BitVec.setWidth_eq] at hbyte
    rw [← hbyte, toNat_ofNat, Nat.shiftRight_eq_div_pow, Nat.pow_mul]
    change _ / 256 ^ _ % 256 = _
    rw [hsplit, Nat.mod_mul_right_div_self, Nat.mod_mod_of_dvd]
    exact Dvd.dvd.pow (Nat.dvd_refl 256) (by omega)
  · rfl

theorem write_load_self : m.write b w.bytes (m.load a w sg) = m ∘ origin b a w.bytes := by
  rw [write_load]
  funext q
  rw [Function.comp_apply, origin]
  split_ifs <;> rfl

end Mem

/-! ## The copy loop -/

/-- The pieces of a copy of `n` bytes: where each starts, and how wide it is. -/
def chunks (n : Nat) : List (Nat × Width) :=
  (List.range (n / 8)).map (fun k => (8 * k, .w64)) ++
    (List.range (n % 8)).map fun k => (8 * (n / 8) + k, .w8)

/-- A piece loaded and stored. -/
def chunkCode (off : Int) (p : Nat × Width) : List Instr :=
  [ldrOff X17 X0 p.1 p.2 false, strOff X17 X16 (off + p.1) p.2]

theorem copyCode_eq (off : Int) (n : Nat) : copyCode off n = (chunks n).flatMap (chunkCode off) := by
  rw [chunks, flatMap_append, flatMap_map, flatMap_map]
  rfl

/-- The pieces where the encoder lets the loads and stores reach. -/
def cut (ps : List (Nat × Width)) : List (Word × Nat) :=
  ps.map fun p => (BitVec.ofInt 64 (encOffset p.1 p.2), p.2.bytes)

/-- What `a_offset_fits` tests. -/
def offsetFits (off : Int) (sz : Width) : Bool :=
  (0 ≤ off && off % sz.bytes == 0 && off / sz.bytes < 4096) || (-256 ≤ off && off < 256)

theorem offsetFits_iff {off : Int} {sz : Width} :
    offsetFits off sz = true ↔ (0 ≤ off ∧ off % sz.bytes = 0 ∧ off / sz.bytes < 4096) ∨
      (-256 ≤ off ∧ off < 256) := by
  simp [offsetFits, and_assoc]

theorem encOffset_eq_iff {off : Int} {sz : Width} : encOffset off sz = off ↔ offsetFits off sz := by
  rw [offsetFits_iff, encOffset]
  split_ifs with h
  · simp [h]
  · constructor
    · intro he
      have hlo := Int.le_bmod (x := off) (show 0 < 512 by decide)
      have hhi := Int.bmod_lt (x := off) (show 0 < 512 by decide)
      omega
    · rintro (hs | ⟨hlo, hhi⟩)
      · exact absurd hs h
      · exact Int.bmod_eq_of_le (by omega) (by omega)

section Loop

variable {m : Machine} {off : Int}

/-- A load and a store move bytes. -/
theorem run_chunk (p : Nat × Width) : runCode (chunkCode off p) m =
    (((m.withMem (m.mem ∘ origin (m.x X16 + BitVec.ofInt 64 (encOffset (off + p.1) p.2))
      (m.x X0 + BitVec.ofInt 64 (encOffset p.1 p.2)) p.2.bytes)).set X17
        (m.mem.load (m.x X0 + BitVec.ofInt 64 (encOffset p.1 p.2)) p.2 false)).goto (m.pc + 2)) := by
  rw [← @Mem.write_load_self _ _ _ _ false]
  have hload : Instr.run m (ldrOff X17 X0 p.1 p.2 false) =
      (m.set X17 (m.mem.load (m.x X0 + BitVec.ofInt 64 (encOffset p.1 p.2)) p.2 false)).goto
        (m.pc + 1) := by
    rw [← Machine.set_next]
    rfl
  have hstore : ∀ m' : Machine, Instr.run m' (strOff X17 X16 (off + p.1) p.2) =
      (m'.withMem (m'.mem.write (m'.x X16 + BitVec.ofInt 64 (encOffset (off + p.1) p.2)) p.2.bytes
        (m'.x X17))).goto (m'.pc + 1) := fun _ => rfl
  rw [chunkCode, runCode_cons, hload, runCode_cons, runCode_nil, hstore]
  simp only [goto_x, goto_mem, goto_withMem, set_withMem,
    set_mem, goto_goto, goto_pc]
  rw [Machine.set_x_self (by decide), set_x_of_ne (by decide)]

/-- The whole loop moves bytes, and leaves what it likes in `x17`. -/
theorem run_chunks {ps : List (Nat × Width)}
    (hoff : ∀ p ∈ ps, encOffset (off + p.1) p.2 = off + encOffset p.1 p.2) :
    ∃ v, runCode (ps.flatMap (chunkCode off)) m =
      (((m.withMem (m.mem ∘ origins (m.x X16 + BitVec.ofInt 64 off) (m.x X0) (cut ps))).set X17
        v).goto (m.pc + 2 * ps.length)) := by
  induction ps generalizing m with
  | nil =>
    refine ⟨m.x X17, ?_⟩
    change m = ((m.withMem (m.mem ∘ id)).set X17 (m.x X17)).goto m.pc
    rw [Function.comp_id, Machine.withMem_self, Machine.set_self rfl, Machine.goto_self]
  | cons p ps ih =>
    obtain ⟨v, hv⟩ := ih (m := runCode (chunkCode off p) m) fun p' hp' => hoff p' (.tail _ hp')
    refine ⟨v, ?_⟩
    rw [flatMap_cons, runCode_append, hv, run_chunk]
    simp only [goto_x, goto_mem, goto_withMem, set_withMem,
      set_mem, goto_goto, goto_pc, Machine.goto_set, Machine.set_set,
      Machine.withMem_withMem, Machine.withMem_mem]
    rw [set_x_of_ne (by decide), set_x_of_ne (by decide), Machine.withMem_x,
      hoff p (.head _), BitVec.ofInt_add, ← add_assoc, length_cons]
    congr 1
    omega

end Loop

/-! ## When the loop copies -/

/-- The pieces as offsets and lengths. -/
def lengths (ps : List (Nat × Width)) : List (Nat × Nat) := ps.map fun p => (p.1, p.2.bytes)

theorem tiles_chunks (n : Nat) : Tiles 0 (lengths (chunks n)) n := by
  have hwide := Tiles.rows (show 0 < 8 by decide) 0 (n / 8)
  have hbytes := Tiles.rows Nat.one_pos (0 + 8 * (n / 8)) (n % 8)
  have hn : 0 + 8 * (n / 8) + 1 * (n % 8) = n := by omega
  have hall := hwide.append hbytes
  rw [hn] at hall
  rw [lengths, chunks, map_append, map_map, map_map]
  simpa [Function.comp_def, Width.bytes] using hall

/-- The loop names only offsets its loads and stores reach: below 32 KiB eight bytes at a time, and
below 4 KiB one at a time. -/
def CopyFits (n : Nat) : Prop := n ≤ 32768 ∧ n % 8 = 0 ∨ n ≤ 4096

instance (n : Nat) : Decidable (CopyFits n) := inferInstanceAs (Decidable (_ ∨ _))

theorem copyFits_iff {n : Nat} : CopyFits n ↔ ∀ p ∈ chunks n, offsetFits p.1 p.2 := by
  constructor
  · intro hfits p hp
    rw [offsetFits_iff]
    rcases mem_append.1 hp with hp | hp
    · obtain ⟨k, hk, rfl⟩ := mem_map.1 hp
      rw [mem_range] at hk
      left
      change (0 : Int) ≤ ((8 * k : Nat) : Int) ∧ ((8 * k : Nat) : Int) % (8 : Nat) = 0 ∧
        ((8 * k : Nat) : Int) / (8 : Nat) < 4096
      unfold CopyFits at hfits
      omega
    · obtain ⟨k, hk, rfl⟩ := mem_map.1 hp
      rw [mem_range] at hk
      left
      change (0 : Int) ≤ ((8 * (n / 8) + k : Nat) : Int) ∧
        ((8 * (n / 8) + k : Nat) : Int) % (1 : Nat) = 0 ∧
          ((8 * (n / 8) + k : Nat) : Int) / (1 : Nat) < 4096
      unfold CopyFits at hfits
      omega
  · intro h
    by_contra hfits
    have hwide : ∀ k < n / 8, offsetFits ((8 * k : Nat) : Int) .w64 := fun k hk =>
      h (8 * k, .w64) (mem_append_left _ (mem_map.2 ⟨k, mem_range.2 hk, rfl⟩))
    have hbyte : ∀ k < n % 8, offsetFits ((8 * (n / 8) + k : Nat) : Int) .w8 := fun k hk =>
      h (8 * (n / 8) + k, .w8)
        (mem_append_right _ (mem_map.2 ⟨k, mem_range.2 hk, rfl⟩))
    simp only [offsetFits_iff, Width.bytes] at hwide hbyte
    unfold CopyFits at hfits
    by_cases hn : 4096 < n / 8
    · have hlast := hwide 4096 hn
      omega
    · have hlast := hbyte (n % 8 - 1) (by omega)
      omega

theorem cut_of_fits {ps : List (Nat × Width)} (h : ∀ p ∈ ps, offsetFits p.1 p.2) :
    cut ps = placed 64 (lengths ps) := by
  rw [cut, placed, lengths, map_map]
  apply map_congr_left
  intro p hp
  rw [encOffset_eq_iff.2 (h p hp), BitVec.ofInt_natCast]
  rfl

theorem encOffset_cut {off : Int} {sz : Width} (h : ¬offsetFits off sz) :
    -256 ≤ encOffset off sz ∧ encOffset off sz < 256 := by
  rw [offsetFits_iff] at h
  rw [encOffset, if_neg (by tauto)]
  have hlo := Int.le_bmod (x := off) (show 0 < 512 by decide)
  have hhi := Int.bmod_lt (x := off) (show 0 < 512 by decide)
  omega

theorem missed {n : Nat} (h : ¬CopyFits n) : ∃ y < n, y < 2 ^ 32 ∧ 264 ≤ y ∧
    ∀ p ∈ chunks n, offsetFits p.1 p.2 → y < p.1 ∨ p.1 + p.2.bytes ≤ y := by
  have hmem : ∀ p ∈ chunks n, (∃ k < n / 8, p = (8 * k, .w64)) ∨
      ∃ k < n % 8, p = (8 * (n / 8) + k, .w8) := by
    intro p hp
    rcases mem_append.1 hp with hp | hp
    · obtain ⟨k, hk, rfl⟩ := mem_map.1 hp
      exact .inl ⟨k, mem_range.1 hk, rfl⟩
    · obtain ⟨k, hk, rfl⟩ := mem_map.1 hp
      exact .inr ⟨k, mem_range.1 hk, rfl⟩
  unfold CopyFits at h
  by_cases hn : 4096 < n / 8
  · refine ⟨32768, by omega, by omega, by omega, fun p hp hfits => ?_⟩
    rw [offsetFits_iff] at hfits
    rcases hmem p hp with ⟨k, hk, rfl⟩ | ⟨k, hk, rfl⟩ <;> simp only [Width.bytes] at hfits ⊢ <;> omega
  · refine ⟨n - 1, by omega, by omega, by omega, fun p hp hfits => ?_⟩
    rw [offsetFits_iff] at hfits
    rcases hmem p hp with ⟨k, hk, rfl⟩ | ⟨k, hk, rfl⟩ <;> simp only [Width.bytes] at hfits ⊢ <;> omega

/-- The loop copies when its offsets fit and the target does not start inside the source; and onto
itself a value is always copied. -/
theorem copies_iff {dst src : Word} {n : Nat} : origins dst src (cut (chunks n)) = origin dst src n ↔
    dst = src ∨ CopyFits n ∧ (n ≤ (dst - src).toNat ∨ n = 8) := by
  by_cases hself : dst = src
  · subst hself
    refine iff_of_true ?_ (.inl rfl)
    funext q
    rw [Lib.origins_self, origin_self]
  by_cases hfits : CopyFits n
  · have hlen : n < 2 ^ 64 := by
      unfold CopyFits at hfits
      omega
    rw [cut_of_fits (copyFits_iff.1 hfits), (tiles_chunks n).origins_eq_iff hlen]
    have hcount : (lengths (chunks n)).length = n / 8 + n % 8 := by
      simp [lengths, chunks]
    have hpos : n ≤ 1 → n ≤ (dst - src).toNat := by
      intro hn
      have hne : (dst - src).toNat ≠ 0 := fun hz => hself (by
        have hsub : dst - src = 0#64 := BitVec.eq_of_toNat_eq hz
        rw [← BitVec.sub_add_cancel dst src, hsub, BitVec.zero_add])
      omega
    rw [hcount]
    constructor
    · rintro (hs | hd | hc)
      · exact .inl hs
      · exact .inr ⟨hfits, .inl hd⟩
      · by_cases h8 : n = 8
        · exact .inr ⟨hfits, .inr h8⟩
        · exact .inr ⟨hfits, .inl (hpos (by omega))⟩
    · rintro (hs | ⟨-, hd | rfl⟩)
      · exact .inl hs
      · exact .inr (.inl hd)
      · exact .inr (.inr (by decide))
  · refine iff_of_false (fun heq => ?_) (by tauto)
    obtain ⟨y, hyn, hy32, hy264, hy⟩ := missed hfits
    -- nothing is copied to this byte of the target
    have hstays : origins dst src (cut (chunks n)) (dst + BitVec.ofNat 64 y) =
        dst + BitVec.ofNat 64 y := by
      apply Lib.origins_out
      · intro p hp
        obtain ⟨p', -, rfl⟩ := mem_map.1 hp
        have hw : p'.2.bytes ≤ 8 := by cases p'.2 <;> decide
        dsimp only
        omega
      · intro p hp i hi he
        obtain ⟨p', hp', rfl⟩ := mem_map.1 hp
        have hw : p'.2.bytes ≤ 8 := by cases p'.2 <;> decide
        dsimp only at hi he
        rw [add_assoc, BitVec.add_right_inj] at he
        have hnat := congrArg BitVec.toNat he
        rw [BitVec.toNat_add, toNat_ofNat, toNat_ofNat, BitVec.toNat_ofInt] at hnat
        by_cases hfit : offsetFits p'.1 p'.2
        · rw [encOffset_eq_iff.2 hfit] at hnat
          have hp1 : p'.1 < 2 ^ 32 := by
            rw [offsetFits_iff] at hfit
            cases hw' : p'.2 <;> rw [hw'] at hfit <;> simp only [Width.bytes] at hfit <;> omega
          have hout := hy p' hp' hfit
          omega
        · obtain ⟨hlo, hhi⟩ := encOffset_cut hfit
          omega
    have hwhole := congrFun heq (dst + BitVec.ofNat 64 y)
    rw [hstays, origin, add_sub_cancel_left, if_pos ?_] at hwhole
    · rw [BitVec.add_left_inj] at hwhole
      exact hself hwhole
    · rw [toNat_ofNat]
      omega

end Verkos.Sav
