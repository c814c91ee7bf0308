import Mathlib.Data.BitVec
import Mathlib.Data.List.Range

/-!
# Copies made of pieces

A copy moves bytes and looks at none of them, so what it leaves at an address is a byte that stood
somewhere before, and where it stood does not depend on the bytes. `origin` is that place for a copy
in one piece, `origins` for pieces that are copied one after another. Two copies do the same to every
memory when their origins agree, and pieces without gaps do what the whole does when the ranges do
not overlap upwards (`Tiles.origins_eq_iff`).
-/

namespace Verkos.Lib

variable {w : Nat} {dst src q : BitVec w} {n o y : Nat}

/-- Where the byte at `q` comes from when `n` bytes at `src` are copied to `dst`. -/
def origin (dst src : BitVec w) (n : Nat) (q : BitVec w) : BitVec w :=
  if (q - dst).toNat < n then src + (q - dst) else q

/-- The same for pieces, each an offset and a length, copied in the order of the list. -/
def origins (dst src : BitVec w) : List (BitVec w × Nat) → BitVec w → BitVec w
  | [], q => q
  | p :: ps, q => origin (dst + p.1) (src + p.1) p.2 (origins dst src ps q)

/-! ## One piece -/

theorem ofNat_inj {a b : Nat} (ha : a < 2 ^ w) (hb : b < 2 ^ w) :
    BitVec.ofNat w a = BitVec.ofNat w b ↔ a = b := by
  constructor
  · intro h
    have ht := congrArg BitVec.toNat h
    rwa [BitVec.toNat_ofNat, BitVec.toNat_ofNat, Nat.mod_eq_of_lt ha, Nat.mod_eq_of_lt hb] at ht
  · rintro rfl
    rfl

theorem add_ofNat_inj {a b : Nat} (ha : a < 2 ^ w) (hb : b < 2 ^ w) :
    dst + BitVec.ofNat w a = dst + BitVec.ofNat w b ↔ a = b := by
  rw [BitVec.add_right_inj, ofNat_inj ha hb]

/-- An address of a range is so far from its start. -/
theorem within_iff (hn : n ≤ 2 ^ w) :
    (q - dst).toNat < n ↔ ∃ i < n, q = dst + BitVec.ofNat w i := by
  constructor
  · intro h
    refine ⟨_, h, ?_⟩
    rw [BitVec.ofNat_toNat, BitVec.setWidth_eq, BitVec.add_comm, BitVec.sub_add_cancel]
  · rintro ⟨i, hi, rfl⟩
    rw [BitVec.add_comm, BitVec.add_sub_cancel, BitVec.toNat_ofNat, Nat.mod_eq_of_lt (by omega)]
    exact hi

theorem origin_in {i : Nat} (hn : n ≤ 2 ^ w) (hi : i < n) :
    origin dst src n (dst + BitVec.ofNat w i) = src + BitVec.ofNat w i := by
  rw [origin, if_pos ((within_iff hn).2 ⟨i, hi, rfl⟩), BitVec.add_comm dst, BitVec.add_sub_cancel]

theorem origin_out (hn : n ≤ 2 ^ w) (h : ∀ i < n, q ≠ dst + BitVec.ofNat w i) :
    origin dst src n q = q := by
  rw [origin, if_neg]
  intro hin
  obtain ⟨i, hi, hq⟩ := (within_iff hn).1 hin
  exact h i hi hq

theorem origin_start (hn : 0 < n) : origin dst src n dst = src := by
  have hzero : (0 : BitVec w).toNat < n := by
    have hz : (0 : BitVec w).toNat = 0 := BitVec.toNat_zero
    rw [hz]
    exact hn
  rw [origin, sub_self, if_pos hzero, add_zero]

@[simp] theorem origin_self (dst : BitVec w) (n : Nat) (q : BitVec w) : origin dst dst n q = q := by
  rw [origin, BitVec.add_comm, BitVec.sub_add_cancel, ite_self]

/-! ## Pieces -/

theorem origins_self (dst : BitVec w) (ps : List (BitVec w × Nat)) (q : BitVec w) :
    origins dst dst ps q = q := by
  induction ps with
  | nil => rfl
  | cons p ps ih => rw [origins, ih, origin_self]

/-- What no piece is copied to stays. -/
theorem origins_out {ps : List (BitVec w × Nat)} (hlen : ∀ p ∈ ps, p.2 ≤ 2 ^ w)
    (h : ∀ p ∈ ps, ∀ i < p.2, q ≠ dst + p.1 + BitVec.ofNat w i) : origins dst src ps q = q := by
  induction ps with
  | nil => rfl
  | cons p ps ih =>
    rw [origins, ih (fun p' hp' => hlen p' (.tail _ hp')) fun p' hp' => h p' (.tail _ hp')]
    exact origin_out (hlen p (.head _)) (h p (.head _))

/-- Pieces that cover the offsets from `o` to `n`, without a gap and upwards. -/
inductive Tiles : Nat → List (Nat × Nat) → Nat → Prop
  | nil (n : Nat) : Tiles n [] n
  | cons {o k n : Nat} {ps : List (Nat × Nat)} : 0 < k → Tiles (o + k) ps n →
    Tiles o ((o, k) :: ps) n

/-- The offsets as addresses have them. -/
def placed (w : Nat) (ps : List (Nat × Nat)) : List (BitVec w × Nat) :=
  ps.map fun p => (BitVec.ofNat w p.1, p.2)

namespace Tiles

variable {ps ps' : List (Nat × Nat)} {m : Nat}

theorem append (h : Tiles o ps m) (h' : Tiles m ps' n) : Tiles o (ps ++ ps') n := by
  induction h with
  | nil => exact h'
  | cons hk _ ih => exact .cons hk (ih h')

/-- Equal pieces in a row. -/
theorem rows {k : Nat} (hk : 0 < k) (o c : Nat) :
    Tiles o ((List.range c).map fun i => (o + k * i, k)) (o + k * c) := by
  induction c with
  | zero => exact .nil _
  | succ c ih =>
    rw [List.range_succ, List.map_append, Nat.mul_succ, ← Nat.add_assoc]
    exact ih.append (.cons hk (.nil _))

theorem le (h : Tiles o ps n) : o ≤ n := by
  induction h with
  | nil => exact Nat.le_refl _
  | cons _ _ ih => omega

theorem bounds (h : Tiles o ps n) : ∀ p ∈ ps, o ≤ p.1 ∧ p.1 + p.2 ≤ n := by
  induction h with
  | nil =>
    intro p hp
    cases hp
  | @cons o k n ps hk h ih =>
    have hle := h.le
    intro p hp
    cases hp with
    | head => exact ⟨Nat.le_refl _, hle⟩
    | tail _ hp =>
      have hp' := ih p hp
      omega

/-- What lies in front of all pieces, or elsewhere, stays. -/
theorem origins_out (h : Tiles o ps n) (hn : n ≤ 2 ^ w)
    (hq : ∀ i, o ≤ i → i < n → q ≠ dst + BitVec.ofNat w i) :
    origins dst src (placed w ps) q = q := by
  apply Lib.origins_out
  · intro p hp
    obtain ⟨p', hp', rfl⟩ := List.mem_map.1 hp
    have hb := h.bounds p' hp'
    dsimp only
    omega
  · intro p hp i hi
    obtain ⟨p', hp', rfl⟩ := List.mem_map.1 hp
    have hb := h.bounds p' hp'
    rw [BitVec.add_assoc, ← BitVec.ofNat_add]
    exact hq _ (by omega) (by dsimp only at hi; omega)

/-- A byte arrives if no piece before its own was copied over it. -/
theorem origins_in (h : Tiles o ps n) (hn : n ≤ 2 ^ w) (hoy : o ≤ y) (hy : y < n)
    (hsrc : ∀ i, o ≤ i → i < y → src + BitVec.ofNat w y ≠ dst + BitVec.ofNat w i) :
    origins dst src (placed w ps) (dst + BitVec.ofNat w y) = src + BitVec.ofNat w y := by
  induction h with
  | nil => omega
  | @cons o k n ps hk h ih =>
    have hle := h.le
    change origin (dst + BitVec.ofNat w o) (src + BitVec.ofNat w o) k
      (origins dst src (placed w ps) (dst + BitVec.ofNat w y)) = _
    by_cases hfirst : y < o + k
    · -- its own piece is this one, and the others leave the place alone
      have hrest := @Tiles.origins_out w dst src (dst + BitVec.ofNat w y) n (o + k) ps h hn
        fun i hi hin he => by
          have := (add_ofNat_inj (by omega) (by omega)).1 he
          omega
      obtain ⟨t, rfl⟩ := Nat.exists_eq_add_of_le hoy
      rw [hrest, BitVec.ofNat_add, ← BitVec.add_assoc, ← BitVec.add_assoc]
      exact origin_in (by omega) (by omega)
    · rw [ih hn (by omega) hy fun i hi hiy => hsrc i (by omega) hiy]
      refine origin_out (by omega) fun t ht => ?_
      rw [BitVec.add_assoc, ← BitVec.ofNat_add]
      exact hsrc _ (by omega) (by omega)

/-- Pieces do what the whole does when the target does not start inside the source, or when there is
only one piece. -/
theorem origins_eq_iff (h : Tiles 0 ps n) (hn : n < 2 ^ w) :
    origins dst src (placed w ps) = origin dst src n ↔
      dst = src ∨ n ≤ (dst - src).toNat ∨ ps.length ≤ 1 := by
  constructor
  · intro heq
    by_contra hcon
    obtain ⟨hne, hlt, hlen⟩ : dst ≠ src ∧ (dst - src).toNat < n ∧ 1 < ps.length := by
      refine ⟨fun hs => hcon (.inl hs), ?_, ?_⟩ <;> by_contra hx <;> exact hcon (by omega)
    obtain ⟨d, hd, hdst⟩ := (within_iff hn.le).1 hlt
    have hpos : 0 < d := by
      refine Nat.pos_of_ne_zero fun hz => hne ?_
      rw [hdst, hz]
      exact BitVec.add_zero src
    cases h with
    | nil => simp at hlen
    | @cons _ k _ ps hk h =>
      have hkn : 0 + k < n := by
        cases h with
        | nil => simp at hlen
        | cons hk' h =>
          have := h.le
          omega
      rw [Nat.zero_add] at h hkn
      -- a byte of a later piece that stands where the first piece was copied to
      obtain ⟨y, hky, hdy, hyn, hyk⟩ : ∃ y, k ≤ y ∧ d ≤ y ∧ y < n ∧ y - d < k :=
        ⟨max k d, by omega, by omega, by omega, by omega⟩
      have hstands : src + BitVec.ofNat w y = dst + BitVec.ofNat w (y - d) := by
        rw [hdst, BitVec.add_assoc, ← BitVec.ofNat_add]
        congr 2
        omega
      have hrest := @origins_in w dst src n k y ps h hn.le hky hyn fun i hi hiy he => by
        rw [hstands] at he
        have := (add_ofNat_inj (by omega) (by omega)).1 he
        omega
      have hcopy := congrFun heq (dst + BitVec.ofNat w y)
      rw [origin_in hn.le hyn] at hcopy
      change origin (dst + 0#w) (src + 0#w) k
        (origins dst src (placed w ps) (dst + BitVec.ofNat w y)) = _ at hcopy
      rw [hrest, hstands, BitVec.add_zero, BitVec.add_zero, origin_in (by omega) hyk, ← hstands]
        at hcopy
      have := (add_ofNat_inj (by omega) (by omega)).1 hcopy
      omega
  · intro hcase
    funext q
    by_cases hq : ∃ y < n, q = dst + BitVec.ofNat w y
    · obtain ⟨y, hy, rfl⟩ := hq
      rw [origin_in hn.le hy]
      rcases hcase with rfl | hcase | hcase
      · exact origins_self _ _ _
      · refine h.origins_in hn.le (Nat.zero_le _) hy fun i _ hi he => ?_
        have hdist : dst - src = BitVec.ofNat w (y - i) := by
          rw [← BitVec.ofNat_sub_ofNat_of_le _ _ (by omega) hi.le]
          have hdst : dst = src + BitVec.ofNat w y - BitVec.ofNat w i := by
            rw [he, BitVec.add_sub_cancel]
          rw [hdst, add_sub_assoc, add_sub_cancel_left]
        rw [hdist, BitVec.toNat_ofNat, Nat.mod_eq_of_lt (by omega)] at hcase
        omega
      · cases h with
        | nil => omega
        | @cons _ k _ ps hk h =>
          have hnil : ps = [] := List.eq_nil_of_length_eq_zero (by simpa using hcase)
          subst hnil
          cases h
          rw [Nat.zero_add] at hy hn
          change origin (dst + 0#w) (src + 0#w) k (dst + BitVec.ofNat w y) = _
          rw [BitVec.add_zero, BitVec.add_zero, origin_in hn.le hy]
    · have hout : ∀ i < n, q ≠ dst + BitVec.ofNat w i := fun i hi he => hq ⟨i, hi, he⟩
      rw [h.origins_out hn.le fun i _ hi => hout i hi, origin_out hn.le hout]

end Tiles

end Verkos.Lib
