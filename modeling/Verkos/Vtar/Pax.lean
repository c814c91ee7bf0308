import Verkos.Vtar.Extract

/-!
# The records of a pax header

A record is `"<len> key=value\n"` with its own length in front. `do_extract` reads 8191 bytes of a
header at most, and walks them record by record: it sees the records that end there, and of those
the paths that fit into `pending`. `paxLoop_records` is this walk on any records.
-/

namespace Verkos.Vtar

open List

/-- A decimal digit. -/
def IsDigit (d : UInt8) : Prop := 48 ≤ d ∧ d ≤ 57

/-- The parts of a record; no key has a `=` in it, and the digits count the whole. -/
structure PaxRecord where
  digits : List UInt8
  key : List UInt8
  value : List UInt8
  isDigit : ∀ d ∈ digits, IsDigit d
  noEquals : 61 ∉ key
  counts : decimal digits 0 = digits.length + 1 + (key.length + 1 + (value.length + 1))

namespace PaxRecord

/-- The record as it stands in the header. -/
def text (r : PaxRecord) : List UInt8 := r.digits ++ 32 :: (r.key ++ 61 :: (r.value ++ [10]))

/-- `"path"`. -/
def pathName : List UInt8 := [112, 97, 116, 104]

theorem length_text (r : PaxRecord) : r.text.length = decimal r.digits 0 := by
  rw [r.counts, text, length_append, length_cons, length_append, length_cons,
    length_append, length_singleton]
  omega

end PaxRecord

/-! ## Numbers -/

section Digits

variable {ds rest : List UInt8}

theorem isDigit_ne {d : UInt8} (h : IsDigit d) : d ≠ 32 ∧ d ≠ 0 := by
  constructor <;> rintro rfl <;> exact absurd h.1 (by decide)

theorem findSpace_digits (h : ∀ d ∈ ds, IsDigit d) :
    findSpace ds = none ∧ ∀ rest, findSpace (ds ++ 32 :: rest) = some ds.length := by
  induction ds with
  | nil => exact ⟨rfl, fun _ => rfl⟩
  | cons d ds ih =>
    obtain ⟨hspace, hnul⟩ := isDigit_ne (h d mem_cons_self)
    obtain ⟨hnone, hsome⟩ := ih fun d hd => h d (mem_cons_of_mem _ hd)
    constructor
    · rw [findSpace, if_neg hspace, if_neg hnul, hnone]
      rfl
    · intro rest
      rw [cons_append, findSpace, if_neg hspace, if_neg hnul, hsome]
      rfl

theorem decimal_digits (h : ∀ d ∈ ds, IsDigit d) (v : Nat) :
    decimal (ds ++ 32 :: rest) v = decimal ds v := by
  induction ds generalizing v with
  | nil => rfl
  | cons d ds ih =>
    have hd : ¬ (d < 48 ∨ 57 < d) := by
      simpa [IsDigit] using h d mem_cons_self
    rw [cons_append, decimal, decimal, if_neg hd, if_neg hd]
    exact ih (fun d hd => h d (mem_cons_of_mem _ hd)) _

theorem strtol_digits (h : ∀ d ∈ ds, IsDigit d) (hne : ds ≠ []) :
    strtol (ds ++ 32 :: rest) = decimal ds 0 := by
  obtain ⟨d, tail, rfl⟩ := exists_cons_of_ne_nil hne
  have hd := h d mem_cons_self
  have hskip : ((d :: tail) ++ 32 :: rest).dropWhile
      (fun c => c = 32 ∨ (9 ≤ c ∧ c ≤ 13)) = d :: (tail ++ 32 :: rest) := by
    rw [cons_append, dropWhile_cons_of_neg]
    simp only [decide_eq_true_eq]
    rintro (rfl | ⟨-, hle⟩)
    · exact absurd hd.1 (by decide)
    · exact absurd (UInt8.le_trans hd.1 hle) (by decide)
  have hminus : d ≠ 45 := by
    rintro rfl
    exact absurd hd.1 (by decide)
  have hplus : d ≠ 43 := by
    rintro rfl
    exact absurd hd.1 (by decide)
  rw [strtol, hskip]
  split
  · rename_i heq
    exact absurd (List.cons.inj heq).1 hminus
  · rename_i heq
    exact absurd (List.cons.inj heq).1 hplus
  · exact congrArg _ (decimal_digits h 0)

end Digits

/-! ## The walk -/

/-- What the walk leaves in `pending`, for records from a place on. -/
def paxPending : List PaxRecord → Nat → Str → Str
  | [], _, pending => pending
  | r :: rs, start, pending =>
    if start + r.text.length ≤ 8191 then
      paxPending rs (start + r.text.length)
        (if r.key = PaxRecord.pathName ∧ 0 < r.value.length ∧ r.value.length < 4096 then
          cstr r.value else pending)
    else pending

section Record

variable (r : PaxRecord) {rest : List UInt8}

theorem PaxRecord.digits_ne : r.digits ≠ [] := by
  intro h
  have hcounts := r.counts
  rw [h] at hcounts
  have hzero : decimal [] 0 = 0 := rfl
  omega

theorem PaxRecord.take_key : (r.key ++ 61 :: rest).take 5 = pathKey ↔ r.key = pathName := by
  constructor
  · intro h
    rcases Nat.lt_or_ge r.key.length 5 with hlt | hge
    · have heq : pathKey[r.key.length]? = some 61 := by
        rw [← h, getElem?_take_of_lt hlt, getElem?_append_right le_rfl, Nat.sub_self]
        rfl
      have hlen : r.key.length = 4 := by
        revert heq hlt
        generalize r.key.length = n
        intro hlt heq
        match n with
        | 0 | 1 | 2 | 3 => exact absurd heq (by decide)
        | 4 => rfl
        | n + 5 => omega
      have htake := congrArg (List.take 4) h
      rw [take_take, take_append_of_le_length (by omega),
        take_of_length_le (by omega)] at htake
      exact htake
    · rw [take_append_of_le_length hge] at h
      have hmem : (61 : UInt8) ∈ r.key.take 5 := by
        rw [h]
        decide
      exact absurd (mem_of_mem_take hmem) r.noEquals
  · intro h
    rw [h]
    rfl

/-- A record that is there as a whole. -/
theorem paxLoop_whole {records : List UInt8} {start : Nat} (h : records.drop start = r.text ++ rest)
    (fuel : Nat) (pending : Str) : paxLoop records (fuel + 1) start pending =
      paxLoop records fuel (start + r.text.length)
        (if r.key = PaxRecord.pathName ∧ 0 < r.value.length ∧ r.value.length < 4096 then
          cstr r.value else pending) := by
  have hlen := congrArg List.length h
  rw [length_drop, length_append] at hlen
  have htext := r.length_text
  have hcounts := r.counts
  have hbegin : r.text ++ rest = r.digits ++ 32 :: (r.key ++ 61 :: (r.value ++ 10 :: rest)) := by
    simp [PaxRecord.text]
  have hspace : findSpace (records.drop start) = some r.digits.length := by
    rw [h, hbegin]
    exact (findSpace_digits r.isDigit).2 _
  have hrlen : strtol (records.drop start) = r.text.length := by
    rw [h, hbegin, strtol_digits r.isDigit r.digits_ne, htext]
  have hbehind : ∀ k, records.drop (start + r.digits.length + 1 + k) =
      (r.key ++ 61 :: (r.value ++ 10 :: rest)).drop k := by
    intro k
    rw [Nat.add_assoc, Nat.add_assoc, ← drop_drop, h, hbegin, ← drop_drop,
      drop_left, Nat.add_comm 1 k, drop_succ_cons]
  have hkey : field records (start + r.digits.length + 1) 5 = pathKey ↔
      r.key = PaxRecord.pathName := by
    have hbehind0 := hbehind 0
    rw [Nat.add_zero, drop_zero] at hbehind0
    rw [field, hbehind0]
    exact r.take_key
  have hvalue : r.key = PaxRecord.pathName →
      (r.text.length : Int) - (r.digits.length + 6) - 1 = r.value.length ∧
        field records (start + r.digits.length + 6) r.value.length = r.value := by
    intro hk
    have hfour : r.key.length = 4 := by
      rw [hk]
      rfl
    refine ⟨by omega, ?_⟩
    have hskip := hbehind 5
    have hsum : start + r.digits.length + 1 + 5 = start + r.digits.length + 6 := by omega
    rw [hsum, hk] at hskip
    rw [field, hskip]
    exact take_left
  rw [paxLoop, if_neg (by omega), hspace]
  dsimp only
  rw [hrlen, if_neg (by omega), Int.toNat_natCast]
  congr 1
  by_cases hk : r.key = PaxRecord.pathName
  · obtain ⟨hvlen, hfield⟩ := hvalue hk
    rw [hvlen, Int.toNat_natCast, hfield]
    have hiff : (field records (start + r.digits.length + 1) 5 = pathKey ∧
        0 < (r.value.length : Int) ∧ (r.value.length : Int) < 4096) ↔
        r.key = PaxRecord.pathName ∧ 0 < r.value.length ∧ r.value.length < 4096 := by
      exact and_congr hkey (by omega)
    simp only [hiff]
  · rw [if_neg fun hc => hk (hkey.1 hc.1), if_neg fun hc => hk hc.1]

theorem paxLoop_cut {records : List UInt8} {start k : Nat} (h : records.drop start = r.text.take k)
    (hk : k < r.text.length) (fuel : Nat) (pending : Str) :
    paxLoop records fuel start pending = pending := by
  cases fuel with
  | zero => rfl
  | succ fuel =>
    have hlen := congrArg List.length h
    rw [length_drop, length_take] at hlen
    rw [paxLoop]
    by_cases hend : records.length ≤ start
    · rw [if_pos hend]
    · rw [if_neg hend]
      rcases Nat.lt_or_ge r.digits.length k with hlt | hge
      · have hbegin : r.text.take k = r.digits ++
            32 :: (r.key ++ 61 :: (r.value ++ [10])).take (k - r.digits.length - 1) := by
          rw [PaxRecord.text, take_append, take_of_length_le hlt.le]
          congr 1
          obtain ⟨m, hm⟩ := Nat.exists_eq_add_of_lt hlt
          have hsub : k - r.digits.length = m + 1 := by omega
          rw [hsub, take_succ_cons, Nat.add_sub_cancel]
        have hrlen : strtol (records.drop start) = r.text.length := by
          rw [h, hbegin, strtol_digits r.isDigit r.digits_ne, r.length_text]
        rw [h, hbegin, (findSpace_digits r.isDigit).2, ← hbegin, ← h]
        dsimp only
        rw [hrlen, if_pos (by omega)]
      · have hdigits : r.text.take k = r.digits.take k := by
          rw [PaxRecord.text, take_append_of_le_length hge]
        rw [h, hdigits, (findSpace_digits fun d hd => r.isDigit d (mem_of_mem_take hd)).1]

end Record

/-- The walk on the records of a header. -/
theorem paxLoop_records (rs : List PaxRecord) {front : List UInt8} {fuel : Nat}
    (hfuel : ((front ++ rs.flatMap PaxRecord.text).take 8191).length ≤ front.length + fuel)
    (pending : Str) :
    paxLoop ((front ++ rs.flatMap PaxRecord.text).take 8191) fuel front.length pending =
      paxPending rs front.length pending := by
  induction rs generalizing front fuel pending with
  | nil =>
    rw [paxPending, flatMap_nil, append_nil]
    cases fuel with
    | zero => rfl
    | succ fuel => rw [paxLoop, if_pos (by rw [length_take]; exact Nat.min_le_right _ _)]
  | cons r rs ih =>
    have htext := r.length_text
    have hcounts := r.counts
    rw [flatMap_cons] at hfuel ⊢
    rw [paxPending]
    by_cases hroom : front.length + r.text.length ≤ 8191
    · rw [if_pos hroom]
      have hdrop : ((front ++ (r.text ++ rs.flatMap PaxRecord.text)).take 8191).drop front.length =
          r.text ++ (rs.flatMap PaxRecord.text).take (8191 - front.length - r.text.length) := by
        rw [drop_take, drop_left, take_append, take_of_length_le (by omega)]
      have hlen := congrArg List.length hdrop
      rw [length_drop, length_append] at hlen
      cases fuel with
      | zero => omega
      | succ fuel =>
        rw [paxLoop_whole r hdrop, ← append_assoc, ← length_append]
        rw [← append_assoc] at hfuel
        refine ih ?_ _
        rw [length_append]
        omega
    · rw [if_neg hroom]
      refine paxLoop_cut r (k := 8191 - front.length) ?_ (by omega) fuel pending
      rw [drop_take, drop_left, take_append_of_le_length (by omega)]

end Verkos.Vtar
