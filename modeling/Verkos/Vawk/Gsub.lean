import Mathlib.Data.List.Basic
import Mathlib.Tactic.Common

/-!
# `sub` and `gsub`

The loop of the two looks for a match in what is left of the target, copies what stands before it,
and goes on behind it. What is meant is said apart from that: the matches, one behind the other, and
the text with each of them replaced. `regcomp` and `regexec` are the C library's.
-/

namespace Verkos.Vawk.Gsub

/-- A string, without the 0 at its end. -/
abbrev Str := List UInt8

/-- What a letter behind a backslash stands for. -/
def escape (c : UInt8) : Option UInt8 :=
  ([(116, 9), (110, 10), (114, 13), (102, 12), (118, 11), (97, 7), (47, 47)] : List _).lookup c

/-- `awk_re`, with `o` bytes in its buffer. -/
def awkRe (o : Nat) : Str → Str
  | [] => []
  | 92 :: d :: rest =>
    if 4096 ≤ o + 2 then []
    else
      match escape d with
      | some e => e :: awkRe (o + 1) rest
      | none => 92 :: d :: awkRe (o + 2) rest
  | c :: rest => if 4096 ≤ o + 2 then [] else c :: awkRe (o + 1) rest

/-- A compiled expression: `regexec` on a string, with `REG_NOTBOL` or not. A match is in the
string. -/
structure Regex where
  exec : Bool → Str → Option (Nat × Nat)
  within : ∀ {notbol s so eo}, exec notbol s = some (so, eo) → so ≤ eo ∧ eo ≤ s.length

/-- The replacement, for a match. -/
def expand (found : Str) : Str → Str
  | [] => []
  | 92 :: 38 :: rest => 38 :: expand found rest
  | c :: rest => if c = 38 then found ++ expand found rest else c :: expand found rest

/-- How it ends: with a new target and the count, without room in `out`, or with a look behind the
end of the target. -/
inductive Outcome where
  | running
  | done (target : Str) (cnt : Nat)
  | overflow
  | past
deriving DecidableEq

/-- A text in `out`. It only grows, so its room is looked at when it is complete. -/
def inOut (out : Str) (cnt : Nat) : Outcome := if out.length < 8192 then .done out cnt else .overflow

/-- `strcpy(out + oi, p)`. -/
def finish (work out : Str) (p cnt : Nat) : Outcome :=
  if work.length < p then .past else inOut (out ++ work.drop p) cnt

variable (re : Regex) (rep work : Str) (isGlobal : Bool)

/-- The loop, so many rounds of it, from a position in the target. -/
def loop : Nat → Nat → Str → Nat → Outcome
  | 0, _, _, _ => .running
  | n + 1, p, out, cnt =>
    if work.length < p then .past
    else
      let s := work.drop p
      match re.exec (p ≠ 0) s with
      | none => finish work out p cnt
      | some (so, eo) =>
        let out := out ++ s.take so ++ expand ((s.take eo).drop so) rep
        let out := if eo = so then out ++ (s.drop eo).take 1 else out
        let p := if eo = so then p + eo + 1 else p + eo
        if isGlobal then loop n p out (cnt + 1) else finish work out p (cnt + 1)

/-- `sub` and `gsub`, for the target: a pattern that is no expression replaces nothing. The loop
needs no more rounds than these. -/
def callSub (regcomp : Str → Option Regex) (pat repl target : Str) : Outcome :=
  match regcomp (awkRe 0 pat) with
  | none => .done target 0
  | some re =>
    let work := target.take 8191
    match loop re (repl.take 1023) work isGlobal (work.length + 2) 0 [] 0 with
    | .done out cnt => .done (if cnt = 0 then target else out) cnt
    | o => o

/-! ## What is meant -/

/-- The matches from a position on, as places in the target. Behind an empty one the search goes on
a character further, if there is one. -/
def matchesFrom : Nat → Nat → List (Nat × Nat)
  | 0, _ => []
  | n + 1, p =>
    match re.exec (p ≠ 0) (work.drop p) with
    | none => []
    | some (so, eo) =>
      (p + so, p + eo) ::
        if so < eo then matchesFrom n (p + eo)
        else if p + eo < work.length then matchesFrom n (p + eo + 1)
        else []

/-- The text from a position on, with the matches replaced. -/
def replaced (p : Nat) : List (Nat × Nat) → Str
  | [] => work.drop p
  | (a, b) :: l => (work.drop p).take (a - p) ++ expand ((work.take b).drop a) rep ++ replaced b l

variable {re rep work}

theorem matchesFrom_bounds {n p a b : Nat} (hp : p ≤ work.length) (h : (a, b) ∈ matchesFrom re work n p) :
    p ≤ a ∧ b ≤ work.length := by
  induction n generalizing p with
  | zero => cases h
  | succ n ih =>
    rw [matchesFrom] at h
    split at h
    · cases h
    next so eo he =>
      obtain ⟨hle, hlen⟩ := re.within he
      rw [List.length_drop] at hlen
      rcases List.mem_cons.1 h with heq | h
      · cases heq
        omega
      · split at h
        · have := ih (by omega) h
          omega
        · split at h
          · have := ih (by omega) h
            omega
          · cases h

/-- Where no match begins, a character is copied. -/
theorem replaced_skip {p : Nat} {l : List (Nat × Nat)} (hl : ∀ a b, (a, b) ∈ l → p + 1 ≤ a) :
    replaced rep work p l = (work.drop p).take 1 ++ replaced rep work (p + 1) l := by
  have hdrop : (work.drop p).take 1 ++ work.drop (p + 1) = work.drop p := by
    rw [← List.drop_drop, List.take_append_drop]
  cases l with
  | nil => exact hdrop.symm
  | cons ab l =>
    obtain ⟨a, b⟩ := ab
    have ha := hl a b (.head _)
    rw [replaced, replaced, ← List.append_assoc, ← List.append_assoc, show a - p = 1 + (a - (p + 1)) by omega,
      List.take_add, List.drop_drop, Nat.add_comm p 1]

/-- The loop of `gsub` comes to its end, unless a match is the empty one at the end. -/
theorem loop_gsub {n p cnt : Nat} {out : Str} (hp : p ≤ work.length) (hn : work.length < n + p) :
    loop re rep work true (n + 1) p out cnt =
      if (work.length, work.length) ∈ matchesFrom re work n p then .past
      else inOut (out ++ replaced rep work p (matchesFrom re work n p))
        (cnt + (matchesFrom re work n p).length) := by
  induction n generalizing p out cnt with
  | zero => omega
  | succ n ih =>
    rw [loop, if_neg (by omega), matchesFrom]
    cases he : re.exec (p ≠ 0) (work.drop p) with
    | none =>
      simp only [he]
      rw [if_neg List.not_mem_nil, finish, if_neg (by omega)]
      rfl
    | some m =>
      obtain ⟨so, eo⟩ := m
      obtain ⟨hle, hlen⟩ := re.within he
      rw [List.length_drop] at hlen
      simp only [he, if_true]
      have htext : ((work.drop p).take eo).drop so = (work.take (p + eo)).drop (p + so) := by
        rw [List.drop_take, List.drop_drop, List.drop_take, Nat.add_sub_add_left]
      have hso : p + so - p = so := by omega
      by_cases heq : eo = so
      · subst heq
        rw [if_neg (Nat.lt_irrefl eo), if_pos rfl, if_pos rfl]
        by_cases hend : p + eo < work.length
        · rw [ih (by omega) (by omega), if_pos hend, replaced, hso, htext,
            replaced_skip fun a b h => (matchesFrom_bounds (by omega) h).1]
          have hhead : (work.length, work.length) ≠ (p + eo, p + eo) := fun h => by
            have h1 := congrArg Prod.fst h
            dsimp only at h1
            omega
          simp only [List.mem_cons, hhead, false_or, List.length_cons, List.append_assoc,
            List.drop_drop, Nat.add_assoc, Nat.add_comm 1]
        · rw [if_neg hend, show p + eo = work.length by omega, if_pos (.head _), loop,
            if_pos (by omega)]
      · rw [if_neg heq, if_neg heq, if_pos (show so < eo by omega), ih (by omega) (by omega), replaced,
          hso, htext]
        have hhead : (work.length, work.length) ≠ (p + so, p + eo) := fun h => by
          have h1 := congrArg Prod.fst h
          have h2 := congrArg Prod.snd h
          dsimp only at h1 h2
          omega
        simp only [List.mem_cons, hhead, false_or, List.length_cons, List.append_assoc,
          Nat.add_assoc, Nat.add_comm 1]

theorem loop_sub {n k : Nat} (hn : work.length < n) : loop re rep work false (k + 1) 0 [] 0 =
      if (work.length, work.length) ∈ (matchesFrom re work n 0).take 1 then .past
      else inOut (replaced rep work 0 ((matchesFrom re work n 0).take 1))
        ((matchesFrom re work n 0).take 1).length := by
  obtain ⟨n, rfl⟩ : ∃ k, n = k + 1 := ⟨n - 1, by omega⟩
  rw [loop, if_neg (Nat.not_lt_zero _), matchesFrom]
  cases he : re.exec (0 ≠ 0) (work.drop 0) with
  | none =>
    simp only [he]
    rw [List.take_nil, if_neg List.not_mem_nil, finish, if_neg (Nat.not_lt_zero _)]
    rfl
  | some m =>
    obtain ⟨so, eo⟩ := m
    obtain ⟨hle, hlen⟩ := re.within he
    simp only [he]
    rw [List.drop_zero] at hlen ⊢
    rw [if_neg Bool.false_ne_true, List.take_succ_cons, List.take_zero, replaced, replaced]
    simp only [Nat.zero_add, List.nil_append, List.drop_zero, Nat.sub_zero]
    by_cases heq : eo = so
    · subst heq
      rw [if_pos rfl, if_pos rfl, finish]
      by_cases hend : eo < work.length
      · have hdrop : (work.drop eo).take 1 ++ work.drop (eo + 1) = work.drop eo := by
          rw [← List.drop_drop, List.take_append_drop]
        rw [if_neg (by omega), if_neg fun h => by simp at h; omega, List.append_assoc, hdrop]
        rfl
      · rw [if_pos (by omega), if_pos (by simp; omega)]
    · rw [if_neg heq, if_neg heq, finish, if_neg (by omega), if_neg fun h => by simp at h; omega]
      rfl

variable (isGlobal : Bool) (regcomp : Str → Option Regex) (pat repl target : Str)

/-- The matches that are to be replaced: of a pattern that is no expression none, else all of them
or the leftmost. -/
def meant : List (Nat × Nat) :=
  match regcomp (awkRe 0 pat) with
  | none => []
  | some re =>
    let l := matchesFrom re target (target.length + 1) 0
    if isGlobal then l else l.take 1

/-- Lengths the buffers allow. -/
def Allowed : Prop := target.length < 8192 ∧ repl.length < 1024 ∧
  (replaced repl target 0 (meant isGlobal regcomp pat target)).length < 8192

/-- The call ends, having looked at nothing behind the target, with what is meant replaced and
counted. -/
def Substitutes : Prop :=
  Allowed isGlobal regcomp pat repl target → callSub isGlobal regcomp pat repl target =
    .done (replaced repl target 0 (meant isGlobal regcomp pat target))
      (meant isGlobal regcomp pat target).length

theorem callSub_eq (h : Allowed isGlobal regcomp pat repl target) :
    callSub isGlobal regcomp pat repl target =
      if (target.length, target.length) ∈ meant isGlobal regcomp pat target then .past
      else .done (replaced repl target 0 (meant isGlobal regcomp pat target))
        (meant isGlobal regcomp pat target).length := by
  obtain ⟨ht, hr, hout⟩ := h
  revert hout
  unfold meant callSub
  cases regcomp (awkRe 0 pat) with
  | none => exact fun _ => rfl
  | some re =>
    intro hout
    dsimp only at hout ⊢
    rw [List.take_of_length_le (by omega), List.take_of_length_le (by omega)]
    obtain ⟨l, hl, hloop⟩ : ∃ l, (if isGlobal then matchesFrom re target (target.length + 1) 0
        else (matchesFrom re target (target.length + 1) 0).take 1) = l ∧
        loop re repl target isGlobal (target.length + 2) 0 [] 0 =
          if (target.length, target.length) ∈ l then .past
          else inOut (replaced repl target 0 l) l.length := by
      cases isGlobal with
      | true =>
        refine ⟨_, rfl, ?_⟩
        rw [loop_gsub (Nat.zero_le _) (by omega), List.nil_append, Nat.zero_add]
        rfl
      | false => exact ⟨_, rfl, loop_sub (by omega)⟩
    simp only [hl] at hout ⊢
    rw [hloop]
    by_cases hpast : (target.length, target.length) ∈ l
    · rw [if_pos hpast, if_pos hpast]
    · rw [if_neg hpast, if_neg hpast, inOut, if_pos hout]
      cases l with
      | nil => rfl
      | cons m l => rfl

theorem substitutes_iff : Substitutes isGlobal regcomp pat repl target ↔
    (Allowed isGlobal regcomp pat repl target →
      (target.length, target.length) ∉ meant isGlobal regcomp pat target) := by
  refine forall_congr' fun h => ?_
  rw [callSub_eq _ _ _ _ _ h]
  split
  next hpast => exact ⟨Outcome.noConfusion, fun hn => absurd hpast hn⟩
  next hpast => exact ⟨fun _ => hpast, fun _ => rfl⟩

/-- `sub(/$/, "x")`, with an expression that matches at the end only. -/
theorem not_substitutes : ¬∀ (isGlobal : Bool) (regcomp : Str → Option Regex) (pat repl target : Str),
    Substitutes isGlobal regcomp pat repl target := by
  intro h
  let re : Regex := ⟨fun _ s => some (s.length, s.length), fun h => by cases h; simp⟩
  have hall : Allowed false (fun _ => some re) [36] [120] [97, 98] :=
    ⟨by decide, by decide, by decide⟩
  exact absurd (h _ _ _ _ _ hall) (by decide)

end Verkos.Vawk.Gsub
