import Mathlib.Algebra.Order.BigOperators.Group.List
import Mathlib.Algebra.GroupWithZero.Nat
import Mathlib.Algebra.Order.Group.Nat
import Mathlib.Data.List.TakeWhile
import Verkos.Vlogin.Lines

/-!
# What an edit of a file changes

`db_replace_line` on a file of any bytes: it reads pieces of at most 4095 bytes, takes each one for
a line, and writes it as a string, up to its first NUL. A file is edited as it should be, whatever
the replacement, exactly when each of its lines is `Handled`.
-/

namespace Verkos.Vlogin

open List

/-! ## Lines and their keys -/

/-- The lines of a file with their newlines, the one being read in `cur`. -/
def rawLinesFrom : Text → Text → List Text
  | cur, [] => if cur = [] then [] else [cur]
  | cur, c :: t =>
    if c = '\n' then (cur ++ [c]) :: rawLinesFrom [] t else rawLinesFrom (cur ++ [c]) t

def rawLines (t : Text) : List Text := rawLinesFrom [] t

/-- The first field, where there is a colon behind it. -/
def keyOf (line : Text) : Option Text :=
  if ':' ∈ line then some (line.takeWhile (· ≠ ':')) else none

/-- What stands for a line that is replaced or removed. -/
def inPlace (repl : Option Text) : Text := repl.elim [] (· ++ ['\n'])

/-- The file with the lines of `key` replaced. -/
def edited (t key : Text) (repl : Option Text) : Text :=
  (rawLines t).flatMap fun line => if keyOf line = some key then inPlace repl else line

/-! ## The loops -/

/-- A buffer as a string. -/
def cstr (buf : Text) : Text := buf.takeWhile (· ≠ '\x00')

/-- One turn of the loop of `db_replace_line`. -/
def put (key : Text) (repl : Option Text) (line : Text) : Text :=
  if isLineOf key (cstr line) then inPlace repl else cstr line

/-- What `db_replace_line` makes of a file. -/
def rewritten (t key : Text) (repl : Option Text) : Text :=
  (fgetsAll 4096 [] t).flatMap (put key repl)

/-- What `db_append_line` makes of a file. -/
def appended (t line : Text) : Text := t ++ (line ++ ['\n'])

variable {size : Nat} {cur : Text}

theorem mem_of_mem_fgetsAll {t piece : Text} (h : piece ∈ fgetsAll size cur t)
    {c : Char} (hc : c ∈ piece) : c ∈ cur ∨ c ∈ t := by
  induction t generalizing cur with
  | nil =>
    rw [fgetsAll] at h
    split_ifs at h with hcur
    · cases h
    · rw [mem_singleton.1 h] at hc
      exact .inl hc
  | cons d t ih =>
    have hmem : c ∈ cur ++ [d] → c ∈ cur ∨ c ∈ d :: t := by
      rw [mem_append, mem_singleton]
      rintro (hcur | rfl)
      · exact .inl hcur
      · exact .inr mem_cons_self
    rw [fgetsAll] at h
    split_ifs at h with hend
    · rcases mem_cons.1 h with rfl | h
      · exact hmem hc
      · exact .inr (mem_cons_of_mem _ ((ih h).resolve_left not_mem_nil))
    · rcases ih h with hcur | ht
      · exact hmem hcur
      · exact .inr (mem_cons_of_mem _ ht)

theorem cstr_of_not_mem {buf : Text} (h : '\x00' ∉ buf) : cstr buf = buf := by
  rw [cstr, takeWhile_eq_self_iff]
  intro c hc
  exact decide_eq_true fun heq => h (heq ▸ hc)

/-! ## The pieces of a line -/

/-- A line of a file: no newline but at its end. -/
def RawLine (line : Text) : Prop := line ≠ [] ∧ '\n' ∉ line.dropLast

theorem flatten_fgetsAll (size : Nat) (cur t : Text) :
    (fgetsAll size cur t).flatten = cur ++ t := by
  induction t generalizing cur with
  | nil =>
    rw [fgetsAll]
    split_ifs with hcur
    · rw [hcur]
      rfl
    · rw [flatten_singleton, append_nil]
  | cons c t ih =>
    rw [fgetsAll]
    split_ifs with hend
    · rw [flatten_cons, ih]
      simp
    · rw [ih]
      simp

section

variable {body : Text} (h : '\n' ∉ body)
include h

theorem rawLinesFrom_append (rest : Text) :
    rawLinesFrom cur (body ++ '\n' :: rest) = (cur ++ (body ++ ['\n'])) :: rawLines rest := by
  induction body generalizing cur with
  | nil =>
    rw [nil_append, rawLinesFrom, if_pos rfl]
    rfl
  | cons c body ih =>
    rw [mem_cons, not_or] at h
    rw [cons_append, rawLinesFrom, if_neg (Ne.symm h.1), ih h.2]
    simp

theorem rawLinesFrom_body :
    rawLinesFrom cur body = if cur ++ body = [] then [] else [cur ++ body] := by
  induction body generalizing cur with
  | nil => rw [rawLinesFrom, append_nil]
  | cons c body ih =>
    rw [mem_cons, not_or] at h
    rw [rawLinesFrom, if_neg (Ne.symm h.1), ih h.2]
    simp

theorem fgetsAll_append (rest : Text) : fgetsAll size cur (body ++ '\n' :: rest) =
      fgetsAll size cur (body ++ ['\n']) ++ fgetsAll size [] rest := by
  induction body generalizing cur with
  | nil =>
    rw [nil_append, nil_append, fgetsAll, fgetsAll, if_pos (.inl rfl), if_pos (.inl rfl)]
    rfl
  | cons c body ih =>
    rw [mem_cons, not_or] at h
    rw [cons_append, cons_append, fgetsAll, fgetsAll]
    split_ifs with hend
    · rw [ih h.2]
      rfl
    · exact ih h.2

end

/-- A file is its lines one by one: the rest behind a newline, or no newline at all. -/
theorem lines_induction {motive : Text → Prop} (body : ∀ body, '\n' ∉ body → motive body)
    (line : ∀ body rest, '\n' ∉ body → motive rest → motive (body ++ '\n' :: rest)) (t : Text) :
    motive t := by
  induction hn : t.length using Nat.strong_induction_on generalizing t with
  | h n ih =>
    by_cases h : '\n' ∈ t
    · obtain ⟨b, rest, rfl, hb⟩ := eq_append_cons_of_mem h
      rw [length_append, length_cons] at hn
      exact line b rest hb (ih rest.length (by omega) rest rfl)
    · exact body t h

theorem rawLines_line {body : Text} (h : '\n' ∉ body) (rest : Text) :
    rawLines (body ++ '\n' :: rest) = (body ++ ['\n']) :: rawLines rest :=
  rawLinesFrom_append h rest

theorem rawLines_body {body : Text} (h : '\n' ∉ body) (hne : body ≠ []) :
    rawLines body = [body] := by
  rw [rawLines, rawLinesFrom_body h, nil_append, if_neg hne]

theorem rawLine_of_mem {t line : Text} (h : line ∈ rawLines t) : RawLine line := by
  induction t using lines_induction with
  | body body hb =>
    by_cases hne : body = []
    · rw [hne] at h
      cases h
    · rw [rawLines_body hb hne, mem_singleton] at h
      rw [h]
      exact ⟨hne, fun hmem => hb (dropLast_subset body hmem)⟩
  | line body rest hb ih =>
    rw [rawLines_line hb] at h
    rcases mem_cons.1 h with rfl | h
    · exact ⟨by simp, by rwa [dropLast_concat]⟩
    · exact ih h

theorem fgetsAll_rawLines (t : Text) :
    fgetsAll 4096 [] t = (rawLines t).flatMap (fgetsAll 4096 []) := by
  induction t using lines_induction with
  | body body h =>
    by_cases hne : body = []
    · rw [hne]
      rfl
    · rw [rawLines_body h hne, flatMap_singleton]
  | line body rest h ih =>
    rw [rawLines_line h, flatMap_cons, ← ih, fgetsAll_append h]

/-- The first piece fills the buffer, or is the rest of the line. -/
theorem fgetsAll_first {line : Text} (h : RawLine line) (hcur : cur.length + 2 ≤ size) :
    fgetsAll size cur line = (cur ++ line.take (size - 1 - cur.length)) ::
      fgetsAll size [] (line.drop (size - 1 - cur.length)) := by
  obtain ⟨hne, hnl⟩ := h
  induction line generalizing cur with
  | nil => exact absurd rfl hne
  | cons c line ih =>
    rw [fgetsAll]
    obtain ⟨k, hk⟩ : ∃ k, size - 1 - cur.length = k + 1 := ⟨size - 2 - cur.length, by omega⟩
    rw [hk, take_succ_cons, drop_succ_cons]
    split_ifs with hend
    · by_cases hk0 : k = 0
      · rw [hk0, take_zero, drop_zero]
      · have hc : c = '\n' := hend.resolve_right (by omega)
        have hline : line = [] := by
          by_contra hline
          rw [dropLast_cons_of_ne_nil hline, hc] at hnl
          exact hnl mem_cons_self
        rw [hline, take_nil, drop_nil]
    · by_cases hline : line = []
      · rw [hline, take_nil, drop_nil, fgetsAll, fgetsAll, if_pos rfl, if_neg (by simp)]
      · rw [dropLast_cons_of_ne_nil hline, mem_cons, not_or] at hnl
        have hlen : (cur ++ [c]).length = cur.length + 1 := by simp
        have hk' : size - 1 - (cur ++ [c]).length = k := by omega
        rw [ih (by omega) hline hnl.2, hk', append_assoc]
        rfl

theorem fgetsAll_start {line : Text} (h : RawLine line) :
    fgetsAll 4096 [] line = line.take 4095 :: fgetsAll 4096 [] (line.drop 4095) :=
  fgetsAll_first h (by decide)

theorem length_of_mem_fgetsAll {t piece : Text} (hcur : cur.length + 2 ≤ size)
    (h : piece ∈ fgetsAll size cur t) : piece.length < size := by
  induction t generalizing cur with
  | nil =>
    rw [fgetsAll] at h
    split_ifs at h
    · cases h
    · rw [mem_singleton.1 h]
      omega
  | cons c t ih =>
    have hlen : (cur ++ [c]).length = cur.length + 1 := by simp
    rw [fgetsAll] at h
    split_ifs at h with hend
    · rcases mem_cons.1 h with rfl | h
      · omega
      · exact ih (by rw [length_nil]; omega) h
    · exact ih (by omega) h

/-! ## What the tests say -/

variable {t key line piece : Text} {repl : Option Text}

theorem isLineOf_iff : isLineOf key line ↔ key ++ [':'] <+: line := by
  rw [isLineOf, isPrefixOf_iff_prefix]

theorem isLineOf_cstr (h : isLineOf key (cstr piece)) :
    key.length < piece.length ∧ '\x00' ∉ key := by
  rw [isLineOf_iff] at h
  constructor
  · have hlen := (h.trans ( takeWhile_prefix _)).length_le
    rw [length_append, length_singleton] at hlen
    exact hlen
  · intro hmem
    have hin := mem_takeWhile_imp (h.subset (mem_append_left [':'] hmem))
    exact of_decide_eq_true hin rfl

theorem takeWhile_key {k : Text} (h : ':' ∉ k) (rest : Text) :
    (k ++ ':' :: rest).takeWhile (· ≠ ':') = k := by
  have hpos : ∀ c ∈ k, decide (c ≠ ':') = true := by
    intro c hc
    exact decide_eq_true fun heq => h (heq ▸ hc)
  rw [takeWhile_append_of_pos hpos, takeWhile_cons_of_neg (by simp), append_nil]

theorem keyOf_eq_some : keyOf line = some key ↔ ':' ∉ key ∧ key ++ [':'] <+: line := by
  rw [keyOf]
  split_ifs with h
  · obtain ⟨k, rest, rfl, hk⟩ := eq_append_cons_of_mem h
    rw [takeWhile_key hk, Option.some.injEq]
    constructor
    · rintro rfl
      exact ⟨hk, rest, by simp⟩
    · rintro ⟨hkey, rest', heq⟩
      rw [append_assoc, singleton_append] at heq
      rw [← takeWhile_key hk rest, ← heq, takeWhile_key hkey]
  · constructor
    · intro heq
      cases heq
    · rintro ⟨_, rest, rfl⟩
      exact absurd (by simp) h

theorem isLineOf_take (h : keyOf line = some key) (hlen : key.length < 4095) (hnul : '\x00' ∉ key) :
    isLineOf key (cstr (line.take 4095)) := by
  obtain ⟨-, rest, rfl⟩ := keyOf_eq_some.1 h
  have hpos : ∀ c ∈ key ++ [':'], decide (c ≠ '\x00') = true := by
    intro c hc
    refine decide_eq_true ?_
    rintro rfl
    rcases mem_append.1 hc with hc | hc
    · exact hnul hc
    · rw [mem_singleton] at hc
      contradiction
  have hle : (key ++ [':']).length ≤ 4095 := by
    rw [length_append, length_singleton]
    omega
  rw [isLineOf_iff, take_append, take_of_length_le hle, cstr,
    takeWhile_append_of_pos hpos]
  exact prefix_append _ _

/-! ## Where an edit is as it should be -/

/-- Of a line of the key, what does not fit the buffer begins with a NUL wherever it is read on;
another line has no NUL, and no piece of it looks like a line of the key. -/
def Handled (key line : Text) : Prop :=
  if keyOf line = some key then
    key.length < 4095 ∧ '\x00' ∉ key ∧
      ∀ piece ∈ fgetsAll 4096 [] (line.drop 4095), piece.head? = some '\x00'
  else '\x00' ∉ line ∧ ∀ piece ∈ fgetsAll 4096 [] line, ¬ isLineOf key piece

theorem rewritten_lines (t key : Text) (repl : Option Text) : rewritten t key repl =
      (rawLines t).flatMap fun line => (fgetsAll 4096 [] line).flatMap (put key repl) := by
  rw [rewritten, fgetsAll_rawLines, flatMap_assoc]

theorem cstr_eq_nil (h : piece.head? = some '\x00') : cstr piece = [] := by
  cases piece with
  | nil => cases h
  | cons c piece =>
    rw [Option.some.inj h, cstr, takeWhile_cons_of_neg (by simp)]

theorem not_isLineOf_nil : ¬ isLineOf key [] := by
  rw [isLineOf_iff, prefix_nil]
  simp

theorem Handled.flatMap_put (h : Handled key line) (hline : RawLine line) (repl : Option Text) :
    (fgetsAll 4096 [] line).flatMap (put key repl) =
      if keyOf line = some key then inPlace repl else line := by
  rw [Handled] at h
  split_ifs at h ⊢ with hkey
  · obtain ⟨hlen, hnul, hrest⟩ := h
    have hfirst : put key repl (line.take 4095) = inPlace repl :=
      if_pos (isLineOf_take hkey hlen hnul)
    have hothers : (fgetsAll 4096 [] (line.drop 4095)).flatMap (put key repl) = [] := by
      rw [flatMap_eq_nil_iff]
      intro piece hp
      rw [put, cstr_eq_nil (hrest piece hp), if_neg not_isLineOf_nil]
    rw [fgetsAll_start hline, flatMap_cons, hfirst, hothers, append_nil]
  · obtain ⟨hnul, hno⟩ := h
    have hall : ∀ piece ∈ fgetsAll 4096 [] line, put key repl piece = piece := by
      intro piece hp
      have hpn : '\x00' ∉ piece := fun hmem =>
        hnul ((mem_of_mem_fgetsAll hp hmem).resolve_left not_mem_nil)
      rw [put, cstr_of_not_mem hpn, if_neg (hno piece hp)]
    rw [flatMap_congr hall, flatMap_id', flatten_fgetsAll, nil_append]

theorem rewritten_of_handled (h : ∀ line ∈ rawLines t, Handled key line) (repl : Option Text) :
    rewritten t key repl = edited t key repl := by
  rw [rewritten_lines, edited]
  exact flatMap_congr fun line hl => (h line hl).flatMap_put (rawLine_of_mem hl) repl

/-! ## What an edit that is as it should be says of the file -/

theorem eq_of_sum_eq {α : Type} {f g : α → Nat} {l : List α} (hle : ∀ x ∈ l, g x ≤ f x)
    (hsum : (l.map f).sum = (l.map g).sum) : ∀ x ∈ l, f x = g x := by
  induction l with
  | nil => exact fun x hx => absurd hx not_mem_nil
  | cons a l ih =>
    have ha := hle a mem_cons_self
    have hl : (l.map g).sum ≤ (l.map f).sum :=
      sum_le_sum fun x hx => hle x (mem_cons_of_mem _ hx)
    rw [map_cons, map_cons, sum_cons, sum_cons] at hsum
    intro x hx
    rcases mem_cons.1 hx with rfl | hx
    · omega
    · exact ih (fun x hx => hle x (mem_cons_of_mem _ hx)) (by omega) x hx

/-- The pieces that are taken for lines of the key. -/
def taken (key : Text) (pieces : List Text) : Nat := pieces.countP fun piece => isLineOf key (cstr piece)

/-- Whether a line is one of the key, as a number. -/
def ofKey (key line : Text) : Nat := if keyOf line = some key then 1 else 0

theorem length_flatMap_put (key : Text) (pieces : List Text) :
    (pieces.flatMap (put key (some []))).length =
      (pieces.flatMap (put key none)).length + taken key pieces := by
  induction pieces with
  | nil => rfl
  | cons piece pieces ih =>
    rw [flatMap_cons, flatMap_cons, length_append, length_append, ih, taken,
      taken, countP_cons, put, put]
    split_ifs
    · simp only [inPlace, Option.elim_some, Option.elim_none, nil_append,
        length_singleton, length_nil]
      omega
    · omega

theorem length_edited (t key : Text) : (edited t key (some [])).length =
      (edited t key none).length + ((rawLines t).map (ofKey key)).sum := by
  unfold edited
  induction rawLines t with
  | nil => rfl
  | cons line lines ih =>
    rw [flatMap_cons, flatMap_cons, length_append, length_append, ih,
      map_cons, sum_cons, ofKey]
    split_ifs
    · simp only [inPlace, Option.elim_some, Option.elim_none, nil_append,
        length_singleton, length_nil]
      omega
    · omega

theorem taken_eq (h : ∀ repl, rewritten t key repl = edited t key repl) :
    ((rawLines t).map fun line => taken key (fgetsAll 4096 [] line)).sum =
      ((rawLines t).map (ofKey key)).sum := by
  have hsome := congrArg List.length (h (some []))
  rw [rewritten, length_flatMap_put, length_edited, ← rewritten, h none, fgetsAll_rawLines, taken,
    countP_flatMap] at hsome
  exact Nat.add_left_cancel hsome

theorem not_mem_put (key piece : Text) : '\x00' ∉ put key none piece := by
  rw [put]
  split_ifs
  · exact not_mem_nil
  · intro hmem
    have hin := mem_takeWhile_imp hmem
    exact of_decide_eq_true hin rfl

theorem not_mem_of_rewritten (h : rewritten t key none = edited t key none)
    (hline : line ∈ rawLines t) (hkey : keyOf line ≠ some key) : '\x00' ∉ line := by
  intro hmem
  have hin : '\x00' ∈ rewritten t key none := by
    rw [h, edited, mem_flatMap]
    exact ⟨line, hline, by rwa [if_neg hkey]⟩
  obtain ⟨piece, -, hp⟩ := mem_flatMap.1 hin
  exact not_mem_put key piece hp

theorem ne_nil_of_mem_fgetsAll (h : piece ∈ fgetsAll size cur t) : piece ≠ [] := by
  induction t generalizing cur with
  | nil =>
    rw [fgetsAll] at h
    split_ifs at h with hcur
    · cases h
    · rwa [mem_singleton.1 h]
  | cons c t ih =>
    rw [fgetsAll] at h
    split_ifs at h
    · rcases mem_cons.1 h with rfl | h
      · simp
      · exact ih h
    · exact ih h

theorem head_of_cstr_eq_nil (hne : piece ≠ []) (h : cstr piece = []) :
    piece.head? = some '\x00' := by
  cases piece with
  | nil => exact absurd rfl hne
  | cons c piece =>
    by_cases hc : c = '\x00'
    · rw [hc]
      rfl
    · rw [cstr, takeWhile_cons_of_pos (by simpa using hc)] at h
      cases h

section

variable (h : ∀ repl, rewritten t key repl = edited t key repl)
include h

theorem taken_line (hline : line ∈ rawLines t) :
    taken key (fgetsAll 4096 [] line) = ofKey key line ∧
      (keyOf line = some key → key.length < 4095 ∧ '\x00' ∉ key) := by
  have hsum := taken_eq h
  -- Either no line is of the key, or some piece is taken for one and the key is short.
  have hkey : ∀ l ∈ rawLines t, keyOf l = some key → key.length < 4095 ∧ '\x00' ∉ key := by
    intro l hl hk
    have hpos : 0 < ((rawLines t).map (ofKey key)).sum := by
      refine Nat.lt_of_lt_of_le ?_ (le_sum_of_mem (mem_map_of_mem hl))
      rw [ofKey, if_pos hk]
      exact Nat.one_pos
    rw [← hsum] at hpos
    obtain ⟨n, hn, hn0⟩ : ∃ n ∈ (rawLines t).map fun line => taken key (fgetsAll 4096 [] line),
        0 < n := by
      by_contra hno
      rw [sum_eq_zero fun n hn => Nat.le_zero.1 (Nat.not_lt.1 fun h0 => hno ⟨n, hn, h0⟩)] at hpos
      exact Nat.lt_irrefl 0 hpos
    obtain ⟨l', hl', rfl⟩ := mem_map.1 hn
    obtain ⟨piece, hp, hm⟩ := countP_pos_iff.1 hn0
    have hlen := length_of_mem_fgetsAll (by decide) hp
    obtain ⟨hlt, hnul⟩ := isLineOf_cstr hm
    exact ⟨by omega, hnul⟩
  refine ⟨eq_of_sum_eq (fun l hl => ?_) hsum line hline, hkey line hline⟩
  rw [ofKey]
  split_ifs with hk
  · obtain ⟨hlen, hnul⟩ := hkey l hl hk
    rw [fgetsAll_start (rawLine_of_mem hl), taken, countP_cons_of_pos]
    · omega
    · exact isLineOf_take hk hlen hnul
  · exact Nat.zero_le _

theorem kept_line (hhandled : ∀ line ∈ rawLines t, keyOf line ≠ some key → Handled key line)
    (hline : line ∈ rawLines t) : ((fgetsAll 4096 [] line).flatMap (put key none)).length =
      (if keyOf line = some key then inPlace none else line).length := by
  have hsum := congrArg List.length (h none)
  rw [rewritten_lines, edited, length_flatMap, length_flatMap] at hsum
  refine eq_of_sum_eq (fun l hl => ?_) hsum line hline
  by_cases hk : keyOf l = some key
  · rw [if_pos hk]
    exact Nat.zero_le _
  · rw [(hhandled l hl hk).flatMap_put (rawLine_of_mem hl)]

theorem handled_of_rewritten : ∀ line ∈ rawLines t, Handled key line := by
  have hother : ∀ line ∈ rawLines t, keyOf line ≠ some key → Handled key line := by
    intro line hl hk
    have hno := (taken_line h hl).1
    rw [ofKey, if_neg hk, taken, countP_eq_zero] at hno
    rw [Handled, if_neg hk]
    have hnul := not_mem_of_rewritten (h none) hl hk
    refine ⟨hnul, fun piece hp hm => hno piece hp ?_⟩
    have hpn : '\x00' ∉ piece := fun hmem =>
      hnul ((mem_of_mem_fgetsAll hp hmem).resolve_left not_mem_nil)
    rwa [cstr_of_not_mem hpn]
  intro line hl
  by_cases hk : keyOf line = some key
  · obtain ⟨htaken, hshort⟩ := taken_line h hl
    have hfirst := isLineOf_take hk (hshort hk).1 (hshort hk).2
    have hkept := kept_line h hother hl
    rw [Handled, if_pos hk]
    refine ⟨(hshort hk).1, (hshort hk).2, fun piece hp => ?_⟩
    rw [fgetsAll_start (rawLine_of_mem hl)] at htaken hkept
    rw [ofKey, if_pos hk, taken, countP_cons, hfirst, if_pos rfl, Nat.add_eq_right,
      countP_eq_zero] at htaken
    rw [if_pos hk, flatMap_cons, length_append] at hkept
    have hzero : ((fgetsAll 4096 [] (line.drop 4095)).flatMap (put key none)).length = 0 :=
      Nat.eq_zero_of_add_eq_zero_left hkept
    have hput := flatMap_eq_nil_iff.1 (eq_nil_of_length_eq_zero hzero) piece hp
    rw [put, if_neg (htaken piece hp)] at hput
    exact head_of_cstr_eq_nil (ne_nil_of_mem_fgetsAll hp) hput
  · exact hother line hl hk

end

/-! ## Appending -/

theorem rawLines_newline (line : Text) :
    rawLines (line ++ ['\n']) = [line ++ ['\n']] ↔ '\n' ∉ line := by
  constructor
  · intro h hmem
    obtain ⟨body, rest, rfl, hb⟩ := eq_append_cons_of_mem hmem
    have hsplit : body ++ '\n' :: rest ++ ['\n'] = body ++ '\n' :: (rest ++ ['\n']) := by simp
    rw [hsplit, rawLines_line hb] at h
    have hlen := congrArg List.length (List.cons.inj h).1
    simp at hlen
  · exact fun h => rawLines_line h []

/-- A new line is one of its own exactly when the file does not end inside a line, and it is one
line. -/
theorem rawLines_appended (t line : Text) :
    rawLines (appended t line) = rawLines t ++ [line ++ ['\n']] ↔
      (t = [] ∨ t.getLast? = some '\n') ∧ '\n' ∉ line := by
  induction t using lines_induction with
  | body body h =>
    by_cases hne : body = []
    · rw [hne]
      exact (rawLines_newline line).trans ⟨fun h => ⟨.inl rfl, h⟩, fun h => h.2⟩
    · refine iff_of_false (fun heq => ?_) (fun ⟨hend, _⟩ => ?_)
      · -- The line that the file ends in goes on.
        obtain ⟨b, rest, hsplit, hb⟩ := eq_append_cons_of_mem
          (mem_append_right body (mem_append_right line (mem_singleton_self '\n')))
        rw [appended, hsplit, rawLines_line hb, rawLines_body h hne] at heq
        have hhead : b ++ ['\n'] = body := (List.cons.inj heq).1
        exact h (hhead ▸ mem_append_right b (mem_singleton_self '\n'))
      · exact h (mem_of_getLast? (hend.resolve_left hne))
  | line body rest h ih =>
    have happ : appended (body ++ '\n' :: rest) line = body ++ '\n' :: appended rest line := by
      simp [appended]
    have hlast : (body ++ '\n' :: rest).getLast? = some '\n' ↔
        rest = [] ∨ rest.getLast? = some '\n' := by
      cases rest with
      | nil => simp
      | cons c rest => simp [getLast?_cons]
    have hne : body ++ '\n' :: rest ≠ [] := by simp
    rw [happ, rawLines_line h, rawLines_line h, cons_append, cons_inj_right, ih, hlast,
      or_iff_right hne]

/-- Editing one account leaves the others alone: exactly on these files. -/
theorem edits_iff (t key line : Text) : ((∀ repl, rewritten t key repl = edited t key repl) ∧
      rawLines (appended t line) = rawLines t ++ [line ++ ['\n']]) ↔
    (∀ l ∈ rawLines t, Handled key l) ∧ (t = [] ∨ t.getLast? = some '\n') ∧ '\n' ∉ line :=
  and_congr ⟨handled_of_rewritten, rewritten_of_handled⟩ (rawLines_appended t line)

/-- A group whose members fill the buffer, and one more. -/
def longGroup : Text := "g:x:1:".toList ++ List.replicate 4089 'u' ++ ",v\n".toList

/-- What does not fit the buffer is left behind as a line, and a record that is added to a file
without a newline at its end goes on with its last line. -/
theorem edits_not :
    rewritten longGroup "g".toList none = ",v\n".toList ∧ edited longGroup "g".toList none = [] ∧
      rawLines (appended "a:x:1:".toList "b:x:2:".toList) = ["a:x:1:b:x:2:\n".toList] := by
  have hbody : '\n' ∉ "g:x:1:".toList ++ List.replicate 4089 'u' ++ ",v".toList := by
    rw [mem_append, mem_append, mem_replicate]
    decide
  have hlong : longGroup = "g:x:1:".toList ++ List.replicate 4089 'u' ++ ",v".toList ++ ['\n'] := by
    rw [append_assoc]
    rfl
  have hraw : rawLines longGroup = [longGroup] := by
    rw [hlong]
    exact rawLines_line hbody []
  have hline : RawLine longGroup := rawLine_of_mem (by rw [hraw]; exact mem_singleton_self _)
  have hkey : keyOf longGroup = some "g".toList := by
    rw [keyOf_eq_some]
    exact ⟨by decide, "x:1:".toList ++ List.replicate 4089 'u' ++ ",v\n".toList, rfl⟩
  have hdrop : longGroup.drop 4095 = ",v\n".toList := by
    apply drop_left'
    rw [length_append, length_replicate]
    rfl
  refine ⟨?_, ?_, by decide⟩
  · have hfirst : put "g".toList none (longGroup.take 4095) = [] :=
      if_pos (isLineOf_take hkey (by decide) (by decide))
    rw [rewritten, fgetsAll_start hline, flatMap_cons, hfirst, hdrop]
    decide
  · rw [edited, hraw, flatMap_singleton, if_pos hkey]
    rfl

end Verkos.Vlogin
