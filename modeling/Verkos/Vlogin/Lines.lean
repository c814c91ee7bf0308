import Verkos.Vlogin.Db

/-!
# Files line by line

A tidy file is lines that end, each shorter than the buffer that `db_replace_line` reads with. On
such a file the edits are edits of a list of lines, and a lookup finds the first line of its name
that has the form of the file.
-/

namespace Verkos.Vlogin

open Lib
open List

/-! ## Lines -/

def unlines (lines : List Text) : Text := lines.flatMap (· ++ ['\n'])

/-- A line that `fgets` reads as a whole, with its newline, into 4096 bytes. -/
def Whole (line : Text) : Prop := '\n' ∉ line ∧ line.length < 4095

/-- The file is these lines. -/
structure Tidy (t : Text) (lines : List Text) : Prop where
  eq : t = unlines lines
  whole : ∀ line ∈ lines, Whole line

variable {α : Type} {t key name : Text} {lines : List Text} {repl : Option Text}

theorem unlines_cons (line : Text) (lines : List Text) :
    unlines (line :: lines) = line ++ '\n' :: unlines lines := by
  simp [unlines]

theorem unlines_concat (lines : List Text) (line : Text) :
    unlines (lines ++ [line]) = unlines lines ++ (line ++ ['\n']) := by
  simp [unlines]

theorem fgetsAll_line {cur line rest : Text} (hline : '\n' ∉ line)
    (hlen : cur.length + line.length < 4095) : fgetsAll 4096 cur (line ++ '\n' :: rest) =
      (cur ++ (line ++ ['\n'])) :: fgetsAll 4096 [] rest := by
  induction line generalizing cur with
  | nil =>
    rw [nil_append, fgetsAll, if_pos (.inl rfl)]
    rfl
  | cons c line ih =>
    rw [length_cons] at hlen
    have hc : ¬(c = '\n' ∨ 4096 ≤ cur.length + 2) := by
      rintro (rfl | hbig)
      · exact hline (.head _)
      · omega
    have hlen' : (cur ++ [c]).length + line.length < 4095 := by
      rw [length_append, length_singleton]
      omega
    rw [cons_append, fgetsAll, if_neg hc, ih (fun h => hline (.tail _ h)) hlen',
      append_assoc]
    rfl

theorem Tidy.fgetsAll (h : Tidy t lines) : fgetsAll 4096 [] t = lines.map (· ++ ['\n']) := by
  obtain ⟨rfl, hwhole⟩ := h
  induction lines with
  | nil => rfl
  | cons line lines ih =>
    obtain ⟨hnl, hlen⟩ := hwhole line (.head _)
    rw [unlines_cons, fgetsAll_line hnl (by simpa using hlen),
      ih fun l hl => hwhole l (.tail _ hl)]
    rfl

theorem Tidy.splitOn (h : Tidy t lines) : t.splitOn '\n' = lines ++ [[]] := by
  obtain ⟨rfl, hwhole⟩ := h
  induction lines with
  | nil => rfl
  | cons line lines ih =>
    have hnl := (hwhole line (.head _)).1
    rw [unlines_cons, splitOn_append_cons_self_of_not_mem hnl,
      ih fun l hl => hwhole l (.tail _ hl)]
    rfl

theorem Tidy.entries (h : Tidy t lines) {parse : Text → Option α} (hempty : parse [] = none) :
    entries parse t = lines.filterMap parse := by
  rw [Vlogin.entries, h.splitOn, filterMap_append]
  simp [hempty]

theorem Tidy.concat (h : Tidy t lines) {line : Text} (hline : Whole line) :
    Tidy (t ++ (line ++ ['\n'])) (lines ++ [line]) where
  eq := by rw [h.eq, unlines_concat]
  whole l hl := by
    rcases mem_append.1 hl with hl | hl
    · exact h.whole l hl
    · rw [mem_singleton.1 hl]
      exact hline

theorem isLineOf_newline (key line : Text) : isLineOf key (line ++ ['\n']) = isLineOf key line := by
  rw [isLineOf, isLineOf, Bool.eq_iff_iff, isPrefixOf_iff_prefix, isPrefixOf_iff_prefix]
  refine ⟨fun h => ?_, fun h => h.trans (prefix_append ..)⟩
  rcases prefix_concat_iff.1 h with heq | hprefix
  · obtain ⟨-, hlast⟩ := append_inj' heq rfl
    cases hlast
  · exact hprefix

/-- The lines with the ones of a key replaced. -/
def swap (key : Text) (repl : Option Text) (lines : List Text) : List Text :=
  lines.flatMap fun line => if isLineOf key line then repl.toList else [line]

theorem Tidy.replaced (h : Tidy t lines) (hrepl : ∀ line ∈ repl, Whole line) :
    Tidy (replaced t key repl) (swap key repl lines) := by
  constructor
  · have hloop : Vlogin.replaced t key repl = (lines.map (· ++ ['\n'])).flatMap _ :=
      congrArg (List.flatMap _) h.fgetsAll
    rw [hloop]
    clear h hloop
    induction lines with
    | nil => rfl
    | cons line lines ih =>
      have hswap : swap key repl (line :: lines) =
          (if isLineOf key line then repl.toList else [line]) ++ swap key repl lines := rfl
      rw [map_cons, flatMap_cons, ih, hswap, isLineOf_newline]
      cases isLineOf key line with
      | false => simp [unlines]
      | true => cases repl <;> simp [unlines]
  · intro line hline
    obtain ⟨l, hl, hmem⟩ := mem_flatMap.1 hline
    split_ifs at hmem
    · exact hrepl line (Option.mem_toList.1 hmem)
    · rw [mem_singleton.1 hmem]
      exact h.whole l hl

theorem Tidy.found (h : Tidy t lines) :
    (Vlogin.fgetsAll 4096 [] t).any (isLineOf key) = lines.any (isLineOf key) := by
  rw [h.fgetsAll, any_map]
  congr 1
  funext line
  exact isLineOf_newline key line

/-! ## Names -/

/-- A form whose first field is a name, with more fields behind it. -/
structure Named (parse : Text → Option α) (nameOf : α → Text) : Prop where
  fields : ∀ line e, parse line = some e →
    ∃ f fs, line.splitOn ':' = nameOf e :: f :: fs

variable {parse : Text → Option α} {nameOf : α → Text} {line : Text} {e e' : α}

section

variable {f line : Text} {sep : Char} (h : f ∈ line.splitOn sep)
include h

theorem not_mem_field : sep ∉ f := by
  induction line generalizing f with
  | nil =>
    rw [splitOn_nil, mem_singleton] at h
    rw [h]
    exact not_mem_nil
  | cons c line ih =>
    rw [splitOn_cons_eq_if_modifyHead] at h
    split_ifs at h with hc
    · rcases mem_cons.1 h with rfl | h
      · exact not_mem_nil
      · exact ih h
    · cases hs : line.splitOn sep with
      | nil => exact (splitOn_ne_nil sep line hs).elim
      | cons g gs =>
        rw [hs, modifyHead_cons] at h
        rw [hs] at ih
        rcases mem_cons.1 h with rfl | h
        · rw [mem_cons]
          rintro (rfl | hg)
          · exact hc (beq_self_eq_true sep)
          · exact ih (.head _) hg
        · exact ih (.tail _ h)

theorem mem_of_mem_field {c : Char} (hc : c ∈ f) : c ∈ line := by
  have hjoin : [sep].intercalate (line.splitOn sep) = line := intercalate_splitOn sep
  rw [← hjoin]
  generalize line.splitOn sep = fs at h
  induction fs with
  | nil => cases h
  | cons g gs ih =>
    cases gs with
    | nil =>
      rw [mem_singleton.1 h] at hc
      simpa [List.intercalate] using hc
    | cons g' gs =>
      have hcons : [sep].intercalate (g :: g' :: gs) = g ++ sep :: [sep].intercalate (g' :: gs) := by
        simp [List.intercalate]
      rw [hcons, mem_append]
      rcases mem_cons.1 h with rfl | h
      · exact .inl hc
      · exact .inr (.tail _ (ih h))

end

theorem mem_intercalate {fields : List Text} {sep c : Char} (h : c ∈ [sep].intercalate fields) :
    c = sep ∨ ∃ f ∈ fields, c ∈ f := by
  induction fields with
  | nil => cases h
  | cons f fs ih =>
    cases fs with
    | nil =>
      rw [List.intercalate] at h
      exact .inr ⟨f, .head _, by simpa using h⟩
    | cons g gs =>
      have hcons : [sep].intercalate (f :: g :: gs) = f ++ sep :: [sep].intercalate (g :: gs) := by
        simp [List.intercalate]
      rw [hcons, mem_append, mem_cons] at h
      rcases h with h | rfl | h
      · exact .inr ⟨f, .head _, h⟩
      · exact .inl rfl
      · rcases ih h with rfl | ⟨f', hf', hc⟩
        · exact .inl rfl
        · exact .inr ⟨f', .tail _ hf', hc⟩

theorem line_of_fields {f : Text} {fs : List Text} (h : line.splitOn ':' = name :: f :: fs) :
    line = name ++ ':' :: [':'].intercalate (f :: fs) := by
  have hjoin : [':'].intercalate (line.splitOn ':') = line := intercalate_splitOn ':'
  rw [h] at hjoin
  rw [← hjoin]
  simp [List.intercalate]

section

variable (h : Named parse nameOf) (hparse : parse line = some e)
include h hparse

theorem Named.isLineOf : isLineOf (nameOf e) line := by
  obtain ⟨f, fs, hfields⟩ := h.fields line e hparse
  rw [Vlogin.isLineOf, isPrefixOf_iff_prefix, line_of_fields hfields]
  exact ⟨[':'].intercalate (f :: fs), by simp⟩

theorem Named.name_eq (hkey : ':' ∉ key) (hline : Vlogin.isLineOf key line) : nameOf e = key := by
  obtain ⟨f, fs, hfields⟩ := h.fields line e hparse
  rw [Vlogin.isLineOf, isPrefixOf_iff_prefix] at hline
  obtain ⟨rest, rfl⟩ := hline
  rw [append_assoc, singleton_append,
    splitOn_append_cons_self_of_not_mem hkey] at hfields
  exact ((List.cons.inj hfields).1).symm

theorem Named.not_mem : ':' ∉ nameOf e := by
  obtain ⟨f, fs, hfields⟩ := h.fields line e hparse
  exact @not_mem_field _ line ':' (by rw [hfields]; exact .head _)

end

/-! ## Lookups in an edited file -/

/-- The first entry of a name. -/
def firstOf (parse : Text → Option α) (nameOf : α → Text) (name : Text) (lines : List Text) :
    Option α :=
  (lines.filterMap parse).find? (nameOf · = name)

theorem firstOf_cons (line : Text) (lines : List Text) : firstOf parse nameOf name (line :: lines) =
      match parse line with
      | some e => if nameOf e = name then some e else firstOf parse nameOf name lines
      | none => firstOf parse nameOf name lines := by
  rw [firstOf, filterMap_cons]
  cases parse line with
  | none => rfl
  | some e =>
    by_cases hname : nameOf e = name <;> simp [hname, firstOf]

theorem firstOf_single (line : Text) :
    firstOf parse nameOf name [line] = (parse line).filter (nameOf · = name) := by
  rw [firstOf_cons]
  cases parse line with
  | none => rfl
  | some e =>
    rw [Option.filter_some]
    by_cases hname : nameOf e = name <;> simp [hname, firstOf]

theorem firstOf_append (lines lines' : List Text) : firstOf parse nameOf name (lines ++ lines') =
      (firstOf parse nameOf name lines).or (firstOf parse nameOf name lines') := by
  rw [firstOf, filterMap_append, find?_append]
  rfl

section

variable (h : Named parse nameOf)
include h

theorem Named.swap_other (hkey : ':' ∉ key) (hne : name ≠ key)
    (hrepl : ∀ line ∈ repl, ∀ e, parse line = some e → nameOf e ≠ name) (lines : List Text) :
    firstOf parse nameOf name (swap key repl lines) = firstOf parse nameOf name lines := by
  induction lines with
  | nil => rfl
  | cons line lines ih =>
    rw [swap, flatMap_cons, firstOf_append]
    change (firstOf parse nameOf name _).or (firstOf parse nameOf name (swap key repl lines)) = _
    rw [ih, firstOf_cons]
    split_ifs with hline
    · have hgone : firstOf parse nameOf name repl.toList = none := by
        cases repl with
        | none => rfl
        | some r =>
          rw [Option.toList_some, firstOf_cons]
          cases hr : parse r with
          | none => rfl
          | some e => exact if_neg (hrepl r rfl e hr)
      rw [hgone, Option.none_or]
      cases hparse : parse line with
      | none => rfl
      | some e =>
        have hname := h.name_eq hparse hkey hline
        exact (if_neg (by rw [hname]; exact hne.symm)).symm
    · rw [firstOf_cons]
      cases parse line with
      | none => rfl
      | some e =>
        by_cases hname : nameOf e = name
        · simp [hname]
        · simp [hname, firstOf]

theorem Named.swap_self {r : Text} (hr : parse r = some e') (hname : nameOf e' = key)
    {lines : List Text} (hfound : firstOf parse nameOf key lines = some e) :
    firstOf parse nameOf key (swap key (some r) lines) = some e' := by
  induction lines with
  | nil => cases hfound
  | cons line lines ih =>
    rw [swap, flatMap_cons, firstOf_append]
    change (firstOf parse nameOf key _).or (firstOf parse nameOf key (swap key (some r) lines)) = _
    split_ifs with hline
    · rw [Option.toList_some, firstOf_cons, hr]
      simp [hname]
    · rw [firstOf_cons] at hfound ⊢
      cases hparse : parse line with
      | none =>
        rw [hparse] at hfound
        exact ih hfound
      | some d =>
        rw [hparse] at hfound
        have hother : nameOf d ≠ key := by
          rintro rfl
          exact hline (h.isLineOf hparse)
        dsimp only at hfound ⊢
        rw [if_neg hother] at hfound ⊢
        exact ih hfound

theorem Named.swap_none (lines : List Text) :
    firstOf parse nameOf key (swap key none lines) = none := by
  induction lines with
  | nil => rfl
  | cons line lines ih =>
    rw [swap, flatMap_cons, firstOf_append]
    change (firstOf parse nameOf key _).or (firstOf parse nameOf key (swap key none lines)) = _
    rw [ih, Option.or_none]
    split_ifs with hline
    · rfl
    · rw [firstOf_cons]
      cases hparse : parse line with
      | none => rfl
      | some d =>
        have hother : nameOf d ≠ key := by
          rintro rfl
          exact hline (h.isLineOf hparse)
        exact if_neg hother

theorem Named.any_of_found {lines : List Text} (hfound : firstOf parse nameOf key lines = some e) :
    lines.any (Vlogin.isLineOf key) := by
  obtain ⟨hmem, hname⟩ : e ∈ lines.filterMap parse ∧ nameOf e = key :=
    ⟨mem_of_find?_eq_some hfound, by simpa using find?_some hfound⟩
  obtain ⟨line, hline, hparse⟩ := mem_filterMap.1 hmem
  exact any_eq_true.2 ⟨line, hline, hname ▸ h.isLineOf hparse⟩

end

end Verkos.Vlogin
