import Verkos.Vlogin.Effects

/-!
# Files of entries

A sheet is a file of which every line is an entry, no two of one name. On sheets an edit is an edit
of the list of entries, and a lookup finds the one entry of its name.
-/

namespace Verkos.Vlogin

open Lib
open List

variable {α : Type} {parse : Text → Option α} {nameOf : α → Text} {t key line : Text} {e : α}
  {es : List α}

/-- The lines of the file are these entries. -/
structure Sheet (parse : Text → Option α) (nameOf : α → Text) (t : Text) (es : List α) : Prop where
  lines : ∃ ls, Tidy t ls ∧ ls.map parse = es.map some
  nodup : (es.map nameOf).Nodup

/-- An entry in the place of the one of its name. -/
def replaceEntry (nameOf : α → Text) (new : α) (es : List α) : List α :=
  es.map fun e => if nameOf e = nameOf new then new else e

theorem names_replaceEntry (new : α) (es : List α) :
    (replaceEntry nameOf new es).map nameOf = es.map nameOf := by
  rw [replaceEntry, map_map]
  apply map_congr_left
  intro e _
  rw [Function.comp_apply]
  split_ifs with h
  · exact h.symm
  · rfl

variable {ls : List Text} {new : α} {pw : Passwd} {sp : Spwd} {gr : Group}
  {good : Option Passwd → Files → Prop}

theorem filterMap_of_map (hmap : ls.map parse = es.map some) : ls.filterMap parse = es := by
  have hfilter : ls.filterMap parse = (ls.map parse).filterMap id := by
    rw [filterMap_map]
    rfl
  rw [hfilter, hmap, filterMap_map]
  exact filterMap_some

section

variable (h : Sheet parse nameOf t es)
include h

theorem Sheet.entries (hempty : parse [] = none) : entries parse t = es := by
  obtain ⟨ls, htidy, hmap⟩ := h.lines
  rw [htidy.entries hempty, filterMap_of_map hmap]

theorem Sheet.found (hn : Named parse nameOf) (he : e ∈ es) :
    (fgetsAll 4096 [] t).any (isLineOf (nameOf e)) = true := by
  obtain ⟨ls, htidy, hmap⟩ := h.lines
  have hmem : some e ∈ ls.map parse := by
    rw [hmap]
    exact mem_map_of_mem he
  obtain ⟨line, hline, hparse⟩ := mem_map.1 hmem
  rw [htidy.found]
  exact any_eq_true.2 ⟨line, hline, hn.isLineOf hparse⟩

theorem Sheet.line_of_mem (he : e ∈ es) : ∃ line, '\n' ∉ line ∧ parse line = some e := by
  obtain ⟨ls, htidy, hmap⟩ := h.lines
  have hmem : some e ∈ ls.map parse := by
    rw [hmap]
    exact mem_map_of_mem he
  obtain ⟨line, hline, hparse⟩ := mem_map.1 hmem
  exact ⟨line, (htidy.whole line hline).1, hparse⟩

theorem Sheet.concat (hwhole : Whole line) (hparse : parse line = some e)
    (hnew : nameOf e ∉ es.map nameOf) : Sheet parse nameOf (t ++ (line ++ ['\n'])) (es ++ [e]) := by
  obtain ⟨ls, htidy, hmap⟩ := h.lines
  constructor
  · refine ⟨ls ++ [line], htidy.concat hwhole, ?_⟩
    rw [map_append, map_append, hmap, map_singleton, hparse]
    rfl
  · rw [map_append, map_singleton]
    refine nodup_append.2 ⟨h.nodup, nodup_cons.2 ⟨not_mem_nil, .nil⟩, fun a ha b hb => ?_⟩
    rw [mem_singleton.1 hb]
    exact ne_of_mem_of_not_mem ha hnew

end

theorem Named.isLineOf_iff (h : Named parse nameOf) (hparse : parse line = some e)
    (hkey : ':' ∉ key) : Vlogin.isLineOf key line ↔ nameOf e = key :=
  ⟨h.name_eq hparse hkey, fun hname => hname ▸ h.isLineOf hparse⟩

theorem map_swap_some (h : Named parse nameOf) (hkey : ':' ∉ key)
    (hparse : parse line = some new) (hname : nameOf new = key)
    (hmap : ls.map parse = es.map some) :
    (swap key (some line) ls).map parse = (replaceEntry nameOf new es).map some := by
  induction ls generalizing es with
  | nil =>
    obtain rfl := map_eq_nil_iff.1 hmap.symm
    rfl
  | cons l ls ih =>
    cases es with
    | nil => cases hmap
    | cons e es =>
      obtain ⟨hl, hmap⟩ := List.cons.inj hmap
      have hline := h.isLineOf_iff hl hkey
      have hswap : swap key (some line) (l :: ls) =
          (if isLineOf key l then [line] else [l]) ++ swap key (some line) ls := rfl
      have hentry : replaceEntry nameOf new (e :: es) =
          (if nameOf e = key then new else e) :: replaceEntry nameOf new es := by
        rw [← hname]
        rfl
      rw [hswap, hentry, map_append, ih hmap, map_cons]
      by_cases he : nameOf e = key
      · rw [if_pos (hline.2 he), if_pos he, map_singleton, hparse]
        rfl
      · rw [if_neg fun hl => he (hline.1 hl), if_neg he, map_singleton, hl]
        rfl

theorem map_swap_none (h : Named parse nameOf) (hkey : ':' ∉ key)
    (hmap : ls.map parse = es.map some) :
    (swap key none ls).map parse = (es.filter (nameOf · ≠ key)).map some := by
  induction ls generalizing es with
  | nil =>
    obtain rfl := map_eq_nil_iff.1 hmap.symm
    rfl
  | cons l ls ih =>
    cases es with
    | nil => cases hmap
    | cons e es =>
      obtain ⟨hl, hmap⟩ := List.cons.inj hmap
      have hline := h.isLineOf_iff hl hkey
      have hswap : swap key none (l :: ls) =
          (if isLineOf key l then [] else [l]) ++ swap key none ls := rfl
      rw [hswap, map_append, ih hmap]
      by_cases he : nameOf e = key
      · rw [if_pos (hline.2 he), filter_cons_of_neg (by simpa using he)]
        rfl
      · rw [if_neg fun hl => he (hline.1 hl), filter_cons_of_pos (by simpa using he),
          map_singleton, hl]
        rfl

theorem Sheet.replace (h : Sheet parse nameOf t es) (hn : Named parse nameOf)
    (hwhole : Whole line) (hparse : parse line = some new) :
    Sheet parse nameOf (replaced t (nameOf new) (some line)) (replaceEntry nameOf new es) := by
  obtain ⟨ls, htidy, hmap⟩ := h.lines
  constructor
  · refine ⟨_, htidy.replaced ?_, map_swap_some hn (hn.not_mem hparse) hparse rfl hmap⟩
    rintro _ ⟨⟩
    exact hwhole
  · rw [names_replaceEntry]
    exact h.nodup

theorem Sheet.remove (h : Sheet parse nameOf t es) (hn : Named parse nameOf) (hkey : ':' ∉ key) :
    Sheet parse nameOf (replaced t key none) (es.filter (nameOf · ≠ key)) := by
  obtain ⟨ls, htidy, hmap⟩ := h.lines
  refine ⟨⟨_, htidy.replaced nofun, map_swap_none hn hkey hmap⟩, ?_⟩
  exact h.nodup.sublist (filter_sublist.map nameOf)

theorem Sheet.find_of_mem (h : Sheet parse nameOf t es) (he : e ∈ es) :
    es.find? (nameOf · = nameOf e) = some e := by
  have hnodup := h.nodup
  clear h
  induction es with
  | nil => cases he
  | cons d es ih =>
    obtain ⟨hnew, hnodup⟩ := nodup_cons.1 hnodup
    rcases mem_cons.1 he with rfl | he
    · exact find?_cons_of_pos (decide_eq_true rfl)
    · have hne : nameOf d ≠ nameOf e := fun heq => hnew (mem_map.2 ⟨e, he, heq.symm⟩)
      rw [find?_cons_of_neg (by simpa using hne)]
      exact ih he hnodup

theorem of_find {name : Text} (h : es.find? (nameOf · = name) = some e) :
    e ∈ es ∧ nameOf e = name :=
  ⟨mem_of_find?_eq_some h, by simpa using find?_some h⟩

theorem not_mem_of_find {name : Text} (h : es.find? (nameOf · = name) = none) :
    name ∉ es.map nameOf := by
  rintro hmem
  obtain ⟨e, he, hname⟩ := mem_map.1 hmem
  have hnot := find?_eq_none.1 h e he
  exact hnot (decide_eq_true hname)

/-! ## The three files -/

/-- The entries of the account files. -/
structure Records where
  pws : List Passwd
  sps : List Spwd
  grs : List Group

/-- The files have these entries. -/
structure Holds (S : Files) (d : Records) : Prop where
  passwd : Sheet parsePasswd Passwd.name (S .passwd) d.pws
  shadow : Sheet parseSpwd Spwd.name (S .shadow) d.sps
  group : Sheet parseGroup Group.name (S .group) d.grs

variable {S : Files} {d : Records} {name : Text}

section

variable (h : Holds S d)
include h

theorem Holds.passwds : passwds (S .passwd) = d.pws := h.passwd.entries rfl

theorem Holds.spwds : spwds (S .shadow) = d.sps := h.shadow.entries rfl

theorem Holds.groups : groups (S .group) = d.grs := h.group.entries rfl

theorem Holds.pwOf : pwOf S name = d.pws.find? (·.name = name) := by
  rw [Vlogin.pwOf, h.passwds]

theorem Holds.spOf : spOf S name = d.sps.find? (·.name = name) := by
  rw [Vlogin.spOf, h.spwds]

theorem Holds.grOf : grOf S name = d.grs.find? (·.name = name) := by
  rw [Vlogin.grOf, h.groups]

theorem Holds.clean (hpw : pw ∈ d.pws) : pw.Clean := by
  obtain ⟨line, hline, hparse⟩ := h.passwd.line_of_mem hpw
  exact clean_of_parsePasswd hline hparse

theorem Holds.clean_sp (hsp : sp ∈ d.sps) : Field sp.name ∧ Field sp.pwdp := by
  obtain ⟨line, hline, hparse⟩ := h.shadow.line_of_mem hsp
  exact clean_of_parseSpwd hline hparse

end

section

variable {line : Text} (h : Holds S d) (hwhole : Whole line)
include h hwhole

theorem Holds.replace_passwd (hparse : parsePasswd line = some pw) :
    Holds (replacedIn S .passwd pw.name (some line))
      { d with pws := replaceEntry Passwd.name pw d.pws } :=
  ⟨h.passwd.replace named_passwd hwhole hparse, h.shadow, h.group⟩

theorem Holds.replace_shadow (hparse : parseSpwd line = some sp) :
    Holds (replacedIn S .shadow sp.name (some line))
      { d with sps := replaceEntry Spwd.name sp d.sps } :=
  ⟨h.passwd, h.shadow.replace named_spwd hwhole hparse, h.group⟩

theorem Holds.replace_group (hparse : parseGroup line = some gr) :
    Holds (replacedIn S .group gr.name (some line))
      { d with grs := replaceEntry Group.name gr d.grs } :=
  ⟨h.passwd, h.shadow, h.group.replace named_group hwhole hparse⟩

theorem Holds.append_passwd (hparse : parsePasswd line = some pw)
    (hnew : pw.name ∉ d.pws.map (·.name)) :
    Holds (appendedTo S .passwd line) { d with pws := d.pws ++ [pw] } :=
  ⟨h.passwd.concat hwhole hparse hnew, h.shadow, h.group⟩

theorem Holds.append_shadow (hparse : parseSpwd line = some sp)
    (hnew : sp.name ∉ d.sps.map (·.name)) :
    Holds (appendedTo S .shadow line) { d with sps := d.sps ++ [sp] } :=
  ⟨h.passwd, h.shadow.concat hwhole hparse hnew, h.group⟩

theorem Holds.append_group (hparse : parseGroup line = some gr)
    (hnew : gr.name ∉ d.grs.map (·.name)) :
    Holds (appendedTo S .group line) { d with grs := d.grs ++ [gr] } :=
  ⟨h.passwd, h.shadow, h.group.concat hwhole hparse hnew⟩

end

section

variable (h : Holds S d) (hkey : ':' ∉ key)
include h hkey

theorem Holds.remove_passwd :
    Holds (replacedIn S .passwd key none) { d with pws := d.pws.filter (·.name ≠ key) } :=
  ⟨h.passwd.remove named_passwd hkey, h.shadow, h.group⟩

theorem Holds.remove_shadow :
    Holds (replacedIn S .shadow key none) { d with sps := d.sps.filter (·.name ≠ key) } :=
  ⟨h.passwd, h.shadow.remove named_spwd hkey, h.group⟩

theorem Holds.remove_group :
    Holds (replacedIn S .group key none) { d with grs := d.grs.filter (·.name ≠ key) } :=
  ⟨h.passwd, h.shadow, h.group.remove named_group hkey⟩

end

/-! ## Programs -/

section Rules

variable {β : Type} {file : DbFile} {repl : Option Text}

theorem yields_getpwnam (h : good (pwOf S name) S) :
    Prog.Yields (getpwnam name) S good := @Prog.yields_look _ _ accountAsks _ _ (.getpwnam name) _ h

theorem yields_getspnam {good : Option Spwd → Files → Prop} (h : good (spOf S name) S) :
    Prog.Yields (getspnam name) S good := @Prog.yields_look _ _ accountAsks _ _ (.getspnam name) _ h

theorem yields_getgrnam {good : Option Group → Files → Prop} (h : good (grOf S name) S) :
    Prog.Yields (getgrnam name) S good := @Prog.yields_look _ _ accountAsks _ _ (.getgrnam name) _ h

theorem yields_getpwuid {uid : Nat}
    (h : good ((Vlogin.passwds (S .passwd)).find? (·.uid = uid)) S) :
    Prog.Yields (getpwuid uid) S good := @Prog.yields_look _ _ accountAsks _ _ (.getpwuid uid) _ h

theorem yields_getpwent {good : List Passwd → Files → Prop}
    (h : good (Vlogin.passwds (S .passwd)) S) :
    Prog.Yields getpwent S good := @Prog.yields_look _ _ accountAsks _ _ .getpwent _ h

theorem yields_getgrent {good : List Group → Files → Prop} (h : good (Vlogin.groups (S .group)) S) :
    Prog.Yields getgrent S good := @Prog.yields_look _ _ accountAsks _ _ .getgrent _ h

theorem yields_replace {good : Bool → Files → Prop}
    (h : good ((fgetsAll 4096 [] (S file)).any (isLineOf key)) (replacedIn S file key repl)) :
    Prog.Yields (dbReplaceLine file key repl) S good := by
  intro b hb
  cases hb
  exact h

theorem yields_append {good : Unit → Files → Prop} (h : good () (appendedTo S file line)) :
    Prog.Yields (dbAppendLine file line) S good := fun _ _ => h

end Rules

end Verkos.Vlogin
