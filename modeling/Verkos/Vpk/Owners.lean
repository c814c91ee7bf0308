import Verkos.Vpk.Install

/-!
# Who owns what is installed

`History` is the system over a run of operations, with the files and links that have been put in
place and are still there, and those that a package had in its list before it was installed anew
with a list without them.

What is said of removing goes by the lists: the paths of a removed package go where no other package
lists them, and of its directories those that are left with nothing in them.
-/

namespace Verkos.Vpk

open Lib Vlogin
open List

/-! ## What the claim is about -/

/-- `files` lists a path, as a file or link (`f`) or a directory (`d`). -/
def lists (files : Text) (kind : Char) (p : Path) : Bool :=
  (files.splitOn '\n').any fun line => line.take 2 = [kind, ' '] ∧ Fs.comps (line.drop 2) = p

/-- The system, what has been put in place and not deleted since, and what has been dropped from the
list of a package when it was installed anew. -/
structure History where
  sys : Sys
  placed : List Path
  dropped : List Path

def Op.name : Op → PkgName
  | install n _ | reinstall n _ | upgrade _ n _ | remove n => n

/-- What the list of a package had, and has no more. -/
def droppedFrom (old new : Option Pkg) (p : Path) : Bool :=
  match old, new with
  | some old, some new => lists old.files 'f' p ∧ ¬lists new.files 'f' p
  | _, _ => false

def isFile (fs : Fs) (p : Path) : Bool := fs.node p ≠ none ∧ fs.node p ≠ some .dir

def History.step (h : History) (op : Op) : Option History :=
  (op.run h.sys).map fun (σ, put) =>
    { sys := σ
      placed := (h.placed ++ put).filter (isFile σ.fs)
      dropped := h.dropped ++
        h.placed.filter (droppedFrom (h.sys.pkg op.name) (σ.pkg op.name)) }

/-- Some installed package lists a file. -/
def Sys.Listed (σ : Sys) (p : Path) : Prop := ∃ n pkg, σ.pkg n = some pkg ∧ lists pkg.files 'f' p

/-- What has been put in place is listed, if it has not been dropped. -/
def History.Owned (h : History) : Prop := ∀ p ∈ h.placed, h.sys.Listed p ∨ p ∈ h.dropped

/-- What removing a package does: the files that go are those that it alone lists, the directories
that go are listed too and nothing is left in them, and everything else is as before. -/
structure Removed (σ σ' : Sys) (n : PkgName) (pkg : Pkg) : Prop where
  files : ∀ p, isFile σ.fs p → (σ'.fs.node p = none ↔ lists pkg.files 'f' p ∧
    ∀ m other, m ≠ n → σ.pkg m = some other → ¬lists other.files 'f' p)
  dirs : ∀ p, σ.fs.node p = some .dir → σ'.fs.node p = none →
    lists pkg.files 'd' p ∧ ∀ c, σ'.fs.node (p ++ [c]) = none
  rest : ∀ p, σ'.fs.node p ≠ none → σ'.fs.node p = σ.fs.node p

/-- A base package stays one. -/
def BaseStays (σ σ' : Sys) : Prop :=
  ∀ n pkg, σ.pkg n = some pkg → pkg.base → ∃ pkg', σ'.pkg n = some pkg' ∧ pkg'.base

/-! ## The condition -/

inductive Kind
  | dir
  | file
  | link
  deriving DecidableEq

/-- The paths of what is in a directory, in the order in which they are recorded. -/
def Entries.paths : Entries → Path → List (Kind × Path)
  | .nil, _ => []
  | .dir name inside rest, p =>
    (.dir, p ++ [name.text]) :: (inside.paths (p ++ [name.text]) ++ rest.paths p)
  | .file name _ rest, p => (.file, p ++ [name.text]) :: rest.paths p
  | .link name _ rest, p => (.link, p ++ [name.text]) :: rest.paths p
  | .other _ rest, p => rest.paths p

/-- A path without its slash in front. -/
def relText (p : Path) : Text := ['/'].intercalate p

/-- A path that may be recorded: without line ends, in a line that is read as a whole. -/
structure Recordable (p : Path) : Prop where
  lineEnds : ∀ c ∈ p, '\n' ∉ c ∧ '\r' ∉ c
  short : (relText p).length + 2 < 4095

def IsLink (fs : Fs) (p : Path) : Prop := ∃ t, fs.node p = some (.link t)

/-- The directories that the package manager keeps for itself. -/
def ownDirs : List Path := [Fs.comps dbDir, Fs.comps buildDir, Fs.comps cacheDir]

/-- What may be merged: the entries of each directory have different names, their paths may be
recorded and fit the buffers, and where there is a directory or a file there is no link in the
system. -/
structure Mergeable (fs : Fs) (r : Recipe) : Prop where
  distinct : ((r.entries.paths []).map (·.2)).Nodup
  recordable : ∀ e ∈ r.entries.paths [], Recordable e.2
  fits : ∀ e ∈ r.entries.paths [], r.dest.length + 1 + (relText e.2).length < 4096
  noLink : ∀ e ∈ r.entries.paths [], e.1 ≠ .link → ¬IsLink fs e.2
  apart : ∀ e ∈ r.entries.paths [], ∀ own ∈ ownDirs, ¬own <+: e.2

/-- What may be removed: no listed path leads through a link, and the directories fit their
buffer. -/
structure Removable (fs : Fs) (files : Text) : Prop where
  noLink : ∀ k p, lists files k p → ∀ q, q <+: p → q ≠ p → ¬IsLink fs q
  short : ∀ p, lists files 'd' p → (relText p).length + 1 < 256

/-- The condition on an operation. -/
def Orderly (h : History) : Op → Prop
  | .install n r | .reinstall n r | .upgrade _ n (some r) =>
    n.text.head? ≠ some '.' ∧ Mergeable h.sys.begin.fs r
  | .upgrade _ _ none => True
  | .remove n => ∀ pkg, h.sys.pkg n = some pkg → Removable h.sys.begin.fs pkg.files

/-! ## Lists -/

/-- Names as they are in directories. -/
def Proper (p : Path) : Prop :=
  p ≠ [] ∧ ∀ c ∈ p, c ≠ [] ∧ '/' ∉ c ∧ c ≠ ['.'] ∧ c ≠ ['.', '.']

/-- A list that the package manager has written. -/
structure Listing (files : Text) (ls : List (Char × Path)) : Prop where
  eq : files = unlines (ls.map fun l => fileLine l.1 (relText l.2))
  kinds : ∀ l ∈ ls, l.1 = 'd' ∨ l.1 = 'f'
  proper : ∀ l ∈ ls, Proper l.2
  recordable : ∀ l ∈ ls, Recordable l.2

/-- The lists of the database are such lists, and no package has a name with a dot in front. -/
structure Sys.Tidy (σ : Sys) : Prop where
  nodup : (σ.db.map (·.1)).Nodup
  visible : ∀ e ∈ σ.db, e.1.text.head? ≠ some '.'
  listing : ∀ e ∈ σ.db, ∃ ls, Listing e.2.files ls

section Listing

variable {files : Text} {ls : List (Char × Path)} {p : Path} {kind : Char}

theorem comps_relText (h : Proper p) : Fs.comps (relText p) = p := by
  have hsplit : (relText p).splitOn '/' = p :=
    splitOn_intercalate '/' (fun c hc => (h.2 c hc).2.1) h.1
  rw [Fs.comps, hsplit]
  exact filter_eq_self.2 fun c hc => by simpa using (h.2 c hc).1

theorem comps_slash (t : Text) : Fs.comps ('/' :: t) = Fs.comps t := by
  have hsplit : ('/' :: t).splitOn '/' = [] :: t.splitOn '/' :=
    splitOn_append_cons_self_of_not_mem (not_mem_nil : '/' ∉ ([] : Text)) t
  rw [Fs.comps, hsplit]
  rfl

theorem mem_relText {c : Char} (h : c ∈ relText p) : c = '/' ∨ ∃ n ∈ p, c ∈ n := mem_intercalate h

theorem Recordable.clean (h : Recordable p) : '\n' ∉ relText p ∧ '\r' ∉ relText p := by
  constructor
  · intro hc
    rcases mem_relText hc with hc | ⟨n, hn, hc⟩
    · cases hc
    · exact (h.lineEnds n hn).1 hc
  · intro hc
    rcases mem_relText hc with hc | ⟨n, hn, hc⟩
    · cases hc
    · exact (h.lineEnds n hn).2 hc

theorem Listing.tidy (h : Listing files ls) :
    Vlogin.Tidy files (ls.map fun l => fileLine l.1 (relText l.2)) := by
  refine ⟨h.eq, fun line hline => ?_⟩
  obtain ⟨l, hl, rfl⟩ := mem_map.1 hline
  have hrec := h.recordable l hl
  refine ⟨fun hc => ?_, ?_⟩
  · rcases mem_cons.1 hc with hc | hc
    · rcases h.kinds l hl with hk | hk
      · rw [hk] at hc
        cases hc
      · rw [hk] at hc
        cases hc
    · rcases mem_cons.1 hc with hc | hc
      · cases hc
      · exact hrec.clean.1 hc
  · have hshort := hrec.short
    simp only [fileLine, length_cons]
    omega

theorem Listing.lists_iff (h : Listing files ls) : lists files kind p ↔ (kind, p) ∈ ls := by
  rw [lists, h.tidy.splitOn, any_append, Bool.or_eq_true_iff, any_map, any_eq_true]
  constructor
  · rintro (⟨l, hl, hline⟩ | hlast)
    · obtain ⟨htake, hpath⟩ := of_decide_eq_true hline
      have hkind : l.1 = kind := (List.cons.inj htake).1
      have hsame : Fs.comps (relText l.2) = p := hpath
      rw [comps_relText (h.proper l hl)] at hsame
      rw [← hkind, ← hsame]
      exact hl
    · exact absurd hlast (by simp)
  · intro hmem
    refine .inl ⟨_, hmem, decide_eq_true ⟨rfl, ?_⟩⟩
    exact comps_relText (h.proper _ hmem)

theorem Listing.lines (h : Listing files ls) :
    (fgetsAll 4096 [] files).filterMap listedPath = ls.map fun l => (l.1, relText l.2) := by
  rw [h.tidy.fgetsAll, map_map, filterMap_map]
  have heach : ∀ l ∈ ls, listedPath (fileLine l.1 (relText l.2) ++ ['\n']) =
      some (l.1, relText l.2) := by
    intro l hl
    obtain ⟨hn, hr⟩ := (h.recordable l hl).clean
    have hlast : (relText l.2 ++ ['\n']).rdropWhile (fun c => c = '\n' ∨ c = '\r') =
        relText l.2 := by
      rw [rdropWhile_concat_pos _ _ _ (by decide), rdropWhile_eq_self_iff]
      intro hne hend
      have hmem := getLast_mem hne
      rcases of_decide_eq_true hend with heq | heq
      · exact hn (heq ▸ hmem)
      · exact hr (heq ▸ hmem)
    simp only [fileLine, cons_append, listedPath, hlast]
  clear h
  induction ls with
  | nil => rfl
  | cons l ls ih =>
    have hl := heach l (.head _)
    simp only [filterMap_cons, Function.comp_apply, hl, map_cons]
    exact congrArg _ (ih fun l' hl' => heach l' (.tail _ hl'))

theorem Listing.owned (h : Listing files ls) : (fgetsAll 4096 [] files).filterMap ownedPath =
    (ls.filter (·.1 = 'f')).map fun l => relText l.2 := by
  rw [h.tidy.fgetsAll, map_map, filterMap_map]
  have heach : ∀ l ∈ ls, ownedPath (fileLine l.1 (relText l.2) ++ ['\n']) =
      if l.1 = 'f' then some (relText l.2) else none := by
    intro l hl
    obtain ⟨hn, hr⟩ := (h.recordable l hl).clean
    have htake : (relText l.2 ++ ['\n']).takeWhile (fun c => c ≠ '\r' ∧ c ≠ '\n') =
        relText l.2 := by
      rw [takeWhile_append_of_pos]
      · simp
      · intro c hc
        refine decide_eq_true ⟨?_, ?_⟩
        · rintro rfl
          exact hr hc
        · rintro rfl
          exact hn hc
    rcases h.kinds l hl with hk | hk
    · rw [hk]
      rfl
    · rw [hk]
      simp only [fileLine, cons_append, ownedPath, htake, if_true]
  clear h
  induction ls with
  | nil => rfl
  | cons l ls ih =>
    have hl := heach l (.head _)
    have hrest := ih fun l' hl' => heach l' (.tail _ hl')
    by_cases hk : l.1 = 'f'
    · rw [if_pos hk] at hl
      rw [filter_cons_of_pos (by simpa using hk), map_cons, ← hrest]
      simp only [filterMap_cons, Function.comp_apply, hl]
    · rw [if_neg hk] at hl
      rw [filter_cons_of_neg (by simpa using hk), ← hrest]
      simp only [filterMap_cons, Function.comp_apply, hl]

end Listing

end Verkos.Vpk
