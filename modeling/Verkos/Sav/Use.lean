import Mathlib.Data.List.Nodup
import Mathlib.Data.Fintype.Option
import Mathlib.Tactic.Common

/-!
# `use`, and the files on the command line

`savc` parses the files it is given one after the other into one unit, and `use` parses a further
file on the spot, unless its name is among those that have been loaded. A name is text: the
directory of the file that says `use`, and behind it what that file says. Two names of one file
are two files to the list, and every file on the command line begins a new list.

A file is what `parse_decls` finds in it: the `use` lines and the other declarations in order. What
a path opens is the system's business; `Disk.opens` may be any function.
-/

namespace Verkos.Sav.Use

open List

abbrev Path := List Char

inductive Decl (D : Type)
  | use (what : Path)
  | other (d : D)
deriving DecidableEq

/-- The files there are, and which of them a path opens. -/
structure Disk (F D : Type) where
  opens : Path → Option F
  decls : F → List (Decl D)

/-- Why `savc` ends without a unit; `fuel` is where the model gives up. -/
inductive Stop
  | fuel
  | missing (path : Path)
  | usage
  | tooMany
deriving DecidableEq

/-- What parsing has come to: the list of loaded names, the files that have been read, and
whose declarations are in the unit. -/
structure Parsed (F D : Type) where
  loaded : List Path
  reads : List F
  unit : List (F × D)

/-- `resolve_beside`. -/
def resolveBeside (including what : Path) : Path :=
  if what.head? = some '/' then what
  else (including.reverse.dropWhile fun c => c ≠ '/').reverse ++ what

section Parse

variable {F D : Type} (disk : Disk F D)

/-- `parse_decls`, with `parse_path`. -/
def parseDecls (parsePath : Path → Path → Parsed F D → Except Stop (Parsed F D)) (path : Path)
    (f : F) (ds : List (Decl D)) (s : Parsed F D) : Except Stop (Parsed F D) :=
  ds.foldlM (fun s d => match d with
    | .use what => parsePath path what s
    | .other d => .ok { s with unit := s.unit ++ [(f, d)] }) s

/-- `parse_path`. -/
def parsePath : Nat → Path → Path → Parsed F D → Except Stop (Parsed F D)
  | 0, _, _, _ => .error .fuel
  | n + 1, including, what, s =>
    let path := resolveBeside including what
    if path ∈ s.loaded then .ok s
    else match disk.opens path with
      | none => .error (.missing path)
      | some f =>
        parseDecls (parsePath n) path f (disk.decls f)
          { s with loaded := path :: s.loaded, reads := s.reads ++ [f] }

/-- `parse_into`. -/
def parseInto (n : Nat) (s : Parsed F D) (path : Path) : Except Stop (Parsed F D) :=
  match disk.opens path with
  | none => .error (.missing path)
  | some f =>
    parseDecls (parsePath disk n) path f (disk.decls f)
      { s with loaded := [path], reads := s.reads ++ [f] }

/-- `main`, up to the unit. -/
def savc (n : Nat) (files : List Path) : Except Stop (Parsed F D) :=
  if 16 < files.length then .error .tooMany
  else if files = [] then .error .usage
  else files.foldlM (parseInto disk n) ⟨[], [], []⟩

/-! ## What should come of it -/

/-- The names that `use` makes, from a file on the command line. -/
inductive Reach (root : Path) : Path → Prop
  | root : Reach root root
  | use {path what : Path} {f : F} : Reach root path → disk.opens path = some f →
    .use what ∈ disk.decls f → Reach root (resolveBeside path what)

variable [DecidableEq F] [DecidableEq D]

/-- Every file that is named is read once, and its declarations are in the unit once. -/
def Once (files : List Path) (s : Parsed F D) : Prop :=
  ∀ root ∈ files, ∀ path f, Reach disk root path → disk.opens path = some f →
    s.reads.count f = 1 ∧ ∀ d, s.unit.count (f, d) = (disk.decls f).count (.other d)

/-- Every name opens a file, from one file on the command line no two names open the same, and
from two none do. -/
structure Separate (files : List Path) : Prop where
  some : files ≠ []
  few : files.length ≤ 16
  opens : ∀ root ∈ files, ∀ path, Reach disk root path → disk.opens path ≠ none
  names : ∀ root ∈ files, ∀ p q, Reach disk root p → Reach disk root q →
    disk.opens p = disk.opens q → p = q
  apart : files.Pairwise fun r r' => ∀ p q, Reach disk r p → Reach disk r' q →
    disk.opens p ≠ disk.opens q

end Parse

/-! ## What a run of the parser does -/

section Run

variable {F D : Type} [DecidableEq F] [DecidableEq D] {disk : Disk F D} {root path : Path} {n : Nat}
  {f : F} {s s' s'' : Parsed F D} {own own' : F → D → Nat} {new new' : List Path} {files files' : List F}

/-- From `s` to `s'` the names `new` have been loaded, which open `files`; besides their
declarations `own` have got into the unit. -/
structure Grew (disk : Disk F D) (root : Path) (own : F → D → Nat) (s s' : Parsed F D)
    (new : List Path) (files : List F) : Prop where
  loaded : s'.loaded = new.reverse ++ s.loaded
  fresh : new.Nodup ∧ ∀ p ∈ new, p ∉ s.loaded
  reach : ∀ p ∈ new, Reach disk root p
  opened : new.map disk.opens = files.map some
  closed : ∀ p ∈ new, ∀ f what, disk.opens p = some f → .use what ∈ disk.decls f →
    resolveBeside p what ∈ s'.loaded
  reads : s'.reads = s.reads ++ files
  unit : ∀ f d, s'.unit.count (f, d) =
    s.unit.count (f, d) + own f d + files.count f * (disk.decls f).count (.other d)

namespace Grew

theorem refl (disk : Disk F D) (root : Path) (s : Parsed F D) :
    Grew disk root (fun _ _ => 0) s s [] [] where
  loaded := rfl
  fresh := ⟨nodup_nil, forall_mem_nil _⟩
  reach := forall_mem_nil _
  opened := rfl
  closed := forall_mem_nil _
  reads := (append_nil _).symm
  unit f d := by simp

theorem mem_loaded (h : Grew disk root own s s' new files) {p : Path} :
    p ∈ s'.loaded ↔ p ∈ new ∨ p ∈ s.loaded := by
  rw [h.loaded, mem_append, mem_reverse]

theorem trans (h : Grew disk root own s s' new files) (h' : Grew disk root own' s' s'' new' files') :
    Grew disk root (fun f d => own f d + own' f d) s s'' (new ++ new') (files ++ files') where
  loaded := by rw [h'.loaded, h.loaded, reverse_append, append_assoc]
  fresh := by
    refine ⟨nodup_append'.2 ⟨h.fresh.1, h'.fresh.1, fun p hp hp' => ?_⟩, fun p hp hs => ?_⟩
    · exact h'.fresh.2 p hp' (h.mem_loaded.2 (.inl hp))
    · rcases mem_append.1 hp with hp | hp
      · exact h.fresh.2 p hp hs
      · exact h'.fresh.2 p hp (h.mem_loaded.2 (.inr hs))
  reach p hp := (mem_append.1 hp).elim (h.reach p) (h'.reach p)
  opened := by rw [map_append, map_append, h.opened, h'.opened]
  closed p hp f what hf hu := by
    rcases mem_append.1 hp with hp | hp
    · exact h'.mem_loaded.2 (.inr (h.closed p hp f what hf hu))
    · exact h'.closed p hp f what hf hu
  reads := by rw [h'.reads, h.reads, append_assoc]
  unit f d := by
    rw [h'.unit, h.unit, count_append, Nat.add_mul]
    omega

/-- The file that is begun is the first of the new ones. -/
theorem begin (hpath : path ∉ s.loaded) (hreach : Reach disk root path)
    (hf : disk.opens path = some f)
    (h : Grew disk root (fun g d => if g = f then (disk.decls f).count (.other d) else 0)
      { s with loaded := path :: s.loaded, reads := s.reads ++ [f] } s' new files)
    (huse : ∀ what, .use what ∈ disk.decls f → resolveBeside path what ∈ s'.loaded) :
    Grew disk root (fun _ _ => 0) s s' (path :: new) (f :: files) where
  loaded := by
    rw [h.loaded, reverse_cons, append_assoc]
    rfl
  fresh := by
    refine ⟨nodup_cons.2 ⟨fun hp => ?_, h.fresh.1⟩, fun p hp hs => ?_⟩
    · exact h.fresh.2 path hp mem_cons_self
    · rcases mem_cons.1 hp with rfl | hp
      · exact hpath hs
      · exact h.fresh.2 p hp (mem_cons_of_mem _ hs)
  reach p hp := by
    rcases mem_cons.1 hp with rfl | hp
    · exact hreach
    · exact h.reach p hp
  opened := by rw [map_cons, map_cons, hf, h.opened]
  closed p hp g what hg hu := by
    rcases mem_cons.1 hp with rfl | hp
    · obtain rfl : f = g := Option.some.inj (hf.symm.trans hg)
      exact huse what hu
    · exact h.closed p hp g what hg hu
  reads := by rw [h.reads, append_assoc]; rfl
  unit g d := by
    have hunit := h.unit g d
    dsimp only at hunit
    rw [hunit, count_cons]
    by_cases hg : g = f
    · subst hg
      rw [if_pos rfl, beq_self_eq_true, if_pos rfl, Nat.add_mul]
      omega
    · rw [if_neg hg, if_neg (by simpa using Ne.symm hg), Nat.add_zero, Nat.add_zero]

end Grew

/-- What `parse_path` does when it comes back. -/
def Reads (disk : Disk F D) (root : Path)
    (parsePath : Path → Path → Parsed F D → Except Stop (Parsed F D)) : Prop :=
  ∀ including what s s', Reach disk root (resolveBeside including what) →
    parsePath including what s = .ok s' →
    resolveBeside including what ∈ s'.loaded ∧
      ∃ new files, Grew disk root (fun _ _ => 0) s s' new files

theorem bind_ok {α β : Type} {x : Except Stop α} {g : α → Except Stop β} {b : β}
    (h : x >>= g = .ok b) : ∃ a, x = .ok a ∧ g a = .ok b := by
  cases x with
  | error e => cases h
  | ok a => exact ⟨a, rfl, h⟩

theorem parseDecls_grew {rec : Path → Path → Parsed F D → Except Stop (Parsed F D)}
    (hrec : Reads disk root rec) (hpath : Reach disk root path) (hf : disk.opens path = some f)
    (ds : List (Decl D)) (hds : ∀ d ∈ ds, d ∈ disk.decls f)
    (h : parseDecls rec path f ds s = .ok s') :
    (∀ what, .use what ∈ ds → resolveBeside path what ∈ s'.loaded) ∧
      ∃ new files, Grew disk root (fun g d => if g = f then ds.count (.other d) else 0) s s'
        new files := by
  induction ds generalizing s with
  | nil =>
    cases h
    exact ⟨fun _ hu => (not_mem_nil hu).elim, [], [], by simpa using Grew.refl disk root _⟩
  | cons d ds ih =>
    unfold parseDecls at h
    rw [foldlM_cons] at h
    obtain ⟨s1, hs1, h⟩ := bind_ok h
    obtain ⟨huse, new, files, hgrew⟩ := ih (fun d hd => hds d (mem_cons_of_mem _ hd)) h
    cases d with
    | use what =>
      have hreach := hpath.use hf (hds _ mem_cons_self)
      obtain ⟨hmem, new1, files1, hgrew1⟩ := hrec path what s s1 hreach hs1
      refine ⟨fun what' hu => ?_, new1 ++ new, files1 ++ files, ?_⟩
      · rcases mem_cons.1 hu with hu | hu
        · cases hu
          exact hgrew.mem_loaded.2 (.inr hmem)
        · exact huse what' hu
      · simpa using hgrew1.trans hgrew
    | other d =>
      cases hs1
      refine ⟨fun what hu => huse what ((mem_cons.1 hu).resolve_left nofun), new, files,
        hgrew.loaded, hgrew.fresh, hgrew.reach, hgrew.opened, hgrew.closed, hgrew.reads,
        fun g e => ?_⟩
      have hunit := hgrew.unit g e
      dsimp only at hunit
      rw [hunit, count_append, count_cons, count_cons, count_nil]
      by_cases hg : g = f
      · subst hg
        by_cases he : d = e
        · subst he
          simp
          omega
        · simp [he]
      · simp [hg, Ne.symm hg]

theorem parsePath_reads (disk : Disk F D) (root : Path) (n : Nat) :
    Reads disk root (parsePath disk n) := by
  induction n with
  | zero =>
    intro including what s s' _ h
    cases h
  | succ n ih =>
    intro including what s s' hreach h
    rw [parsePath] at h
    split at h
    · rename_i hmem
      cases h
      exact ⟨hmem, [], [], Grew.refl disk root s⟩
    · rename_i hpath
      split at h
      · cases h
      · rename_i f hf
        obtain ⟨huse, new, files, hgrew⟩ :=
          parseDecls_grew ih hreach hf (disk.decls f) (fun _ hd => hd) h
        refine ⟨?_, resolveBeside including what :: new, f :: files,
          hgrew.begin hpath hreach hf huse⟩
        exact hgrew.mem_loaded.2 (.inr mem_cons_self)

/-! ## One file on the command line -/

/-- What `parse_into` reads: the names, one after the other, and the files they open. -/
structure Into (disk : Disk F D) (root : Path) (s s' : Parsed F D) (names : List Path)
    (files : List F) : Prop where
  nodup : names.Nodup
  mem : ∀ p, p ∈ names ↔ Reach disk root p
  opened : names.map disk.opens = files.map some
  reads : s'.reads = s.reads ++ files
  unit : ∀ f d, s'.unit.count (f, d) =
    s.unit.count (f, d) + files.count f * (disk.decls f).count (.other d)

theorem parseInto_spec (h : parseInto disk n s root = .ok s') :
    ∃ names files, Into disk root s s' names files := by
  unfold parseInto at h
  split at h
  · cases h
  · rename_i f hf
    obtain ⟨huse, new, files, hgrew⟩ :=
      parseDecls_grew (parsePath_reads disk root n) .root hf (disk.decls f) (fun _ hd => hd) h
    have hall : Grew disk root (fun _ _ => 0) { s with loaded := [] } s' (root :: new) (f :: files) :=
      Grew.begin not_mem_nil .root hf hgrew huse
    refine ⟨root :: new, f :: files, hall.fresh.1, fun p => ⟨hall.reach p, fun hp => ?_⟩,
      hall.opened, hall.reads, fun g d => ?_⟩
    · -- the names are closed under `use`
      induction hp with
      | root => exact mem_cons_self
      | use _ hg hu ih =>
        have := hall.mem_loaded.1 (hall.closed _ ih _ _ hg hu)
        exact this.resolve_right not_mem_nil
    · simpa using hall.unit g d

namespace Into

variable {names : List Path}

section

variable (h : Into disk root s s' names files)
include h

theorem mem_files {g : F} : g ∈ files ↔ ∃ p, Reach disk root p ∧ disk.opens p = some g := by
  have hmap : g ∈ files ↔ some g ∈ names.map disk.opens := by
    rw [h.opened, mem_map_of_injective (Option.some_injective F)]
  rw [hmap, mem_map]
  simp only [h.mem]

theorem opens {p : Path} (hp : Reach disk root p) : disk.opens p ≠ none := by
  have hmem : disk.opens p ∈ files.map some := h.opened ▸ mem_map_of_mem ((h.mem p).2 hp)
  obtain ⟨g, -, hg⟩ := mem_map.1 hmem
  rw [← hg]
  exact Option.some_ne_none g

theorem nodup_iff :
    files.Nodup ↔ ∀ p q, Reach disk root p → Reach disk root q → disk.opens p = disk.opens q →
      p = q := by
  have hmap : files.Nodup ↔ (names.map disk.opens).Nodup := by
    rw [h.opened, nodup_map_iff (Option.some_injective F)]
  rw [hmap]
  refine ⟨fun hn p q hp hq => ?_, fun hinj => ?_⟩
  · exact inj_on_of_nodup_map hn ((h.mem p).2 hp) ((h.mem q).2 hq)
  · exact (nodup_map_iff_inj_on h.nodup).2 fun p hp q hq =>
      hinj p q ((h.mem p).1 hp) ((h.mem q).1 hq)

theorem disjoint_iff {t t' : Parsed F D} {root' : Path} {names' : List Path} {files' : List F}
    (h' : Into disk root' t t' names' files') : files.Disjoint files' ↔
      ∀ p q, Reach disk root p → Reach disk root' q → disk.opens p ≠ disk.opens q := by
  refine ⟨fun hd p q hp hq he => ?_, fun hne g hg hg' => ?_⟩
  · obtain ⟨g, hg⟩ := Option.ne_none_iff_exists'.1 (h.opens hp)
    exact hd (h.mem_files.2 ⟨p, hp, hg⟩) (h'.mem_files.2 ⟨q, hq, he ▸ hg⟩)
  · obtain ⟨p, hp, hpg⟩ := h.mem_files.1 hg
    obtain ⟨q, hq, hqg⟩ := h'.mem_files.1 hg'
    exact hne p q hp hq (hpg.trans hqg.symm)

end

end Into

/-- All the files on the command line. -/
theorem foldlM_parseInto {roots : List Path} (h : roots.foldlM (parseInto disk n) s = .ok s') :
    ∃ fss : List (List F),
      List.Forall₂ (fun root files => ∃ t t' names, Into disk root t t' names files) roots fss ∧
      s'.reads = s.reads ++ fss.flatten ∧ ∀ f d, s'.unit.count (f, d) =
        s.unit.count (f, d) + fss.flatten.count f * (disk.decls f).count (.other d) := by
  induction roots generalizing s with
  | nil =>
    cases h
    exact ⟨[], .nil, by simp, by simp⟩
  | cons root roots ih =>
    rw [foldlM_cons] at h
    obtain ⟨s1, hs1, h⟩ := bind_ok h
    obtain ⟨names, files, hinto⟩ := parseInto_spec hs1
    obtain ⟨fss, hall, hreads, hunit⟩ := ih h
    refine ⟨files :: fss, .cons ⟨s, s1, names, hinto⟩ hall, ?_, fun f d => ?_⟩
    · rw [hreads, hinto.reads, flatten_cons, append_assoc]
    · rw [hunit, hinto.unit, flatten_cons, count_append, Nat.add_mul]
      omega

/-! ## Parsing ends -/

section Ends

variable [Fintype F]

/-- There is fuel for the files that have not been loaded. -/
structure Ready (disk : Disk F D) (root : Path) (n : Nat) (s : Parsed F D) : Prop where
  reach : ∀ p ∈ s.loaded, Reach disk root p
  nodup : s.loaded.Nodup
  fuel : Fintype.card (Option F) < n + s.loaded.length

theorem Ready.grew (h : Ready disk root n s) (hg : Grew disk root own s s' new files) :
    Ready disk root n s' where
  reach p hp := (hg.mem_loaded.1 hp).elim (hg.reach p) (h.reach p)
  nodup := by
    rw [hg.loaded, nodup_append']
    exact ⟨nodup_reverse.2 hg.fresh.1, h.nodup,
      fun p hp hs => hg.fresh.2 p (mem_reverse.1 hp) hs⟩
  fuel := by
    rw [hg.loaded, length_append]
    exact Nat.lt_of_lt_of_le h.fuel (Nat.add_le_add_left (Nat.le_add_left _ _) n)

omit [DecidableEq F] [DecidableEq D] in
theorem Ready.begin (h : Ready disk root (n + 1) s) (hpath : path ∉ s.loaded)
    (hreach : Reach disk root path) {reads : List F} {unit : List (F × D)} :
    Ready disk root n ⟨path :: s.loaded, reads, unit⟩ where
  reach p hp := by
    rcases mem_cons.1 hp with rfl | hp
    · exact hreach
    · exact h.reach p hp
  nodup := nodup_cons.2 ⟨hpath, h.nodup⟩
  fuel := by
    have := h.fuel
    rw [length_cons]
    omega

variable (hopen : ∀ p, Reach disk root p → disk.opens p ≠ none)
  (hinj : ∀ p q, Reach disk root p → Reach disk root q → disk.opens p = disk.opens q → p = q)

omit [DecidableEq F] [DecidableEq D] in
include hinj in
theorem Ready.pos (h : Ready disk root n s) : n ≠ 0 := by
  rintro rfl
  have hnodup : (s.loaded.map disk.opens).Nodup :=
    (nodup_map_iff_inj_on h.nodup).2 fun p hp q hq => hinj p q (h.reach p hp) (h.reach q hq)
  have hle := hnodup.length_le_card
  have := h.fuel
  rw [length_map] at hle
  omega

theorem parseDecls_total {rec : Path → Path → Parsed F D → Except Stop (Parsed F D)}
    (hrec : Reads disk root rec)
    (htotal : ∀ including what s, Reach disk root (resolveBeside including what) →
      Ready disk root n s → ∃ s', rec including what s = .ok s')
    (hpath : Reach disk root path) (hf : disk.opens path = some f) (ds : List (Decl D))
    (hds : ∀ d ∈ ds, d ∈ disk.decls f) (hs : Ready disk root n s) :
    ∃ s', parseDecls rec path f ds s = .ok s' := by
  induction ds generalizing s with
  | nil => exact ⟨s, rfl⟩
  | cons d ds ih =>
    unfold parseDecls
    rw [foldlM_cons]
    have htail : ∀ d ∈ ds, d ∈ disk.decls f := fun d hd => hds d (mem_cons_of_mem _ hd)
    cases d with
    | use what =>
      have hreach := hpath.use hf (hds _ mem_cons_self)
      obtain ⟨s1, hs1⟩ := htotal path what s hreach hs
      obtain ⟨-, new, files, hgrew⟩ := hrec path what s s1 hreach hs1
      dsimp only
      rw [hs1]
      exact ih htail (hs.grew hgrew)
    | other d => exact ih htail ⟨hs.reach, hs.nodup, hs.fuel⟩

include hopen hinj in
theorem parsePath_total (n : Nat) (including what : Path) (s : Parsed F D)
    (hreach : Reach disk root (resolveBeside including what)) (hs : Ready disk root n s) :
    ∃ s', parsePath disk n including what s = .ok s' := by
  induction n generalizing including what s with
  | zero => exact absurd rfl (hs.pos hinj)
  | succ n ih =>
    rw [parsePath]
    split
    · exact ⟨s, rfl⟩
    · rename_i hpath
      obtain ⟨f, hf⟩ := Option.ne_none_iff_exists'.1 (hopen _ hreach)
      rw [hf]
      exact parseDecls_total (parsePath_reads disk root n) ih hreach hf _ (fun _ hd => hd)
        (hs.begin hpath hreach)

include hopen hinj in
theorem parseInto_total (hn : Fintype.card (Option F) ≤ n) (s : Parsed F D) :
    ∃ s', parseInto disk n s root = .ok s' := by
  obtain ⟨f, hf⟩ := Option.ne_none_iff_exists'.1 (hopen _ .root)
  unfold parseInto
  rw [hf]
  refine parseDecls_total (parsePath_reads disk root n) (parsePath_total hopen hinj n) .root hf _
    (fun _ hd => hd) ⟨fun p hp => ?_, nodup_singleton root, Nat.lt_succ_of_le hn⟩
  rw [mem_singleton.1 hp]
  exact .root

end Ends

end Run

/-! ## The law -/

/-- Two lists that go together item by item are pairwise so together. -/
theorem pairwise_iff_of_forall₂ {α β : Type} {R : α → β → Prop} {P : α → α → Prop}
    {Q : β → β → Prop} (hPQ : ∀ {a a' b b'}, R a b → R a' b' → (P a a' ↔ Q b b')) {l : List α}
    {l' : List β} (h : List.Forall₂ R l l') : l.Pairwise P ↔ l'.Pairwise Q := by
  induction h with
  | nil => simp
  | @cons a b l l' hab hl ih =>
    have hhead : (∀ a' ∈ l, P a a') ↔ ∀ b' ∈ l', Q b b' := by
      clear ih
      induction hl with
      | nil => simp
      | cons h' _ ih => rw [forall_mem_cons, forall_mem_cons, hPQ hab h', ih]
    rw [pairwise_cons, pairwise_cons, hhead, ih]

section Law

variable {F D : Type} [DecidableEq F] [DecidableEq D] {disk : Disk F D} {n : Nat}
  {files : List Path} {s : Parsed F D}

/-- A unit has each file once exactly when the names are those of different files. -/
theorem savc_once (h : savc disk n files = .ok s) :
    (∀ root ∈ files, ∀ p, Reach disk root p → disk.opens p ≠ none) ∧ (Once disk files s ↔
        (∀ root ∈ files, ∀ p q, Reach disk root p → Reach disk root q →
          disk.opens p = disk.opens q → p = q) ∧
        files.Pairwise fun r r' => ∀ p q, Reach disk r p → Reach disk r' q →
          disk.opens p ≠ disk.opens q) := by
  unfold savc at h
  split at h
  · cases h
  · split at h
    · cases h
    · obtain ⟨fss, hall, hreads, hunit⟩ := foldlM_parseInto h
      dsimp only at hreads hunit
      rw [nil_append] at hreads
      simp only [count_nil, Nat.zero_add] at hunit
      have hroot : ∀ root ∈ files, ∃ fs ∈ fss, ∃ t t' names, Into disk root t t' names fs := by
        intro root hr
        obtain ⟨i, hi, rfl⟩ := getElem_of_mem hr
        have hi' : i < fss.length := hall.length_eq ▸ hi
        exact ⟨fss[i], getElem_mem hi', hall.get hi hi'⟩
      have hfs : ∀ fs ∈ fss, ∃ root ∈ files, ∃ t t' names, Into disk root t t' names fs := by
        intro fs hf
        obtain ⟨i, hi, rfl⟩ := getElem_of_mem hf
        have hi' : i < files.length := hall.length_eq ▸ hi
        exact ⟨files[i], getElem_mem hi', hall.get hi' hi⟩
      have hnamed : ∀ f, f ∈ fss.flatten ↔
          ∃ root ∈ files, ∃ p, Reach disk root p ∧ disk.opens p = some f := by
        intro f
        rw [mem_flatten]
        constructor
        · rintro ⟨fs, hf, hmem⟩
          obtain ⟨root, hr, t, t', names, hinto⟩ := hfs fs hf
          exact ⟨root, hr, hinto.mem_files.1 hmem⟩
        · rintro ⟨root, hr, hp⟩
          obtain ⟨fs, hf, t, t', names, hinto⟩ := hroot root hr
          exact ⟨fs, hf, hinto.mem_files.2 hp⟩
      have honce : Once disk files s ↔ fss.flatten.Nodup := by
        rw [nodup_iff_count_eq_one]
        constructor
        · intro ho f hf
          obtain ⟨root, hr, p, hp, hpf⟩ := (hnamed f).1 hf
          exact hreads ▸ (ho root hr p f hp hpf).1
        · intro hc root hr p f hp hpf
          have hone := hc f ((hnamed f).2 ⟨root, hr, p, hp, hpf⟩)
          exact ⟨hreads ▸ hone, fun d => by rw [hunit, hone, Nat.one_mul]⟩
      refine ⟨fun root hr p hp => ?_, ?_⟩
      · obtain ⟨fs, -, t, t', names, hinto⟩ := hroot root hr
        exact hinto.opens hp
      · rw [honce, nodup_flatten]
        refine and_congr ⟨fun hn root hr => ?_, fun hn fs hf => ?_⟩ ?_
        · obtain ⟨fs, hf, t, t', names, hinto⟩ := hroot root hr
          exact hinto.nodup_iff.1 (hn fs hf)
        · obtain ⟨root, hr, t, t', names, hinto⟩ := hfs fs hf
          exact hinto.nodup_iff.2 (hn root hr)
        · refine (pairwise_iff_of_forall₂ ?_ hall).symm
          rintro r r' fs fs' ⟨t, t', names, hinto⟩ ⟨u, u', names', hinto'⟩
          exact (hinto.disjoint_iff hinto').symm

/-- Parsing ends with every file that is named read once, and its declarations in the unit once,
exactly when there are one to sixteen files on the command line, every name that `use` makes from
one of them opens a file, no two such names open the same, and no two files on the command line
lead to the same file. -/
theorem each_file_once {F D : Type} [Fintype F] [DecidableEq F] [DecidableEq D] (disk : Disk F D)
    (files : List Path) :
    (∃ n s, savc disk n files = .ok s ∧ Once disk files s) ↔ Separate disk files := by
  constructor
  · rintro ⟨n, s, hs, honce⟩
    obtain ⟨hopens, hiff⟩ := savc_once hs
    obtain ⟨hnames, hapart⟩ := hiff.1 honce
    unfold savc at hs
    split at hs
    · cases hs
    · rename_i hfew
      split at hs
      · cases hs
      · rename_i hsome
        exact ⟨hsome, by omega, hopens, hnames, hapart⟩
  · intro h
    have hrun : ∀ (roots : List Path) (s : Parsed F D), (∀ root ∈ roots, root ∈ files) →
        ∃ s', roots.foldlM (parseInto disk (Fintype.card (Option F))) s = .ok s' := by
      intro roots
      induction roots with
      | nil => exact fun s _ => ⟨s, rfl⟩
      | cons root roots ih =>
        intro s hmem
        have hr := hmem root mem_cons_self
        obtain ⟨s1, hs1⟩ := parseInto_total (h.opens root hr) (h.names root hr) (Nat.le_refl _) s
        rw [foldlM_cons, hs1]
        exact ih s1 fun r hr => hmem r (mem_cons_of_mem _ hr)
    obtain ⟨s, hs⟩ := hrun files ⟨[], [], []⟩ fun _ hr => hr
    have hsavc : savc disk (Fintype.card (Option F)) files = .ok s := by
      unfold savc
      rw [if_neg (by have := h.few; omega), if_neg h.some, hs]
    exact ⟨_, s, hsavc, (savc_once hsavc).2.2 ⟨h.names, h.apart⟩⟩

end Law

/-- The parts of a path between the slashes, the one being read in `cur`. -/
def parts (cur : Path) : Path → List Path
  | [] => [cur]
  | c :: p => if c = '/' then cur :: parts [] p else parts (cur ++ [c]) p

/-- Where a path leads from a directory. -/
def walk (dir : List Path) (path : Path) : List Path :=
  (parts [] path).foldl (fun dir part =>
    if part = [] ∨ part = ['.'] then dir
    else if part = ['.', '.'] then dir.dropLast
    else dir ++ [part]) (if path.head? = some '/' then [] else dir)

/-- A directory with two files, `main.sav` that uses these and `num.sav`. -/
def pair (uses : List String) : Disk (Fin 2) String where
  opens path :=
    let place := walk ["home".toList] path
    if place = ["home".toList, "main.sav".toList] then some 0
    else if place = ["home".toList, "num.sav".toList] then some 1
    else none
  decls f := if f = 0 then uses.map (fun u => .use u.toList) ++ [Decl.other "main"] else [.other "show"]

/-- One file under two names is read twice, and so is one that is both on the command line and
used by another that is. -/
theorem file_read_twice :
    (¬ ∃ n s, savc (pair ["num.sav", "./num.sav"]) n ["main.sav".toList] = .ok s ∧
      Once (pair ["num.sav", "./num.sav"]) ["main.sav".toList] s) ∧
    ¬ ∃ n s, savc (pair ["num.sav"]) n ["main.sav".toList, "num.sav".toList] = .ok s ∧
      Once (pair ["num.sav"]) ["main.sav".toList, "num.sav".toList] s := by
  have huse : ∀ {uses : List String} {u : String}, u ∈ uses →
      Reach (pair uses) "main.sav".toList (resolveBeside "main.sav".toList u.toList) := by
    intro uses u hu
    have hmain : (pair uses).opens "main.sav".toList = some 0 :=
      show (pair []).opens "main.sav".toList = some 0 by decide
    refine .use .root hmain (mem_append_left _ ?_)
    exact mem_map_of_mem hu
  constructor
  · rintro ⟨n, s, hs, honce⟩
    have hnames := ((savc_once hs).2.1 honce).1 _ mem_cons_self
    have := hnames _ _ (huse (u := "num.sav") (by simp)) (huse (u := "./num.sav") (by simp))
      (by decide)
    exact absurd this (by decide)
  · rintro ⟨n, s, hs, honce⟩
    have hapart := ((savc_once hs).2.1 honce).2
    rw [pairwise_pair] at hapart
    exact hapart _ _ (huse (u := "num.sav") (by simp)) .root (by decide)

end Verkos.Sav.Use
