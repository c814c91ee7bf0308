import Mathlib.Data.List.Infix
import Mathlib.Logic.Function.Basic

/-!
# A tree of files with symbolic links

What is at each place below a root, how the system follows a path to it, and the calls that change
what is there. A path is followed name by name; a link on the way is gone on from, and so is one at
the end if the call goes behind it. `Spot` is where a path has come to, and whether it came there
without a link.

A path that does not climb, and meets no link, comes to the place that its names spell
(`seek_straight`). The calls that make, replace or remove something then do it there, and nowhere
else; what they say of every other place is that it stays.
-/

namespace Verkos.Lib.Links

open List
open Option (some.inj bind_eq_some_iff bind_some)

variable {ν δ φ : Type*}

/-- What stands between two slashes: a dot, two of them, or a name. -/
inductive Comp (ν : Type*)
  | here
  | up
  | name (n : ν)
deriving DecidableEq

/-- A path: from the root or not, what it goes by, and whether it ends in a slash. -/
structure Route (ν : Type*) where
  abs : Bool
  comps : List (Comp ν)
  slash : Bool
deriving DecidableEq

/-- A directory and a file have something to them: `δ` and `φ`. -/
inductive Node (ν δ φ : Type*)
  | dir (d : δ)
  | file (f : φ)
  | link (target : Route ν)
deriving DecidableEq

/-- The names on the way from the root. -/
abbrev Place (ν : Type*) := List ν

/-- What is at each place. The root is a directory always, and not recorded. -/
abbrev Tree (ν δ φ : Type*) := Place ν → Option (Node ν δ φ)

/-- Where a path starts. -/
def Route.base (cwd : Place ν) (r : Route ν) : Place ν := if r.abs then [] else cwd

/-- A slash at the end asks for a directory, as a dot behind it would. -/
def Route.all (r : Route ν) : List (Comp ν) := r.comps ++ if r.slash then [.here] else []

/-- Where a path comes to: a name in a directory, or that directory itself. `direct` says that no
link was followed. -/
structure Spot (ν : Type*) where
  dir : Place ν
  last : Option ν
  direct : Bool
deriving DecidableEq

def Spot.place (s : Spot ν) : Place ν := s.dir ++ s.last.toList

/-! ## Following a path -/

/-- Name by name from `cur` on; `go` goes on behind a link, which at the end is for `behind` only. -/
def seekWith (t : Tree ν δ φ) (behind : Bool) (go : Place ν → List (Comp ν) → Option (Spot ν)) :
    Place ν → List (Comp ν) → Option (Spot ν)
  | cur, [] => some ⟨cur, none, true⟩
  | cur, .here :: cs => seekWith t behind go cur cs
  | cur, .up :: cs => seekWith t behind go cur.dropLast cs
  | cur, .name n :: cs =>
    if cs = [] ∧ behind = false then some ⟨cur, some n, true⟩
    else
      match t (cur ++ [n]) with
      | some (.link target) =>
        (go (target.base cur) (target.all ++ cs)).map fun s => { s with direct := false }
      | some (.dir _) =>
        if cs = [] then some ⟨cur, some n, true⟩ else seekWith t behind go (cur ++ [n]) cs
      | some (.file _) | none => if cs = [] then some ⟨cur, some n, true⟩ else none

/-- With so many links on the way at most. -/
def seek (t : Tree ν δ φ) (behind : Bool) : Nat → Place ν → List (Comp ν) → Option (Spot ν)
  | 0 => seekWith t behind fun _ _ => none
  | links + 1 => seekWith t behind (seek t behind links)

/-- Where a path comes to; forty links are followed at most. -/
def spot (t : Tree ν δ φ) (behind : Bool) (cwd : Place ν) (r : Route ν) : Option (Spot ν) :=
  seek t behind 40 (r.base cwd) r.all

/-! ## Calls -/

section Calls

variable [DecidableEq ν]

/-- Something is made where nothing is. -/
def make (t : Tree ν δ φ) (new : Node ν δ φ) (came : Option (Spot ν)) :
    Option (Spot ν × Tree ν δ φ) :=
  came.bind fun s =>
    if s.last.isSome ∧ (t s.place).isNone then some (s, Function.update t s.place (some new))
    else none

/-- `mkdir`, to which a slash at the end is nothing. -/
def mkdir (t : Tree ν δ φ) (cwd : Place ν) (r : Route ν) (d : δ) : Option (Spot ν × Tree ν δ φ) :=
  make t (.dir d) (seek t false 40 (r.base cwd) r.comps)

/-- `symlink`. -/
def symlink (t : Tree ν δ φ) (cwd : Place ν) (r target : Route ν) :
    Option (Spot ν × Tree ν δ φ) :=
  make t (.link target) (spot t false cwd r)

/-- `link`: what is at the old path, if no directory, is at the new one as well. -/
def link (t : Tree ν δ φ) (cwd : Place ν) (old new : Route ν) : Option (Spot ν × Tree ν δ φ) :=
  (spot t false cwd old).bind fun s =>
    match t s.place with
    | some (.dir _) | none => none
    | some node => if s.last.isSome then make t node (spot t false cwd new) else none

/-- `unlink`, of what is no directory. -/
def unlink (t : Tree ν δ φ) (cwd : Place ν) (r : Route ν) : Option (Spot ν × Tree ν δ φ) :=
  (spot t false cwd r).bind fun s =>
    match t s.place with
    | some (.dir _) | none => none
    | some (.file _) | some (.link _) =>
      if s.last.isSome then some (s, Function.update t s.place none) else none

/-- `open` for writing with `O_CREAT`, behind a link at the end or not (`O_NOFOLLOW`): the file that
it has come to. -/
def create (t : Tree ν δ φ) (behind : Bool) (cwd : Place ν) (r : Route ν) (new : φ) :
    Option (Spot ν × φ × Tree ν δ φ) :=
  (spot t behind cwd r).bind fun s =>
    if s.last.isSome then
      match t s.place with
      | some (.file f) => some (s, f, t)
      | none => some (s, new, Function.update t s.place (some (.file new)))
      | some (.dir _) | some (.link _) => none
    else none

/-- A call that changes something about what is there (`chmod`, `utime`). -/
def change (t : Tree ν δ φ) (cwd : Place ν) (r : Route ν) (f : Node ν δ φ → Node ν δ φ) :
    Option (Spot ν × Tree ν δ φ) :=
  (spot t true cwd r).bind fun s =>
    match t s.place with
    | some node => some (s, Function.update t s.place (some (f node)))
    | none => if s.last.isSome then none else some (s, t)

end Calls

/-- A tree, and where it has been touched. -/
structure World (ν δ φ : Type*) where
  tree : Tree ν δ φ
  log : List (Spot ν)

/-- A call that came to something is put down. -/
def World.after (w : World ν δ φ) : Option (Spot ν × Tree ν δ φ) → World ν δ φ
  | none => w
  | some (s, t) => ⟨t, w.log ++ [s]⟩

/-- Whatever has been touched is of a kind. -/
def World.All (P : Spot ν → Prop) (w : World ν δ φ) : Prop := ∀ s ∈ w.log, P s

/-- Something under a directory, and not the directory itself. -/
def Below (cwd : Place ν) (s : Spot ν) : Prop := ∃ q, q ≠ [] ∧ s.place = cwd ++ q

/-! ## Paths that go straight -/

/-- There may be anything, but no link. -/
def NoLink (t : Tree ν δ φ) (p : Place ν) : Prop := ∀ target, t p ≠ some (.link target)

/-- From `cur` on a path meets no link; at the end there may be one, unless the call goes behind
it. -/
def Clear (t : Tree ν δ φ) (behind : Bool) : Place ν → List (Comp ν) → Prop
  | _, [] => True
  | cur, .here :: cs => Clear t behind cur cs
  | cur, .up :: cs => Clear t behind cur.dropLast cs
  | cur, .name n :: cs =>
    (cs = [] ∧ behind = false ∨ NoLink t (cur ++ [n])) ∧ Clear t behind (cur ++ [n]) cs

/-- It meets no link, and does not climb either. -/
def Straight (t : Tree ν δ φ) (behind : Bool) : Place ν → List (Comp ν) → Prop
  | _, [] => True
  | cur, .here :: cs => Straight t behind cur cs
  | _, .up :: _ => False
  | cur, .name n :: cs =>
    (cs = [] ∧ behind = false ∨ NoLink t (cur ++ [n])) ∧ Straight t behind (cur ++ [n]) cs

/-- The names that a path goes by. -/
def names : List (Comp ν) → List ν
  | [] => []
  | .name n :: cs => n :: names cs
  | .here :: cs | .up :: cs => names cs

variable {t t' : Tree ν δ φ} {behind : Bool} {cur : Place ν} {cs ds : List (Comp ν)} {s : Spot ν}
  {links : Nat}

@[simp] theorem names_append : names (cs ++ ds) = names cs ++ names ds := by
  induction cs with
  | nil => rfl
  | cons c cs ih => cases c <;> simp [names, ih]

theorem names_all (r : Route ν) : names r.all = names r.comps := by
  rw [Route.all, names_append]
  split <;> simp [names]

theorem Clear.straight (h : Clear t behind cur cs) (hup : .up ∉ cs) : Straight t behind cur cs := by
  induction cs generalizing cur with
  | nil => exact trivial
  | cons c cs ih =>
    have hrest : .up ∉ cs := fun hmem => hup (.tail _ hmem)
    cases c with
    | here => exact ih h hrest
    | up => exact absurd (.head _) hup
    | name n => exact ⟨h.1, ih h.2 hrest⟩

variable {go : Place ν → List (Comp ν) → Option (Spot ν)} {c : Comp ν} {n : ν} {old new : Route ν}

theorem seekWith_straight
    (h : Straight t behind cur cs) (hs : seekWith t behind go cur cs = some s) :
    s.direct = true ∧ s.place = cur ++ names cs ∧ (s.last.isSome → names cs ≠ []) := by
  induction cs generalizing cur with
  | nil =>
    obtain rfl := some.inj hs
    exact ⟨rfl, by simp [Spot.place, names], fun hlast => Bool.noConfusion hlast⟩
  | cons c cs ih =>
    cases c with
    | here => exact ih h hs
    | up => exact h.elim
    | name n =>
      have hend : cs = [] → s = ⟨cur, some n, true⟩ →
          s.direct = true ∧ s.place = cur ++ names (.name n :: cs) := by
        rintro rfl rfl
        exact ⟨rfl, by simp [Spot.place, names]⟩
      suffices s.direct = true ∧ s.place = cur ++ names (.name n :: cs) from
        ⟨this.1, this.2, fun _ => cons_ne_nil _ _⟩
      obtain ⟨hlink, hrest⟩ := h
      rw [seekWith] at hs
      split at hs
      · rename_i hlast
        exact hend hlast.1 (some.inj hs).symm
      · rename_i hlast
        replace hlink := hlink.resolve_left hlast
        split at hs
        · rename_i target htarget
          exact absurd htarget (hlink target)
        · split at hs
          · rename_i hnil
            exact hend hnil (some.inj hs).symm
          · obtain ⟨hdirect, hplace, -⟩ := ih hrest hs
            exact ⟨hdirect, by simpa [names] using hplace⟩
        all_goals
          split at hs
          · rename_i hnil
            exact hend hnil (some.inj hs).symm
          · cases hs

/-- A straight path comes to the place that its names spell. -/
theorem seek_straight (h : Straight t behind cur cs) (hs : seek t behind links cur cs = some s) :
    s.direct = true ∧ s.place = cur ++ names cs ∧ (s.last.isSome → names cs ≠ []) := by
  cases links <;> exact seekWith_straight h hs

/-- A call that wants a name in a directory comes to something under where it started. -/
theorem below_of_seek (h : Straight t behind cur cs) (hs : seek t behind links cur cs = some s)
    (hlast : s.last.isSome) : Below cur s := by
  obtain ⟨-, hplace, hne⟩ := seek_straight h hs
  exact ⟨names cs, hne hlast, hplace⟩

theorem World.all_after {P : Spot ν → Prop} {w : World ν δ φ} {o : Option (Spot ν × Tree ν δ φ)}
    (ho : ∀ s t, o = some (s, t) → P s) (h : w.All P) : (w.after o).All P := by
  cases o with
  | none => exact h
  | some r =>
    intro s hs
    rcases mem_append.1 hs with hs | hs
    · exact h s hs
    · obtain rfl := mem_singleton.1 hs
      exact ho r.1 r.2 rfl

/-! ## What keeps a path straight -/

theorem Straight.mono (h : Straight t behind cur cs) (hmono : ∀ p, NoLink t p → NoLink t' p) :
    Straight t' behind cur cs := by
  induction cs generalizing cur with
  | nil => exact trivial
  | cons c cs ih =>
    cases c with
    | here => exact ih h
    | up => exact h.elim
    | name n => exact ⟨h.1.imp_right (hmono _), ih h.2⟩

theorem Straight.not_behind (h : Straight t true cur cs) : Straight t behind cur cs := by
  induction cs generalizing cur with
  | nil => exact trivial
  | cons c cs ih =>
    cases c with
    | here => exact ih h
    | up => exact h.elim
    | name n => exact ⟨.inr (h.1.resolve_left fun h => Bool.noConfusion h.2), ih h.2⟩

/-- A slash at the end of a path leads through what is there. -/
theorem Straight.all {r : Route ν} (h : Straight t true cur r.comps) :
    Straight t true cur r.all := by
  rw [Route.all]
  split
  · generalize r.comps = cs at h
    induction cs generalizing cur with
    | nil => exact trivial
    | cons c cs ih =>
      cases c with
      | here => exact ih h
      | up => exact h.elim
      | name n => exact ⟨.inr (h.1.resolve_left fun h => Bool.noConfusion h.2), ih h.2⟩
  · rwa [append_nil]

theorem Straight.at_end (h : Straight t behind cur cs) : Straight t false cur cs := by
  cases behind with
  | false => exact h
  | true => exact h.not_behind

/-- What is in front of something is gone through, so it has no link at its end either. -/
theorem Straight.front (h : Straight t behind cur (cs ++ ds)) (hds : ds ≠ []) :
    Straight t true cur cs := by
  induction cs generalizing cur with
  | nil => exact trivial
  | cons c cs ih =>
    cases c with
    | here => exact ih h
    | up => exact h.elim
    | name n => exact ⟨.inr (h.1.resolve_left fun h => hds (append_eq_nil_iff.1 h.1).2), ih h.2⟩

theorem noLink_update [DecidableEq ν] {p q : Place ν} {o : Option (Node ν δ φ)}
    (ho : ∀ target, o ≠ some (.link target)) (h : NoLink t q) :
    NoLink (Function.update t p o) q := by
  intro target
  by_cases hq : q = p
  · rw [hq, Function.update_self]
    exact ho target
  · rw [Function.update_of_ne hq]
    exact h target

/-! ## Paths through directories -/

/-- From `cur` on a path leads to a place, and all that it goes by are directories. -/
def Leads (t : Tree ν δ φ) : Place ν → List (Comp ν) → Place ν → Prop
  | cur, [], e => cur = e
  | cur, .here :: cs, e => Leads t cur cs e
  | cur, .up :: cs, e => Leads t cur.dropLast cs e
  | cur, .name n :: cs, e => (∃ d, t (cur ++ [n]) = some (.dir d)) ∧ Leads t (cur ++ [n]) cs e

variable {e : Place ν}

theorem leads_append : Leads t cur (cs ++ ds) e ↔ ∃ m, Leads t cur cs m ∧ Leads t m ds e := by
  induction cs generalizing cur with
  | nil => simp [Leads]
  | cons c cs ih =>
    cases c with
    | here | up => simp [Leads, ih]
    | name n => simp [Leads, ih, and_assoc]

theorem Leads.congr (h : Leads t cur cs e)
    (hdir : ∀ p d, t p = some (.dir d) → t' p = some (.dir d)) : Leads t' cur cs e := by
  induction cs generalizing cur with
  | nil => exact h
  | cons c cs ih =>
    cases c with
    | here | up => exact ih h
    | name n =>
      obtain ⟨⟨d, hd⟩, hrest⟩ := h
      exact ⟨⟨d, hdir _ d hd⟩, ih hrest⟩

variable (behind links) in
/-- A path that leads somewhere is followed there, and no link is. -/
theorem Leads.seek (h : Leads t cur cs e) : ∃ s, seek t behind links cur cs = some s ∧
      (s.last = none ∨ ∃ d, t s.place = some (.dir d)) := by
  have hwith : ∀ go, ∃ s, seekWith t behind go cur cs = some s ∧
      (s.last = none ∨ ∃ d, t s.place = some (.dir d)) := by
    intro go
    induction cs generalizing cur with
    | nil => exact ⟨_, rfl, .inl rfl⟩
    | cons c cs ih =>
      cases c with
      | here | up => exact ih h
      | name n =>
        obtain ⟨⟨d, hd⟩, hrest⟩ := h
        by_cases hcs : cs = []
        · refine ⟨⟨cur, some n, true⟩, ?_, .inr ⟨d, hd⟩⟩
          simp [seekWith, hcs, hd]
        · obtain ⟨s, hs, hplace⟩ := ih hrest
          exact ⟨s, by simp [seekWith, hcs, hd, hs], hplace⟩
  cases links <;> exact hwith _

/-- What follows is followed from where the path leads. -/
theorem Leads.seek_append (h : Leads t cur cs e) (hds : ds ≠ []) :
    Links.seek t behind links cur (cs ++ ds) = Links.seek t behind links e ds := by
  have hwith : ∀ go, seekWith t behind go cur (cs ++ ds) = seekWith t behind go e ds := by
    intro go
    induction cs generalizing cur with
    | nil => rw [nil_append, show cur = e from h]
    | cons c cs ih =>
      cases c with
      | here | up => exact ih h
      | name n =>
        obtain ⟨⟨d, hd⟩, hrest⟩ := h
        have hne : cs ++ ds ≠ [] := fun heq => hds (append_eq_nil_iff.1 heq).2
        rw [cons_append, seekWith, if_neg fun hlast => hne hlast.1, hd, if_neg hne]
        exact ih hrest
  cases links <;> exact hwith _

/-! ## What the calls do -/

variable {cwd : Place ν} {r : Route ν}

/-- A path that ends in dots comes to a directory itself, so a call that wants a name in one is
refused. -/
theorem seekWith_no_name
    (hc : ∀ n, c ≠ .name n) (hgo : ∀ cur cs s, go cur (cs ++ [c]) = some s → s.last = none)
    (hs : seekWith t behind go cur (cs ++ [c]) = some s) : s.last = none := by
  induction cs generalizing cur with
  | nil =>
    cases c with
    | name n => exact absurd rfl (hc n)
    | here | up =>
      obtain rfl := some.inj hs
      rfl
  | cons d cs ih =>
    cases d with
    | here | up => exact ih hs
    | name n =>
      rw [cons_append, seekWith, if_neg (by simp)] at hs
      split at hs
      · rename_i target htarget
        obtain ⟨s', hs', heq⟩ := Option.map_eq_some_iff.1 hs
        obtain rfl := heq
        rw [← append_assoc] at hs'
        exact hgo _ _ s' hs'
      · rw [if_neg (by simp)] at hs
        exact ih hs
      all_goals
        rw [if_neg (by simp)] at hs
        cases hs

theorem seek_no_name (hc : ∀ n, c ≠ .name n)
    (hs : seek t behind links cur (cs ++ [c]) = some s) : s.last = none := by
  induction links generalizing cur cs s with
  | zero => exact seekWith_no_name hc (fun _ _ _ h => by cases h) hs
  | succ links ih => exact seekWith_no_name hc (fun _ _ _ h => ih h) hs

/-- Where a name in a directory is wanted, the path has no slash at its end. -/
theorem spot_last (hs : spot t behind cwd r = some s) (hlast : s.last.isSome) :
    seek t behind 40 (r.base cwd) r.comps = some s := by
  rw [spot, Route.all] at hs
  split at hs
  · rw [seek_no_name (fun _ h => by cases h) hs] at hlast
    cases hlast
  · rwa [append_nil] at hs

theorem slash_of_spot (hs : spot t behind cwd r = some s) (hlast : s.last.isSome) :
    r.slash = false := by
  cases hslash : r.slash with
  | false => rfl
  | true =>
    rw [spot, Route.all, hslash, if_pos rfl] at hs
    rw [seek_no_name (fun _ h => by cases h) hs] at hlast
    cases hlast

/-- A name that is asked for by itself. -/
theorem seek_name (hlink : behind = true → NoLink t (e ++ [n])) :
    Links.seek t behind links e [.name n] = some ⟨e, some n, true⟩ := by
  have hwith : ∀ go, seekWith t behind go e [.name n] = some ⟨e, some n, true⟩ := by
    intro go
    cases behind with
    | false => simp [seekWith]
    | true =>
      rw [seekWith, if_neg (by simp)]
      split
      · rename_i target htarget
        exact absurd htarget (hlink rfl target)
      all_goals exact if_pos rfl
  cases links <;> exact hwith _

/-- One more piece behind a path that leads somewhere: a name there, or a directory in any case. -/
theorem Leads.seek_last (h : Leads t cur cs e) {c : Option (Comp ν)}
    (hlink : behind = true → ∀ n, c = some (.name n) → NoLink t (e ++ [n]))
    (hs : Links.seek t behind links cur (cs ++ c.toList) = some s) (hlast : s.last.isSome) :
    (∃ n, c = some (.name n) ∧ s = ⟨e, some n, true⟩) ∨ ∃ d, t s.place = some (.dir d) := by
  cases c with
  | none =>
    obtain ⟨s', hs', hplace⟩ := h.seek behind links
    rw [Option.toList_none, append_nil, hs'] at hs
    obtain rfl := some.inj hs
    exact .inr (hplace.resolve_left fun hnone => by simp [hnone] at hlast)
  | some c =>
    rw [Option.toList_some] at hs
    cases c with
    | here | up =>
      rw [seek_no_name (fun _ h => by cases h) hs] at hlast
      cases hlast
    | name n =>
      rw [h.seek_append (cons_ne_nil _ _), seek_name fun hb => hlink hb n rfl] at hs
      exact .inl ⟨n, rfl, (some.inj hs).symm⟩

/-- A path without links but at its end, which leads somewhere behind what is there, comes to it. -/
theorem seek_end (h : Straight t false cur (cs ++ [Comp.name n]))
    (hs : Links.seek t true links cur (cs ++ [Comp.name n]) = some s) :
    ∃ s', Links.seek t false links cur (cs ++ [Comp.name n]) = some s' ∧ s'.last.isSome := by
  have hwith : ∀ go go', seekWith t true go cur (cs ++ [Comp.name n]) = some s →
      ∃ s', seekWith t false go' cur (cs ++ [Comp.name n]) = some s' ∧ s'.last.isSome := by
    intro go go' hw
    clear hs
    induction cs generalizing cur with
    | nil => exact ⟨⟨cur, some n, true⟩, by simp [seekWith], rfl⟩
    | cons c cs ih =>
      cases c with
      | here => exact ih h hw
      | up => exact h.elim
      | name m =>
        rw [cons_append, seekWith, if_neg (by simp)] at hw ⊢
        obtain ⟨hlink, hrest⟩ := h
        split at hw
        · rename_i target htarget
          exact absurd htarget (hlink.resolve_left (by simp) target)
        · rw [if_neg (by simp)] at hw ⊢
          exact ih hrest hw
        all_goals
          rw [if_neg (by simp)] at hw
          cases hw
  cases links <;> exact hwith _ _ hs

/-- Straight by what is at each place on the way. -/
theorem straight_concat (hup : .up ∉ cs)
    (hlink : ∀ q, q ≠ [] → q <+: names cs → NoLink t (cur ++ q))
    (hend : behind = true → NoLink t (cur ++ names cs ++ [n])) :
    Straight t behind cur (cs ++ [Comp.name n]) := by
  induction cs generalizing cur with
  | nil =>
    refine ⟨?_, trivial⟩
    cases behind with
    | false => exact .inl ⟨rfl, rfl⟩
    | true => exact .inr (by simpa [names] using hend rfl)
  | cons c cs ih =>
    have hrest : .up ∉ cs := fun hmem => hup (.tail _ hmem)
    cases c with
    | here => exact ih hrest hlink hend
    | up => exact absurd (.head _) hup
    | name m =>
      refine ⟨.inr (hlink [m] (cons_ne_nil _ _) ⟨names cs, rfl⟩), ih hrest ?_ ?_⟩
      · intro q _ hq
        have := hlink (m :: q) (cons_ne_nil _ _) (cons_prefix_cons.2 ⟨rfl, hq⟩)
        rwa [append_assoc]
      · intro hb
        simpa [names] using hend hb

section Calls

variable [DecidableEq ν]

theorem make_eq {node : Node ν δ φ} {o : Option (Spot ν)} (h : make t node o = some (s, t')) :
    o = some s ∧ s.last.isSome ∧ t s.place = none ∧ t' = Function.update t s.place (some node) := by
  obtain ⟨s', ho, h⟩ := bind_eq_some_iff.1 h
  split at h
  · rename_i hmade
    obtain ⟨rfl, rfl⟩ := Prod.mk.inj (some.inj h)
    exact ⟨ho, hmade.1, Option.isNone_iff_eq_none.1 hmade.2, rfl⟩
  · cases h

theorem link_eq (h : link t cwd old new = some (s, t')) :
    ∃ o node, spot t false cwd old = some o ∧ o.last.isSome ∧ t o.place = some node ∧
      (∀ d, node ≠ .dir d) ∧ make t node (spot t false cwd new) = some (s, t') := by
  obtain ⟨o, ho, h⟩ := bind_eq_some_iff.1 h
  split at h
  · cases h
  · cases h
  · rename_i node hdir hnode
    split at h
    · rename_i hlast
      exact ⟨o, node, ho, hlast, hnode, hdir, h⟩
    · cases h

/-- A link is not followed when a hard link is made to it. -/
theorem link_ne_none {o : Spot ν} {target : Route ν}
    (hold : spot t false cwd old = some o) (holast : o.last.isSome)
    (hlink : t o.place = some (.link target)) (hnew : spot t false cwd new = some s)
    (hlast : s.last.isSome) (hnone : t s.place = none) : link t cwd old new ≠ none := by
  rw [link, hold, bind_some, hlink]
  dsimp only
  rw [if_pos holast, hnew, make, bind_some, if_pos ⟨hlast, by rw [hnone]; rfl⟩]
  exact Option.some_ne_none _

theorem unlink_eq (h : unlink t cwd r = some (s, t')) :
    seek t false 40 (r.base cwd) r.comps = some s ∧ s.last.isSome ∧
      (∀ d, t s.place ≠ some (.dir d)) ∧ t' = Function.update t s.place none := by
  obtain ⟨s', hs, h⟩ := bind_eq_some_iff.1 h
  split at h
  · cases h
  · cases h
  all_goals
    rename_i hnode
    split at h
    · rename_i hlast
      obtain ⟨rfl, rfl⟩ := Prod.mk.inj (some.inj h)
      refine ⟨spot_last hs hlast, hlast, fun d hd => ?_, rfl⟩
      rw [hnode] at hd
      cases hd
    · cases h

/-- The file that was opened was there, or it is new. -/
theorem create_eq {made f : φ} (h : create t behind cwd r made = some (s, f, t')) :
    seek t behind 40 (r.base cwd) r.comps = some s ∧ s.last.isSome ∧
      (t s.place = some (.file f) ∧ t' = t ∨
        t s.place = none ∧ f = made ∧ t' = Function.update t s.place (some (.file made))) := by
  obtain ⟨s', hs, h⟩ := bind_eq_some_iff.1 h
  split at h
  · rename_i hlast
    split at h
    · rename_i f' hfile
      obtain ⟨rfl, heq⟩ := Prod.mk.inj (some.inj h)
      obtain ⟨rfl, rfl⟩ := Prod.mk.inj heq
      exact ⟨spot_last hs hlast, hlast, .inl ⟨hfile, rfl⟩⟩
    · rename_i hnone
      obtain ⟨rfl, heq⟩ := Prod.mk.inj (some.inj h)
      obtain ⟨rfl, rfl⟩ := Prod.mk.inj heq
      exact ⟨spot_last hs hlast, hlast, .inr ⟨hnone, rfl, rfl⟩⟩
    · cases h
    · cases h
  · cases h

theorem change_eq {f : Node ν δ φ → Node ν δ φ} (h : change t cwd r f = some (s, t')) :
    spot t true cwd r = some s := by
  obtain ⟨s', hs, h⟩ := bind_eq_some_iff.1 h
  split at h
  · obtain ⟨rfl, -⟩ := Prod.mk.inj (some.inj h)
    exact hs
  · split at h
    · cases h
    · obtain ⟨rfl, -⟩ := Prod.mk.inj (some.inj h)
      exact hs

end Calls

end Verkos.Lib.Links
