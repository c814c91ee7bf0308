import Mathlib.Data.Finset.Card
import Verkos.Lib.Postorder
import Verkos.Vpk.Install

/-!
# Recipes and the order of installing

A recipe is a text with `key=value` lines. `resolve` goes through what a package depends on before
the package itself, with the names it has seen and the order in tables of `MAXQ` names; a name that
does not fit into 64 bytes is cut where it is stored.
-/

namespace Verkos.Vpk

open Lib
open Vlogin (Text fgetsAll snprintf)
open List

attribute [local instance] Vlogin.Text.lawful

/-! ## A recipe -/

/-- `recipe_t`. -/
structure RecipeText where
  name : Text
  version : Text
  source : Text
  sha256 : Text
  depends : Text
  build : Text

/-- The value after `=`, without the end of the line and one pair of quotes. -/
def trimmed (v : Text) : Text :=
  let v := v.rdropWhile fun c => c = '\n' ∨ c = '\r'
  if 2 ≤ v.length ∧ (v.head? = some '"' ∧ v.getLast? = some '"' ∨
      v.head? = some '\'' ∧ v.getLast? = some '\'') then v.tail.dropLast else v

def RecipeText.set (r : RecipeText) (k v : Text) : RecipeText :=
  if k = "name".toList then { r with name := snprintf 64 v }
  else if k = "version".toList then { r with version := snprintf 64 v }
  else if k = "source".toList then { r with source := snprintf 1024 v }
  else if k = "sha256".toList then { r with sha256 := snprintf 65 v }
  else if k = "depends".toList then { r with depends := snprintf 1024 v }
  else r

/-- One line, inside `build()` or not. -/
def RecipeText.line (s : RecipeText × Bool) (line : Text) : RecipeText × Bool :=
  let (r, inbuild) := s
  if inbuild then
    if line.head? = some '}' then (r, false)
    else if r.build.length + line.length < 8192 then ({ r with build := r.build ++ line }, true)
    else (r, true)
  else if "build()".toList <:+: line then (r, true)
  else
    match line.splitOn '=' with
    | k :: _ :: _ => (r.set k (trimmed (line.drop (k.length + 1))), false)
    | _ => (r, false)

/-- `recipe_load`: `text` is what is found at the path of a recipe, fetched from the repository where
it is not there yet. -/
def recipeLoad (text : Text → Option Text) (name : Text) : Option RecipeText :=
  if badName name then none
  else (text name).map fun t =>
    ((fgetsAll 4096 [] t).foldl RecipeText.line (⟨snprintf 64 name, [], [], [], [], []⟩, false)).1

/-! ## The order -/

def MAXQ : Nat := 256

/-- What `die` says. `stuck` is a recursion that is deeper than was allowed for. -/
inductive Die
  | graphTooLarge
  | noRecipe (name : Text)
  | tooManyPackages
  | stuck
  deriving DecidableEq

/-- The loop of `strtok_r`: what is between spaces. -/
def tokens (t : Text) : List Text := (t.splitOn ' ').filter (· ≠ [])

open Postorder (Marks)

/-- `resolve`, with the tables `seen` and `order`; `depth` bounds the recursion. -/
def resolve (text : Text → Option Text) : Nat → Text → Marks Text → Except Die (Marks Text)
  | 0, _, _ => .error .stuck
  | depth + 1, name, s =>
    if name ∈ s.seen then .ok s
    else if MAXQ ≤ s.seen.length then .error .graphTooLarge
    else
      let s := { s with seen := s.seen ++ [snprintf 64 name] }
      match recipeLoad text name with
      | none => .error (.noRecipe name)
      | some r =>
        match (tokens (snprintf 1024 r.depends)).foldlM
            (fun s tok => resolve text depth tok s) s with
        | .error e => .error e
        | .ok s =>
          if MAXQ ≤ s.order.length then .error .tooManyPackages
          else .ok { s with order := s.order ++ [snprintf 64 name] }

/-- The first loop of `cmd_install`. A call adds a name to `seen`, so it is at most `MAXQ` calls
deep before it ends. -/
def resolveAll (text : Text → Option Text) (argv : List Text) : Except Die (List Text) :=
  (argv.foldlM (fun s name => resolve text (MAXQ + 1) name s) ⟨[], []⟩).map Marks.order

/-! ## What fits the fields -/

variable {text : Text → Option Text} {name : Text} {r : RecipeText}

theorem length_snprintf {n : Nat} (hn : 0 < n) (t : Text) : (snprintf n t).length < n := by
  rw [snprintf, length_take]
  omega

theorem snprintf_of_lt {n : Nat} {t : Text} (h : t.length < n) : snprintf n t = t :=
  take_of_length_le (by omega)

theorem length_set_depends {k v : Text} (h : r.depends.length < 1024) :
    (r.set k v).depends.length < 1024 := by
  unfold RecipeText.set
  split_ifs
  all_goals first | exact h | exact length_snprintf (by decide) v

theorem length_line_depends {b : Bool} {line : Text} (h : r.depends.length < 1024) :
    (RecipeText.line (r, b) line).1.depends.length < 1024 := by
  unfold RecipeText.line
  dsimp only
  split_ifs
  · exact h
  · exact h
  · exact h
  · exact h
  · split
    · exact length_set_depends h
    · exact h

theorem recipeLoad_depends (h : recipeLoad text name = some r) : r.depends.length < 1024 := by
  rw [recipeLoad] at h
  split_ifs at h
  obtain ⟨t, -, rfl⟩ := Option.map_eq_some_iff.1 h
  have hall : ∀ (lines : List Text) (s : RecipeText × Bool), s.1.depends.length < 1024 →
      (lines.foldl RecipeText.line s).1.depends.length < 1024 := by
    intro lines
    induction lines with
    | nil => exact fun s hs => hs
    | cons line lines ih => exact fun s hs => ih _ (length_line_depends hs)
  exact hall _ _ (Nat.zero_lt_succ _)

/-! ## The search -/

/-- What the recipe of a package lists. -/
def dependsOn (text : Text → Option Text) (name : Text) : List Text :=
  match recipeLoad text name with
  | some r => tokens r.depends
  | none => []

/-- A set of packages with their recipes, and nothing missing. -/
structure Packages (text : Text → Option Text) (pkgs : Finset Text) : Prop where
  load : ∀ p ∈ pkgs, (recipeLoad text p).isSome
  fits : ∀ p ∈ pkgs, p.length < 64
  closed : ∀ p ∈ pkgs, ∀ q ∈ dependsOn text p, q ∈ pkgs
  few : pkgs.card ≤ MAXQ

/-- The tables hold only packages, and no more in the order than have been seen. -/
structure Tables (pkgs : Finset Text) (s : Marks Text) : Prop where
  subset : ∀ p ∈ s.seen, p ∈ pkgs
  nodup : s.seen.Nodup
  le : s.order.length ≤ s.seen.length

open Postorder (Visit Reach Below Sorted)

variable {pkgs : Finset Text} {s s' : Marks Text} {l : List Text}

theorem Tables.card_le (ht : Tables pkgs s) : s.seen.length ≤ pkgs.card := by
  rw [← toFinset_card_of_nodup ht.nodup]
  exact Finset.card_le_card fun p hp => ht.subset p (mem_toFinset.1 hp)

theorem Tables.visit (hp : Packages text pkgs) (ht : Tables pkgs s) (hl : ∀ p ∈ l, p ∈ pkgs)
    (h : Visit (dependsOn text) l s s') : Tables pkgs s' where
  subset := h.seen_subset hp.closed hl ht.subset
  nodup := h.seen_nodup ht.nodup
  le := by
    obtain ⟨new, post, hseen, horder, hperm⟩ := h.grows
    have hle := ht.le
    rw [hseen, horder, length_append, length_append, hperm.length_eq]
    omega

/-- A loop over names, each of which is searched. -/
theorem foldlM_visit (hp : Packages text pkgs) {depth : Nat}
    (hstep : ∀ name s, name ∈ pkgs → Tables pkgs s → MAXQ < depth + s.seen.length →
      ∃ s', resolve text depth name s = .ok s' ∧ Visit (dependsOn text) [name] s s')
    (hl : ∀ p ∈ l, p ∈ pkgs) (ht : Tables pkgs s) (hdepth : MAXQ < depth + s.seen.length) :
    ∃ s', l.foldlM (fun s tok => resolve text depth tok s) s = .ok s' ∧
      Visit (dependsOn text) l s s' := by
  induction l generalizing s with
  | nil => exact ⟨s, rfl, .nil s⟩
  | cons a l ih =>
    have ha := hl a mem_cons_self
    obtain ⟨t, hrun, hvisit⟩ := hstep a s ha ht hdepth
    have hone : ∀ p ∈ [a], p ∈ pkgs := fun p hp => by rwa [mem_singleton.1 hp]
    have hmore : s.seen.length ≤ t.seen.length := by
      obtain ⟨new, post, hseen, -, -⟩ := hvisit.grows
      rw [hseen, length_append]
      omega
    obtain ⟨s', hrest, hvisit'⟩ := ih (fun p hp => hl p (mem_cons_of_mem _ hp))
      (ht.visit hp hone hvisit) (by omega)
    exact ⟨s', by rw [foldlM_cons, hrun]; exact hrest, hvisit.trans hvisit'⟩

theorem resolve_visit (hp : Packages text pkgs) (depth : Nat) (name : Text) (s : Marks Text)
    (hname : name ∈ pkgs) (ht : Tables pkgs s) (hdepth : MAXQ < depth + s.seen.length) :
    ∃ s', resolve text depth name s = .ok s' ∧ Visit (dependsOn text) [name] s s' := by
  induction depth generalizing name s with
  | zero =>
    have hcard := ht.card_le
    have hfew := hp.few
    omega
  | succ depth ih =>
    have hcut : snprintf 64 name = name := snprintf_of_lt (hp.fits name hname)
    rw [resolve, hcut]
    by_cases hseen : name ∈ s.seen
    · exact ⟨s, if_pos hseen, .seen hseen (.nil s)⟩
    · have hmark : Tables pkgs ⟨s.seen ++ [name], s.order⟩ :=
        { subset := fun p hp => by
            rcases mem_append.1 hp with hp | hp
            · exact ht.subset p hp
            · rwa [mem_singleton.1 hp]
          nodup := (perm_append_singleton name s.seen).nodup_iff.2
            (nodup_cons.2 ⟨hseen, ht.nodup⟩)
          le := by
            have hle := ht.le
            change s.order.length ≤ (s.seen ++ [name]).length
            rw [length_append]
            omega }
      have hroom : ¬ MAXQ ≤ s.seen.length := by
        have hcard := hmark.card_le
        have hfew := hp.few
        rw [length_append, length_singleton] at hcard
        omega
      obtain ⟨r, hr⟩ := Option.isSome_iff_exists.1 (hp.load name hname)
      have hdeps : tokens (snprintf 1024 r.depends) = dependsOn text name := by
        rw [snprintf_of_lt (recipeLoad_depends hr), dependsOn, hr]
      have hmore : MAXQ < depth + (s.seen ++ [name]).length := by
        rw [length_append, length_singleton]
        omega
      obtain ⟨t, hrun, hvisit⟩ := foldlM_visit hp ih (hp.closed name hname) hmark hmore
      -- The name itself is seen but not yet in the order.
      have hroom' : ¬ MAXQ ≤ t.order.length := by
        have hcard := (hmark.visit hp (hp.closed name hname) hvisit).card_le
        have hfew := hp.few
        have hle := ht.le
        obtain ⟨new, post, hnew, hpost, hperm⟩ := hvisit.grows
        rw [hnew, length_append, length_append, length_singleton] at hcard
        rw [hpost, length_append, hperm.length_eq]
        dsimp only
        omega
      refine ⟨⟨t.seen, t.order ++ [name]⟩, ?_, .new hseen hvisit (.nil _)⟩
      rw [if_neg hseen, if_neg hroom, hr]
      dsimp only
      rw [hdeps, hrun]
      exact if_neg hroom'

/-- The order that is installed in. -/
theorem resolveAll_sorted (text : Text → Option Text) (pkgs : Finset Text) (argv : List Text)
    (hp : Packages text pkgs) (hargv : ∀ a ∈ argv, a ∈ pkgs) :
    ∃ order, resolveAll text argv = .ok order ∧ order.Nodup ∧
      (∀ x, x ∈ order ↔ ∃ a ∈ argv, Reach (dependsOn text) a x) ∧
      ((∀ p ∈ pkgs, ¬ Below (dependsOn text) p p) → Sorted (dependsOn text) order) := by
  have hempty : Tables pkgs ⟨[], []⟩ :=
    ⟨fun p hp => absurd hp not_mem_nil, nodup_nil, le_rfl⟩
  obtain ⟨s, hrun, hvisit⟩ := foldlM_visit hp (resolve_visit hp (MAXQ + 1)) hargv hempty
    (Nat.lt_succ_self MAXQ)
  refine ⟨s.order, ?_, hvisit.nodup, hvisit.mem_order, fun hacyclic => ?_⟩
  · rw [resolveAll, hrun]
    rfl
  · exact hvisit.sorted fun x hx =>
      hacyclic x ((hempty.visit hp hargv hvisit).subset x hx)

/-- `a` needs `b` and `c`, and `b` needs `c`. -/
def threeRecipes (name : Text) : Option Text :=
  if name = "a".toList then some "depends=\"b c\"\n".toList
  else if name = "b".toList then some "version=1\ndepends=c\n".toList
  else if name = "c".toList then some [] else none

theorem resolveAll_sorted_three :
    ∃ order, resolveAll threeRecipes ["a".toList] = .ok order ∧ order.Nodup ∧
      (∀ x, x ∈ order ↔ ∃ a ∈ ["a".toList], Reach (dependsOn threeRecipes) a x) ∧
      ((∀ p ∈ ({"a".toList, "b".toList, "c".toList} : Finset Text),
        ¬ Below (dependsOn threeRecipes) p p) → Sorted (dependsOn threeRecipes) order) :=
  resolveAll_sorted threeRecipes {"a".toList, "b".toList, "c".toList} ["a".toList]
    ⟨by decide, by decide, by decide, by decide⟩ (by decide)

example : (resolveAll threeRecipes ["a".toList]).toOption =
    some ["c".toList, "b".toList, "a".toList] := by decide

end Verkos.Vpk
