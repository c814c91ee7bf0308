import Verkos.Stam.FatRead

/-!
# Walking a directory

The three loops over a directory go through the same entries in the same order and stop where their
body says. `walkSlots` is that walk over the entries of a chain as a list; `dirWalk` does it, and when
a sector cannot be read it at least stops nowhere else.
-/

namespace Verkos.Stam.Fat

open Verkos.Lib

/-- A walk that has seen everything, or has stopped. -/
def Step.walk {σ α : Type} : Step σ α → Walk σ α
  | .next st => .ended st
  | .stop a => .stopped a

/-- The answer of a walk for a name. -/
def found {σ α : Type} : Walk σ (Option α) → Option α
  | .stopped r => r
  | _ => none

/-- An entry of a directory: where it is, and the sector it is in. -/
abbrev Slot := Spot × Sector

def Slot.entry (x : Slot) : Sector := entryAt x.2 x.1.off

/-- The entries of a sector of a cluster. -/
def sectorSlots (g : Geo) (v : Volume) (c s : Nat) : List Slot :=
  offsets.map fun o => (⟨c, clusSector g c + s, o⟩, v (clusSector g c + s))

def clusterSlots (g : Geo) (v : Volume) (c : Nat) : List Slot :=
  (List.range g.secPerClus).flatMap (sectorSlots g v c)

/-- The entries of a chain, in order. -/
def slots (g : Geo) (v : Volume) (cs : List Nat) : List Slot := cs.flatMap (clusterSlots g v)

/-- The live entries of a directory, up to its end. -/
def liveSlots : List Slot → List Slot
  | [] => []
  | x :: xs =>
    match classify x.entry with
    | .fin => []
    | .live => x :: liveSlots xs
    | _ => liveSlots xs

section Walking

variable {σ α : Type} (body : σ → Spot → Sector → Step σ α)

def walkSlots : List Slot → σ → Step σ α
  | [], st => .next st
  | x :: xs, st =>
    match body st x.1 x.2 with
    | .next st => walkSlots xs st
    | .stop a => .stop a

variable {body} {g : Geo} {v : Volume} {cs : List Nat} {c k fuel : Nat} {st : σ}

/-- What has stopped has stopped, and else the walk goes on. -/
theorem walkSlots_append (xs ys : List Slot) (st : σ) : walkSlots body (xs ++ ys) st =
    match walkSlots body xs st with
    | .next st => walkSlots body ys st
    | .stop a => .stop a := by
  induction xs generalizing st with
  | nil => rfl
  | cons x xs ih =>
    rw [List.cons_append, walkSlots, walkSlots]
    cases body st x.1 x.2 with
    | next st => exact ih st
    | stop a => rfl

theorem walkSector_eq (c sec : Nat) (b : Sector) (os : List Nat) (st : σ) :
    walkSector body c sec b os st = walkSlots body (os.map fun o => (⟨c, sec, o⟩, b)) st := by
  induction os generalizing st with
  | nil => rfl
  | cons o os ih =>
    rw [walkSector, List.map_cons, walkSlots]
    cases body st ⟨c, sec, o⟩ b with
    | next st => exact ih st
    | stop a => rfl

theorem run_walkCluster (c : Nat) (ss : List Nat) (st : σ) : (walkCluster g body c ss st).run v =
      some ((walkSlots body (ss.flatMap (sectorSlots g v c)) st).walk, v) := by
  induction ss generalizing st with
  | nil => rfl
  | cons s ss ih =>
    rw [walkCluster, Blocks.run_reading, List.flatMap_cons, walkSlots_append, walkSector_eq]
    change Blocks.run (match walkSlots body (sectorSlots g v c s) st with
      | .next st => walkCluster g body c ss st
      | .stop a => .done (.stopped a)) v = _
    cases walkSlots body (sectorSlots g v c s) st with
    | next st => exact ih st
    | stop a => rfl

/-- The walk of a chain, from one of its clusters on. -/
theorem Chain.run_dirWalk_from (h : Chain g v cs) {fuel k : Nat} {st : σ}
    (hf : cs.length - k < fuel) : (dirWalk g body fuel (cs.getD k 0) st).run v =
      some ((walkSlots body (slots g v (cs.drop k)) st).walk, v) := by
  induction fuel generalizing k st with
  | zero => exact absurd hf (Nat.not_lt_zero _)
  | succ fuel ih =>
    rw [dirWalk]
    split
    · rename_i hz
      rw [List.drop_eq_nil_of_le (h.getD_zero.1 hz)]
      rfl
    · rename_i hnz
      have hk : k < cs.length := by
        by_contra hle
        exact hnz (h.getD_zero.2 (by omega))
      rw [Blocks.run_bind_of (run_walkCluster _ _ _), List.drop_eq_getElem_cons hk, slots,
        List.flatMap_cons, walkSlots_append, ← List.getD_eq_getElem _ 0 hk]
      rw [show List.flatMap (sectorSlots g v (cs.getD k 0)) (List.range g.secPerClus) =
        clusterSlots g v (cs.getD k 0) from rfl]
      cases walkSlots body (clusterSlots g v (cs.getD k 0)) st with
      | next st =>
        rw [Step.walk]
        dsimp only
        rw [Blocks.run_bind_of (h.run_next hnz), ih (by omega)]
        rfl
      | stop a => rfl

theorem Chain.run_dirWalk (h : Chain g v cs) (hf : cs.length < fuel) (st : σ) :
    (dirWalk g body fuel (cs.getD 0 0) st).run v =
      some ((walkSlots body (slots g v cs) st).walk, v) := by
  have hrun : (dirWalk g body fuel (cs.getD 0 0) st).run v =
      some ((walkSlots body (slots g v (cs.drop 0)) st).walk, v) := h.run_dirWalk_from (by omega)
  rwa [List.drop_zero] at hrun

end Walking

end Verkos.Stam.Fat
