import Verkos.Stam.FatWalk

/-!
# Calls to the file system

Every call of `fat.c` on a mounted volume, as one type, for what is said of runs of them. What a call
returns is what the single theorems speak of; over a run only the volume goes on.
-/

namespace Verkos.Stam.Fat

open Verkos.Lib

inductive FatCall where
  | opens (path : List UInt8)
  | reads (f : Handle) (off len : Nat)
  | dirent (dir : Handle) (index : Nat)
  | create (path : List UInt8)
  | mkdir (path : List UInt8)
  | unlink (path : List UInt8)
  | writes (f : Handle) (off : Nat) (buf : List UInt8)
  | truncate (f : Handle)
  | sync

/-- A call and what was on its stack. -/
abbrev Issued := FatCall × (Nat → UInt8)

/-- The call, its results left out. -/
def FatCall.io (g : Geo) (fuel : Nat) (junk : Nat → UInt8) : FatCall → Io Unit
  | .opens path => fatOpen g fuel junk path >>= fun _ => pure ()
  | .reads f off len => fatRead g f off len >>= fun _ => pure ()
  | .dirent dir index => fatDirent g fuel junk dir index >>= fun _ => pure ()
  | .create path => fatCreate g fuel junk path >>= fun _ => pure ()
  | .mkdir path => fatMkdir g fuel junk path >>= fun _ => pure ()
  | .unlink path => fatUnlink g fuel junk path >>= fun _ => pure ()
  | .writes f off buf => fatWrite g f off buf >>= fun _ => pure ()
  | .truncate f => fatTruncate g fuel f >>= fun _ => pure ()
  | .sync => fatSync g

/-- The volume behind a call, no transfer failing. -/
def fatStep (g : Geo) (fuel : Nat) (v : Volume) (c : Issued) : Option Volume :=
  ((c.1.io g fuel c.2).run v).map fun r => r.2

section Reading

variable {g : Geo} {fuel : Nat} {junk : Nat → UInt8} {v v' : Volume} {α σ : Type} {x : Io α}
  {body : σ → Spot → Sector → Step σ α}

theorem run_dropped (h : ((x >>= fun _ => pure () : Io Unit).run v).map (fun r => r.2) = some v') :
    ∃ a, x.run v = some (a, v') := by
  obtain ⟨r, hr, rfl⟩ := Option.map_eq_some_iff.1 h
  obtain ⟨⟨a, v1⟩, hx, hrest⟩ := Option.bind_eq_some_iff.1 (Blocks.run_bind.symm.trans hr)
  obtain rfl : ((), v1) = r := Option.some.inj hrest
  exact ⟨a, hx⟩

theorem reads_fatNext (c : Nat) : (fatNext g c).Reads := by
  unfold fatNext
  split
  · exact trivial
  · exact .reading fun _ => trivial

theorem reads_walkCluster (c : Nat) : ∀ (ss : List Nat) (st : σ), (walkCluster g body c ss st).Reads
  | [], _ => trivial
  | s :: ss, st => by
    rw [walkCluster]
    refine .reading fun b => ?_
    split
    · exact reads_walkCluster c ss _
    · exact trivial

theorem reads_dirWalk : ∀ (n c : Nat) (st : σ), (dirWalk g body n c st).Reads
  | 0, _, _ => trivial
  | n + 1, c, st => by
    rw [dirWalk]
    split
    · exact trivial
    · refine .bind (reads_walkCluster c _ st) fun r => ?_
      split
      · exact .bind (reads_fatNext c) fun c' => reads_dirWalk n c' _
      · exact trivial

theorem reads_openFrom : ∀ (parts : List (List UInt8)) (cur : Handle),
    (openFrom g fuel junk parts cur).Reads
  | [], _ => trivial
  | part :: parts, cur => by
    rw [openFrom]
    split
    · exact trivial
    · refine .bind (.bind (reads_dirWalk ..) fun r => ?_) fun r => ?_
      · split <;> exact trivial
      · split
        · exact trivial
        · exact reads_openFrom parts _

theorem reads_skipClus : ∀ n c : Nat, (skipClus g n c).Reads
  | 0, _ => trivial
  | n + 1, c => by
    rw [skipClus]
    split
    · exact trivial
    · exact .bind (reads_fatNext c) fun c' => reads_skipClus n c'

theorem reads_readLoop : ∀ (n c within rest : Nat) (got : List UInt8),
    (readLoop g n c within rest got).Reads
  | 0, _, _, _, _ => trivial
  | n + 1, c, within, rest, got => by
    rw [readLoop]
    split
    · exact trivial
    · refine .reading fun b => ?_
      dsimp only
      split
      · exact .bind (reads_fatNext c) fun c' => reads_readLoop n c' ..
      · exact reads_readLoop n ..

theorem reads_fatRead (f : Handle) (off len : Nat) : (fatRead g f off len).Reads := by
  unfold fatRead
  split
  · exact trivial
  · split
    · exact trivial
    · exact .bind (reads_skipClus ..) fun c => reads_readLoop ..

theorem reads_fatDirent (dir : Handle) (index : Nat) : (fatDirent g fuel junk dir index).Reads := by
  unfold fatDirent
  split
  · exact trivial
  · refine .bind (reads_dirWalk ..) fun r => ?_
    split <;> exact trivial

end Reading

end Verkos.Stam.Fat
