import Verkos.Vtar.Turn

/-!
# What is asked for

`do_extract` reads an entry and then makes it. The reading does not look at the files: `readOne` is
that part of a turn, and `requests` is all that an archive asks for. What `do_extract` leaves is
these requests carried out one after the other.
-/

namespace Verkos.Vtar

/-- What an entry asks for: a directory, or a file and what is in it. -/
structure Request where
  dir : Bool
  name : Str
  mode : Nat
  mtime : Nat
  data : List UInt8
deriving DecidableEq

def Request.perform (env : Env) (now : Time) (fs : Fs) (r : Request) : Fs :=
  if r.dir then extractDir env now fs r.name r.mode
  else extractFile env now fs r.name r.mode r.mtime r.data

/-- What a turn reads. -/
inductive Read
  | done
  | bad (e : Bad)
  | skipped (inn : List UInt8) (pending : Str)
  | entry (r : Request) (inn : List UInt8)
deriving DecidableEq

/-- The reading of a turn. -/
def readOne (first : Bool) (inn : List UInt8) (pending : Str) : Read :=
  let h := inn.take 512
  if h = [] then .done
  else if h.length ≠ 512 then .bad (.trailing h.length)
  else if h.all (· = 0) then .done
  else if !headerOk h then .bad (if first then .notTar else .corrupt)
  else
    let inn := inn.drop 512
    let type := h.getD 156 0
    let esize := fromOctal (field h 124 12) 0
    if type = 120 ∨ type = 103 then
      let records := inn.take (min esize 8191)
      .skipped (skipExtended esize inn) (paxLoop records records.length 0 pending)
    else if type = 76 ∨ type = 75 then
      .skipped (skipExtended esize inn)
        (if type = 76 then cstr (inn.take (min esize 4095)) else pending)
    else
      let name := entryName h pending
      let mode := fromOctal (field h 100 8) 0
      let mtime := fromOctal (field h 136 12) 0
      if type = dirType ∨ name.getLast? = some slash then .entry ⟨true, name, mode, mtime, []⟩ inn
      else
        let (data, inn) := copyOut (blocks esize) esize inn
        .entry ⟨false, name, mode, mtime, data⟩ inn

/-- What is asked for, each with the number of headers up to its own, and how it ends. -/
def requests : Nat → Nat → Bool → List UInt8 → Str → Option (List (Nat × Request) × Option Bad)
  | 0, _, _, _, _ => none
  | fuel + 1, count, first, inn, pending =>
    match readOne first inn pending with
    | .done => some ([], none)
    | .bad e => some ([], some e)
    | .skipped inn pending => requests fuel (count + 1) false inn pending
    | .entry r inn =>
      (requests fuel (count + 1) false inn []).map fun p => ((count + 1, r) :: p.1, p.2)

/-- What an archive asks for. -/
def archiveRequests (archive : List UInt8) : Option (List (Nat × Request) × Option Bad) :=
  requests (archive.length + 1) 0 true archive []

section

variable {env : Env} {s : Reader}

theorem extractOne_eq (env : Env) (s : Reader) :
    extractOne env s = match readOne s.first s.inn s.pending with
      | .done => .done
      | .bad e => .bad e
      | .skipped inn pending => .next ⟨inn, pending, s.count + 1, false, s.fs⟩
      | .entry r inn =>
        .next ⟨inn, [], s.count + 1, false, r.perform env (env.clock (s.count + 1)) s.fs⟩ := by
  unfold extractOne readOne
  dsimp only
  repeat (split <;> try rfl)

theorem extractLoop_eq (fuel : Nat) (s : Reader) : (extractLoop env fuel s).map Prod.snd =
    (requests fuel s.count s.first s.inn s.pending).map fun p =>
      p.1.foldl (fun fs r => r.2.perform env (env.clock r.1) fs) s.fs := by
  induction fuel generalizing s with
  | zero => rfl
  | succ fuel ih =>
    rw [extractLoop, extractOne_eq, requests]
    cases readOne s.first s.inn s.pending with
    | done | bad e => rfl
    | skipped inn pending => exact ih _
    | entry r inn =>
      dsimp only
      rw [ih, Option.map_map]
      rfl

theorem extractLoop_result (fuel : Nat) (s : Reader) :
    (extractLoop env fuel s).map (fun p => p.1.toOption.isSome) =
      (requests fuel s.count s.first s.inn s.pending).map fun p => p.2.isNone := by
  induction fuel generalizing s with
  | zero => rfl
  | succ fuel ih =>
    rw [extractLoop, extractOne_eq, requests]
    cases readOne s.first s.inn s.pending with
    | done | bad e => rfl
    | skipped inn pending => exact ih _
    | entry r inn =>
      dsimp only
      rw [ih, Option.map_map]
      rfl

end

end Verkos.Vtar
