import Verkos.Vtar.Turn

/-!
# Archives of files

Where a tree has no directory its archive is one entry after the other. As long as no file is too
large for its header, extracting goes from each entry to the next, and makes each file by its name
as far as the header has it.
-/

namespace Verkos.Vtar

open List
open Function

section Source

variable {src : Source} {name : Str} {mode : Nat} {mtime : Time} {content : List UInt8}

/-- There is nothing but files. -/
def Source.NoDirs (src : Source) : Prop := ∀ p mode mtime, src.fs p ≠ some (.dir mode mtime)

theorem Source.plain (src : Source) (h : src.fs [name] ≠ none) : Plain name := by
  obtain ⟨hne, hdot, hdotdot, hslash, hnul, hlen⟩ := src.name [] name h
  exact ⟨hne, hdot, hdotdot, hslash, hnul, hlen⟩

theorem Source.NoDirs.top (hnd : src.NoDirs) {p : Path} (h : src.fs p ≠ none) :
    ∃ name, p = [name] := by
  rcases eq_nil_or_concat p with rfl | ⟨q, c, rfl⟩
  · exact absurd src.root h
  · rw [concat_eq_append] at h
    have hq := src.parent q c h
    rw [Fs.isDir, Bool.or_eq_true, decide_eq_true_eq] at hq
    rcases hq with rfl | hq
    · exact ⟨c, rfl⟩
    · rw [Option.any_eq_true] at hq
      obtain ⟨node, hnode, hdir⟩ := hq
      cases node with
      | file => cases hdir
      | dir m t => exact absurd hnode (hnd q m t)

theorem Source.NoDirs.file (hnd : src.NoDirs) {p : Path} (h : src.fs p ≠ none) :
    ∃ mode mtime content, src.fs p = some (.file mode mtime content) := by
  obtain ⟨node, hnode⟩ := Option.ne_none_iff_exists'.1 h
  cases node with
  | file m t c => exact ⟨m, t, c, hnode⟩
  | dir m t => exact absurd hnode (hnd p m t)

theorem Source.lstat_top (src : Source) {node : Node} (h : src.fs [name] = some node) :
    src.lstat name = some ([name], node) := by
  have hp : Plain name := src.plain (by rw [h]; exact Option.some_ne_none _)
  have hshort : ¬ 4096 ≤ name.length := by
    have := hp.length_le
    unfold nameMax at this
    omega
  have hhead : ¬ (name = [] ∨ name.head? = some slash) := by
    rintro (h0 | hs)
    · exact hp.ne_nil h0
    · exact hp.slash (mem_of_head? hs)
  have hres : src.fs.resolve name = some [name] := by
    have hsome : (src.fs ([] ++ [name])).isSome = true := by
      rw [nil_append, h]
      rfl
    rw [Fs.resolve, if_neg hhead, pieces_plain hp.slash, Fs.walk, if_pos rfl,
      if_neg (not_or.2 ⟨hp.ne_nil, hp.ne_dot⟩), if_neg hp.ne_dotdot, if_pos hsome]
    rfl
  rw [Source.lstat, if_neg hshort, hres, Option.bind_some, h]
  rfl

/-! ## Creating -/

/-- What `put_header` is given for a file. -/
def Source.header (src : Source) (name : Str) (mode : Nat) (mtime : Time) (content : List UInt8) :
    Stat := ⟨mode, (src.owner [name]).1, (src.owner [name]).2, content.length, mtime.sec⟩

/-- The entry of a file. -/
def Source.entry (src : Source) (name : Str) : List UInt8 :=
  match src.fs [name] with
  | some (.file mode mtime content) =>
    putHeader name (src.header name mode mtime content) regType ++
      copyIn (blocks content.length) content
  | _ => []

theorem Source.entry_eq (h : src.fs [name] = some (.file mode mtime content)) :
    src.entry name = putHeader name (src.header name mode mtime content) regType ++
      copyIn (blocks content.length) content := by
  rw [Source.entry, h]

theorem length_putHeader (name : Str) (st : Stat) : (putHeader name st regType).length = 512 := by
  obtain ⟨chksum, hc, hput, -⟩ := putHeader_eq name st
  rw [hput, length_headerBytes hc]

theorem Source.length_entry (h : src.fs [name] = some (.file mode mtime content)) :
    (src.entry name).length = 512 + 512 * blocks content.length := by
  rw [src.entry_eq h, length_append, length_putHeader, length_copyIn]

theorem Listing.create_files (l : Listing src) (hnd : src.NoDirs) (fuel : Nat) :
    l.create (fuel + 1) = some ⟨l.files.flatMap src.entry ++ List.replicate 1024 0, []⟩ := by
  have hfold : ∀ ns : List Str, (∀ c ∈ ns, c ∈ l.files) → ∀ o : Out,
      ns.foldlM (l.addPath (fuel + 1)) o =
        some { o with bytes := o.bytes ++ ns.flatMap src.entry } := by
    intro ns
    induction ns with
    | nil =>
      intro _ o
      rw [foldlM_nil, flatMap_nil, append_nil]
      rfl
    | cons c ns ih =>
      intro hns o
      obtain ⟨m, t, content, hc⟩ := hnd.file ((l.files_mem c).1 (hns c mem_cons_self))
      have hadd : l.addPath (fuel + 1) o c = some { o with bytes := o.bytes ++ src.entry c } := by
        rw [Listing.addPath, src.lstat_top hc, src.entry_eq hc]
        rfl
      rw [foldlM_cons, hadd, Option.bind_eq_bind, Option.bind_some,
        ih fun d hd => hns d (mem_cons_of_mem _ hd)]
      dsimp only
      rw [flatMap_cons, append_assoc]
  rw [Listing.create, hfold l.files (fun _ h => h)]
  rfl

theorem Listing.create_eq (l : Listing src) (hnd : src.NoDirs) {fuel : Nat} {out : Out}
    (h : l.create fuel = some out) :
    out = ⟨l.files.flatMap src.entry ++ List.replicate 1024 0, []⟩ := by
  cases fuel with
  | succ fuel =>
    rw [l.create_files hnd] at h
    exact (Option.some.inj h).symm
  | zero =>
    rw [Listing.create] at h
    revert h
    cases l.files with
    | nil =>
      intro h
      exact (Option.some.inj h).symm
    | cons c ns =>
      intro h
      cases h

end Source

/-! ## Extracting entry after entry -/

/-- A file that its header can say the size of. -/
def Source.Small (src : Source) (name : Str) : Prop :=
  ∃ mode mtime content, src.fs [name] = some (.file mode mtime content) ∧ content.length < 8 ^ 11

/-- Nothing has been made but files, and none that is too large. -/
structure Flat (fs : Fs) : Prop where
  root : fs [] = none
  nodir : ∀ p mode mtime, fs p ≠ some (.dir mode mtime)
  small : ∀ p mode mtime content, fs p = some (.file mode mtime content) → content.length < 8 ^ 11

/-- The time a file gets. -/
def stamp (mtime : Time) (now : Time) : Time :=
  if kept 11 mtime.sec ≠ 0 then ⟨kept 11 mtime.sec, 0⟩ else now

section Run

variable {src : Source} {env : Env}

theorem Flat.update {fs : Fs} (h : Flat fs) (c : Str) (mode : Nat) (mtime : Time)
    {content : List UInt8} (hc : content.length < 8 ^ 11) :
    Flat (update fs [c] (some (.file mode mtime content))) := by
  refine ⟨?_, fun p m t hp => ?_, fun p m t d hp => ?_⟩
  · rw [update_of_ne (cons_ne_nil _ _).symm]
    exact h.root
  · by_cases hpc : p = [c]
    · rw [hpc, update_self] at hp
      cases hp
    · rw [update_of_ne hpc] at hp
      exact h.nodir p m t hp
  · by_cases hpc : p = [c]
    · rw [hpc, update_self] at hp
      cases hp
      exact hc
    · rw [update_of_ne hpc] at hp
      exact h.small p m t d hp

/-- The turn at an entry that is not too large. -/
theorem extractOne_small (hkeep : env.keepMtime = true) {s : Reader} {name : Str} {mode : Nat}
    {mtime : Time} {content rest : List UInt8}
    (hc : src.fs [name] = some (.file mode mtime content)) (hsmall : content.length < 8 ^ 11)
    (hinn : s.inn = src.entry name ++ rest) (hp : s.pending = []) (hflat : Flat s.fs) :
    extractOne env s = .next ⟨rest, [], s.count + 1, false, update s.fs [cut name]
        (some (.file mode (stamp mtime (env.clock (s.count + 1))) content))⟩ := by
  have hplain : Plain name := src.plain (by rw [hc]; exact Option.some_ne_none _)
  have hmode : mode &&& 0o7777 &&& 0o7777 = mode := by
    have hlt := (src.stat _ _ _ _ hc).1
    rw [Nat.and_assoc, Nat.and_self]
    exact Nat.and_two_pow_sub_one_of_lt_two_pow (n := 12) hlt
  rw [src.entry_eq hc, append_assoc] at hinn
  rw [extractOne_entry hplain hinn hp,
    extractFile_plain hplain.cut hkeep hflat.root (fun m t => hflat.nodir _ m t)]
  have hsize : kept 11 ((src.header name mode mtime content).size : Nat) = content.length :=
    kept_natCast hsmall (by decide)
  rw [hsize, copyOut_copyIn]
  dsimp only [Source.header]
  rw [hmode]
  rfl

/-- What some entries come to. -/
structure After (src : Source) (env : Env) (ns : List Str) (s s' : Reader) : Prop where
  pending : s'.pending = []
  flat : Flat s'.fs
  count : s'.count = s.count + ns.length
  other : ∀ p, (∀ c ∈ ns, p ≠ [cut c]) → s'.fs p = s.fs p
  entry : ∀ c ∈ ns, (∀ d ∈ ns, cut d = cut c → d = c) → ∀ mode mtime content,
    src.fs [c] = some (.file mode mtime content) →
      ∃ i, s'.fs [cut c] = some (.file mode (stamp mtime (env.clock i)) content)

theorem extractLoop_entries (hkeep : env.keepMtime = true) {ns : List Str}
    (hns : ∀ c ∈ ns, src.Small c) (fuel : Nat) {s : Reader} {rest : List UInt8}
    (hinn : s.inn = ns.flatMap src.entry ++ rest) (hp : s.pending = []) (hflat : Flat s.fs) :
    ∃ s', extractLoop env (fuel + ns.length) s = extractLoop env fuel s' ∧ s'.inn = rest ∧
      After src env ns s s' := by
  induction ns generalizing s with
  | nil =>
    exact ⟨s, rfl, hinn, hp, hflat, rfl, fun _ _ => rfl, fun c hc => absurd hc not_mem_nil⟩
  | cons c ns ih =>
    obtain ⟨m, t, content, hc, hsmall⟩ := hns c mem_cons_self
    rw [flatMap_cons, append_assoc] at hinn
    have hturn := extractOne_small hkeep hc hsmall hinn hp hflat
    obtain ⟨s', hloop, hinn', hafter⟩ := ih (fun d hd => hns d (mem_cons_of_mem _ hd))
      (s := ⟨ns.flatMap src.entry ++ rest, [], s.count + 1, false, update s.fs [cut c]
        (some (.file m (stamp t (env.clock (s.count + 1))) content))⟩) rfl rfl
      (hflat.update _ _ _ hsmall)
    refine ⟨s', ?_, hinn', hafter.pending, hafter.flat, ?_, fun p hpns => ?_, fun d hd huniq => ?_⟩
    · rw [length_cons, ← Nat.add_assoc, extractLoop, hturn]
      exact hloop
    · rw [hafter.count, length_cons]
      dsimp only
      omega
    · rw [hafter.other p fun d hd => hpns d (mem_cons_of_mem _ hd)]
      exact update_of_ne (hpns c mem_cons_self) ..
    · intro mode mtime data hd'
      rcases mem_cons.1 hd with rfl | hdns
      · by_cases hmem : d ∈ ns
        · exact hafter.entry d hmem (fun e he => huniq e (mem_cons_of_mem _ he)) _ _ _ hd'
        · refine ⟨s.count + 1, ?_⟩
          rw [hc] at hd'
          cases hd'
          rw [hafter.other [cut d] fun e he heq => hmem (huniq e (mem_cons_of_mem _ he)
            (List.cons.inj heq).1.symm ▸ he)]
          exact update_self ..
      · exact hafter.entry d hdns (fun e he => huniq e (mem_cons_of_mem _ he)) _ _ _ hd'

theorem extractOne_zeros {s : Reader} (hinn : s.inn = List.replicate 1024 0) :
    extractOne env s = .done := by
  have htake : s.inn.take 512 = List.replicate 512 0 := by
    rw [hinn, take_replicate]
    rfl
  have hne : ¬ List.replicate 512 (0 : UInt8) = [] := by
    rw [replicate_eq_nil_iff]
    decide
  have hall : (List.replicate 512 (0 : UInt8)).all (· = 0) = true := by
    rw [all_replicate]
    rfl
  rw [extractOne, htake, if_neg hne, if_neg (not_not.2 length_replicate), if_pos hall]

end Run

end Verkos.Vtar
