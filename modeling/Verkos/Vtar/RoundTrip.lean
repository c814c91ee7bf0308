import Verkos.Vtar.Archive

/-!
# The tar round trip

A tree comes back from an archive of it exactly when all it has are files at the top whose names
have 99 bytes at most, whose sizes fit eleven octal digits, and whose times do and are whole seconds
after 0. A directory that is made is modified now, and nothing sets its time back. A name or a time
that does not fit comes back cut off. A file too large for its header leaves the rest of the archive
too short for what has still to be made of it, whatever its bytes are taken for.
-/

namespace Verkos.Vtar

open List

/-- Whatever order the names come in, wherever the archive is extracted, all of the tree is there
again. -/
def RoundTrips (src : Source) : Prop :=
  ∀ (l : Listing src) (fuel : Nat) (out : Out), l.create fuel = some out → out.notFound = [] →
    ∀ env : Env, env.keepMtime = true → ∃ r fs, doExtract env out.bytes = some (r, fs) ∧
      ∀ p, fs p = src.fs p

/-- A node that an entry can say all about. -/
inductive Fits : Path → Node → Prop
  | file {name : Str} {mode : Nat} {sec : Int} {content : List UInt8} (hname : name.length ≤ 99)
    (hsize : content.length < 8 ^ 11) (hsec : 0 < sec) (hsec' : sec < 8 ^ 11) :
    Fits [name] (.file mode ⟨sec, 0⟩ content)

variable {fuel : Nat} {s : Reader} {r : Except Bad Nat}

section Runs

variable {env : Env} {P : Reader → Prop}

theorem extractLoop_rule (hstep : ∀ s s', P s → extractOne env s = .next s' → P s')
    (hs : P s) {fs : Fs} (h : extractLoop env fuel s = some (r, fs)) : ∃ s', P s' ∧ s'.fs = fs := by
  induction fuel generalizing s with
  | zero => cases h
  | succ fuel ih =>
    rw [extractLoop] at h
    cases hone : extractOne env s with
    | done | bad e =>
      rw [hone] at h
      cases h
      exact ⟨s, hs, rfl⟩
    | next s' =>
      rw [hone] at h
      exact ih (hstep s s' hs hone) h

theorem doExtract_dirs {archive : List UInt8} {fs : Fs}
    (h : doExtract env archive = some (r, fs)) {p : Path} {mode : Nat} {mtime : Time}
    (hp : fs p = some (.dir mode mtime)) : ∃ i, mtime = env.clock i := by
  have hstep : ∀ s s', (∀ p mode mtime, s.fs p = some (.dir mode mtime) → ∃ i, mtime = env.clock i) →
      extractOne env s = .next s' →
      ∀ p mode mtime, s'.fs p = some (.dir mode mtime) → ∃ i, mtime = env.clock i := by
    intro s s' hs hone p mode mtime hp
    obtain ⟨i, q, data, hturn⟩ := extractOne_turned hone
    rcases hturn.node p with hmade | ⟨-, m, t, hfile⟩
    · cases hmade with
      | same hsame => exact hs p mode mtime (hsame ▸ hp)
      | dir _ hnow =>
        rw [hnow] at hp
        cases hp
        exact ⟨i, rfl⟩
    · rw [hfile] at hp
      cases hp
  obtain ⟨s', hs', rfl⟩ := extractLoop_rule hstep (fun _ _ _ h => by cases h) h
  exact hs' p mode mtime hp

end Runs

/-! ## What fits comes back -/

section Forward

variable {src : Source} {env : Env}

theorem cut_of_le {name : Str} (h : name.length ≤ 99) : cut name = name := take_of_length_le h

theorem noDirs_of_fits (h : ∀ p node, src.fs p = some node → Fits p node) : src.NoDirs := by
  intro p mode mtime hp
  cases h p _ hp

theorem length_le_entries {ns : List Str} (hns : ∀ c ∈ ns, src.Small c) :
    ns.length ≤ (ns.flatMap src.entry).length := by
  induction ns with
  | nil => exact Nat.le_refl 0
  | cons c ns ih =>
    obtain ⟨m, t, content, hc, -⟩ := hns c mem_cons_self
    have := ih fun d hd => hns d (mem_cons_of_mem _ hd)
    rw [flatMap_cons, length_append, src.length_entry hc, length_cons]
    omega

theorem flat_empty : Flat fun _ => none :=
  ⟨rfl, fun _ _ _ h => (by cases h), fun _ _ _ _ h => (by cases h)⟩

/-- An archive that begins with entries of small files, up to the others. -/
theorem doExtract_entries (hkeep : env.keepMtime = true) {ns : List Str}
    (hns : ∀ c ∈ ns, src.Small c) (rest : List UInt8) :
    ∃ fuel s', doExtract env (ns.flatMap src.entry ++ rest) = extractLoop env (fuel + 1) s' ∧
      s'.inn = rest ∧
      After src env ns ⟨ns.flatMap src.entry ++ rest, [], 0, true, fun _ => none⟩ s' := by
  have hle := length_le_entries hns
  have hfuel : (ns.flatMap src.entry ++ rest).length + 1 =
      (ns.flatMap src.entry).length - ns.length + rest.length + 1 + ns.length := by
    rw [length_append]
    omega
  obtain ⟨s', hloop, hinn, hafter⟩ := extractLoop_entries hkeep hns
    ((ns.flatMap src.entry).length - ns.length + rest.length + 1)
    (s := ⟨ns.flatMap src.entry ++ rest, [], 0, true, fun _ => none⟩) rfl rfl flat_empty
  refine ⟨(ns.flatMap src.entry).length - ns.length + rest.length, s', ?_, hinn, hafter⟩
  rw [doExtract, hfuel, hloop]

/-- The whole of an archive of small files. -/
theorem doExtract_small (l : Listing src) (hkeep : env.keepMtime = true)
    (hsmall : ∀ c ∈ l.files, src.Small c) : ∃ s', doExtract env
      (l.files.flatMap src.entry ++ List.replicate 1024 0) = some (.ok s'.count, s'.fs) ∧
      After src env l.files ⟨l.files.flatMap src.entry ++ List.replicate 1024 0, [], 0, true,
        fun _ => none⟩ s' := by
  obtain ⟨fuel, s', hrun, hinn, hafter⟩ := doExtract_entries hkeep hsmall (List.replicate 1024 0)
  refine ⟨s', ?_, hafter⟩
  rw [hrun, extractLoop, extractOne_zeros hinn]

theorem stamp_of_fits {sec : Int} (hsec : 0 < sec) (hsec' : sec < 8 ^ 11) (now : Time) :
    stamp ⟨sec, 0⟩ now = ⟨sec, 0⟩ := by
  obtain ⟨n, rfl⟩ := Int.eq_ofNat_of_zero_le hsec.le
  have hk : kept 11 (n : Int) = n := kept_natCast (by omega) (by decide)
  rw [stamp, hk, if_pos (by omega)]

theorem roundTrips_of_fits (h : ∀ p node, src.fs p = some node → Fits p node) : RoundTrips src := by
  have hnd := noDirs_of_fits h
  intro l fuel out hcreate _ env hkeep
  have hfits : ∀ c ∈ l.files, c.length ≤ 99 ∧ src.Small c := by
    intro c hc
    obtain ⟨m, t, content, hfile⟩ := hnd.file ((l.files_mem c).1 hc)
    cases h _ _ hfile with
    | file hname hsize => exact ⟨hname, m, _, content, hfile, hsize⟩
  have hout : out.bytes = l.files.flatMap src.entry ++ List.replicate 1024 0 := by
    rw [l.create_eq hnd hcreate]
  obtain ⟨s', hrun, hafter⟩ := doExtract_small l hkeep fun c hc => (hfits c hc).2
  refine ⟨_, _, by rw [hout]; exact hrun, fun p => ?_⟩
  cases hp : src.fs p with
  | none =>
    refine hafter.other p fun c hc hpc => ?_
    rw [hpc, cut_of_le (hfits c hc).1] at hp
    exact (l.files_mem c).1 hc hp
  | some node =>
    cases h p node hp with
    | @file name mode sec content hname hsize hsec hsec' =>
      have hmem : name ∈ l.files := (l.files_mem name).2 (by rw [hp]; exact Option.some_ne_none _)
      obtain ⟨i, hi⟩ := hafter.entry name hmem (fun d hd hcut => by
        rwa [cut_of_le (hfits d hd).1, cut_of_le hname] at hcut) _ _ _ hp
      rw [cut_of_le hname, stamp_of_fits hsec hsec'] at hi
      exact hi

end Forward

/-! ## What does not fit does not -/

section Weight

/-- What it takes of an archive to make a node, if that is a file too large for its header. -/
def weight : Option Node → Nat
  | some (.file _ _ content) =>
    if 8 ^ 11 ≤ content.length then 512 + 512 * blocks content.length else 0
  | _ => 0

def weighed (fs : Fs) (ns : List Str) : Nat := (ns.map fun c => weight (fs [c])).sum

variable {fs fs' : Fs} {ns : List Str}

theorem weight_made {now : Time} {a b : Option Node} (h : Made now a b) : weight b = weight a := by
  cases h with
  | same h => rw [h]
  | dir ha hb =>
    rw [hb]
    cases a with
    | none => rfl
    | some node =>
      cases node with
      | file m t c => exact absurd rfl (ha m t c)
      | dir m t => rfl

theorem weighed_congr (h : ∀ c ∈ ns, weight (fs' [c]) = weight (fs [c])) :
    weighed fs' ns = weighed fs ns := congrArg List.sum (map_congr_left h)

theorem weighed_le (hns : ns.Nodup) {q : Path} {w : Nat}
    (hrest : ∀ c ∈ ns, [c] ≠ q → weight (fs' [c]) = weight (fs [c])) (hq : weight (fs' q) ≤ w) :
    weighed fs' ns ≤ weighed fs ns + w := by
  induction ns with
  | nil => exact Nat.zero_le _
  | cons c ns ih =>
    obtain ⟨hc, hns⟩ := nodup_cons.1 hns
    rw [weighed, weighed, map_cons, map_cons, sum_cons, sum_cons]
    by_cases hcq : [c] = q
    · have hothers : weighed fs' ns = weighed fs ns := weighed_congr fun d hd =>
        hrest d (mem_cons_of_mem _ hd) fun hdq =>
          hc ((List.cons.inj (hdq.trans hcq.symm)).1 ▸ hd)
      rw [weighed, weighed] at hothers
      rw [hothers, hcq]
      omega
    · have hhead := hrest c mem_cons_self hcq
      have hothers := ih hns fun d hd => hrest d (mem_cons_of_mem _ hd)
      rw [weighed, weighed] at hothers
      rw [hhead]
      omega

theorem weighed_turn (hns : ns.Nodup) {env : Env} {s' : Reader} (h : extractOne env s = .next s') :
    weighed s'.fs ns + s'.inn.length ≤ weighed s.fs ns + s.inn.length := by
  obtain ⟨i, q, data, hturn⟩ := extractOne_turned h
  have hinn := hturn.inn
  have hrest : ∀ c ∈ ns, [c] ≠ q → weight (s'.fs [c]) = weight (s.fs [c]) := fun c _ hc =>
    (hturn.node [c]).elim weight_made fun h => absurd h.1 hc
  rcases hturn.node q with hmade | ⟨-, m, t, hfile⟩
  · have hsame : weighed s'.fs ns = weighed s.fs ns := weighed_congr fun c hc => by
      by_cases hcq : [c] = q
      · rw [hcq, weight_made hmade]
      · exact hrest c hc hcq
    omega
  · have hq : weight (s'.fs q) ≤ 512 + 512 * blocks data.length := by
      rw [hfile, weight]
      split
      · exact Nat.le_refl _
      · exact Nat.zero_le _
    have hle : weighed s'.fs ns ≤ weighed s.fs ns + (512 + 512 * blocks data.length) :=
      weighed_le hns hrest hq
    omega

theorem weighed_flat (h : Flat fs) (ns : List Str) : weighed fs ns = 0 := by
  induction ns with
  | nil => rfl
  | cons c ns ih =>
    rw [weighed] at ih
    rw [weighed, map_cons, sum_cons, ih, Nat.add_zero]
    cases hc : fs [c] with
    | none => rfl
    | some node =>
      cases node with
      | file m t d => exact if_neg (Nat.not_le.2 (h.small _ _ _ _ hc))
      | dir m t => rfl

end Weight

section Backward

variable {src : Source}

def Source.size (src : Source) (name : Str) : Nat :=
  match src.fs [name] with
  | some (.file _ _ content) => content.length
  | _ => 0

theorem Source.size_eq {name : Str} {mode : Nat} {mtime : Time} {content : List UInt8}
    (h : src.fs [name] = some (.file mode mtime content)) : src.size name = content.length := by
  rw [Source.size, h]

/-- The names in another order. -/
def Listing.reorder (l : Listing src) (files : List Str) (h : files.Perm l.files) : Listing src where
  readdir := l.readdir
  files := files
  readdir_mem := l.readdir_mem
  readdir_nodup := l.readdir_nodup
  files_mem c := h.mem_iff.trans (l.files_mem c)
  files_nodup := h.nodup_iff.2 l.files_nodup

theorem weighed_entries {ns : List Str} (h : ∀ c ∈ ns, ∃ mode mtime content,
    src.fs [c] = some (.file mode mtime content) ∧ 8 ^ 11 ≤ content.length) :
    weighed src.fs ns = (ns.flatMap src.entry).length := by
  induction ns with
  | nil => rfl
  | cons c ns ih =>
    obtain ⟨m, t, content, hc, hbig⟩ := h c mem_cons_self
    have htail := ih fun d hd => h d (mem_cons_of_mem _ hd)
    rw [weighed] at htail
    rw [weighed, map_cons, sum_cons, htail, flatMap_cons, length_append,
      src.length_entry hc, hc, weight, if_pos hbig]

/-- No archive in which the first entry is too large for its header is long enough. -/
theorem large_first {env : Env} (hkeep : env.keepMtime = true) {c : Str} {ns : List Str}
    (hns : (c :: ns).Nodup) (hbig : ∀ d ∈ c :: ns, ∃ mode mtime content,
      src.fs [d] = some (.file mode mtime content) ∧ 8 ^ 11 ≤ content.length)
    (hinn : s.inn = (c :: ns).flatMap src.entry ++ List.replicate 1024 0)
    (hp : s.pending = []) (hflat : Flat s.fs) {fs : Fs}
    (hrun : extractLoop env (fuel + 1) s = some (r, fs)) : ¬ ∀ p, fs p = src.fs p := by
  intro hall
  obtain ⟨m, t, content, hc, hlarge⟩ := hbig c mem_cons_self
  have hplain : Plain c := src.plain (by rw [hc]; exact Option.some_ne_none _)
  have hsize : content.length < 2 ^ 63 := (src.stat _ _ _ _ hc).2
  have hkept : 512 < kept 11 (content.length : Int) := lt_kept hlarge (hsize.trans (by decide))
  have hlt : kept 11 (content.length : Int) < 8 ^ 11 := kept_lt 11 _
  have hwhole := congrArg List.length hinn
  rw [length_append, length_replicate, ← weighed_entries hbig] at hwhole
  rw [flatMap_cons, src.entry_eq hc, append_assoc, append_assoc] at hinn
  have hturn : ∃ s', extractOne env s = .next s' ∧ Flat s'.fs ∧
      s'.inn.length + 512 + 512 * blocks (kept 11 (content.length : Int)) = s.inn.length := by
    obtain ⟨hdata, hrest⟩ := copyOut_full (blocks (kept 11 (content.length : Int)))
      (kept 11 (content.length : Int)) (copyIn (blocks content.length) content ++
        (ns.flatMap src.entry ++ List.replicate 1024 0))
      (by unfold blocks; omega)
      (by rw [length_append, length_copyIn]; unfold blocks; omega)
    refine ⟨_, extractOne_entry hplain hinn hp, ?_, ?_⟩
    · rw [extractFile_plain hplain.cut hkeep hflat.root fun m t => hflat.nodir _ m t]
      exact hflat.update _ _ _ (hdata.trans_lt hlt)
    · refine (congrArg (· + 512 + _) hrest).trans ?_
      simp only [hinn, length_append, length_putHeader, length_copyIn]
      unfold blocks
      omega
  obtain ⟨s', hone, hflat', hinn'⟩ := hturn
  rw [extractLoop, hone] at hrun
  obtain ⟨s'', hle, rfl⟩ := extractLoop_rule
    (P := fun x => weighed x.fs (c :: ns) + x.inn.length ≤ s'.inn.length)
    (fun x x' hx hx' => (weighed_turn hns hx').trans hx)
    (by rw [weighed_flat hflat', Nat.zero_add]) hrun
  have hsame : weighed s''.fs (c :: ns) = weighed src.fs (c :: ns) :=
    weighed_congr fun d _ => congrArg weight (hall [d])
  unfold blocks at hinn'
  omega

theorem small_of_roundTrips (hnd : src.NoDirs) (h : RoundTrips src) (l : Listing src) :
    ∀ c ∈ l.files, src.Small c := by
  have hfile : ∀ c ∈ l.files, ∃ mode mtime content,
      src.fs [c] = some (.file mode mtime content) := fun c hc => hnd.file ((l.files_mem c).1 hc)
  -- the files that are too large come last
  let small : Str → Bool := fun c => src.size c < 8 ^ 11
  have hperm := filter_append_perm small l.files
  have hsmall : ∀ c ∈ l.files.filter small, src.Small c := by
    intro c hc
    obtain ⟨hmem, hsize⟩ := mem_filter.1 hc
    obtain ⟨m, t, content, hnode⟩ := hfile c hmem
    exact ⟨m, t, content, hnode, by rw [← Source.size_eq hnode]; simpa [small] using hsize⟩
  have hlarge : ∀ c ∈ l.files.filter (fun c => !small c), ∃ mode mtime content,
      src.fs [c] = some (.file mode mtime content) ∧ 8 ^ 11 ≤ content.length := by
    intro c hc
    obtain ⟨hmem, hsize⟩ := mem_filter.1 hc
    obtain ⟨m, t, content, hnode⟩ := hfile c hmem
    exact ⟨m, t, content, hnode, by rw [← Source.size_eq hnode]; simpa [small] using hsize⟩
  have hnodup : (l.files.filter fun c => !small c).Nodup := l.files_nodup.filter _
  suffices hnone : l.files.filter (fun c => !small c) = [] by
    intro c hc
    refine hsmall c (mem_filter.2 ⟨hc, ?_⟩)
    have hnot := filter_eq_nil_iff.1 hnone c hc
    simpa using hnot
  revert hperm hlarge hnodup
  cases (l.files.filter fun c => !small c) with
  | nil => exact fun _ _ _ => rfl
  | cons c ns =>
    intro hperm hlarge hnodup
    exfalso
    let l' := l.reorder (l.files.filter small ++ c :: ns) hperm
    let env : Env := ⟨fun _ => ⟨0, 0⟩, 0, true⟩
    obtain ⟨r, fs, hrun, hall⟩ := h l' 1 _ (l'.create_files hnd 0) rfl env rfl
    have hfiles : l'.files = l.files.filter small ++ c :: ns := rfl
    obtain ⟨fuel, s', hprefix, hinn, hafter⟩ := @doExtract_entries src env rfl _ hsmall
      ((c :: ns).flatMap src.entry ++ List.replicate 1024 0)
    dsimp only at hrun
    rw [hfiles, flatMap_append, append_assoc, hprefix] at hrun
    exact large_first rfl hnodup hlarge hinn hafter.pending hafter.flat hrun hall

section

variable {l : Listing src} {out : Out} (h : RoundTrips src) (hout : l.create fuel = some out)
  (hreport : out.notFound = [])
include h hout hreport

theorem noDirs_of_roundTrips : src.NoDirs := by
  intro p mode mtime hp
  obtain ⟨r, fs, hrun, hall⟩ := h l fuel out hout hreport
    ⟨fun _ => ⟨mtime.sec + 1, 0⟩, 0, true⟩ rfl
  obtain ⟨i, hi⟩ := doExtract_dirs hrun ((hall p).trans hp)
  have := congrArg Time.sec hi
  dsimp only at this
  omega

theorem fits_of_roundTrips {p : Path} {node : Node} (hp : src.fs p = some node) : Fits p node := by
  have hnd := noDirs_of_roundTrips h hout hreport
  have hsmall := small_of_roundTrips hnd h l
  have hne : src.fs p ≠ none := by rw [hp]; exact Option.some_ne_none _
  obtain ⟨name, rfl⟩ := hnd.top hne
  have hmem : name ∈ l.files := (l.files_mem name).2 hne
  obtain ⟨mode, mtime, content, hnode, hsize⟩ := hsmall name hmem
  rw [hp] at hnode
  cases hnode
  let env : Env := ⟨fun _ => ⟨mtime.sec + 1, 0⟩, 0, true⟩
  obtain ⟨r, fs, hrun, hall⟩ := h l fuel out hout hreport env rfl
  obtain ⟨s', hrun', hafter⟩ := @doExtract_small src env l rfl hsmall
  rw [l.create_eq hnd hout, hrun'] at hrun
  cases hrun
  have hshort : ∀ c ∈ l.files, c.length ≤ 99 := by
    intro c hc
    by_contra hlong
    have hgone : s'.fs [c] = none := hafter.other [c] fun d _ heq => by
      have := length_cut d
      rw [← (List.cons.inj heq).1] at this
      omega
    exact (l.files_mem c).1 hc ((hall [c]).symm.trans hgone)
  obtain ⟨i, hi⟩ := hafter.entry name hmem (fun d hd hcut => by
    rwa [cut_of_le (hshort d hd), cut_of_le (hshort name hmem)] at hcut) _ _ _ hp
  rw [cut_of_le (hshort name hmem), hall, hp] at hi
  have hstamp : mtime = stamp mtime (env.clock i) := (Node.file.inj (Option.some.inj hi)).2.1
  rw [stamp] at hstamp
  split at hstamp
  · rename_i hpos
    have hlt := kept_lt 11 mtime.sec
    rw [hstamp]
    exact .file (hshort name hmem) hsize (by omega) (by omega)
  · have := congrArg Time.sec hstamp
    dsimp only [env] at this
    omega

end

end Backward

/-- **When tar brings a tree back.** -/
theorem roundTrips_iff {src : Source} {l : Listing src} {fuel : Nat} {out : Out}
    (hout : l.create fuel = some out) (hreport : out.notFound = []) :
    RoundTrips src ↔ ∀ p node, src.fs p = some node → Fits p node :=
  ⟨fun h _ _ hp => fits_of_roundTrips h hout hreport hp, roundTrips_of_fits⟩

/-! ## One file -/

section Single

variable (name : Str) (hname : Plain name)

/-- A tree that is one file. -/
def single : Source where
  fs p := if p = [name] then some (.file 0o644 ⟨1, 0⟩ [104, 105]) else none
  owner _ := (0, 0)
  root := rfl
  parent p c h := by
    have hp : p ++ [c] = [name] := by
      by_contra hne
      exact h (if_neg hne)
    have hnil : p = [] := (List.append_inj' (hp.trans (List.nil_append _).symm) rfl).1
    rw [hnil]
    rfl
  name p c h := by
    have hp : p ++ [c] = [name] := by
      by_contra hne
      exact h (if_neg hne)
    have hc : [c] = [name] := (List.append_inj' (hp.trans (List.nil_append _).symm) rfl).2
    obtain rfl := (List.cons.inj hc).1
    exact ⟨hname.ne_nil, hname.ne_dot, hname.ne_dotdot, hname.slash, hname.nul, hname.length_le⟩
  stat p mode mtime content h := by
    split at h
    · cases h
      exact ⟨by decide, by decide⟩
    · cases h

theorem single_top : (single name hname).fs [name] =
    some (.file 0o644 ⟨1, 0⟩ [104, 105]) := if_pos rfl

theorem single_noDirs : (single name hname).NoDirs := by
  intro p mode mtime h
  change (if p = [name] then _ else _) = _ at h
  split at h <;> cases h

def singleListing : Listing (single name hname) where
  readdir _ := [dot, dotdot, name]
  files := [name]
  readdir_mem p hp c := by
    have hnil : p = [] := by
      by_contra hne
      rw [Fs.isDir, Bool.or_eq_true, decide_eq_true_eq, Option.any_eq_true] at hp
      rcases hp with h0 | ⟨node, hnode, hdir⟩
      · exact hne h0
      · cases node with
        | file => cases hdir
        | dir m t => exact single_noDirs name hname p m t hnode
    subst hnil
    have hfs : (single name hname).fs ([] ++ [c]) ≠ none ↔ c = name := by
      simp [single]
    rw [hfs]
    simp
  readdir_nodup p := by
    have h1 := hname.ne_dot
    have h2 := hname.ne_dotdot
    have h3 : dot ≠ dotdot := by decide
    simp [h1.symm, h2.symm, h3]
  files_mem c := by
    simp [single]
  files_nodup := by simp

end Single

theorem plain_bs {n : Nat} (hpos : 3 ≤ n) (hn : n ≤ nameMax) : Plain (List.replicate n 98) where
  ne_nil h := by have := congrArg List.length h; simp at this; omega
  ne_dot h := by have := congrArg List.length h; simp [dot] at this; omega
  ne_dotdot h := by have := congrArg List.length h; simp [dotdot] at this; omega
  slash h := absurd (eq_of_mem_replicate h) (by decide)
  nul h := absurd (eq_of_mem_replicate h) (by decide)
  length_le := by simpa using hn

/-- A name of 99 bytes comes back. -/
theorem single_roundTrips :
    RoundTrips (single (List.replicate 99 98) (plain_bs (by decide) (by decide))) := by
  have hout := (singleListing (List.replicate 99 98) (plain_bs (by decide) (by decide))).create_files
    (single_noDirs _ _) 0
  refine (roundTrips_iff hout rfl).2 fun p node hp => ?_
  change (if p = _ then _ else _) = _ at hp
  split at hp
  · rename_i h
    cases hp
    rw [h]
    exact .file (by simp) (by decide) (by decide) (by decide)
  · cases hp

/-- A name of 100 does not, and tar reports nothing. -/
theorem single_lost : ∃ out, (singleListing (List.replicate 100 98)
    (plain_bs (by decide) (by decide))).create 1 = some out ∧ out.notFound = [] ∧
    ¬ RoundTrips (single (List.replicate 100 98) (plain_bs (by decide) (by decide))) := by
  have hout := (singleListing (List.replicate 100 98)
    (plain_bs (by decide) (by decide))).create_files (single_noDirs _ _) 0
  refine ⟨_, hout, rfl, fun h => ?_⟩
  have hfits := fits_of_roundTrips h hout rfl (single_top _ _)
  cases hfits with
  | file hname => exact absurd hname (by simp)

end Verkos.Vtar
