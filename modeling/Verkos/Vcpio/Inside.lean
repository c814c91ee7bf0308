import Verkos.Vcpio.Extract

/-!
# Where extraction lands

The names of entries are checked as they are written, so an entry lands under the directory as long
as no link is on the way to its name. A link that the archive brings itself can be on the way: what
is behind it is then wherever the link leads.
-/

namespace Verkos.Vcpio

open Lib Links

variable {env : Env} {w w' : Disk} {e : Entry} {name : List UInt8} {s : Spot (List UInt8)}
  {p : Place (List UInt8)}

/-- No link is on the way to what an entry makes; nor is a regular file's own name a link, as a link
there would be followed. -/
def Entry.Clear (cwd : Place (List UInt8)) (t : Tree (List UInt8) Nat Regular) (e : Entry) : Prop :=
  e.kind ≠ .other → Links.Clear t (e.kind = .regular) cwd (path e.name).comps

/-- All that extraction has touched so far is under the directory that it is run in. -/
def Reader.Inside (env : Env) (s : Reader) : Prop := s.disk.All (Below env.cwd)

/-- The entry that the next turn comes to has its way clear. -/
def GoesClear (env : Env) (s : Reader) (junk : List UInt8) : Prop :=
  ∀ e inn pos, readEntry junk s.inn s.pos = .entry e inn pos → e.Clear env.cwd s.disk.tree

/-! ## The names -/

theorem base_path (h : name.head? ≠ some slash) : (path name).base p = p := by
  rw [Route.base, if_neg]
  simpa [path, Paths.route] using h

theorem head?_strip (l : List UInt8) : (l.dropWhile (· = slash)).head? ≠ some slash := by
  intro hhead
  have hnot := List.head?_dropWhile_not (· = slash) l
  simp [hhead] at hnot

theorem name_of_readEntry {junk inn inn' : List UInt8} {pos pos' : Nat}
    (h : readEntry junk inn pos = .entry e inn' pos') :
    e.name.head? ≠ some slash ∧ Paths.climbs slash dot e.name = false := by
  simp only [readEntry] at h
  split at h
  · cases h
  · split at h
    · cases h
    · split at h
      · cases h
      · split at h
        · cases h
        · rename_i hname
          obtain ⟨heq, -, -⟩ := Turn.entry.inj h
          rw [not_or, Bool.not_eq_true] at hname
          rw [← heq]
          dsimp only
          exact ⟨head?_strip _, hname.1⟩

/-! ## What the calls touch -/

/-- What a part of a turn may do: it touches what is under the directory, and makes no link. -/
structure Tame (cwd : Place (List UInt8)) (w w' : Disk) : Prop where
  inside : w.All (Below cwd) → w'.All (Below cwd)
  links : ∀ p, NoLink w.tree p → NoLink w'.tree p

namespace Tame

theorem refl (cwd : Place (List UInt8)) (w : Disk) : Tame cwd w w := ⟨id, fun _ => id⟩

theorem trans {cwd : Place (List UInt8)} {w'' : Disk} (h : Tame cwd w w') (h' : Tame cwd w' w'') :
    Tame cwd w w'' :=
  ⟨h'.inside ∘ h.inside, fun p => h'.links p ∘ h.links p⟩

end Tame

theorem tame_mkdir {mode : Nat} (habs : name.head? ≠ some slash)
    (h : Links.Straight w.tree false env.cwd (path name).comps) :
    Tame env.cwd w (env.mkdir w name mode) := by
  unfold Env.mkdir
  refine ⟨World.all_after fun s t hs => ?_, fun p hp => ?_⟩
  · obtain ⟨hseek, hlast, -, -⟩ := make_eq hs
    rw [base_path habs] at hseek
    exact below_of_seek h hseek hlast
  · cases hs : Links.mkdir w.tree env.cwd (path name) (Nat.ldiff mode env.umask) with
    | none => exact hp
    | some r =>
      obtain ⟨-, -, -, ht⟩ := make_eq hs
      rw [World.after, ht]
      exact noLink_update (fun _ heq => by cases heq) hp

theorem tame_mkParents {behind : Bool} (habs : name.head? ≠ some slash)
    (h : Straight w.tree behind env.cwd (path name).comps) :
    Tame env.cwd w (mkParents env w name) := by
  have hall : ∀ q ∈ Paths.fronts slash [] name,
      q.head? ≠ some slash ∧ Straight w.tree false env.cwd (path q).comps := by
    intro q hq
    refine ⟨fun hhead => ?_, Paths.straight_of_mem_fronts h hq⟩
    obtain ⟨a, b, rfl, rfl⟩ := Paths.mem_fronts hq
    exact habs (by rw [List.head?_append]; simp [hhead])
  rw [mkParents]
  generalize Paths.fronts slash [] name = qs at hall
  clear h
  induction qs generalizing w with
  | nil => exact .refl _ _
  | cons q qs ih =>
    obtain ⟨hq, hqs⟩ := List.forall_mem_cons.1 hall
    have hfirst : Tame env.cwd w (env.mkdir w q 0o755) := tame_mkdir hq.1 hq.2
    exact hfirst.trans (ih fun r hr => ⟨(hqs r hr).1, (hqs r hr).2.mono hfirst.links⟩)

/-- A regular file lands at its name, and so does the change of its mode. -/
theorem inside_putRegular (habs : e.name.head? ≠ some slash)
    (h : Straight w.tree true env.cwd (path e.name).comps) (hw : w.All (Below env.cwd)) :
    (putRegular env w e).All (Below env.cwd) := by
  have hparents := tame_mkParents habs h
  have hstraight := h.mono hparents.links
  have hinside := hparents.inside hw
  unfold putRegular
  dsimp only
  generalize mkParents env w e.name = w at hstraight hinside ⊢
  split
  · exact hinside
  · rename_i s f t hopen
    obtain ⟨hseek, hlast, ht⟩ := create_eq hopen
    rw [base_path habs] at hseek
    have hbelow := below_of_seek hstraight hseek hlast
    refine World.all_after (fun s' t' hs' => ?_) ?_
    · have htree : Straight (Function.update t s.place (some (.file { f with content := e.data })))
          true env.cwd (path e.name).comps := by
        refine hstraight.mono fun p hp => noLink_update (fun _ heq => by cases heq) ?_
        rcases ht with ⟨-, rfl⟩ | ⟨-, -, rfl⟩
        · exact hp
        · exact noLink_update (fun _ heq => by cases heq) hp
      have hspot := change_eq hs'
      rw [spot, base_path habs] at hspot
      obtain ⟨-, hplace, -⟩ := seek_straight htree.all hspot
      rw [names_all] at hplace
      exact ⟨_, (seek_straight hstraight hseek).2.2 hlast, hplace⟩
    · intro s' hs'
      rcases List.mem_append.1 hs' with hs' | hs'
      · exact hinside s' hs'
      · rwa [List.mem_singleton.1 hs']

theorem inside_putLink (habs : e.name.head? ≠ some slash)
    (h : Straight w.tree false env.cwd (path e.name).comps) (hw : w.All (Below env.cwd)) :
    (putLink env w e).All (Below env.cwd) := by
  have hparents := tame_mkParents habs h
  have hstraight := h.mono hparents.links
  have hinside := hparents.inside hw
  unfold putLink
  dsimp only
  generalize mkParents env w e.name = w at hstraight hinside ⊢
  have hunlink : Tame env.cwd w (w.after (unlink w.tree env.cwd (path e.name))) := by
    refine ⟨World.all_after fun s t hs => ?_, fun p hp => ?_⟩
    · obtain ⟨hseek, hlast, -, -⟩ := unlink_eq hs
      rw [base_path habs] at hseek
      exact below_of_seek hstraight hseek hlast
    · cases hs : unlink w.tree env.cwd (path e.name) with
      | none => exact hp
      | some r =>
        obtain ⟨-, -, -, ht⟩ := unlink_eq hs
        rw [World.after, ht]
        exact noLink_update (fun _ heq => by cases heq) hp
  replace hstraight := hstraight.mono hunlink.links
  replace hinside := hunlink.inside hinside
  generalize w.after (unlink w.tree env.cwd (path e.name)) = w at hstraight hinside ⊢
  split
  · exact hinside
  · refine World.all_after (fun s t hs => ?_) hinside
    obtain ⟨hspot, hlast, -, -⟩ := make_eq hs
    have hseek := spot_last hspot hlast
    rw [base_path habs] at hseek
    exact below_of_seek hstraight hseek hlast

theorem inside_put (hclear : e.Clear env.cwd w.tree) (habs : e.name.head? ≠ some slash)
    (hclimbs : Paths.climbs slash dot e.name = false) (hw : w.All (Below env.cwd)) :
    (e.put env w).All (Below env.cwd) := by
  have hstraight : e.kind ≠ .other →
      Straight w.tree (e.kind = .regular) env.cwd (path e.name).comps :=
    fun hkind => (hclear hkind).straight (Paths.up_notMem_comps hclimbs)
  unfold Entry.put
  cases hkind : e.kind with
  | regular => exact inside_putRegular habs (by simpa [hkind] using hstraight) hw
  | directory =>
    have h := hstraight (by simp [hkind])
    exact (tame_mkdir habs h.at_end).inside hw
  | link => exact inside_putLink habs (by simpa [hkind] using hstraight) hw
  | other => exact hw

theorem inside_turn {s s' : Reader} {junk : List UInt8} (hclear : GoesClear env s junk)
    (h : turn env s junk = some s') (hs : s.Inside env) : s'.Inside env := by
  unfold turn at h
  split at h
  · rename_i e inn pos hread
    obtain rfl := Option.some.inj h
    obtain ⟨habs, hclimbs⟩ := name_of_readEntry hread
    exact inside_put (hclear e inn pos hread) habs hclimbs hs
  all_goals cases h

/-- Whatever the archive: while no entry has a link on its way, all that extraction touches is under
the directory that it is run in. -/
theorem inside_of_clear (env : Env) (archive : List UInt8)
    (t : Tree (List UInt8) Nat Regular) (junks : List (List UInt8)) (s : Reader)
    (h : Run (turn env) (GoesClear env) (.start archive t) junks s) : s.Inside env := by
  have hstart : (Reader.start archive t).Inside env := fun _ hs => by cases hs
  exact h.invariant (fun _ _ _ hs hok hstep => inside_turn hok hstep hs) hstart

/-- `/w`, in which the tool is run, and `/etc`. -/
def twoDirs : Tree (List UInt8) Nat Regular := fun p =>
  if p = [[119]] ∨ p = [[101, 116, 99]] then some (.dir 0o755) else none

theorem noLink_twoDirs (p : Place (List UInt8)) : NoLink twoDirs p := by
  intro target htarget
  unfold twoDirs at htarget
  split at htarget <;> cases htarget

/-- The file `x`. -/
def oneFile : List UInt8 := entryBytes ⟨0, 0o100644, 0, 0, 1, 0, 1⟩ [120] [1]

theorem inside_of_clear_one :
    ∃ s, exec (turn ⟨[[119]], 0o022⟩) (.start oneFile twoDirs) [[]] = some s ∧
      s.disk.log = [⟨[[119]], some [120], true⟩, ⟨[[119]], some [120], true⟩] ∧
      s.disk.All (Below [[119]]) := by
  have hexec : (exec (turn ⟨[[119]], 0o022⟩) (.start oneFile twoDirs) [[]]).map (·.disk.log) =
      some [⟨[[119]], some [120], true⟩, ⟨[[119]], some [120], true⟩] := by
    decide +kernel
  have hread : readEntry [] oneFile 0 = .entry ⟨0o100644, [120], 1, [1]⟩ [] 116 := by
    decide +kernel
  obtain ⟨s, hs, hlog⟩ := Option.map_eq_some_iff.1 hexec
  refine ⟨s, hs, hlog, inside_of_clear ⟨[[119]], 0o022⟩ oneFile twoDirs [[]] s ?_⟩
  obtain ⟨s', hstep, hrest⟩ := Option.bind_eq_some_iff.1 hs
  obtain rfl := Option.some.inj hrest
  refine .cons (fun e inn pos he => ?_) hstep (.nil _)
  obtain ⟨rfl, -, -⟩ := Turn.entry.inj (hread.symm.trans he)
  exact fun _ => ⟨.inr (noLink_twoDirs _), trivial⟩

/-! ## A link on the way -/

/-- The link `l` to `/etc`, and the file `l/x`. -/
def linkThenFile : List UInt8 :=
  entryBytes ⟨0, 0o120777, 0, 0, 1, 0, 4⟩ [108] [47, 101, 116, 99] ++
    entryBytes ⟨0, 0o100644, 0, 0, 1, 0, 1⟩ [108, 47, 120] [1]

/-- What two turns of it have touched: the link, and twice the file in `/etc`. -/
theorem log_linkThenFile :
    (exec (turn ⟨[[119]], 0o022⟩) (.start linkThenFile twoDirs) [[], []]).map (·.disk.log) =
      some [⟨[[119]], some [108], true⟩, ⟨[[101, 116, 99]], some [120], false⟩,
        ⟨[[101, 116, 99]], some [120], false⟩] := by
  decide +kernel

theorem inside_not : ¬∀ (env : Env) (archive : List UInt8) (t : Tree (List UInt8) Nat Regular)
      (junks : List (List UInt8)) (s : Reader), (∀ p, env.cwd <+: p → NoLink t p) →
      Run (turn env) (fun _ _ => True) (.start archive t) junks s → s.Inside env := by
  intro h
  obtain ⟨s, hexec, hlog⟩ := Option.map_eq_some_iff.1 log_linkThenFile
  obtain ⟨q, -, hq⟩ := h ⟨[[119]], 0o022⟩ linkThenFile twoDirs [[], []] s
    (fun p _ => noLink_twoDirs p) (run_of_exec hexec) ⟨[[101, 116, 99]], some [120], false⟩ (by simp [hlog])
  simp [Spot.place] at hq

end Verkos.Vcpio
