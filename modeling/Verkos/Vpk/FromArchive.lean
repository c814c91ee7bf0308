import Verkos.Vpk.Unpacked

/-!
# Where the contents come from

A regular file under `dest` has an inode that was made for it, and contents that are a piece of the
archive: so it is for all but hard links whatever the archive says, and for a hard link if the path
to its target has no link in it. `Owned` is what a turn keeps.
-/

namespace Verkos.Vpk.Untar

open Lib
open List
open Function
open Option (some.inj bind_eq_some_iff)

variable {env : Env} {D E : List Str} {w w' : Links.World Str Nat Nat} {t : Links.Tree Str Nat Nat}
  {p rel lrel : Str} {c : Option (Links.Comp Str)} {f f' : Files} {archive : List UInt8}
  {first : Nat}

/-- A piece of the archive, which may be empty. -/
def Piece (archive content : List UInt8) : Prop :=
  ∃ off len, content = (archive.drop off).take len

/-- The files under `dest` have inodes from `first` on, and the contents of these are from the
archive. -/
structure Owned (D : List Str) (first : Nat) (archive : List UInt8) (f : Files) : Prop where
  next : first ≤ f.next
  files : ∀ q i, q ≠ [] → f.world.tree (D ++ q) = some (.file i) → first ≤ i ∧ i < f.next
  contents : ∀ i, first ≤ i → i < f.next → Piece archive (f.inodes i).content

variable {n : Str} {i : Nat} {q : List Str} {m : Member}

section

variable (h : Owned D first archive f)
include h

theorem Owned.tree
    (hfiles : ∀ q i, q ≠ [] → w.tree (D ++ q) = some (.file i) → f.world.tree (D ++ q) = some (.file i) ∨ first ≤ i ∧ i < f.next) :
    Owned D first archive { f with world := w } where
  next := h.next
  files q i hq hi := (hfiles q i hq hi).elim (h.files q i hq) id
  contents := h.contents

theorem Owned.swept (hswept : Swept D f.world w) : Owned D first archive { f with world := w } := by
  refine h.tree fun q i _ hi => .inl ?_
  rcases hswept.less (D ++ q) with heq | heq | ⟨d, heq⟩
  · rw [← heq, hi]
  · cases heq.symm.trans hi
  · cases heq.symm.trans hi

theorem Owned.made {s : Links.Spot Str} {node : Links.Node Str Nat Nat}
    (hnode : ∀ i, node = .file i → first ≤ i ∧ i < f.next) : Owned D first archive
      { f with world := f.world.after (some (s, update f.world.tree s.place (some node))) } := by
  refine h.tree fun q i _ hi => ?_
  change update f.world.tree s.place (some node) (D ++ q) = some (.file i) at hi
  by_cases hq : D ++ q = s.place
  · rw [hq, update_self] at hi
    exact .inr (hnode i (some.inj hi))
  · rw [update_of_ne hq] at hi
    exact .inl hi

theorem Owned.opened (hopened : Opened D E n f i f') : Owned D first archive f' := by
  refine ⟨?_, fun q j hq hj => ?_, fun j hj hlt => ?_⟩
  · rw [hopened.next]
    exact h.next.trans (Nat.le_succ _)
  · rw [hopened.next]
    rw [hopened.world] at hj
    change update f.world.tree (endSpot D E n).place (some (.file f.next)) (D ++ q) =
      some (.file j) at hj
    by_cases hplace : D ++ q = (endSpot D E n).place
    · rw [hplace, update_self] at hj
      cases hj
      exact ⟨h.next, Nat.lt_succ_self _⟩
    · rw [update_of_ne hplace] at hj
      obtain ⟨hfirst, hlt⟩ := h.files q j hq hj
      exact ⟨hfirst, by omega⟩
  · rw [hopened.next] at hlt
    by_cases hnew : j = f.next
    · rw [hnew, hopened.empty]
      exact ⟨0, 0, rfl⟩
    · rw [hopened.others j hnew]
      exact h.contents j hj (by omega)

theorem Owned.write {data : List UInt8} (hdata : Piece archive data) :
    Owned D first archive (f.write i data) := by
  refine ⟨h.next, h.files, fun j hj hlt => ?_⟩
  by_cases hi : j = i
  · rw [hi, Files.write]
    simpa using hdata
  · rw [Files.write]
    dsimp only
    rw [update_of_ne hi]
    exact h.contents j hj hlt

/-- Whatever else changes about an inode, its contents are the same. -/
theorem Owned.inodes {inodes : Nat → Inode} (hsame : ∀ j, (inodes j).content = (f.inodes j).content) :
    Owned D first archive { f with inodes } :=
  ⟨h.next, h.files, fun j hj hlt => by rw [hsame]; exact h.contents j hj hlt⟩

theorem Owned.chmod {mode : Nat} : Owned D first archive (f.chmod i mode) := by
  refine h.inodes fun j => ?_
  by_cases hj : j = i
  · rw [hj, update_self]
  · rw [update_of_ne hj]

theorem Owned.utime {mtime : Nat} (hway : Way env D f.world.tree p E (some (.name n)))
    (hfile : f.world.tree (D ++ (E ++ [n])) = some (.file i)) :
    Owned D first archive (f.utime env p mtime) := by
  rw [utime_end hway hfile]
  have hsame : Owned D first archive
      { f with world := ⟨f.world.tree, f.world.log ++ [endSpot D E n]⟩ } :=
    h.tree fun _ _ _ hi => .inl hi
  refine hsame.inodes fun j => ?_
  by_cases hj : j = i
  · rw [hj, update_self]
  · rw [update_of_ne hj]

end

/-! ## The target of a hard link -/

/-- Where a path under `dest` comes to a name that is no directory's, its rest ends in that name. -/
theorem rest_of_spot {behind : Bool} {o : Links.Spot Str} (hd : Dest env t D)
    (hsafe : Paths.climbs slash dot lrel = false)
    (hs : Links.spot t behind env.cwd (path (env.under lrel)) = some o) (hlast : o.last.isSome)
    (hdir : ∀ d, t o.place ≠ some (.dir d)) :
    ∃ init n, Links.Comp.up ∉ init ∧ (path (env.rest lrel)).comps = init ++ [Links.Comp.name n] ∧
      ∀ b, Links.spot t b env.cwd (path (env.under lrel)) =
        Links.seek t b 40 D (init ++ [Links.Comp.name n]) := by
  have hslash := Links.slash_of_spot hs hlast
  have hall : ∀ b, Links.spot t b env.cwd (path (env.under lrel)) =
      Links.seek t b 40 ((path env.dest).base env.cwd)
        ((path env.dest).comps ++ (path (env.rest lrel)).comps) := by
    intro b
    rw [Links.spot, Links.Route.all, hslash, if_neg Bool.false_ne_true, append_nil,
      comps_under hd.short, base_under hd]
  rcases eq_nil_or_concat (path (env.rest lrel)).comps with hnil | ⟨init, last, hconcat⟩
  · obtain ⟨s, hseek, hplace⟩ := hd.leads.seek behind 40
    rw [hall, hnil, append_nil, hseek] at hs
    obtain rfl := some.inj hs
    obtain ⟨d, hd'⟩ := hplace.resolve_left fun hnone => by simp [hnone] at hlast
    exact absurd hd' (hdir d)
  · rw [concat_eq_append] at hconcat
    have hgo : ∀ b, Links.spot t b env.cwd (path (env.under lrel)) =
        Links.seek t b 40 D (init ++ [last]) := by
      intro b
      rw [hall, hconcat, hd.leads.seek_append (by simp)]
    have hname : ∃ n, last = .name n := by
      by_contra hno
      rw [hgo] at hs
      rw [Links.seek_no_name (fun n hn => hno ⟨n, hn⟩) hs] at hlast
      cases hlast
    obtain ⟨n, rfl⟩ := hname
    refine ⟨init, n, fun hup => ?_, hconcat, hgo⟩
    have hz : Paths.climbs slash dot (env.rest lrel ++ lrel.drop (4094 - env.dest.length)) = false := by
      rwa [Env.rest, take_append_drop]
    obtain ⟨cs, hcs⟩ := Paths.concat_up_of_mem hz
      (show Links.Comp.up ∈ (path (env.rest lrel)).comps from hconcat ▸ mem_append_left _ hup)
    have hend := append_inj_right' (hconcat.symm.trans hcs) rfl
    cases hend

/-- No link is at the places that the target of a hard link goes by, but for the last of them. -/
def TargetClear (env : Env) (D : List Str) (t : Links.Tree Str Nat Nat) (lrel : Str) : Prop :=
  ∀ q, q ≠ [] → q <+: env.namesUnder lrel → q ≠ env.namesUnder lrel → Links.NoLink t (D ++ q)

section Target

variable {behind : Bool} {o : Links.Spot Str} (hd : Dest env t D)
  (hsafe : Paths.climbs slash dot lrel = false) (hclear : TargetClear env D t lrel)
  (hs : Links.spot t behind env.cwd (path (env.under lrel)) = some o) (hlast : o.last.isSome)
  (hdir : ∀ d, t o.place ≠ some (.dir d))

include hd hsafe hclear hs hlast hdir

theorem straight_target : ∃ init n, (path (env.rest lrel)).comps = init ++ [Links.Comp.name n] ∧
      (∀ b, Links.spot t b env.cwd (path (env.under lrel)) =
        Links.seek t b 40 D (init ++ [Links.Comp.name n])) ∧
      ∀ b, (b = true → Links.NoLink t (D ++ env.namesUnder lrel)) →
        Links.Straight t b D (init ++ [Links.Comp.name n]) := by
  obtain ⟨init, n, hup, hcomps, hgo⟩ := rest_of_spot hd hsafe hs hlast hdir
  have hnames : env.namesUnder lrel = Links.names init ++ [n] := by
    rw [Env.namesUnder, hcomps, Links.names_append]
    rfl
  refine ⟨init, n, hcomps, hgo, fun b hb => ?_⟩
  refine Links.straight_concat hup (fun q hq hpre => ?_) fun hbehind => ?_
  · refine hclear q hq ?_ fun heq => ?_
    · rw [hnames]
      exact hpre.trans (prefix_append _ _)
    · have hlen := hpre.length_le
      rw [heq, hnames, length_append, length_singleton] at hlen
      omega
  · rw [append_assoc, ← hnames]
    exact hb hbehind

theorem place_target (hend : behind = true → Links.NoLink t (D ++ env.namesUnder lrel)) :
    env.namesUnder lrel ≠ [] ∧ o.place = D ++ env.namesUnder lrel := by
  obtain ⟨init, n, hcomps, hgo, hstraight⟩ := straight_target hd hsafe hclear hs hlast hdir
  rw [hgo] at hs
  obtain ⟨-, hplace, hne⟩ := Links.seek_straight (hstraight behind hend) hs
  rw [← hcomps] at hplace hne
  exact ⟨hne hlast, hplace⟩

theorem namesUnder_ne_nil : env.namesUnder lrel ≠ [] := by
  obtain ⟨init, n, hcomps, -⟩ := straight_target hd hsafe hclear hs hlast hdir
  rw [Env.namesUnder, hcomps, Links.names_append]
  exact append_ne_nil_of_right_ne_nil _ (cons_ne_nil _ _)

end Target

/-- The target itself, if it is a link and something is read behind it. -/
theorem spot_target {o : Links.Spot Str} (hd : Dest env t D)
    (hsafe : Paths.climbs slash dot lrel = false) (hclear : TargetClear env D t lrel)
    (hs : Links.spot t true env.cwd (path (env.under lrel)) = some o) (hlast : o.last.isSome)
    (hdir : ∀ d, t o.place ≠ some (.dir d)) :
    ∃ s, Links.spot t false env.cwd (path (env.under lrel)) = some s ∧ s.last.isSome ∧
      s.place = D ++ env.namesUnder lrel := by
  obtain ⟨init, n, hcomps, hgo, hstraight⟩ := straight_target hd hsafe hclear hs hlast hdir
  have hplain := hstraight false fun h => Bool.noConfusion h
  rw [hgo] at hs
  obtain ⟨s, hs', hlast'⟩ := Links.seek_end hplain hs
  obtain ⟨-, hplace, -⟩ := Links.seek_straight hplain hs'
  rw [← hcomps] at hplace
  exact ⟨s, (hgo false).trans hs', hlast', hplace⟩

/-! ## Members -/

theorem Dest.swept (hd : Dest env w.tree D) (h : Swept D w w') : Dest env w'.tree D :=
  ⟨hd.named, hd.short, hd.leads.congr h.dirs⟩

theorem Ready.noLink {names : List Str} (h : Ready env D w p names w' E c)
    (hq : Links.NoLink w.tree (D ++ q) ∨ q <+: names) (hne : q ≠ []) :
    Links.NoLink w'.tree (D ++ q) := by
  rcases hq with hq | hpre
  · exact h.swept.noLink hq
  · have hdirs : q <+: E → Links.NoLink w'.tree (D ++ q) := by
      intro hE target htarget
      obtain ⟨d, hd⟩ := h.way.dirs q hne hE
      cases hd.symm.trans htarget
    rw [← h.names] at hpre
    cases c with
    | none => exact hdirs (by simpa [Links.names] using hpre)
    | some c =>
      cases c with
      | here | up => exact hdirs (by simpa [Links.names] using hpre)
      | name n =>
        rcases prefix_concat_iff.1 hpre with rfl | hE
        · exact (h.cleared n rfl).noLink
        · exact hdirs hE

theorem openRead_eq (h : openRead env t p = some i) :
    ∃ o, Links.spot t true env.cwd (path p) = some o ∧ o.last.isSome ∧
      t o.place = some (.file i) := by
  obtain ⟨o, hs, h⟩ := bind_eq_some_iff.1 h
  split at h
  · rename_i j hfile
    split at h
    · rename_i hlast
      obtain rfl := some.inj h
      exact ⟨o, hs, hlast, hfile⟩
    · cases h
  · cases h

theorem not_dir_of_file (h : t q = some (.file i)) (d : Nat) :
    t q ≠ some (.dir d) := fun hd => by cases h.symm.trans hd

section

variable (hd : Dest env f.world.tree D) (hsafe : Paths.climbs slash dot rel = false)
include hd hsafe

/-- A hard link, and the copy that stands in for it: either way it is a file under `dest` that is
linked or read. -/
theorem owned_makeHardlink {refused : Bool} (hlsafe : Paths.climbs slash dot lrel = false)
    (hclear : ∀ q, q ≠ [] → q <+: env.namesUnder lrel → (q = env.namesUnder lrel → refused = true) → Links.NoLink f.world.tree (D ++ q) ∨ q <+: env.namesUnder rel)
    (h : Owned D first archive f) :
    Owned D first archive (makeHardlink env f refused (env.under rel) (env.under lrel)) := by
  obtain ⟨E, c, hready⟩ := ready_makeWay hd hsafe
  rw [makeHardlink]
  dsimp only
  generalize makeWay env f.world (env.under rel) = w at hready ⊢
  have hw := h.swept hready.swept
  have hdest := hd.swept hready.swept
  have hno : ∀ q, q ≠ [] → q <+: env.namesUnder lrel →
      (q = env.namesUnder lrel → refused = true) → Links.NoLink w.tree (D ++ q) :=
    fun q hq hpre hend => hready.noLink (hclear q hq hpre hend) hq
  have htarget : TargetClear env D w.tree lrel :=
    fun q hq hpre hne => hno q hq hpre fun heq => absurd heq hne
  split
  · rename_i r hlink
    obtain ⟨s, t'⟩ := r
    split at hlink
    · cases hlink
    · obtain ⟨o, node, ho, hlast, hnode, hdir, hmake⟩ := Links.link_eq hlink
      obtain ⟨hne, hplace⟩ := place_target hdest hlsafe htarget ho hlast
        (fun d hd => hdir d (some.inj (hnode.symm.trans hd))) fun hb => Bool.noConfusion hb
      obtain ⟨n, -, rfl, -, rfl⟩ := hready.way.make_eq hmake
      refine hw.made fun i hi => ?_
      rw [hplace, hi] at hnode
      exact hw.files _ i hne hnode
  · rename_i hlink
    split
    · exact hw
    · rename_i so f' hopen
      obtain ⟨n, rfl, hopened⟩ :=
        opened_of_openWrite (f := { f with world := w }) hready.way hready.cleared hopen
      have hf' := hw.opened hopened
      split
      · rename_i si hread
        obtain ⟨o, ho, hlast, hfile⟩ := openRead_eq hread
        have hdir := not_dir_of_file hfile
        have hne := namesUnder_ne_nil hdest hlsafe htarget ho hlast hdir
        have hend : Links.NoLink w.tree (D ++ env.namesUnder lrel) := by
          cases refused with
          | true => exact hno _ hne (prefix_refl _) fun _ => rfl
          | false =>
            intro target hto
            obtain ⟨s, hs, hslast, hplace⟩ := spot_target hdest hlsafe htarget ho hlast hdir
            obtain ⟨cs, hcomps, hleads⟩ := hready.way.leads
            have hspot := spot_way hleads hcomps (hready.way.slash n rfl)
            refine Links.link_ne_none hs hslast (hplace ▸ hto) hspot rfl ?_ hlink
            rw [place_endSpot]
            exact hopened.free
        obtain ⟨-, hplace⟩ := place_target hdest hlsafe htarget ho hlast hdir fun _ => hend
        rw [hplace] at hfile
        obtain ⟨hfirst, hlt⟩ := hw.files _ si hne hfile
        have hnext := hopened.next
        exact hf'.write (hf'.contents si hfirst (by dsimp only at hlt hnext; omega))
      · exact hf'

theorem owned_makeSymlink {linkname : Str} (h : Owned D first archive f) :
    Owned D first archive (makeSymlink env f (env.under rel) linkname) := by
  obtain ⟨E, c, hready⟩ := ready_makeWay hd hsafe
  rw [makeSymlink]
  generalize makeWay env f.world (env.under rel) = w at hready ⊢
  have hw := h.swept hready.swept
  split
  · exact hw
  · cases hmade : Links.symlink w.tree env.cwd (path (env.under rel)) (path linkname) with
    | none => exact hw
    | some r =>
      obtain ⟨s, t'⟩ := r
      obtain ⟨n, -, rfl, -, rfl⟩ := hready.way.make_eq hmade
      exact hw.made fun i hi => by cases hi

theorem owned_makeRegular {k : Nat} (h : Owned D first archive f) :
    Owned D first archive (makeRegular env f (env.under rel) m (archive.drop k)).1 := by
  obtain ⟨E, c, hready⟩ := ready_makeWay hd hsafe
  rw [makeRegular]
  dsimp only
  generalize makeWay env f.world (env.under rel) = w at hready ⊢
  have hw := h.swept hready.swept
  split
  · exact hw
  · rename_i fd f' hopen
    obtain ⟨n, rfl, hopened⟩ :=
      opened_of_openWrite (f := { f with world := w }) hready.way hready.cleared hopen
    obtain ⟨hway, hfile⟩ := hopened.way hready.way
    have hwritten : ∀ len, Owned D first archive (f'.write fd ((archive.drop k).take len)) :=
      fun len => (hw.opened hopened).write ⟨k, len, rfl⟩
    split
    · exact hwritten _
    · dsimp only
      split
      · exact (hwritten _).chmod.utime hway hfile
      · exact (hwritten _).chmod

end

/-! ## Every run -/

/-- What a turn keeps: the files are from the archive, which is read on from where it was. -/
structure Sound (D : List Str) (t₀ : Links.Tree Str Nat Nat) (first : Nat) (archive : List UInt8)
    (s : Reader) : Prop where
  contained : Contained D t₀ s
  owned : Owned D first archive s.files
  reads : ∃ k, s.inn = archive.drop k

variable {s s' : Reader} {t₀ : Links.Tree Str Nat Nat} {refused : Bool}

/-- If the next turn comes to a hard link: no link is at a place that its target goes by, nor at the
target itself if the system will not make the hard link; but the way to the member is made first, so
what is on it does not count. -/
def TargetsClear (env : Env) (D : List Str) (s : Reader) (refused : Bool) : Prop :=
  ∀ m rel lrel, readHeader env.strip s.inn = .member m → m.type = 49 → m.rel = some rel →
    m.lrel = some lrel → unsafeRel rel = false → unsafeRel lrel = false →
    ∀ q, q ≠ [] → q <+: env.namesUnder lrel → (q = env.namesUnder lrel → refused = true) →
      Links.NoLink s.files.world.tree (D ++ q) ∨ q <+: env.namesUnder rel

theorem reads_skip {blocks : Nat} (h : ∃ k, s.inn = archive.drop k) :
    ∃ k, (s.skip blocks).inn = archive.drop k := by
  obtain ⟨k, hk⟩ := h
  rw [Reader.skip]
  split
  · exact ⟨k, hk⟩
  · exact ⟨k + 512 * blocks, by rw [← drop_drop, ← hk]⟩

theorem owned_take (hd : Dest env s.files.world.tree D)
    (hclear : ∀ rel lrel, m.type = 49 → m.rel = some rel → m.lrel = some lrel →
      unsafeRel rel = false → unsafeRel lrel = false →
      ∀ q, q ≠ [] → q <+: env.namesUnder lrel → (q = env.namesUnder lrel → refused = true) →
        Links.NoLink s.files.world.tree (D ++ q) ∨ q <+: env.namesUnder rel)
    (hreads : ∃ k, s.inn = archive.drop k) (h : Owned D first archive s.files) :
    Owned D first archive (s.take env refused m).files ∧
      ∃ k, (s.take env refused m).inn = archive.drop k := by
  rw [Reader.take]
  dsimp only
  split
  · rw [files_skip]
    exact ⟨h, reads_skip hreads⟩
  · rename_i rel hrel
    split
    · rw [files_skip]
      exact ⟨h, reads_skip hreads⟩
    · rename_i hunsafe
      have hrelsafe := Bool.eq_false_iff.2 hunsafe
      have hsafe := climbs_of_safe hrelsafe
      by_cases h5 : m.type = 53
      · rw [if_pos h5]
        exact ⟨h.swept (grown_makeDirectory hd hsafe), hreads⟩
      rw [if_neg h5]
      by_cases h2 : m.type = 50
      · rw [if_pos h2]
        exact ⟨owned_makeSymlink hd hsafe h, hreads⟩
      rw [if_neg h2]
      by_cases h1 : m.type = 49
      · rw [if_pos h1]
        split
        · exact ⟨h, hreads⟩
        · rename_i lrel hlrel
          split
          · exact ⟨h, hreads⟩
          · rename_i hlunsafe
            have hlsafe := Bool.eq_false_iff.2 hlunsafe
            exact ⟨owned_makeHardlink hd hsafe (climbs_of_safe hlsafe)
              (hclear rel lrel h1 hrel hlrel hrelsafe hlsafe) h, hreads⟩
      rw [if_neg h1]
      by_cases h0 : m.type = 48 ∨ m.type = 0
      · rw [if_pos h0]
        obtain ⟨k, hk⟩ := hreads
        have hregular := owned_makeRegular (m := m) (k := k) hd hsafe h
        rw [← hk] at hregular
        split
        · exact ⟨hregular, k + 512 * ((m.size + 511) / 512), by rw [← drop_drop, ← hk]⟩
        · exact ⟨hregular, k, hk⟩
      · rw [if_neg h0, files_skip]
        exact ⟨h, reads_skip hreads⟩

theorem sound_turn (hd : Dest env t₀ D) (hempty : ∀ q, q ≠ [] → t₀ (D ++ q) = none)
    (hs : Sound D t₀ first archive s) (hclear : TargetsClear env D s refused)
    (h : turn env s refused = some s') : Sound D t₀ first archive s' := by
  have hdest := hd.grown hempty hs.contained
  have hcontained := hs.contained.trans (grown_turn hdest h)
  rw [turn] at h
  split at h
  · cases h
  · split at h
    · obtain rfl := some.inj h
      exact ⟨hcontained, hs.owned, hs.reads⟩
    · rename_i m hm
      obtain rfl := some.inj h
      obtain ⟨k, hk⟩ := hs.reads
      obtain ⟨howned, hreads⟩ := owned_take (s := { s with inn := s.inn.drop 512 }) hdest
        (fun rel lrel => hclear m rel lrel hm) ⟨k + 512, by rw [← drop_drop, ← hk]⟩ hs.owned
      exact ⟨hcontained, howned, hreads⟩

/-- An empty directory with no link in its path, and inodes of which those from `next` on are
free. -/
structure Start (env : Env) (t : Links.Tree Str Nat Nat) (D : List Str) (next : Nat) : Prop
    extends Dest env t D where
  empty : ∀ q, q ≠ [] → t (D ++ q) = none
  free : ∀ p i, t p = some (.file i) → i < next

/-- What has been touched is under `dest` and was come to without a link; a regular file there has
an inode that no file had before, with contents from the archive. -/
structure Safe (D : List Str) (t₀ : Links.Tree Str Nat Nat) (archive : List UInt8) (s : Reader) :
    Prop where
  touched : s.files.world.All (Touch D)
  files : ∀ q i, q ≠ [] → s.files.world.tree (D ++ q) = some (.file i) →
    (∀ p, t₀ p ≠ some (.file i)) ∧ Piece archive (s.files.inodes i).content

/-- While the targets of hard links are clear of links, every state of a run is safe, whatever the
archive and the strip count. -/
theorem safe_of_clear (env : Env) (t₀ : Links.Tree Str Nat Nat) (D : List Str) (next : Nat)
    (hstart : Start env t₀ D next) (inodes : Nat → Inode) (archive : List UInt8)
    (refusals : List Bool) (s : Reader)
    (h : Run (turn env) (TargetsClear env D) (.start archive t₀ inodes next) refusals s) :
    Safe D t₀ archive s := by
  have hfirst : Sound D t₀ next archive (.start archive t₀ inodes next) :=
    { contained := .refl D _
      owned :=
        { next := Nat.le_refl _
          files := fun q i hq hi => by cases (hstart.empty q hq).symm.trans hi
          contents := fun i hi hlt => absurd hi (Nat.not_le.2 hlt) }
      reads := ⟨0, rfl⟩ }
  have hsound : Sound D t₀ next archive s :=
    h.invariant (fun _ _ _ hs hok hstep => sound_turn hstart.toDest hstart.empty hs hok hstep) hfirst
  refine ⟨hsound.contained.log fun _ hs => (by cases hs), fun q i hq hi => ?_⟩
  obtain ⟨hle, hlt⟩ := hsound.owned.files q i hq hi
  refine ⟨fun p hp => ?_, hsound.owned.contents i hle hlt⟩
  have := hstart.free p i hp
  omega

/-! ## Two archives -/

/-- A header of a member without contents. -/
def sampleHeader (type : UInt8) (name linkname : Str) : List UInt8 :=
  let front := name ++ List.replicate (148 - name.length) 0
  let back := type :: linkname ++ List.replicate (355 - linkname.length) 0
  let sum := ((front ++ List.replicate 8 32 ++ back).map UInt8.toNat).sum
  let digit := fun k => UInt8.ofNat (48 + sum / 8 ^ k % 8)
  front ++ [digit 5, digit 4, digit 3, digit 2, digit 1, digit 0, 0, 32] ++ back

/-- `/d`, which is empty, and `/etc/passwd`. -/
def sampleTree : Links.Tree Str Nat Nat := fun p =>
  if p = [[100]] ∨ p = [[101, 116, 99]] then some (.dir 0o755)
  else if p = [[101, 116, 99], [112, 97, 115, 115, 119, 100]] then some (.file 0)
  else none

def sampleInodes : Nat → Inode := fun _ => ⟨0o644, [1], none⟩

/-- Into `/d`, without the first component. -/
def sampleEnv : Env := ⟨[47, 100], 1, [], 0o022⟩

theorem start_sample : Start sampleEnv sampleTree [[100]] 1 where
  named := by decide
  short := by decide
  leads := by exact ⟨⟨0o755, by decide⟩, rfl⟩
  empty q hq := by
    obtain ⟨n, q, rfl⟩ := exists_cons_of_ne_nil hq
    simp [sampleTree]
  free p i hi := by
    unfold sampleTree at hi
    split at hi
    · cases hi
    · split at hi
      · cases hi
        exact Nat.one_pos
      · cases hi

/-- The file `p/a`, and the hard link `p/b` to it. -/
def fileThenHardlink : List UInt8 :=
  sampleHeader 48 [112, 47, 97] [] ++ sampleHeader 49 [112, 47, 98] [112, 47, 97]

theorem safe_of_clear_two :
    ∃ s, exec (turn sampleEnv) (.start fileThenHardlink sampleTree sampleInodes 1) [false, false] =
        some s ∧ s.files.world.tree [[100], [98]] = some (.file 1) ∧
      Safe [[100]] sampleTree fileThenHardlink s := by
  have hexec : (exec (turn sampleEnv) (.start fileThenHardlink sampleTree sampleInodes 1)
      [false, false]).map (·.files.world.tree [[100], [98]]) = some (some (.file 1)) := by
    decide +kernel
  have hfirst : readHeader 1 fileThenHardlink = .member ⟨some [97], [], none, 0, 0, 0, 48⟩ := by
    decide +kernel
  have hsecond : (turn sampleEnv (.start fileThenHardlink sampleTree sampleInodes 1) false).map
      (fun s => readHeader 1 s.inn) =
        some (.member ⟨some [98], [112, 47, 97], some [97], 0, 0, 0, 49⟩) := by
    decide +kernel
  obtain ⟨s, hs, htree⟩ := Option.map_eq_some_iff.1 hexec
  refine ⟨s, hs, htree,
    safe_of_clear sampleEnv sampleTree [[100]] 1 start_sample sampleInodes _ [false, false] s ?_⟩
  obtain ⟨s1, hstep1, hrest⟩ := bind_eq_some_iff.1 hs
  obtain ⟨s2, hstep2, hend⟩ := bind_eq_some_iff.1 hrest
  obtain rfl := some.inj hend
  refine .cons ?_ hstep1 (.cons ?_ hstep2 (.nil _))
  · intro m rel lrel hm htype
    obtain rfl := Header.member.inj (hfirst.symm.trans hm)
    cases htype
  · intro m rel lrel hm htype hrel hlrel _ _ q hq hpre hlast
    rw [hstep1] at hsecond
    obtain rfl := Header.member.inj ((some.inj hsecond).symm.trans hm)
    obtain rfl := some.inj hlrel
    have hnames : sampleEnv.namesUnder [97] = [[97]] := by decide
    rw [hnames] at hpre hlast
    rcases prefix_concat_iff.1 (show q <+: [] ++ [[97]] from hpre) with heq | hnil
    · cases hlast heq
    · exact absurd (prefix_nil.1 hnil) hq

/-- The link `p/evil` to `/etc`, and the hard link `p/x` to `p/evil/passwd`. -/
def linkThenHardlink : List UInt8 :=
  sampleHeader 50 [112, 47, 101, 118, 105, 108] [47, 101, 116, 99] ++
    sampleHeader 49 [112, 47, 120]
      [112, 47, 101, 118, 105, 108, 47, 112, 97, 115, 115, 119, 100]

theorem safe_not : ¬∀ (env : Env) (t₀ : Links.Tree Str Nat Nat) (D : List Str) (next : Nat),
      Start env t₀ D next → ∀ (inodes : Nat → Inode) (archive : List UInt8)
      (refusals : List Bool) (s : Reader),
      Run (turn env) (fun _ _ => True) (.start archive t₀ inodes next) refusals s →
      Safe D t₀ archive s := by
  intro h
  have hexec : (exec (turn sampleEnv) (.start linkThenHardlink sampleTree sampleInodes 1)
      [false, false]).map (·.files.world.tree [[100], [120]]) = some (some (.file 0)) := by
    decide +kernel
  obtain ⟨s, hs, htree⟩ := Option.map_eq_some_iff.1 hexec
  have hsafe := h sampleEnv sampleTree [[100]] 1 start_sample sampleInodes linkThenHardlink
    [false, false] s (run_of_exec hs)
  refine (hsafe.files [[120]] 0 (cons_ne_nil _ _) htree).1
    [[101, 116, 99], [112, 97, 115, 115, 119, 100]] ?_
  decide

end Verkos.Vpk.Untar
