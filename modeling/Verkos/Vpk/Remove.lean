import Verkos.Vpk.Owners
import Mathlib.Data.List.Induction

/-!
# What removing a package does

Where no link is on the way, a listed path leads where it says. Unlinking the paths that nobody else
lists then takes just these away, and removing directories only takes directories that are listed.
-/

namespace Verkos.Vpk

open Lib Vlogin
open List

attribute [local instance] Vlogin.Text.lawful

variable {fs : Fs} {p q : Path} {σ : Sys} {n m : PkgName} {pkg : Pkg}

/-! ## Paths without links -/

theorem node_below (hp : ¬fs.IsDir p) (hq : q ≠ []) : fs.node (p ++ q) = none := by
  induction q using List.reverseRec with
  | nil => exact absurd rfl hq
  | append_singleton q c ih =>
    by_contra hsome
    rw [← append_assoc] at hsome
    have hdir := Fs.node_of_child hsome
    by_cases hnil : q = []
    · rw [hnil, append_nil] at hdir
      exact hp hdir
    · rcases hdir with hroot | hnode
      · exact hnil (append_eq_nil_iff.1 hroot).2
      · have hnone := ih hnil
        rw [Fs.node, hnode] at hnone
        cases hnone

theorem walkWith_plain {go : Path → List Text → Option Path} {cur cs : Path}
    (hnames : ∀ c ∈ cs, c ≠ ['.'] ∧ c ≠ ['.', '.'])
    (hlink : ∀ q, q <+: cs → q ≠ cs → ¬IsLink fs (cur ++ q)) :
    fs.walkWith go cur cs = some (cur ++ cs) ∨
      fs.walkWith go cur cs = none ∧ fs.node (cur ++ cs) = none := by
  induction cs generalizing cur with
  | nil => exact .inl (by rw [Fs.walkWith, append_nil])
  | cons c cs ih =>
    obtain ⟨hdot, hdots⟩ := hnames c (.head _)
    rw [Fs.walkWith, if_neg hdot, if_neg hdots]
    by_cases hcs : cs = []
    · rw [if_pos hcs, hcs]
      exact .inl rfl
    · rw [if_neg hcs]
      have hsplit : cur ++ c :: cs = cur ++ [c] ++ cs := by simp
      have hroot : cur ++ [c] ≠ [] := by simp
      cases hnode : fs.node (cur ++ [c]) with
      | none =>
        refine .inr ⟨rfl, ?_⟩
        rw [hsplit]
        refine node_below (fun hdir => ?_) hcs
        rcases hdir with hnil | hdir
        · exact hroot hnil
        · rw [Fs.node, hdir] at hnode
          cases hnode
      | some node =>
        cases node with
        | dir =>
          rw [hsplit]
          refine ih (fun d hd => hnames d (.tail _ hd)) fun q hq hne => ?_
          rw [append_assoc]
          refine hlink (c :: q) (cons_prefix_cons.2 ⟨rfl, hq⟩) fun heq => ?_
          exact hne (List.cons.inj heq).2
        | file content =>
          refine .inr ⟨rfl, ?_⟩
          rw [hsplit]
          refine node_below (fun hdir => ?_) hcs
          rcases hdir with hnil | hdir
          · exact hroot hnil
          · rw [Fs.node, hdir] at hnode
            cases hnode
        | link t =>
          refine absurd ⟨t, hnode⟩ (hlink [c] (cons_prefix_cons.2 ⟨rfl, nil_prefix⟩) ?_)
          intro heq
          exact hcs (List.cons.inj heq).2.symm

/-- No link is on the way to a path. -/
def Straight (fs : Fs) (p : Path) : Prop := ∀ q, q <+: p → q ≠ p → ¬IsLink fs q

theorem locate_plain (hp : Proper p) (hs : Straight fs p) : fs.locate ('/' :: relText p) = some p ∨
      fs.locate ('/' :: relText p) = none ∧ fs.node p = none := by
  have hcomps : Fs.comps ('/' :: relText p) = p := by rw [comps_slash, comps_relText hp]
  have hwalk := @walkWith_plain fs (fs.follow 39) [] p (fun c hc => (hp.2 c hc).2.2) hs
  rw [Fs.locate, hcomps]
  exact hwalk

/-! ## Unlinking and removing directories -/

theorem node_unlink (hp : Proper p) (hs : Straight fs p) : (fs.unlink ('/' :: relText p)).node q =
      if q = p ∧ fs.node p ≠ some .dir then none else fs.node q := by
  rcases locate_plain hp hs with hlocate | ⟨hlocate, hnone⟩
  · rw [Fs.unlink, hlocate]
    dsimp only
    split_ifs with hdir hq hq
    · rw [Fs.node_erase, if_pos hq.1]
    · rw [Fs.node_erase, if_neg fun heq => hq ⟨heq, hdir.2⟩]
    · exact absurd ⟨hp.1, hq.2⟩ hdir
    · rfl
  · rw [Fs.unlink, hlocate]
    split_ifs with hq
    · rw [hq.1]
      exact hnone
    · rfl

theorem Straight.mono {fs' : Fs} (h : Straight fs p)
    (hmono : ∀ q, IsLink fs' q → IsLink fs q) : Straight fs' p :=
  fun q hq hne hlink => h q hq hne (hmono q hlink)

theorem node_unlinkAll {ps : List Path} (hps : ∀ p ∈ ps, Proper p ∧ Straight fs p) :
    (ps.foldl (fun fs p => fs.unlink ('/' :: relText p)) fs).node q =
      if q ∈ ps ∧ fs.node q ≠ some .dir then none else fs.node q := by
  induction ps generalizing fs with
  | nil => exact (if_neg fun h => not_mem_nil h.1).symm
  | cons p ps ih =>
    obtain ⟨hp, hs⟩ := hps p (.head _)
    have hnode : ∀ r, (fs.unlink ('/' :: relText p)).node r =
        if r = p ∧ fs.node p ≠ some .dir then none else fs.node r := fun r => node_unlink hp hs
    have hlinks : ∀ r, IsLink (fs.unlink ('/' :: relText p)) r → IsLink fs r := by
      rintro r ⟨t, ht⟩
      rw [hnode] at ht
      split_ifs at ht
      exact ⟨t, ht⟩
    rw [foldl_cons, ih fun r hr => ⟨(hps r (.tail _ hr)).1, (hps r (.tail _ hr)).2.mono hlinks⟩,
      hnode]
    by_cases hq : q = p
    · subst hq
      by_cases hdir : fs.node q = some .dir
      · have hstays : ¬(q = q ∧ fs.node q ≠ some .dir) := fun h => h.2 hdir
        rw [if_neg hstays, if_neg fun h => h.2 hdir, if_neg fun h => h.2 hdir]
      · have hmem : q ∈ q :: ps ∧ fs.node q ≠ some .dir := ⟨.head _, hdir⟩
        have hsame : q = q ∧ fs.node q ≠ some .dir := ⟨rfl, hdir⟩
        rw [if_pos hmem, if_pos hsame]
        split_ifs <;> rfl
    · have hsame : ¬(q = p ∧ fs.node p ≠ some .dir) := fun h => hq h.1
      have hmem : q ∈ p :: ps ↔ q ∈ ps := by rw [mem_cons, or_iff_right hq]
      rw [if_neg hsame]
      simp only [hmem]

theorem node_rmdir (hp : Proper p) (hs : Straight fs p) :
    (fs.rmdir ('/' :: relText p)).node q = fs.node q ∨
      q = p ∧ fs.node q = some .dir ∧ (fs.rmdir ('/' :: relText p)).node q = none := by
  rcases locate_plain hp hs with hlocate | ⟨hlocate, -⟩
  · rw [Fs.rmdir, hlocate]
    dsimp only
    split_ifs with hdir
    · rw [Fs.node_erase]
      split_ifs with hq
      · exact .inr ⟨hq, hq ▸ hdir.1, rfl⟩
      · exact .inl rfl
    · exact .inl rfl
  · rw [Fs.rmdir, hlocate]
    exact .inl rfl

theorem node_rmdirAll {ps : List Path} (hps : ∀ p ∈ ps, Proper p ∧ Straight fs p) :
    (ps.foldl (fun fs p => fs.rmdir ('/' :: relText p)) fs).node q = fs.node q ∨
      q ∈ ps ∧ fs.node q = some .dir ∧
        (ps.foldl (fun fs p => fs.rmdir ('/' :: relText p)) fs).node q = none := by
  induction ps generalizing fs with
  | nil => exact .inl rfl
  | cons p ps ih =>
    obtain ⟨hp, hs⟩ := hps p (.head _)
    have hnode := fun r => @node_rmdir fs p r hp hs
    have hlinks : ∀ r, IsLink (fs.rmdir ('/' :: relText p)) r → IsLink fs r := by
      rintro r ⟨t, ht⟩
      rcases hnode r with hsame | ⟨-, -, hnone⟩
      · rw [hsame] at ht
        exact ⟨t, ht⟩
      · rw [hnone] at ht
        cases ht
    rw [foldl_cons]
    rcases ih fun r hr => ⟨(hps r (.tail _ hr)).1, (hps r (.tail _ hr)).2.mono hlinks⟩ with
      hrest | ⟨hmem, hdir, hnone⟩
    · rcases hnode q with hsame | ⟨hq, hdir, hnone⟩
      · exact .inl (hrest.trans hsame)
      · exact .inr ⟨hq ▸ .head _, hdir, hrest.trans hnone⟩
    · refine .inr ⟨.tail _ hmem, ?_, hnone⟩
      rcases hnode q with hsame | ⟨-, hdir', -⟩
      · rw [← hsame]
        exact hdir
      · exact hdir'

/-! ## The database -/

theorem Sys.Tidy.pkg_iff (h : σ.Tidy) : σ.pkg n = some pkg ↔ (n, pkg) ∈ σ.db := by
  have hnodup := h.nodup
  clear h
  rw [Sys.pkg]
  generalize σ.db = db at hnodup ⊢
  induction db with
  | nil => exact ⟨nofun, nofun⟩
  | cons e db ih =>
    obtain ⟨hnew, hnodup⟩ := nodup_cons.1 hnodup
    by_cases he : e.1 = n
    · rw [find?_cons_of_pos (by simpa using he)]
      constructor
      · rintro hsome
        obtain rfl : e.2 = pkg := Option.some.inj hsome
        exact he ▸ mem_cons_self
      · intro hmem
        rcases mem_cons.1 hmem with rfl | hmem
        · rfl
        · exact absurd (mem_map.2 ⟨_, hmem, he.symm⟩) hnew
    · rw [find?_cons_of_neg (by simpa using he)]
      refine (ih hnodup).trans ⟨.tail _, fun hmem => (mem_cons.1 hmem).resolve_left ?_⟩
      rintro rfl
      exact he rfl

theorem Sys.Tidy.listing_of (h : σ.Tidy) (hpkg : σ.pkg n = some pkg) :
    ∃ ls, Listing pkg.files ls := h.listing _ (h.pkg_iff.1 hpkg)

theorem mem_ownedByOthers (h : σ.Tidy) (hp : Proper p) : relText p ∈ ownedByOthers σ.db n ↔
    ∃ m other, m ≠ n ∧ σ.pkg m = some other ∧ lists other.files 'f' p := by
  rw [ownedByOthers, mem_flatMap]
  constructor
  · rintro ⟨e, he, hmem⟩
    obtain ⟨he, hne⟩ := mem_filter.1 he
    obtain ⟨ls, hls⟩ := h.listing e he
    rw [hls.owned] at hmem
    obtain ⟨l, hl, hrel⟩ := mem_map.1 hmem
    obtain ⟨hl, hkind⟩ := mem_filter.1 hl
    have hsame : l.2 = p := by rw [← comps_relText (hls.proper l hl), hrel, comps_relText hp]
    refine ⟨e.1, e.2, (of_decide_eq_true hne).2, h.pkg_iff.2 he, hls.lists_iff.2 ?_⟩
    rw [← hsame, ← of_decide_eq_true hkind]
    exact hl
  · rintro ⟨m, other, hne, hpkg, hlists⟩
    have he := h.pkg_iff.1 hpkg
    obtain ⟨ls, hls⟩ := h.listing _ he
    refine ⟨_, mem_filter.2 ⟨he, decide_eq_true ⟨h.visible _ he, hne⟩⟩, ?_⟩
    rw [hls.owned]
    exact mem_map.2 ⟨_, mem_filter.2 ⟨hls.lists_iff.1 hlists, decide_eq_true rfl⟩, rfl⟩

/-! ## `cmd_remove` -/

/-- What `cmd_remove` unlinks, and the directories it removes. -/
def unlinked (others : List Text) (ls : List (Char × Path)) : List Path :=
  (ls.filter fun l => l.1 = 'f' ∧ relText l.2 ∉ others).map (·.2)

def rmdirs (ls : List (Char × Path)) : List Path := ((ls.filter (·.1 = 'd')).take 4096).map (·.2)

theorem removeFiles_eq (others : List Text) (ls : List (Char × Path)) (fs : Fs) :
    removeFiles others (ls.map fun l => (l.1, relText l.2)) fs =
      (unlinked others ls).foldl (fun fs p => fs.unlink ('/' :: relText p)) fs := by
  rw [removeFiles, unlinked, filter_map, foldl_map, foldl_map]
  rfl

theorem collectedDirs_eq {ls : List (Char × Path)}
    (hshort : ∀ l ∈ ls, l.1 = 'd' → (relText l.2).length + 1 < 256) :
    collectedDirs (ls.map fun l => (l.1, relText l.2)) =
      (rmdirs ls).map fun p => '/' :: relText p := by
  rw [collectedDirs, rmdirs, filter_map, ← map_take, map_map, map_map]
  apply map_congr_left
  intro l hl
  obtain ⟨hl, hkind⟩ := mem_filter.1 (mem_of_mem_take hl)
  have hlen := hshort l hl (of_decide_eq_true hkind)
  have hfits : ('/' :: relText l.2).length ≤ 255 := by
    rw [length_cons]
    omega
  exact take_of_length_le hfits

theorem cmdRemove_removed (h : σ.Tidy) (hpkg : σ.pkg n = some pkg) (hbase : pkg.base = false)
    (hok : Removable σ.fs pkg.files) : Removed σ (cmdRemove σ n) n pkg := by
  obtain ⟨ls, hls⟩ := h.listing_of hpkg
  have hstraight : ∀ l ∈ ls, Proper l.2 ∧ Straight σ.fs l.2 := fun l hl =>
    ⟨hls.proper l hl, hok.noLink l.1 l.2 (hls.lists_iff.2 hl)⟩
  have hremove : (cmdRemove σ n).fs = (rmdirs ls).reverse.foldl
      (fun fs p => fs.rmdir ('/' :: relText p))
      ((unlinked (ownedByOthers σ.db n) ls).foldl (fun fs p => fs.unlink ('/' :: relText p)) σ.fs) := by
    have hshort : ∀ l ∈ ls, l.1 = 'd' → (relText l.2).length + 1 < 256 := by
      intro l hl hkind
      refine hok.short l.2 (hls.lists_iff.2 ?_)
      rw [← hkind]
      exact hl
    rw [cmdRemove, hpkg]
    simp only [hbase, Bool.false_eq_true, if_false]
    rw [hls.lines, removeFiles_eq, collectedDirs_eq hshort, ← map_reverse, foldl_map]
  have hunlinked : ∀ p ∈ unlinked (ownedByOthers σ.db n) ls, Proper p ∧ Straight σ.fs p := by
    intro p hp
    obtain ⟨l, hl, rfl⟩ := mem_map.1 hp
    exact hstraight l (mem_of_mem_filter hl)
  have hfiles := fun q => @node_unlinkAll σ.fs q _ hunlinked
  generalize hfs1 : (unlinked (ownedByOthers σ.db n) ls).foldl
    (fun fs p => fs.unlink ('/' :: relText p)) σ.fs = fs1 at hremove hfiles
  have hlinks : ∀ q, IsLink fs1 q → IsLink σ.fs q := by
    rintro q ⟨t, ht⟩
    rw [hfiles] at ht
    split_ifs at ht
    exact ⟨t, ht⟩
  have hrmdirs : ∀ p ∈ (rmdirs ls).reverse, Proper p ∧ Straight fs1 p := by
    intro p hp
    obtain ⟨l, hl, rfl⟩ := mem_map.1 (mem_reverse.1 hp)
    have hl := hstraight l (mem_of_mem_filter (mem_of_mem_take hl))
    exact ⟨hl.1, hl.2.mono hlinks⟩
  have hdirs := fun q => @node_rmdirAll fs1 q _ hrmdirs
  rw [← hremove] at hdirs
  -- a listed path that nobody else lists is unlinked
  have hmem : ∀ p, p ∈ unlinked (ownedByOthers σ.db n) ls ↔ lists pkg.files 'f' p ∧
      ∀ m other, m ≠ n → σ.pkg m = some other → ¬lists other.files 'f' p := by
    intro p
    rw [hls.lists_iff]
    constructor
    · intro hp
      obtain ⟨l, hl, rfl⟩ := mem_map.1 hp
      obtain ⟨hl, hcond⟩ := mem_filter.1 hl
      obtain ⟨hkind, hnot⟩ := of_decide_eq_true hcond
      refine ⟨hkind ▸ hl, fun m other hne hm hother => hnot ?_⟩
      exact (mem_ownedByOthers h (hls.proper l hl)).2 ⟨m, other, hne, hm, hother⟩
    · rintro ⟨hl, hnot⟩
      refine mem_map.2 ⟨_, mem_filter.2 ⟨hl, decide_eq_true ⟨rfl, fun howned => ?_⟩⟩, rfl⟩
      obtain ⟨m, other, hne, hm, hother⟩ := (mem_ownedByOthers h (hls.proper _ hl)).1 howned
      exact hnot m other hne hm hother
  constructor
  · intro p hp
    obtain ⟨hsome, hnotDir⟩ := of_decide_eq_true hp
    rw [← hmem]
    have hnode := hfiles p
    constructor
    · intro hgone
      by_contra hnot
      rw [if_neg fun hand => hnot hand.1] at hnode
      rcases hdirs p with hsame | ⟨-, hdir, -⟩
      · exact hsome (hnode.symm.trans (hsame.symm.trans hgone))
      · exact hnotDir (hnode.symm.trans hdir)
    · intro hin
      rw [if_pos ⟨hin, hnotDir⟩] at hnode
      rcases hdirs p with hsame | ⟨-, -, hnone⟩
      · exact hsame.trans hnode
      · exact hnone
  · intro p hdir hgone
    constructor
    · have hnode := hfiles p
      rw [if_neg fun hand => hand.2 hdir] at hnode
      rcases hdirs p with hsame | ⟨hin, -, -⟩
      · rw [hsame, hnode, hdir] at hgone
        cases hgone
      · obtain ⟨l, hl, rfl⟩ := mem_map.1 (mem_reverse.1 hin)
        obtain ⟨hl, hkind⟩ := mem_filter.1 (mem_of_mem_take hl)
        refine hls.lists_iff.2 ?_
        rw [← of_decide_eq_true hkind]
        exact hl
    · have hroot : p ≠ [] := (σ.fs.closed p (by rw [← Fs.node, hdir]; rintro ⟨⟩)).1
      refine Fs.no_child (fun heq => ?_) hroot
      rw [heq] at hgone
      cases hgone
  · intro p hstays
    rcases hdirs p with hsame | ⟨-, -, hnone⟩
    · have hnode := hfiles p
      split_ifs at hnode with hand
      · rw [hsame, hnode] at hstays
        exact absurd rfl hstays
      · exact hsame.trans hnode
    · exact absurd hnone hstays

end Verkos.Vpk
