import Verkos.Vpk.Untar

/-!
# What unpacking makes, and where

Whatever the archive, nothing is made, replaced or stamped but under `dest`, and no link is followed
on the way: `mkparents_nofollow` leaves directories only (`way_mkparents`). What a hard link is made
to is another matter: its path is checked as it is written, and may lead through a link that a
member before it has made.
-/

namespace Verkos.Vpk.Untar

open Lib
open List
open Function

variable {env : Env} {D E : List Str} {w w' : Links.World Str Nat Nat} {t : Links.Tree Str Nat Nat}
  {p : Str} {c : Option (Links.Comp Str)}

/-- Under the directory, and not through a link. -/
def Touch (D : List Str) (s : Links.Spot Str) : Prop := Links.Below D s ∧ s.direct = true

/-- Something else may be under the directory, and nothing but that has been touched. -/
structure Grown (D : List Str) (w w' : Links.World Str Nat Nat) : Prop where
  log : w.All (Touch D) → w'.All (Touch D)
  outside : ∀ p, (∀ q, q ≠ [] → p ≠ D ++ q) → w'.tree p = w.tree p

/-- No more than that there are directories, and something is gone. -/
structure Swept (D : List Str) (w w' : Links.World Str Nat Nat) : Prop extends Grown D w w' where
  dirs : ∀ p d, w.tree p = some (.dir d) → w'.tree p = some (.dir d)
  less : ∀ p, w'.tree p = w.tree p ∨ w'.tree p = none ∨ ∃ d, w'.tree p = some (.dir d)

theorem Grown.refl (D : List Str) (w : Links.World Str Nat Nat) : Grown D w w :=
  ⟨id, fun _ _ => rfl⟩

theorem Grown.trans {w'' : Links.World Str Nat Nat} (h : Grown D w w') (h' : Grown D w' w'') :
    Grown D w w'' :=
  ⟨h'.log ∘ h.log, fun p hp => (h'.outside p hp).trans (h.outside p hp)⟩

theorem Swept.refl (D : List Str) (w : Links.World Str Nat Nat) : Swept D w w :=
  ⟨.refl D w, fun _ _ => id, fun _ => .inl rfl⟩

theorem Swept.trans {w'' : Links.World Str Nat Nat} (h : Swept D w w') (h' : Swept D w' w'') :
    Swept D w w'' where
  toGrown := h.toGrown.trans h'.toGrown
  dirs p d hp := h'.dirs p d (h.dirs p d hp)
  less p := by
    rcases h'.less p with heq | hrest
    · rw [heq]
      exact h.less p
    · exact .inr hrest

/-- A call that touches a place under the directory, and changes nothing else. -/
theorem grown_after {s : Links.Spot Str} {o : Option (Links.Node Str Nat Nat)} (hs : Touch D s) :
    Grown D w (w.after (some (s, update w.tree s.place o))) where
  log := Links.World.all_after fun s' t' heq => by
    obtain ⟨rfl, -⟩ := Prod.mk.inj (Option.some.inj heq)
    exact hs
  outside p hp := by
    obtain ⟨⟨q, hq, hplace⟩, -⟩ := hs
    exact update_of_ne (fun heq => hp q hq (heq.trans hplace)) _ _

theorem swept_after {s : Links.Spot Str} {o : Option (Links.Node Str Nat Nat)} (hs : Touch D s)
    (hold : ∀ d, w.tree s.place ≠ some (.dir d)) (ho : o = none ∨ ∃ d, o = some (.dir d)) :
    Swept D w (w.after (some (s, update w.tree s.place o))) where
  toGrown := grown_after hs
  dirs p d hp := by
    have hne : p ≠ s.place := by
      rintro rfl
      exact hold d hp
    exact (update_of_ne hne _ _).trans hp
  less p := by
    by_cases hp : p = s.place
    · have hself : (w.after (some (s, update w.tree s.place o))).tree p = o := by
        rw [hp]
        exact update_self _ _ _
      rw [hself]
      exact .inr ho
    · exact .inl (update_of_ne hp _ _)

theorem Swept.noLink (h : Swept D w w') {p : List Str} (hp : Links.NoLink w.tree p) :
    Links.NoLink w'.tree p := by
  intro target htarget
  rcases h.less p with heq | heq | ⟨d, heq⟩
  · exact hp target (heq.symm.trans htarget)
  · cases heq.symm.trans htarget
  · cases heq.symm.trans htarget

/-! ## The way to a member -/

/-- A path by what is in front of its last piece, which leads to somewhere under the directory
through directories only, and by that piece. -/
structure Way (env : Env) (D : List Str) (t : Links.Tree Str Nat Nat) (p : Str) (E : List Str)
    (c : Option (Links.Comp Str)) : Prop where
  leads : ∃ cs, (path p).comps = cs ++ c.toList ∧
    Links.Leads t ((path p).base env.cwd) cs (D ++ E)
  dirs : ∀ q, q ≠ [] → q <+: E → ∃ d, t (D ++ q) = some (.dir d)
  slash : ∀ n, c = some (.name n) → (path p).slash = false

/-- The spot of a name at the end of a way. -/
def endSpot (D E : List Str) (n : Str) : Links.Spot Str := ⟨D ++ E, some n, true⟩

theorem touch_endSpot (D E : List Str) (n : Str) : Touch D (endSpot D E n) :=
  ⟨⟨E ++ [n], by simp, by simp [endSpot, Links.Spot.place]⟩, rfl⟩

theorem place_endSpot (D E : List Str) (n : Str) : (endSpot D E n).place = D ++ (E ++ [n]) := by
  simp [endSpot, Links.Spot.place]

theorem mkparent_leads {e : List Str}
    (h : Links.Leads w.tree ((path p).base env.cwd) (path p).comps e) : mkparent env w p = w := by
  have hall : Links.Leads w.tree ((path p).base env.cwd) (path p).all e := by
    rw [Links.Route.all, Links.leads_append]
    refine ⟨e, h, ?_⟩
    split <;> rfl
  obtain ⟨s, hs, hplace⟩ := hall.seek false 40
  rw [mkparent, show Links.spot w.tree false env.cwd (path p) = some s from hs]
  dsimp only
  split
  · rfl
  · rename_i hlast
    obtain ⟨d, hd⟩ := hplace.resolve_left hlast
    rw [hd]

section Name

variable {cs : List (Links.Comp Str)} {n : Str}

theorem seek_way (hleads : Links.Leads t ((path p).base env.cwd) cs (D ++ E))
    (hcomps : (path p).comps = cs ++ [Links.Comp.name n]) :
    Links.seek t false 40 ((path p).base env.cwd) (path p).comps = some (endSpot D E n) := by
  rw [hcomps, hleads.seek_append (cons_ne_nil _ _)]
  exact Links.seek_name fun h => Bool.noConfusion h

theorem spot_way (hleads : Links.Leads t ((path p).base env.cwd) cs (D ++ E))
    (hcomps : (path p).comps = cs ++ [Links.Comp.name n]) (hslash : (path p).slash = false) :
    Links.spot t false env.cwd (path p) = some (endSpot D E n) := by
  rw [Links.spot, Links.Route.all, hslash, if_neg Bool.false_ne_true, append_nil]
  exact seek_way hleads hcomps

theorem mkdir_way {mode : Nat} (hleads : Links.Leads w.tree ((path p).base env.cwd) cs (D ++ E))
    (hcomps : (path p).comps = cs ++ [Links.Comp.name n]) (hnone : w.tree (D ++ (E ++ [n])) = none) :
    env.mkdir w p mode = w.after (some (endSpot D E n, update w.tree (endSpot D E n).place
      (some (.dir (Nat.ldiff mode env.umask))))) := by
  rw [Env.mkdir, Links.mkdir, seek_way hleads hcomps, Links.make, Option.bind_some,
    if_pos ⟨rfl, by rw [place_endSpot, hnone]; rfl⟩]

theorem unlink_way (hleads : Links.Leads w.tree ((path p).base env.cwd) cs (D ++ E))
    (hcomps : (path p).comps = cs ++ [Links.Comp.name n]) (hslash : (path p).slash = false)
    (hsome : w.tree (D ++ (E ++ [n])) ≠ none)
    (hdir : ∀ d, w.tree (D ++ (E ++ [n])) ≠ some (.dir d)) :
    env.unlink w p = w.after (some (endSpot D E n, update w.tree (endSpot D E n).place none)) := by
  rw [Env.unlink, Links.unlink, spot_way hleads hcomps hslash, Option.bind_some]
  rw [← place_endSpot] at hsome hdir
  split
  · rename_i d hd
    exact absurd hd (hdir d)
  · rename_i hnone
    exact absurd hnone hsome
  all_goals exact congrArg _ (if_pos rfl)

/-- A name on the way is that of a directory afterwards. -/
theorem mkparent_name (hleads : Links.Leads w.tree ((path p).base env.cwd) cs (D ++ E))
    (hcomps : (path p).comps = cs ++ [Links.Comp.name n]) (hslash : (path p).slash = false) :
    Swept D w (mkparent env w p) ∧
      ∃ d, (mkparent env w p).tree (D ++ (E ++ [n])) = some (.dir d) := by
  have hplace := place_endSpot D E n
  have htouch := touch_endSpot D E n
  have hmade : ∀ w', Links.Leads w'.tree ((path p).base env.cwd) cs (D ++ E) →
      w'.tree (D ++ (E ++ [n])) = none → Swept D w' (env.mkdir w' p 0o755) ∧
        ∃ d, (env.mkdir w' p 0o755).tree (D ++ (E ++ [n])) = some (.dir d) := by
    intro w' hleads' hnone
    rw [mkdir_way hleads' hcomps hnone]
    refine ⟨swept_after htouch (fun d hd => ?_) (.inr ⟨_, rfl⟩), Nat.ldiff 0o755 env.umask, ?_⟩
    · rw [hplace, hnone] at hd
      cases hd
    · rw [← hplace]
      exact update_self _ _ _
  have hgone : w.tree (D ++ (E ++ [n])) ≠ none → (∀ d, w.tree (D ++ (E ++ [n])) ≠ some (.dir d)) →
      Swept D w (env.mkdir (env.unlink w p) p 0o755) ∧
        ∃ d, (env.mkdir (env.unlink w p) p 0o755).tree (D ++ (E ++ [n])) = some (.dir d) := by
    intro hsome hdir
    have hswept : Swept D w (env.unlink w p) := by
      rw [unlink_way hleads hcomps hslash hsome hdir]
      exact swept_after htouch (by rwa [hplace]) (.inl rfl)
    have hnone : (env.unlink w p).tree (D ++ (E ++ [n])) = none := by
      rw [unlink_way hleads hcomps hslash hsome hdir, ← hplace]
      exact update_self _ _ _
    obtain ⟨hmkdir, hd⟩ := hmade _ (hleads.congr hswept.dirs) hnone
    exact ⟨hswept.trans hmkdir, hd⟩
  rw [mkparent, spot_way hleads hcomps hslash]
  dsimp only
  rw [if_neg (show ¬(endSpot D E n).last = none from fun h => by cases h), hplace]
  split
  · rename_i d hd
    exact ⟨.refl D w, d, hd⟩
  · rename_i i hi
    exact hgone (by rw [hi]; simp) (by rw [hi]; simp)
  · rename_i target htarget
    exact hgone (by rw [htarget]; simp) (by rw [htarget]; simp)
  · rename_i hnone
    exact hmade w hleads hnone

end Name

theorem base_append {q x : Str} (hq : q ≠ []) :
    (path (q ++ x)).base env.cwd = (path q).base env.cwd := by
  obtain ⟨a, q, rfl⟩ := exists_cons_of_ne_nil hq
  rfl

/-- What is behind `q` adds to what `q` goes by. -/
def Cut (q : Str) : Prop := ∀ x, (path (q ++ x)).comps = (path q).comps ++ (path x).comps

theorem comps_slash_end (q : Str) : (path (q ++ [slash])).comps = (path q).comps := by
  change Paths.comps slash dot _ = Paths.comps slash dot q
  rw [Paths.comps_append]
  exact append_nil _

theorem cut_slash (q : Str) : Cut (q ++ [slash]) := by
  intro x
  rw [comps_slash_end, append_assoc]
  exact Paths.comps_append q x

theorem comps_of_notMem {piece : Str} (h : slash ∉ piece) :
    (path piece).comps = (Paths.comp dot piece).toList := Paths.comps_piece h

theorem slash_of_name {q piece n : Str} (h : slash ∉ piece) (hn : Paths.comp dot piece = some (.name n)) :
    (path (q ++ piece)).slash = false := by
  have hne : piece ≠ [] := by
    rintro rfl
    cases hn
  have hlast : (q ++ piece).getLast? ≠ some slash := by
    rw [getLast?_append_of_ne_nil _ hne]
    exact fun heq => h (mem_of_getLast? heq)
  simpa [path, Paths.route] using hlast

/-- Directories under the directory, as far as some names go. -/
def Dirs (D : List Str) (t : Links.Tree Str Nat Nat) (E : List Str) : Prop :=
  ∀ q, q ≠ [] → q <+: E → ∃ d, t (D ++ q) = some (.dir d)

theorem Dirs.concat {n : Str} (h : Dirs D t E) (hn : ∃ d, t (D ++ (E ++ [n])) = some (.dir d)) :
    Dirs D t (E ++ [n]) := by
  intro q hq hpre
  rcases prefix_concat_iff.1 hpre with rfl | hpre
  · exact hn
  · exact h q hq hpre

/-- The loop over the slashes has made the way to a path, which goes by some names. -/
structure Made (env : Env) (D : List Str) (w : Links.World Str Nat Nat) (p : Str)
    (names : List Str) (w' : Links.World Str Nat Nat) : Prop where
  swept : Swept D w w'
  way : ∃ E c, Way env D w'.tree p E c ∧ E ++ Links.names c.toList = names

/-- One slash: what is in front of it leads on. -/
theorem mkparent_piece {q piece : Str} (hq : q ≠ []) (hcut : Cut q) (hpiece : slash ∉ piece)
    (hup : piece ≠ [dot, dot])
    (hleads : Links.Leads w.tree ((path q).base env.cwd) (path q).comps (D ++ E))
    (hdirs : Dirs D w.tree E) : Swept D w (mkparent env w (q ++ piece)) ∧
      Links.Leads (mkparent env w (q ++ piece)).tree ((path (q ++ piece)).base env.cwd)
        (path (q ++ piece)).comps (D ++ (E ++ Links.names (path piece).comps)) ∧
      Dirs D (mkparent env w (q ++ piece)).tree (E ++ Links.names (path piece).comps) := by
  have hbase : (path (q ++ piece)).base env.cwd = (path q).base env.cwd := base_append hq
  have hcomps := hcut piece
  rw [comps_of_notMem hpiece] at hcomps ⊢
  have hsame : ∀ c : Option (Links.Comp Str), Paths.comp dot piece = c → Links.names c.toList = [] →
      (∀ e, Links.Leads w.tree e c.toList e) →
      Swept D w (mkparent env w (q ++ piece)) ∧
      Links.Leads (mkparent env w (q ++ piece)).tree ((path (q ++ piece)).base env.cwd)
        (path (q ++ piece)).comps (D ++ (E ++ Links.names c.toList)) ∧
      Dirs D (mkparent env w (q ++ piece)).tree (E ++ Links.names c.toList) := by
    intro c hc hnames hstay
    have hleads' : Links.Leads w.tree ((path (q ++ piece)).base env.cwd) (path (q ++ piece)).comps
        (D ++ E) := by
      rw [hbase, hcomps, hc, Links.leads_append]
      exact ⟨D ++ E, hleads, hstay _⟩
    rw [mkparent_leads hleads', hnames, append_nil]
    exact ⟨.refl D w, hleads', hdirs⟩
  cases hc : Paths.comp dot piece with
  | none => exact hsame none hc rfl fun _ => rfl
  | some c =>
    cases c with
    | here => exact hsame (some .here) hc rfl fun _ => rfl
    | up => exact absurd (Paths.comp_eq_up.1 hc) hup
    | name n =>
      rw [hc] at hcomps
      rw [← hbase] at hleads
      obtain ⟨hswept, hdir⟩ := mkparent_name hleads hcomps (slash_of_name hpiece hc)
      refine ⟨hswept, ?_, ?_⟩
      · rw [hcomps, Links.leads_append]
        refine ⟨D ++ E, hleads.congr hswept.dirs, ?_⟩
        rw [← append_assoc] at hdir
        exact ⟨by simpa using hdir, by simp [Links.Leads, Links.names]⟩
      · refine Dirs.concat (fun r hr hpre => ?_) hdir
        obtain ⟨d, hd⟩ := hdirs r hr hpre
        exact ⟨d, hswept.dirs _ d hd⟩

/-- Behind what leads under the directory, the rest of a path that does not climb is made a way. -/
theorem way_fronts {rest q piece : Str} (hq : q ≠ []) (hcut : Cut q) (hpiece : slash ∉ piece)
    (hclimbs : ∃ z, Paths.climbs slash dot (piece ++ rest ++ z) = false)
    (hleads : Links.Leads w.tree ((path q).base env.cwd) (path q).comps (D ++ E))
    (hdirs : Dirs D w.tree E) :
    Made env D w (q ++ piece ++ rest) (E ++ Links.names (path (piece ++ rest)).comps)
      ((Paths.fronts slash (q ++ piece) rest).foldl (mkparent env) w) := by
  induction rest generalizing q piece w E with
  | nil =>
    refine ⟨.refl D w, E, Paths.comp dot piece, ⟨⟨(path q).comps, ?_, ?_⟩, hdirs, ?_⟩, ?_⟩
    · rw [append_nil, ← comps_of_notMem hpiece]
      exact hcut piece
    · rwa [append_nil, base_append hq]
    · intro n hn
      rw [append_nil]
      exact slash_of_name hpiece hn
    · rw [append_nil, comps_of_notMem hpiece]
  | cons b rest ih =>
    obtain ⟨z, hz⟩ := hclimbs
    by_cases hb : b = slash
    · subst hb
      rw [append_assoc, cons_append, Paths.climbs_append, Bool.or_eq_false_iff] at hz
      have hup : piece ≠ [dot, dot] := by
        rintro rfl
        exact absurd hz.1 (by decide)
      obtain ⟨hswept, hleads', hdirs'⟩ := mkparent_piece hq hcut hpiece hup hleads hdirs
      have hne : q ++ piece ≠ [] := fun h => hq (append_eq_nil_iff.1 h).1
      have hih := @ih (E ++ Links.names (path piece).comps) (mkparent env w (q ++ piece))
        (q ++ piece ++ [slash]) [] (by simp) (cut_slash _) not_mem_nil ⟨z, hz.2⟩
        (by rwa [base_append hne, comps_slash_end]) hdirs'
      rw [append_nil] at hih
      obtain ⟨hrest, E', c, hway, hE'⟩ := hih
      rw [Paths.fronts, if_pos rfl, foldl_cons]
      refine ⟨hswept.trans hrest, E', c, by simpa using hway, ?_⟩
      rw [hE', show (path (piece ++ slash :: rest)).comps = (path piece).comps ++ (path rest).comps
        from Paths.comps_append piece rest, Links.names_append, append_assoc]
      rfl
    · have hih := @ih E w q (piece ++ [b]) hq hcut (by simpa using ⟨hpiece, Ne.symm hb⟩)
        ⟨z, by simpa using hz⟩ hleads hdirs
      rw [Paths.fronts, if_neg hb]
      simpa using hih

/-! ## Paths under the destination -/

/-- As much of a member's path as there is room for behind `dest`. -/
def Env.rest (env : Env) (rel : Str) : Str := rel.take (4094 - env.dest.length)

/-- The names under `dest` that a member's path goes by. -/
def Env.namesUnder (env : Env) (rel : Str) : List Str := Links.names (path (env.rest rel)).comps

/-- `dest` leads to `D`, and there is no link in it. -/
structure Dest (env : Env) (t : Links.Tree Str Nat Nat) (D : List Str) : Prop where
  named : env.dest ≠ []
  short : env.dest.length < 4096
  leads : Links.Leads t ((path env.dest).base env.cwd) (path env.dest).comps D

theorem under_eq (h : env.dest.length < 4096) (rel : Str) :
    env.under rel = env.dest ++ slash :: env.rest rel ∨
      env.under rel = env.dest ∧ env.rest rel = [] := by
  rw [Env.under, Env.rest, take_append, take_of_length_le (by omega)]
  by_cases hlen : env.dest.length = 4095
  · rw [hlen]
    exact .inr ⟨append_nil _, rfl⟩
  · rw [show 4095 - env.dest.length = 4094 - env.dest.length + 1 by omega, take_succ_cons]
    exact .inl rfl

theorem comps_under (h : env.dest.length < 4096) (rel : Str) :
    (path (env.under rel)).comps = (path env.dest).comps ++ (path (env.rest rel)).comps := by
  rcases under_eq h rel with heq | ⟨heq, hrest⟩
  · rw [heq]
    exact Paths.comps_append _ _
  · rw [heq, hrest]
    exact (append_nil _).symm

theorem base_under (hd : Dest env t D) (rel : Str) :
    (path (env.under rel)).base env.cwd = (path env.dest).base env.cwd := by
  rcases under_eq hd.short rel with heq | ⟨heq, -⟩
  · rw [heq]
    exact base_append hd.named
  · rw [heq]

theorem foldl_unchanged {l : List Str} (h : ∀ q ∈ l, mkparent env w q = w) :
    l.foldl (mkparent env) w = w := by
  induction l with
  | nil => rfl
  | cons q l ih =>
    rw [foldl_cons, h q (.head _)]
    exact ih fun r hr => h r (.tail _ hr)

theorem mkparents_dest {a : UInt8} {dest : Str} (ha : env.dest = a :: dest) (hd : Dest env w.tree D) :
    ((Paths.fronts slash [a] dest).foldl (mkparent env) w) = w := by
  refine foldl_unchanged fun q hq => ?_
  obtain ⟨x, y, rfl, hy⟩ := Paths.mem_fronts hq
  have hsplit : env.dest = [a] ++ x ++ slash :: y := by rw [ha, hy]; rfl
  have hleads := hd.leads
  rw [hsplit, base_append (by simp), show (path ([a] ++ x ++ slash :: y)).comps =
    (path ([a] ++ x)).comps ++ (path y).comps from Paths.comps_append _ _,
    Links.leads_append] at hleads
  obtain ⟨m, hm, -⟩ := hleads
  exact mkparent_leads hm

theorem made_mkparents {rel : Str} (hd : Dest env w.tree D)
    (hsafe : Paths.climbs slash dot rel = false) : Made env D w (env.under rel) (env.namesUnder rel)
      (mkparentsNofollow env w (env.under rel)) := by
  obtain ⟨a, dest, ha⟩ := exists_cons_of_ne_nil hd.named
  rcases under_eq hd.short rel with heq | ⟨heq, hrest⟩
  · have hway := @way_fronts env D [] w (env.rest rel) (env.dest ++ [slash]) [] (by simp)
      (cut_slash _) not_mem_nil
      ⟨rel.drop (4094 - env.dest.length), by simpa [Env.rest] using hsafe⟩
      (by rw [base_append hd.named, comps_slash_end, append_nil]; exact hd.leads)
      (fun q hq hpre => absurd (prefix_nil.1 hpre) hq)
    have hloop : mkparentsNofollow env w (env.under rel) =
        (Paths.fronts slash (env.dest ++ [slash] ++ []) (env.rest rel)).foldl (mkparent env) w := by
      rw [mkparentsNofollow, heq, ha]
      simp only [cons_append, take_succ_cons, take_zero, drop_succ_cons,
        drop_zero]
      rw [Paths.fronts_append, foldl_append, mkparents_dest ha hd, foldl_cons]
      have hself : mkparent env w ([a] ++ dest) = w := by
        have := hd.leads
        rw [ha] at this
        exact mkparent_leads this
      rw [hself]
      simp
    rw [hloop, heq]
    simpa [Env.namesUnder] using hway
  · have hloop : mkparentsNofollow env w (env.under rel) = w := by
      rw [mkparentsNofollow, heq, ha]
      exact mkparents_dest ha hd
    rw [hloop, heq, Env.namesUnder, hrest]
    refine ⟨.refl D w, [], none, ⟨⟨(path env.dest).comps, by simp, by simpa using hd.leads⟩, ?_, ?_⟩,
      rfl⟩
    · exact fun q hq hpre => absurd (prefix_nil.1 hpre) hq
    · intro n hn
      cases hn

/-! ## Calls at the end of a way -/

/-- A name that a call has come to is the one at the end of the way. -/
theorem Way.eq_endSpot {behind : Bool} {s : Links.Spot Str} (h : Way env D t p E c)
    (hlink : behind = true → ∀ n, c = some (.name n) → Links.NoLink t (D ++ (E ++ [n])))
    (hs : Links.seek t behind 40 ((path p).base env.cwd) (path p).comps = some s)
    (hlast : s.last.isSome) (hdir : ∀ d, t s.place ≠ some (.dir d)) :
    ∃ n, c = some (.name n) ∧ s = endSpot D E n := by
  obtain ⟨cs, hcomps, hleads⟩ := h.leads
  rw [hcomps] at hs
  have hlink' : behind = true → ∀ n, c = some (.name n) → Links.NoLink t (D ++ E ++ [n]) := by
    intro hb n hn
    rw [append_assoc]
    exact hlink hb n hn
  rcases hleads.seek_last hlink' hs hlast with hname | ⟨d, hd⟩
  · exact hname
  · exact absurd hd (hdir d)

theorem Way.congr {t' : Links.Tree Str Nat Nat} (h : Way env D t p E c)
    (hdirs : ∀ q d, t q = some (.dir d) → t' q = some (.dir d)) : Way env D t' p E c where
  leads := by
    obtain ⟨cs, hcomps, hleads⟩ := h.leads
    exact ⟨cs, hcomps, hleads.congr hdirs⟩
  dirs q hq hpre := by
    obtain ⟨d, hd⟩ := h.dirs q hq hpre
    exact ⟨d, hdirs _ d hd⟩
  slash := h.slash

theorem swept_mkdir {mode : Nat} (h : Way env D w.tree p E c) : Swept D w (env.mkdir w p mode) := by
  rw [Env.mkdir]
  cases hmade : Links.mkdir w.tree env.cwd (path p) (Nat.ldiff mode env.umask) with
  | none => exact .refl D w
  | some r =>
    obtain ⟨s, t'⟩ := r
    obtain ⟨hs, hlast, hnone, rfl⟩ := Links.make_eq hmade
    have hdir : ∀ d, w.tree s.place ≠ some (.dir d) := by
      intro d hd
      rw [hnone] at hd
      cases hd
    obtain ⟨n, -, rfl⟩ := h.eq_endSpot (fun hb => Bool.noConfusion hb) hs hlast hdir
    exact swept_after (touch_endSpot D E n) hdir (.inr ⟨_, rfl⟩)

theorem swept_unlink (h : Way env D w.tree p E c) : Swept D w (env.unlink w p) := by
  rw [Env.unlink]
  cases hgone : Links.unlink w.tree env.cwd (path p) with
  | none => exact .refl D w
  | some r =>
    obtain ⟨s, t'⟩ := r
    obtain ⟨hs, hlast, hdir, rfl⟩ := Links.unlink_eq hgone
    obtain ⟨n, -, rfl⟩ := h.eq_endSpot (fun hb => Bool.noConfusion hb) hs hlast hdir
    exact swept_after (touch_endSpot D E n) hdir (.inl rfl)

/-- Nothing is there, or a directory. -/
def Cleared (t : Links.Tree Str Nat Nat) (p : List Str) : Prop :=
  t p = none ∨ ∃ d, t p = some (.dir d)

theorem Cleared.noLink {q : List Str} (h : Cleared t q) : Links.NoLink t q := by
  intro target htarget
  rcases h with h | ⟨d, h⟩ <;> cases h.symm.trans htarget

theorem cleared_unlink {n : Str} (h : Way env D w.tree p E (some (.name n))) :
    Cleared (env.unlink w p).tree (D ++ (E ++ [n])) := by
  have hswept := swept_unlink h
  by_cases hdir : ∃ d, w.tree (D ++ (E ++ [n])) = some (.dir d)
  · obtain ⟨d, hd⟩ := hdir
    exact .inr ⟨d, hswept.dirs _ d hd⟩
  · by_cases hnone : w.tree (D ++ (E ++ [n])) = none
    · rcases hswept.less (D ++ (E ++ [n])) with heq | hcleared
      · exact .inl (heq.trans hnone)
      · exact hcleared
    · obtain ⟨cs, hcomps, hleads⟩ := h.leads
      rw [unlink_way hleads hcomps (h.slash n rfl) hnone (not_exists.1 hdir), ← place_endSpot]
      exact .inl (update_self _ _ _)

/-- The way to a path is made, and what had its name is gone, if that was no directory. -/
structure Ready (env : Env) (D : List Str) (w : Links.World Str Nat Nat) (p : Str)
    (names : List Str) (w' : Links.World Str Nat Nat) (E : List Str)
    (c : Option (Links.Comp Str)) : Prop where
  swept : Swept D w w'
  way : Way env D w'.tree p E c
  names : E ++ Links.names c.toList = names
  cleared : ∀ n, c = some (.name n) → Cleared w'.tree (D ++ (E ++ [n]))

theorem ready_makeWay {rel : Str} (hd : Dest env w.tree D)
    (hsafe : Paths.climbs slash dot rel = false) :
    ∃ E c, Ready env D w (env.under rel) (env.namesUnder rel) (makeWay env w (env.under rel)) E c := by
  obtain ⟨hswept, E, c, hway, hnames⟩ := made_mkparents hd hsafe
  refine ⟨E, c, hswept.trans (swept_unlink hway), hway.congr (swept_unlink hway).dirs, hnames, ?_⟩
  rintro n rfl
  exact cleared_unlink hway

/-- What is opened for writing at the end of a way is new. -/
structure Opened (D E : List Str) (n : Str) (f : Files) (i : Nat) (f' : Files) : Prop where
  free : f.world.tree (D ++ (E ++ [n])) = none
  inode : i = f.next
  world : f'.world = f.world.after (some (endSpot D E n,
    Function.update f.world.tree (endSpot D E n).place (some (.file f.next))))
  next : f'.next = f.next + 1
  empty : (f'.inodes f.next).content = []
  others : ∀ j, j ≠ f.next → f'.inodes j = f.inodes j

theorem opened_of_openWrite {f f' : Files} {behind : Bool} {mode i : Nat}
    (hway : Way env D f.world.tree p E c)
    (hcleared : ∀ n, c = some (.name n) → Cleared f.world.tree (D ++ (E ++ [n])))
    (h : f.openWrite env behind p mode = some (i, f')) :
    ∃ n, c = some (.name n) ∧ Opened D E n f i f' := by
  obtain ⟨⟨s, j, t'⟩, hopen, heq⟩ := Option.map_eq_some_iff.1 h
  obtain ⟨rfl, rfl⟩ := Prod.mk.inj heq
  obtain ⟨hs, hlast, hnode⟩ := Links.create_eq hopen
  have hdir : ∀ d, f.world.tree s.place ≠ some (.dir d) := by
    intro d hd
    rcases hnode with ⟨hfile, -⟩ | ⟨hnone, -, -⟩
    · cases hfile.symm.trans hd
    · cases hnone.symm.trans hd
  obtain ⟨n, hn, rfl⟩ := hway.eq_endSpot (fun _ n hn => (hcleared n hn).noLink) hs hlast hdir
  rw [place_endSpot] at hnode hdir
  have hnone := (hcleared n hn).resolve_right fun ⟨d, hd⟩ => hdir d hd
  rcases hnode with ⟨hfile, -⟩ | ⟨-, rfl, rfl⟩
  · cases hfile.symm.trans hnone
  · refine ⟨n, hn, hnone, rfl, by rw [place_endSpot]; rfl, by simp, ?_, fun j hj => ?_⟩
    · dsimp only
      rw [update_self]
    exact update_of_ne hj _ _

/-! ## Members -/

section Members

variable {f : Files} {rel : Str}

/-- Something made in a directory by its name at the end of a way. -/
theorem Way.make_eq {s : Links.Spot Str} {t' : Links.Tree Str Nat Nat}
    {node : Links.Node Str Nat Nat} (h : Way env D t p E c)
    (hmake : Links.make t node (Links.spot t false env.cwd (path p)) = some (s, t')) :
    ∃ n, c = some (.name n) ∧ s = endSpot D E n ∧ t (D ++ (E ++ [n])) = none ∧
      t' = update t (endSpot D E n).place (some node) := by
  obtain ⟨hspot, hlast, hnone, ht⟩ := Links.make_eq hmake
  have hdir : ∀ d, t s.place ≠ some (.dir d) := by
    intro d hd
    rw [hnone] at hd
    cases hd
  obtain ⟨n, hn, rfl⟩ :=
    h.eq_endSpot (fun hb => Bool.noConfusion hb) (Links.spot_last hspot hlast) hlast hdir
  rw [place_endSpot] at hnone
  exact ⟨n, hn, rfl, hnone, ht⟩

theorem grown_makeDirectory {mode : Nat} (hd : Dest env f.world.tree D)
    (hsafe : Paths.climbs slash dot rel = false) :
    Swept D f.world (makeDirectory env f (env.under rel) mode).world := by
  obtain ⟨hswept, E, c, hway, -⟩ := made_mkparents hd hsafe
  exact hswept.trans (swept_mkdir hway)

theorem grown_makeSymlink {linkname : Str} (hd : Dest env f.world.tree D)
    (hsafe : Paths.climbs slash dot rel = false) :
    Grown D f.world (makeSymlink env f (env.under rel) linkname).world := by
  obtain ⟨E, c, hready⟩ := ready_makeWay hd hsafe
  rw [makeSymlink]
  dsimp only
  split
  · exact hready.swept.toGrown
  · refine hready.swept.toGrown.trans ?_
    cases hmade : Links.symlink (makeWay env f.world (env.under rel)).tree env.cwd
        (path (env.under rel)) (path linkname) with
    | none => exact .refl D _
    | some r =>
      obtain ⟨s, t'⟩ := r
      obtain ⟨n, -, rfl, -, rfl⟩ := hready.way.make_eq hmade
      exact grown_after (touch_endSpot D E n)

theorem Opened.grown {n : Str} {i : Nat} {f' : Files} (h : Opened D E n f i f') :
    Grown D f.world f'.world := by
  rw [h.world]
  exact grown_after (touch_endSpot D E n)

theorem grown_makeHardlink {refused : Bool} {tgt : Str} (hd : Dest env f.world.tree D)
    (hsafe : Paths.climbs slash dot rel = false) :
    Grown D f.world (makeHardlink env f refused (env.under rel) tgt).world := by
  obtain ⟨E, c, hready⟩ := ready_makeWay hd hsafe
  rw [makeHardlink]
  dsimp only
  generalize makeWay env f.world (env.under rel) = w at hready ⊢
  refine hready.swept.toGrown.trans ?_
  split
  · rename_i r hlink
    obtain ⟨s, t'⟩ := r
    split at hlink
    · cases hlink
    · obtain ⟨o, node, -, -, -, -, hmake⟩ := Links.link_eq hlink
      obtain ⟨n, -, rfl, -, rfl⟩ := hready.way.make_eq hmake
      exact grown_after (touch_endSpot D E n)
  · split
    · exact .refl D _
    · rename_i so f' hopen
      obtain ⟨n, -, hopened⟩ :=
        opened_of_openWrite (f := { f with world := w }) hready.way hready.cleared hopen
      split
      · exact hopened.grown
      · exact hopened.grown

/-- The time of a file at the end of a way. -/
theorem utime_end {n : Str} {i mtime : Nat} (h : Way env D f.world.tree p E (some (.name n)))
    (hfile : f.world.tree (D ++ (E ++ [n])) = some (.file i)) : f.utime env p mtime = { f with
        world := ⟨f.world.tree, f.world.log ++ [endSpot D E n]⟩
        inodes := update f.inodes i { f.inodes i with stamp := some mtime } } := by
  obtain ⟨cs, hcomps, hleads⟩ := h.leads
  have hno : Links.NoLink f.world.tree (D ++ E ++ [n]) := by
    intro target htarget
    rw [append_assoc, hfile] at htarget
    cases htarget
  have hspot : Links.spot f.world.tree true env.cwd (path p) = some (endSpot D E n) := by
    rw [Links.spot, Links.Route.all, h.slash n rfl, if_neg Bool.false_ne_true, append_nil,
      hcomps]
    exact (hleads.seek_append (cons_ne_nil _ _)).trans (Links.seek_name fun _ => hno)
  rw [← place_endSpot] at hfile
  have hchange : Links.change f.world.tree env.cwd (path p) id =
      some (endSpot D E n, f.world.tree) := by
    rw [Links.change, hspot, Option.bind_some, hfile]
    dsimp only [id]
    rw [← hfile, update_eq_self]
  rw [Files.utime, hchange]
  dsimp only
  rw [hfile]

theorem Opened.way {n : Str} {i : Nat} {f' : Files} (h : Opened D E n f i f')
    (hway : Way env D f.world.tree p E c) :
    Way env D f'.world.tree p E c ∧ f'.world.tree (D ++ (E ++ [n])) = some (.file f.next) := by
  have htree : f'.world.tree =
      update f.world.tree (D ++ (E ++ [n])) (some (.file f.next)) := by
    rw [h.world, place_endSpot]
    rfl
  rw [htree]
  refine ⟨hway.congr fun q d hq => ?_, update_self _ _ _⟩
  have hne : q ≠ D ++ (E ++ [n]) := by
    rintro rfl
    cases hq.symm.trans h.free
  exact (update_of_ne hne _ _).trans hq

theorem grown_makeRegular {m : Member} {inn : List UInt8} (hd : Dest env f.world.tree D)
    (hsafe : Paths.climbs slash dot rel = false) :
    Grown D f.world (makeRegular env f (env.under rel) m inn).1.world := by
  obtain ⟨E, c, hready⟩ := ready_makeWay hd hsafe
  rw [makeRegular]
  dsimp only
  generalize makeWay env f.world (env.under rel) = w at hready ⊢
  refine hready.swept.toGrown.trans ?_
  split
  · exact .refl D _
  · rename_i fd f' hopen
    obtain ⟨n, rfl, hopened⟩ :=
      opened_of_openWrite (f := { f with world := w }) hready.way hready.cleared hopen
    obtain ⟨hway, hfile⟩ := hopened.way hready.way
    split
    · exact hopened.grown
    · dsimp only
      split
      · rw [utime_end (f := (f'.write fd _).chmod fd _) hway hfile]
        refine hopened.grown.trans ⟨fun hlog s hs => ?_, fun _ _ => rfl⟩
        rcases mem_append.1 hs with hs | hs
        · exact hlog s hs
        · rw [mem_singleton.1 hs]
          exact touch_endSpot D E n
      · exact hopened.grown

end Members

/-! ## Every run -/

variable {s s' : Reader} {t₀ : Links.Tree Str Nat Nat} {refused : Bool}

theorem climbs_of_safe {rel : Str} (h : unsafeRel rel = false) :
    Paths.climbs slash dot rel = false := by
  rw [unsafeRel, Bool.or_eq_false_iff] at h
  exact h.2

theorem files_skip (s : Reader) (blocks : Nat) : (s.skip blocks).files = s.files := by
  rw [Reader.skip]
  split <;> rfl

theorem grown_take {m : Member} (hd : Dest env s.files.world.tree D) :
    Grown D s.files.world (s.take env refused m).files.world := by
  rw [Reader.take]
  dsimp only
  split
  · rw [files_skip]
    exact .refl D _
  · rename_i rel _
    split
    · rw [files_skip]
      exact .refl D _
    · rename_i hunsafe
      have hsafe := climbs_of_safe (Bool.eq_false_iff.2 hunsafe)
      split_ifs
      · exact (grown_makeDirectory hd hsafe).toGrown
      · exact grown_makeSymlink hd hsafe
      · split
        · exact .refl D _
        · split
          · exact .refl D _
          · exact grown_makeHardlink hd hsafe
      · exact grown_makeRegular hd hsafe
      · exact grown_makeRegular hd hsafe
      · rw [files_skip]
        exact .refl D _

theorem grown_turn (hd : Dest env s.files.world.tree D) (h : turn env s refused = some s') :
    Grown D s.files.world s'.files.world := by
  rw [turn] at h
  split at h
  · cases h
  · split at h
    · obtain rfl := Option.some.inj h
      exact .refl D _
    · obtain rfl := Option.some.inj h
      exact grown_take (s := { s with inn := s.inn.drop 512 }) hd

theorem Dest.grown (hd : Dest env t₀ D) (hempty : ∀ q, q ≠ [] → t₀ (D ++ q) = none)
    (h : Grown D ⟨t₀, []⟩ w) : Dest env w.tree D where
  named := hd.named
  short := hd.short
  leads := hd.leads.congr fun p d hp => by
    rw [h.outside p fun q hq heq => ?_]
    · exact hp
    · rw [heq, hempty q hq] at hp
      cases hp

/-- From the beginning on only what is under `dest` has been touched. -/
def Contained (D : List Str) (t₀ : Links.Tree Str Nat Nat) (s : Reader) : Prop :=
  Grown D ⟨t₀, []⟩ s.files.world

end Verkos.Vpk.Untar
