import Verkos.Vpk.Merge

/-!
# Ownership over runs

An operation leaves the database as it is, writes one package's list anew, or takes a package out.
Each keeps the lists tidy, and keeps what has been put in place listed but for what a new list has
dropped.
-/

namespace Verkos.Vpk

open Lib Vlogin
open List

variable {fs : Fs} {p : Path} {σ σ' : Sys} {n m : PkgName} {pkg pkg' : Pkg} {r : Recipe} {op : Op}
  {put : List Path} {db : List (PkgName × Pkg)} {h h' : History}

/-! ## The database -/

theorem pkg_cons {e : PkgName × Pkg} :
    (⟨fs, e :: db⟩ : Sys).pkg m = if e.1 = m then some e.2 else (⟨fs, db⟩ : Sys).pkg m := by
  unfold Sys.pkg
  by_cases he : e.1 = m
  · rw [if_pos he, find?_cons_of_pos (by simpa using he)]
    rfl
  · rw [if_neg he, find?_cons_of_neg (by simpa using he)]

theorem pkg_setPkg : (⟨fs, setPkg n pkg db⟩ : Sys).pkg m =
    if n = m then some pkg else (⟨fs, db⟩ : Sys).pkg m := by
  induction db with
  | nil => exact pkg_cons
  | cons e db ih =>
    rw [setPkg]
    split_ifs with he hnm hnm
    · rw [pkg_cons, if_pos hnm]
    · rw [pkg_cons, pkg_cons, if_neg hnm, if_neg fun heq => hnm (he.symm.trans heq)]
    · rw [pkg_cons, ih, if_pos hnm, if_neg fun heq => he (heq.trans hnm.symm)]
    · rw [pkg_cons, pkg_cons, ih, if_neg hnm]

theorem pkg_filter : (⟨fs, db.filter (·.1 ≠ n)⟩ : Sys).pkg m =
    if n = m then none else (⟨fs, db⟩ : Sys).pkg m := by
  induction db with
  | nil => split_ifs <;> rfl
  | cons e db ih =>
    by_cases he : e.1 = n
    · rw [filter_cons_of_neg (by simpa using he), ih, pkg_cons]
      by_cases hnm : n = m
      · rw [if_pos hnm, if_pos hnm]
      · rw [if_neg hnm, if_neg hnm, if_neg fun heq => hnm (he.symm.trans heq)]
    · rw [filter_cons_of_pos (by simpa using he), pkg_cons, pkg_cons, ih]
      by_cases hnm : n = m
      · rw [if_pos hnm, if_pos hnm, if_neg fun heq => he (heq.trans hnm.symm)]
      · rw [if_neg hnm, if_neg hnm]

theorem mem_setPkg {e : PkgName × Pkg} (he : e ∈ setPkg n pkg db) : e = (n, pkg) ∨ e ∈ db := by
  induction db with
  | nil => exact .inl (mem_singleton.1 he)
  | cons e' db ih =>
    rw [setPkg] at he
    split_ifs at he
    · rcases mem_cons.1 he with rfl | he
      · exact .inl rfl
      · exact .inr (.tail _ he)
    · rcases mem_cons.1 he with rfl | he
      · exact .inr (.head _)
      · exact (ih he).imp_right (.tail _)

theorem nodup_setPkg (hnodup : (db.map (·.1)).Nodup) : ((setPkg n pkg db).map (·.1)).Nodup := by
  induction db with
  | nil => exact nodup_singleton n
  | cons e db ih =>
    obtain ⟨hnew, hnodup⟩ := nodup_cons.1 hnodup
    rw [setPkg]
    split_ifs with he
    · exact nodup_cons.2 ⟨he ▸ hnew, hnodup⟩
    · refine nodup_cons.2 ⟨fun hmem => ?_, ih hnodup⟩
      obtain ⟨e', he', heq⟩ := mem_map.1 hmem
      rcases mem_setPkg he' with rfl | he'
      · exact he heq.symm
      · exact hnew (mem_map.2 ⟨e', he', heq⟩)

/-! ## What an operation does -/

/-- The operation is to merge a package. -/
def Op.Merges (op : Op) (n : PkgName) (r : Recipe) : Prop :=
  op = .install n r ∨ op = .reinstall n r ∨ ∃ named, op = .upgrade named n (some r)

theorem run_cases (hrun : op.run σ = some (σ', put)) : σ' = σ.begin ∧ put = [] ∨
      (∃ n r, op.Merges n r ∧ installNamedForced σ.begin n r = some (σ', put)) ∨
      ∃ n, op = .remove n ∧ σ' = cmdRemove σ.begin n ∧ put = [] := by
  have hsame : ∀ {σ1 : Sys}, some (σ1, ([] : List Path)) = some (σ', put) → σ' = σ1 ∧ put = [] := by
    intro σ1 heq
    obtain ⟨rfl, rfl⟩ := Prod.mk.inj (Option.some.inj heq)
    exact ⟨rfl, rfl⟩
  cases op with
  | install n r =>
    rw [Op.run, cmdInstall] at hrun
    split_ifs at hrun
    · exact .inl (hsame hrun)
    · exact .inr (.inl ⟨n, r, .inl rfl, hrun⟩)
  | reinstall n r => exact .inr (.inl ⟨n, r, .inr (.inl rfl), hrun⟩)
  | upgrade named n r =>
    unfold Op.run cmdUpgrade at hrun
    dsimp only at hrun
    split at hrun
    · exact .inl (hsame hrun)
    · exact .inl (hsame hrun)
    · split_ifs at hrun
      · exact .inl (hsame hrun)
      · exact .inl (hsame hrun)
      · exact .inr (.inl ⟨n, _, .inr (.inr ⟨named, rfl⟩), hrun⟩)
  | remove n => exact .inr (.inr ⟨n, rfl, hsame hrun⟩)

theorem Op.Merges.name (hm : op.Merges n r) : op.name = n := by
  rcases hm with rfl | rfl | ⟨named, rfl⟩ <;> rfl

theorem Op.Merges.orderly (hm : op.Merges n r) (hok : Orderly h op) :
    n.text.head? ≠ some '.' ∧ Mergeable h.sys.begin.fs r := by
  rcases hm with rfl | rfl | ⟨named, rfl⟩ <;> exact hok

theorem pkg_cmdRemove : (cmdRemove σ n).pkg m =
    if n = m ∧ (σ.pkg n).any (!·.base) then none else σ.pkg m := by
  rw [cmdRemove]
  cases hpkg : σ.pkg n with
  | none => simp
  | some pkg =>
    cases hbase : pkg.base with
    | true => simp [hbase]
    | false =>
      simp only [hbase, Bool.false_eq_true, if_false]
      rw [pkg_filter]
      by_cases hnm : n = m
      · rw [if_pos hnm, if_pos ⟨hnm, by simp [hbase]⟩]
      · rw [if_neg hnm, if_neg fun hand => hnm hand.1]
        rfl

/-! ## Base packages -/

theorem begin_pkg : σ.begin.pkg m = σ.pkg m := rfl

theorem base_stays (hrun : op.run σ = some (σ', put)) : BaseStays σ σ' := by
  intro m pkg hpkg hbase
  rcases run_cases hrun with ⟨rfl, -⟩ | ⟨n, r, -, hmerge⟩ | ⟨n, -, rfl, -⟩
  · exact ⟨pkg, hpkg, hbase⟩
  · obtain ⟨files, hdb⟩ := recordAndMerge_db hmerge
    obtain ⟨fs', db'⟩ := σ'
    subst hdb
    rw [pkg_setPkg]
    by_cases hnm : n = m
    · rw [if_pos hnm]
      refine ⟨_, rfl, ?_⟩
      have hold : σ.pkg n = some pkg := hnm ▸ hpkg
      show (σ.pkg n).any (·.base) = true
      rw [hold]
      exact hbase
    · rw [if_neg hnm]
      exact ⟨pkg, hpkg, hbase⟩
  · rw [pkg_cmdRemove, if_neg]
    · exact ⟨pkg, hpkg, hbase⟩
    · rintro ⟨rfl, hany⟩
      rw [begin_pkg, hpkg] at hany
      simp [hbase] at hany

/-! ## Lists -/

theorem Sys.Tidy.merged (ht : σ.Tidy) {ls : List (Char × Path)} (hdb : σ'.db = setPkg n pkg σ.db)
    (hls : Listing pkg.files ls) (hn : n.text.head? ≠ some '.') : σ'.Tidy := by
  constructor
  · rw [hdb]
    exact nodup_setPkg ht.nodup
  · intro e he
    rw [hdb] at he
    rcases mem_setPkg he with rfl | he
    · exact hn
    · exact ht.visible e he
  · intro e he
    rw [hdb] at he
    rcases mem_setPkg he with rfl | he
    · exact ⟨ls, hls⟩
    · exact ht.listing e he

theorem Sys.Tidy.removed (ht : σ.Tidy) : (cmdRemove σ n).Tidy := by
  rw [cmdRemove]
  split
  · exact ht
  · split_ifs
    · exact ht
    · refine ⟨?_, fun e he => ?_, fun e he => ?_⟩
      · exact ht.nodup.sublist (filter_sublist.map _)
      · exact ht.visible e (mem_of_mem_filter he)
      · exact ht.listing e (mem_of_mem_filter he)

/-! ## What is put in place -/

theorem step_cases {σ : Sys} {placed dropped : List Path}
    (hstep : History.step ⟨σ, placed, dropped⟩ op = some h') : ∃ put, op.run σ = some (h'.sys, put) ∧
      (∀ p, p ∈ h'.placed ↔ (p ∈ placed ∨ p ∈ put) ∧ isFile h'.sys.fs p) ∧
      ∀ p, p ∈ h'.dropped ↔ p ∈ dropped ∨
        p ∈ placed ∧ droppedFrom (σ.pkg op.name) (h'.sys.pkg op.name) p := by
  obtain ⟨⟨σ', put⟩, hrun, rfl⟩ := Option.map_eq_some_iff.1 hstep
  refine ⟨put, hrun, fun p => ?_, fun p => ?_⟩
  · rw [mem_filter, mem_append]
  · rw [mem_append, mem_filter]

theorem keeps_owned (ht : h.sys.Tidy) (ho : h.Owned) (hok : Orderly h op)
    (hstep : h.step op = some h') : h'.sys.Tidy ∧ h'.Owned := by
  obtain ⟨put, hrun, hplaced, hdropped⟩ := step_cases hstep
  have hbegin : h.sys.begin.Tidy := ⟨ht.nodup, ht.visible, ht.listing⟩
  have hkept : ∀ p ∈ h.placed, (h.sys.Listed p → h'.sys.Listed p ∨ p ∈ h'.dropped) →
      h'.sys.Listed p ∨ p ∈ h'.dropped := by
    intro p hp hlisted
    rcases ho p hp with hl | hd
    · exact hlisted hl
    · exact .inr ((hdropped p).2 (.inl hd))
  rcases run_cases hrun with ⟨hsys, rfl⟩ | ⟨n, r, hm, hmerge⟩ | ⟨n, rfl, hsys, rfl⟩
  · refine ⟨hsys ▸ hbegin, fun p hp => ?_⟩
    rcases ((hplaced p).1 hp).1 with hp | hp
    · exact hkept p hp fun hl => .inl (hsys ▸ hl)
    · exact absurd hp not_mem_nil
  · obtain ⟨hn, hmergeable⟩ := hm.orderly hok
    obtain ⟨pkg, hdb, hls, hput⟩ :=
      recordAndMerge_spec (hmergeable.mono fun q => isLink_mkpath) hmerge
    have hdb : h'.sys.db = setPkg n pkg h.sys.db := hdb
    have hpkg : ∀ m, h'.sys.pkg m = if n = m then some pkg else h.sys.pkg m := by
      intro m
      have hset := @pkg_setPkg h'.sys.fs n m pkg h.sys.db
      rw [← hdb] at hset
      exact hset
    refine ⟨hbegin.merged hdb hls hn, fun p hp => ?_⟩
    rcases ((hplaced p).1 hp).1 with hp | hp
    · refine hkept p hp ?_
      rintro ⟨m, old, hold, hlists⟩
      by_cases hnm : n = m
      · by_cases hnew : lists pkg.files 'f' p
        · exact .inl ⟨n, pkg, by rw [hpkg, if_pos rfl], hnew⟩
        · refine .inr ((hdropped p).2 (.inr ⟨hp, ?_⟩))
          rw [hm.name, hpkg, if_pos rfl, hnm, hold]
          exact decide_eq_true ⟨hlists, hnew⟩
      · exact .inl ⟨m, old, by rw [hpkg, if_neg hnm, hold], hlists⟩
    · refine .inl ⟨n, pkg, by rw [hpkg, if_pos rfl], hls.lists_iff.2 ?_⟩
      rw [hput] at hp
      exact mem_putInPlace.1 hp
  · refine ⟨hsys ▸ hbegin.removed, fun p hp => ?_⟩
    obtain ⟨hp | hp, hfile⟩ := (hplaced p).1 hp
    · refine hkept p hp ?_
      rintro ⟨m, old, hold, hlists⟩
      rw [hsys] at hfile ⊢
      by_cases hgone : n = m ∧ (h.sys.begin.pkg n).any (!·.base)
      · obtain ⟨rfl, hbase⟩ := hgone
        rw [begin_pkg, hold] at hbase
        have hbase : old.base = false := by simpa using hbase
        have hremoved := cmdRemove_removed hbegin hold hbase (hok old hold)
        -- it is still there, so another package lists it
        obtain ⟨hsome, hnotDir⟩ := of_decide_eq_true hfile
        have hsame := hremoved.rest p hsome
        rw [hsame] at hnotDir
        have hiff := hremoved.files p (decide_eq_true ⟨hsame ▸ hsome, hnotDir⟩)
        by_contra hnone
        refine hsome (hiff.2 ⟨hlists, fun m other hne hother hl => hnone (.inl ?_)⟩)
        refine ⟨m, other, ?_, hl⟩
        rw [pkg_cmdRemove, if_neg fun hand => hne hand.1.symm]
        exact hother
      · exact .inl ⟨m, old, by rw [pkg_cmdRemove, if_neg hgone]; exact hold, hlists⟩
    · exact absurd hp not_mem_nil

/-! ## Runs -/

theorem not_isLink_of_all {ok : Node → Prop} [DecidablePred ok]
    (hall : fs.nodes.all fun e => ok e.2) (hlink : ∀ t, ¬ok (.link t)) (p : Path) :
    ¬IsLink fs p := by
  rintro ⟨t, ht⟩
  obtain ⟨e, he, heq⟩ := Option.map_eq_some_iff.1 ht
  have hok := of_decide_eq_true (all_eq_true.1 hall e (mem_of_find?_eq_some he))
  rw [heq] at hok
  exact hlink t hok

def emptySys : Sys := ⟨⟨[], fun _ h => absurd rfl h⟩, []⟩

def nameP : PkgName := ⟨['p'], by decide⟩

def nameA : FileName := ⟨['a'], by decide⟩

def nameB : FileName := ⟨['b'], by decide⟩

/-- A package of one file, its next version of another one, and a package of a directory. -/
def withA : Recipe := ⟨['1'], ['/', 'd'], .file nameA [] .nil⟩

def withB : Recipe := ⟨['2'], ['/', 'd'], .file nameB [] .nil⟩

def withDir : Recipe := ⟨['1'], ['/', 'd'], .dir nameA .nil .nil⟩

def dirSys : Sys := ⟨emptySys.fs.insert [['a']] .dir (by decide), []⟩

end Verkos.Vpk
