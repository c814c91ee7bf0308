import Verkos.Vlogin.Hashes
import Verkos.Vlogin.Members

/-!
# The account files stay in order

One lemma for each command: on well-formed files, and where the condition on it holds, a command
that succeeds leaves well-formed files, has chosen ids of its own, and has kept the members of the
groups.
-/

namespace Verkos.Vlogin

open Lib
open List
open Lib.Prog (sat_mono yields_bind yields_fail yields_give yields_ite yields_mono yields_pure
  yields_take)

variable {S S' : Files} {d d' : Records} {name : Text} {env : Env} {c : Command} {pw : Passwd}

/-! ## Well-formed files and their entries -/

/-- Each account has a shadow entry, and each member is an account. -/
structure Covered (d : Records) : Prop where
  shadowed : ∀ n ∈ d.pws.map (·.name), n ∈ d.sps.map (·.name)
  members : ∀ gr ∈ d.grs, ∀ u ∈ gr.mem, u ∈ d.pws.map (·.name)

section Forms

variable {α : Type} {parse : Text → Option α} {nameOf : α → Text} {t : Text} {es : List α}

theorem Sheet.ofForm (h : Sheet parse nameOf t es) : OfForm parse nameOf t := by
  obtain ⟨ls, htidy, hmap⟩ := h.lines
  refine ⟨ls, htidy.eq, fun line hline => ⟨(htidy.whole line hline).1, ?_⟩, ?_⟩
  · have hmem : parse line ∈ es.map some := hmap ▸ mem_map_of_mem hline
    obtain ⟨e, -, he⟩ := mem_map.1 hmem
    exact he ▸ rfl
  · rw [filterMap_of_map hmap]
    exact h.nodup

theorem OfForm.sheet (h : OfForm parse nameOf t)
    (hshort : ∀ line ∈ t.splitOn '\n', line.length < 4095) : ∃ es, Sheet parse nameOf t es := by
  obtain ⟨ls, rfl, hall, hnodup⟩ := h
  have hmem : ∀ line ∈ ls, line ∈ (unlines ls).splitOn '\n' := by
    clear hshort hnodup
    induction ls with
    | nil => nofun
    | cons l ls ih =>
      intro line hline
      rw [unlines_cons, splitOn_append_cons_self_of_not_mem (hall l (.head _)).1]
      rcases mem_cons.1 hline with rfl | hline
      · exact .head _
      · exact .tail _ (ih (fun l hl => hall l (.tail _ hl)) line hline)
  refine ⟨ls.filterMap parse, ⟨ls, ⟨rfl, fun line hline => ?_⟩, ?_⟩, hnodup⟩
  · exact ⟨(hall line hline).1, hshort line (hmem line hline)⟩
  · clear hshort hnodup hmem
    induction ls with
    | nil => rfl
    | cons l ls ih =>
      obtain ⟨e, he⟩ := Option.isSome_iff_exists.1 (hall l (.head _)).2
      rw [map_cons, filterMap_cons_some he, map_cons, he,
        ih fun l hl => hall l (.tail _ hl)]

end Forms

theorem WellFormed.holds (h : WellFormed S) (hshort : Short S) : ∃ d, Holds S d ∧ Covered d := by
  obtain ⟨pws, hp⟩ := h.passwd.sheet (hshort .passwd)
  obtain ⟨sps, hs⟩ := h.shadow.sheet (hshort .shadow)
  obtain ⟨grs, hg⟩ := h.group.sheet (hshort .group)
  have hd : Holds S ⟨pws, sps, grs⟩ := ⟨hp, hs, hg⟩
  refine ⟨_, hd, fun n hn => ?_, fun gr hgr u hu => ?_⟩
  · obtain ⟨pw, hpw, rfl⟩ := mem_map.1 hn
    obtain ⟨sp, hsp, hname⟩ := h.shadowed pw (by rw [hd.passwds]; exact hpw)
    rw [hd.spwds] at hsp
    exact mem_map.2 ⟨sp, hsp, hname⟩
  · obtain ⟨pw, hpw, hname⟩ := h.members gr (by rw [hd.groups]; exact hgr) u hu
    rw [hd.passwds] at hpw
    exact mem_map.2 ⟨pw, hpw, hname⟩

theorem Holds.wellFormed (h : Holds S d) (hc : Covered d) : WellFormed S where
  passwd := h.passwd.ofForm
  shadow := h.shadow.ofForm
  group := h.group.ofForm
  shadowed pw hpw := by
    rw [h.passwds] at hpw
    rw [h.spwds]
    exact mem_map.1 (hc.shadowed _ (mem_map_of_mem hpw))
  members gr hgr u hu := by
    rw [h.groups] at hgr
    rw [h.passwds]
    exact mem_map.1 (hc.members gr hgr u hu)

/-- What is shown of a command that succeeds. -/
structure Kept (c : Command) (S S' : Files) : Prop where
  formed : WellFormed S'
  ids : OwnIds c S'
  members : KeepsMembers c S S'

/-- A command that makes no ids. -/
theorem Holds.kept (h : Holds S d) (h' : Holds S' d') (hc : Covered d') (hids : OwnIds c S')
    (hmembers : ∀ gr ∈ d.grs, ∀ u ∈ gr.mem, c.takes u gr.name ∨
      ∃ gr' ∈ d'.grs, gr'.name = gr.name ∧ u ∈ gr'.mem) : Kept c S S' where
  formed := h'.wellFormed hc
  ids := hids
  members gr hgr u hu := by
    rw [h.groups] at hgr
    rw [h'.groups]
    exact hmembers gr hgr u hu

variable {pws : List Passwd} {first : Nat} {hash input : Text} {σ : Files} {grs grs' : List Group}
  {gr : Group}

theorem mem_names (h : pw ∈ pws) : pw.name ∈ pws.map (·.name) :=
  mem_map_of_mem h

/-! ## Ids -/

theorem nextFree_spec (first : Nat) (hfirst : first ≤ 60000) (ids : List Nat) :
    nextFree first ids ≤ 60000 ∧ first ≤ nextFree first ids ∧
    (∀ id ∈ ids, id < 60000 → id < nextFree first ids) ∧
    (nextFree first ids = first ∨ ∃ id ∈ ids, nextFree first ids = id + 1) := by
  unfold nextFree
  induction ids generalizing first with
  | nil => exact ⟨hfirst, Nat.le_refl _, nofun, .inl rfl⟩
  | cons id ids ih =>
    rw [foldl_cons]
    split_ifs with hid
    · obtain ⟨hle, hge, hall, hor⟩ := ih (id + 1) hid.2
      refine ⟨hle, by omega, fun id' hid' hlt => ?_, ?_⟩
      · rcases mem_cons.1 hid' with rfl | hid'
        · omega
        · exact hall id' hid' hlt
      · rcases hor with hor | ⟨id', hid', heq⟩
        · exact .inr ⟨id, .head _, hor⟩
        · exact .inr ⟨id', .tail _ hid', heq⟩
    · obtain ⟨hle, hge, hall, hor⟩ := ih first hfirst
      refine ⟨hle, hge, fun id' hid' hlt => ?_, ?_⟩
      · rcases mem_cons.1 hid' with rfl | hid'
        · omega
        · exact hall id' hid' hlt
      · rcases hor with hor | ⟨id', hid', heq⟩
        · exact .inl hor
        · exact .inr ⟨id', .tail _ hid', heq⟩

theorem nextFree_not_mem (hfirst : first < 60000) {ids : List Nat}
    (hroom : RoomFor ids) : nextFree first ids ∉ ids := by
  obtain ⟨hle, -, hall, hor⟩ := nextFree_spec first (by omega) ids
  intro hmem
  by_cases hlt : nextFree first ids < 60000
  · exact absurd (hall _ hmem hlt) (Nat.lt_irrefl _)
  · have hlast : nextFree first ids = 60000 := by omega
    rcases hor with hfirst' | ⟨id, hid, heq⟩
    · omega
    · obtain rfl : id = 59999 := by omega
      exact hroom ⟨hid, hlast ▸ hmem⟩

theorem nextFree_lt (hfirst : first < 60000) (ids : List Nat) : nextFree first ids < 2 ^ 32 := by
  have h := (nextFree_spec first (by omega) ids).1
  omega

section OwnId

variable {α : Type} {nameOf : α → Text} {idOf : α → Nat} {es : List α} {e : α}

theorem ownId_concat (hid : idOf e ∉ es.map idOf) : OwnId nameOf idOf (nameOf e) (es ++ [e]) := by
  refine ⟨e, by simp, rfl, fun e' he' hne heq => ?_⟩
  rcases mem_append.1 he' with he' | he'
  · exact hid (mem_map.2 ⟨e', he', heq⟩)
  · rw [mem_singleton.1 he'] at hne
    exact hne rfl

end OwnId

/-! ## `groupadd` and `groupdel` -/

/-- A new group, without members. -/
theorem Holds.add_group (h : Holds S d) {gid : Nat} (hname : Field name) (hgid : gid < 2 ^ 32)
    (hlen : (groupLine name gid []).length < 512) (hnew : name ∉ d.grs.map (·.name)) :
    Holds (appendedTo S .group (snprintf 512 (groupLine name gid [])))
      { d with grs := d.grs ++ [⟨name, gid, []⟩] } := by
  rw [snprintf_eq hlen]
  have hparse := parseGroup_groupLine hname.1 hgid (not_mem_nil : ':' ∉ [])
  refine h.append_group ⟨newline_join fun f hf => ?_, Nat.lt_trans hlen (by decide)⟩ hparse hnew
  simp only [mem_cons, not_mem_nil, or_false] at hf
  rcases hf with rfl | rfl | rfl | rfl
  · exact hname
  · exact ⟨by decide, by decide⟩
  · exact field_dec _
  · exact field_nil

theorem cmdGroupadd_kept {argv : List Text} (hd : Holds S d) (hc : Covered d)
    (hok : Orderly S (env, .groupadd argv)) :
    Prog.Yields (cmdGroupadd env argv) S fun _ S' => Kept (.groupadd argv) S S' := by
  unfold cmdGroupadd
  refine yields_ite (fun _ => yields_fail) fun _ => ?_
  cases ho : groupaddOpts argv with
  | none => exact yields_fail
  | some o =>
    dsimp only
    cases hname : o.name with
    | none => exact yields_fail
    | some name =>
      obtain ⟨hfield, hlen, hroom⟩ := hok.2.2 o name ho hname
      refine yields_bind (yields_getgrnam (yields_ite (fun _ => yields_fail)
        fun hnone => ?_))
      have hnew : name ∉ d.grs.map (·.name) := by
        rw [hd.grOf] at hnone
        cases hfind : d.grs.find? (·.name = name) with
        | none => exact not_mem_of_find hfind
        | some gr =>
          rw [hfind] at hnone
          exact absurd rfl hnone
      refine yields_bind (yields_take ?_)
      -- the new group, whichever way its id was chosen
      have hadd : ∀ gid, gid < 2 ^ 32 → (groupLine name gid []).length < 512 →
          (o.gid < 0 → gid ∉ (groups (S .group)).map (·.gid)) →
          Prog.Yields (do addGroup name gid; unlockDb; pure 0) S
            fun _ S' => Kept (.groupadd argv) S S' := by
        intro gid hgid hlen hown
        rw [hd.groups] at hown
        have hd' := hd.add_group hfield hgid hlen hnew
        refine yields_bind (yields_append (yields_bind (yields_give
          (yields_pure ?_))))
        refine hd.kept hd' ⟨hc.shadowed, fun gr hgr u hu => ?_⟩ (fun o' name' ho' hname' hneg => ?_)
          fun gr hgr u hu => .inr ⟨gr, mem_append_left _ hgr, rfl, hu⟩
        · rcases mem_append.1 hgr with hgr | hgr
          · exact hc.members gr hgr u hu
          · rw [mem_singleton.1 hgr] at hu
            cases hu
        · obtain rfl : o = o' := Option.some.inj (ho.symm.trans ho')
          obtain rfl : name = name' := Option.some.inj (hname.symm.trans hname')
          rw [hd'.groups]
          exact @ownId_concat _ Group.name Group.gid d.grs ⟨name, gid, []⟩ (hown hneg)
      by_cases hgid : 0 ≤ o.gid
      · rw [if_pos hgid] at hlen ⊢
        exact yields_bind (yields_pure (hadd _ (toId_lt _) hlen fun hneg => by omega))
      · rw [if_neg hgid] at hlen ⊢
        have hfresh := nextFree_not_mem (by decide : firstGid < 60000) (hroom (by omega))
        exact yields_bind (yields_bind (yields_getgrent (yields_pure
          (hadd _ (nextFree_lt (by decide) _) hlen fun _ => hfresh))))

theorem cmdGroupdel_kept {argv : List Text} (hd : Holds S d) (hc : Covered d) :
    Prog.Yields (cmdGroupdel env argv) S fun _ S' => Kept (.groupdel argv) S S' := by
  unfold cmdGroupdel
  refine yields_ite (fun _ => yields_fail) fun _ => ?_
  cases argv with
  | nil => exact yields_fail
  | cons name rest =>
    refine yields_bind (yields_getgrnam ?_)
    rw [hd.grOf]
    cases hfind : d.grs.find? (·.name = name) with
    | none => exact yields_fail
    | some gr =>
      obtain ⟨hgr, rfl⟩ := of_find hfind
      refine yields_bind (yields_getpwent (yields_ite (fun _ => yields_fail)
        fun _ => ?_))
      refine yields_bind (yields_take (yields_bind (yields_replace
        (yields_bind (yields_give (yields_pure ?_))))))
      refine hd.kept (hd.remove_group (hd.clean_gr hgr).1.1)
        ⟨hc.shadowed, fun e he => hc.members e (mem_of_mem_filter he)⟩ trivial
        fun e he u hu => ?_
      by_cases hname : e.name = gr.name
      · exact .inl (congrArg some hname.symm)
      · exact .inr ⟨e, mem_filter.2 ⟨he, decide_eq_true hname⟩, rfl, hu⟩

/-! ## `userdel` -/

theorem cmdUserdel_kept {argv : List Text} (hd : Holds S d) (hc : Covered d)
    (hok : Orderly S (env, .userdel argv)) :
    Prog.Yields (cmdUserdel env argv) S fun _ S' => Kept (.userdel argv) S S' := by
  have hnowhere := hok.2.2
  unfold cmdUserdel
  refine yields_ite (fun _ => yields_fail) fun _ => ?_
  cases ho : userdelOpts argv with
  | none => exact yields_fail
  | some target =>
    cases target with
    | none => exact yields_fail
    | some name =>
      have hnot := hnowhere name ho
      rw [hd.groups] at hnot
      refine yields_bind (yields_getpwnam ?_)
      rw [hd.pwOf]
      cases hfind : d.pws.find? (·.name = name) with
      | none => exact yields_fail
      | some pw =>
        obtain ⟨hpw, rfl⟩ := of_find hfind
        have hcolon := (hd.clean hpw).name.1
        refine yields_ite (fun _ => yields_fail) fun _ => ?_
        have hd2 := (hd.remove_passwd hcolon).remove_shadow hcolon
        -- the other accounts are as before
        have hother : ∀ n ∈ d.pws.map (·.name), n ≠ pw.name →
            n ∈ (d.pws.filter (·.name ≠ pw.name)).map (·.name) := by
          intro n hn hne
          obtain ⟨e, he, rfl⟩ := mem_map.1 hn
          exact mem_names (mem_filter.2 ⟨he, decide_eq_true hne⟩)
        have hshadowed : ∀ n ∈ (d.pws.filter (·.name ≠ pw.name)).map (·.name),
            n ∈ (d.sps.filter (·.name ≠ pw.name)).map (·.name) := by
          intro n hn
          obtain ⟨e, he, rfl⟩ := mem_map.1 hn
          obtain ⟨he, hne⟩ := mem_filter.1 he
          obtain ⟨sp, hsp, hname⟩ := mem_map.1 (hc.shadowed _ (mem_names he))
          refine mem_map.2 ⟨sp, mem_filter.2 ⟨hsp, ?_⟩, hname⟩
          rw [hname]
          exact hne
        have hmembers : ∀ gr ∈ d.grs, ∀ u ∈ gr.mem,
            u ∈ (d.pws.filter (·.name ≠ pw.name)).map (·.name) := by
          intro gr hgr u hu
          exact hother u (hc.members gr hgr u hu) fun heq => hnot gr hgr (heq ▸ hu)
        refine yields_bind (yields_getgrnam ?_)
        refine yields_bind (yields_take (yields_bind (yields_replace
          (yields_bind (yields_replace ?_)))))
        refine yields_ite (fun hown => ?_) fun _ => ?_
        · refine yields_bind (yields_replace (yields_bind (yields_give
            (yields_pure ?_))))
          refine hd.kept (hd2.remove_group hcolon) ⟨hshadowed, fun gr hgr =>
            hmembers gr (mem_of_mem_filter hgr)⟩ trivial fun gr hgr u hu => .inr ?_
          -- the own group goes without members
          refine ⟨gr, mem_filter.2 ⟨hgr, decide_eq_true fun hname => ?_⟩, rfl, hu⟩
          rw [hd.grOf, ← hname, hd.group.find_of_mem hgr] at hown
          have hempty : gr.mem = [] := (of_decide_eq_true hown).2
          rw [hempty] at hu
          cases hu
        · refine yields_bind (yields_give (yields_pure ?_))
          exact hd.kept hd2 ⟨hshadowed, hmembers⟩ trivial fun gr hgr u hu =>
            .inr ⟨gr, hgr, rfl, hu⟩

/-! ## Passwords -/

/-- The entries have other hashes, and nothing else has changed that is kept in order. -/
structure SameNames (d d' : Records) : Prop where
  pws : d'.pws.map (·.name) = d.pws.map (·.name)
  sps : d'.sps.map (·.name) = d.sps.map (·.name)
  grs : d'.grs = d.grs

theorem SameNames.covered (h : SameNames d d') (hc : Covered d) : Covered d' where
  shadowed := by
    rw [h.pws, h.sps]
    exact hc.shadowed
  members := by
    rw [h.pws, h.grs]
    exact hc.members

theorem SameNames.kept (h : SameNames d d') (hd : Holds S d) (hd' : Holds S' d') (hc : Covered d)
    (hids : OwnIds c S') : Kept c S S' :=
  hd.kept hd' (h.covered hc) hids fun gr hgr _ hu => .inr ⟨gr, h.grs ▸ hgr, rfl, hu⟩

/-- What `set_password` does to well-formed files. -/
structure PasswordSet (env : Env) (d : Records) (S S' : Files) : Prop where
  holds : ∃ d', Holds S' d' ∧ SameNames d d'
  fits : ∀ n hash, Fits env S n hash → Fits env S' n hash

theorem find_replaceEntry {α : Type} {nameOf : α → Text} {new : α} {es : List α}
    (hnew : nameOf new = name) (hmem : name ∈ es.map nameOf) :
    (replaceEntry nameOf new es).find? (nameOf · = name) = some new := by
  induction es with
  | nil => cases hmem
  | cons e es ih =>
    rw [replaceEntry, map_cons]
    by_cases he : nameOf e = nameOf new
    · rw [if_pos he]
      exact find?_cons_of_pos (decide_eq_true hnew)
    · have hne : nameOf e ≠ name := fun h => he (h.trans hnew.symm)
      rw [if_neg he, find?_cons_of_neg (by simpa using hne)]
      refine ih ?_
      rw [map_cons] at hmem
      exact (mem_cons.1 hmem).resolve_left fun h => hne h.symm

theorem find_replaceEntry_of_ne {α : Type} {nameOf : α → Text} {new : α}
    (hne : name ≠ nameOf new) (es : List α) :
    (replaceEntry nameOf new es).find? (nameOf · = name) = es.find? (nameOf · = name) := by
  induction es with
  | nil => rfl
  | cons e es ih =>
    rw [replaceEntry, map_cons, find?_cons, find?_cons]
    by_cases he : nameOf e = nameOf new
    · have hnew : decide (nameOf new = name) = false := decide_eq_false (Ne.symm hne)
      have hold : decide (nameOf e = name) = false := decide_eq_false fun h => hne (h ▸ he)
      rw [if_pos he, hnew, hold]
      exact ih
    · rw [if_neg he]
      split
      · rfl
      · exact ih

theorem setPassword_yields (hd : Holds S d) (hpw : pw ∈ d.pws)
    (hsp : pw.name ∈ d.sps.map (·.name)) (hhash : Field hash) (hfits : Fits env S pw.name hash) :
    Prog.Yields (setPassword env pw.name hash) S fun _ S' => PasswordSet env d S S' := by
  have hclean := hd.clean hpw
  have hfindPw : pwOf S pw.name = some pw := by rw [hd.pwOf, hd.passwd.find_of_mem hpw]
  obtain ⟨sp, hsp, hname⟩ := mem_map.1 hsp
  have hfindSp : spOf S pw.name = some sp := by rw [hd.spOf, ← hname, hd.shadow.find_of_mem hsp]
  have hline := hfits.shadow
  rw [shadowLine, hfindSp] at hline
  obtain ⟨sp', hparse, hname', hstable⟩ := parseSpwd_spwdLine_stable env sp hclean.name.1 hhash.1
  have hd1 := hd.replace_shadow ⟨newline_spwdLine env sp hclean.name hhash, hline⟩ hparse
  rw [hname'] at hd1
  have hnames : SameNames d { d with sps := replaceEntry Spwd.name sp' d.sps } :=
    ⟨rfl, names_replaceEntry sp' d.sps, rfl⟩
  -- another hash would have had the same line
  have hlines : ∀ n hash', shadowLine env (replacedIn S .shadow pw.name
      (some (spwdLine env pw.name hash sp))) n hash' = shadowLine env S n hash' := by
    intro n hash'
    rw [shadowLine, shadowLine, hd1.spOf]
    by_cases hn : n = pw.name
    · rw [hn, find_replaceEntry hname' (mem_map.2 ⟨sp, hsp, hname⟩), hfindSp]
      exact hstable hash'
    · rw [find_replaceEntry_of_ne (by rw [hname']; exact hn), ← hd.spOf]
  unfold setPassword
  refine yields_bind (yields_getpwnam ?_)
  rw [hfindPw]
  refine yields_bind (yields_take (yields_bind (yields_getspnam ?_)))
  rw [hfindSp]
  have hany : (fgetsAll 4096 [] (S .shadow)).any (isLineOf pw.name) = true := by
    rw [← hname]
    exact hd.shadow.found named_spwd hsp
  dsimp only at hline ⊢
  rw [snprintf_eq (by omega : (spwdLine env pw.name hash sp).length < 4096)]
  refine yields_bind (yields_replace ?_)
  rw [hany, Bool.not_true, if_neg Bool.false_ne_true]
  refine yields_ite (fun hx => ?_) fun hx => ?_
  · have hlen := hfits.passwd pw hfindPw hx
    rw [snprintf_eq (by omega)]
    have hwhole : Whole (passwdLine pw.name pw.uid pw.gid pw.gecos pw.dir pw.shell) :=
      ⟨newline_passwdLine _ _ hclean.name hclean.gecos.2 hclean.dir.2 hclean.shell.2, hlen⟩
    have hd2 := hd1.replace_passwd hwhole (parsePasswd_passwdLine hclean.name.1 hclean.uid
      hclean.gid hclean.gecos.1 hclean.dir.1 hclean.shell.1)
    refine yields_bind (yields_replace (yields_give
      ⟨⟨_, hd2, names_replaceEntry _ d.pws, hnames.sps, rfl⟩, fun n hash' hfit => ⟨?_, ?_⟩⟩))
    · exact (hlines n hash').symm ▸ hfit.shadow
    · intro pw' hpw' hx'
      rw [hd2.pwOf] at hpw'
      by_cases hn : n = pw.name
      · subst hn
        have hfind := @find_replaceEntry pw.name _ Passwd.name { pw with passwd := inShadow } d.pws
          rfl (mem_names hpw)
        obtain rfl := Option.some.inj (hfind.symm.trans hpw')
        exact absurd rfl hx'
      · have hfind := @find_replaceEntry_of_ne n _ Passwd.name { pw with passwd := inShadow } hn d.pws
        exact hfit.passwd pw' (hd.pwOf.trans (hfind.symm.trans hpw')) hx'
  · refine yields_give ⟨⟨_, hd1, hnames⟩, fun n hash' hfit => ⟨?_, hfit.passwd⟩⟩
    exact (hlines n hash').symm ▸ hfit.shadow

theorem PasswordSet.refl (hd : Holds S d) : PasswordSet env d S S :=
  ⟨⟨d, hd, rfl, rfl, rfl⟩, fun _ _ => id⟩

theorem PasswordSet.kept (h : PasswordSet env d S S') (hd : Holds S d) (hc : Covered d)
    (hids : OwnIds c S') : Kept c S S' := by
  obtain ⟨d', hd', hnames⟩ := h.holds
  exact hnames.kept hd hd' hc hids

theorem PasswordSet.step (h : PasswordSet env d S σ) (hc : Covered d)
    (hpw : pwOf σ name = some pw) (hhash : Field hash) (hfits : Fits env S name hash) :
    Prog.Yields (setPassword env name hash) σ fun _ S' => PasswordSet env d S S' := by
  obtain ⟨d', hd', hnames⟩ := h.holds
  rw [hd'.pwOf] at hpw
  obtain ⟨hmem, rfl⟩ := of_find hpw
  have hshadow := (hnames.covered hc).shadowed _ (mem_names hmem)
  refine yields_mono (setPassword_yields hd' hmem hshadow hhash (h.fits _ _ hfits))
    fun _ S' hset => ⟨?_, fun n hash' hfit => hset.fits _ _ (h.fits _ _ hfit)⟩
  obtain ⟨d'', hd'', hnames'⟩ := hset.holds
  exact ⟨d'', hd'', hnames'.pws.trans hnames.pws, hnames'.sps.trans hnames.sps,
    hnames'.grs.trans hnames.grs⟩

theorem Holds.field_hashOf (hd : Holds S d) (hpw : pw ∈ d.pws) : ∀ hash ∈ hashOf S pw, Field hash := by
  intro hash hmem
  unfold hashOf at hmem
  split_ifs at hmem with hx
  · cases hmem
    exact (hd.clean hpw).passwd
  · obtain ⟨sp, hsp, rfl⟩ := Option.map_eq_some_iff.1 hmem
    rw [hd.spOf] at hsp
    exact (hd.clean_sp (of_find hsp).1).2

theorem yields_storedHash {good : Option Text → Files → Prop} (h : good (hashOf S pw) S) :
    Prog.Yields (storedHash pw) S good := by
  unfold Prog.Yields
  rw [sat_storedHash]
  intro a ha
  cases ha
  exact h

theorem newPassword_yields {typed : List Text} (hd : Holds S d) (hc : Covered d)
    (hpw : pwOf S name = some pw)
    (hhash : ∀ n typed hash, env.hashPassword n typed = some hash → Field hash)
    (hfits : ∀ t ∈ typed, ∀ hash ∈ env.hashPassword 0 t, Fits env S name hash) :
    Prog.Yields (newPassword env name typed) S fun _ S' => PasswordSet env d S S' := by
  have hsame : ∀ r : Nat, Prog.Yields (pure r : Tool Nat) S fun _ S' => PasswordSet env d S S' :=
    fun _ => yields_pure (.refl hd)
  unfold newPassword
  split
  next first second _ =>
    refine yields_ite (fun _ => yields_fail) fun _ => ?_
    refine yields_ite (fun _ => hsame 1) fun _ => ?_
    cases hnew : env.hashPassword 0 first with
    | none => exact yields_fail
    | some hash =>
      refine yields_bind (yields_mono ((PasswordSet.refl hd).step hc hpw
        (hhash 0 first hash hnew) (hfits first (.head _) hash hnew)) fun _ S' hset => ?_)
      exact yields_pure hset
  next first => exact yields_ite (fun _ => yields_fail) fun _ => hsame 1
  next => exact hsame 1

theorem cmdPasswd_kept {argv : List Text} (hd : Holds S d) (hc : Covered d)
    (hok : Orderly S (env, .passwd argv input)) :
    Prog.Yields (cmdPasswd env argv input) S fun _ S' => Kept (.passwd argv input) S S' := by
  obtain ⟨-, hhash, hcommand⟩ := hok
  have hset : Prog.Yields (cmdPasswd env argv input) S fun _ S' => PasswordSet env d S S' := by
    unfold cmdPasswd
    cases ho : passwdOpts argv with
    | none => exact yields_fail
    | some o =>
      refine yields_bind (yields_getpwuid ?_)
      dsimp only
      have htarget : passwdTarget env S o = (o.target <|>
          ((passwds (S .passwd)).find? (·.uid = env.getuid)).map (·.name)) := rfl
      rw [← htarget]
      cases hto : passwdTarget env S o with
      | none => exact yields_fail
      | some target =>
        refine yields_bind (yields_getpwnam ?_)
        cases hpw : pwOf S target with
        | none => exact yields_fail
        | some pw =>
          obtain ⟨hfits, hnew⟩ := hcommand o target pw ho hto hpw
          have hmem := (of_find (hd.pwOf.symm.trans hpw)).1
          have hfield := hd.field_hashOf hmem
          have htyped : ∀ typed, typed ⊆ typedLines input →
              Prog.Yields (newPassword env target typed) S fun _ S' => PasswordSet env d S S' :=
            fun typed hsub => newPassword_yields hd hc hpw hhash fun t ht => hnew t (hsub ht)
          refine yields_ite (fun _ => yields_fail) fun _ => ?_
          refine yields_ite (fun _ => yields_fail) fun _ => ?_
          refine yields_ite (fun hany => ?_) fun _ => ?_
          · refine yields_bind (yields_storedHash ?_)
            have hnewField : Field (snprintf 512 (if o.del then [] else
                if o.lock then lockedHash (hashOf S pw) else unlockedHash (hashOf S pw))) := by
              refine field_take ?_ _
              split_ifs
              · exact field_nil
              · exact field_lockedHash hfield
              · exact field_unlockedHash hfield
            refine yields_bind (yields_mono ((PasswordSet.refl hd).step hc hpw hnewField
              (hfits hany)) fun _ S' hset => yields_pure hset)
          · refine yields_ite (fun _ => htyped _ (List.Subset.refl _)) fun _ => ?_
            refine yields_bind (yields_storedHash ?_)
            split
            next =>
              refine yields_ite (fun _ => htyped _ (List.Subset.refl _)) fun _ => ?_
              split
              next old typed hlines =>
                refine yields_ite (fun _ => htyped _ ?_) fun _ => yields_pure (.refl hd)
                rw [hlines]
                exact subset_cons_self old typed
              next => exact yields_pure (.refl hd)
            next => exact htyped _ (List.Subset.refl _)
  exact yields_mono hset fun _ S' h => h.kept hd hc trivial

/-! ## `chpasswd` and `pwconv` -/

theorem chpasswdLines_yields {lines : List Text} {rc n : Nat} (hc : Covered d)
    (hhash : ∀ n typed hash, env.hashPassword n typed = some hash → Field hash)
    (hfits : ∀ line ∈ lines, ':' ∈ line → ∀ n,
      ∀ hash ∈ env.hashPassword n ((line.dropWhile (· ≠ ':')).drop 1),
        Fits env S (line.takeWhile (· ≠ ':')) hash) (h : PasswordSet env d S σ) :
    Prog.Yields (chpasswdLines env lines rc n) σ fun _ S' => PasswordSet env d S S' := by
  induction lines generalizing σ rc n with
  | nil => exact yields_pure h
  | cons line lines ih =>
    have hrest := fun {σ rc n} => @ih σ rc n fun l hl => hfits l (.tail _ hl)
    unfold chpasswdLines
    refine yields_ite (fun _ => hrest h) fun _ => ?_
    refine yields_ite (fun _ => hrest h) fun hcolon => ?_
    refine yields_bind (yields_getpwnam ?_)
    cases hpw : pwOf σ (line.takeWhile (· ≠ ':')) with
    | none => exact hrest h
    | some pw =>
      dsimp only
      cases hnew : env.hashPassword n ((line.dropWhile (· ≠ ':')).drop 1) with
      | none => exact yields_fail
      | some hash =>
        refine yields_bind (yields_mono (h.step hc hpw (hhash _ _ _ hnew)
          (hfits line (.head _) (not_not.1 hcolon) n hash hnew)) fun _ S' hset => hrest hset)

theorem cmdChpasswd_kept (hd : Holds S d) (hc : Covered d)
    (hok : Orderly S (env, .chpasswd input)) :
    Prog.Yields (cmdChpasswd env input) S fun _ S' => Kept (.chpasswd input) S S' := by
  obtain ⟨-, hhash, hfits⟩ := hok
  unfold cmdChpasswd
  refine yields_ite (fun _ => yields_fail) fun _ => ?_
  exact yields_mono (chpasswdLines_yields hc hhash hfits (.refl hd))
    fun _ S' h => h.kept hd hc trivial

/-- Every account has its shadow entry, so `pwconv` has nothing to do. -/
theorem cmdPwconv_kept (hd : Holds S d) (hc : Covered d) :
    Prog.Yields (cmdPwconv env) S fun _ S' => Kept .pwconv S S' := by
  have hsome : ∀ pw ∈ passwds (S .passwd), (spOf S pw.name).isSome := by
    intro pw hpw
    rw [hd.passwds] at hpw
    obtain ⟨sp, hsp, hname⟩ := mem_map.1 (hc.shadowed _ (mem_names hpw))
    rw [hd.spOf, ← hname, hd.shadow.find_of_mem hsp]
    rfl
  have hsame : Prog.Yields (cmdPwconv env) S fun _ S' => S' = S := by
    unfold cmdPwconv
    refine yields_ite (fun _ => yields_fail) fun _ => ?_
    refine yields_bind (yields_getpwent (yields_bind ?_))
    apply sat_mono (toMove_sat (passwds (S .passwd)) 0)
    rintro r S₁ ⟨hS1, moved, hsub, hmove, hr⟩ a ha
    obtain rfl : S = S₁ := hS1.symm
    obtain rfl : moved = [] := by
      refine eq_nil_iff_forall_not_mem.2 fun pw hpw => ?_
      have h := hsome pw (hsub.subset hpw)
      rw [(hmove pw hpw).2] at h
      cases h
    obtain rfl : [] = a := Option.some.inj (hr.symm.trans ha)
    refine yields_bind (yields_pure (yields_bind (yields_getpwent
      (yields_bind ?_))))
    refine yields_mono (Prog.yields_each (fun pw hpw σ (hσ : σ = S) => ?_) rfl)
      fun _ S' hS' => yields_pure hS'
    rw [hσ]
    refine yields_bind (yields_getspnam ?_)
    obtain ⟨sp, hsp⟩ := Option.isSome_iff_exists.1 (hsome pw hpw)
    rw [hsp]
    exact yields_pure rfl
  refine yields_mono hsame fun _ S' hS' => ?_
  rw [hS']
  exact (.refl hd : PasswordSet env d S S).kept hd hc trivial

/-! ## `useradd` -/

variable {u : Text} {drops : Prop}

theorem Regrouped.ownId (h : Regrouped drops u grs grs')
    (hown : OwnId Group.name Group.gid name grs) : OwnId Group.name Group.gid name grs' := by
  obtain ⟨gr, hgr, hname, hother⟩ := hown
  obtain ⟨gr', hgr', hname', hgid', -⟩ := h.mem_of hgr
  refine ⟨gr', hgr', hname'.trans hname, fun e he hne => ?_⟩
  obtain ⟨gr1, hgr1, hname1, hgid1, -⟩ := h.of_mem he
  rw [hgid1, hgid']
  exact hother gr1 hgr1 (hname1 ▸ hne)

theorem Regrouped.covered (h : Regrouped drops u d.grs grs) (hc : Covered d)
    (hu : u ∈ d.pws.map (·.name)) : Covered { d with grs := grs } where
  shadowed := hc.shadowed
  members gr' hgr' v hv := by
    obtain ⟨gr, hgr, -, -, hjoins⟩ := h.of_mem hgr'
    rcases hjoins.mem_or_eq hv with hv | rfl
    · exact hc.members gr hgr v hv
    · exact hu

theorem Regrouped.keeps (h : Regrouped drops u grs grs')
    (hgr : gr ∈ grs) {v : Text} (hv : v ∈ gr.mem) (hkeep : v = u → ¬drops) :
    ∃ gr' ∈ grs', gr'.name = gr.name ∧ v ∈ gr'.mem := by
  obtain ⟨gr', hgr', hname, -, hjoins⟩ := h.mem_of hgr
  exact ⟨gr', hgr', hname, hjoins.kept hv hkeep⟩

theorem groupLine_eq (name : Text) (gid : Nat) (members : Text) :
    groupLine name gid members = name ++ ':' :: 'x' :: ':' :: (dec gid ++ ':' :: members) := by
  simp [groupLine, join, List.intercalate, inShadow]

theorem newUid_lt (S : Files) (o : UseraddOpts) : newUid S o < 2 ^ 32 := by
  unfold newUid
  split_ifs
  · omega
  · exact toId_lt _
  · exact nextFree_lt (by decide) _

/-- The groups, with the one of the new account. -/
def withOwnGroup (o : UseraddOpts) (name : Text) (g : Nat) (grs : List Group) : List Group :=
  if o.group = none then grs ++ [⟨name, g, []⟩] else grs

theorem useraddGid_yields {o : UseraddOpts} (hd : Holds S d) (hfield : Field name)
    (hwell : Addable env S o name) :
    Prog.Yields (useraddGid o name) S fun g S₁ => newGid S o = some g ∧ g < 2 ^ 32 ∧
      Holds S₁ { d with grs := withOwnGroup o name g d.grs } := by
  unfold useraddGid newGid withOwnGroup
  have hlen := hwell.groupFits
  have hnone := hwell.group
  unfold newGid at hlen
  cases hgroup : o.group with
  | none =>
    rw [hgroup] at hlen hnone
    have hnew := hnone rfl
    rw [hd.grOf] at hnew
    have hlt := nextFree_lt (by decide : firstGid < 60000) ((groups (S .group)).map (·.gid))
    refine yields_bind (yields_bind (yields_getgrent (yields_pure
      (yields_bind (yields_append (yields_pure ?_))))))
    exact ⟨rfl, hlt, hd.add_group hfield hlt (hlen rfl _ rfl) (not_mem_of_find hnew)⟩
  | some group =>
    unfold groupId
    refine yields_bind (yields_getgrnam ?_)
    rw [hd.grOf]
    cases hfind : d.grs.find? (·.name = group) with
    | none => exact yields_fail
    | some gr =>
      refine yields_pure ⟨?_, (hd.clean_gr (of_find hfind).1).2.1, hd⟩
      dsimp only
      rw [hd.grOf, hfind]
      rfl

theorem joinable_own {g : Nat} {list : Text} (hmem : name ∈ tokens list)
    (hlen : (groupLine name g []).length < 512) : Joinable name ⟨name, g, []⟩ := by
  obtain ⟨hne, hcomma⟩ := listed_tokens list name hmem
  have hsingle : [','].intercalate (([] : List Text).filter (· ≠ name) ++ [name]) = name := by
    simp [List.intercalate]
  rw [groupLine_eq] at hlen
  simp only [length_append, length_cons, length_nil] at hlen
  refine ⟨hne, hcomma, ?_, ?_⟩
  · dsimp only
    rw [hsingle]
    omega
  · dsimp only
    rw [hsingle, groupLine_eq]
    simp only [length_append, length_cons]
    omega

/-- The entry of the new account. -/
def newPasswd (S : Files) (o : UseraddOpts) (name : Text) (g : Nat) : Passwd :=
  ⟨name, inShadow, newUid S o, g, o.gecos, o.home.getD (homeOf name), o.shell⟩

/-- The entries with a new account, and with its group. -/
def withAccount (d : Records) (o : UseraddOpts) (pw : Passwd) (sp : Spwd) : Records :=
  ⟨d.pws ++ [pw], d.sps ++ [sp], withOwnGroup o pw.name pw.gid d.grs⟩

theorem mem_withOwnGroup {o : UseraddOpts} {g : Nat}
    (h : gr ∈ withOwnGroup o name g grs) : gr ∈ grs ∨ o.group = none ∧ gr = ⟨name, g, []⟩ := by
  unfold withOwnGroup at h
  split_ifs at h with hnone
  · exact (mem_append.1 h).imp_right fun hgr => ⟨hnone, mem_singleton.1 hgr⟩
  · exact .inl h

theorem Covered.withAccount {o : UseraddOpts} {sp : Spwd} (hc : Covered d)
    (hname : sp.name = pw.name) : Covered (withAccount d o pw sp) where
  shadowed n hn := by
    unfold Vlogin.withAccount at hn ⊢
    rw [map_append, mem_append, map_singleton, mem_singleton] at hn ⊢
    rw [hname]
    exact hn.imp_left (hc.shadowed n)
  members gr hgr v hv := by
    unfold Vlogin.withAccount
    rw [map_append]
    rcases mem_withOwnGroup hgr with hgr | ⟨-, rfl⟩
    · exact mem_append_left _ (hc.members gr hgr v hv)
    · cases hv

section Useradd

variable {argv : List Text} {o : UseraddOpts} {g : Nat} {sp : Spwd}

theorem newUid_own (hd : Holds S d) (hwell : Addable env S o name) (hneg : o.uid < 0)
    (hsys : ¬o.systemAcct) :
    OwnId Passwd.name Passwd.uid name (d.pws ++ [newPasswd S o name g]) := by
  have hnew : newUid S o = nextFree firstUid (d.pws.map (·.uid)) := by
    rw [newUid, if_neg fun h => hsys h.1, if_neg (by omega), hd.passwds]
  have hroom := hwell.uid hneg (by simpa using hsys)
  rw [hd.passwds] at hroom
  refine @ownId_concat _ Passwd.name Passwd.uid d.pws (newPasswd S o name g) ?_
  rw [newPasswd]
  dsimp only
  rw [hnew]
  exact nextFree_not_mem (by decide) hroom

theorem newGid_own (hd : Holds S d) (hwell : Addable env S o name) (hg : newGid S o = some g)
    (hnone : o.group = none) : OwnId Group.name Group.gid name (withOwnGroup o name g d.grs) := by
  have hroom := hwell.gid hnone
  rw [newGid, hnone] at hg
  obtain rfl := Option.some.inj hg
  rw [withOwnGroup, if_pos hnone]
  refine @ownId_concat _ Group.name Group.gid d.grs ⟨name, _, []⟩ ?_
  rw [hd.groups] at hroom ⊢
  exact nextFree_not_mem (by decide) hroom

/-- Behind the loop over the groups, everything is in order. -/
theorem useradd_kept (hd : Holds S d) (hc : Covered d) (ho : useraddOpts argv = some o)
    (hname : o.name = some name) (hwell : Addable env S o name) (hg : newGid S o = some g)
    (hsp : sp.name = name)
    (h : GroupedAs (withAccount d o (newPasswd S o name g) sp) False name S') :
    Kept (.useradd argv) S S' := by
  obtain ⟨grs, hd', hre⟩ := h
  have hself : name ∈ (d.pws ++ [newPasswd S o name g]).map (·.name) := by
    rw [map_append]
    exact mem_append_right _ (mem_singleton_self name)
  refine hd.kept hd' (hre.covered (hc.withAccount hsp) hself) (fun o' name' ho' hname' => ?_)
    fun gr hgr v hv => .inr (hre.keeps ?_ hv fun _ => id)
  · obtain rfl : o = o' := Option.some.inj (ho.symm.trans ho')
    obtain rfl : name = name' := Option.some.inj (hname.symm.trans hname')
    rw [hd'.passwds, hd'.groups]
    refine ⟨fun hneg => ?_, fun hnone => hre.ownId (newGid_own hd hwell hg hnone)⟩
    split_ifs with hsys
    · exact ⟨_, mem_append_right _ (mem_singleton_self _), rfl, if_pos ⟨hsys, hneg⟩⟩
    · exact newUid_own hd hwell hneg hsys
  · change gr ∈ withOwnGroup o name g d.grs
    unfold withOwnGroup
    split_ifs
    · exact mem_append_left _ hgr
    · exact hgr

theorem cmdUseradd_kept (hd : Holds S d) (hc : Covered d) (hok : Orderly S (env, .useradd argv)) :
    Prog.Yields (cmdUseradd env argv) S fun _ S' => Kept (.useradd argv) S S' := by
  unfold cmdUseradd
  refine yields_ite (fun _ => yields_fail) fun _ => ?_
  cases ho : useraddOpts argv with
  | none => exact yields_fail
  | some o =>
    dsimp only
    cases hname : o.name with
    | none => exact yields_fail
    | some name =>
      have hwell : Addable env S o name := hok.2.2 o name ho hname
      refine yields_bind (yields_getpwnam (yields_ite (fun _ => yields_fail)
        fun hpw => ?_))
      refine yields_ite (fun _ => yields_fail) fun hcolon => ?_
      have hfield : Field name := ⟨hcolon, hwell.oneLine⟩
      have hnewPw : name ∉ d.pws.map (·.name) := by
        rw [hd.pwOf] at hpw
        cases hfind : d.pws.find? (·.name = name) with
        | none => exact not_mem_of_find hfind
        | some pw =>
          rw [hfind] at hpw
          exact absurd rfl hpw
      have hnewSp : name ∉ d.sps.map (·.name) := by
        have hshadow := hwell.shadow
        rw [hd.spOf] at hshadow
        exact not_mem_of_find hshadow
      refine yields_bind (yields_take (yields_bind ?_))
      apply sat_mono (useraddUid_sat o S)
      rintro r S₁ ⟨rfl, hS1⟩ _ ⟨⟩
      obtain rfl : S = S₁ := hS1.symm
      refine yields_bind (yields_mono (useraddGid_yields hd hfield hwell) ?_)
      rintro g S2 ⟨hg, hglt, hd2⟩
      have hhome : Field (o.home.getD (homeOf name)) := by
        cases h : o.home with
        | none =>
          refine field_take ⟨fun hc => ?_, fun hc => ?_⟩ 255
          · exact hfield.1 ((mem_append.1 hc).resolve_left (by decide))
          · exact hfield.2 ((mem_append.1 hc).resolve_left (by decide))
        | some home => exact hwell.home home h
      have hpwLen := hwell.passwdFits g hg
      have hspLen := hwell.shadowFits
      rw [snprintf_eq hpwLen, snprintf_eq hspLen]
      have hparse := parsePasswd_passwdLine hcolon (newUid_lt S o) hglt hwell.gecos.1 hhome.1
        hwell.shell.1
      obtain ⟨sp, hsp, hspName, -⟩ := parseSpwd_newSpwdLine env hcolon
        (by decide : ':' ∉ noPassword)
      have hd3 := hd2.append_passwd ⟨newline_passwdLine _ _ hfield hwell.gecos.2 hhome.2
        hwell.shell.2, by omega⟩ hparse hnewPw
      have hd4 := hd3.append_shadow ⟨newline_newSpwdLine env hfield (by decide), by omega⟩ hsp
        (by rw [hspName]; exact hnewSp)
      have hstart : GroupedAs (withAccount d o (newPasswd S o name g) sp) False name _ :=
        ⟨_, hd4, .refl _ _ _⟩
      have hkept := fun S' => @useradd_kept S S' d name env argv o g sp hd hc ho hname hwell hg
        hspName
      refine yields_bind (yields_append (yields_bind (yields_append
        (yields_bind (yields_give ?_)))))
      cases hgroups : o.groups with
      | none => exact yields_pure (hkept _ hstart)
      | some list =>
        refine yields_bind (yields_mono (addToGroups_yields hfield hstart ?_)
          fun _ S' h => yields_pure (hkept S' h))
        intro gr hgr hmem hor
        have hjoins := hwell.joins list hgroups
        rw [JoinsWell, hd.groups] at hjoins
        rcases mem_withOwnGroup hgr with hold | ⟨hnone, rfl⟩
        · exact hjoins gr hold hmem hor
        · exact joinable_own hmem (hwell.groupFits hnone g hg)

end Useradd

/-! ## `usermod` -/

section Usermod

variable {argv : List Text} {o : UsermodOpts} {g : Nat} {S₁ : Files}

/-- The entry after `usermod` has written its line, if it has. -/
structure Entered (d : Records) (o : UsermodOpts) (pw : Passwd) (S₁ : Files) (pws : List Passwd)
    (pw₁ : Passwd) : Prop where
  holds : Holds S₁ { d with pws := pws }
  names : pws.map (·.name) = d.pws.map (·.name)
  mem : pw₁ ∈ pws
  name : pw₁.name = pw.name
  passwd : pw₁.passwd = if o.shell.isSome ∨ o.home.isSome ∨ o.group.isSome ∨ 0 ≤ o.uid
    then inShadow else pw.passwd
  same : pw₁.passwd ≠ inShadow → pw₁ = pw

theorem mem_replaceEntry_self {α : Type} {nameOf : α → Text} {e new : α} {es : List α} (he : e ∈ es)
    (hname : nameOf e = nameOf new) : new ∈ replaceEntry nameOf new es :=
  mem_map.2 ⟨e, he, if_pos hname⟩

theorem usermodEntry_yields (hd : Holds S d) (hpw : pw ∈ d.pws)
    (hwell : Modifiable env S o pw.name pw) (hg : usermodGid S o pw = some g) :
    Prog.Yields (usermodEntry o pw.name pw g) S fun _ S₁ => ∃ pws pw1, Entered d o pw S₁ pws pw1 := by
  have hclean := hd.clean hpw
  unfold usermodEntry
  refine yields_ite (fun hrewrites => ?_) fun hnot => ?_
  · have hlen := hwell.lineFits hrewrites g hg
    unfold usermodLine at hlen
    have huid : (if 0 ≤ o.uid then toId o.uid else pw.uid) < 2 ^ 32 := by
      split_ifs
      · exact toId_lt _
      · exact hclean.uid
    have hhome : Field (o.home.getD (snprintf 256 pw.dir)) := by
      cases h : o.home with
      | none => exact field_take hclean.dir 255
      | some home => exact hwell.home home h
    have hshell : Field (o.shell.getD (snprintf 256 pw.shell)) := by
      cases h : o.shell with
      | none => exact field_take hclean.shell 255
      | some shell => exact hwell.shell shell h
    have hgecos : Field (snprintf 256 pw.gecos) := field_take hclean.gecos 255
    have hparse := parsePasswd_passwdLine hclean.name.1 huid (usermodGid_lt hclean g hg) hgecos.1
      hhome.1 hshell.1
    dsimp only
    rw [snprintf_eq hlen]
    have hd1 := hd.replace_passwd ⟨newline_passwdLine _ _ hclean.name hgecos.2 hhome.2 hshell.2,
      by omega⟩ hparse
    refine yields_bind (yields_take (yields_bind (yields_replace
      (yields_give ⟨_, _, hd1, names_replaceEntry _ _, mem_replaceEntry_self hpw rfl, rfl, ?_,
        fun hx => absurd rfl hx⟩))))
    rw [if_pos hrewrites]
  · refine yields_pure ⟨d.pws, pw, hd, rfl, hpw, rfl, ?_, fun _ => rfl⟩
    rw [if_neg hnot]

/-- The user leaves and joins groups. -/
theorem usermodGroups_yields (hd : Holds S₁ d) (hname : Field name)
    (hleaves : o.groups.isSome → o.append = false → ∀ gr ∈ d.grs, name ∈ gr.mem →
      ∀ gr' ∈ d.grs, gr'.name = snprintf 64 gr.name → GroupFits gr' (gr'.mem.filter (· ≠ name)))
    (hjoins : ∀ list ∈ o.groups, ∀ gr ∈ d.grs, gr.name ∈ tokens (snprintf 512 list) →
      (o.append = false ∨ name ∉ gr.mem) → Joinable name gr) :
    Prog.Yields (usermodGroups o name g) S₁ fun _ =>
      GroupedAs d (o.groups.isSome ∧ o.append = false) name := by
  have hstart : GroupedAs d (o.groups.isSome ∧ o.append = false) name S₁ := ⟨_, hd, .refl _ _ _⟩
  unfold usermodGroups
  cases hgroups : o.groups with
  | none =>
    rw [hgroups] at hstart
    exact yields_pure hstart
  | some list =>
    rw [hgroups] at hstart hleaves
    have hadd : ∀ σ, GroupedAs d ((some list).isSome ∧ o.append = false) name σ →
        Prog.Yields (addToGroups list name) σ fun _ =>
          GroupedAs d ((some list).isSome ∧ o.append = false) name :=
      fun σ hσ => addToGroups_yields hname hσ fun gr hgr hmem hor =>
        hjoins list hgroups gr hgr hmem (hor.imp_left And.right)
    by_cases happend : o.append = true
    · simp only [if_pos happend]
      exact yields_bind (yields_pure (yields_bind (yields_pure
        (hadd S₁ hstart))))
    · have hfalse : o.append = false := by simpa using happend
      simp only [if_neg happend]
      refine yields_bind (yields_getgrent (yields_bind (yields_mono
        (Prog.yields_each (fun group hgroup σ hσ => ?_) hstart) fun _ σ hσ => hadd σ hσ)))
      refine dropFromGroup_yields ⟨rfl, hfalse⟩ hσ fun gr' hgr' hname' => ?_
      obtain ⟨gr, hgr, rfl⟩ := mem_map.1 hgroup
      have hgr := mem_filter.1 (mem_of_mem_take hgr)
      rw [hd.groups] at hgr
      exact hleaves rfl hfalse gr hgr.1 (of_decide_eq_true hgr.2).2 gr' hgr' hname'

/-- The hash is locked or unlocked. -/
theorem usermodLock_yields {pw1 : Passwd} {S2 : Files}
    (hd : Holds S d) (hpw : pw ∈ d.pws) (hwell : Modifiable env S o pw.name pw)
    (he : Entered d o pw S₁ pws pw1) (hd2 : Holds S2 ⟨pws, d.sps, grs⟩)
    (hc2 : Covered ⟨pws, d.sps, grs⟩) :
    Prog.Yields (usermodLock env o pw.name) S2 fun _ S' => ∃ d', Holds S' d' ∧
      SameNames ⟨pws, d.sps, grs⟩ d' := by
  have hfound : pwOf S2 pw.name = some pw1 := by
    rw [hd2.pwOf, ← he.name]
    exact hd2.passwd.find_of_mem he.mem
  have hsp : ∀ n, spOf S2 n = spOf S n := fun n => hd2.spOf.trans hd.spOf.symm
  -- what is locked is the hash that the condition is about
  have hhash : hashOf S2 pw1 = usermodHash S o pw := by
    have hpasswd := he.passwd
    unfold usermodHash
    split_ifs at hpasswd ⊢
    · rw [hashOf, hashOf, hpasswd, he.name, hsp]
    · rw [hashOf, hashOf, hpasswd, he.name, hsp]
  have hfitsAll : ∀ hash, Fits env S pw.name hash → Fits env S2 pw.name hash := by
    intro hash hfit
    refine ⟨?_, fun pw' hpw' hx => ?_⟩
    · have hline := hfit.shadow
      rw [shadowLine, hsp]
      exact hline
    · obtain rfl := Option.some.inj (hfound.symm.trans hpw')
      obtain rfl := he.same hx
      exact hfit.passwd _ (hd.pwOf.trans (hd.passwd.find_of_mem hpw)) hx
  unfold usermodLock
  refine yields_ite (fun hany => ?_) fun _ => yields_pure ⟨_, hd2, rfl, rfl, rfl⟩
  have hfits := hwell.lockFits hany
  refine yields_bind (yields_getpwnam ?_)
  rw [hfound]
  refine yields_bind (yields_storedHash ?_)
  have hfield := hd2.field_hashOf he.mem
  rw [hhash] at hfield ⊢
  have hnewField : Field (snprintf 512 (if o.lock then usermodLockedHash (usermodHash S o pw)
      else unlockedHash (usermodHash S o pw))) := by
    refine field_take ?_ _
    split_ifs
    · exact field_usermodLockedHash hfield
    · exact field_unlockedHash hfield
  have hset := (PasswordSet.refl hd2).step hc2 hfound hnewField (hfitsAll _ hfits)
  exact yields_mono hset fun _ S' h => h.holds

theorem cmdUsermod_kept (hd : Holds S d) (hc : Covered d) (hok : Orderly S (env, .usermod argv)) :
    Prog.Yields (cmdUsermod env argv) S fun _ S' => Kept (.usermod argv) S S' := by
  unfold cmdUsermod
  refine yields_ite (fun _ => yields_fail) fun _ => ?_
  cases ho : usermodOpts argv with
  | none => exact yields_fail
  | some o =>
    dsimp only
    cases hname : o.name with
    | none => exact yields_fail
    | some name =>
      refine yields_bind (yields_getpwnam ?_)
      cases hpw : pwOf S name with
      | none => exact yields_fail
      | some pw =>
        have hwell : Modifiable env S o name pw := hok.2.2 o name pw ho hname hpw
        obtain ⟨hmem, rfl⟩ := of_find (hd.pwOf.symm.trans hpw)
        have hrest : ∀ g, usermodGid S o pw = some g → Prog.Yields (do
            usermodEntry o pw.name pw g
            usermodGroups o pw.name g
            usermodLock env o pw.name
            pure 0) S fun _ S' => Kept (.usermod argv) S S' := by
          intro g hg
          refine yields_bind (yields_mono (usermodEntry_yields hd hmem hwell hg) ?_)
          rintro _ S₁ ⟨pws, pw1, he⟩
          have hleaves := hwell.leaves
          have hjoins := hwell.joins
          simp only [JoinsWell, hd.groups] at hleaves hjoins
          refine yields_bind (yields_mono (usermodGroups_yields he.holds
            (hd.clean hmem).name (fun hsome happend gr hgr hin gr' hgr' hname' =>
              hleaves hsome happend gr hgr hin gr' ?_) hjoins) ?_)
          · rw [Option.mem_def, ← hname', hd.grOf]
            exact hd.group.find_of_mem hgr'
          rintro _ S2 ⟨grs, hd2, hre⟩
          have hc1 : Covered { d with pws := pws } := by
            refine ⟨?_, ?_⟩
            · rw [he.names]
              exact hc.shadowed
            · rw [he.names]
              exact hc.members
          have hc2 := hre.covered hc1 (mem_map.2 ⟨pw1, he.mem, he.name⟩)
          refine yields_bind (yields_mono
            (usermodLock_yields hd hmem hwell he hd2 hc2) ?_)
          rintro _ S' ⟨d', hd', hnames⟩
          refine yields_pure (hd.kept hd' (hnames.covered hc2) trivial
            fun gr hgr v hv => ?_)
          by_cases htakes : v = pw.name ∧ o.groups.isSome
          · exact .inl ⟨o, ho, htakes.2, htakes.1 ▸ hname⟩
          · rw [hnames.grs]
            exact .inr (hre.keeps hgr hv fun hv hdrops => htakes ⟨hv, hdrops.1⟩)
        cases hgroup : o.group with
        | none =>
          refine yields_bind (yields_pure (hrest pw.gid ?_))
          rw [usermodGid, hgroup]
        | some group =>
          refine yields_bind (yields_bind (yields_getgrnam ?_))
          cases hgr : grOf S group with
          | none => exact yields_fail
          | some gr =>
            refine yields_pure (hrest gr.gid ?_)
            rw [usermodGid, hgroup]
            exact congrArg (Option.map _) hgr

end Usermod

end Verkos.Vlogin
