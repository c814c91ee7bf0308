import Verkos.Vlogin.Locked

/-!
# What the commands do to the stored hashes

One lemma for each command: where the condition on it holds, the account files stay tidy, and each
account's stored hash goes through one of the changes that keep its standing.
-/

namespace Verkos.Vlogin

open Lib
open List
open Lib.Prog (andThen_some sat_bind sat_each sat_give sat_ite sat_mono sat_pure sat_take)
open Option (some.inj map_some bind_some filter_some none_or or_none)

variable {S S' S₁ S₂ : Files} {name : Text} {ps ss : List Text} {env : Env} {c : Command}

/-- What is shown of a command: tidy files, and a change of each account. -/
def Keeps (env : Env) (S : Files) (c : Command) (r : Option Nat) (S' : Files) : Prop :=
  (∃ ps ss, Lined S' ps ss) ∧ ∀ n, Change (r = some 0 ∧ c.locks env S = some n)
    (r = some 0 ∧ c.unlocks env S = some n) (storedOf S n) (storedOf S' n)

/-! ## The group file apart -/

/-- `/etc/passwd` and `/etc/shadow` are the same. -/
structure SameAccounts (S S' : Files) : Prop where
  passwd : S' .passwd = S .passwd
  shadow : S' .shadow = S .shadow

theorem SameAccounts.refl (S : Files) : SameAccounts S S := ⟨rfl, rfl⟩

section

variable (h : SameAccounts S S')
include h

theorem SameAccounts.pwOf : pwOf S' name = pwOf S name := by
  rw [Vlogin.pwOf, h.passwd]
  rfl

theorem SameAccounts.spOf : spOf S' name = spOf S name := by
  rw [Vlogin.spOf, h.shadow]
  rfl

theorem SameAccounts.storedOf : storedOf S' name = storedOf S name := by
  have hhash : hashOf S' = hashOf S := by
    funext pw
    rw [hashOf, h.spOf]
    rfl
  rw [Vlogin.storedOf, h.pwOf, hhash]
  rfl

theorem SameAccounts.lined (hl : Lined S ps ss) : Lined S' ps ss where
  passwd := by rw [h.passwd]; exact hl.passwd
  shadow := by rw [h.shadow]; exact hl.shadow

end

theorem addToGroup_same (user : Text) (h : SameAccounts S S₁) :
    Prog.Sat (addToGroup name user) S₁ fun _ => SameAccounts S := by
  unfold addToGroup
  simp only [sat_bind, sat_getgrnam, andThen_some]
  cases grOf S₁ name with
  | none => exact h
  | some gr =>
    apply sat_ite
    · exact fun _ => h
    · intro _
      simp only [sat_bind, sat_dbReplaceLine, andThen_some, sat_pure]
      exact ⟨h.passwd, h.shadow⟩

theorem addToGroups_same (groups user : Text) (h : SameAccounts S S₁) :
    Prog.Sat (addToGroups groups user) S₁ fun _ => SameAccounts S := by
  apply sat_each _ h
  intro group _ σ hσ
  simp only [sat_bind, sat_take, andThen_some]
  apply sat_mono (addToGroup_same user hσ)
  rintro (_ | _) σ' hσ'
  · exact hσ'
  · exact hσ'

theorem dropFromGroup_same (user group : Text) (h : SameAccounts S S₁) :
    Prog.Sat (dropFromGroup user group) S₁ fun _ => SameAccounts S := by
  unfold dropFromGroup
  simp only [sat_bind, sat_getgrnam, andThen_some]
  cases grOf S₁ group with
  | none => exact h
  | some gr =>
    simp only [sat_bind, sat_take, sat_dbReplaceLine, andThen_some, sat_give]
    exact ⟨h.passwd, h.shadow⟩

variable {r : Option Nat} {n hash line : Text} {argv : List Text} {sp : Spwd} {o : UsermodOpts}

theorem of_none_eq {α : Type} {a : α} {q : Prop} (h : none = some a) : q := by
  cases h

theorem not_and_none {q : Prop} : ¬(q ∧ none = some n) := fun h => of_none_eq h.2

theorem not_mem_none {q : Text → Prop} (n : Text) (h : n ∈ (none : Option Text)) : q n :=
  of_none_eq h

theorem keeps_same (hl : Lined S ps ss) (h : SameAccounts S S')
    (hnot : r = some 0 → c.locks env S = none ∧ c.unlocks env S = none) : Keeps env S c r S' := by
  refine ⟨⟨ps, ss, h.lined hl⟩, fun n => ?_⟩
  rw [h.storedOf]
  apply Change.same
  · rintro ⟨hr, hn⟩
    rw [(hnot hr).1] at hn
    cases hn
  · rintro ⟨hr, hn⟩
    rw [(hnot hr).2] at hn
    cases hn

/-! ## `groupadd` and `groupdel` -/

theorem cmdGroupadd_keeps (argv : List Text) (hl : Lined S ps ss) :
    Prog.Sat (cmdGroupadd env argv) S (Keeps env S (.groupadd argv)) := by
  have hsame : Prog.Sat (cmdGroupadd env argv) S fun _ => SameAccounts S := by
    have h := SameAccounts.refl S
    unfold cmdGroupadd nextFreeGid addGroup
    apply sat_ite
    · exact fun _ => h
    · intro _
      cases groupaddOpts argv with
      | none => exact h
      | some o =>
        dsimp only
        cases o.name with
        | none => exact h
        | some name =>
          simp only [sat_bind, sat_getgrnam, andThen_some]
          apply sat_ite
          · exact fun _ => h
          · intro _
            simp only [sat_bind, sat_take, andThen_some]
            split
            · exact ⟨rfl, rfl⟩
            · exact ⟨rfl, rfl⟩
  exact sat_mono hsame fun r S' h => keeps_same hl h fun _ => ⟨rfl, rfl⟩

theorem cmdGroupdel_keeps (argv : List Text) (hl : Lined S ps ss) :
    Prog.Sat (cmdGroupdel env argv) S (Keeps env S (.groupdel argv)) := by
  have hsame : Prog.Sat (cmdGroupdel env argv) S fun _ => SameAccounts S := by
    have h := SameAccounts.refl S
    unfold cmdGroupdel
    apply sat_ite
    · exact fun _ => h
    · intro _
      cases argv with
      | nil => exact h
      | cons name _ =>
        simp only [sat_bind, sat_getgrnam, andThen_some]
        cases grOf S name with
        | none => exact h
        | some gr =>
          simp only [sat_bind, sat_getpwent, andThen_some]
          apply sat_ite
          · exact fun _ => h
          · exact fun _ => ⟨rfl, rfl⟩
  exact sat_mono hsame fun r S' h => keeps_same hl h fun _ => ⟨rfl, rfl⟩

/-! ## One account -/

theorem storedOf_congr (hpw : pwOf S' n = pwOf S n) (hname : ∀ pw, pwOf S n = some pw → pw.name = n)
    (hsp : spOf S' n = spOf S n) : storedOf S' n = storedOf S n := by
  rw [storedOf, storedOf, hpw]
  cases hfound : pwOf S n with
  | none => rfl
  | some pw =>
    rw [map_some, map_some, hashOf, hashOf, hname pw hfound, hsp]

/-- A command that has changed one account. -/
theorem keeps_one (hl : Lined S ps ss) (hl' : ∃ ps ss, Lined S' ps ss)
    (hpw : ∀ n, n ≠ name → pwOf S' n = pwOf S n) (hsp : ∀ n, n ≠ name → spOf S' n = spOf S n)
    (hlocks : ∀ n ∈ c.locks env S, n = name) (hunlocks : ∀ n ∈ c.unlocks env S, n = name)
    (hself : Change (r = some 0 ∧ c.locks env S = some name)
      (r = some 0 ∧ c.unlocks env S = some name) (storedOf S name) (storedOf S' name)) :
    Keeps env S c r S' := by
  refine ⟨hl', fun n => ?_⟩
  by_cases hn : n = name
  · subst hn
    exact hself
  · rw [storedOf_congr (hpw n hn) (fun pw hfound => (hl.clean hfound).2) (hsp n hn)]
    exact .same _ (fun h => hn (hlocks n h.2)) (fun h => hn (hunlocks n h.2))

/-! ## `userdel` -/

theorem cmdUserdel_keeps (argv : List Text) (hl : Lined S ps ss) :
    Prog.Sat (cmdUserdel env argv) S (Keeps env S (.userdel argv)) := by
  have hsame : ∀ r, Keeps env S (.userdel argv) r S := fun r =>
    keeps_same hl (.refl S) fun _ => ⟨rfl, rfl⟩
  unfold cmdUserdel
  apply sat_ite
  · exact fun _ => hsame none
  · intro _
    obtain _ | _ | name := userdelOpts argv
    · exact hsame none
    · exact hsame none
    · simp only [sat_bind, sat_getpwnam, andThen_some]
      cases hpw : pwOf S name with
      | none => exact hsame none
      | some pw =>
        obtain ⟨hclean, rfl⟩ := hl.clean hpw
        apply sat_ite
        · exact fun _ => hsame none
        · intro _
          obtain ⟨hl1, hgone, hother⟩ := hl.removedIn_passwd hclean.name.1
          obtain ⟨hl2, hotherSp⟩ := hl1.removedIn_shadow hclean.name.1
          -- the own group may go as well
          have hkeeps : ∀ S', SameAccounts
              (replacedIn (replacedIn S .passwd pw.name none) .shadow pw.name none) S' →
              Keeps env S (.userdel argv) (some 0) S' := by
            intro S' h
            refine keeps_one hl ⟨_, _, h.lined hl2⟩ (fun n hn => h.pwOf.trans (hother n hn))
              (fun n hn => h.spOf.trans (hotherSp n hn)) not_mem_none not_mem_none ?_
            have hnone : storedOf S' pw.name = none := by
              rw [storedOf, h.pwOf]
              exact congrArg (Option.map _) hgone
            rw [hnone, storedOf, hpw]
            exact .gone _
          simp only [sat_bind, sat_getgrnam, sat_take, sat_dbReplaceLine,
            andThen_some]
          apply sat_ite
          · exact fun _ => hkeeps _ ⟨rfl, rfl⟩
          · exact fun _ => hkeeps _ ⟨rfl, rfl⟩

/-! ## `passwd` -/

@[simp] theorem sat_storedHash (pw : Passwd) (post : Option (Option Text) → Files → Prop) :
    Prog.Sat (storedHash pw) S post ↔ post (some (hashOf S pw)) S := by
  unfold storedHash hashOf
  split <;> rfl

theorem Sets.storedOf {pw : Passwd} (h : Sets S S' name hash)
    (hpw : pwOf S name = some pw) (hname : pw.name = name) :
    storedOf S' name = some (some hash) := by
  obtain ⟨sp, hsp, -, hpwdp⟩ := h.sp
  have hfound := h.pw
  rw [hpw, map_some] at hfound
  rw [Vlogin.storedOf, hfound, map_some, hashOf, if_neg (not_not_intro rfl)]
  dsimp only
  rw [hname, hsp, map_some, hpwdp]

theorem field_hashOf (hl : Lined S ps ss) {pw : Passwd} (hpw : pwOf S name = some pw) :
    ∀ hash ∈ hashOf S pw, Field hash := by
  intro hash hmem
  unfold hashOf at hmem
  split_ifs at hmem with hx
  · cases hmem
    exact (hl.clean hpw).1.passwd
  · obtain ⟨sp, hsp, rfl⟩ := Option.map_eq_some_iff.1 hmem
    exact (hl.clean_sp hsp).2

theorem field_cons {ch : Char} {t : Text} (hc : ch ≠ ':') (hn : ch ≠ '\n') (h : Field t) :
    Field (ch :: t) := by
  refine ⟨fun hmem => ?_, fun hmem => ?_⟩
  · rcases mem_cons.1 hmem with heq | hmem
    · exact hc heq.symm
    · exact h.1 hmem
  · rcases mem_cons.1 hmem with heq | hmem
    · exact hn heq.symm
    · exact h.2 hmem

section

variable {h : Option Text} (hf : ∀ hash ∈ h, Field hash)
include hf

theorem field_lockedHash : Field (lockedHash h) := by
  apply field_cons (by decide) (by decide)
  cases h with
  | none => exact field_nil
  | some hash => exact hf hash rfl

theorem field_unlockedHash : Field (unlockedHash h) := by
  unfold unlockedHash
  split
  next rest =>
    have hrest := hf _ rfl
    exact ⟨fun hc => hrest.1 (.tail _ hc), fun hc => hrest.2 (.tail _ hc)⟩
  next hash _ => exact hf _ rfl
  next => exact field_nil

theorem field_usermodLockedHash : Field (usermodLockedHash h) :=
  field_cons (by decide) (by decide) (field_unlockedHash hf)

end

theorem eq_of_mem_ite {p : Prop} [Decidable p] {target : Text}
    (h : n ∈ if p then some target else none) : n = target := by
  split_ifs at h
  · exact (some.inj h).symm
  · cases h

theorem cmdPasswd_keeps (input : Text) (hl : Lined S ps ss)
    (hgives : GivesNone (.passwd argv input)) (hcare : Careful S (env, .passwd argv input)) :
    Prog.Sat (cmdPasswd env argv input) S (Keeps env S (.passwd argv input)) := by
  have hdied : Keeps env S (.passwd argv input) none S := keeps_same hl (.refl S) of_none_eq
  obtain ⟨o, ho, hlock, hdel⟩ := hgives
  unfold cmdPasswd
  rw [ho]
  simp only [sat_bind, sat_getpwuid, andThen_some]
  cases htarget : passwdTarget env S o with
  | none =>
    rw [passwdTarget] at htarget
    rw [htarget]
    exact hdied
  | some target =>
    have htarget' := htarget
    rw [passwdTarget] at htarget'
    rw [htarget']
    simp only [sat_bind, sat_getpwnam, andThen_some]
    cases hpw : pwOf S target with
    | none => exact hdied
    | some pw =>
      have hwell : LocksWell env S o target pw := hcare o target pw ho htarget hpw
      have hor : o.lock ∨ o.unlock ∨ o.del := hlock.imp_right .inl
      have hlocks : (Command.passwd argv input).locks env S =
          if o.lock then some target else none := by
        rw [Command.locks, ho, bind_some, htarget]
      have hunlocks : (Command.passwd argv input).unlocks env S =
          if !o.lock ∧ o.unlock then some target else none := by
        rw [Command.unlocks, ho, bind_some, htarget]
      dsimp only
      apply sat_ite
      · exact fun _ => hdied
      intro _
      apply sat_ite
      · exact fun _ => hdied
      intro _
      rw [if_pos hor]
      simp only [sat_bind, sat_storedHash, andThen_some, if_neg hdel]
      -- the new hash, and the change that it is
      have hnew : ∃ hash, (if o.lock then lockedHash (hashOf S pw) else unlockedHash (hashOf S pw)) =
          hash ∧ Field hash ∧ Storable env S target hash ∧
          Change (some 0 = some 0 ∧ (Command.passwd argv input).locks env S = some target)
            (some 0 = some 0 ∧ (Command.passwd argv input).unlocks env S = some target)
            (some (hashOf S pw)) (some (some hash)) := by
        have hf := field_hashOf hl hpw
        by_cases hlocked : o.lock
        · rw [if_pos hlocked, hlocks, if_pos hlocked]
          exact ⟨_, rfl, field_lockedHash hf, hwell.lock hlocked, .lock _ ⟨rfl, rfl⟩⟩
        · have hun : !o.lock ∧ o.unlock := by
            refine ⟨by simpa using hlocked, hlock.resolve_left hlocked⟩
          obtain ⟨hable, hstore⟩ := hwell.unlock hun
          rw [if_neg hlocked, hlocks, hunlocks, if_neg hlocked, if_pos hun]
          exact ⟨_, rfl, field_unlockedHash hf, hstore, .unlock _ not_and_none ⟨rfl, rfl⟩ hable⟩
      obtain ⟨hash, heq, hfield, hstore, hchange⟩ := hnew
      rw [heq, snprintf_eq hstore.short]
      apply sat_mono (setPassword_sat hl hpw hfield hstore.fits)
      rintro r S' ⟨rfl, hsets⟩
      rw [andThen_some, sat_pure]
      refine keeps_one hl hsets.lined hsets.pwOther hsets.spOther ?_ ?_ ?_
      · rw [hlocks]
        exact fun _ => eq_of_mem_ite
      · rw [hunlocks]
        exact fun _ => eq_of_mem_ite
      · rw [hsets.storedOf hpw (hl.clean hpw).2, storedOf, hpw]
        exact hchange

/-! ## `useradd` -/

theorem useraddUid_sat (o : UseraddOpts) (S : Files) :
    Prog.Sat (useraddUid o) S fun r S' => r = some (newUid S o) ∧ S' = S := by
  unfold useraddUid newUid nextFreeUid
  by_cases hu : 0 ≤ o.uid
  · rw [if_pos hu, if_pos hu]
    exact ⟨rfl, rfl⟩
  · rw [if_neg hu, if_neg hu]
    exact ⟨rfl, rfl⟩

theorem useraddGid_sat (o : UseraddOpts) (name : Text) (S : Files) :
    Prog.Sat (useraddGid o name) S fun r S' => (∀ g, r = some g → newGid S o = some g) ∧
      SameAccounts S S' := by
  unfold useraddGid newGid
  cases o.group with
  | none => exact ⟨fun g hg => hg, rfl, rfl⟩
  | some group =>
    unfold groupId
    simp only [sat_bind, sat_getgrnam, andThen_some]
    cases grOf S group with
    | none => exact ⟨fun _ => of_none_eq, .refl S⟩
    | some gr => exact ⟨fun g hg => hg, .refl S⟩

/-- A line in each file for a name that had none: an account that no password opens. -/
theorem addAccount (hl : Lined S ps ss) (hpw : pwOf S name = none) (hsp : spOf S name = none)
    {spLine : Text} (hline : Whole line)
    (hentry : ∀ pw, parsePasswd line = some pw → pw.name = name ∧ pw.passwd = inShadow)
    (hspLine : Whole spLine) (hparse : parseSpwd spLine = some sp) (hname : sp.name = name)
    (hpwdp : sp.pwdp = noPassword) :
    let S' := appendedTo (appendedTo S .passwd line) .shadow spLine
    (∃ ps ss, Lined S' ps ss) ∧ (∀ n, n ≠ name → pwOf S' n = pwOf S n) ∧
    (∀ n, n ≠ name → spOf S' n = spOf S n) ∧
    (storedOf S' name = none ∨ storedOf S' name = some (some noPassword)) := by
  intro S'
  obtain ⟨hl1, hpw1⟩ := hl.appendedTo_passwd hline
  obtain ⟨hl2, hsp2⟩ := hl1.appendedTo_shadow hspLine
  have hpw' : ∀ n, pwOf S' n = (pwOf S n).or ((parsePasswd line).filter (·.name = n)) := hpw1
  have hsp' : ∀ n, spOf S' n = (spOf S n).or ((parseSpwd spLine).filter (·.name = n)) := hsp2
  refine ⟨⟨_, _, hl2⟩, fun n hn => ?_, fun n hn => ?_, ?_⟩
  · rw [hpw']
    cases hnew : parsePasswd line with
    | none => rw [Option.filter_none, or_none]
    | some pw =>
      rw [filter_some, if_neg (by simpa [(hentry pw hnew).1] using hn.symm), or_none]
  · rw [hsp', hparse, filter_some, if_neg (by simpa [hname] using hn.symm), or_none]
  · have hfound : spOf S' name = some sp := by
      rw [hsp', hsp, hparse, none_or, filter_some, if_pos (by simpa using hname)]
    rw [storedOf, hpw', hpw, none_or]
    cases hnew : parsePasswd line with
    | none => exact .inl rfl
    | some pw =>
      obtain ⟨hpwName, hx⟩ := hentry pw hnew
      right
      rw [filter_some, if_pos (by simpa using hpwName), map_some, hashOf,
        if_neg (not_not_intro hx), hpwName, hfound, map_some, hpwdp]

theorem cmdUseradd_keeps (hl : Lined S ps ss) (hcare : Careful S (env, .useradd argv)) :
    Prog.Sat (cmdUseradd env argv) S (Keeps env S (.useradd argv)) := by
  have hsame : ∀ {r S'}, SameAccounts S S' → Keeps env S (.useradd argv) r S' := fun h =>
    keeps_same hl h fun _ => ⟨rfl, rfl⟩
  have hdied := @hsame none S (.refl S)
  unfold cmdUseradd
  apply sat_ite
  · exact fun _ => hdied
  intro _
  cases ho : useraddOpts argv with
  | none => exact hdied
  | some o =>
    dsimp only
    cases hname : o.name with
    | none => exact hdied
    | some name =>
      simp only [sat_bind, sat_getpwnam, andThen_some]
      apply sat_ite
      · exact fun _ => hdied
      intro hpw
      have hnew : pwOf S name = none := by
        cases hfound : pwOf S name with
        | none => rfl
        | some pw =>
          rw [hfound] at hpw
          exact absurd rfl hpw
      have hwell : AddsWell env S o name := hcare o name ho hname hnew
      apply sat_ite
      · exact fun _ => hdied
      intro hcolon
      simp only [sat_bind, sat_take, andThen_some]
      apply sat_mono (useraddUid_sat o S)
      rintro r S₁ ⟨rfl, hS1⟩
      obtain rfl : S = S₁ := hS1.symm
      simp only [sat_bind, andThen_some]
      apply sat_mono (useraddGid_sat o name S)
      rintro (_ | g) S₂ ⟨hg, h2⟩
      · exact hsame h2
      have hpwLen := hwell.passwdFits g (hg g rfl)
      have hspLen := hwell.shadowFits
      simp only [sat_bind, sat_dbAppendLine, andThen_some, sat_give]
      rw [snprintf_eq hpwLen, snprintf_eq hspLen]
      have hfield : Field name := ⟨hcolon, hwell.oneLine⟩
      have hwholePw : Whole (passwdLine name (newUid S o) g o.gecos
          (o.home.getD (homeOf name)) o.shell) :=
        ⟨newline_passwdLine _ _ hfield hwell.gecos hwell.home hwell.shell, by omega⟩
      have hwholeSp : Whole (newSpwdLine env name noPassword) :=
        ⟨newline_newSpwdLine env hfield (by decide), by omega⟩
      obtain ⟨sp, hsp, hspName, hpwdp⟩ := parseSpwd_newSpwdLine env hcolon
        (by decide : ':' ∉ noPassword)
      obtain ⟨hl4, hpwOther, hspOther, hself⟩ := addAccount (h2.lined hl) (h2.pwOf.trans hnew)
        (h2.spOf.trans hwell.fresh) hwholePw (fun _ => parsePasswd_passwdLine_some hcolon)
        hwholeSp hsp hspName hpwdp
      have hkeeps : ∀ r S', SameAccounts (appendedTo (appendedTo S₂ .passwd (passwdLine name
          (newUid S o) g o.gecos (o.home.getD (homeOf name)) o.shell)) .shadow
          (newSpwdLine env name noPassword)) S' → Keeps env S (.useradd argv) r S' := by
        intro r S' h
        obtain ⟨ps', ss', hl4⟩ := hl4
        refine keeps_one hl ⟨ps', ss', h.lined hl4⟩
          (fun n hn => h.pwOf.trans ((hpwOther n hn).trans h2.pwOf))
          (fun n hn => h.spOf.trans ((hspOther n hn).trans h2.spOf)) not_mem_none not_mem_none ?_
        rw [h.storedOf, storedOf, hnew, Option.map_none]
        rcases hself with hself | hself
        · rw [hself]
          exact .same _ not_and_none not_and_none
        · rw [hself]
          exact .new
      cases o.groups with
      | none => exact hkeeps _ _ (.refl _)
      | some groups =>
        simp only [sat_bind]
        apply sat_mono (addToGroups_same groups name (.refl _))
        rintro (_ | _) S' h
        · exact hkeeps _ _ h
        · exact hkeeps _ _ h

/-! ## `usermod` -/

theorem toId_lt (n : Int) : toId n < 2 ^ 32 := by
  unfold toId
  omega

theorem gid_lt_of_grOf {gr : Group} (h : grOf S name = some gr) : gr.gid < 2 ^ 32 := by
  obtain ⟨line, -, hparse⟩ := mem_filterMap.1 (mem_of_find?_eq_some h)
  obtain ⟨_, _, _, -, hgid, -⟩ := parseGroup_eq_some hparse
  exact idNumber_lt hgid

theorem usermodGid_lt {pw : Passwd} (hclean : pw.Clean) : ∀ g ∈ usermodGid S o pw, g < 2 ^ 32 := by
  intro g hg
  unfold usermodGid at hg
  split at hg
  · obtain ⟨gr, hgr, rfl⟩ := Option.map_eq_some_iff.1 hg
    exact gid_lt_of_grOf hgr
  · cases hg
    exact hclean.gid

/-- The account's line may have new values; its hash stays where it is. -/
theorem usermodEntry_sat {pw : Passwd} {g : Nat} (hl : Lined S ps ss)
    (hpw : pwOf S name = some pw) (hwell : ModifiesWell env S o name pw)
    (hg : usermodGid S o pw = some g) :
    Prog.Sat (usermodEntry o name pw g) S fun r S₁ => r = some () ∧ (∃ ps ss, Lined S₁ ps ss) ∧
      S₁ .shadow = S .shadow ∧ (∀ n, n ≠ name → pwOf S₁ n = pwOf S n) ∧
      ∃ pw1, pwOf S₁ name = some pw1 ∧
        (pw1 = pw ∨ pw1.passwd = inShadow ∧ pw.passwd = inShadow) := by
  obtain ⟨hclean, rfl⟩ := hl.clean hpw
  unfold usermodEntry
  apply sat_ite
  · intro hrewrites
    have hlen := hwell.lineFits hrewrites g hg
    have huid : (if 0 ≤ o.uid then toId o.uid else pw.uid) < 2 ^ 32 := by
      split_ifs
      · exact toId_lt _
      · exact hclean.uid
    have hhome : Field (o.home.getD (snprintf 256 pw.dir)) := by
      cases h : o.home with
      | none => exact field_take hclean.dir 255
      | some home => exact hwell.home home h
    have hshell : Field (o.shell.getD (snprintf 256 pw.shell)) := by
      cases h : o.shell with
      | none => exact field_take hclean.shell 255
      | some shell => exact hwell.shell shell h
    have hgecos : Field (snprintf 256 pw.gecos) := field_take hclean.gecos 255
    have hparse := parsePasswd_passwdLine hclean.name.1 huid (usermodGid_lt hclean g hg) hgecos.1
      hhome.1 hshell.1
    unfold usermodLine at hlen
    obtain ⟨h1, hself, hother⟩ := hl.replacedIn_passwd hparse
      ⟨newline_passwdLine _ _ hclean.name hgecos.2 hhome.2 hshell.2, by omega⟩
    simp only [sat_bind, sat_take, andThen_some, sat_dbReplaceLine, sat_give]
    rw [snprintf_eq hlen]
    exact ⟨trivial, ⟨_, _, h1⟩, rfl, hother, _, hself pw hpw,
      .inr ⟨rfl, hwell.shadowed hrewrites⟩⟩
  · exact fun _ => ⟨rfl, ⟨ps, ss, hl⟩, rfl, fun _ _ => rfl, pw, hpw, .inl rfl⟩

theorem usermodGroups_same {S₁ : Files} (o : UsermodOpts) (g : Nat) (h : SameAccounts S S₁) :
    Prog.Sat (usermodGroups o name g) S₁ fun _ => SameAccounts S := by
  unfold usermodGroups
  cases o.groups with
  | none => exact h
  | some groups =>
    have hdrop : ∀ grs, Prog.Sat (do
        Prog.each (toDrop grs name g) (dropFromGroup name)
        addToGroups groups name) S₁ fun _ => SameAccounts S := by
      intro grs
      simp only [sat_bind]
      apply sat_mono (sat_each (fun group _ _ => dropFromGroup_same name group) h)
      rintro (_ | _) S₂ h2
      · exact h2
      · exact addToGroups_same groups name h2
    dsimp only
    split
    · exact hdrop []
    · exact hdrop _

/-- An account whose line has new values, and whose hash is what it was. -/
structure Moved (S S₂ : Files) (name : Text) (pw pw₂ : Passwd) : Prop where
  lined : ∃ ps ss, Lined S₂ ps ss
  found : pwOf S₂ name = some pw₂
  pwOther : ∀ n, n ≠ name → pwOf S₂ n = pwOf S n
  sp : ∀ n, spOf S₂ n = spOf S n
  same : pw₂ = pw ∨ pw₂.passwd = inShadow ∧ pw.passwd = inShadow

section

variable {pw pw₂ : Passwd} (h : Moved S S₂ name pw pw₂)
include h

theorem Moved.hashOf (hl : Lined S ps ss) (hpw : pwOf S name = some pw) :
    hashOf S₂ pw₂ = hashOf S pw := by
  obtain ⟨_, _, hl2⟩ := h.lined
  have hname := (hl.clean hpw).2
  have hname2 := (hl2.clean h.found).2
  have hx : pw₂.passwd = pw.passwd := by
    rcases h.same with rfl | ⟨hx2, hx⟩
    · rfl
    · rw [hx2, hx]
  rw [Vlogin.hashOf, Vlogin.hashOf, hx, hname, hname2, h.sp]

theorem Moved.fits (hpw : pwOf S name = some pw) (hfits : Fits env S name hash) :
    Fits env S₂ name hash where
  shadow := by
    have hline := hfits.shadow
    rw [shadowLine, h.sp]
    exact hline
  passwd pw' hpw' hx := by
    rw [h.found] at hpw'
    obtain rfl := some.inj hpw'
    rcases h.same with rfl | ⟨hx', -⟩
    · exact hfits.passwd _ hpw hx
    · exact absurd hx' hx

theorem Moved.keeps (hl : Lined S ps ss) (hpw : pwOf S name = some pw)
    (hnot : r = some 0 → c.locks env S = none ∧ c.unlocks env S = none) : Keeps env S c r S₂ := by
  refine ⟨h.lined, fun n => ?_⟩
  have hsame : storedOf S₂ n = storedOf S n := by
    by_cases hn : n = name
    · subst hn
      rw [storedOf, storedOf, h.found, hpw, map_some, map_some, h.hashOf hl hpw]
    · exact storedOf_congr (h.pwOther n hn) (fun _ hfound => (hl.clean hfound).2) (h.sp n)
  rw [hsame]
  apply Change.same
  · rintro ⟨hr, hn⟩
    rw [(hnot hr).1] at hn
    cases hn
  · rintro ⟨hr, hn⟩
    rw [(hnot hr).2] at hn
    cases hn

end

/-- What `-L` and `-U` do to the hash, where they are given. -/
theorem usermodLock_keeps {pw pw₂ : Passwd}
    (hl : Lined S ps ss) (ho : usermodOpts argv = some o) (hname : o.name = some name)
    (hpw : pwOf S name = some pw) (hwell : ModifiesWell env S o name pw)
    (h : Moved S S₂ name pw pw₂) : Prog.Sat (do
      usermodLock env o name
      pure 0) S₂ (Keeps env S (.usermod argv)) := by
  have hlocks : (Command.usermod argv).locks env S = if o.lock then some name else none := by
    rw [Command.locks, ho, bind_some, hname]
  have hunlocks : (Command.usermod argv).unlocks env S =
      if !o.lock ∧ o.unlock then some name else none := by
    rw [Command.unlocks, ho, bind_some, hname]
  have hhash := h.hashOf hl hpw
  obtain ⟨ps2, ss2, hl2⟩ := h.lined
  simp only [sat_bind]
  unfold usermodLock
  apply sat_ite
  · intro hany
    have hf := field_hashOf hl hpw
    have hnew : ∃ hash, (if o.lock then usermodLockedHash (hashOf S pw)
        else unlockedHash (hashOf S pw)) = hash ∧ Field hash ∧ Storable env S name hash ∧
        Change (some 0 = some 0 ∧ (Command.usermod argv).locks env S = some name)
          (some 0 = some 0 ∧ (Command.usermod argv).unlocks env S = some name)
          (some (hashOf S pw)) (some (some hash)) := by
      by_cases hlocked : o.lock
      · rw [if_pos hlocked, hlocks, if_pos hlocked]
        exact ⟨_, rfl, field_usermodLockedHash hf, hwell.lock hlocked, .relock _ ⟨rfl, rfl⟩⟩
      · have hun : !o.lock ∧ o.unlock := ⟨by simpa using hlocked, hany.resolve_left hlocked⟩
        obtain ⟨hable, hstore⟩ := hwell.unlock hun
        rw [if_neg hlocked, hlocks, hunlocks, if_neg hlocked, if_pos hun]
        exact ⟨_, rfl, field_unlockedHash hf, hstore, .unlock _ not_and_none ⟨rfl, rfl⟩ hable⟩
    obtain ⟨hash, heq, hfield, hstore, hchange⟩ := hnew
    simp only [sat_bind, sat_getpwnam, h.found, andThen_some, sat_storedHash]
    rw [hhash, heq, snprintf_eq hstore.short]
    apply sat_mono (setPassword_sat hl2 h.found hfield (h.fits hpw hstore.fits))
    rintro r S' ⟨rfl, hsets⟩
    rw [andThen_some, sat_pure]
    refine keeps_one hl hsets.lined (fun n hn => (hsets.pwOther n hn).trans (h.pwOther n hn))
      (fun n hn => (hsets.spOther n hn).trans (h.sp n)) ?_ ?_ ?_
    · rw [hlocks]
      exact fun _ => eq_of_mem_ite
    · rw [hunlocks]
      exact fun _ => eq_of_mem_ite
    · rw [hsets.storedOf h.found (hl2.clean h.found).2, storedOf, hpw]
      exact hchange
  · intro hnone
    obtain ⟨hlock, hunlock⟩ := not_or.1 hnone
    refine h.keeps hl hpw fun _ => ⟨?_, ?_⟩
    · rw [hlocks, if_neg hlock]
    · rw [hunlocks, if_neg fun hun => hunlock hun.2]

theorem cmdUsermod_keeps (hl : Lined S ps ss) (hcare : Careful S (env, .usermod argv)) :
    Prog.Sat (cmdUsermod env argv) S (Keeps env S (.usermod argv)) := by
  have hdied : Keeps env S (.usermod argv) none S := keeps_same hl (.refl S) of_none_eq
  unfold cmdUsermod
  apply sat_ite
  · exact fun _ => hdied
  intro _
  cases ho : usermodOpts argv with
  | none => exact hdied
  | some o =>
    dsimp only
    cases hname : o.name with
    | none => exact hdied
    | some name =>
      simp only [sat_bind, sat_getpwnam, andThen_some]
      cases hpw : pwOf S name with
      | none => exact hdied
      | some pw =>
        have hwell : ModifiesWell env S o name pw := hcare o name pw ho hname hpw
        have hrest : ∀ g, usermodGid S o pw = some g → Prog.Sat (do
            usermodEntry o name pw g
            usermodGroups o name g
            usermodLock env o name
            pure 0) S (Keeps env S (.usermod argv)) := by
          intro g hg
          simp only [sat_bind]
          apply sat_mono (usermodEntry_sat hl hpw hwell hg)
          rintro r S₁ ⟨rfl, ⟨ps1, ss1, hl1⟩, hshadow, hother, pw1, hpw1, hsame⟩
          simp only [sat_bind, andThen_some]
          apply sat_mono (usermodGroups_same o g (.refl S₁))
          intro r S₂ h2
          have hmoved : Moved S S₂ name pw pw1 := {
            lined := ⟨ps1, ss1, h2.lined hl1⟩
            found := h2.pwOf.trans hpw1
            pwOther := fun n hn => h2.pwOf.trans (hother n hn)
            sp := fun n => by
              rw [h2.spOf, spOf, hshadow]
              rfl
            same := hsame }
          cases r with
          | none => exact hmoved.keeps hl hpw nofun
          | some u => exact usermodLock_keeps hl ho hname hpw hwell hmoved
        cases hgroup : o.group with
        | none =>
          apply hrest pw.gid
          rw [usermodGid, hgroup]
        | some group =>
          unfold groupId
          simp only [sat_bind, sat_getgrnam, andThen_some]
          cases hgr : grOf S group with
          | none => exact hdied
          | some gr =>
            apply hrest gr.gid
            rw [usermodGid, hgroup]
            exact congrArg (Option.map _) hgr

/-! ## `pwconv` -/

/-- An account whose hash is in `/etc/passwd`, and that has no entry in the shadow file. -/
def ToMove (S : Files) (pw : Passwd) : Prop := pw.passwd ≠ inShadow ∧ spOf S pw.name = none

/-- The first loop finds accounts to move, in order, and changes nothing. -/
theorem toMove_sat (pws : List Passwd) (n : Nat) :
    Prog.Sat (toMove pws n) S fun r S' => S' = S ∧ ∃ moved : List Passwd, moved.Sublist pws ∧
      (∀ pw ∈ moved, ToMove S pw) ∧
      r = some (moved.map fun pw => (snprintf 64 pw.name, snprintf 256 pw.passwd)) := by
  induction pws generalizing n with
  | nil => exact ⟨rfl, [], .slnil, nofun, rfl⟩
  | cons pw pws ih =>
    have hskip : ∀ n, Prog.Sat (toMove pws n) S fun r S' => S' = S ∧ ∃ moved : List Passwd,
        moved.Sublist (pw :: pws) ∧ (∀ pw ∈ moved, ToMove S pw) ∧
        r = some (moved.map fun pw => (snprintf 64 pw.name, snprintf 256 pw.passwd)) := by
      intro n
      apply sat_mono (ih n)
      rintro r S' ⟨hS, moved, hsub, hmoved⟩
      exact ⟨hS, moved, hsub.cons pw, hmoved⟩
    unfold toMove
    apply sat_ite
    · exact fun _ => ⟨rfl, [], nil_sublist _, nofun, rfl⟩
    intro _
    apply sat_ite
    · exact fun _ => hskip n
    intro hx
    simp only [sat_bind, sat_getspnam, andThen_some]
    cases hsp : spOf S pw.name with
    | some sp => exact hskip n
    | none =>
      simp only [sat_bind]
      apply sat_mono (ih (n + 1))
      rintro r S' ⟨rfl, moved, hsub, hmoved, rfl⟩
      refine ⟨rfl, pw :: moved, hsub.cons_cons pw, ?_, rfl⟩
      intro pw' hpw'
      rcases mem_cons.1 hpw' with rfl | hpw'
      · exact ⟨hx, hsp⟩
      · exact hmoved pw' hpw'

/-- What moving hashes leaves as it is. -/
structure MovedAll (S S' : Files) : Prop where
  lined : ∃ ps ss, Lined S' ps ss
  stored : ∀ n, storedOf S' n = storedOf S n
  there : ∀ n, (pwOf S' n).isSome = (pwOf S n).isSome
  noShadow : ∀ n, spOf S' n = none → spOf S n = none

/-- The accounts are moved one by one. -/
theorem moveAll_sat {moved : List Passwd} (hl : Lined S ps ss) (hnames : (moved.map (·.name)).Nodup)
    (hmoved : ∀ pw ∈ moved, pwOf S pw.name = some pw ∧ ToMove S pw ∧ pw.name.length < 64 ∧
      pw.passwd.length < 256 ∧ Fits env S pw.name pw.passwd) :
    Prog.Sat (Prog.each (moved.map fun pw => (snprintf 64 pw.name, snprintf 256 pw.passwd))
      fun (name, hash) => setPassword env name hash) S fun r S' => r = some () ∧ MovedAll S S' := by
  induction moved generalizing S ps ss with
  | nil => exact ⟨rfl, ⟨ps, ss, hl⟩, fun _ => rfl, fun _ => rfl, fun _ => id⟩
  | cons pw moved ih =>
    obtain ⟨hpw, ⟨hx, hsp⟩, hname, hpasswd, hfits⟩ := hmoved pw (.head _)
    obtain ⟨hnew, hnames⟩ := nodup_cons.1 hnames
    have heach : Prog.each ((pw :: moved).map fun pw =>
        (snprintf 64 pw.name, snprintf 256 pw.passwd)) (fun (name, hash) =>
        setPassword env name hash) = (setPassword env (snprintf 64 pw.name)
          (snprintf 256 pw.passwd)) >>= fun _ => Prog.each (moved.map fun pw =>
        (snprintf 64 pw.name, snprintf 256 pw.passwd)) (fun (name, hash) =>
        setPassword env name hash) := rfl
    rw [heach, sat_bind, snprintf_eq hname, snprintf_eq hpasswd]
    apply sat_mono (setPassword_sat hl hpw (hl.clean hpw).1.passwd hfits)
    rintro r S₁ ⟨rfl, hsets⟩
    obtain ⟨ps1, ss1, hl1⟩ := hsets.lined
    -- the others are what they were
    have hrest : ∀ pw' ∈ moved, pwOf S₁ pw'.name = some pw' ∧ ToMove S₁ pw' ∧
        pw'.name.length < 64 ∧ pw'.passwd.length < 256 ∧ Fits env S₁ pw'.name pw'.passwd := by
      intro pw' hpw'
      obtain ⟨hfound, ⟨hx', hsp'⟩, hname', hpasswd', hshadow, hline⟩ := hmoved pw' (.tail _ hpw')
      have hne : pw'.name ≠ pw.name := fun heq =>
        hnew (mem_map.2 ⟨pw', hpw', heq⟩)
      have hpwSame := hsets.pwOther _ hne
      have hspSame := hsets.spOther _ hne
      refine ⟨hpwSame.trans hfound, ⟨hx', hspSame.trans hsp'⟩, hname', hpasswd', ?_, ?_⟩
      · rw [shadowLine, hspSame]
        exact hshadow
      · rw [hpwSame]
        exact hline
    rw [andThen_some]
    apply sat_mono (ih hl1 hnames hrest)
    rintro r S' ⟨rfl, h⟩
    refine ⟨rfl, h.lined, fun n => ?_, fun n => ?_, fun n hn => ?_⟩
    · rw [h.stored]
      by_cases hn : n = pw.name
      · subst hn
        rw [hsets.storedOf hpw rfl, storedOf, hpw, map_some, hashOf, if_pos hx]
      · exact storedOf_congr (hsets.pwOther n hn) (fun _ hf => (hl.clean hf).2) (hsets.spOther n hn)
    · rw [h.there]
      by_cases hn : n = pw.name
      · subst hn
        rw [hsets.pw, Option.isSome_map]
      · rw [hsets.pwOther n hn]
    · have hnone := h.noShadow n hn
      by_cases hname : n = pw.name
      · subst hname
        exact hsp
      · rwa [hsets.spOther n hname] at hnone

/-- What the second loop keeps, from the state `S` before `pwconv`: an account without any hash may
have got a locked one. -/
structure Completing (S S' : Files) : Prop where
  lined : ∃ ps ss, Lined S' ps ss
  stored : ∀ n, storedOf S' n = storedOf S n ∨
    storedOf S n = some none ∧ storedOf S' n = some (some noPassword)
  there : ∀ n, (pwOf S' n).isSome = (pwOf S n).isSome
  noShadow : ∀ n, spOf S' n = none → spOf S n = none

theorem Completing.append (h : Completing S S₁) (hwhole : Whole line)
    (hparse : parseSpwd line = some sp) (hname : sp.name = name) (hpwdp : sp.pwdp = noPassword)
    (hnone : spOf S₁ name = none) : Completing S (appendedTo S₁ .shadow line) := by
  obtain ⟨ps, ss, hl⟩ := h.lined
  obtain ⟨hl', hsp⟩ := hl.appendedTo_shadow hwhole
  simp only [hparse, filter_some, hname] at hsp
  have hpw : ∀ n, pwOf (appendedTo S₁ .shadow line) n = pwOf S₁ n := fun _ => rfl
  refine ⟨⟨_, _, hl'⟩, fun n => ?_, h.there, fun n hn => ?_⟩
  · by_cases hn : n = name
    · subst hn
      have hstored := h.stored n
      have hnew : spOf (appendedTo S₁ .shadow line) n = some sp := by
        rw [hsp, hnone, none_or, if_pos (decide_eq_true rfl)]
      rw [storedOf] at hstored ⊢
      rw [hpw]
      cases hfound : pwOf S₁ n with
      | none =>
        rw [hfound] at hstored
        exact hstored
      | some pw =>
        obtain rfl := (hl.clean hfound).2
        rw [hfound, map_some, hashOf, hnone] at hstored
        rw [map_some, hashOf, hnew]
        split_ifs at hstored ⊢ with hx
        · exact hstored
        · rcases hstored with hstored | ⟨-, hsome⟩
          · exact .inr ⟨hstored.symm, by rw [map_some, hpwdp]⟩
          · cases hsome
    · rw [storedOf_congr (hpw n) (fun _ hf => (hl.clean hf).2)]
      · exact h.stored n
      · rw [hsp, if_neg (by simpa using fun heq => hn heq.symm), or_none]
  · rw [hsp, Option.or_eq_none_iff] at hn
    exact h.noShadow n hn.1

theorem pwOf_of_mem (hunique : ((passwds (S .passwd)).map (·.name)).Nodup) {pw : Passwd}
    (hpw : pw ∈ passwds (S .passwd)) : pwOf S pw.name = some pw := by
  unfold pwOf
  generalize passwds (S .passwd) = pws at hunique hpw
  induction pws with
  | nil => cases hpw
  | cons e pws ih =>
    obtain ⟨hnew, hunique⟩ := nodup_cons.1 hunique
    rcases mem_cons.1 hpw with rfl | hpw
    · exact find?_cons_of_pos (decide_eq_true rfl)
    · have hne : e.name ≠ pw.name := fun heq => hnew (mem_map.2 ⟨pw, hpw, heq.symm⟩)
      rw [find?_cons_of_neg (by simpa using hne)]
      exact ih hunique hpw

theorem isSome_pwOf : (pwOf S name).isSome ↔ ∃ pw ∈ passwds (S .passwd), pw.name = name := by
  rw [pwOf, find?_isSome]
  simp only [decide_eq_true_eq]

theorem cmdPwconv_keeps (hl : Lined S ps ss) (hcare : Careful S (env, .pwconv)) :
    Prog.Sat (cmdPwconv env) S (Keeps env S .pwconv) := by
  have hwell : ConvertsWell env S := hcare
  unfold cmdPwconv
  apply sat_ite
  · exact fun _ => keeps_same hl (.refl S) of_none_eq
  intro _
  simp only [sat_bind, sat_getpwent, andThen_some]
  apply sat_mono (toMove_sat (passwds (S .passwd)) 0)
  rintro r S₁ ⟨hS1, moved, hsub, htoMove, rfl⟩
  obtain rfl : S = S₁ := hS1.symm
  have hmoved : ∀ pw ∈ moved, pwOf S pw.name = some pw ∧ ToMove S pw ∧ pw.name.length < 64 ∧
      pw.passwd.length < 256 ∧ Fits env S pw.name pw.passwd := by
    intro pw hpw
    have hmem := hsub.subset hpw
    obtain ⟨hx, hsp⟩ := htoMove pw hpw
    exact ⟨pwOf_of_mem hwell.unique hmem, ⟨hx, hsp⟩, hwell.moved pw hmem hx hsp⟩
  simp only [sat_bind, andThen_some]
  apply sat_mono (moveAll_sat hl ((hsub.map _).nodup hwell.unique) hmoved)
  rintro r S₂ ⟨rfl, h2⟩
  simp only [sat_bind, sat_getpwent, andThen_some]
  have hall : Completing S S₂ := ⟨h2.lined, fun n => .inl (h2.stored n), h2.there, h2.noShadow⟩
  refine sat_mono (@Prog.sat_each _ _ accountAsks _ (passwds (S₂ .passwd)) _ _ S₂ (Completing S)
    ?_ hall) ?_
  rotate_left
  · rintro r S' h
    have hkeeps : ∀ r, Keeps env S .pwconv r S' := by
      refine fun r => ⟨h.lined, fun n => ?_⟩
      rcases h.stored n with hsame | ⟨hnone, hnew⟩
      · rw [hsame]
        exact .same _ not_and_none not_and_none
      · rw [hnone, hnew]
        exact .added not_and_none not_and_none
    cases r with
    | none => exact hkeeps none
    | some u => exact hkeeps (some 0)
  · intro pw hpw S3 h3
    simp only [sat_bind, sat_getspnam, andThen_some]
    cases hsp : spOf S3 pw.name with
    | some sp => exact h3
    | none =>
      -- the entry was there before `pwconv`, and had no shadow entry then
      have hthere : (pwOf S pw.name).isSome := by
        rw [← h2.there]
        exact isSome_pwOf.2 ⟨pw, hpw, rfl⟩
      obtain ⟨pw0, hpw0, hname⟩ := isSome_pwOf.1 hthere
      have hclean := (hl.clean (pwOf_of_mem hwell.unique hpw0)).1.name
      have hlen := hwell.added pw0 hpw0 (by rw [hname]; exact h3.noShadow _ hsp)
      rw [hname] at hclean hlen
      obtain ⟨sp, hparse, hspName, hpwdp⟩ := parseSpwd_newSpwdLine env hclean.1
        (by decide : ':' ∉ noPassword)
      have hwhole : Whole (newSpwdLine env pw.name noPassword) :=
        ⟨newline_newSpwdLine env hclean (by decide), by omega⟩
      simp only [sat_bind, sat_take, sat_dbAppendLine, andThen_some, sat_give]
      rw [snprintf_eq hlen]
      exact h3.append hwhole hparse hspName hpwdp hsp

/-! ## All of them -/

theorem Command.keeps {S : Files} {i : Env × Command} (hl : Lined S ps ss) (hgives : GivesNone i.2)
    (hcare : Careful S i) : Prog.Sat (i.2.tool i.1) S (Keeps i.1 S i.2) := by
  obtain ⟨env, c⟩ := i
  cases c with
  | useradd argv => exact cmdUseradd_keeps hl hcare
  | usermod argv => exact cmdUsermod_keeps hl hcare
  | userdel argv => exact cmdUserdel_keeps argv hl
  | groupadd argv => exact cmdGroupadd_keeps argv hl
  | groupdel argv => exact cmdGroupdel_keeps argv hl
  | passwd argv input => exact cmdPasswd_keeps input hl hgives hcare
  | chpasswd input => exact hgives.elim
  | pwconv => exact cmdPwconv_keeps hl hcare

end Verkos.Vlogin
