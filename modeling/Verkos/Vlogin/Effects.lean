import Verkos.Vlogin.Entries

/-!
# What the edits do to the accounts

The state of the account database is what the lookups say, name by name. Each edit changes what
they say of one name, provided that the files are tidy and that the line that is written fits.
-/

namespace Verkos.Vlogin

open Lib

/-- What `getpwnam`, `getspnam` and `getgrnam` find in the files. -/
def pwOf (S : Files) (name : Text) : Option Passwd := (passwds (S .passwd)).find? (·.name = name)
def spOf (S : Files) (name : Text) : Option Spwd := (spwds (S .shadow)).find? (·.name = name)
def grOf (S : Files) (name : Text) : Option Group := (groups (S .group)).find? (·.name = name)

variable {S S' : Files} {name : Text} {ps ss : List Text}

/-! ## Rules for the lookups and the edits -/

/-- The files with a line replaced, or with one more line. -/
def replacedIn (S : Files) (file : DbFile) (key : Text) (repl : Option Text) : Files :=
  Function.update S file (replaced (S file) key repl)

def appendedTo (S : Files) (file : DbFile) (line : Text) : Files :=
  Function.update S file (S file ++ (line ++ ['\n']))

@[simp] theorem sat_getpwnam (post : Option (Option Passwd) → Files → Prop) :
    Prog.Sat (getpwnam name) S post ↔ post (some (pwOf S name)) S := Iff.rfl

@[simp] theorem sat_getspnam (post : Option (Option Spwd) → Files → Prop) :
    Prog.Sat (getspnam name) S post ↔ post (some (spOf S name)) S := Iff.rfl

@[simp] theorem sat_getgrnam (post : Option (Option Group) → Files → Prop) :
    Prog.Sat (getgrnam name) S post ↔ post (some (grOf S name)) S := Iff.rfl

@[simp] theorem sat_getpwuid (uid : Nat) (post : Option (Option Passwd) → Files → Prop) :
    Prog.Sat (getpwuid uid) S post ↔
      post (some ((passwds (S .passwd)).find? (·.uid = uid))) S := Iff.rfl

@[simp] theorem sat_getpwent (post : Option (List Passwd) → Files → Prop) :
    Prog.Sat getpwent S post ↔ post (some (passwds (S .passwd))) S := Iff.rfl

@[simp] theorem sat_dbReplaceLine (file : DbFile) (key : Text) (repl : Option Text)
    (post : Option Bool → Files → Prop) : Prog.Sat (dbReplaceLine file key repl) S post ↔
      post (some ((fgetsAll 4096 [] (S file)).any (isLineOf key)))
        (replacedIn S file key repl) := Iff.rfl

@[simp] theorem sat_dbAppendLine (file : DbFile) (line : Text) (post : Option Unit → Files → Prop) :
    Prog.Sat (dbAppendLine file line) S post ↔ post (some ()) (appendedTo S file line) := Iff.rfl

/-! ## Tidy files -/

/-- `/etc/passwd` and `/etc/shadow` are lines that end and are read as a whole. -/
structure Lined (S : Files) (ps ss : List Text) : Prop where
  passwd : Tidy (S .passwd) ps
  shadow : Tidy (S .shadow) ss

variable {pw : Passwd} {repl : Option Text} {line key hash : Text}

section

variable (h : Lined S ps ss)
include h

theorem Lined.pwOf : pwOf S name = firstOf parsePasswd Passwd.name name ps := by
  rw [Vlogin.pwOf, passwds, h.passwd.entries rfl]
  rfl

theorem Lined.spOf : spOf S name = firstOf parseSpwd Spwd.name name ss := by
  rw [Vlogin.spOf, spwds, h.shadow.entries rfl]
  rfl

theorem Lined.clean (hpw : Vlogin.pwOf S name = some pw) : pw.Clean ∧ pw.name = name := by
  rw [h.pwOf] at hpw
  obtain ⟨line, hline, hparse⟩ := List.mem_filterMap.1 (List.mem_of_find?_eq_some hpw)
  exact ⟨clean_of_parsePasswd (h.passwd.whole line hline).1 hparse, by
    simpa using List.find?_some hpw⟩

theorem Lined.clean_sp {sp : Spwd} (hsp : Vlogin.spOf S name = some sp) :
    Field sp.name ∧ Field sp.pwdp := by
  rw [h.spOf] at hsp
  obtain ⟨line, hline, hparse⟩ := List.mem_filterMap.1 (List.mem_of_find?_eq_some hsp)
  exact clean_of_parseSpwd (h.shadow.whole line hline).1 hparse

theorem Lined.replace_passwd (key : Text) (hrepl : ∀ line ∈ repl, Whole line) :
    Lined (Function.update S .passwd (replaced (S .passwd) key repl)) (swap key repl ps) ss where
  passwd := h.passwd.replaced hrepl
  shadow := h.shadow

theorem Lined.replace_shadow (key : Text) (hrepl : ∀ line ∈ repl, Whole line) :
    Lined (Function.update S .shadow (replaced (S .shadow) key repl)) ps (swap key repl ss) where
  passwd := h.passwd
  shadow := h.shadow.replaced hrepl

theorem Lined.append_passwd (hline : Whole line) :
    Lined (Function.update S .passwd (S .passwd ++ (line ++ ['\n']))) (ps ++ [line]) ss where
  passwd := h.passwd.concat hline
  shadow := h.shadow

theorem Lined.append_shadow (hline : Whole line) :
    Lined (Function.update S .shadow (S .shadow ++ (line ++ ['\n']))) ps (ss ++ [line]) where
  passwd := h.passwd
  shadow := h.shadow.concat hline

/-- An entry of `/etc/passwd` that is replaced by another of its name. -/
theorem Lined.replacedIn_passwd {pw' : Passwd} (hparse : parsePasswd line = some pw')
    (hwhole : Whole line) :
    Lined (replacedIn S .passwd pw'.name (some line)) (swap pw'.name (some line) ps) ss ∧
    (∀ pw, Vlogin.pwOf S pw'.name = some pw →
      Vlogin.pwOf (replacedIn S .passwd pw'.name (some line)) pw'.name = some pw') ∧
    ∀ n, n ≠ pw'.name →
      Vlogin.pwOf (replacedIn S .passwd pw'.name (some line)) n = Vlogin.pwOf S n := by
  have hkey := named_passwd.not_mem hparse
  have h' : Lined (replacedIn S .passwd pw'.name (some line)) (swap pw'.name (some line) ps) ss :=
    h.replace_passwd pw'.name (by rintro _ ⟨⟩; exact hwhole)
  refine ⟨h', fun pw hpw => ?_, fun n hn => ?_⟩
  · rw [h.pwOf] at hpw
    rw [h'.pwOf, named_passwd.swap_self hparse rfl hpw]
  · rw [h'.pwOf, h.pwOf]
    refine named_passwd.swap_other hkey hn ?_ ps
    rintro _ ⟨⟩ e he
    rw [hparse] at he
    cases he
    exact hn.symm

theorem Lined.replacedIn_shadow {sp' : Spwd} (hparse : parseSpwd line = some sp')
    (hwhole : Whole line) :
    Lined (replacedIn S .shadow sp'.name (some line)) ps (swap sp'.name (some line) ss) ∧
    (∀ sp, Vlogin.spOf S sp'.name = some sp →
      Vlogin.spOf (replacedIn S .shadow sp'.name (some line)) sp'.name = some sp') ∧
    ∀ n, n ≠ sp'.name →
      Vlogin.spOf (replacedIn S .shadow sp'.name (some line)) n = Vlogin.spOf S n := by
  have hkey := named_spwd.not_mem hparse
  have h' : Lined (replacedIn S .shadow sp'.name (some line)) ps (swap sp'.name (some line) ss) :=
    h.replace_shadow sp'.name (by rintro _ ⟨⟩; exact hwhole)
  refine ⟨h', fun sp hsp => ?_, fun n hn => ?_⟩
  · rw [h.spOf] at hsp
    rw [h'.spOf, named_spwd.swap_self hparse rfl hsp]
  · rw [h'.spOf, h.spOf]
    refine named_spwd.swap_other hkey hn ?_ ss
    rintro _ ⟨⟩ e he
    rw [hparse] at he
    cases he
    exact hn.symm

/-- An entry behind the others is found if there is none of its name in front. -/
theorem Lined.appendedTo_passwd (hwhole : Whole line) :
    Lined (appendedTo S .passwd line) (ps ++ [line]) ss ∧
    ∀ n, Vlogin.pwOf (appendedTo S .passwd line) n =
      (Vlogin.pwOf S n).or ((parsePasswd line).filter (·.name = n)) := by
  have h' : Lined (appendedTo S .passwd line) (ps ++ [line]) ss := h.append_passwd hwhole
  refine ⟨h', fun n => ?_⟩
  rw [h'.pwOf, h.pwOf, firstOf_append, firstOf_single]

theorem Lined.appendedTo_shadow (hwhole : Whole line) :
    Lined (appendedTo S .shadow line) ps (ss ++ [line]) ∧
    ∀ n, Vlogin.spOf (appendedTo S .shadow line) n =
      (Vlogin.spOf S n).or ((parseSpwd line).filter (·.name = n)) := by
  have h' : Lined (appendedTo S .shadow line) ps (ss ++ [line]) := h.append_shadow hwhole
  refine ⟨h', fun n => ?_⟩
  rw [h'.spOf, h.spOf, firstOf_append, firstOf_single]

/-- The lines of a key taken out. -/
theorem Lined.removedIn_passwd (hkey : ':' ∉ key) :
    Lined (replacedIn S .passwd key none) (swap key none ps) ss ∧
    Vlogin.pwOf (replacedIn S .passwd key none) key = none ∧
    ∀ n, n ≠ key → Vlogin.pwOf (replacedIn S .passwd key none) n = Vlogin.pwOf S n := by
  have h' : Lined (replacedIn S .passwd key none) (swap key none ps) ss :=
    h.replace_passwd key nofun
  refine ⟨h', ?_, fun n hn => ?_⟩
  · rw [h'.pwOf, named_passwd.swap_none]
  · rw [h'.pwOf, h.pwOf]
    refine named_passwd.swap_other hkey hn (fun line hline => ?_) ps
    cases hline

theorem Lined.removedIn_shadow (hkey : ':' ∉ key) :
    Lined (replacedIn S .shadow key none) ps (swap key none ss) ∧
    ∀ n, n ≠ key → Vlogin.spOf (replacedIn S .shadow key none) n = Vlogin.spOf S n := by
  have h' : Lined (replacedIn S .shadow key none) ps (swap key none ss) :=
    h.replace_shadow key nofun
  refine ⟨h', fun n hn => ?_⟩
  rw [h'.spOf, h.spOf]
  refine named_spwd.swap_other hkey hn (fun line hline => ?_) ss
  cases hline

end

/-! ## `set_password` -/

/-- The line that `set_password` writes into the shadow file. -/
def shadowLine (env : Env) (S : Files) (name hash : Text) : Text :=
  match spOf S name with
  | some sp => spwdLine env name hash sp
  | none => newSpwdLine env name hash

/-- The lines that `set_password` writes fit its buffer, and the one that files are read with. -/
structure Fits (env : Env) (S : Files) (name hash : Text) : Prop where
  shadow : (shadowLine env S name hash).length < 4095
  passwd : ∀ pw, pwOf S name = some pw → pw.passwd ≠ inShadow →
    (passwdLine pw.name pw.uid pw.gid pw.gecos pw.dir pw.shell).length < 4095

/-- The account's hash is `hash` now, and in the shadow file; nothing else has changed. -/
structure Sets (S S' : Files) (name hash : Text) : Prop where
  lined : ∃ ps ss, Lined S' ps ss
  group : S' .group = S .group
  pw : pwOf S' name = (pwOf S name).map fun pw => { pw with passwd := inShadow }
  sp : ∃ sp, spOf S' name = some sp ∧ sp.name = name ∧ sp.pwdp = hash
  pwOther : ∀ n, n ≠ name → pwOf S' n = pwOf S n
  spOther : ∀ n, n ≠ name → spOf S' n = spOf S n

theorem snprintf_eq {size : Nat} {t : Text} (h : t.length < size) : snprintf size t = t :=
  List.take_of_length_le (by omega)

/-- The end of `set_password`, when the shadow file has the new hash. -/
theorem pointToShadow_sat {S1 : Files} {ss1 : List Text}
    (h : Lined S ps ss) (hpw : pwOf S pw.name = some pw) (h1 : Lined S1 ps ss1)
    (hgroup : S1 .group = S .group)
    (hsp : ∃ sp, spOf S1 pw.name = some sp ∧ sp.name = pw.name ∧ sp.pwdp = hash)
    (hspOther : ∀ n, n ≠ pw.name → spOf S1 n = spOf S n) (hfits : pw.passwd ≠ inShadow →
      (passwdLine pw.name pw.uid pw.gid pw.gecos pw.dir pw.shell).length < 4095) :
    Prog.Sat (if pw.passwd ≠ inShadow then do
        let _ ← dbReplaceLine .passwd pw.name (some (snprintf 4096
          (passwdLine pw.name pw.uid pw.gid pw.gecos pw.dir pw.shell)))
        unlockDb
      else unlockDb) S1 fun r S' => r = some () ∧ Sets S S' pw.name hash := by
  have hclean := (h.clean hpw).1
  apply Prog.sat_ite
  · intro hx
    have hlen := hfits hx
    rw [snprintf_eq (by omega)]
    have hwhole : Whole (passwdLine pw.name pw.uid pw.gid pw.gecos pw.dir pw.shell) :=
      ⟨newline_passwdLine _ _ hclean.name hclean.gecos.2 hclean.dir.2 hclean.shell.2, hlen⟩
    have hparse := parsePasswd_passwdLine hclean.name.1 hclean.uid hclean.gid hclean.gecos.1
      hclean.dir.1 hclean.shell.1
    obtain ⟨h2, hself, hother⟩ := h1.replacedIn_passwd hparse hwhole
    have hsame : ∀ n, pwOf S1 n = pwOf S n := fun n => h1.pwOf.trans h.pwOf.symm
    simp only [Prog.sat_bind, sat_dbReplaceLine, Prog.andThen_some, Prog.sat_give]
    refine ⟨trivial, ⟨_, _, h2⟩, hgroup, ?_, hsp, fun n hn => (hother n hn).trans (hsame n),
      hspOther⟩
    rw [hself pw ((hsame _).trans hpw), hpw]
    rfl
  · intro hx
    have hx' : pw.passwd = inShadow := not_not.1 hx
    have hsame : ∀ n, pwOf S1 n = pwOf S n := fun n => h1.pwOf.trans h.pwOf.symm
    rw [Prog.sat_give]
    refine ⟨rfl, ⟨_, _, h1⟩, hgroup, ?_, hsp, fun n _ => hsame n, hspOther⟩
    rw [hsame, hpw, Option.map_some, ← hx']

theorem setPassword_sat {env : Env} (h : Lined S ps ss)
    (hpw : pwOf S name = some pw) (hhash : Field hash) (hfits : Fits env S name hash) :
    Prog.Sat (setPassword env name hash) S fun r S' => r = some () ∧ Sets S S' name hash := by
  obtain ⟨hclean, rfl⟩ := h.clean hpw
  have hpwLine := hfits.passwd pw hpw
  have hshadow := hfits.shadow
  unfold setPassword
  simp only [Prog.sat_bind, sat_getpwnam, hpw, Prog.andThen_some, Prog.sat_take, sat_getspnam]
  unfold shadowLine at hshadow
  cases hsp : spOf S pw.name with
  | some sp =>
    rw [hsp] at hshadow
    dsimp only at hshadow ⊢
    have hfoundSp := h.spOf.symm.trans hsp
    have hwhole : Whole (spwdLine env pw.name hash sp) :=
      ⟨newline_spwdLine env sp hclean.name hhash, hshadow⟩
    obtain ⟨sp', hparse, hname, hpwdp⟩ := parseSpwd_spwdLine env sp hclean.name.1 hhash.1
    obtain ⟨h1, hself, hother⟩ := h.replacedIn_shadow hparse hwhole
    rw [hname] at h1 hself hother
    -- the line of the entry that was found is there to be replaced
    have hany : (fgetsAll 4096 [] (S .shadow)).any (isLineOf pw.name) = true := by
      rw [h.shadow.found]
      exact named_spwd.any_of_found (h.spOf.symm.trans hsp)
    simp only [Prog.sat_bind, sat_dbReplaceLine, Prog.andThen_some]
    rw [hany, snprintf_eq (by omega : (spwdLine env pw.name hash sp).length < 4096),
      Bool.not_true, if_neg Bool.false_ne_true]
    exact pointToShadow_sat h hpw h1 rfl ⟨sp', hself sp hsp, hname, hpwdp⟩ hother hpwLine
  | none =>
    rw [hsp] at hshadow
    dsimp only at hshadow ⊢
    have hwhole : Whole (newSpwdLine env pw.name hash) :=
      ⟨newline_newSpwdLine env hclean.name hhash, hshadow⟩
    obtain ⟨sp', hparse, hname, hpwdp⟩ := parseSpwd_newSpwdLine env hclean.name.1 hhash.1
    obtain ⟨h1, hnew⟩ := h.appendedTo_shadow hwhole
    simp only [hparse, Option.filter_some, hname] at hnew
    simp only [Prog.sat_bind, sat_dbAppendLine, Prog.andThen_some]
    rw [snprintf_eq (by omega : (newSpwdLine env pw.name hash).length < 4096)]
    refine pointToShadow_sat h hpw h1 rfl ⟨sp', ?_, hname, hpwdp⟩ (fun n hn => ?_) hpwLine
    · rw [hnew, hsp, Option.none_or, if_pos (decide_eq_true rfl)]
    · rw [hnew, if_neg (by simpa using hn.symm), Option.or_none]

end Verkos.Vlogin
