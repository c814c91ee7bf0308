import Verkos.Vlogin.Account
import Verkos.Vlogin.Lines

/-!
# Entries and their lines

The lines that the tools write have the form of their file as long as no field has a colon or a
newline, and an entry that was read from a file has none.
-/

namespace Verkos.Vlogin

open Lib
open List
open Option (map_eq_some_iff bind_eq_some_iff)

/-- A text that does not disturb the form of a line. -/
def Field (f : Text) : Prop := ':' ∉ f ∧ '\n' ∉ f

instance (f : Text) : Decidable (Field f) := inferInstanceAs (Decidable (_ ∧ _))

theorem field_nil : Field [] := ⟨not_mem_nil, not_mem_nil⟩

variable {n uid gid : Nat} {t gecos dir shell : Text} {fields : List Text}

theorem isDigit_of_mem_dec {c : Char} (h : c ∈ dec n) : c.isDigit :=
  Nat.isDigit_of_mem_toDigits (by decide) (by decide) h

theorem field_dec (n : Nat) : Field (dec n) :=
  ⟨fun h => absurd (isDigit_of_mem_dec h) (by decide),
    fun h => absurd (isDigit_of_mem_dec h) (by decide)⟩

theorem dec_ne_nil (n : Nat) : dec n ≠ [] := Nat.toDigits_ne_nil

theorem number_dec (n : Nat) : number (dec n) = some n := by
  have hall : (dec n).all Char.isDigit = true :=
    all_eq_true.2 fun _ hc => isDigit_of_mem_dec hc
  rw [number, if_pos ⟨dec_ne_nil n, hall⟩]
  exact congrArg some Nat.ofDigitChars_ten_toDigits

theorem idNumber_dec (h : n < 2 ^ 32) : idNumber (dec n) = some n := by
  rw [idNumber, number_dec, Option.filter_some, if_pos (by simpa using h)]

theorem optNumber_dec (n : Nat) : optNumber (dec n) = some (n : Int) := by
  rw [optNumber, if_neg (dec_ne_nil n), number_dec]
  rfl

theorem idNumber_lt (h : idNumber t = some n) : n < 2 ^ 32 := by
  rw [idNumber, Option.filter_eq_some_iff] at h
  simpa using h.2

theorem splitOn_join (h : ∀ f ∈ fields, ':' ∉ f) (hne : fields ≠ []) :
    (join fields).splitOn ':' = fields := splitOn_intercalate ':' h hne

theorem newline_join (h : ∀ f ∈ fields, Field f) : '\n' ∉ join fields := by
  intro hmem
  rcases mem_intercalate hmem with hc | ⟨f, hf, hc⟩
  · cases hc
  · exact (h f hf).2 hc

/-! ## Reading -/

variable {line : Text} {pw : Passwd} {sp : Spwd} {gr : Group}

theorem parsePasswd_eq_some (h : parsePasswd line = some pw) : ∃ uid gid, line.splitOn ':' =
    [pw.name, pw.passwd, uid, gid, pw.gecos, pw.dir, pw.shell] ∧
    idNumber uid = some pw.uid ∧ idNumber gid = some pw.gid := by
  unfold parsePasswd at h
  split at h
  next name passwd uid gid gecos dir shell hfields =>
    obtain ⟨u, hu, h⟩ := bind_eq_some_iff.1 h
    obtain ⟨g, hg, rfl⟩ := map_eq_some_iff.1 h
    exact ⟨uid, gid, hfields, hu, hg⟩
  next => cases h

theorem parseSpwd_eq_some (h : parseSpwd line = some sp) : ∃ lstchg min max warn inact expire flag,
    line.splitOn ':' = [sp.name, sp.pwdp, lstchg, min, max, warn, inact, expire, flag] := by
  unfold parseSpwd at h
  split at h
  next name pwdp lstchg min max warn inact expire flag hfields =>
    obtain ⟨_, _, h⟩ := bind_eq_some_iff.1 h
    obtain ⟨_, _, h⟩ := bind_eq_some_iff.1 h
    obtain ⟨_, _, h⟩ := bind_eq_some_iff.1 h
    obtain ⟨_, _, h⟩ := bind_eq_some_iff.1 h
    obtain ⟨_, _, h⟩ := bind_eq_some_iff.1 h
    obtain ⟨_, _, h⟩ := bind_eq_some_iff.1 h
    obtain ⟨_, _, rfl⟩ := map_eq_some_iff.1 h
    exact ⟨lstchg, min, max, warn, inact, expire, flag, hfields⟩
  next => cases h

theorem parseGroup_eq_some (h : parseGroup line = some gr) : ∃ passwd gid mem,
    line.splitOn ':' = [gr.name, passwd, gid, mem] ∧ idNumber gid = some gr.gid ∧
    gr.mem = tokens mem := by
  unfold parseGroup at h
  split at h
  next name passwd gid mem hfields =>
    obtain ⟨g, hg, rfl⟩ := map_eq_some_iff.1 h
    exact ⟨passwd, gid, mem, hfields, hg, rfl⟩
  next => cases h

theorem named_passwd : Named parsePasswd Passwd.name where
  fields _ _ h := by
    obtain ⟨uid, gid, hfields, -⟩ := parsePasswd_eq_some h
    exact ⟨_, _, hfields⟩

theorem named_spwd : Named parseSpwd Spwd.name where
  fields _ _ h := by
    obtain ⟨_, _, _, _, _, _, _, hfields⟩ := parseSpwd_eq_some h
    exact ⟨_, _, hfields⟩

theorem named_group : Named parseGroup Group.name where
  fields _ _ h := by
    obtain ⟨_, _, _, hfields, -⟩ := parseGroup_eq_some h
    exact ⟨_, _, hfields⟩

theorem field_of_mem {f : Text} (hline : '\n' ∉ line) (h : f ∈ line.splitOn ':') : Field f :=
  ⟨not_mem_field h, fun hc => hline (mem_of_mem_field h hc)⟩

/-- What was read from a line may be written into one. -/
structure Passwd.Clean (pw : Passwd) : Prop where
  name : Field pw.name
  passwd : Field pw.passwd
  uid : pw.uid < 2 ^ 32
  gid : pw.gid < 2 ^ 32
  gecos : Field pw.gecos
  dir : Field pw.dir
  shell : Field pw.shell

theorem clean_of_parsePasswd (hline : '\n' ∉ line) (h : parsePasswd line = some pw) : pw.Clean := by
  obtain ⟨uid, gid, hfields, huid, hgid⟩ := parsePasswd_eq_some h
  have hmem := fun f (hf : f ∈ [pw.name, pw.passwd, uid, gid, pw.gecos, pw.dir, pw.shell]) =>
    field_of_mem hline (hfields ▸ hf)
  exact {
    name := hmem _ (by simp), passwd := hmem _ (by simp), uid := idNumber_lt huid
    gid := idNumber_lt hgid, gecos := hmem _ (by simp), dir := hmem _ (by simp)
    shell := hmem _ (by simp) }

theorem clean_of_parseSpwd (hline : '\n' ∉ line) (h : parseSpwd line = some sp) :
    Field sp.name ∧ Field sp.pwdp := by
  obtain ⟨_, _, _, _, _, _, _, hfields⟩ := parseSpwd_eq_some h
  exact ⟨field_of_mem hline (by rw [hfields]; simp), field_of_mem hline (by rw [hfields]; simp)⟩

/-! ## Writing -/

theorem parsePasswd_passwdLine {name : Text} (hname : ':' ∉ name)
    (huid : uid < 2 ^ 32) (hgid : gid < 2 ^ 32) (hgecos : ':' ∉ gecos) (hdir : ':' ∉ dir)
    (hshell : ':' ∉ shell) : parsePasswd (passwdLine name uid gid gecos dir shell) =
      some ⟨name, inShadow, uid, gid, gecos, dir, shell⟩ := by
  have hfields : (passwdLine name uid gid gecos dir shell).splitOn ':' =
      [name, inShadow, dec uid, dec gid, gecos, dir, shell] := by
    apply splitOn_join _ (cons_ne_nil _ _)
    simp only [forall_mem_cons, not_mem_nil, false_implies, implies_true, and_true]
    exact ⟨hname, by decide, (field_dec uid).1, (field_dec gid).1, hgecos, hdir, hshell⟩
  rw [parsePasswd, hfields]
  dsimp only
  rw [idNumber_dec huid, idNumber_dec hgid]
  rfl

theorem field_take {f : Text} (h : Field f) (n : Nat) : Field (f.take n) :=
  ⟨fun hc => h.1 (mem_of_mem_take hc), fun hc => h.2 (mem_of_mem_take hc)⟩

/-- Whatever else is in the line, its name and its password are these. -/
theorem parsePasswd_passwdLine_some {name : Text}
    (hname : ':' ∉ name) (h : parsePasswd (passwdLine name uid gid gecos dir shell) = some pw) :
    pw.name = name ∧ pw.passwd = inShadow := by
  obtain ⟨u, g, hfields, -⟩ := parsePasswd_eq_some h
  have hline : passwdLine name uid gid gecos dir shell =
      name ++ ':' :: (inShadow ++ ':' :: join [dec uid, dec gid, gecos, dir, shell]) := by
    simp [passwdLine, join, List.intercalate]
  have hx : ':' ∉ inShadow := by decide
  rw [hline, splitOn_append_cons_self_of_not_mem hname,
    splitOn_append_cons_self_of_not_mem hx] at hfields
  obtain ⟨hn, hrest⟩ := List.cons.inj hfields
  exact ⟨hn.symm, (List.cons.inj hrest).1.symm⟩

/-- A number of digits, or nothing. -/
def Digits (t : Text) : Prop := ∀ c ∈ t, c.isDigit

theorem optNumber_of_digits (h : Digits t) : ∃ n, optNumber t = some n := by
  rw [optNumber]
  split_ifs with ht
  · exact ⟨_, rfl⟩
  · rw [number, if_pos ⟨ht, all_eq_true.2 h⟩]
    exact ⟨_, rfl⟩

theorem Digits.field (h : Digits t) : Field t :=
  ⟨fun hc => absurd (h _ hc) (by decide), fun hc => absurd (h _ hc) (by decide)⟩

theorem digits_dec (n : Nat) : Digits (dec n) := fun _ => isDigit_of_mem_dec

section

variable {name hash a b c d e f g : Text} (hname : ':' ∉ name) (hhash : ':' ∉ hash)
  (h : ∀ t ∈ [a, b, c, d, e, f, g], Digits t)
include hname hhash h

/-- A line of nine fields, of which the last seven are numbers. -/
theorem parseSpwd_numbers {va vb vc vd ve vf vg : Int} (ha : optNumber a = some va)
    (hb : optNumber b = some vb) (hc : optNumber c = some vc) (hd : optNumber d = some vd)
    (he : optNumber e = some ve) (hf : optNumber f = some vf) (hg : optNumber g = some vg) :
    parseSpwd (join [name, hash, a, b, c, d, e, f, g]) = some ⟨name, hash, vb, vc, vd, ve, vf⟩ := by
  have hfields : (join [name, hash, a, b, c, d, e, f, g]).splitOn ':' =
      [name, hash, a, b, c, d, e, f, g] := by
    apply splitOn_join _ (cons_ne_nil _ _)
    intro t ht
    rcases mem_cons.1 ht with rfl | ht
    · exact hname
    · rcases mem_cons.1 ht with rfl | ht
      · exact hhash
      · exact (h t ht).field.1
  rw [parseSpwd, hfields]
  dsimp only
  rw [ha, hb, hc, hd, he, hf, hg]
  rfl

theorem parseSpwd_join :
    ∃ sp, parseSpwd (join [name, hash, a, b, c, d, e, f, g]) = some sp ∧ sp.name = name ∧
      sp.pwdp = hash := by
  have hall := h
  simp only [forall_mem_cons] at h
  obtain ⟨ha, hb, hc, hd, he, hf, hg, -⟩ := h
  obtain ⟨_, ha⟩ := optNumber_of_digits ha
  obtain ⟨_, hb⟩ := optNumber_of_digits hb
  obtain ⟨_, hc⟩ := optNumber_of_digits hc
  obtain ⟨_, hd⟩ := optNumber_of_digits hd
  obtain ⟨_, he⟩ := optNumber_of_digits he
  obtain ⟨_, hf⟩ := optNumber_of_digits hf
  obtain ⟨_, hg⟩ := optNumber_of_digits hg
  exact ⟨_, parseSpwd_numbers hname hhash hall ha hb hc hd he hf hg, rfl, rfl⟩

end

theorem parseSpwd_newSpwdLine (env : Env) {name hash : Text} (hname : ':' ∉ name)
    (hhash : ':' ∉ hash) : ∃ sp, parseSpwd (newSpwdLine env name hash) = some sp ∧
      sp.name = name ∧ sp.pwdp = hash := by
  apply parseSpwd_join hname hhash
  simp only [forall_mem_cons]
  refine ⟨digits_dec _, ?_, ?_, ?_, ?_, ?_, ?_, nofun⟩
  all_goals exact List.all_eq_true.1 rfl

theorem digits_orDefault (n : Int) (default : Nat) :
    Digits (if 0 ≤ n then dec n.toNat else dec default) := by
  split_ifs <;> exact digits_dec _

theorem digits_orEmpty (n : Int) : Digits (if 0 ≤ n then snprintf 32 (dec n.toNat) else []) := by
  split_ifs
  · exact fun c hc => digits_dec _ c (mem_of_mem_take hc)
  · exact nofun

theorem parseSpwd_spwdLine (env : Env) (sp : Spwd) {name hash : Text} (hname : ':' ∉ name)
    (hhash : ':' ∉ hash) : ∃ sp', parseSpwd (spwdLine env name hash sp) = some sp' ∧
      sp'.name = name ∧ sp'.pwdp = hash := by
  apply parseSpwd_join hname hhash
  simp only [forall_mem_cons]
  exact ⟨digits_dec _, digits_orDefault _ _, digits_orDefault _ _, digits_orDefault _ _,
    digits_orEmpty _, digits_orEmpty _, nofun, nofun⟩

theorem dec_take (n : Nat) {k : Nat} (hk : 0 < k) :
    dec (Nat.ofDigitChars 10 ((dec n).take k) 0) = (dec n).take k := by
  induction n using Nat.strongRecOn with
  | ind n ih =>
    by_cases hall : (dec n).length ≤ k
    · rw [take_of_length_le hall]
      exact congrArg dec Nat.ofDigitChars_ten_toDigits
    · have hten : 10 ≤ n := by
        by_contra hlt
        have hone : dec n = [n.digitChar] := Nat.toDigits_of_lt_base (by omega)
        rw [hone, length_singleton] at hall
        omega
      have hdec : dec n = dec (n / 10) ++ [(n % 10).digitChar] :=
        Nat.toDigits_of_base_le (by decide) hten
      rw [hdec, length_append, length_singleton] at hall
      have htake : (dec n).take k = (dec (n / 10)).take k := by
        rw [hdec, take_append_of_le_length (by omega)]
      rw [htake]
      exact ih (n / 10) (by omega)

theorem number_of_digits (h : Digits t) (hne : t ≠ []) :
    number t = some (Nat.ofDigitChars 10 t 0) := if_pos ⟨hne, all_eq_true.2 h⟩

/-- What is read from the fields is written into them again. -/
theorem orDefault_stable (n : Int) (default : Nat) :
    ∃ m : Int, optNumber (if 0 ≤ n then dec n.toNat else dec default) = some m ∧
      (if 0 ≤ m then dec m.toNat else dec default) =
        if 0 ≤ n then dec n.toNat else dec default := by
  split_ifs with hn
  · exact ⟨n.toNat, optNumber_dec _, if_pos (by omega)⟩
  · exact ⟨default, optNumber_dec _, if_pos (by omega)⟩

theorem orEmpty_stable (n : Int) :
    ∃ m : Int, optNumber (if 0 ≤ n then snprintf 32 (dec n.toNat) else []) = some m ∧
      (if 0 ≤ m then snprintf 32 (dec m.toNat) else []) =
        if 0 ≤ n then snprintf 32 (dec n.toNat) else [] := by
  split_ifs with hn
  · have hdigits : Digits ((dec n.toNat).take 31) :=
      fun c hc => digits_dec _ c (mem_of_mem_take hc)
    have hne : (dec n.toNat).take 31 ≠ [] := by
      simpa using dec_ne_nil n.toNat
    refine ⟨Nat.ofDigitChars 10 ((dec n.toNat).take 31) 0, ?_, ?_⟩
    · rw [snprintf, optNumber, if_neg hne, number_of_digits hdigits hne]
      rfl
    · rw [if_pos (by omega), Int.toNat_natCast, snprintf, snprintf, dec_take _ (by omega),
        take_take]
      rfl
  · exact ⟨-1, rfl, rfl⟩

theorem parseSpwd_spwdLine_stable (env : Env) (sp : Spwd) {name hash : Text} (hname : ':' ∉ name)
    (hhash : ':' ∉ hash) : ∃ sp', parseSpwd (spwdLine env name hash sp) = some sp' ∧
      sp'.name = name ∧ ∀ hash', spwdLine env name hash' sp' = spwdLine env name hash' sp := by
  obtain ⟨min, hmin, hmin'⟩ := orDefault_stable sp.min 0
  obtain ⟨max, hmax, hmax'⟩ := orDefault_stable sp.max 99999
  obtain ⟨warn, hwarn, hwarn'⟩ := orDefault_stable sp.warn 7
  obtain ⟨inact, hinact, hinact'⟩ := orEmpty_stable sp.inact
  obtain ⟨expire, hexpire, hexpire'⟩ := orEmpty_stable sp.expire
  refine ⟨⟨name, hash, min, max, warn, inact, expire⟩, ?_, rfl, fun hash' => ?_⟩
  · refine parseSpwd_numbers hname hhash ?_ (optNumber_dec _) hmin hmax hwarn hinact hexpire rfl
    simp only [forall_mem_cons]
    exact ⟨digits_dec _, digits_orDefault _ _, digits_orDefault _ _, digits_orDefault _ _,
      digits_orEmpty _, digits_orEmpty _, nofun, nofun⟩
  · simp only [spwdLine]
    rw [hmin', hmax', hwarn', hinact', hexpire']

theorem newline_passwdLine {name : Text} (uid gid : Nat) (hname : Field name)
    (hgecos : '\n' ∉ gecos) (hdir : '\n' ∉ dir) (hshell : '\n' ∉ shell) :
    '\n' ∉ passwdLine name uid gid gecos dir shell := by
  intro hmem
  rcases mem_intercalate hmem with hc | ⟨f, hf, hc⟩
  · cases hc
  · simp only [mem_cons, not_mem_nil, or_false] at hf
    rcases hf with rfl | rfl | rfl | rfl | rfl | rfl | rfl
    · exact hname.2 hc
    · exact absurd hc (by decide)
    · exact (field_dec _).2 hc
    · exact (field_dec _).2 hc
    · exact hgecos hc
    · exact hdir hc
    · exact hshell hc

theorem newline_spwdLine (env : Env) (sp : Spwd) {name hash : Text} (hname : Field name)
    (hhash : Field hash) : '\n' ∉ spwdLine env name hash sp := by
  apply newline_join
  simp only [forall_mem_cons]
  exact ⟨hname, hhash, field_dec _, (digits_orDefault _ _).field, (digits_orDefault _ _).field,
    (digits_orDefault _ _).field, (digits_orEmpty _).field, (digits_orEmpty _).field, field_nil,
    nofun⟩

theorem newline_newSpwdLine (env : Env) {name hash : Text} (hname : Field name)
    (hhash : Field hash) : '\n' ∉ newSpwdLine env name hash := by
  apply newline_join
  simp only [forall_mem_cons]
  refine ⟨hname, hhash, field_dec _, ?_, ?_, ?_, ?_, ?_, ?_, nofun⟩
  all_goals decide

end Verkos.Vlogin
