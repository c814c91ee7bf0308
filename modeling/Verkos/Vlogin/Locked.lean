import Verkos.Vlogin.Effects

/-!
# Which passwords an account opens with

An account has a standing: whether it is locked, and the passwords it opens with when it is not.
Locking and unlocking change the first and leave the second; a new account is locked and opens with
nothing. The tools only have the hash, where a `!` in front is a lock, a lock on a lock, or a
password that was never set, so they keep to the standing of an account only as long as no `!` is
taken off that was not put on as a lock, and as long as no hash is lost on its way between the
files.
-/

namespace Verkos.Vlogin

open Lib

/-! ## What the claim is about -/

/-- What `stored_hash` gives for an entry. -/
def hashOf (S : Files) (pw : Passwd) : Option Text :=
  if pw.passwd ≠ inShadow then some pw.passwd else (spOf S pw.name).map (·.pwdp)

/-- The stored hash of an account, if there is one of that name. -/
def storedOf (S : Files) (name : Text) : Option (Option Text) := (pwOf S name).map (hashOf S)

/-- How it stands with an account: `opens` are the passwords it opens with when it is not locked,
and `nonempty` is whether its hash has ever been other than empty. -/
structure Standing where
  locked : Bool
  opens : Text → Bool
  nonempty : Bool

abbrev Standings := Text → Option Standing

/-- The account of `passwd`. -/
def passwdTarget (env : Env) (S : Files) (o : PasswdOpts) : Option Text :=
  o.target <|> ((passwds (S .passwd)).find? (·.uid = env.getuid)).map (·.name)

/-- The account that a command locks when it completes, and the one that it unlocks. -/
def Command.locks (env : Env) (S : Files) : Command → Option Text
  | usermod argv => (usermodOpts argv).bind fun o => if o.lock then o.name else none
  | passwd argv _ => (passwdOpts argv).bind fun o => if o.lock then passwdTarget env S o else none
  | _ => none

def Command.unlocks (env : Env) (S : Files) : Command → Option Text
  | usermod argv => (usermodOpts argv).bind fun o => if !o.lock ∧ o.unlock then o.name else none
  | passwd argv _ => (passwdOpts argv).bind fun o =>
    if !o.lock ∧ o.unlock then passwdTarget env S o else none
  | _ => none

/-- The standing after a command: of an account that is there in `S'`, from the one before. -/
def Standing.next (locks unlocks : Prop) [Decidable locks] [Decidable unlocks]
    (h : Option Text) : Option Standing → Standing
  | none => ⟨true, fun _ => false, true⟩
  | some s =>
    ⟨if locks then true else if unlocks then false else s.locked, s.opens,
      s.nonempty || h ≠ some []⟩

def nextStandings (env : Env) (c : Command) (done : Bool) (S S' : Files) (g : Standings) :
    Standings := fun n =>
  (storedOf S' n).map fun h =>
    Standing.next (done ∧ c.locks env S = some n) (done ∧ c.unlocks env S = some n) h (g n)

/-- The files, and how it stands with the accounts. -/
structure History where
  files : Files
  standings : Standings

/-- A command, completed (with exit code 0) or not. -/
def History.step (h : History) (i : Env × Command) : Option History :=
  let r := (i.2.tool i.1).run h.files
  some ⟨r.2, nextStandings i.1 i.2 (r.1 = some 0) h.files r.2 h.standings⟩

/-- The passwords of a hash behind all its locks; where there is none, none was ever set. -/
def behindLocks (crypt : Text → Text → Option Text) (hash : Text) : Text → Bool :=
  if hash = [] then fun _ => false else passwordOk crypt (some hash)

/-- How it stands with the accounts that are there at the start: a `!` is a lock, and no hash at all
is none that could be unlocked. -/
def firstStandings (crypt : Text → Text → Option Text) (S : Files) : Standings := fun n =>
  (storedOf S n).map fun h =>
    match h with
    | none => ⟨true, fun _ => false, true⟩
    | some ('!' :: rest) => ⟨true, behindLocks crypt (rest.dropWhile (· = '!')), true⟩
    | some hash => ⟨false, passwordOk crypt (some hash), hash ≠ []⟩

/-- The accounts open with what they should: nothing when they are locked, their passwords
otherwise; and no hash is empty that was not so always. -/
def History.Kept (crypt : Text → Text → Option Text) (h : History) : Prop :=
  ∀ n, (storedOf h.files n).isSome = (h.standings n).isSome ∧
    ∀ hash s, storedOf h.files n = some hash → h.standings n = some s →
      (passwordOk crypt hash = if s.locked then fun _ => false else s.opens) ∧
      (s.nonempty → hash ≠ some [])

/-! ## The condition -/

/-- A hash that `passwd -u` and `usermod -U` may be used on: there is one, and behind a `!` there
is another that is not locked itself. -/
def Unlockable : Option Text → Prop
  | none => False
  | some ('!' :: rest) => rest ≠ [] ∧ rest.head? ≠ some '!'
  | some _ => True

/-- A hash that fits the buffer for it, in lines that fit theirs. -/
structure Storable (env : Env) (S : Files) (name hash : Text) : Prop where
  short : hash.length < 512
  fits : Fits env S name hash

/-- The ids of a new account. -/
def newUid (S : Files) (o : UseraddOpts) : Nat :=
  if o.systemAcct ∧ o.uid < 0 then 100
  else if 0 ≤ o.uid then toId o.uid else nextFree firstUid ((passwds (S .passwd)).map (·.uid))

def newGid (S : Files) (o : UseraddOpts) : Option Nat :=
  match o.group with
  | some group => (grOf S group).map (·.gid)
  | none => some (nextFree firstGid ((groups (S .group)).map (·.gid)))

/-- `useradd`: no line is left in the shadow file from an earlier account, no argument has a
newline, and the lines fit. -/
structure AddsWell (env : Env) (S : Files) (o : UseraddOpts) (name : Text) : Prop where
  fresh : spOf S name = none
  oneLine : '\n' ∉ name
  gecos : '\n' ∉ o.gecos
  home : '\n' ∉ o.home.getD (homeOf name)
  shell : '\n' ∉ o.shell
  passwdFits : ∀ g, newGid S o = some g → (passwdLine name (newUid S o) g o.gecos
    (o.home.getD (homeOf name)) o.shell).length < 1024
  shadowFits : (newSpwdLine env name noPassword).length < 1024

/-- Whether `usermod` writes the account's line in `/etc/passwd`. -/
def UsermodOpts.Rewrites (o : UsermodOpts) : Prop :=
  o.shell.isSome ∨ o.home.isSome ∨ o.group.isSome ∨ 0 ≤ o.uid

def usermodGid (S : Files) (o : UsermodOpts) (pw : Passwd) : Option Nat :=
  match o.group with
  | some group => (grOf S group).map (·.gid)
  | none => some pw.gid

/-- The line it writes. -/
def usermodLine (o : UsermodOpts) (name : Text) (pw : Passwd) (g : Nat) : Text :=
  passwdLine name (if 0 ≤ o.uid then toId o.uid else pw.uid) g (snprintf 256 pw.gecos)
    (o.home.getD (snprintf 256 pw.dir)) (o.shell.getD (snprintf 256 pw.shell))

/-- `usermod`: an account whose line is written has its hash in the shadow file, the new values do
not disturb the line, and it fits; a hash that is locked or unlocked may be. -/
structure ModifiesWell (env : Env) (S : Files) (o : UsermodOpts) (name : Text) (pw : Passwd) :
    Prop where
  shadowed : o.Rewrites → pw.passwd = inShadow
  home : ∀ home ∈ o.home, Field home
  shell : ∀ shell ∈ o.shell, Field shell
  lineFits : o.Rewrites → ∀ g ∈ usermodGid S o pw, (usermodLine o name pw g).length < 1024
  lock : o.lock → Storable env S name (usermodLockedHash (hashOf S pw))
  unlock : !o.lock ∧ o.unlock →
    Unlockable (hashOf S pw) ∧ Storable env S name (unlockedHash (hashOf S pw))

/-- `passwd -l` and `passwd -u`. -/
structure LocksWell (env : Env) (S : Files) (o : PasswdOpts) (target : Text) (pw : Passwd) :
    Prop where
  lock : o.lock → Storable env S target (lockedHash (hashOf S pw))
  unlock : !o.lock ∧ o.unlock →
    Unlockable (hashOf S pw) ∧ Storable env S target (unlockedHash (hashOf S pw))

/-- `pwconv`: every entry is the one of its name, the accounts that are moved fit the arrays for
their names and hashes, and the lines fit. -/
structure ConvertsWell (env : Env) (S : Files) : Prop where
  unique : ((passwds (S .passwd)).map (·.name)).Nodup
  moved : ∀ pw ∈ passwds (S .passwd), pw.passwd ≠ inShadow → spOf S pw.name = none →
    pw.name.length < 64 ∧ pw.passwd.length < 256 ∧ Fits env S pw.name pw.passwd
  added : ∀ pw ∈ passwds (S .passwd), spOf S pw.name = none →
    (newSpwdLine env pw.name noPassword).length < 512

/-- The condition on a command. -/
def Careful (S : Files) (i : Env × Command) : Prop :=
  match i.2 with
  | .useradd argv => ∀ o name, useraddOpts argv = some o → o.name = some name →
      pwOf S name = none → AddsWell i.1 S o name
  | .usermod argv => ∀ o name pw, usermodOpts argv = some o → o.name = some name →
      pwOf S name = some pw → ModifiesWell i.1 S o name pw
  | .passwd argv _ => ∀ o target pw, passwdOpts argv = some o → passwdTarget i.1 S o = some target →
      pwOf S target = some pw → LocksWell i.1 S o target pw
  | .pwconv => ConvertsWell i.1 S
  | .userdel _ | .groupadd _ | .groupdel _ | .chpasswd _ => True

/-- The commands that give no new password: `passwd` only with `-l` or `-u`, without `-d`. -/
def GivesNone : Command → Prop
  | .passwd argv _ => ∃ o, passwdOpts argv = some o ∧ (o.lock ∨ o.unlock) ∧ ¬o.del
  | .chpasswd _ => False
  | _ => True

/-! ## One account through one command -/

/-- What a command may do to a stored hash. -/
inductive Change (locks unlocks : Prop) : Option (Option Text) → Option (Option Text) → Prop
  | same (h : Option (Option Text)) : ¬locks → ¬unlocks → Change locks unlocks h h
  | added : ¬locks → ¬unlocks → Change locks unlocks (some none) (some (some noPassword))
  | new : Change locks unlocks none (some (some noPassword))
  | gone (h : Option Text) : Change locks unlocks (some h) none
  | lock (h : Option Text) : locks → Change locks unlocks (some h) (some (some (lockedHash h)))
  | relock (h : Option Text) :
    locks → Change locks unlocks (some h) (some (some (usermodLockedHash h)))
  | unlock (h : Option Text) : ¬locks → unlocks → Unlockable h →
    Change locks unlocks (some h) (some (some (unlockedHash h)))

/-- How the hash and the standing of an account go together. -/
structure Agrees (crypt : Text → Text → Option Text) (h : Option Text) (s : Standing) : Prop where
  locked : s.locked = true ↔ h = none ∨ ∃ rest, h = some ('!' :: rest)
  opens : s.locked = false → passwordOk crypt h = s.opens
  kept : ∀ rest, h = some ('!' :: rest) → rest.dropWhile (· = '!') ≠ [] →
    passwordOk crypt (some (rest.dropWhile (· = '!'))) = s.opens
  nonempty : s.nonempty → h ≠ some []

variable {crypt : Text → Text → Option Text} {locks unlocks : Prop} [Decidable locks]
  [Decidable unlocks] {h h' : Option Text} {hash : Text} {s : Standing}

theorem passwordOk_locked (rest : Text) :
    passwordOk crypt (some ('!' :: rest)) = fun _ => false := by
  funext typed
  rw [passwordOk, if_pos (.inl rfl)]

theorem dropWhile_eq {hash : Text} (h : hash.head? ≠ some '!') :
    hash.dropWhile (· = '!') = hash := by
  cases hash with
  | nil => rfl
  | cons c rest =>
    apply List.dropWhile_cons_of_neg
    rintro hc
    exact h (congrArg some (of_decide_eq_true hc))

theorem unlockedHash_eq {hash : Text} (h : hash.head? ≠ some '!') :
    unlockedHash (some hash) = hash := by
  unfold unlockedHash
  split
  next heq =>
    rw [Option.some.inj heq] at h
    exact absurd rfl h
  next heq => exact (Option.some.inj heq).symm
  next heq => cases heq

theorem Agrees.unlocked (ha : Agrees crypt (some hash) s) (hhead : hash.head? ≠ some '!') :
    s.locked = false := by
  rw [← Bool.not_eq_true, ha.locked]
  rintro (hnone | ⟨rest, hrest⟩)
  · cases hnone
  · rw [Option.some.inj hrest] at hhead
    exact absurd rfl hhead

theorem Agrees.kept_cons (ha : Agrees crypt (some hash) s) (hne : hash.dropWhile (· = '!') ≠ []) :
    passwordOk crypt (some (hash.dropWhile (· = '!'))) = s.opens := by
  by_cases hhead : hash.head? = some '!'
  · obtain ⟨rest, rfl⟩ := List.head?_eq_some_iff.1 hhead
    exact ha.kept rest rfl hne
  · rw [dropWhile_eq hhead]
    exact ha.opens (ha.unlocked hhead)

/-- What is locked agrees with a locked standing that keeps the passwords behind the lock. -/
theorem agrees_locked {rest : Text} {opens : Text → Bool} {nonempty : Bool}
    (hkept : rest.dropWhile (· = '!') ≠ [] →
      passwordOk crypt (some (rest.dropWhile (· = '!'))) = opens) :
    Agrees crypt (some ('!' :: rest)) ⟨true, opens, nonempty⟩ where
  locked := ⟨fun _ => .inr ⟨rest, rfl⟩, fun _ => rfl⟩
  opens := nofun
  kept r hr hne := by
    cases hr
    exact hkept hne
  nonempty _ := by
    rw [ne_eq, Option.some.injEq]
    exact List.cons_ne_nil _ _

/-- What is not locked agrees with a standing that is not. -/
theorem agrees_unlocked {hash : Text} {nonempty : Bool} (hhead : hash.head? ≠ some '!')
    (hnonempty : nonempty → hash ≠ []) :
    Agrees crypt (some hash) ⟨false, passwordOk crypt (some hash), nonempty⟩ where
  locked := by
    constructor
    · nofun
    · rintro (hnone | ⟨rest, hrest⟩)
      · cases hnone
      · rw [Option.some.inj hrest] at hhead
        exact absurd rfl hhead
  opens _ := rfl
  kept rest hrest _ := by
    rw [Option.some.inj hrest] at hhead
    exact absurd rfl hhead
  nonempty hn := by
    rw [ne_eq, Option.some.injEq]
    exact hnonempty hn

theorem nonempty_next {hash : Text} {b : Bool} (hb : b = true → hash ≠ []) :
    (b || decide (some hash ≠ some [])) = true → hash ≠ [] := by
  intro hor
  rcases Bool.or_eq_true_iff.1 hor with hb' | hne
  · exact hb hb'
  · rintro rfl
    exact absurd hne (by decide)

theorem Change.agrees (hc : Change locks unlocks (some h) (some h')) (ha : Agrees crypt h s) :
    Agrees crypt h' (Standing.next locks unlocks h' (some s)) := by
  cases hc with
  | same _ hl hu =>
    rw [Standing.next, if_neg hl, if_neg hu]
    refine ⟨ha.locked, ha.opens, ha.kept, fun hn => ?_⟩
    rcases Bool.or_eq_true_iff.1 hn with hn | hn
    · exact ha.nonempty hn
    · simpa using hn
  | added hl hu =>
    rw [Standing.next, if_neg hl, if_neg hu, ha.locked.2 (.inl rfl)]
    exact agrees_locked fun hne => absurd rfl hne
  | lock _ hl =>
    rw [Standing.next, if_pos hl]
    refine agrees_locked fun hne => ?_
    cases h with
    | none => exact absurd rfl hne
    | some hash => exact ha.kept_cons hne
  | relock _ hl =>
    rw [Standing.next, if_pos hl]
    refine agrees_locked fun hne => ?_
    cases h with
    | none => exact absurd rfl hne
    | some hash =>
      by_cases hhead : hash.head? = some '!'
      · obtain ⟨rest, rfl⟩ := List.head?_eq_some_iff.1 hhead
        exact ha.kept rest rfl hne
      · rw [unlockedHash_eq hhead] at hne ⊢
        exact ha.kept_cons hne
  | unlock _ hl hu hok =>
    rw [Standing.next, if_neg hl, if_pos hu]
    cases h with
    | none => exact hok.elim
    | some hash =>
      by_cases hhead : hash.head? = some '!'
      · obtain ⟨rest, rfl⟩ := List.head?_eq_some_iff.1 hhead
        obtain ⟨hne, hrest⟩ : rest ≠ [] ∧ rest.head? ≠ some '!' := hok
        have hopens := ha.kept rest rfl (by rwa [dropWhile_eq hrest])
        rw [dropWhile_eq hrest] at hopens
        rw [← hopens]
        exact agrees_unlocked hrest fun _ => hne
      · rw [unlockedHash_eq hhead, ← ha.opens (ha.unlocked hhead)]
        refine agrees_unlocked hhead (nonempty_next fun hn => ?_)
        exact fun hnil => ha.nonempty hn (congrArg some hnil)

theorem agrees_new : Agrees crypt (some noPassword) (Standing.next locks unlocks h' none) where
  locked := ⟨fun _ => .inr ⟨[], rfl⟩, fun _ => rfl⟩
  opens := nofun
  kept rest hrest hne := by
    cases hrest
    exact absurd rfl hne
  nonempty _ := by decide

end Verkos.Vlogin
