import Verkos.Vlogin.Locked

/-!
# Well-formed account files

What the account files look like when they are in order: lines that end and are entries, no two of
one name in a file, a shadow entry for each account, and accounts behind all the members of groups.

`Orderly` is the condition on a command that keeps them so. The tools check little of what they
are given, and write it into buffers; most of the condition is that what they write is what it was
meant to be.
-/

namespace Verkos.Vlogin

open Lib

/-! ## What the claim is about -/

/-- The file is lines that end, each an entry of its form, as libc reads it, and no two of one
name. -/
def OfForm {α : Type} (parse : Text → Option α) (nameOf : α → Text) (t : Text) : Prop :=
  ∃ ls, t = unlines ls ∧ (∀ line ∈ ls, '\n' ∉ line ∧ (parse line).isSome) ∧
    ((ls.filterMap parse).map nameOf).Nodup

structure WellFormed (S : Files) : Prop where
  passwd : OfForm parsePasswd Passwd.name (S .passwd)
  shadow : OfForm parseSpwd Spwd.name (S .shadow)
  group : OfForm parseGroup Group.name (S .group)
  shadowed : ∀ pw ∈ passwds (S .passwd), ∃ sp ∈ spwds (S .shadow), sp.name = pw.name
  members : ∀ gr ∈ groups (S .group), ∀ u ∈ gr.mem, ∃ pw ∈ passwds (S .passwd), pw.name = u

/-- A command that completes with exit code 0. -/
def succeed (S : Files) (i : Env × Command) : Option Files :=
  match (i.2.tool i.1).run S with
  | (some 0, S') => some S'
  | _ => none

/-- There is an entry of the name, and no other has its id. -/
def OwnId {α : Type} (nameOf : α → Text) (idOf : α → Nat) (name : Text) (es : List α) : Prop :=
  ∃ e ∈ es, nameOf e = name ∧ ∀ e' ∈ es, nameOf e' ≠ name → idOf e' ≠ idOf e

/-- An id that the command chose is no other one's. A system account has uid 100. -/
def OwnIds (c : Command) (S : Files) : Prop :=
  match c with
  | .useradd argv => ∀ o name, useraddOpts argv = some o → o.name = some name →
      (o.uid < 0 → if o.systemAcct then ∃ pw ∈ passwds (S .passwd), pw.name = name ∧ pw.uid = 100
        else OwnId Passwd.name Passwd.uid name (passwds (S .passwd))) ∧
      (o.group = none → OwnId Group.name Group.gid name (groups (S .group)))
  | .groupadd argv => ∀ o name, groupaddOpts argv = some o → o.name = some name → o.gid < 0 →
      OwnId Group.name Group.gid name (groups (S .group))
  | _ => True

/-- The commands that may take a user from a group: `usermod -G`, `userdel`, and the `groupdel` of
the group. -/
def Command.takes (c : Command) (user group : Text) : Prop :=
  match c with
  | .usermod argv => ∃ o, usermodOpts argv = some o ∧ o.groups.isSome ∧ o.name = some user
  | .userdel argv => userdelOpts argv = some (some user)
  | .groupdel argv => argv.head? = some group
  | _ => False

/-- The other members are still members. -/
def KeepsMembers (c : Command) (S S' : Files) : Prop :=
  ∀ gr ∈ groups (S .group), ∀ u ∈ gr.mem, c.takes u gr.name ∨
    ∃ gr' ∈ groups (S' .group), gr'.name = gr.name ∧ u ∈ gr'.mem

/-! ## The condition -/

/-- The lines are shorter than the buffer that files are read with. -/
def Short (S : Files) : Prop := ∀ file, ∀ line ∈ (S file).splitOn '\n', line.length < 4095

/-- There is an id left before 60000. -/
def RoomFor (ids : List Nat) : Prop := ¬(59999 ∈ ids ∧ 60000 ∈ ids)

/-- The members fit the buffer for them, and the line for the group fits too. -/
structure GroupFits (gr : Group) (mem : List Text) : Prop where
  members : ([','].intercalate mem).length < 2048
  line : (groupLine gr.name gr.gid ([','].intercalate mem)).length < 4095

/-- A user may be one more member of a group. -/
structure Joinable (name : Text) (gr : Group) : Prop where
  nonempty : name ≠ []
  comma : ',' ∉ name
  fits : GroupFits gr (gr.mem.filter (· ≠ name) ++ [name])

/-- The user may join the groups of a list, if not a member already that has not been dropped. -/
def JoinsWell (S : Files) (name : Text) (drops : Prop) (list : Text) : Prop :=
  ∀ gr ∈ groups (S .group), gr.name ∈ tokens (snprintf 512 list) → (drops ∨ name ∉ gr.mem) →
    Joinable name gr

/-- `useradd`: no line of the name is left in the shadow file, and none in the group file where a
group of that name is made; no argument disturbs a line, the lines fit, and there is an id left. -/
structure Addable (env : Env) (S : Files) (o : UseraddOpts) (name : Text) : Prop where
  shadow : spOf S name = none
  group : o.group = none → grOf S name = none
  oneLine : '\n' ∉ name
  gecos : Field o.gecos
  home : ∀ home ∈ o.home, Field home
  shell : Field o.shell
  passwdFits : ∀ g ∈ newGid S o, (passwdLine name (newUid S o) g o.gecos
    (o.home.getD (homeOf name)) o.shell).length < 1024
  shadowFits : (newSpwdLine env name noPassword).length < 1024
  groupFits : o.group = none → ∀ g ∈ newGid S o, (groupLine name g []).length < 512
  uid : o.uid < 0 → o.systemAcct = false → RoomFor ((passwds (S .passwd)).map (·.uid))
  gid : o.group = none → RoomFor ((groups (S .group)).map (·.gid))
  joins : ∀ list ∈ o.groups, JoinsWell S name False list

/-- The hash that `usermod` locks or unlocks: if it has written the account's line, the one in the
shadow file. -/
def usermodHash (S : Files) (o : UsermodOpts) (pw : Passwd) : Option Text :=
  hashOf S (if o.shell.isSome ∨ o.home.isSome ∨ o.group.isSome ∨ 0 ≤ o.uid
    then { pw with passwd := inShadow } else pw)

/-- `usermod`: the new values do not disturb the line, it fits, and so do the lines of the groups
that the user leaves and joins. -/
structure Modifiable (env : Env) (S : Files) (o : UsermodOpts) (name : Text) (pw : Passwd) :
    Prop where
  home : ∀ home ∈ o.home, Field home
  shell : ∀ shell ∈ o.shell, Field shell
  lineFits : o.Rewrites → ∀ g ∈ usermodGid S o pw, (usermodLine o name pw g).length < 1024
  leaves : o.groups.isSome → o.append = false → ∀ gr ∈ groups (S .group), name ∈ gr.mem →
    ∀ gr' ∈ grOf S (snprintf 64 gr.name), GroupFits gr' (gr'.mem.filter (· ≠ name))
  joins : ∀ list ∈ o.groups, JoinsWell S name (o.append = false) list
  lockFits : o.lock ∨ o.unlock → Fits env S name (snprintf 512
    (if o.lock then usermodLockedHash (usermodHash S o pw) else unlockedHash (usermodHash S o pw)))

/-- The condition on a command, in files whose lines are short; `crypt` gives no hash with a colon or
a newline. -/
def Orderly (S : Files) (i : Env × Command) : Prop :=
  Short S ∧ (∀ n typed hash, i.1.hashPassword n typed = some hash → Field hash) ∧
  match i.2 with
  | .useradd argv => ∀ o name, useraddOpts argv = some o → o.name = some name →
      Addable i.1 S o name
  | .usermod argv => ∀ o name pw, usermodOpts argv = some o → o.name = some name →
      pwOf S name = some pw → Modifiable i.1 S o name pw
  | .userdel argv => ∀ name, userdelOpts argv = some (some name) →
      ∀ gr ∈ groups (S .group), name ∉ gr.mem
  | .groupadd argv => ∀ o name, groupaddOpts argv = some o → o.name = some name → Field name ∧
      (groupLine name (if 0 ≤ o.gid then toId o.gid
        else nextFree firstGid ((groups (S .group)).map (·.gid))) []).length < 512 ∧
      (o.gid < 0 → RoomFor ((groups (S .group)).map (·.gid)))
  | .passwd argv input => ∀ o target pw, passwdOpts argv = some o →
      passwdTarget i.1 S o = some target → pwOf S target = some pw →
      (o.lock ∨ o.unlock ∨ o.del → Fits i.1 S target (snprintf 512
        (if o.del then [] else if o.lock then lockedHash (hashOf S pw)
          else unlockedHash (hashOf S pw)))) ∧
      ∀ typed ∈ typedLines input, ∀ hash ∈ i.1.hashPassword 0 typed, Fits i.1 S target hash
  | .chpasswd input => ∀ line ∈ (fgetsAll 1024 [] input).map (·.takeWhile (· ≠ '\n')), ':' ∈ line →
      ∀ n, ∀ hash ∈ i.1.hashPassword n ((line.dropWhile (· ≠ ':')).drop 1),
        Fits i.1 S (line.takeWhile (· ≠ ':')) hash
  | .groupdel _ | .pwconv => True

end Verkos.Vlogin
