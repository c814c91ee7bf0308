import Verkos.Vlogin.Db

/-!
# The account tools

The commands of `vlogin_core.c` that write the account files, each as a program over them. A
command gives its exit code; `die` is where it stops, with the files as they are then. What it does
beside the files (home directories, messages, `sleep`) is not part of the programs.
-/

namespace Verkos.Vlogin

open Lib

attribute [local instance] Text.lawful

def firstUid : Nat := 1000
def firstGid : Nat := 1000

/-- What a command is run with: who runs it, the day, the hash that `hash_password` makes of the
`n`-th password (`none` where it dies), and `crypt_r`. -/
structure Env where
  getuid : Nat
  today : Nat
  hashPassword : Nat → Text → Option Text
  crypt : Text → Text → Option Text

/-- `"x"`: the password is in the shadow file; `"!"`: no password. -/
def inShadow : Text := ['x']
def noPassword : Text := ['!']

/-! ## Options -/

/-- The loop over `argv`: options that stand alone, options with a value, and the rest, of which
only what does not start with `-` is taken. -/
def getopts {O : Type} (alone : Text → Option (O → O)) (valued : Text → Option (Text → O → O))
    (arg : Text → O → O) : List Text → O → Option O
  | [], o => some o
  | a :: rest, o =>
    match alone a with
    | some set => getopts alone valued arg rest (set o)
    | none =>
      match valued a, rest with
      | some set, v :: later => getopts alone valued arg later (set v o)
      | _, later => if a.head? = some '-' then none else getopts alone valued arg later (arg a o)

/-- `atol`. -/
def atol (t : Text) : Int :=
  let t := t.dropWhile fun c => c = ' ' ∨ ('\t' ≤ c ∧ c ≤ '\r')
  let value (t : Text) : Nat := Nat.ofDigitChars 10 (t.takeWhile Char.isDigit) 0
  match t with
  | '-' :: t => max (-(value t : Int)) (-2 ^ 63)
  | '+' :: t => min (value t) (2 ^ 63 - 1)
  | t => min (value t) (2 ^ 63 - 1)

/-- `(uid_t)`. -/
def toId (n : Int) : Nat := (n % 2 ^ 32).toNat

/-- `strtok_r(buf, ",", …)` to the end. -/
def tokens (t : Text) : List Text := (t.splitOn ',').filter (· ≠ [])

/-! ## Passwords -/

/-- `password_ok`. -/
def passwordOk (crypt : Text → Text → Option Text) (hash : Option Text) (typed : Text) : Bool :=
  match hash with
  | none => false
  | some [] => true
  | some (c :: hash) =>
    if c = '!' ∨ c = '*' then false else crypt typed (c :: hash) = some (c :: hash)

/-- `stored_hash`. -/
def storedHash (pw : Passwd) : Tool (Option Text) :=
  if pw.passwd ≠ inShadow then pure (some pw.passwd)
  else do
    let sp ← getspnam pw.name
    pure (sp.map (·.pwdp))

/-- The line of a new entry in the shadow file: `"%s:%s:%ld:0:99999:7:::"`. -/
def newSpwdLine (env : Env) (name hash : Text) : Text :=
  join [name, hash, dec env.today, ['0'], ['9', '9', '9', '9', '9'], ['7'], [], [], []]

/-- The line that replaces an entry: only the hash and the day are new. -/
def spwdLine (env : Env) (name hash : Text) (sp : Spwd) : Text :=
  let orDefault (n : Int) (default : Nat) := if 0 ≤ n then dec n.toNat else dec default
  let orEmpty (n : Int) := if 0 ≤ n then snprintf 32 (dec n.toNat) else []
  join [name, hash, dec env.today, orDefault sp.min 0, orDefault sp.max 99999, orDefault sp.warn 7,
    orEmpty sp.inact, orEmpty sp.expire, []]

/-- `"%s:x:%u:%u:%s:%s:%s"`. -/
def passwdLine (name : Text) (uid gid : Nat) (gecos dir shell : Text) : Text :=
  join [name, inShadow, dec uid, dec gid, gecos, dir, shell]

/-- `set_password`. -/
def setPassword (env : Env) (name hash : Text) : Tool Unit := do
  let some pw ← getpwnam name | die
  lockDb
  match ← getspnam name with
  | some sp =>
    let line := snprintf 4096 (spwdLine env name hash sp)
    if !(← dbReplaceLine .shadow name (some line)) then dbAppendLine .shadow line
  | none => dbAppendLine .shadow (snprintf 4096 (newSpwdLine env name hash))
  if pw.passwd ≠ inShadow then
    let line := snprintf 4096 (passwdLine pw.name pw.uid pw.gid pw.gecos pw.dir pw.shell)
    let _ ← dbReplaceLine .passwd name (some line)
  unlockDb

/-- The new hash of `passwd -l`, and of `passwd -u`. -/
def lockedHash (cur : Option Text) : Text := '!' :: cur.getD []

def unlockedHash (cur : Option Text) : Text :=
  match cur with
  | some ('!' :: rest) => rest
  | some cur => cur
  | none => []

/-- The new hash of `usermod -L`: a `!` that is there is not doubled. -/
def usermodLockedHash (cur : Option Text) : Text := '!' :: unlockedHash cur

structure PasswdOpts where
  target : Option Text
  lock : Bool
  unlock : Bool
  del : Bool

def passwdOpts (argv : List Text) : Option PasswdOpts :=
  getopts
    (fun a =>
      if a = ['-', 'l'] then some fun o => { o with lock := true }
      else if a = ['-', 'u'] then some fun o => { o with unlock := true }
      else if a = ['-', 'd'] then some fun o => { o with del := true }
      else none)
    (fun _ => none) (fun a o => { o with target := some a }) argv ⟨none, false, false, false⟩

/-- A line of input, without its newline; `fgets` of 256 bytes. -/
def typedLines (input : Text) : List Text :=
  (fgetsAll 256 [] input).map (·.takeWhile (· ≠ '\n'))

/-- The end of `cmd_passwd`: a new password, typed twice. -/
def newPassword (env : Env) (target : Text) : List Text → Tool Nat
  | first :: second :: _ => do
    if first.length < 6 ∧ env.getuid ≠ 0 then die
    if first ≠ second then pure 1
    else
      let some hash := env.hashPassword 0 first | die
      setPassword env target hash
      pure 0
  | [first] => do
    if first.length < 6 ∧ env.getuid ≠ 0 then die
    pure 1
  | [] => pure 1

/-- `cmd_passwd`. -/
def cmdPasswd (env : Env) (argv : List Text) (input : Text) : Tool Nat := do
  let some o := passwdOpts argv | die
  let self ← getpwuid env.getuid
  let some target := o.target <|> self.map (·.name) | die
  let some pw ← getpwnam target | die
  let amRoot := env.getuid = 0
  if ¬amRoot ∧ self.map (·.name) ≠ some target then die
  if ¬amRoot ∧ (o.lock ∨ o.unlock ∨ o.del) then die
  if o.lock ∨ o.unlock ∨ o.del then
    let cur ← storedHash pw
    let newhash :=
      if o.del then [] else if o.lock then lockedHash cur else unlockedHash cur
    setPassword env target (snprintf 512 newhash)
    pure 0
  else if amRoot then newPassword env target (typedLines input)
  else
    -- the current password has to be known, where there is one
    let cur ← storedHash pw
    match cur with
    | some (c :: _) =>
      if c = '!' ∨ c = '*' then newPassword env target (typedLines input)
      else
        match typedLines input with
        | old :: typed => if passwordOk env.crypt cur old then newPassword env target typed else pure 1
        | [] => pure 1
    | _ => newPassword env target (typedLines input)

/-- The loop of `cmd_chpasswd` over the lines of its input: the exit code so far, and how many
passwords have been hashed. -/
def chpasswdLines (env : Env) : List Text → Nat → Nat → Tool Nat
  | [], rc, _ => pure rc
  | line :: lines, rc, n =>
    if line = [] then chpasswdLines env lines rc n
    else if ':' ∉ line then chpasswdLines env lines 1 n
    else do
      let name := line.takeWhile (· ≠ ':')
      match ← getpwnam name with
      | none => chpasswdLines env lines 1 n
      | some _ =>
        let some hash := env.hashPassword n ((line.dropWhile (· ≠ ':')).drop 1) | die
        setPassword env name hash
        chpasswdLines env lines rc (n + 1)

/-- `cmd_chpasswd`. -/
def cmdChpasswd (env : Env) (input : Text) : Tool Nat := do
  if env.getuid ≠ 0 then die
  chpasswdLines env ((fgetsAll 1024 [] input).map (·.takeWhile (· ≠ '\n'))) 0 0

/-- The first loop of `cmd_pwconv`: the accounts to move, by name and hash. -/
def toMove : List Passwd → Nat → Tool (List (Text × Text))
  | [], _ => pure []
  | pw :: pws, n =>
    if n = 512 then pure []
    else if pw.passwd = inShadow then toMove pws n
    else do
      match ← getspnam pw.name with
      | some _ => toMove pws n
      | none =>
        let rest ← toMove pws (n + 1)
        pure ((snprintf 64 pw.name, snprintf 256 pw.passwd) :: rest)

/-- `cmd_pwconv`. -/
def cmdPwconv (env : Env) : Tool Nat := do
  if env.getuid ≠ 0 then die
  let moved ← toMove (← getpwent) 0
  Prog.each moved fun (name, hash) => setPassword env name hash
  -- accounts without an entry get a locked one
  Prog.each (← getpwent) fun pw => do
    match ← getspnam pw.name with
    | some _ => pure ()
    | none =>
      lockDb
      dbAppendLine .shadow (snprintf 512 (newSpwdLine env pw.name noPassword))
      unlockDb
  pure 0

/-! ## Accounts and groups -/

/-- The loop of `next_free_uid` and of `next_free_gid`. -/
def nextFree (first : Nat) (ids : List Nat) : Nat :=
  ids.foldl (fun best id => if best ≤ id ∧ id < 60000 then id + 1 else best) first

/-- `next_free_uid`. -/
def nextFreeUid : Tool Nat := do
  let pws ← getpwent
  pure (nextFree firstUid (pws.map (·.uid)))

/-- `next_free_gid`. -/
def nextFreeGid : Tool Nat := do
  let grs ← getgrent
  pure (nextFree firstGid (grs.map (·.gid)))

/-- `"%s:x:%u:%s"`. -/
def groupLine (name : Text) (gid : Nat) (members : Text) : Text :=
  join [name, inShadow, dec gid, members]

/-- `add_group`. -/
def addGroup (name : Text) (gid : Nat) : Tool Unit :=
  dbAppendLine .group (snprintf 512 (groupLine name gid []))

/-- A name behind those of a list that is there. -/
def addMember (members name : Text) : Text :=
  strncat 2048 (if members = [] then [] else strncat 2048 members [',']) name

/-- `add_to_group`. -/
def addToGroup (group user : Text) : Tool Unit := do
  let some gr ← getgrnam group | die
  if user ∈ gr.mem then pure ()
  else
    let members := addMember (gr.mem.foldl addMember []) user
    let _ ← dbReplaceLine .group gr.name (some (snprintf 4096 (groupLine gr.name gr.gid members)))

/-- The loop over the groups of `-G`, each under the lock. -/
def addToGroups (groups user : Text) : Tool Unit :=
  Prog.each (tokens (snprintf 512 groups)) fun group => do
    lockDb
    addToGroup group user
    unlockDb

structure UseraddOpts where
  name : Option Text
  home : Option Text
  shell : Text
  gecos : Text
  group : Option Text
  groups : Option Text
  uid : Int
  systemAcct : Bool

def useraddOpts (argv : List Text) : Option UseraddOpts :=
  getopts
    (fun a =>
      if a = ['-', 'm'] ∨ a = ['-', 'M'] then some id
      else if a = ['-', 'r'] then some fun o => { o with systemAcct := true }
      else none)
    (fun a =>
      if a = ['-', 'u'] then some fun v o => { o with uid := atol v }
      else if a = ['-', 'g'] then some fun v o => { o with group := some v }
      else if a = ['-', 'G'] then some fun v o => { o with groups := some v }
      else if a = ['-', 'd'] then some fun v o => { o with home := some v }
      else if a = ['-', 's'] then some fun v o => { o with shell := v }
      else if a = ['-', 'c'] then some fun v o => { o with gecos := v }
      else none)
    (fun a o => { o with name := some a }) argv
    ⟨none, none, ['/', 'b', 'i', 'n', '/', 'b', 'a', 's', 'h'], [], none, none, -1, false⟩

/-- `"/home/%s"`, in a buffer of 256 bytes. -/
def homeOf (name : Text) : Text := snprintf 256 (['/', 'h', 'o', 'm', 'e', '/'] ++ name)

/-- The id of a group that is named. -/
def groupId (group : Text) : Tool Nat := do
  let some gr ← getgrnam group | die
  pure gr.gid

/-- The uid of the new account; for a system account a plain low one. -/
def useraddUid (o : UseraddOpts) : Tool Nat := do
  let u ← if 0 ≤ o.uid then pure (toId o.uid) else nextFreeUid
  pure (if o.systemAcct ∧ o.uid < 0 then 100 else u)

/-- Its gid: of the group that is named, or of a new group of the same name. -/
def useraddGid (o : UseraddOpts) (name : Text) : Tool Nat :=
  match o.group with
  | some group => groupId group
  | none => do
    let g ← nextFreeGid
    addGroup name g
    pure g

/-- `cmd_useradd`. -/
def cmdUseradd (env : Env) (argv : List Text) : Tool Nat := do
  if env.getuid ≠ 0 then die
  let some o := useraddOpts argv | die
  let some name := o.name | die
  if (← getpwnam name).isSome then die
  if ':' ∈ name then die
  let home := o.home.getD (homeOf name)
  lockDb
  let u ← useraddUid o
  let g ← useraddGid o name
  dbAppendLine .passwd (snprintf 1024 (passwdLine name u g o.gecos home o.shell))
  -- the account exists, and nobody can log in to it
  dbAppendLine .shadow (snprintf 1024 (newSpwdLine env name noPassword))
  unlockDb
  match o.groups with
  | some groups => addToGroups groups name
  | none => pure ()
  pure 0

structure UsermodOpts where
  name : Option Text
  shell : Option Text
  home : Option Text
  groups : Option Text
  group : Option Text
  uid : Int
  append : Bool
  lock : Bool
  unlock : Bool

def usermodOpts (argv : List Text) : Option UsermodOpts :=
  getopts
    (fun a =>
      if a = ['-', 'a'] then some fun o => { o with append := true }
      else if a = ['-', 'L'] then some fun o => { o with lock := true }
      else if a = ['-', 'U'] then some fun o => { o with unlock := true }
      else none)
    (fun a =>
      if a = ['-', 'a', 'G'] then some fun v o => { o with append := true, groups := some v }
      else if a = ['-', 'G'] then some fun v o => { o with groups := some v }
      else if a = ['-', 'g'] then some fun v o => { o with group := some v }
      else if a = ['-', 's'] then some fun v o => { o with shell := some v }
      else if a = ['-', 'd'] then some fun v o => { o with home := some v }
      else if a = ['-', 'u'] then some fun v o => { o with uid := atol v }
      else none)
    (fun a o => { o with name := some a }) argv
    ⟨none, none, none, none, none, -1, false, false, false⟩

/-- The groups that `usermod -G` drops a user from: those the user is in, but the primary one. -/
def toDrop (grs : List Group) (name : Text) (primary : Nat) : List Text :=
  ((grs.filter fun gr => gr.gid ≠ primary ∧ name ∈ gr.mem).take 64).map fun gr => snprintf 64 gr.name

/-- A group's line without a user. -/
def dropFromGroup (name group : Text) : Tool Unit := do
  match ← getgrnam group with
  | none => pure ()
  | some gr =>
    let members := (gr.mem.filter (· ≠ name)).foldl addMember []
    lockDb
    let _ ← dbReplaceLine .group gr.name (some (snprintf 4096 (groupLine gr.name gr.gid members)))
    unlockDb

/-- The line of the account with its new values, if there are any. -/
def usermodEntry (o : UsermodOpts) (name : Text) (pw : Passwd) (g : Nat) : Tool Unit :=
  if o.shell.isSome ∨ o.home.isSome ∨ o.group.isSome ∨ 0 ≤ o.uid then do
    let u := if 0 ≤ o.uid then toId o.uid else pw.uid
    let line := passwdLine name u g (snprintf 256 pw.gecos)
      (o.home.getD (snprintf 256 pw.dir)) (o.shell.getD (snprintf 256 pw.shell))
    lockDb
    let _ ← dbReplaceLine .passwd name (some (snprintf 1024 line))
    unlockDb
  else pure ()

/-- The groups of `-G`; without `-a` in the place of those the user is in. -/
def usermodGroups (o : UsermodOpts) (name : Text) (g : Nat) : Tool Unit :=
  match o.groups with
  | none => pure ()
  | some groups => do
    let grs ← if o.append then pure [] else getgrent
    Prog.each (toDrop grs name g) (dropFromGroup name)
    addToGroups groups name

/-- `-L` and `-U`. -/
def usermodLock (env : Env) (o : UsermodOpts) (name : Text) : Tool Unit :=
  if o.lock ∨ o.unlock then do
    let cur ← match ← getpwnam name with
      | some pw => storedHash pw
      | none => pure none
    let newhash := if o.lock then usermodLockedHash cur else unlockedHash cur
    setPassword env name (snprintf 512 newhash)
  else pure ()

/-- `cmd_usermod`. -/
def cmdUsermod (env : Env) (argv : List Text) : Tool Nat := do
  if env.getuid ≠ 0 then die
  let some o := usermodOpts argv | die
  let some name := o.name | die
  let some pw ← getpwnam name | die
  let g ← match o.group with
    | some group => groupId group
    | none => pure pw.gid
  usermodEntry o name pw g
  usermodGroups o name g
  usermodLock env o name
  pure 0

/-- What `cmd_userdel` and `cmd_groupadd` take from their options. -/
def userdelOpts (argv : List Text) : Option (Option Text) :=
  getopts (fun a => if a = ['-', 'r'] then some id else none) (fun _ => none)
    (fun a _ => some a) argv none

/-- `cmd_userdel`. -/
def cmdUserdel (env : Env) (argv : List Text) : Tool Nat := do
  if env.getuid ≠ 0 then die
  let some (some name) := userdelOpts argv | die
  let some pw ← getpwnam name | die
  if pw.uid = 0 then die
  let gr ← getgrnam name
  let ownGroup := gr.any fun gr => gr.gid = pw.gid ∧ gr.mem = []
  lockDb
  let _ ← dbReplaceLine .passwd name none
  let _ ← dbReplaceLine .shadow name none
  if ownGroup then
    let _ ← dbReplaceLine .group name none
  unlockDb
  pure 0

structure GroupaddOpts where
  name : Option Text
  gid : Int

def groupaddOpts (argv : List Text) : Option GroupaddOpts :=
  getopts (fun a => if a = ['-', 'r'] then some id else none)
    (fun a => if a = ['-', 'g'] then some fun v o => { o with gid := atol v } else none)
    (fun a o => { o with name := some a }) argv ⟨none, -1⟩

/-- `cmd_groupadd`. -/
def cmdGroupadd (env : Env) (argv : List Text) : Tool Nat := do
  if env.getuid ≠ 0 then die
  let some o := groupaddOpts argv | die
  let some name := o.name | die
  if (← getgrnam name).isSome then die
  lockDb
  let gid ← if 0 ≤ o.gid then pure (toId o.gid) else nextFreeGid
  addGroup name gid
  unlockDb
  pure 0

/-- `cmd_groupdel`. -/
def cmdGroupdel (env : Env) (argv : List Text) : Tool Nat := do
  if env.getuid ≠ 0 then die
  let name :: _ := argv | die
  let some gr ← getgrnam name | die
  let pws ← getpwent
  if pws.any fun pw => pw.gid = gr.gid then die
  lockDb
  let _ ← dbReplaceLine .group name none
  unlockDb
  pure 0

/-! ## Commands -/

/-- A command with its arguments, and its input where it reads one. -/
inductive Command
  | useradd (argv : List Text)
  | usermod (argv : List Text)
  | userdel (argv : List Text)
  | groupadd (argv : List Text)
  | groupdel (argv : List Text)
  | passwd (argv : List Text) (input : Text)
  | chpasswd (input : Text)
  | pwconv

def Command.tool (env : Env) : Command → Tool Nat
  | useradd argv => cmdUseradd env argv
  | usermod argv => cmdUsermod env argv
  | userdel argv => cmdUserdel env argv
  | groupadd argv => cmdGroupadd env argv
  | groupdel argv => cmdGroupdel env argv
  | passwd argv input => cmdPasswd env argv input
  | chpasswd input => cmdChpasswd env input
  | pwconv => cmdPwconv env

end Verkos.Vlogin
