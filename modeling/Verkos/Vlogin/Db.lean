import Mathlib.Algebra.Group.Int.Defs
import Mathlib.Algebra.Group.Nat.Defs
import Verkos.Lib.Shared

/-!
# The account files

`/etc/passwd`, `/etc/shadow` and `/etc/group` are texts; a text is its bytes, and has no NUL. libc
reads a file line by line, and a line that does not have the form of the file is not an entry. The
tools edit a file as a whole: they copy it, with one line replaced or one more at its end.
-/

namespace Verkos.Vlogin

open Lib

abbrev Text := List Char

theorem Text.lawful : LawfulBEq (List Char) := inferInstance

/-! ## Formats -/

/-- Fields with colons between them: what the formats `"%s:%s:…"` give. -/
def join (fields : List Text) : Text := [':'].intercalate fields

/-- `%u` and `%ld`, of a number that is not negative. -/
def dec (n : Nat) : Text := Nat.toDigits 10 n

/-- `snprintf` into `size` bytes. -/
def snprintf (size : Nat) (t : Text) : Text := t.take (size - 1)

/-- `strncat(buf, t, sizeof buf - strlen(buf) - 1)`, of a buffer of `size` bytes. -/
def strncat (size : Nat) (buf t : Text) : Text := buf ++ t.take (size - buf.length - 1)

/-- Some digits. -/
def number (t : Text) : Option Nat :=
  if t ≠ [] ∧ t.all Char.isDigit then some (Nat.ofDigitChars 10 t 0) else none

/-- A number that fits into `uid_t`. -/
def idNumber (t : Text) : Option Nat := (number t).filter (· < 2 ^ 32)

/-- A field that may be empty, which is -1. -/
def optNumber (t : Text) : Option Int := if t = [] then some (-1) else (number t).map Int.ofNat

/-! ## Entries -/

/-- `struct passwd`. -/
structure Passwd where
  name : Text
  passwd : Text
  uid : Nat
  gid : Nat
  gecos : Text
  dir : Text
  shell : Text

/-- `struct spwd`. -/
structure Spwd where
  name : Text
  pwdp : Text
  min : Int
  max : Int
  warn : Int
  inact : Int
  expire : Int

/-- `struct group`. -/
structure Group where
  name : Text
  gid : Nat
  mem : List Text

def parsePasswd (line : Text) : Option Passwd :=
  match line.splitOn ':' with
  | [name, passwd, uid, gid, gecos, dir, shell] =>
    (idNumber uid).bind fun uid => (idNumber gid).map fun gid =>
      ⟨name, passwd, uid, gid, gecos, dir, shell⟩
  | _ => none

def parseSpwd (line : Text) : Option Spwd :=
  match line.splitOn ':' with
  | [name, pwdp, lstchg, min, max, warn, inact, expire, flag] =>
    (optNumber lstchg).bind fun _ => (optNumber min).bind fun min => (optNumber max).bind fun max =>
      (optNumber warn).bind fun warn => (optNumber inact).bind fun inact =>
        (optNumber expire).bind fun expire => (optNumber flag).map fun _ =>
          ⟨name, pwdp, min, max, warn, inact, expire⟩
  | _ => none

def parseGroup (line : Text) : Option Group :=
  match line.splitOn ':' with
  | [name, _, gid, mem] =>
    (idNumber gid).map fun gid => ⟨name, gid, (mem.splitOn ',').filter (· ≠ [])⟩
  | _ => none

/-- The entries of a file, in order. -/
def entries {α : Type} (parse : Text → Option α) (t : Text) : List α :=
  (t.splitOn '\n').filterMap parse

/-! ## Lookups -/

inductive DbFile
  | passwd
  | shadow
  | group
  deriving DecidableEq

abbrev Files := DbFile → Text

/-- What is read from the files: `getpwnam`, `getpwuid`, `getspnam`, `getgrnam`, a loop over all
entries from `setpwent` or `setgrent` to the end, and a file as it is. -/
inductive Query
  | getpwnam (name : Text)
  | getpwuid (uid : Nat)
  | getspnam (name : Text)
  | getgrnam (name : Text)
  | getpwent
  | getgrent
  | content (file : DbFile)

/-- The kinds of answers. -/
abbrev Query.Answer : Query → Type
  | getpwnam _ => Option Passwd
  | getpwuid _ => Option Passwd
  | getspnam _ => Option Spwd
  | getgrnam _ => Option Group
  | getpwent => List Passwd
  | getgrent => List Group
  | content _ => Text

def Query.file : Query → DbFile
  | getpwnam _ | getpwuid _ | getpwent => .passwd
  | getspnam _ => .shadow
  | getgrnam _ | getgrent => .group
  | content file => file

def passwds (t : Text) : List Passwd := entries parsePasswd t
def spwds (t : Text) : List Spwd := entries parseSpwd t
def groups (t : Text) : List Group := entries parseGroup t

def Query.answer : (q : Query) → Text → q.Answer
  | getpwnam name, t => (passwds t).find? (·.name = name)
  | getpwuid uid, t => (passwds t).find? (·.uid = uid)
  | getspnam name, t => (spwds t).find? (·.name = name)
  | getgrnam name, t => (groups t).find? (·.name = name)
  | getpwent, t => passwds t
  | getgrent, t => groups t
  | content _, t => t

/-- Programs over the account files. -/
def accountAsks : Asks DbFile Text := ⟨Query, Query.Answer, Query.file, Query.answer⟩

abbrev Tool (α : Type) := Prog accountAsks α

def getpwnam (name : Text) : Tool (Option Passwd) := @Prog.look _ _ accountAsks (.getpwnam name)
def getpwuid (uid : Nat) : Tool (Option Passwd) := @Prog.look _ _ accountAsks (.getpwuid uid)
def getspnam (name : Text) : Tool (Option Spwd) := @Prog.look _ _ accountAsks (.getspnam name)
def getgrnam (name : Text) : Tool (Option Group) := @Prog.look _ _ accountAsks (.getgrnam name)
def getpwent : Tool (List Passwd) := @Prog.look _ _ accountAsks .getpwent
def getgrent : Tool (List Group) := @Prog.look _ _ accountAsks .getgrent
def content (file : DbFile) : Tool Text := @Prog.look _ _ accountAsks (.content file)

/-- `die`. -/
abbrev die {α : Type} : Tool α := Prog.fail

abbrev lockDb : Tool Unit := Prog.take
abbrev unlockDb : Tool Unit := Prog.give

/-! ## Edits -/

/-- What `fgets` gives one call after the other, with a buffer of `size` bytes. -/
def fgetsAll (size : Nat) : Text → Text → List Text
  | cur, [] => if cur = [] then [] else [cur]
  | cur, c :: t =>
    if c = '\n' ∨ size ≤ cur.length + 2 then (cur ++ [c]) :: fgetsAll size [] t
    else fgetsAll size (cur ++ [c]) t

/-- Whether a line is the one of `key`: `!strncmp(line, key, klen) && line[klen] == ':'`. -/
def isLineOf (key line : Text) : Bool := (key ++ [':']).isPrefixOf line

/-- The loop of `db_replace_line`. -/
def replaced (t key : Text) (repl : Option Text) : Text :=
  (fgetsAll 4096 [] t).flatMap fun line =>
    if isLineOf key line then
      match repl with
      | some repl => repl ++ ['\n']
      | none => []
    else line

/-- `db_replace_line`. -/
def dbReplaceLine (file : DbFile) (key : Text) (repl : Option Text) : Tool Bool := do
  let t ← content file
  Prog.store file (replaced t key repl)
  pure ((fgetsAll 4096 [] t).any (isLineOf key))

/-- `db_append_line`. -/
def dbAppendLine (file : DbFile) (line : Text) : Tool Unit := do
  let t ← content file
  Prog.store file (t ++ (line ++ ['\n']))

end Verkos.Vlogin
