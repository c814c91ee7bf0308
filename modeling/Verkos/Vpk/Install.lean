import Verkos.Vpk.Fs
import Mathlib.Data.List.DropRight

/-!
# Installing and removing packages

A package is merged into the system entry by entry, and what is merged is recorded in a list of its
own; removing it goes by that list. The database is apart from the other files here, so packages
must not have files in the directories that the package manager keeps for itself. The buffers for
paths are not modelled: a path is to fit them.

A command that has several packages is one operation for each, in order.
-/

namespace Verkos.Vpk

open Vlogin (Text fgetsAll)

attribute [local instance] Vlogin.Text.lawful

/-! ## Names -/

/-- A name in a directory. -/
structure FileName where
  text : Text
  ok : text ≠ [] ∧ '/' ∉ text ∧ text ≠ ['.'] ∧ text ≠ ['.', '.']

/-- `bad_name`. -/
def badName : Text → Bool
  | [] => true
  | ['.'] => true
  | '.' :: '.' :: _ => true
  | t => !t.all fun c => c.isAlphanum || c = '.' || c = '-' || c = '_' || c = '+'

/-- The name of a package, which fits `name[64]`. -/
structure PkgName where
  text : Text
  ok : badName text = false ∧ text.length < 64
  deriving DecidableEq

/-! ## What is installed -/

/-- A directory in the order of `readdir`, without `.` and `..`: an entry and the rest. -/
inductive Entries
  | nil
  | dir (name : FileName) (inside rest : Entries)
  | file (name : FileName) (content : List UInt8) (rest : Entries)
  | link (name : FileName) (target : Text) (rest : Entries)
  | other (name : FileName) (rest : Entries)

/-- What `recipe_load` gives of a package, with where it has been built or unpacked, and what is
there. -/
structure Recipe where
  version : Text
  dest : Text
  entries : Entries

/-- A package in the database: its `files`, and what its `meta` says. -/
structure Pkg where
  files : Text
  version : Text
  base : Bool

structure Sys where
  fs : Fs
  db : List (PkgName × Pkg)

def Sys.pkg (σ : Sys) (n : PkgName) : Option Pkg := (σ.db.find? (·.1 = n)).map (·.2)

def setPkg (n : PkgName) (pkg : Pkg) : List (PkgName × Pkg) → List (PkgName × Pkg)
  | [] => [(n, pkg)]
  | e :: db => if e.1 = n then (n, pkg) :: db else e :: setPkg n pkg db

/-! ## Directories -/

/-- The part of a path in front of each slash, and all of it. -/
def prefixes (done : Text) : Text → List Text
  | [] => [done]
  | c :: cs => if c = '/' then done :: prefixes (done ++ [c]) cs else prefixes (done ++ [c]) cs

def mkdirs : List Text → Fs → Fs
  | [], fs => fs
  | t :: ts, fs =>
    match fs.mkdir t with
    | some fs => mkdirs ts fs
    | none => fs

/-- `mkpath`. -/
def mkpath (fs : Fs) (t : Text) : Fs :=
  match if t.getLast? = some '/' then t.dropLast else t with
  | [] => fs
  | c :: cs => mkdirs (prefixes [c] cs) fs

/-- `/var/lib/vpk/db`, `/var/tmp/vpk` and `/var/cache/vpk`. -/
def dbDir : Text :=
  ['/', 'v', 'a', 'r', '/', 'l', 'i', 'b', '/', 'v', 'p', 'k', '/', 'd', 'b']
def buildDir : Text := ['/', 'v', 'a', 'r', '/', 't', 'm', 'p', '/', 'v', 'p', 'k']
def cacheDir : Text := ['/', 'v', 'a', 'r', '/', 'c', 'a', 'c', 'h', 'e', '/', 'v', 'p', 'k']

/-- What `main` makes sure of. -/
def Sys.begin (σ : Sys) : Sys := { σ with fs := mkpath (mkpath σ.fs dbDir) buildDir }

/-! ## Merging -/

/-- A line of `files`. -/
def fileLine (kind : Char) (rel : Text) : Text := kind :: ' ' :: rel

/-- `"%s%s%s"`. -/
def under (rel name : Text) : Text := if rel = [] then name else rel ++ '/' :: name

/-- The state of `copy_and_record`: the system's files, what has been written into `files`, and
where files and links have got to. -/
structure Copy where
  fs : Fs
  db : Text
  put : List Path

/-- `copy_and_record`, which may die. -/
def copyAndRecord : Entries → Text → Copy → Option Copy
  | .nil, _, s => some s
  | .dir name inside rest, rel, s =>
    let cr := under rel name.text
    let s := { s with
      fs := mkpath s.fs ('/' :: cr)
      db := s.db ++ (fileLine 'd' cr ++ ['\n']) }
    (copyAndRecord inside cr s).bind (copyAndRecord rest rel)
  | .link name target rest, rel, s =>
    let cr := under rel name.text
    ((s.fs.unlink ('/' :: cr)).symlink target ('/' :: cr)).bind fun (p, fs) =>
      copyAndRecord rest rel ⟨fs, s.db ++ (fileLine 'f' cr ++ ['\n']), s.put ++ [p]⟩
  | .file name content rest, rel, s =>
    let cr := under rel name.text
    (s.fs.openWrite ('/' :: cr) content).bind fun (p, fs) =>
      copyAndRecord rest rel ⟨fs, s.db ++ (fileLine 'f' cr ++ ['\n']), s.put ++ [p]⟩
  | .other _ rest, rel, s => copyAndRecord rest rel s

/-- `record_and_merge`, and where files and links have got to. The flag of a base package stays. -/
def recordAndMerge (σ : Sys) (n : PkgName) (r : Recipe) : Option (Sys × List Path) :=
  (copyAndRecord r.entries [] ⟨σ.fs, [], []⟩).map fun s =>
    let wasBase := (σ.pkg n).any (·.base)
    (⟨s.fs, setPkg n ⟨s.db, r.version, wasBase⟩ σ.db⟩, s.put)

/-- `install_named_forced`; a build makes the cache's directory. -/
def installNamedForced (σ : Sys) (n : PkgName) (r : Recipe) : Option (Sys × List Path) :=
  recordAndMerge { σ with fs := mkpath σ.fs (cacheDir ++ ['/', 'p', 'k', 'g']) } n r

/-- `installed_version`. -/
def installedVersion (pkg : Pkg) : Text := pkg.version.takeWhile fun c => c ≠ '\r' ∧ c ≠ '\n'

/-- `cmd_install` for one of the packages that `resolve` has put in order. -/
def cmdInstall (σ : Sys) (n : PkgName) (r : Recipe) : Option (Sys × List Path) :=
  if (σ.pkg n).isSome then some (σ, []) else installNamedForced σ n r

/-- `cmd_reinstall` for one package. -/
def cmdReinstall (σ : Sys) (n : PkgName) (r : Recipe) : Option (Sys × List Path) :=
  installNamedForced σ n r

/-- `cmd_upgrade` for one package: one that has been named, or each in the database. -/
def cmdUpgrade (σ : Sys) (named : Bool) (n : PkgName) (r : Option Recipe) :
    Option (Sys × List Path) :=
  match σ.pkg n, r with
  | none, _ => some (σ, [])
  | some _, none => some (σ, [])
  | some pkg, some r =>
    if !named ∧ (n.text.head? = some '.' ∨ pkg.base) then some (σ, [])
    else if installedVersion pkg = r.version then some (σ, [])
    else installNamedForced σ n r

/-! ## Removing -/

/-- The path in a line of another package's `files`, if it is a file's. -/
def ownedPath : Text → Option Text
  | 'f' :: ' ' :: rel => some (rel.takeWhile fun c => c ≠ '\r' ∧ c ≠ '\n')
  | _ => none

/-- `owned_by_others`. -/
def ownedByOthers (db : List (PkgName × Pkg)) (self : PkgName) : List Text :=
  (db.filter fun e => e.1.text.head? ≠ some '.' ∧ e.1 ≠ self).flatMap fun e =>
    (fgetsAll 4096 [] e.2.files).filterMap ownedPath

/-- The kind and the path in a line of `files`. -/
def listedPath : Text → Option (Char × Text)
  | t :: ' ' :: rel => some (t, rel.rdropWhile fun c => c = '\n' ∨ c = '\r')
  | _ => none

/-- The loop of `cmd_remove` over the list: files that nobody else owns go, and directories are
collected. -/
def removeFiles (others : List Text) (lines : List (Char × Text)) (fs : Fs) : Fs :=
  (lines.filter fun l => l.1 = 'f' ∧ l.2 ∉ others).foldl (fun fs l => fs.unlink ('/' :: l.2)) fs

def collectedDirs (lines : List (Char × Text)) : List Text :=
  ((lines.filter fun l => l.1 = 'd').take 4096).map fun l => ('/' :: l.2).take 255

/-- `cmd_remove` for one package. -/
def cmdRemove (σ : Sys) (n : PkgName) : Sys :=
  match σ.pkg n with
  | none => σ
  | some pkg =>
    if pkg.base then σ
    else
      let lines := (fgetsAll 4096 [] pkg.files).filterMap listedPath
      let fs := removeFiles (ownedByOthers σ.db n) lines σ.fs
      -- the last ones first
      ⟨(collectedDirs lines).reverse.foldl Fs.rmdir fs, σ.db.filter (·.1 ≠ n)⟩

/-! ## Operations -/

inductive Op
  | install (n : PkgName) (r : Recipe)
  | reinstall (n : PkgName) (r : Recipe)
  | upgrade (named : Bool) (n : PkgName) (r : Option Recipe)
  | remove (n : PkgName)

/-- An operation that completes, with where it has put files and links. -/
def Op.run (σ : Sys) : Op → Option (Sys × List Path)
  | install n r => cmdInstall σ.begin n r
  | reinstall n r => cmdReinstall σ.begin n r
  | upgrade named n r => cmdUpgrade σ.begin named n r
  | remove n => some (cmdRemove σ.begin n, [])

end Verkos.Vpk
