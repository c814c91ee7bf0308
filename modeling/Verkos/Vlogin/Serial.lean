import Verkos.Lib.Interleaved
import Verkos.Vlogin.Passwords

/-!
# Two account tools at once

Each file is replaced as a whole, and under the lock; but what a tool knows of the files when it
takes the lock is older than the lock. Two commands that both succeed have run one after the other
if what one of them has read is still so when the other is through with it.
-/

namespace Verkos.Vlogin

open Lib

/-- Two commands before their first steps. -/
def atOnce (S : Files) (c : Bool → Env × Command) : System accountAsks Nat :=
  ⟨S, none, fun i => (c i).2.tool (c i).1⟩

/-- The exit code of a command on its own, and the files as it leaves them. -/
def alone (S : Files) (i : Env × Command) : Option Nat × Files := (i.2.tool i.1).run S

variable {S : Files} {c : Bool → Env × Command} {s : System accountAsks Nat}

/-- `groupadd -g GID NAME`. -/
def groupaddOf (gid name : Char) : Env × Command :=
  (byRoot, .groupadd [['-', 'g'], [gid], [name]])

end Verkos.Vlogin
