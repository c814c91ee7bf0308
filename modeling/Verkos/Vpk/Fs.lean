import Verkos.Vlogin.Lines

/-!
# The files of the system

What is below the root: directories, files and symbolic links, with the calls that the package
manager makes on them. A path is looked up name by name, and a link on the way is followed; what is
in the tree is always in a directory. No permission is checked, as the package manager is run by
root, and modes are left out: nothing here depends on them.
-/

namespace Verkos.Vpk

open Vlogin (Text)

/-- The names on the way from the root. -/
abbrev Path := List Text

inductive Node
  | dir
  | file (content : List UInt8)
  | link (target : Text)
  deriving DecidableEq

/-! ## Trees -/

def nodeIn (nodes : List (Path × Node)) (p : Path) : Option Node :=
  (nodes.find? (·.1 = p)).map (·.2)

/-- Whether there is a directory, which the root is always. -/
def dirIn (nodes : List (Path × Node)) (p : Path) : Prop := p = [] ∨ nodeIn nodes p = some .dir

instance (nodes : List (Path × Node)) (p : Path) : Decidable (dirIn nodes p) :=
  inferInstanceAs (Decidable (_ ∨ _))

/-- Everything is in a directory; the root is not recorded. -/
structure Fs where
  nodes : List (Path × Node)
  closed : ∀ p, nodeIn nodes p ≠ none → p ≠ [] ∧ dirIn nodes p.dropLast

namespace Fs

variable {fs : Fs} {p q : Path} {n : Text} {new : Node}

def node (fs : Fs) (p : Path) : Option Node := nodeIn fs.nodes p

def IsDir (fs : Fs) (p : Path) : Prop := dirIn fs.nodes p

instance (fs : Fs) (p : Path) : Decidable (fs.IsDir p) := inferInstanceAs (Decidable (dirIn _ _))

theorem node_of_child (h : fs.node (p ++ [n]) ≠ none) : fs.IsDir p := by
  have hdir := (fs.closed _ h).2
  rwa [List.dropLast_concat] at hdir

theorem nodeIn_cons (nodes : List (Path × Node)) :
    nodeIn ((p, new) :: nodes) q = if q = p then some new else nodeIn nodes q := by
  unfold nodeIn
  by_cases h : q = p
  · rw [if_pos h, List.find?_cons_of_pos (by simpa using h.symm)]
    rfl
  · rw [if_neg h, List.find?_cons_of_neg (by simpa using fun heq => h heq.symm)]

theorem nodeIn_filter (nodes : List (Path × Node)) :
    nodeIn (nodes.filter (·.1 ≠ p)) q = if q = p then none else nodeIn nodes q := by
  induction nodes with
  | nil => rw [List.filter_nil]; split_ifs <;> rfl
  | cons e nodes ih =>
    obtain ⟨r, node⟩ := e
    by_cases hr : r = p
    · rw [List.filter_cons_of_neg (by simpa using hr), ih, nodeIn_cons, hr]
      split_ifs <;> rfl
    · rw [List.filter_cons_of_pos (by simpa using hr), nodeIn_cons, nodeIn_cons, ih]
      by_cases hq : q = r
      · rw [if_pos hq, if_pos hq, if_neg (hq ▸ hr)]
      · rw [if_neg hq, if_neg hq]

/-- Another node in place of the one at a path, if that is not a directory. -/
def insert (fs : Fs) (p : Path) (new : Node)
    (h : p ≠ [] ∧ fs.IsDir p.dropLast ∧ fs.node p ≠ some .dir) : Fs where
  nodes := (p, new) :: fs.nodes.filter (·.1 ≠ p)
  closed q hq := by
    have hold : ∀ r, r ≠ p → nodeIn ((p, new) :: fs.nodes.filter (·.1 ≠ p)) r = fs.node r := by
      intro r hr
      rw [nodeIn_cons, if_neg hr, nodeIn_filter, if_neg hr]
      rfl
    have hstay : ∀ r, r ≠ p → fs.IsDir r →
        dirIn ((p, new) :: fs.nodes.filter (·.1 ≠ p)) r := by
      intro r hr hdir
      refine hdir.imp_right fun hnode => ?_
      rw [hold r hr]
      exact hnode
    by_cases hqp : q = p
    · rw [hqp]
      refine ⟨h.1, hstay _ (fun heq => ?_) h.2.1⟩
      have hlen := congrArg List.length heq
      rw [List.length_dropLast] at hlen
      have hpos := List.length_pos_iff.2 h.1
      omega
    · rw [hold q hqp] at hq
      obtain ⟨hne, hdir⟩ := fs.closed q hq
      refine ⟨hne, hstay _ (fun heq => ?_) hdir⟩
      rw [heq] at hdir
      rcases hdir with hnil | hnode
      · exact h.1 hnil
      · exact h.2.2 hnode

theorem node_insert (h : p ≠ [] ∧ fs.IsDir p.dropLast ∧ fs.node p ≠ some .dir) :
    (fs.insert p new h).node q = if q = p then some new else fs.node q := by
  rw [Fs.node, insert, nodeIn_cons, nodeIn_filter]
  split_ifs <;> rfl

/-- Without the node at a path, if nothing is in it. -/
def erase (fs : Fs) (p : Path) (h : ∀ n, fs.node (p ++ [n]) = none) : Fs where
  nodes := fs.nodes.filter (·.1 ≠ p)
  closed q hq := by
    rw [nodeIn_filter] at hq
    split_ifs at hq with hqp
    · exact absurd rfl hq
    · obtain ⟨hne, hdir⟩ := fs.closed q hq
      refine ⟨hne, hdir.imp_right fun hnode => ?_⟩
      rw [nodeIn_filter, if_neg fun heq => ?_]
      · exact hnode
      · apply hq
        have hchild := h (q.getLast hne)
        rw [← heq, List.dropLast_append_getLast hne] at hchild
        exact hchild

theorem node_erase (h : ∀ n, fs.node (p ++ [n]) = none) :
    (fs.erase p h).node q = if q = p then none else fs.node q := by
  rw [Fs.node, erase, nodeIn_filter]
  rfl

/-- Whether something is in a directory. -/
def hasChild (fs : Fs) (p : Path) : Bool := fs.nodes.any fun e => e.1 ≠ [] ∧ e.1.dropLast = p

theorem child_of_not_hasChild (h : fs.hasChild p = false) (n : Text) :
    fs.node (p ++ [n]) = none := by
  by_contra hsome
  obtain ⟨node, hnode⟩ := Option.ne_none_iff_exists'.1 hsome
  obtain ⟨e, he, -⟩ := Option.map_eq_some_iff.1 hnode
  have hmem := List.mem_of_find?_eq_some he
  have hp := List.find?_some he
  rw [hasChild, List.any_eq_false] at h
  refine h e hmem ?_
  have hpath : e.1 = p ++ [n] := by simpa using hp
  rw [hpath, List.dropLast_concat]
  simp

theorem no_child (h : fs.node p ≠ some .dir) (hne : p ≠ []) (n : Text) :
    fs.node (p ++ [n]) = none := by
  by_contra hsome
  rcases node_of_child hsome with hnil | hdir
  · exact hne hnil
  · exact h hdir

/-! ## Paths -/

/-- What stands between the slashes. -/
def comps (t : Text) : List Text := (t.splitOn '/').filter (· ≠ [])

/-- The names below `cur`, one after the other; `go` goes on behind a link. The last name is not
followed. -/
def walkWith (fs : Fs) (go : Path → List Text → Option Path) : Path → List Text → Option Path
  | cur, [] => some cur
  | cur, c :: cs =>
    if c = ['.'] then walkWith fs go cur cs
    else if c = ['.', '.'] then walkWith fs go cur.dropLast cs
    else if cs = [] then some (cur ++ [c])
    else
      match fs.node (cur ++ [c]) with
      | some .dir => walkWith fs go (cur ++ [c]) cs
      | some (.link t) => go (if t.head? = some '/' then [] else cur) (comps t ++ cs)
      | some (.file _) | none => none

/-- With so many links on the way at most. -/
def follow (fs : Fs) : Nat → Path → List Text → Option Path
  | 0 => walkWith fs fun _ _ => none
  | links + 1 => walkWith fs (follow fs links)

/-- Where a path leads, without the link that may be there. -/
def locate (fs : Fs) (t : Text) : Option Path := fs.follow 40 [] (comps t)

/-- Where it leads behind that link too. -/
def behind (fs : Fs) : Nat → Path → Option Path
  | 0, _ => none
  | links + 1, p =>
    match fs.node p with
    | some (.link t) =>
      (fs.follow 40 (if t.head? = some '/' then [] else p.dropLast) (comps t)).bind (behind fs links)
    | some .dir | some (.file _) | none => some p

/-! ## Calls -/

/-- `mkdir`; something that is there already is no failure. -/
def mkdir (fs : Fs) (t : Text) : Option Fs :=
  (fs.locate t).bind fun p =>
    if p = [] ∨ fs.node p ≠ none then some fs
    else if h : p ≠ [] ∧ fs.IsDir p.dropLast ∧ fs.node p ≠ some .dir then some (fs.insert p .dir h)
    else none

/-- `open` for writing, with `O_CREAT` and `O_TRUNC`, and all of the content written: where it has
got to. -/
def openWrite (fs : Fs) (t : Text) (content : List UInt8) : Option (Path × Fs) :=
  ((fs.locate t).bind (fs.behind 40)).bind fun p =>
    if h : p ≠ [] ∧ fs.IsDir p.dropLast ∧ fs.node p ≠ some .dir then
      some (p, fs.insert p (.file content) h)
    else none

/-- `symlink`. -/
def symlink (fs : Fs) (target t : Text) : Option (Path × Fs) :=
  (fs.locate t).bind fun p =>
    if fs.node p ≠ none then none
    else if h : p ≠ [] ∧ fs.IsDir p.dropLast ∧ fs.node p ≠ some .dir then
      some (p, fs.insert p (.link target) h)
    else none

/-- `unlink`, as far as it succeeds. -/
def unlink (fs : Fs) (t : Text) : Fs :=
  match fs.locate t with
  | none => fs
  | some p =>
    if h : p ≠ [] ∧ fs.node p ≠ some .dir then fs.erase p (no_child h.2 h.1) else fs

/-- `rmdir`, as far as it succeeds. -/
def rmdir (fs : Fs) (t : Text) : Fs :=
  match fs.locate t with
  | none => fs
  | some p =>
    if h : fs.node p = some .dir ∧ fs.hasChild p = false then
      fs.erase p (child_of_not_hasChild h.2)
    else fs

end Fs

end Verkos.Vpk
