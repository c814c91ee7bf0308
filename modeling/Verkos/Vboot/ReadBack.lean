import Verkos.Stam.Fdt
import Verkos.Vboot.Written

/-!
# The device tree read back

`begun` says what a sequence of calls means: the nodes in the order they were begun, each with its
depth and the properties given to it. The reader visits these, if the calls make one tree and a
node's properties are given before its children, which is what a device tree is to `fdt.c`.
-/

namespace Verkos.Vboot

open Lib Lib.Bytes
open Stam.DeviceTree (Fdt fdtNone toInt u32 cstr align4)
open List

/-! ## What the calls mean -/

/-- A node that was begun. -/
structure Begun where
  name : Name
  depth : Nat
  props : List (Name × List UInt8)

/-- The properties given to a node that `level` other nodes are open in. -/
def given : Nat → List Call → List (Name × List UInt8)
  | _, [] => []
  | 0, .prop name val :: cs => (name, val) :: given 0 cs
  | level + 1, .prop _ _ :: cs => given (level + 1) cs
  | level, .node _ :: cs => given (level + 1) cs
  | 0, .endNode :: _ => []
  | level + 1, .endNode :: cs => given level cs

/-- The nodes, the next one at `depth`. -/
def begun : Nat → List Call → List Begun
  | _, [] => []
  | depth, .node name :: cs => ⟨name, depth, given 0 cs⟩ :: begun (depth + 1) cs
  | depth, .prop _ _ :: cs => begun depth cs
  | depth, .endNode :: cs => begun (depth - 1) cs

/-- Properly nested, in `level` open nodes. -/
def nested : Nat → List Call → Bool
  | level, [] => level == 0
  | level, .node _ :: cs => nested (level + 1) cs
  | level, .prop _ _ :: cs => 0 < level && nested level cs
  | 0, .endNode :: _ => false
  | level + 1, .endNode :: cs => nested level cs

/-- A node that `level` others are open in ends with the last call. -/
def closes : Nat → List Call → Bool
  | _, [] => false
  | level, .node _ :: cs => closes (level + 1) cs
  | level, .prop _ _ :: cs => closes level cs
  | 0, .endNode :: cs => cs.isEmpty
  | level + 1, .endNode :: cs => closes level cs

/-- Properties only behind `fg_node` or another property; `ok` is whether one may be next. -/
def propsFirst : Bool → List Call → Bool
  | _, [] => true
  | _, .node _ :: cs => propsFirst true cs
  | ok, .prop _ _ :: cs => ok && propsFirst ok cs
  | _, .endNode :: cs => propsFirst false cs

/-- One tree. -/
def OneTree : List Call → Prop
  | .node _ :: cs => closes 0 cs = true
  | _ => False

/-- The first property of a name, and its length. -/
def Begun.lookup (b : Begun) (name : Name) : Option (List UInt8 × Nat) :=
  (b.props.find? (·.1 = name)).map fun p => (p.2, p.2.length)

/-- The reader has a node, by offset and depth, as it was given. -/
structure Shows (f : Fdt) (steps : Nat) (found : Int × Int) (b : Begun) : Prop where
  name : f.nodeName found.1 = b.name
  depth : found.2 = b.depth
  props : ∀ name, 0 ∉ name → f.value steps found.1 name = some (b.lookup name)

/-- The reader finds these nodes and no others; with enough steps it comes to an end. -/
def ReadsAs (dtb : List UInt8) (nodes : List Begun) : Prop :=
  ∃ enough, ∀ steps ≥ enough, ∃ f found,
    Fdt.init steps dtb = some (some f) ∧ f.nodes steps = some found ∧
    List.Forall₂ (Shows f steps) found nodes

/-! ## Tokens in a blob -/

/-- The token behind its offset. -/
structure Holds (f : Fdt) (toks : List Tok) : Prop where
  struct : ∃ rest, f.dtb.drop f.strukt = structBytes toks ++ (be32 fdtEnd ++ rest)
  size : f.struktSize = (structBytes toks).length + 4
  small : (structBytes toks).length + 4 < 2 ^ 31
  names : ∀ name noff val, Tok.prop name noff val ∈ toks →
    noff < 2 ^ 32 ∧ cstr f.dtb (f.strings + noff) = name
  clean : ∀ name, Tok.node name ∈ toks → 0 ∉ name

variable {f : Fdt} {toks pre post : List Tok} {tok : Tok}

theorem drop_past {dtb x rest : List UInt8} {a : Nat} (h : dtb.drop a = x ++ rest) :
    dtb.drop (a + x.length) = rest := by
  rw [← drop_drop, h, drop_left]

theorem be32_at {dtb rest : List UInt8} {a v : Nat} (h : dtb.drop a = be32 v ++ rest)
    (hv : v < 2 ^ 32) : Stam.DeviceTree.be32 dtb a = v := by
  have hpart : part a 4 dtb = be32 v := by
    rw [part, h]
    exact take_left' (length_be32 v)
  rw [Stam.DeviceTree.be32, hpart]
  calc ofBig (big 4 v) = v % 256 ^ 4 := ofBig_big 4 v
    _ = v := Nat.mod_eq_of_lt (by omega)

theorem align4_eq {n : Nat} (h : n + 3 < 2 ^ 32) : align4 n = n + Fdtgen.padOf n := by
  unfold align4 Fdtgen.padOf
  omega

theorem toInt_eq {n : Nat} (h : n < 2 ^ 31) : toInt n = n := by
  unfold toInt
  rw [Nat.mod_eq_of_lt (by omega), if_pos h]

theorem u32_eq {n : Nat} (h : n < 2 ^ 32) : u32 n = n := by
  unfold u32
  omega

theorem cstr_at {dtb rest : List UInt8} {a : Nat} {name : Name}
    (h : dtb.drop a = name ++ (0 :: rest)) (hname : 0 ∉ name) : cstr dtb a = name := by
  rw [cstr, h]
  exact takeWhile_name hname rest

def Tok.code : Tok → Nat
  | .node _ => fdtBeginNode
  | .prop _ _ _ => fdtProp
  | .endNode => fdtEndNode

theorem structBytes_split (pre post : List Tok) :
    structBytes (pre ++ post) = structBytes pre ++ structBytes post := flatMap_append

theorem structBytes_cons (tok : Tok) (post : List Tok) :
    structBytes (tok :: post) = tok.bytes ++ structBytes post := rfl

theorem Holds.drop (h : Holds f toks) (htoks : toks = pre ++ post) :
    ∃ rest, f.dtb.drop (f.strukt + (structBytes pre).length) =
      structBytes post ++ (be32 fdtEnd ++ rest) := by
  obtain ⟨rest, hrest⟩ := h.struct
  rw [htoks, structBytes_split, append_assoc] at hrest
  exact ⟨rest, drop_past hrest⟩

theorem Holds.length (h : Holds f toks) (htoks : toks = pre ++ tok :: post) :
    (structBytes pre).length + (tok.bytes.length + (structBytes post).length) + 4 =
      f.struktSize := by
  rw [h.size, htoks, structBytes_split, structBytes_cons, length_append, length_append]

theorem Holds.step (h : Holds f toks) (htoks : toks = pre ++ tok :: post) :
    f.step (structBytes pre).length =
      (some tok.code, ((structBytes (pre ++ [tok])).length : Int)) := by
  obtain ⟨rest, hdrop⟩ := h.drop htoks
  have hsize := h.length htoks
  have hsmall := h.small
  have hstrukt := h.size
  rw [structBytes_append, length_append]
  rw [structBytes_cons] at hdrop
  unfold Fdt.step
  cases tok with
  | node name =>
    have hlen : (Tok.bytes (.node name)).length =
        4 + (name.length + 1 + Fdtgen.padOf (name.length + 1)) := by
      rw [Tok.bytes, length_append, length_be32, length_pad4, length_append,
        length_singleton]
    have hpad := padOf_lt (name.length + 1)
    simp only [Tok.bytes, append_assoc] at hdrop
    have htok := be32_at hdrop (by decide)
    have hname : cstr f.dtb (f.strukt + (structBytes pre).length + 4) = name := by
      have hpast := drop_past hdrop
      rw [length_be32] at hpast
      simp only [pad4, append_assoc, singleton_append] at hpast
      exact cstr_at hpast (h.clean name (by rw [htoks]; simp))
    rw [if_neg (by omega)]
    dsimp only
    rw [htok, if_pos (by decide), hname, align4_eq (by omega), toInt_eq (by omega), hlen]
    simp only [Tok.code, Nat.add_assoc]
  | prop name noff val =>
    have hlen : (Tok.bytes (.prop name noff val)).length =
        12 + (val.length + Fdtgen.padOf val.length) := by
      simp only [Tok.bytes, length_append, length_be32, length_pad4]
      omega
    have hpad := padOf_lt val.length
    simp only [Tok.bytes, append_assoc] at hdrop
    have htok := be32_at hdrop (by decide)
    have hval := drop_past hdrop
    rw [length_be32] at hval
    rw [if_neg (by omega)]
    dsimp only
    rw [htok, if_neg (by decide), if_pos (by decide), if_neg (by omega), be32_at hval (by omega),
      align4_eq (by omega), toInt_eq (by omega), hlen]
    simp only [Tok.code, Nat.add_assoc]
  | endNode =>
    have hlen : (Tok.bytes .endNode).length = 4 := length_be32 _
    have htok := be32_at hdrop (by decide)
    rw [if_neg (by omega)]
    dsimp only
    rw [htok, if_neg (by decide), if_neg (by decide), if_pos (by decide), toInt_eq (by omega), hlen]
    rfl

theorem Holds.step_end (h : Holds f toks) :
    f.step (structBytes toks).length = (some fdtEnd, fdtNone) := by
  obtain ⟨rest, hdrop⟩ := h.drop (append_nil toks).symm
  have hsmall := h.small
  have hstrukt := h.size
  have htok := be32_at hdrop (by decide)
  unfold Fdt.step
  rw [if_neg (by omega)]
  dsimp only
  rw [htok, if_neg (by decide), if_neg (by decide), if_neg (by decide)]

/-! ## The walk -/

/-- The offsets and depths of the nodes in `post`, behind `pre`, up to where `depth` goes below 0. -/
def visits : List Tok → List Tok → Int → List (Int × Int)
  | _, [], _ => []
  | pre, .node name :: post, depth =>
    (((structBytes pre).length : Int), depth + 1) :: visits (pre ++ [Tok.node name]) post (depth + 1)
  | pre, .prop name noff val :: post, depth => visits (pre ++ [Tok.prop name noff val]) post depth
  | pre, .endNode :: post, depth =>
    if depth - 1 < 0 then [] else visits (pre ++ [Tok.endNode]) post (depth - 1)

theorem Holds.offset_lt (h : Holds f toks) (htoks : toks = pre ++ post) :
    (structBytes pre).length < 2 ^ 32 := by
  have hsmall := h.small
  rw [htoks, structBytes_split, length_append] at hsmall
  omega

theorem ofNat_ne_none (n : Nat) : ((n : Int) = fdtNone) = False := by
  unfold fdtNone
  simp only [eq_iff_iff, iff_false]
  omega

/-- Where the reader goes from between two tokens. -/
theorem Holds.nextFrom (h : Holds f toks) (htoks : toks = pre ++ post) {steps : Nat}
    (hsteps : post.length < steps) (depth : Int) : (visits pre post depth = [] →
      ∃ d, f.nextFrom steps (structBytes pre).length depth = some (fdtNone, d)) ∧
    ∀ v vs, visits pre post depth = v :: vs →
      f.nextFrom steps (structBytes pre).length depth = some v ∧
      ∃ pre' name post', toks = pre' ++ Tok.node name :: post' ∧ post'.length < post.length ∧
        v.1 = (structBytes pre').length ∧ vs = visits (pre' ++ [Tok.node name]) post' v.2 := by
  induction post generalizing pre steps depth with
  | nil =>
    obtain _ | steps := steps
    · cases hsteps
    have hlt := h.offset_lt htoks
    rw [append_nil] at htoks
    refine ⟨fun _ => ⟨depth, ?_⟩, nofun⟩
    rw [Fdt.nextFrom, if_neg (by rw [ofNat_ne_none]; exact id), u32_eq hlt, ← htoks, h.step_end]
    rfl
  | cons tok post ih =>
    obtain _ | steps := steps
    · cases hsteps
    have hstep := h.step htoks
    have htoks' : toks = (pre ++ [tok]) ++ post := by rw [htoks, append_assoc]; rfl
    have hshort : post.length < steps := Nat.lt_of_succ_lt_succ hsteps
    have hnone := ofNat_ne_none (structBytes (pre ++ [tok])).length
    -- one token on, the rest is shorter still
    have hon : ∀ d, (visits (pre ++ [tok]) post d = [] →
          ∃ d', f.nextFrom steps (structBytes (pre ++ [tok])).length d = some (fdtNone, d')) ∧
        ∀ v vs, visits (pre ++ [tok]) post d = v :: vs →
          f.nextFrom steps (structBytes (pre ++ [tok])).length d = some v ∧
          ∃ pre' name post', toks = pre' ++ Tok.node name :: post' ∧
            post'.length < (tok :: post).length ∧ v.1 = (structBytes pre').length ∧
            vs = visits (pre' ++ [Tok.node name]) post' v.2 := by
      intro d
      obtain ⟨hend, hnext⟩ := ih htoks' hshort d
      refine ⟨hend, fun v vs hv => ?_⟩
      obtain ⟨hfound, pre', name, post', hsplit, hlen, hoff, hvs⟩ := hnext v vs hv
      exact ⟨hfound, pre', name, post', hsplit, Nat.lt_succ_of_lt hlen, hoff, hvs⟩
    rw [Fdt.nextFrom, if_neg (by rw [ofNat_ne_none]; exact id), u32_eq (h.offset_lt htoks), hstep]
    cases tok with
    | node name =>
      refine ⟨nofun, ?_⟩
      rintro v vs hv
      obtain ⟨rfl, rfl⟩ := List.cons.inj hv
      exact ⟨rfl, pre, name, post, htoks, Nat.lt_succ_self _, rfl, rfl⟩
    | prop name noff val =>
      dsimp only [Tok.code]
      have hdepth : (if some fdtProp = some Stam.DeviceTree.fdtEndNode then depth - 1 else depth) =
          depth := if_neg (by decide)
      rw [if_neg (by decide), hdepth, if_neg (fun hout => absurd hout.1 (by decide)),
        if_neg (by rw [hnone]; decide)]
      exact hon depth
    | endNode =>
      dsimp only [Tok.code]
      have hdepth : (if some fdtEndNode = some Stam.DeviceTree.fdtEndNode then depth - 1
          else depth) = depth - 1 := if_pos (by decide)
      have hvisits : visits pre (.endNode :: post) depth =
          if depth - 1 < 0 then [] else visits (pre ++ [Tok.endNode]) post (depth - 1) := rfl
      rw [if_neg (by decide), hdepth, hvisits]
      by_cases hneg : depth - 1 < 0
      · have hout : some fdtEndNode = some Stam.DeviceTree.fdtEndNode ∧ depth - 1 < 0 :=
          ⟨by decide, hneg⟩
        rw [if_pos hneg, if_pos hout]
        exact ⟨fun _ => ⟨depth - 1, rfl⟩, nofun⟩
      · have hin : ¬(some fdtEndNode = some Stam.DeviceTree.fdtEndNode ∧ depth - 1 < 0) :=
          fun hout => hneg hout.2
        rw [if_neg hneg, if_neg hin, if_neg (by rw [hnone]; decide)]
        exact hon (depth - 1)

/-- The walk from a node on. -/
theorem Holds.walk (h : Holds f toks) {name : Name} (htoks : toks = pre ++ Tok.node name :: post)
    {steps k : Nat} (hsteps : post.length < steps) (hk : post.length + 1 < k) (depth : Int) :
    f.walk steps k (structBytes pre).length depth =
      some ((((structBytes pre).length : Int), depth) :: visits (pre ++ [Tok.node name]) post depth) := by
  induction k generalizing pre name post depth with
  | zero => cases hk
  | succ k ih =>
    have htoks' : toks = (pre ++ [Tok.node name]) ++ post := by rw [htoks, append_assoc]; rfl
    obtain ⟨hend, hnext⟩ := h.nextFrom htoks' hsteps depth
    rw [Fdt.walk, if_neg (by rw [ofNat_ne_none]; exact id), Fdt.nextNode,
      u32_eq (h.offset_lt htoks), h.step htoks]
    cases hv : visits (pre ++ [Tok.node name]) post depth with
    | nil =>
      obtain ⟨d, hd⟩ := hend hv
      obtain _ | k := k
      · omega
      rw [hd]
      dsimp only
      rw [Fdt.walk, if_pos rfl]
      rfl
    | cons v vs =>
      obtain ⟨hfound, pre', name', post', hsplit, hlen, hoff, rfl⟩ := hnext v vs hv
      have hrest := ih hsplit (by omega) (by omega) v.2
      rw [hfound]
      dsimp only
      rw [hoff, hrest, ← hoff]
      rfl

theorem Holds.root (h : Holds f toks) {name : Name} (htoks : toks = .node name :: post)
    {steps : Nat} (hsteps : 0 < steps) : f.root steps = some 0 := by
  obtain _ | steps := steps
  · cases hsteps
  obtain ⟨rest, hdrop⟩ := h.struct
  have hsize := h.size
  have hsmall := h.small
  rw [htoks, structBytes_cons] at hdrop
  simp only [Tok.bytes, append_assoc] at hdrop
  rw [Fdt.root, Fdt.rootFrom, if_neg (by omega)]
  dsimp only
  rw [Nat.add_zero, be32_at hdrop (by decide), if_pos (by decide)]
  rfl

theorem Holds.nodes (h : Holds f toks) {name : Name} (htoks : toks = .node name :: post)
    {steps : Nat} (hsteps : post.length + 1 < steps) :
    f.nodes steps = some ((0, 0) :: visits [.node name] post 0) := by
  have hroot := h.root htoks (by omega : 0 < steps)
  have hwalk := @Holds.walk f toks [] post h name htoks steps steps (by omega) hsteps 0
  rw [Fdt.nodes, hroot]
  exact hwalk

/-! ## Properties -/

/-- The properties that come next. -/
def ownProps : List Tok → List (Name × List UInt8)
  | .prop name _ val :: post => (name, val) :: ownProps post
  | _ => []

/-- A token that is not a property ends the search. -/
theorem getpropFrom_stop {a v : Nat} {rest : List UInt8} (name : Name) (steps : Nat)
    (hdrop : f.dtb.drop (f.strukt + a) = be32 v ++ rest) (hlt : a < 2 ^ 32) (hv : v < 2 ^ 32)
    (hnop : v ≠ Stam.DeviceTree.fdtNop) (hprop : v ≠ Stam.DeviceTree.fdtProp) :
    f.getpropFrom name (steps + 1) a = some none := by
  rw [Fdt.getpropFrom]
  split_ifs with hout
  · rfl
  · dsimp only
    rw [u32_eq hlt, be32_at hdrop hv, if_neg hnop, if_pos hprop]

theorem Holds.getpropFrom (h : Holds f toks) (htoks : toks = pre ++ post) {steps : Nat}
    (hsteps : post.length < steps) (name : Name) :
    ∃ r, f.getpropFrom name steps (structBytes pre).length = some r ∧
      (r.map fun p => (part p.1 p.2 f.dtb, p.2)) =
        ((ownProps post).find? (·.1 = name)).map fun p => (p.2, p.2.length) := by
  induction post generalizing pre steps with
  | nil =>
    obtain _ | steps := steps
    · cases hsteps
    obtain ⟨rest, hdrop⟩ := h.drop htoks
    have hlast : structBytes [] ++ (be32 fdtEnd ++ rest) = be32 fdtEnd ++ rest := rfl
    rw [hlast] at hdrop
    refine ⟨none, getpropFrom_stop name steps hdrop (h.offset_lt htoks) ?_ ?_ ?_, rfl⟩
    all_goals decide
  | cons tok post ih =>
    obtain _ | steps := steps
    · cases hsteps
    have htoks' : toks = (pre ++ [tok]) ++ post := by rw [htoks, append_assoc]; rfl
    have hlt := h.offset_lt htoks
    obtain ⟨rest, hdrop⟩ := h.drop htoks
    rw [structBytes_cons] at hdrop
    cases tok with
    | node n =>
      simp only [Tok.bytes, append_assoc] at hdrop
      refine ⟨none, getpropFrom_stop name steps hdrop hlt ?_ ?_ ?_, rfl⟩
      all_goals decide
    | endNode =>
      refine ⟨none, getpropFrom_stop name steps hdrop hlt ?_ ?_ ?_, rfl⟩
      all_goals decide
    | prop n noff val =>
      have hsize := h.length htoks
      have hsmall := h.small
      have hstrukt := h.size
      have hlen : (Tok.bytes (.prop n noff val)).length =
          12 + (val.length + Fdtgen.padOf val.length) := by
        simp only [Tok.bytes, length_append, length_be32, length_pad4]
        omega
      have hpad := padOf_lt val.length
      obtain ⟨hnoff, hname⟩ := h.names n noff val (by rw [htoks]; simp)
      simp only [Tok.bytes, append_assoc] at hdrop
      have hval := drop_past hdrop
      have hoff := drop_past hval
      have hbytes := drop_past hoff
      simp only [length_be32] at hval hoff hbytes
      have hnext : toInt ((structBytes pre).length + 12 + align4 val.length) =
          (structBytes (pre ++ [Tok.prop n noff val])).length := by
        rw [align4_eq (by omega), toInt_eq (by omega), structBytes_append, length_append, hlen]
        omega
      have hin : ¬(((structBytes pre).length : Int) = fdtNone ∨
          toInt f.struktSize < (structBytes pre).length + 4) := by
        rw [ofNat_ne_none, false_or, toInt_eq (by omega)]
        omega
      rw [Fdt.getpropFrom, if_neg hin]
      dsimp only
      rw [u32_eq hlt, be32_at hdrop (by decide), if_neg (by decide), if_neg (by decide),
        be32_at hval (by omega), be32_at hoff hnoff, hname, hnext]
      by_cases hsame : n = name
      · subst hsame
        rw [if_pos rfl]
        refine ⟨_, rfl, ?_⟩
        have hpart : part (f.strukt + (structBytes pre).length + 12) val.length f.dtb = val := by
          rw [part, hbytes, pad4, append_assoc]
          exact take_left' rfl
        simp [ownProps, hpart]
      · rw [if_neg hsame]
        obtain ⟨r, hr, hvalue⟩ := ih htoks' (Nat.lt_of_succ_lt_succ hsteps)
        refine ⟨r, hr, hvalue.trans ?_⟩
        simp [ownProps, hsame]

/-- `fdt_getprop` on a node. -/
theorem Holds.getprop (h : Holds f toks) {node : Name} (htoks : toks = pre ++ Tok.node node :: post)
    {steps : Nat} (hsteps : post.length < steps) (name : Name) :
    ∃ r, f.getprop steps (structBytes pre).length name = some r ∧
      (r.map fun p => (part p.1 p.2 f.dtb, p.2)) =
        ((ownProps post).find? (·.1 = name)).map fun p => (p.2, p.2.length) := by
  have htoks' : toks = (pre ++ [Tok.node node]) ++ post := by rw [htoks, append_assoc]; rfl
  rw [Fdt.getprop, if_neg (by rw [ofNat_ne_none]; exact id), u32_eq (h.offset_lt htoks),
    h.step htoks]
  exact h.getpropFrom htoks' hsteps name

theorem Holds.nodeName (h : Holds f toks) {name : Name} (htoks : toks = pre ++ Tok.node name :: post) :
    f.nodeName (structBytes pre).length = name := by
  obtain ⟨rest, hdrop⟩ := h.drop htoks
  rw [structBytes_cons] at hdrop
  simp only [Tok.bytes, append_assoc] at hdrop
  have hpast := drop_past hdrop
  rw [length_be32] at hpast
  simp only [pad4, append_assoc, singleton_append] at hpast
  rw [Fdt.nodeName, if_neg (by rw [ofNat_ne_none]; exact id), u32_eq (h.offset_lt htoks)]
  exact cstr_at hpast (h.clean name (by rw [htoks]; simp))

/-! ## Calls and tokens -/

def Tok.call : Tok → Call
  | .node name => .node name
  | .prop name _ val => .prop name val
  | .endNode => .endNode

theorem given_later {cs : List Call} : (∀ ok level, propsFirst ok cs = true →
    given (level + 1) cs = []) ∧ (propsFirst false cs = true → given 0 cs = []) := by
  induction cs with
  | nil => exact ⟨fun _ _ _ => rfl, fun _ => rfl⟩
  | cons c cs ih =>
    obtain ⟨hopen, hclosed⟩ := ih
    cases c with
    | node name => exact ⟨fun ok level h => hopen true (level + 1) h, fun h => hopen true 0 h⟩
    | prop name val =>
      refine ⟨fun ok level h => hopen ok level ?_, nofun⟩
      rw [propsFirst, Bool.and_eq_true] at h
      exact h.2
    | endNode =>
      refine ⟨fun ok level h => ?_, fun _ => rfl⟩
      obtain _ | level := level
      · exact hclosed h
      · exact hopen false level h

theorem ownProps_eq {ok : Bool} (hfirst : propsFirst ok (post.map Tok.call) = true) :
    ownProps post = given 0 (post.map Tok.call) := by
  induction post with
  | nil => rfl
  | cons tok post ih =>
    cases tok with
    | node name => exact ((@given_later (post.map Tok.call)).1 true 0 hfirst).symm
    | prop name noff val =>
      rw [map_cons, Tok.call, propsFirst, Bool.and_eq_true] at hfirst
      obtain ⟨rfl, hrest⟩ := hfirst
      rw [ownProps, ih hrest]
      rfl
    | endNode => rfl

/-- A node is shown as it was given. -/
theorem Holds.shows_node (h : Holds f toks) {name : Name}
    (htoks : toks = pre ++ Tok.node name :: post) {steps : Nat} (hsteps : post.length < steps)
    (hfirst : propsFirst true (post.map Tok.call) = true) (depth : Nat) :
    Shows f steps ((structBytes pre).length, depth) ⟨name, depth, given 0 (post.map Tok.call)⟩ where
  name := h.nodeName htoks
  depth := rfl
  props key _ := by
    obtain ⟨r, hr, hvalue⟩ := h.getprop htoks hsteps key
    rw [Fdt.value, hr, Option.map_some, hvalue, ownProps_eq hfirst]
    rfl

/-- The nodes that are visited are the ones that were begun. -/
theorem Holds.shows (h : Holds f toks) (htoks : toks = pre ++ post) {steps : Nat}
    (hsteps : post.length < steps) {ok : Bool} (hfirst : propsFirst ok (post.map Tok.call) = true)
    {level : Nat} (hcloses : closes level (post.map Tok.call) = true) :
    List.Forall₂ (Shows f steps) (visits pre post level) (begun (level + 1) (post.map Tok.call)) := by
  induction post generalizing pre ok level with
  | nil => cases hcloses
  | cons tok post ih =>
    have htoks' : toks = (pre ++ [tok]) ++ post := by rw [htoks, append_assoc]; rfl
    have hshort : post.length < steps := Nat.lt_of_succ_lt hsteps
    cases tok with
    | node name =>
      apply List.Forall₂.cons
      · exact h.shows_node htoks hshort hfirst (level + 1)
      · exact ih htoks' hshort hfirst hcloses
    | prop name noff val =>
      rw [map_cons, Tok.call, propsFirst, Bool.and_eq_true] at hfirst
      exact ih htoks' hshort hfirst.2 hcloses
    | endNode =>
      have hvisits : visits pre (.endNode :: post) level =
          if (level : Int) - 1 < 0 then [] else visits (pre ++ [Tok.endNode]) post (level - 1) := rfl
      rw [hvisits]
      obtain _ | level := level
      · have hnil : post.map Tok.call = [] := isEmpty_iff.1 hcloses
        rw [if_pos (by decide), map_cons, hnil]
        exact .nil
      · have hlevel : ((level + 1 : Nat) : Int) - 1 = level := by omega
        rw [hlevel, if_neg (by omega)]
        exact ih htoks' hshort hfirst hcloses

/-! ## The pool -/

/-- The name that a property refers to is in the table. -/
def Named (e : Enc) : Prop := ∀ name noff val, Tok.prop name noff val ∈ e.toks →
  noff < (poolBytes e.pool).length ∧ ∃ rest, (poolBytes e.pool).drop noff = name ++ 0 :: rest

theorem findIn_spec {pool : List Name} {name : Name} (start : List UInt8) {i : Nat}
    (h : findIn name pool start.length = some i) : i < (start ++ poolBytes pool).length ∧
      ∃ rest, (start ++ poolBytes pool).drop i = name ++ 0 :: rest := by
  induction pool generalizing start with
  | nil => cases h
  | cons c cs ih =>
    have hbytes : poolBytes (c :: cs) = c ++ 0 :: poolBytes cs := by simp [poolBytes]
    unfold findIn at h
    split_ifs at h with hc
    · cases h
      rw [hbytes, drop_left, hc]
      exact ⟨by simp, poolBytes cs, rfl⟩
    · have hlen : (start ++ (c ++ [0])).length = start.length + c.length + 1 := by
        simp only [length_append, length_singleton, Nat.add_assoc]
      have happ : start ++ (c ++ [0]) ++ poolBytes cs = start ++ poolBytes (c :: cs) := by
        rw [hbytes]
        simp
      rw [← happ]
      exact ih (start ++ (c ++ [0])) (by rwa [hlen])

theorem internIn_spec (pool : List Name) (name : Name) :
    (internIn pool name).2 < (poolBytes (internIn pool name).1).length ∧
      ∃ rest, (poolBytes (internIn pool name).1).drop (internIn pool name).2 = name ++ 0 :: rest := by
  unfold internIn
  cases hfind : findIn name pool 0 with
  | some i => exact findIn_spec [] hfind
  | none =>
    dsimp only
    rw [poolBytes_append, drop_left]
    exact ⟨by simp, [], rfl⟩

theorem Named.call {e : Enc} (h : Named e) (c : Call) : Named (e.call c) := by
  cases c with
  | node n | endNode =>
    intro name noff val hmem
    rcases mem_append.1 hmem with hmem | hmem
    · exact h name noff val hmem
    · cases mem_singleton.1 hmem
  | prop n v =>
    intro name noff val hmem
    show noff < (poolBytes (internIn e.pool n).1).length ∧
      ∃ rest, (poolBytes (internIn e.pool n).1).drop noff = name ++ 0 :: rest
    rcases mem_append.1 hmem with hmem | hmem
    · obtain ⟨more, hmore⟩ := internIn_grows e.pool n
      obtain ⟨hlt, rest, hrest⟩ := h name noff val hmem
      rw [hmore, poolBytes_split]
      refine ⟨?_, rest ++ poolBytes more, ?_⟩
      · rw [length_append]
        exact Nat.lt_add_right _ hlt
      · rw [drop_append_of_le_length (Nat.le_of_lt hlt), hrest, append_assoc]
        rfl
    · cases mem_singleton.1 hmem
      exact internIn_spec e.pool n

/-! ## What a run of calls leaves -/

/-- The tokens and names of some calls. -/
def encode (calls : List Call) : Enc := calls.foldl Enc.call ⟨[], []⟩

theorem Enc.call_toks (e : Enc) (c : Call) :
    (e.call c).toks.map Tok.call = e.toks.map Tok.call ++ [c] := by
  cases c <;> exact map_append

theorem encode_calls (calls : List Call) : (encode calls).toks.map Tok.call = calls := by
  induction calls using List.reverseRecOn with
  | nil => rfl
  | append_singleton calls c ih =>
    rw [encode, foldl_append]
    show ((encode calls).call c).toks.map Tok.call = _
    rw [Enc.call_toks, ih]

theorem encode_named (calls : List Call) : Named (encode calls) := by
  induction calls using List.reverseRecOn with
  | nil => exact fun _ _ _ hmem => nomatch hmem
  | append_singleton calls c ih =>
    rw [encode, foldl_append]
    exact ih.call c

variable {old : Memory} {cap : Nat} {calls : List Call}

theorem calls_writes (old : Memory) (hcap : cap + 76 < 2 ^ 32) (hfair : ∀ c ∈ calls, c.Fair cap) :
    At old cap (calls.foldl Fdtgen.call (fgInit old cap)) (encode calls) :=
  At.calls ⟨fgInit_writes old cap, fun _ hmem => absurd hmem not_mem_nil⟩ hcap hfair

/-- Room for everything that the calls say. -/
def Room (cap : Nat) (calls : List Call) : Prop :=
  Fits cap (structBytes (encode calls).toks ++ be32 fdtEnd) (poolBytes (encode calls).pool)

instance (cap : Nat) (calls : List Call) : Decidable (Room cap calls) :=
  inferInstanceAs (Decidable (Fits _ _ _))

theorem generate_eq_zero (old : Memory) (hcap : cap + 76 < 2 ^ 32)
    (hfair : ∀ c ∈ calls, c.Fair cap) : (generate old cap calls).1 = 0 ↔ ¬Room cap calls := by
  obtain ⟨hover, hfits, -⟩ := (calls_writes old hcap hfair).writes.finish hcap
  refine ⟨fun hzero hroom => ?_, hover⟩
  have htotal := (hfits hroom).total
  have hhdr : fdtgenHdr = 64 := rfl
  rw [generate] at hzero
  omega

theorem generate_outside (old : Memory) (hcap : cap + 76 < 2 ^ 32)
    (hfair : ∀ c ∈ calls, c.Fair cap) {x : Nat} (hx : cap ≤ x) :
    (generate old cap calls).2.buf x = old x :=
  ((calls_writes old hcap hfair).writes.finish hcap).2.2 x hx

/-- The blob as `fdt_init` takes it apart. -/
def opened (dtb : List UInt8) (s : List UInt8) (addr size : Nat) : Fdt :=
  ⟨dtb, fdtgenHdr, s.length, fdtgenHdr + s.length, Stam.DeviceTree.be32 dtb 4, addr, size⟩

theorem word_at {ws : List Nat} {dtb rest : List UInt8} {a i v : Nat}
    (h : dtb.drop a = ws.flatMap be32 ++ rest) (hi : ws[i]? = some v) (hv : v < 2 ^ 32) :
    Stam.DeviceTree.be32 dtb (a + 4 * i) = v := by
  induction ws generalizing a i with
  | nil => cases hi
  | cons w ws ih =>
    rw [flatMap_cons, append_assoc] at h
    cases i with
    | zero =>
      cases hi
      exact be32_at h hv
    | succ i =>
      have hpast := drop_past h
      rw [length_be32] at hpast
      have hword := ih hpast hi
      rwa [Nat.mul_add_one, Nat.add_comm (4 * i), ← Nat.add_assoc]

theorem generate_holds (old : Memory) (hcap : cap < 2 ^ 31) (hfair : ∀ c ∈ calls, c.Fair cap)
    (hroom : Room cap calls) (addr size : Nat) :
    let dtb := (generate old cap calls).2.buf.read 0 cap
    let s := structBytes (encode calls).toks ++ be32 fdtEnd
    Stam.DeviceTree.be32 dtb 0 = fdtMagic ∧ Stam.DeviceTree.be32 dtb 8 = fdtgenHdr ∧
    Stam.DeviceTree.be32 dtb 12 = fdtgenHdr + s.length ∧ Stam.DeviceTree.be32 dtb 36 = s.length ∧
    Holds (opened dtb s addr size) (encode calls).toks := by
  have hat := calls_writes old (by omega : cap + 76 < 2 ^ 32) hfair
  have hfin := (hat.writes.finish (by omega)).2.1 hroom
  have hnamed := encode_named calls
  have hcalls := encode_calls calls
  have hroom' := hroom
  unfold Room at hroom'
  rw [← generate] at hfin
  generalize generate old cap calls = r at hfin ⊢
  intro dtb s
  have hhdr : fdtgenHdr = 64 := rfl
  have hs : s = structBytes (encode calls).toks ++ be32 fdtEnd := rfl
  rw [← hs] at hfin hroom'
  generalize htoks : (encode calls).toks = toks at *
  generalize hpool : poolBytes (encode calls).pool = t at *
  have hlen : s.length = (structBytes toks).length + 4 := by
    rw [hs, length_append, length_be32]
  have hfit : fdtgenHdr + s.length ≤ cap - cap / 4 := by
    rcases hroom'.1 with hnil | hfit
    · rw [hnil] at hlen
      cases hlen
    · exact hfit
  have ht := hroom'.2
  -- the buffer in its parts
  have hdtb : ∃ rest, dtb = Fdtgen.header (fdtgenHdr + s.length + t.length) fdtgenHdr
      (fdtgenHdr + s.length) t.length s.length ++ (r.2.buf.read 40 24 ++ (s ++ (t ++ rest))) := by
    obtain ⟨k, hk⟩ : ∃ k, cap = 40 + (24 + (s.length + (t.length + k))) :=
      ⟨cap - (64 + s.length + t.length), by omega⟩
    have hstruct := hfin.struct
    have hstrings := hfin.strings
    rw [hhdr] at hstruct hstrings
    refine ⟨r.2.buf.read (64 + s.length + t.length) k, ?_⟩
    show r.2.buf.read 0 cap = _
    rw [hk, Memory.read_add, Memory.read_add, Memory.read_add, Memory.read_add, hfin.header]
    simp only [Nat.zero_add, Nat.reduceAdd]
    rw [hstruct, hstrings]
  obtain ⟨rest, hdtb⟩ := hdtb
  have hwords : dtb.drop 0 = [fdtMagic, fdtgenHdr + s.length + t.length, fdtgenHdr,
      fdtgenHdr + s.length, 40, 17, 16, 0, t.length, s.length].flatMap be32 ++
      (r.2.buf.read 40 24 ++ (s ++ (t ++ rest))) := by
    rw [drop_zero, hdtb]
    rfl
  have hdrop : dtb.drop fdtgenHdr = s ++ (t ++ rest) := by
    have hlong : fdtgenHdr = (Fdtgen.header (fdtgenHdr + s.length + t.length) fdtgenHdr
        (fdtgenHdr + s.length) t.length s.length ++ r.2.buf.read 40 24).length := by
      rw [length_append, length_header, Memory.length_read]
    rw [hdtb, ← append_assoc]
    exact drop_left' hlong.symm
  have hstrings := drop_past hdrop
  refine ⟨@word_at _ dtb _ 0 0 _ hwords rfl (by decide), @word_at _ dtb _ 0 2 _ hwords rfl (by decide),
    @word_at _ dtb _ 0 3 _ hwords rfl (by omega), @word_at _ dtb _ 0 9 _ hwords rfl (by omega),
    ⟨t ++ rest, ?_⟩, hlen, by omega, ?_, ?_⟩
  · show dtb.drop fdtgenHdr = _
    rw [hdrop, hs, append_assoc]
  · intro name noff val hmem
    obtain ⟨hlt, more, hmore⟩ := hnamed name noff val (htoks ▸ hmem)
    rw [hpool] at hlt hmore
    have hclean : 0 ∉ name := by
      have hfair' := hfair (.prop name val) ?_
      · exact hfair'.1
      · rw [← hcalls]
        exact mem_map.2 ⟨_, hmem, rfl⟩
    refine ⟨by omega, @cstr_at dtb (more ++ rest) _ name ?_ hclean⟩
    show dtb.drop (fdtgenHdr + s.length + noff) = _
    rw [← drop_drop, hstrings, drop_append_of_le_length (by omega), hmore,
      append_assoc]
    rfl
  · intro name hmem
    have hfair' := hfair (.node name) ?_
    · exact hfair'.1
    · rw [← hcalls]
      exact mem_map.2 ⟨_, hmem, rfl⟩

theorem Holds.cells (h : Holds f toks) {name : Name} (htoks : toks = .node name :: post)
    {steps : Nat} (hsteps : post.length < steps) (key : Name) (default : Nat) :
    ∃ v, f.cells steps 0 key default = some v := by
  obtain ⟨r, hr, -⟩ := @Holds.getprop f toks [] post h name htoks steps hsteps key
  have hr' : f.getprop steps 0 key = some r := hr
  rw [Fdt.cells, hr']
  exact ⟨_, rfl⟩

/-- `fdt_init` succeeds on the blob of calls that begin a node first. -/
theorem generate_init (old : Memory) {name : Name} (hcap : cap < 2 ^ 31)
    (hfair : ∀ c ∈ Call.node name :: calls, c.Fair cap) (hroom : Room cap (.node name :: calls)) :
    ∃ post, (encode (.node name :: calls)).toks = .node name :: post ∧ post.map Tok.call = calls ∧
    ∀ steps, post.length + 1 < steps →
      ∃ f, Fdt.init steps ((generate old cap (.node name :: calls)).2.buf.read 0 cap) =
        some (some f) ∧ Holds f (.node name :: post) := by
  have hholds := generate_holds old hcap hfair hroom
  have htoks := encode_calls (.node name :: calls)
  generalize (encode (.node name :: calls)).toks = toks at hholds htoks ⊢
  generalize (generate old cap (.node name :: calls)).2.buf.read 0 cap = dtb at hholds ⊢
  -- the first token is the root
  obtain ⟨tok, post, rfl, htok, hpost⟩ := map_eq_cons_iff.1 htoks
  obtain rfl : tok = .node name := by
    cases tok with
    | node n => rw [Call.node.inj htok]
    | prop n noff val | endNode => cases htok
  refine ⟨post, rfl, hpost, fun steps hsteps => ?_⟩
  obtain ⟨hmagic, hstrukt, hstrings, hsize, hfirst⟩ := hholds 2 1
  have hroot := hfirst.root rfl (by omega : 0 < steps)
  obtain ⟨addr, haddr⟩ := hfirst.cells rfl (by omega : post.length < steps) Fdt.addressCells 2
  obtain ⟨size, hcells⟩ := hfirst.cells rfl (by omega : post.length < steps) Fdt.sizeCellsName 1
  obtain ⟨-, -, -, -, hfound⟩ := hholds addr size
  refine ⟨_, ?_, hfound⟩
  unfold opened at hroot haddr hcells
  have hno : (0 : Int) ≠ fdtNone := by decide
  have hfdt : ¬Stam.DeviceTree.be32 dtb 0 ≠ Stam.DeviceTree.fdtMagic := not_not_intro hmagic
  rw [Fdt.init, if_neg hfdt]
  dsimp only
  rw [hstrukt, hstrings, hsize, hroot]
  dsimp only
  rw [if_neg hno, haddr, hcells]
  rfl

/-- The tree that is written is the tree that is read. -/
theorem tree_read_back (old : Memory) {cap : Nat} {calls : List Call} (hcap : cap < 2 ^ 31)
    (hfair : ∀ c ∈ calls, c.Fair cap) (htree : OneTree calls)
    (hfirst : propsFirst false calls = true) : ((generate old cap calls).1 ≠ 0 →
      ReadsAs ((generate old cap calls).2.buf.read 0 cap) (begun 0 calls)) ∧
    ((generate old cap calls).1 = 0 ↔ ¬Room cap calls) ∧
    ∀ x, cap ≤ x → (generate old cap calls).2.buf x = old x := by
  have hzero := generate_eq_zero old (by omega : cap + 76 < 2 ^ 32) hfair
  refine ⟨fun hne => ?_, hzero, fun x hx => generate_outside old (by omega) hfair hx⟩
  have hroom : Room cap calls := not_not.1 fun hno => hne (hzero.2 hno)
  obtain _ | ⟨_ | _ | _, calls⟩ := calls
  case cons.node name =>
    obtain ⟨post, htoks, rfl, hinit⟩ := generate_init old hcap hfair hroom
    refine ⟨post.length + 2, fun steps hsteps => ?_⟩
    obtain ⟨f, hf, hholds⟩ := hinit steps (by omega)
    have hnodes := hholds.nodes rfl (by omega : post.length + 1 < steps)
    refine ⟨f, _, hf, hnodes, .cons ?_ ?_⟩
    · exact @Holds.shows_node f _ [] post hholds name rfl steps (by omega) hfirst 0
    · exact @Holds.shows f _ [.node name] post hholds rfl steps (by omega) true hfirst 0 htree
  all_goals cases htree

/-- A root with a property, and a child. -/
theorem tree_read_back_pair :
    let calls := [.node [], .prop [112] [1], .node [97], .endNode, .endNode]
    (generate (fun _ => 0) 256 calls).1 ≠ 0 ∧
    ReadsAs ((generate (fun _ => 0) 256 calls).2.buf.read 0 256)
      [⟨[], 0, [([112], [1])]⟩, ⟨[97], 1, []⟩] := by
  intro calls
  have hcap : 256 < 2 ^ 31 := by decide
  obtain ⟨hread, hzero, -⟩ := tree_read_back (fun _ => 0) hcap (by decide : ∀ c ∈ calls, c.Fair 256)
    (by decide : closes 0 _ = true) (by decide)
  have hne : (generate (fun _ => 0) 256 calls).1 ≠ 0 := fun h => hzero.1 h (by decide)
  exact ⟨hne, hread hne⟩

/-- A property that is given to the root behind a child is not read. -/
theorem late_property_lost :
    let calls := [.node [], .node [97], .endNode, .prop [112] [1], .endNode]
    nested 0 calls = true ∧ (∀ c ∈ calls, c.Fair 256) ∧ (generate (fun _ => 0) 256 calls).1 ≠ 0 ∧
    ¬ReadsAs ((generate (fun _ => 0) 256 calls).2.buf.read 0 256) (begun 0 calls) := by
  intro calls
  have hfair : ∀ c ∈ calls, c.Fair 256 := by decide
  have hroom : Room 256 calls := by decide
  refine ⟨by decide, hfair, fun h => (generate_eq_zero _ (by decide) hfair).1 h hroom, ?_⟩
  rintro ⟨enough, hread⟩
  obtain ⟨post, htoks, hpost, hinit⟩ := generate_init (fun _ => 0) (by decide) hfair hroom
  obtain ⟨f, found, hf, hnodes, hshows⟩ := hread (enough + post.length + 2) (by omega)
  obtain ⟨f', hf', hholds⟩ := hinit (enough + post.length + 2) (by omega)
  obtain rfl : f' = f := by
    rw [hf] at hf'
    exact (Option.some.inj (Option.some.inj hf')).symm
  rw [hholds.nodes rfl (by omega)] at hnodes
  cases hnodes
  obtain ⟨hroot, -⟩ := forall₂_cons.1 hshows
  have hgiven := hroot.props [112] (by decide)
  -- what comes next is the child
  obtain ⟨r, hr, hvalue⟩ := @Holds.getprop f' _ [] post hholds [] rfl (enough + post.length + 2)
    (by omega) [112]
  have hnone : ownProps post = [] := by
    obtain ⟨tok, rest, rfl, htok, -⟩ := map_eq_cons_iff.1 hpost
    cases tok with
    | node n => rfl
    | prop n noff val | endNode => cases htok
  have hr' : f'.getprop (enough + post.length + 2) 0 [112] = some r := hr
  rw [Fdt.value, hr', Option.map_some, hvalue, hnone] at hgiven
  cases hgiven

end Verkos.Vboot
