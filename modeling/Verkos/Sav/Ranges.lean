import Verkos.Sav.Segment

/-!
# Which programs check a range

The report of a failed range check is compiled in when the generator has come past a check. Whether
it does can be read off the tree: `TUnit.ranges` follows the generator, which does not evaluate the
receiver of a capability's method, leaves the contracts out when it is told to, and checks nothing
about a slice of a pointer.
-/

namespace Verkos.Sav

open Verkos.Lib (Emit)

/-! ## Reading it off the tree -/

/-- The arguments a capability's method evaluates. -/
def CapId.uses (c : CapId) (m : CapMethod) : List Nat :=
  match c with
  | .console => [0]
  | .proc => []
  | .args => if m.name = "count" then [] else [0]
  | .files => if m.name = "close" then [0] else [0, 1]

namespace TExpr

mutual

/-- The address of this expression is behind a range check. -/
def addrRanges : TExpr → Bool
  | .deref _ _ a => a.ranges
  | .field _ a _ => if a.ty.isPtr then a.ranges else a.addrRanges
  | .slicePtr _ a => a.addrRanges
  | .index .. => true
  | _ => false

/-- The value of this expression is. -/
def ranges : TExpr → Bool
  | .int .. | .bool .. | .str .. | .var .. => false
  | .call _ _ args _ => (rangesEach args).any id
  | .method _ c m _ args => (c.uses m).any fun k => (rangesEach args).getD k false
  | .unary _ _ a | .cast _ a | .deref _ _ a => a.ranges
  | .binary _ _ a b => a.ranges || b.ranges
  | .index .. => true
  | .field _ a _ => if a.ty.isPtr then a.ranges else a.addrRanges
  | .slicePtr _ a | .addr _ a => a.addrRanges
  | .len _ a => !a.ty.isArray && a.ranges
  | .slice _ a lo hi =>
    !a.ty.isPtr || ((if a.ty.isArray then a.addrRanges else a.ranges) || (lo.ranges || hi.ranges))
  | .sliceToEnd _ a lo =>
    !a.ty.isPtr || ((if a.ty.isArray then a.addrRanges else a.ranges) || lo.ranges)
  | .variant _ _ fields args _ => ((rangesEach args).take fields.length).any id
  | .assign _ a b => a.addrRanges || b.ranges

/-- The same of each expression of a list. -/
def rangesEach : List TExpr → List Bool
  | [] => []
  | a :: as => a.ranges :: rangesEach as

end

end TExpr

/-- Contracts are compiled, and one of these is behind a range check. -/
def Env.contractRanges (E : Env) (ks : List TContract) : Bool :=
  E.contracts && ks.any (·.expr.ranges)

namespace TStmt

mutual

def ranges (E : Env) : TStmt → Bool
  | .block ss => rangesAll E ss
  | .letS _ init => init.any (·.ranges)
  | .expr e => e.ranges
  | .ifS c t => c.ranges || t.ranges E
  | .ifElse c t e => c.ranges || (t.ranges E || e.ranges E)
  | .whileS c b => c.ranges || b.ranges E
  | .forS _ lo hi b => lo.ranges || (hi.ranges || b.ranges E)
  | .ret none => E.contractRanges E.fn.ens
  | .ret (some e) => e.ranges || (!E.fn.ret.isAggregate && E.contractRanges E.fn.ens)
  | .brk | .cont => false
  | .assert c _ _ => E.contracts && c.ranges
  | .matchS e _ arms => e.ranges || rangesArms E arms

def rangesAll (E : Env) : List TStmt → Bool
  | [] => false
  | s :: ss => s.ranges E || rangesAll E ss

def rangesArms (E : Env) : List (TArm × TStmt) → Bool
  | [] => false
  | (_, s) :: arms => s.ranges E || rangesArms E arms

end

end TStmt

def Env.ranges (E : Env) : Bool :=
  E.contractRanges E.fn.req || (E.fn.body.ranges E || E.contractRanges E.fn.ens)

/-- A unit in which something is checked against a range. -/
def TUnit.ranges (u : TUnit) (contracts : Bool) : Bool :=
  u.fns.any fun f => (Env.mk u contracts f).ranges

/-! ## The generator notices -/

/-- What `x` adds to the flag. -/
def Notes {α : Type} (b : Bool) (x : GenM α) : Prop :=
  ∀ s a l s', x s = .ok (a, l, s') → s'.needRange = (s.needRange || b)

namespace Notes

variable {α β : Type} {b b' : Bool} {x : GenM α} {f : α → GenM β} {g : α → GenM Unit}

theorem seq (hx : Notes b x) (hf : ∀ a, Notes b' (f a)) : Notes (b || b') (x >>= f) := by
  intro s a l s' h
  obtain ⟨_, _, s1, h1, _, h2, -⟩ := Emit.bind_ok.1 h
  rw [hf _ _ _ _ _ h2, hx _ _ _ _ h1, Bool.or_assoc]

theorem again (hx : Notes true x) (hf : ∀ a, Notes true (f a)) : Notes true (x >>= f) := hx.seq hf

theorem quiet (hx : Notes false x) (hf : ∀ a, Notes b (f a)) : Notes b (x >>= f) := hx.seq hf

theorem past {y : GenM β} (hx : Notes false x) (hy : Notes b y) : Notes b (x >>= fun _ => y) :=
  hx.quiet fun _ => hy

theorem still (hx : Notes b x) (hf : ∀ a, Notes false (f a)) : Notes b (x >>= f) := by
  have h := hx.seq hf
  rwa [Bool.or_false] at h

theorem pure (a : α) : Notes false (Pure.pure a : GenM α) := by
  intro s a' l s' h
  obtain ⟨-, -, rfl⟩ := Emit.pure_ok.1 h
  exact (Bool.or_false _).symm

theorem out (l : List Item) : Notes false (Emit.out l : GenM Unit) := by
  intro s a l' s' h
  obtain ⟨-, rfl⟩ := Emit.out_ok.1 h
  exact (Bool.or_false _).symm

theorem emit (i : Instr) : Notes false (emit i) := out _

theorem die (E : Env) (p : Pos) (text : String) : Notes b (dieGen E p text : GenM α) := by
  intro s a l s' h
  exact (Emit.fail_ok.1 h).elim

theorem newlab : Notes false newlab := by
  intro s a l s' h
  obtain ⟨-, -, rfl⟩ := Prod.mk.injEq .. ▸ Except.ok.inj h
  exact (Bool.or_false _).symm

theorem addRodata (bytes : List UInt8) : Notes false (addRodata bytes) := by
  intro s a l s' h
  simp only [Verkos.Sav.addRodata, Except.ok.injEq, Prod.mk.injEq] at h
  obtain ⟨-, -, rfl⟩ := h
  exact (Bool.or_false _).symm

theorem modify {g : GState → GState} (hg : ∀ s, (g s).needRange = (s.needRange || b)) :
    Notes b (Emit.modify g : GenM Unit) := by
  intro s a l s' h
  obtain ⟨-, rfl⟩ := Emit.modify_ok.1 h
  exact hg s

theorem onlyIf {x : GenM Unit} (c : Bool) (hx : Notes b x) : Notes (c && b) (Emit.onlyIf c x) := by
  cases c
  · exact pure ()
  · exact hx

theorem cast (hx : Notes b x) (h : b = b') : Notes b' x := h ▸ hx

end Notes

/-! ### Pieces that check nothing -/

section Quiet

variable {E : Env} {t : Ty}

theorem notes_localAddr (rd : Reg) (off : Int) : Notes false (localAddr rd off) := by
  unfold localAddr
  split
  · exact .emit _
  · exact .past (.out _) <| .emit _

theorem notes_loadValue (r : Reg) (off : Int) (t : Ty) : Notes false (loadValue r off t) := by
  unfold loadValue
  split_ifs
  · exact .emit _
  · exact .past (.out _) <| .emit _
  · exact .past (.emit _) <| .emit _
  · exact .emit _

theorem notes_storeValue (r : Reg) (off : Int) (t : Ty) : Notes false (storeValue r off t) := by
  unfold storeValue
  split_ifs
  · exact .past (.emit _) <| .emit _
  · exact .past (.emit _) <| .out _
  · exact .emit _

theorem notes_frameLoad (off : Int) (t : Ty) : Notes false (frameLoad off t) := by
  unfold frameLoad
  split
  · exact notes_loadValue _ _ _
  · exact .past (notes_localAddr _ _) <| notes_loadValue _ _ _

theorem notes_frameStore (off : Int) (t : Ty) : Notes false (frameStore off t) := by
  unfold frameStore
  split
  · exact notes_storeValue _ _ _
  · refine .past (.emit _) <| .past (notes_localAddr _ _) ?_
    exact .past (.emit _) <| notes_storeValue _ _ _

theorem notes_frameStoreField (slot field : Int) (t : Ty) :
    Notes false (frameStoreField slot field t) := by
  unfold frameStoreField
  refine .past (.emit _) <| .past (notes_localAddr _ _) ?_
  refine Notes.quiet ?_ fun _ => Notes.past (Notes.emit _) <| notes_storeValue _ _ _
  exact (Notes.onlyIf _ (Notes.past (Notes.out _) <| Notes.emit _)).cast (Bool.and_false _)

theorem notes_genOffset (off : Int) : Notes false (genOffset off) :=
  (Notes.onlyIf _ (Notes.past (Notes.out _) <| Notes.emit _)).cast (Bool.and_false _)

theorem notes_genArrayLen (t : Ty) : Notes false (genArrayLen t) := by
  unfold genArrayLen
  split
  · exact .out _
  · exact .pure ()

theorem notes_genSvc (n : Nat) : Notes false (genSvc n) :=
  Notes.past (.out _) <| .emit _

theorem notes_genScale (t : Ty) : Notes false (genScale t) := by
  unfold genScale
  split
  · exact .past (.out _) <| .emit _
  · exact .pure ()

theorem notes_genOp (op : BinOp) (t : Ty) : Notes false (genOp op t) := by
  unfold genOp
  cases op with
  | add | sub => exact .past (notes_genScale _) <| .emit _
  | mod | lt | le | gt | ge | eq | ne | andand | oror =>
    exact .past (.emit _) <| .emit _
  | mul | div | and | or | xor | shl | shr => exact .emit _

theorem notes_genNarrow (op : BinOp) (t : Ty) : Notes false (genNarrow op t) := by
  unfold genNarrow
  split
  · exact .pure ()
  · split
    · exact .pure ()
    · exact .emit _
  · exact .pure ()

theorem notes_genCast (src dst : Ty) : Notes false (genCast src dst) := by
  unfold genCast
  split
  · exact .past (.out _) <| .past (.emit _) <| .emit _
  · split
    · exact .pure ()
    · exact .emit _
    · exact .pure ()
  · exact .emit _
  · exact .pure ()

theorem notes_genVarAddr (E : Env) (s : Sym) : Notes false (genVarAddr E s) := by
  unfold genVarAddr
  split
  · exact .out _
  · exact notes_localAddr _ _

theorem notes_genVar (E : Env) (t : Ty) (s : Sym) : Notes false (genVar E t s) := by
  unfold genVar
  split_ifs
  · exact .past (.out _) <| notes_loadValue _ _ _
  · exact notes_localAddr _ _
  · exact notes_frameLoad _ _

theorem notes_genPopAll (ps : List Param) : Notes false (genPopAll ps) := by
  induction ps with
  | nil => exact .pure ()
  | cons p ps ih => exact .past ih <| .emit _

theorem notes_genEpilogue : Notes false genEpilogue :=
  Notes.past (.emit _) <| .past (.emit _) <| .emit _

theorem notes_newlabs (n : Nat) : Notes false (newlabs n) := by
  induction n with
  | zero => exact .pure _
  | succ n ih => exact .quiet Notes.newlab fun _ => .quiet ih fun _ => .pure _

theorem notes_genTests (arms : List TArm) (ls : List Nat) : Notes false (genTests arms ls) := by
  induction arms generalizing ls with
  | nil => exact .pure ()
  | cons a arms ih =>
    cases ls with
    | nil => cases a <;> exact .pure ()
    | cons l ls =>
      cases a with
      | otherwise => exact ih ls
      | case k binds =>
        refine .past (.out _) <| .past (.emit _) ?_
        exact .past (.out _) <| ih ls

theorem notes_genBinds (off : Int) (binds : List (Sym × Int × Ty)) :
    Notes false (genBinds off binds) := by
  induction binds with
  | nil => exact .pure ()
  | cons b binds ih =>
    refine .past (notes_frameLoad _ _) <| .past (notes_loadValue _ _ _) ?_
    exact .past (notes_frameStore _ _) ih

theorem notes_genParams (ps : List Param) : Notes false (genParams ps) := by
  induction ps with
  | nil => exact .pure ()
  | cons p ps ih =>
    refine .past (.emit _) <| .quiet ?_ fun _ =>
      Notes.past (notes_frameStore _ _) ih
    exact (Notes.onlyIf _ (Notes.emit _)).cast (Bool.and_false _)

theorem notes_genSret (f : TFn) : Notes false (genSret f) := by
  unfold genSret
  split_ifs
  · exact .emit _
  · exact .past (notes_localAddr _ _) <| .emit _
  · exact .pure ()

theorem notes_emitSubSp (n : Int) : Notes false (emitSubSp n) := by
  refine Notes.quiet ?_ fun _ => ?_
  · exact (Notes.onlyIf _ (Notes.emit _)).cast (Bool.and_false _)
  · exact (Notes.onlyIf _ (Notes.emit _)).cast (Bool.and_false _)

end Quiet

/-! ### Checks -/

theorem notes_genRangeFail (file : String) (line : Nat) (what l₁ l₂ : String) :
    Notes true (genRangeFail file line what l₁ l₂) := by
  unfold genRangeFail
  refine .still (.modify fun _ => (Bool.or_true _).symm) fun _ => ?_
  iterate 3 refine .quiet (.addRodata _) fun _ => ?_
  iterate 6 refine .quiet (.out _) fun _ => ?_
  exact .out _

theorem notes_genBoundsCheck (file : String) (line : Nat) (what : String) :
    Notes true (genBoundsCheck file line what) := by
  refine .quiet Notes.newlab fun _ => .quiet (.emit _) fun _ => ?_
  refine .quiet (.out _) fun _ => .quiet (.emit _) fun _ => ?_
  exact .still (notes_genRangeFail _ _ _ _ _) fun _ => .out _

theorem notes_genSliceChecks (file : String) (line : Nat) :
    Notes true (genSliceChecks file line) := by
  refine .quiet Notes.newlab fun _ => .quiet Notes.newlab fun _ => ?_
  refine .quiet (.emit _) fun _ => .quiet (.out _) fun _ => ?_
  refine .past (.emit _) <| .past (.emit _) ?_
  refine (notes_genRangeFail _ _ _ _ _).again fun _ => ?_
  refine .past (.out _) <| .past (.emit _) ?_
  refine .past (.out _) <| .past (.emit _) ?_
  refine .past (.emit _) <| .still (notes_genRangeFail _ _ _ _ _) fun _ => ?_
  exact .out _

section Expressions

variable {E : Env} {i : Info} {t : Ty} {a b : GenM Unit} {p q r : Bool} {gs : List (GenM Unit)}
  {ps : List Bool}

theorem notes_genBinary (op : BinOp) (t ta : Ty) (ha : Notes p a) (hb : Notes q b) :
    Notes (p || q) (genBinary op t ta a b) := by
  unfold genBinary
  split
  · refine .quiet Notes.newlab fun _ => ha.seq fun _ => .quiet (.out _) fun _ => ?_
    exact hb.still fun _ => .out _
  · refine .quiet Notes.newlab fun _ => ha.seq fun _ => .quiet (.out _) fun _ => ?_
    refine .quiet (.emit _) fun _ => .quiet (.out _) fun _ => ?_
    exact hb.still fun _ => .out _
  · refine ha.seq fun _ => .past (.emit _) <| hb.still fun _ => ?_
    iterate 3 refine .past (.emit _) ?_
    exact .past (notes_genOp _ _) <| notes_genNarrow _ _

theorem notes_genUnary (op : UnOp) (ha : Notes p a) : Notes p (genUnary op a) := by
  refine ha.still fun _ => ?_
  cases op with
  | neg | compl => exact .emit _
  | not => exact .past (.out _) <| .past (.emit _) <| .emit _

theorem notes_genPushAll (h : List.Forall₂ Notes ps gs) : Notes (ps.any id) (genPushAll gs) := by
  induction h with
  | nil => exact .pure ()
  | cons h _ ih => exact h.seq fun _ => .past (.emit _) ih

theorem notes_genCall (name : String) (off : Int) (h : List.Forall₂ Notes ps gs) :
    Notes (ps.any id) (genCall E i name off gs) := by
  unfold genCall
  split
  · exact .die _ _ _
  · refine (notes_genPushAll h).still fun _ => .past (notes_genPopAll _) ?_
    refine .quiet ?_ fun _ => .out _
    exact (Notes.onlyIf _ (notes_localAddr _ _)).cast (Bool.and_false _)

theorem notes_genPayload (off : Int) (fields : List (Ty × Int)) (h : List.Forall₂ Notes ps gs) :
    Notes ((ps.take fields.length).any id) (genPayload off gs fields) := by
  induction h generalizing fields with
  | nil => cases fields <;> exact .pure ()
  | cons h _ ih =>
    cases fields with
    | nil => exact .pure ()
    | cons f fields =>
      exact h.seq fun _ => .past (notes_frameStoreField _ _ _) <| ih fields

theorem notes_getD (h : List.Forall₂ Notes ps gs) (k : Nat) :
    Notes (ps.getD k false) (gs.getD k (pure ())) := by
  induction h generalizing k with
  | nil => exact .pure ()
  | cons h _ ih =>
    cases k with
    | zero => exact h
    | succ k => exact ih k

theorem notes_genMethod (c : CapId) (m : CapMethod) (h : List.Forall₂ Notes ps gs) :
    Notes ((c.uses m).any fun k => ps.getD k false) (genMethod E i c m gs) := by
  have h0 := notes_getD h 0
  have h1 := notes_getD h 1
  unfold genMethod CapId.uses
  cases c with
  | console =>
    dsimp only
    have hc : ∀ fd, Notes ([0].any fun k => ps.getD k false) (genConsole fd m.sysno
        (gs.getD 0 (pure ()))) := by
      intro fd
      refine (h0.still fun _ => ?_).cast (Bool.or_false _).symm
      iterate 2 refine .past (.emit _) ?_
      exact .past (.out _) <| notes_genSvc _
    split_ifs
    · exact hc _
    · exact hc _
    · exact hc _
    · exact .die _ _ _
  | proc => exact notes_genSvc _
  | args =>
    dsimp only
    split_ifs
    · refine .past (.out _) <| .past (.emit _) ?_
      exact .emit _
    · refine (h0.still fun _ => ?_).cast (Bool.or_false _).symm
      exact .past (.modify fun _ => (Bool.or_false _).symm) <| .out _
  | files =>
    dsimp only
    have hboth : ([0, 1].any fun k => ps.getD k false) = (ps.getD 0 false || ps.getD 1 false) := by
      simp
    by_cases ho : m.name = "open"
    · rw [if_pos ho, if_neg (by rw [ho]; decide)]
      refine .cast (h0.seq fun _ => .past (.emit _) <| h1.still fun _ => ?_)
        hboth.symm
      iterate 3 refine .past (.emit _) ?_
      refine .past (.modify fun _ => (Bool.or_false _).symm) ?_
      iterate 5 refine .past (.out _) ?_
      exact notes_genSvc _
    · rw [if_neg ho]
      by_cases hrw : m.name = "read" ∨ m.name = "write"
      · rw [if_pos hrw, if_neg (by rcases hrw with h | h <;> rw [h] <;> decide)]
        refine .cast (h0.seq fun _ => .past (.emit _) <| h1.still fun _ => ?_)
          hboth.symm
        iterate 3 refine .past (.emit _) ?_
        exact notes_genSvc _
      · rw [if_neg hrw]
        split_ifs
        · exact (h0.still fun _ => notes_genSvc _).cast (Bool.or_false _).symm
        · exact .die _ _ _

theorem notes_genIndexAddr (t : Ty) (ha : Notes p a) (hb : Notes q b) :
    Notes true (genIndexAddr E i t a b) := by
  refine .cast (ha.seq fun _ => .past (.emit _) <| hb.seq fun _ =>
    Notes.past (.emit _) <| .past (.emit _) <|
      Notes.past (notes_genArrayLen _) <|
        Notes.still (notes_genBoundsCheck _ _ _) fun _ => ?_) (by simp)
  refine .quiet ?_ fun _ => .emit _
  exact (Notes.onlyIf _ (Notes.past (Notes.out _) <| Notes.emit _)).cast (Bool.and_false _)

theorem notes_genSlice {c : GenM Unit} (t : Ty) (ha : Notes p a) (hb : Notes q b)
    (hc : Notes r c) : Notes (!t.isPtr || (p || (q || r))) (genSlice E i t a b c) := by
  refine .cast (ha.seq fun _ => .past (notes_genArrayLen _) <|
    Notes.past (.emit _) <| hb.seq fun _ => .past (.emit _) <|
      hc.seq fun _ => .past (.emit _) <| .past (.emit _) <|
        Notes.past (.emit _) <|
          Notes.still (.onlyIf _ (notes_genSliceChecks _ _)) fun _ => ?_)
    (b := p || (q || (r || (!t.isPtr && true)))) ?_
  · refine .quiet ?_ fun _ => .past (.emit _) <| .emit _
    unfold genSliceStart
    split
    · exact .emit _
    · exact .past (.out _) <| .emit _
  · cases t.isPtr <;> cases p <;> cases q <;> cases r <;> rfl

theorem notes_genFieldAddr (off : Int) (ha : Notes p a) : Notes p (genFieldAddr off a) :=
  ha.still fun _ => notes_genOffset _

theorem notes_genAssign (t : Ty) (ha : Notes p a) (hb : Notes q b) :
    Notes (p || q) (genAssign t a b) :=
  ha.seq fun _ => .past (.emit _) <| hb.still fun _ =>
    Notes.past (.emit _) <| notes_storeValue _ _ _

theorem Notes.ite {c : Bool} (ha : Notes p a) (hb : Notes q b) :
    Notes (if c then p else q) (if c then a else b) := by
  cases c
  · exact hb
  · exact ha

end Expressions

mutual

theorem notes_genAddr (E : Env) : ∀ e : TExpr, Notes e.addrRanges (genAddr E e)
  | .var _ s => by
    rw [genAddr]
    exact notes_genVarAddr E s
  | .deref _ _ a => by
    rw [genAddr]
    exact notes_genExpr E a
  | .field _ a off => by
    rw [genAddr]
    exact notes_genFieldAddr _ (.ite (notes_genExpr E a) (notes_genAddr E a))
  | .slicePtr _ a => by
    rw [genAddr]
    exact notes_genAddr E a
  | .index i a b => by
    rw [genAddr]
    exact notes_genIndexAddr _ (.ite (notes_genAddr E a) (notes_genExpr E a)) (notes_genExpr E b)
  | .int .. | .bool .. | .str .. | .call .. | .method .. | .unary .. | .binary .. | .len ..
  | .slice .. | .sliceToEnd .. | .addr .. | .cast .. | .assign .. | .variant .. => by
    exact .die _ _ _

theorem notes_genExpr (E : Env) : ∀ e : TExpr, Notes e.ranges (genExpr E e)
  | .int _ v => .out _
  | .bool _ b => .out _
  | .str _ bytes => by
    refine .quiet (.addRodata _) fun _ => .quiet (.out _) fun _ => .out _
  | .var i s => notes_genVar E i.ty s
  | .call i name args tempOff => notes_genCall _ _ (notes_genAll E args)
  | .method i c m _ args => notes_genMethod _ _ (notes_genAll E args)
  | .unary _ op a => notes_genUnary _ (notes_genExpr E a)
  | .binary i op a b => notes_genBinary _ _ _ (notes_genExpr E a) (notes_genExpr E b)
  | .index i a b =>
    (notes_genIndexAddr _ (.ite (notes_genAddr E a) (notes_genExpr E a)) (notes_genExpr E b)).still
      fun _ => notes_loadValue _ _ _
  | .field i a off =>
    (notes_genFieldAddr _ (.ite (notes_genExpr E a) (notes_genAddr E a))).still
      fun _ => notes_loadValue _ _ _
  | .slicePtr i a => (notes_genAddr E a).still fun _ => notes_loadValue _ _ _
  | .len _ a => by
    have ha := notes_genExpr E a
    rw [genExpr, TExpr.ranges]
    cases hty : a.ty with
    | array e n => exact .out _
    | void | bool | int _ _ | ptr _ _ | slice _ | struct _ _ _ _ | enum _ _ _ | cap _ =>
      exact ha.still fun _ => .emit _
  | .slice i a lo hi =>
    notes_genSlice _ (.ite (notes_genAddr E a) (notes_genExpr E a)) (notes_genExpr E lo)
      (notes_genExpr E hi)
  | .sliceToEnd i a lo =>
    (notes_genSlice _ (.ite (notes_genAddr E a) (notes_genExpr E a)) (notes_genExpr E lo)
      (.emit _)).cast (by rw [TExpr.ranges, Bool.or_false])
  | .variant _ tag fields args tempOff =>
    Notes.past (.out _) <| .past (notes_frameStoreField _ _ _) <|
      (notes_genPayload _ _ (notes_genAll E args)).still fun _ => notes_localAddr _ _
  | .addr _ a => notes_genAddr E a
  | .deref i _ a => (notes_genExpr E a).still fun _ => notes_loadValue _ _ _
  | .cast i a => (notes_genExpr E a).still fun _ => notes_genCast _ _
  | .assign _ a b => notes_genAssign _ (notes_genAddr E a) (notes_genExpr E b)

theorem notes_genAll (E : Env) : ∀ es : List TExpr,
    List.Forall₂ Notes (TExpr.rangesEach es) (genAll E es)
  | [] => .nil
  | e :: es => .cons (notes_genExpr E e) (notes_genAll E es)

end

/-! ### Statements and functions -/

section Statements

variable {E : Env}

theorem notes_genCheck (cond : TExpr) (kind text : String) (line : Nat) :
    Notes (E.contracts && cond.ranges) (genCheck E cond kind text line) := by
  unfold genCheck
  cases E.contracts with
  | false => exact .pure ()
  | true =>
    refine .quiet Notes.newlab fun _ => (notes_genExpr E cond).still fun _ => ?_
    refine .quiet (.out _) fun _ => .quiet (.addRodata _) fun _ => ?_
    iterate 3 refine .past (.out _) ?_
    exact .out _

theorem notes_genChecks (kind : String) (ks : List TContract) :
    Notes (E.contractRanges ks) (genChecks E kind ks) := by
  induction ks with
  | nil => exact (Notes.pure ()).cast (Bool.and_false _).symm
  | cons k ks ih =>
    refine ((notes_genCheck _ _ _ _).seq fun _ => ih).cast ?_
    rw [Env.contractRanges, Env.contractRanges, List.any_cons, Bool.and_or_distrib_left]

theorem contractRanges_isEmpty (ks : List TContract) :
    (!ks.isEmpty && E.contractRanges ks) = E.contractRanges ks := by
  cases ks with
  | nil => exact (Bool.and_false _).symm
  | cons k ks => exact Bool.true_and _

theorem notes_genReturn (e : Option TExpr) : Notes ((TStmt.ret e).ranges E) (genReturn E e) := by
  unfold genReturn
  cases e with
  | none => exact (notes_genChecks _ _).still fun _ => notes_genEpilogue
  | some e =>
    rw [TStmt.ranges]
    dsimp only
    cases hagg : E.fn.ret.isAggregate with
    | true =>
      rw [if_pos rfl]
      refine ((notes_genExpr E e).still fun _ => ?_).cast (Bool.or_false _).symm
      refine .past (.emit _) <| .past (notes_frameLoad _ _) ?_
      iterate 2 refine .past (.emit _) ?_
      refine .past (notes_storeValue _ _ _) <| .past (.emit _) ?_
      exact notes_genEpilogue
    | false =>
      rw [if_neg Bool.false_ne_true]
      refine (notes_genExpr E e).seq fun _ => ?_
      refine .cast (.still (.onlyIf _ (.past (notes_frameStore _ _) <|
        Notes.still (notes_genChecks _ _) fun _ => notes_frameLoad _ _)) fun _ => notes_genEpilogue) ?_
      exact contractRanges_isEmpty _

theorem notes_genArmHead (off : Int) (h : TArm) : Notes false (genArmHead off h) := by
  cases h with
  | otherwise => exact .pure ()
  | case k binds => exact notes_genBinds _ _

theorem notes_withLabels {n : Nat} {b : Bool} {f : List Nat → GenM Unit}
    (hf : ∀ ls, ls.length = n → Notes b (f ls)) : Notes b (newlabs n >>= f) := by
  intro s a l s' h
  obtain ⟨ls, l₁, s1, h1, l₂, h2, rfl⟩ := Emit.bind_ok.1 h
  have hlen : ls.length = n := by rw [(newlabs_ok h1).1, List.length_range']
  rw [hf ls hlen _ _ _ _ h2, notes_newlabs n _ _ _ _ h1, Bool.or_false]

mutual

theorem notes_genStmt (E : Env) (brk cnt : Nat) : ∀ s : TStmt,
    Notes (s.ranges E) (genStmt E brk cnt s)
  | .block ss => notes_genStmts E brk cnt ss
  | .letS s init => by
    cases init with
    | none => exact .pure ()
    | some e =>
      rw [genStmt]
      split
      · refine (notes_genExpr E e).still fun _ => .past (.emit _) ?_
        refine .past (notes_localAddr _ _) <| .past (.emit _) ?_
        exact notes_storeValue _ _ _
      · exact (notes_genExpr E e).still fun _ => notes_frameStore _ _
  | .expr e => notes_genExpr E e
  | .ifS c t => by
    refine .quiet Notes.newlab fun _ => .quiet Notes.newlab fun _ => ?_
    refine (notes_genExpr E c).seq fun _ => .quiet (.out _) fun _ => ?_
    exact (notes_genStmt E brk cnt t).still fun _ => .past (.out _) <| .out _
  | .ifElse c t e => by
    refine .quiet Notes.newlab fun _ => .quiet Notes.newlab fun _ => ?_
    refine (notes_genExpr E c).seq fun _ => .quiet (.out _) fun _ => ?_
    refine (notes_genStmt E brk cnt t).seq fun _ => .past (.out _) ?_
    refine .past (.out _) <| (notes_genStmt E brk cnt e).still fun _ => ?_
    exact .out _
  | .whileS c b => by
    refine .quiet Notes.newlab fun top => .quiet Notes.newlab fun out => ?_
    refine .past (.out _) <| (notes_genExpr E c).seq fun _ => ?_
    refine .past (.out _) <| (notes_genStmt E out top b).still fun _ => ?_
    exact .past (.out _) <| .out _
  | .forS s lo hi b => by
    refine .quiet Notes.newlab fun _ => .quiet Notes.newlab fun out => ?_
    refine .quiet Notes.newlab fun cont => (notes_genExpr E lo).seq fun _ => ?_
    refine .quiet (notes_frameStore _ _) fun _ => .quiet (.out _) fun _ => ?_
    refine (notes_genExpr E hi).seq fun _ => .past (.emit _) ?_
    refine .past (notes_frameLoad _ _) ?_
    iterate 3 refine .past (.out _) ?_
    refine (notes_genStmt E out cont b).still fun _ => .past (.out _) ?_
    refine .past (notes_frameLoad _ _) <| .past (.emit _) ?_
    refine .past (notes_frameStore _ _) <| .past (.out _) ?_
    exact .out _
  | .ret e => notes_genReturn e
  | .brk => .out _
  | .cont => .out _
  | .assert c text line => notes_genCheck c _ text line
  | .matchS e off arms => by
    refine (notes_genExpr E e).seq fun _ => .past (notes_frameStoreField _ _ _) ?_
    refine .quiet Notes.newlab fun fin => notes_withLabels fun ls hls => ?_
    refine .past (notes_frameLoad _ _) <| .past (.emit _) ?_
    refine .past (notes_genTests _ _) <| .past (.out _) ?_
    exact (notes_genArms E brk cnt off fin arms ls hls).still fun _ => .out _

theorem notes_genStmts (E : Env) (brk cnt : Nat) : ∀ ss : List TStmt,
    Notes (TStmt.rangesAll E ss) (genStmts E brk cnt ss)
  | [] => .pure ()
  | s :: ss => (notes_genStmt E brk cnt s).seq fun _ => notes_genStmts E brk cnt ss

theorem notes_genArms (E : Env) (brk cnt : Nat) (off : Int) (fin : Nat) :
    ∀ (arms : List (TArm × TStmt)) (ls : List Nat), ls.length = arms.length →
      Notes (TStmt.rangesArms E arms) (genArms E brk cnt off fin arms ls)
  | [], ls, _ => .pure ()
  | (h, body) :: arms, [], hlen => by cases hlen
  | (h, body) :: arms, l :: ls, hlen => by
    refine .past (.out _) <| .past (notes_genArmHead off h) ?_
    refine (notes_genStmt E brk cnt body).seq fun _ => .past (.out _) ?_
    exact notes_genArms E brk cnt off fin arms ls (by simpa using hlen)

end

theorem notes_genFn (E : Env) (label : Nat) : Notes E.ranges (genFn E label) := by
  refine .past (.out _) <| .past (.emit _) ?_
  refine .past (.emit _) <| .quiet ?_ fun _ => ?_
  · exact (Notes.onlyIf _ (notes_emitSubSp _)).cast (Bool.and_false _)
  refine Notes.past (notes_genSret _) <| Notes.past (notes_genParams _) ?_
  refine (notes_genChecks _ _).seq fun _ => (notes_genStmt E 0 0 _).seq fun _ => ?_
  exact (notes_genChecks _ _).still fun _ => notes_genEpilogue

theorem notes_genFns (u : TUnit) (contracts : Bool) (i : Nat) (fs : List TFn) :
    Notes (fs.any fun f => (Env.mk u contracts f).ranges) (genFns u contracts i fs) := by
  induction fs generalizing i with
  | nil => exact .pure ()
  | cons f fs ih => exact (notes_genFn _ _).seq fun _ => ih (i + 1)

theorem notes_genCaps (reg : Nat) (ps : List (String × Ty)) : Notes false (genCaps reg ps) := by
  induction ps generalizing reg with
  | nil => exact .pure ()
  | cons p ps ih => exact .past (.out _) <| ih (reg + 1)

theorem notes_genStart (u : TUnit) : Notes false (genStart u) := by
  refine .past (.emit _) <| .past (.out _) ?_
  refine .past (.emit _) <| .past (notes_genCaps _ _) ?_
  refine .past (.out _) <| .quiet ?_ fun _ => ?_
  · exact (Notes.onlyIf _ (Notes.out _)).cast (Bool.and_false _)
  exact Notes.past (notes_genSvc _) <| Notes.emit _

theorem notes_genFail : Notes false genFail := by
  refine .past (.out _) <| .past (.emit _) ?_
  refine .past (.emit _) <| .past (.out _) ?_
  refine .past (notes_genSvc _) <| .past (.out _) ?_
  exact .past (notes_genSvc _) <| .emit _

end Statements

end Verkos.Sav
