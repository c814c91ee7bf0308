import Verkos.Sav.Check

/-!
# What the checker lets through

One inversion lemma for each function of the checker that is not recursive: when it succeeds, what
the result is, which types it was given, and that the state is the one it found unless the lemma
says otherwise. The proofs about accepted units open `checkExpr` and `checkStmt` with these and
never unfold the helpers again.
-/

namespace Verkos.Sav

open Verkos.Lib (Fallible)
open Verkos.Lib.Fallible (bind_ok get_ok modify_ok pure_ok)

variable {s s' : CState} {p : Pos} {u : SavUnit} {f : Fn}

/-- What `want` accepts: a literal where a number or a pointer is wanted, which takes that type, or
an expression that has the type. -/
def Wanted (e : TExpr) (t : Ty) (e' : TExpr) : Prop :=
  (e.isLiteral = true ∧ (t.isInt || t.isPtr) = true ∧ e' = e.setTy t) ∨
    (Ty.same e.ty t = true ∧ e' = e)

variable {e a : TExpr} {t : Ty} {name : String} {n : Nat}

variable {what en file : String} {b : TExpr} {c : CapId} {k : Nat}
  {fields : List (String × Ty × Int)} {vs : List (String × List (String × Ty × Int))}
  {seen : List Nat}

theorem want_ok {e' : TExpr} (h : want e t what s = .ok (e', s')) : s' = s ∧ Wanted e t e' := by
  unfold want at h
  split at h
  · rename_i hc
    rw [Bool.and_eq_true] at hc
    obtain ⟨rfl, rfl⟩ := pure_ok.1 h
    exact ⟨rfl, .inl ⟨hc.1, hc.2, rfl⟩⟩
  · split at h
    · rename_i hs
      obtain ⟨rfl, rfl⟩ := pure_ok.1 h
      exact ⟨rfl, .inr ⟨hs, rfl⟩⟩
    · exact (die_ok.1 h).elim

theorem needLvalue_ok {a : Unit}
    (h : needLvalue e what s = .ok (a, s')) : s' = s ∧ e.isLvalue = true := by
  unfold needLvalue at h
  split at h
  · rename_i hl
    exact ⟨(pure_ok.1 h).2, hl⟩
  · exact (die_ok.1 h).elim

/-- The type an operator other than `&&` and `||` gives. -/
def ArithTy (op : BinOp) (ta tb t : Ty) : Prop :=
  (op.isCmp = true ∧ Ty.same ta tb = true ∧ t = .bool) ∨
    (op.isCmp = false ∧ ta.isPtr = true ∧ tb.isInt = true ∧ (op = .add ∨ op = .sub) ∧ t = ta) ∨
    (op.isCmp = false ∧ ta.isInt = true ∧ tb.isInt = true ∧ Ty.same ta tb = true ∧ t = ta)

theorem checkArith_ok {op : BinOp} (h : checkArith p op a b s = .ok (e, s')) :
    s' = s ∧ ∃ t, e = .binary ⟨p, t⟩ op a b ∧ ArithTy op a.ty b.ty t := by
  unfold checkArith at h
  split at h
  · rename_i hc
    split at h
    · rename_i hs
      obtain ⟨rfl, rfl⟩ := pure_ok.1 h
      exact ⟨rfl, _, rfl, .inl ⟨hc, hs, rfl⟩⟩
    · exact (die_ok.1 h).elim
  · rename_i hc
    rw [Bool.not_eq_true] at hc
    split at h
    · rename_i hp
      simp only [Bool.and_eq_true, Bool.or_eq_true, beq_iff_eq] at hp
      obtain ⟨rfl, rfl⟩ := pure_ok.1 h
      exact ⟨rfl, _, rfl, .inr (.inl ⟨hc, hp.1.1, hp.1.2, hp.2, rfl⟩)⟩
    · split at h
      · exact (die_ok.1 h).elim
      · rename_i hi
        simp only [Bool.or_eq_true, Bool.not_eq_true', not_or, Bool.not_eq_false] at hi
        split at h
        · rename_i hs
          obtain ⟨rfl, rfl⟩ := pure_ok.1 h
          exact ⟨rfl, _, rfl, .inr (.inr ⟨hc, hi.1, hi.2, hs, rfl⟩)⟩
        · exact (die_ok.1 h).elim

theorem checkIndex_ok (h : checkIndex p a b s = .ok (e, s')) :
    s' = s ∧ ∃ t, e = .index ⟨p, t⟩ a b ∧ b.ty.isInt = true ∧
      (a.ty = .slice t ∨ ∃ n, a.ty = .array t n) := by
  unfold checkIndex at h
  change Fallible.run _ s = _ at h
  split at h
  · exact (die_ok.1 h).elim
  · rename_i hb
    rw [Bool.not_eq_true', Bool.not_eq_false] at hb
    split at h
    · exact (die_ok.1 h).elim
    · exact (die_ok.1 h).elim
    · rename_i t ht
      obtain ⟨rfl, rfl⟩ := pure_ok.1 h
      exact ⟨rfl, t, rfl, hb, .inl ht⟩
    · rename_i t n ht
      split at h
      · obtain ⟨rfl, rfl⟩ := pure_ok.1 h
        exact ⟨rfl, t, rfl, hb, .inr ⟨n, ht⟩⟩
      · split at h
        · exact (die_ok.1 h).elim
        · obtain ⟨rfl, rfl⟩ := pure_ok.1 h
          exact ⟨rfl, t, rfl, hb, .inr ⟨n, ht⟩⟩
    · exact (die_ok.1 h).elim

theorem checkStructField_ok (h : checkStructField p a t name s = .ok (e, s')) :
    s' = s ∧ ∃ ft off, e = .field ⟨p, ft⟩ a off ∧
      ∃ sn fs sz al, t = .struct sn fs sz al ∧ (name, ft, off) ∈ fs := by
  unfold checkStructField at h
  change Fallible.run _ s = _ at h
  split at h
  · split at h
    · rename_i sn fs sz al _ n' ft off hf
      obtain ⟨rfl, rfl⟩ := pure_ok.1 h
      have hn : n' = name := by simpa using List.find?_some hf
      exact ⟨rfl, ft, off, rfl, sn, fs, sz, al, rfl, hn ▸ List.mem_of_find?_eq_some hf⟩
    · exact (die_ok.1 h).elim
  · exact (die_ok.1 h).elim

/-- What `x.name` can be: a length, the pointer of a slice, or a field of a struct `x` is or points
to without `dev`. -/
def FieldOf (p : Pos) (a : TExpr) (name : String) (e : TExpr) : Prop :=
  (e = .len ⟨p, .i64⟩ a ∧ ((∃ t, a.ty = .slice t) ∨ ∃ t n, a.ty = .array t n)) ∨
    (∃ t, e = .slicePtr ⟨p, .ptr t false⟩ a ∧ a.ty = .slice t) ∨
    ∃ ft off, e = .field ⟨p, ft⟩ a off ∧ ∃ sn fs sz al, (name, ft, off) ∈ fs ∧
      (a.ty = .struct sn fs sz al ∨ a.ty = .ptr (.struct sn fs sz al) false)

theorem checkField_ok (h : checkField p a name s = .ok (e, s')) : s' = s ∧ FieldOf p a name e := by
  unfold checkField at h
  change Fallible.run _ s = _ at h
  split at h
  · exact (die_ok.1 h).elim
  · exact (die_ok.1 h).elim
  · rename_i t ht
    split at h
    · obtain ⟨rfl, rfl⟩ := pure_ok.1 h
      exact ⟨rfl, .inl ⟨rfl, .inl ⟨t, ht⟩⟩⟩
    · split at h
      · obtain ⟨rfl, rfl⟩ := pure_ok.1 h
        exact ⟨rfl, .inr (.inl ⟨t, rfl, ht⟩)⟩
      · obtain ⟨-, ft, off, -, sn, fs, sz, al, hs, -⟩ := checkStructField_ok h
        cases hs
  · rename_i t n ht
    split at h
    · obtain ⟨rfl, rfl⟩ := pure_ok.1 h
      exact ⟨rfl, .inl ⟨rfl, .inr ⟨t, n, ht⟩⟩⟩
    · obtain ⟨-, ft, off, -, sn, fs, sz, al, hs, -⟩ := checkStructField_ok h
      cases hs
  · rename_i t ht
    obtain ⟨rfl, ft, off, rfl, sn, fs, sz, al, rfl, hm⟩ := checkStructField_ok h
    exact ⟨rfl, .inr (.inr ⟨ft, off, rfl, sn, fs, sz, al, hm, .inr ht⟩)⟩
  · obtain ⟨rfl, ft, off, rfl, sn, fs, sz, al, hs, hm⟩ := checkStructField_ok h
    exact ⟨rfl, .inr (.inr ⟨ft, off, rfl, sn, fs, sz, al, hm, .inl hs⟩)⟩

/-- What can be sliced. A pointer says where it ends. -/
def Sliceable (t : Ty) (toEnd : Bool) : Prop :=
  (∃ e, t = .slice e) ∨ (∃ e n, t = .array e n) ∨ (∃ e, t = .ptr e false ∧ toEnd = false)

theorem checkSliced_ok {toEnd : Bool} {a : Unit}
    (h : checkSliced p t toEnd s = .ok (a, s')) : s' = s ∧ Sliceable t toEnd := by
  unfold checkSliced at h
  change Fallible.run _ s = _ at h
  split at h
  · exact (die_ok.1 h).elim
  · split at h
    · exact (die_ok.1 h).elim
    · rename_i e hte
      exact ⟨(pure_ok.1 h).2, .inr (.inr ⟨e, rfl, by simpa using hte⟩)⟩
  · rename_i e n
    exact ⟨(pure_ok.1 h).2, .inr (.inl ⟨e, n, rfl⟩)⟩
  · rename_i e
    exact ⟨(pure_ok.1 h).2, .inl ⟨e, rfl⟩⟩
  · exact (die_ok.1 h).elim

theorem checkDeref_ok {isAt : Bool} (h : checkDeref p isAt a s = .ok (e, s')) :
    s' = s ∧ ∃ t, e = .deref ⟨p, t⟩ isAt a ∧ a.ty = .ptr t isAt := by
  unfold checkDeref at h
  change Fallible.run _ s = _ at h
  split at h
  · rename_i t dev ht
    split at h
    · exact (die_ok.1 h).elim
    · rename_i h1
      split at h
      · exact (die_ok.1 h).elim
      · rename_i h2
        obtain ⟨rfl, rfl⟩ := pure_ok.1 h
        refine ⟨rfl, t, rfl, ?_⟩
        rw [ht]
        cases isAt <;> cases dev <;> simp_all
  · exact (die_ok.1 h).elim

theorem checkCast_ok {dst : Ty} (h : checkCast p dst a s = .ok (e, s')) :
    s' = s ∧ e = .cast ⟨p, dst⟩ a ∧ castable a.ty dst = true ∧
      (a.ty.isDevPtr = true → dst.isDevPtr = true) ∧ a.ty.isCap = false ∧ dst.isCap = false := by
  unfold checkCast at h
  split at h
  · exact (die_ok.1 h).elim
  · rename_i hd
    split at h
    · exact (die_ok.1 h).elim
    · rename_i hc
      split at h
      · rename_i hok
        obtain ⟨rfl, rfl⟩ := pure_ok.1 h
        simp only [Bool.or_eq_true, not_or, Bool.not_eq_true] at hc
        refine ⟨rfl, rfl, hok, fun ha => ?_, hc.1, hc.2⟩
        simpa [ha] using hd
      · exact (die_ok.1 h).elim

theorem checkRecv_ok {recv : TExpr} (h : checkRecv p recv s = .ok (c, s')) :
    s' = s ∧ recv.ty = .cap c := by
  unfold checkRecv at h
  change Fallible.run _ s = _ at h
  split at h
  · rename_i c' hc
    obtain ⟨rfl, rfl⟩ := pure_ok.1 h
    exact ⟨rfl, hc⟩
  · exact (die_ok.1 h).elim

theorem checkMethod_ok {m : CapMethod} (h : checkMethod p c name n s = .ok (m, s')) :
    s' = s ∧ m ∈ c.methods ∧ n = m.sig.length := by
  unfold checkMethod at h
  change Fallible.run _ s = _ at h
  split at h
  · exact (die_ok.1 h).elim
  · rename_i m' hm
    split at h
    · exact (die_ok.1 h).elim
    · rename_i hn
      obtain ⟨rfl, rfl⟩ := pure_ok.1 h
      exact ⟨rfl, List.mem_of_find?_eq_some hm, by simpa using hn⟩

theorem checkCallee_ok {g : Fn} (h : checkCallee u p name n s = .ok (g, s')) :
    s' = s ∧ u.findFn name = some g ∧ g.isEntry = false ∧ n = g.params.length := by
  unfold checkCallee at h
  change Fallible.run _ s = _ at h
  split at h
  · exact (die_ok.1 h).elim
  · rename_i g' hg
    split at h
    · exact (die_ok.1 h).elim
    · rename_i he
      split at h
      · exact (die_ok.1 h).elim
      · rename_i hn
        obtain ⟨rfl, rfl⟩ := pure_ok.1 h
        exact ⟨rfl, hg, by simpa using he, by simpa using hn⟩

theorem checkVariant_ok (h : checkVariant p t name n s = .ok ((k, fields), s')) :
    s' = s ∧ (∃ en vs sz, t = .enum en vs sz) ∧ n = fields.length := by
  unfold checkVariant at h
  change Fallible.run _ s = _ at h
  split at h
  · rename_i en vs sz
    split at h
    · exact (die_ok.1 h).elim
    · dsimp only at h
      split at h
      · exact (die_ok.1 h).elim
      · rename_i hn
        obtain ⟨hp, rfl⟩ := pure_ok.1 h
        obtain ⟨rfl, rfl⟩ := Prod.mk.inj hp
        exact ⟨rfl, ⟨en, vs, sz, rfl⟩, by simpa using hn⟩
  · exact (die_ok.1 h).elim

theorem takeFrame_ok {n off : Int} :
    takeFrame n s = .ok (off, s') ↔ off = s.frame + n ∧ s' = { s with frame := s.frame + n } := by
  simp only [takeFrame, Except.ok.injEq, Prod.mk.injEq]
  exact ⟨fun ⟨h1, h2⟩ => ⟨h1.symm, h2.symm⟩, fun ⟨h1, h2⟩ => ⟨h1.symm, h2.symm⟩⟩

theorem declare_ok {y : Sym} (h : declare f name t p s = .ok (y, s')) :
    y = ⟨.local, name, t, s.frame + slotSize t⟩ ∧ s' = { s with frame := y.offset }.withSym y ∧
      (s.scopes.headD []).any (·.name == name) = false ∧ f.retName ≠ some name := by
  unfold declare at h
  obtain ⟨s0, s1, hg, h1⟩ := bind_ok.1 h
  obtain ⟨rfl, rfl⟩ := get_ok.1 hg
  split at h1
  · exact (die_ok.1 h1).elim
  · rename_i hd
    split at h1
    · exact (die_ok.1 h1).elim
    · rename_i hr
      obtain ⟨off, s2, ht, h2⟩ := bind_ok.1 h1
      obtain ⟨rfl, rfl⟩ := takeFrame_ok.1 ht
      obtain ⟨_, s3, hs, h3⟩ := bind_ok.1 h2
      obtain ⟨rfl, rfl⟩ := pure_ok.1 h3
      exact ⟨rfl, modify_ok.1 hs, by simpa using hd, hr⟩

/-- What a `let` can be given: nothing, a value of the type it says, or a value that says the
type. -/
def LetOf (d : LetDecl) (t : Ty) (init : Option TExpr) (ce : Expr → TExpr → Prop) : Prop :=
  match d with
  | .typed t' none => t = t' ∧ init = none
  | .typed t' (some e) => t = t' ∧ ∃ e₁ e₂, init = some e₂ ∧ ce e e₁ ∧ Wanted e₁ t e₂
  | .inferred e => ∃ e₁, init = some e₁ ∧ ce e e₁ ∧ e₁.ty.isVoid = false ∧
      t = if e₁.isLiteral then .i64 else e₁.ty

theorem checkLet_ok {d : LetDecl} {init : Option TExpr}
    (h : checkLet u p name d s = .ok ((t, init), s')) :
    LetOf d t init (fun e e1 => checkExpr u e s = .ok (e1, s')) ∧ (init = none → s' = s) := by
  cases d with
  | typed t' e =>
    cases e with
    | none =>
      obtain ⟨hp, rfl⟩ := pure_ok.1 h
      obtain ⟨rfl, rfl⟩ := Prod.mk.inj hp
      exact ⟨⟨rfl, rfl⟩, fun _ => rfl⟩
    | some e =>
      obtain ⟨e1, s1, he, h1⟩ := bind_ok.1 h
      obtain ⟨e2, s2, hw, h2⟩ := bind_ok.1 h1
      obtain ⟨rfl, hwd⟩ := want_ok hw
      obtain ⟨hp, rfl⟩ := pure_ok.1 h2
      obtain ⟨rfl, rfl⟩ := Prod.mk.inj hp
      exact ⟨⟨rfl, e1, e2, rfl, he, hwd⟩, fun h => nomatch h⟩
  | inferred e =>
    obtain ⟨e1, s1, he, h⟩ := bind_ok.1 h
    split at h
    · exact (die_ok.1 h).elim
    · rename_i hv
      rw [Bool.not_eq_true] at hv
      split at h
      · rename_i hl
        obtain ⟨hp, rfl⟩ := pure_ok.1 h
        obtain ⟨rfl, rfl⟩ := Prod.mk.inj hp
        exact ⟨⟨e1, rfl, he, hv, by rw [if_pos hl]⟩, fun h => nomatch h⟩
      · rename_i hl
        obtain ⟨hp, rfl⟩ := pure_ok.1 h
        obtain ⟨rfl, rfl⟩ := Prod.mk.inj hp
        exact ⟨⟨e1, rfl, he, hv, by rw [if_neg hl]⟩, fun h => nomatch h⟩

/-- What a `return` can be given. -/
def ReturnOf (e : Option Expr) (ret : Ty) (r : Option TExpr) (ce : Expr → TExpr → Prop) : Prop :=
  match e with
  | none => ret.isVoid = true ∧ r = none
  | some e => ret.isVoid = false ∧ ∃ e₁ e₂, r = some e₂ ∧ ce e e₁ ∧ Wanted e₁ ret e₂

theorem checkReturn_ok {e : Option Expr} {r : Option TExpr}
    (h : checkReturn u f p e s = .ok (r, s')) :
    ReturnOf e f.ret r (fun e e1 => checkExpr u e s = .ok (e1, s')) ∧ (e = none → s' = s) := by
  cases e with
  | none =>
    simp only [checkReturn] at h
    split at h
    · exact (die_ok.1 h).elim
    · rename_i hv
      obtain ⟨rfl, rfl⟩ := pure_ok.1 h
      exact ⟨⟨by simpa using hv, rfl⟩, fun _ => rfl⟩
  | some e =>
    obtain ⟨e1, s1, he, h⟩ := bind_ok.1 h
    split at h
    · exact (die_ok.1 h).elim
    · rename_i hv
      obtain ⟨e2, s2, hw, h2⟩ := bind_ok.1 h
      obtain ⟨rfl, hwd⟩ := want_ok hw
      obtain ⟨rfl, rfl⟩ := pure_ok.1 h2
      exact ⟨⟨by simpa using hv, e1, e2, rfl, he, hwd⟩, fun h => nomatch h⟩

theorem needLoop_ok {w : String} {a : Unit} (h : needLoop p w s = .ok (a, s')) :
    s' = s ∧ s.loopDepth ≠ 0 := by
  obtain ⟨s0, s1, hg, h1⟩ := bind_ok.1 h
  obtain ⟨rfl, rfl⟩ := get_ok.1 hg
  split at h1
  · exact (die_ok.1 h1).elim
  · rename_i hl
    exact ⟨(pure_ok.1 h1).2, hl⟩

theorem checkArmCase_ok {binds : List String}
    (h : checkArmCase en vs seen p name binds s = .ok ((k, fields), s')) : s' = s := by
  unfold checkArmCase at h
  change Fallible.run _ s = _ at h
  split at h
  · exact (die_ok.1 h).elim
  · dsimp only at h
    split at h
    · exact (die_ok.1 h).elim
    · split at h
      · exact (die_ok.1 h).elim
      · exact (pure_ok.1 h).2

theorem checkLeftOver_ok {hasElse : Bool} {a : Unit}
    (h : checkLeftOver p en vs seen hasElse s = .ok (a, s')) : s' = s := by
  unfold checkLeftOver at h
  split at h
  · exact (die_ok.1 h).elim
  · split at h
    · exact (die_ok.1 h).elim
    · exact (pure_ok.1 h).2

/-- The stages of `check_fn` on a function it accepts: the states between them, and what each found
out. -/
structure FnStages (u : SavUnit) (f : Fn) (s s' : CState) (t : TFn) (s₁ s₂ s₃ s₄ s₅ s₆ s₇ : CState)
    (rs : List Sym) : Prop where
  params : checkParams f 0 f.params { s with file := f.file, frame := 0, scopes := [] :: s.scopes } =
    .ok (t.params, s₁)
  sret : checkSret f s₁ = .ok (t.sretOff, s₂)
  result : checkResult f s₂ = .ok ((t.resultOff, rs), s₃)
  req : checkContracts u f false f.req s₃ = .ok (t.req, s₄)
  ens : checkContracts u f true f.ens { s₄ with scopes := rs :: s₄.scopes } = .ok (t.ens, s₅)
  fails : recordFails f { s₅ with scopes := s₅.scopes.tail } = .ok ((), s₆)
  body : checkStmt u f f.body s₆ = .ok (t.body, s₇)
  after : s' = { s₇ with scopes := s₇.scopes.tail }
  name : t.name = f.name
  file : t.file = f.file
  ret : t.ret = f.ret
  entry : t.isEntry = f.isEntry
  frame : t.frameSize = (s₇.frame + 15) / 16 * 16
  returns : f.ret.isVoid = false → alwaysReturns f.body = true

theorem checkFn_ok {t : TFn} (h : checkFn u f s = .ok (t, s')) :
    ∃ s1 s2 s3 s4 s5 s6 s7 rs, FnStages u f s s' t s1 s2 s3 s4 s5 s6 s7 rs := by
  unfold checkFn at h
  obtain ⟨_, _, ha, h1⟩ := bind_ok.1 h
  obtain rfl := modify_ok.1 ha
  obtain ⟨_, _, hb, h2⟩ := bind_ok.1 h1
  obtain rfl := modify_ok.1 hb
  obtain ⟨ps, s1, hps, h3⟩ := bind_ok.1 h2
  split at h3
  · exact (die_ok.1 h3).elim
  · obtain ⟨sret, s2, hs, h4⟩ := bind_ok.1 h3
    obtain ⟨⟨ro, rs⟩, s3, hr, h5⟩ := bind_ok.1 h4
    obtain ⟨req, s4, hq, h6⟩ := bind_ok.1 h5
    obtain ⟨_, _, hc, h7⟩ := bind_ok.1 h6
    obtain rfl := modify_ok.1 hc
    obtain ⟨ens, s5, he, h8⟩ := bind_ok.1 h7
    obtain ⟨_, _, hd, h9⟩ := bind_ok.1 h8
    obtain rfl := modify_ok.1 hd
    obtain ⟨_, s6, hf, h10⟩ := bind_ok.1 h9
    obtain ⟨body, s7, hbody, h11⟩ := bind_ok.1 h10
    obtain ⟨_, _, hp, h12⟩ := bind_ok.1 h11
    obtain rfl := modify_ok.1 hp
    split at h12
    · exact (die_ok.1 h12).elim
    · rename_i hret
      obtain ⟨_, _, hg, h13⟩ := bind_ok.1 h12
      obtain ⟨rfl, rfl⟩ := get_ok.1 hg
      obtain ⟨ht, hs'⟩ := pure_ok.1 h13
      subst ht
      refine ⟨s1, s2, s3, s4, s5, s6, s7, rs, hps, hs, hr, hq, he, hf, hbody, hs', rfl, rfl, rfl,
        rfl, rfl, fun hv => ?_⟩
      simpa [hv] using hret

/-- Each function is checked, in order. -/
theorem checkFns_ok : ∀ {fs : List Fn} {ts : List TFn} {s s' : CState},
    checkFns u fs s = .ok (ts, s') →
      List.Forall₂ (fun f t => ∃ s s', checkFn u f s = .ok (t, s')) fs ts
  | [], _, _, _, h => by
    obtain ⟨rfl, rfl⟩ := pure_ok.1 h
    exact .nil
  | _ :: _, _, _, _, h => by
    rw [checkFns] at h
    obtain ⟨t, s1, ht, h1⟩ := bind_ok.1 h
    obtain ⟨ts', s2, hts, h2⟩ := bind_ok.1 h1
    obtain ⟨rfl, rfl⟩ := pure_ok.1 h2
    exact .cons ⟨_, _, ht⟩ (checkFns_ok hts)

theorem checkGlobals_ok : ∀ {gs : List Global} {s s' : CState} {a : Unit},
    checkGlobals gs s = .ok (a, s') → s' = s ∧ ∀ g ∈ gs, g.cval.isNone = true → g.ty.isCap = false
  | [], _, _, _, h => ⟨(pure_ok.1 h).2, by simp⟩
  | g :: gs, s, s', a, h => by
    rw [checkGlobals] at h
    split at h
    · exact (die_ok.1 h).elim
    · rename_i hg
      obtain ⟨hs, hgs⟩ := checkGlobals_ok h
      refine ⟨hs, fun g' hg' hc => ?_⟩
      rcases List.mem_cons.1 hg' with rfl | hg'
      · simpa [hc] using hg
      · exact hgs g' hg' hc

/-- What `check_unit` found out about a unit it accepts. -/
structure UnitStages (file : String) (u : SavUnit) (t : TUnit) (s₂ : CState) : Prop where
  globals : ∀ g ∈ u.globals, g.cval.isNone = true → g.ty.isCap = false
  fns : checkFns u u.fns ⟨file, 0, [], 0, [], []⟩ = .ok (t.fns, s₂)
  entry : u.entry = some t.entry
  exit : exitStatus t.entry.ret = true
  same : t.globals = u.globals
  calls : t.sysUsed = (s₂.withCall 93).sysUsed

theorem checkUnit_ok {t : TUnit} (h : checkUnit file u = .ok t) : ∃ s2, UnitStages file u t s2 := by
  unfold checkUnit at h
  cases hm : checkUnitM u ⟨file, 0, [], 0, [], []⟩ with
  | error e =>
    rw [hm] at h
    cases h
  | ok r =>
    obtain ⟨t', s'⟩ := r
    rw [hm] at h
    obtain rfl : t' = t := by simpa [Except.map] using h
    unfold checkUnitM at hm
    obtain ⟨_, s1, hg, h1⟩ := bind_ok.1 hm
    obtain ⟨rfl, hgs⟩ := checkGlobals_ok hg
    change Fallible.run _ _ = _ at h1
    split at h1
    · exact (die_ok.1 h1).elim
    · rename_i e he
      obtain ⟨fns, s2, hf, h2⟩ := bind_ok.1 h1
      split at h2
      · exact (die_ok.1 h2).elim
      · rename_i hexit
        obtain ⟨_, s3, h93, h3⟩ := bind_ok.1 h2
        obtain rfl : s3 = s2.withCall 93 := modify_ok.1 h93
        obtain ⟨s4, s5, hget, h4⟩ := bind_ok.1 h3
        obtain ⟨rfl, rfl⟩ := get_ok.1 hget
        obtain ⟨rfl, rfl⟩ := pure_ok.1 h4
        exact ⟨s2, hgs, hf, he, by simpa using hexit, rfl, rfl⟩

theorem entry_index {t : TUnit} (h : checkUnit file u = .ok t) :
    t.fns.findIdx (·.isEntry) < t.fns.length := by
  obtain ⟨s2, hu⟩ := checkUnit_ok h
  rw [List.findIdx_lt_length]
  obtain ⟨hin, he⟩ := List.find?_eq_some_iff_append.1 hu.entry
  have hmem : t.entry ∈ u.fns := List.mem_of_find?_eq_some hu.entry
  have hall : ∀ {fs : List Fn} {ts : List TFn},
      List.Forall₂ (fun f t => ∃ s s', checkFn u f s = .ok (t, s')) fs ts →
        ∀ f ∈ fs, f.isEntry = true → ∃ t ∈ ts, t.isEntry = true := by
    intro fs ts hts
    induction hts with
    | nil => simp
    | cons hc _ ih =>
      intro f hf hfe
      rcases List.mem_cons.1 hf with rfl | hf
      · obtain ⟨s, s', hc⟩ := hc
        obtain ⟨_, _, _, _, _, _, _, _, st⟩ := checkFn_ok hc
        exact ⟨_, List.mem_cons_self, by rw [st.entry, hfe]⟩
      · obtain ⟨t', ht', hte⟩ := ih f hf hfe
        exact ⟨t', List.mem_cons_of_mem _ ht', hte⟩
  exact hall (checkFns_ok hu.fns) _ hmem hin

end Verkos.Sav
