import Verkos.Sav.Checked

/-!
# What the checker leaves in the tree

A checked tree is well typed: every variable is one that is in scope where it stands, every node
has the type its parts give it, and what is handed to a parameter, a slot or a caller has the type
that is wanted there. `Typed` says so for expressions and `TypedStmt` for statements, with the
symbols in scope as a list, the innermost first. The checker establishes both.

The only place where the tree is not what was checked is a `for`: its bounds are checked as any
number and then marked `i64`, so `TypedBound` speaks of the node as it was before that.
-/

namespace Verkos.Sav

open Verkos.Lib (Fallible)
open Lib.Fallible (bind_ok pure_ok)

/-! ## Types that are the same -/

theorem Ty.same_refl : ∀ t : Ty, Ty.same t t = true
  | .void | .bool => rfl
  | .int w s => by simp [Ty.same]
  | .ptr e d | .slice e | .array e n => by simp [Ty.same, Ty.same_refl e]
  | .struct .. | .enum .. | .cap c => by simp [Ty.same]

variable {t : Ty} {e e' : TExpr} {p : Pos} {name : String} {y : Sym} {s' : CState} {f : Fn}

theorem Ty.same_bool (h : Ty.same t .bool = true) : t = .bool := by
  cases t <;> simp_all [Ty.same]

theorem Ty.same_cap {c : CapId} (h : Ty.same t (.cap c) = true) : t = .cap c := by
  cases t <;> simp_all [Ty.same]

@[simp] theorem TExpr.setTy_ty (e : TExpr) (t : Ty) : (e.setTy t).ty = t := by
  cases e <;> rfl

theorem Wanted.same (h : Wanted e t e') : Ty.same e'.ty t = true := by
  rcases h with ⟨-, -, rfl⟩ | ⟨hs, rfl⟩
  · rw [TExpr.setTy_ty]
    exact Ty.same_refl t
  · exact hs

/-! ## Expressions -/

/-- A variable at the top of a file. -/
def GlobalSym (u : SavUnit) (y : Sym) : Prop :=
  ∃ g ∈ u.globals, g.cval = none ∧ y = ⟨.global, g.name, g.ty, 0⟩

/-- The type `&&` and `||`, or any other operator, gives. -/
def BinaryTy (op : BinOp) (ta tb t : Ty) : Prop :=
  (op.isShort = true ∧ ta = .bool ∧ tb = .bool ∧ t = .bool) ∨
    (op.isShort = false ∧ ArithTy op ta tb t)

mutual

/-- Every node has the type its parts give it, and every variable is in scope. -/
def Typed (u : SavUnit) (Γ : List Sym) : TExpr → Prop
  | .int .. => True
  | .bool i _ => i.ty = .bool
  | .str i _ => i.ty = .slice .u8
  | .var i y => i.ty = y.ty ∧ (y ∈ Γ ∨ GlobalSym u y)
  | .call i name as _ => ∃ g, u.findFn name = some g ∧ g.isEntry = false ∧ i.ty = g.ret ∧
      TypedArgs u Γ as (g.params.map (·.2))
  | .method i c m r as => r.ty = .cap c ∧ m ∈ c.methods ∧ i.ty = m.ret.ty ∧ Typed u Γ r ∧
      TypedArgs u Γ as (m.sig.map ArgShape.ty)
  | .unary i op a => Typed u Γ a ∧ ((op = .not ∧ a.ty = .bool ∧ i.ty = .bool) ∨
      (op ≠ .not ∧ a.ty.isInt = true ∧ i.ty = a.ty))
  | .binary i op a b => Typed u Γ a ∧ Typed u Γ b ∧ BinaryTy op a.ty b.ty i.ty
  | .index i a b => Typed u Γ a ∧ Typed u Γ b ∧ b.ty.isInt = true ∧
      (a.ty = .slice i.ty ∨ ∃ n, a.ty = .array i.ty n)
  | .field i a off => Typed u Γ a ∧ ∃ name sn fs sz al, (name, i.ty, off) ∈ fs ∧
      (a.ty = .struct sn fs sz al ∨ a.ty = .ptr (.struct sn fs sz al) false)
  | .slicePtr i a => Typed u Γ a ∧ ∃ t, a.ty = .slice t ∧ i.ty = .ptr t false
  | .len i a => Typed u Γ a ∧ i.ty = .i64 ∧ ((∃ t, a.ty = .slice t) ∨ ∃ t n, a.ty = .array t n)
  | .slice i a lo hi => Typed u Γ a ∧ Typed u Γ lo ∧ Typed u Γ hi ∧ Sliceable a.ty false ∧
      i.ty = .slice a.ty.elem
  | .sliceToEnd i a lo => Typed u Γ a ∧ Typed u Γ lo ∧ Sliceable a.ty true ∧
      i.ty = .slice a.ty.elem
  | .addr i a => Typed u Γ a ∧ a.isLvalue = true ∧ i.ty = .ptr a.ty false
  | .deref i isAt a => Typed u Γ a ∧ a.ty = .ptr i.ty isAt
  | .cast i a => Typed u Γ a ∧ castable a.ty i.ty = true ∧
      (a.ty.isDevPtr = true → i.ty.isDevPtr = true) ∧ a.ty.isCap = false ∧ i.ty.isCap = false
  | .assign i a b => Typed u Γ a ∧ Typed u Γ b ∧ a.isLvalue = true ∧
      Ty.same b.ty a.ty = true ∧ i.ty = a.ty
  | .variant i _ fields as _ => (∃ en vs sz, i.ty = .enum en vs sz) ∧
      TypedArgs u Γ as (fields.map (·.1))

/-- As many expressions as types, each of its type. -/
def TypedArgs (u : SavUnit) (Γ : List Sym) : List TExpr → List Ty → Prop
  | [], [] => True
  | a :: as, t :: ts => (Typed u Γ a ∧ Ty.same a.ty t = true) ∧ TypedArgs u Γ as ts
  | _, _ => False

end

section Expressions

variable {u : SavUnit} {Γ : List Sym}

theorem Typed.wanted (h : Typed u Γ e) (hw : Wanted e t e') : Typed u Γ e' := by
  rcases hw with ⟨hl, -, rfl⟩ | ⟨-, rfl⟩
  · cases e <;> simp_all [TExpr.isLiteral, TExpr.setTy, Typed]
  · exact h

theorem Typed.litLike {other : TExpr} (h : Typed u Γ e) : Typed u Γ (litLike e other) := by
  unfold Verkos.Sav.litLike
  split
  · rename_i hl
    rw [Bool.and_eq_true, Bool.and_eq_true] at hl
    cases e <;> simp_all [TExpr.isLiteral, TExpr.setTy, Typed]
  · exact h

theorem Typed.fieldOf {a : TExpr} (h : Typed u Γ a) (hf : FieldOf p a name e) : Typed u Γ e := by
  rcases hf with ⟨rfl, ht⟩ | ⟨t, rfl, ht⟩ | ⟨ft, off, rfl, sn, fs, sz, al, hm, ht⟩
  · exact ⟨h, rfl, ht⟩
  · exact ⟨h, t, ht, rfl⟩
  · exact ⟨h, name, sn, fs, sz, al, hm, ht⟩

theorem lookup_sym {scopes : List (List Sym)} (h : lookup u scopes name = some (.sym y)) :
    (y ∈ scopes.flatten ∨ GlobalSym u y) ∧ y.name = name := by
  unfold lookup at h
  split at h
  · rename_i z hz
    cases h
    exact ⟨.inl (List.mem_of_find?_eq_some hz), by simpa using List.find?_some hz⟩
  · split at h
    · cases h
    · rename_i g hg
      split at h
      · cases h
      · rename_i hc
        cases h
        exact ⟨.inr ⟨g, List.mem_of_find?_eq_some hg, hc, rfl⟩, by simpa using List.find?_some hg⟩

end Expressions

/-! ## Statements -/

/-- What a statement adds to the scope it stands in. -/
def TStmt.declares : TStmt → List Sym
  | .letS y _ => [y]
  | _ => []

/-- What the statements of a block add to its scope, the last first. -/
def declaresAll : List TStmt → List Sym
  | [] => []
  | st :: ss => declaresAll ss ++ st.declares

/-- The names an arm gives to the payload of its case, the last first. -/
def TArm.declares : TArm → List Sym
  | .otherwise => []
  | .case _ binds => (binds.map (·.1)).reverse

/-- What a slot starts with: nothing, a value of its type, or a literal in an `i64`. -/
def TypedInit (u : SavUnit) (Γ : List Sym) (t : Ty) : Option TExpr → Prop
  | none => True
  | some e => Typed u Γ e ∧ (Ty.same e.ty t = true ∨ (e.isLiteral = true ∧ t = .i64))

/-- What is handed back: nothing, or a value of the type promised. -/
def TypedRet (u : SavUnit) (Γ : List Sym) (ret : Ty) : Option TExpr → Prop
  | none => ret.isVoid = true
  | some e => Typed u Γ e ∧ Ty.same e.ty ret = true ∧ ret.isVoid = false

/-- A bound of a `for`: a number, marked `i64` afterwards. -/
def TypedBound (u : SavUnit) (Γ : List Sym) (e : TExpr) : Prop :=
  ∃ e₀, e = e₀.setTy .i64 ∧ Typed u Γ e₀ ∧ e₀.ty.isInt = true

mutual

def TypedStmt (u : SavUnit) (ret : Ty) (Γ : List Sym) : TStmt → Prop
  | .block ss => TypedStmts u ret Γ ss
  | .letS y init => TypedInit u Γ y.ty init
  | .expr e => Typed u Γ e
  | .ifS c t => (Typed u Γ c ∧ c.ty = .bool) ∧ TypedStmt u ret Γ t
  | .ifElse c t e => (Typed u Γ c ∧ c.ty = .bool) ∧ TypedStmt u ret Γ t ∧ TypedStmt u ret Γ e
  | .whileS c b => (Typed u Γ c ∧ c.ty = .bool) ∧ TypedStmt u ret Γ b
  | .forS y lo hi b => TypedBound u Γ lo ∧ TypedBound u Γ hi ∧ y.ty = .i64 ∧
      TypedStmt u ret (y :: Γ) b
  | .ret e => TypedRet u Γ ret e
  | .brk | .cont => True
  | .assert c _ _ => Typed u Γ c ∧ c.ty = .bool
  | .matchS e _ arms => Typed u Γ e ∧ (∃ en vs sz, e.ty = .enum en vs sz) ∧
      TypedArms u ret Γ arms

def TypedStmts (u : SavUnit) (ret : Ty) (Γ : List Sym) : List TStmt → Prop
  | [] => True
  | st :: ss => TypedStmt u ret Γ st ∧ TypedStmts u ret (st.declares ++ Γ) ss

def TypedArms (u : SavUnit) (ret : Ty) (Γ : List Sym) : List (TArm × TStmt) → Prop
  | [] => True
  | (h, st) :: arms => TypedStmt u ret (h.declares ++ Γ) st ∧ TypedArms u ret Γ arms

end

/-- The innermost scope gained some names and nothing else changed. -/
def Opens (s s' : CState) (ds : List Sym) : Prop :=
  ∃ sc rest, s.scopes = sc :: rest ∧ s'.scopes = (ds ++ sc) :: rest

namespace Opens

variable {s s₁ s₂ : CState} {ds ds' : List Sym}

theorem trans (h : Opens s s₁ ds) (h' : Opens s₁ s₂ ds') : Opens s s₂ (ds' ++ ds) := by
  obtain ⟨sc, rest, hs, hs1⟩ := h
  obtain ⟨sc', rest', hs1', hs2⟩ := h'
  rw [hs1] at hs1'
  obtain ⟨rfl, rfl⟩ := List.cons.inj hs1'
  exact ⟨sc, rest, hs, by rw [hs2, List.append_assoc]⟩

theorem same (h : Opens s s₁ ds) (hs : s₂.scopes = s₁.scopes) : Opens s s₂ ds := by
  obtain ⟨sc, rest, h0, h1⟩ := h
  exact ⟨sc, rest, h0, hs.trans h1⟩

theorem flatten (h : Opens s s₁ ds) : s₁.scopes.flatten = ds ++ s.scopes.flatten := by
  obtain ⟨sc, rest, h0, h1⟩ := h
  rw [h0, h1]
  simp

theorem tail {sc : List (List Sym)} (h : Opens s s₁ ds) (hs : s.scopes = [] :: sc) :
    s₁.scopes.tail = sc := by
  obtain ⟨sc', rest, h0, h1⟩ := h
  obtain ⟨rfl, rfl⟩ := List.cons.inj (hs.symm.trans h0)
  rw [h1]
  rfl

end Opens

/-- A scope to declare in. -/
def CState.Open (s : CState) : Prop := s.scopes ≠ []

theorem Opens.of_same {s : CState} (ho : s.Open) (h : s'.scopes = s.scopes) : Opens s s' [] := by
  obtain ⟨sc, rest, hs⟩ := List.exists_cons_of_ne_nil ho
  exact ⟨sc, rest, hs, by rw [h, hs]; rfl⟩

theorem Opens.open {s : CState} {ds : List Sym} (h : Opens s s' ds) : s'.Open := by
  obtain ⟨sc, rest, -, h1⟩ := h
  intro hn
  rw [h1] at hn
  cases hn

theorem declare_opens {s : CState}
    (ho : s.Open) (h : declare f name t p s = .ok (y, s')) : Opens s s' [y] ∧ y.ty = t := by
  obtain ⟨hy, rfl, -⟩ := declare_ok h
  obtain ⟨sc, rest, hs⟩ := List.exists_cons_of_ne_nil ho
  refine ⟨⟨sc, rest, hs, ?_⟩, by rw [hy]⟩
  simp [CState.withSym, hs]

theorem declareBinds_opens :
    ∀ {bs : List String} {fs : List (String × Ty × Int)} {r : List (Sym × Int × Ty)}
      {s s' : CState}, s.Open → declareBinds f p bs fs s = .ok (r, s') →
        Opens s s' (r.map (·.1)).reverse
  | [], _, r, s, s', ho, h | _ :: _, [], r, s, s', ho, h => by
    obtain ⟨rfl, rfl⟩ := pure_ok.1 h
    exact Opens.of_same ho rfl
  | b :: bs, (n, t, off) :: fs, r, s, s', ho, h => by
    rw [declareBinds] at h
    obtain ⟨y, s₁, hd, h1⟩ := bind_ok.1 h
    obtain ⟨hop, -⟩ := declare_opens ho hd
    obtain ⟨rest, s₂, hr, h2⟩ := bind_ok.1 h1
    have hops := declareBinds_opens hop.open hr
    obtain ⟨rfl, rfl⟩ := pure_ok.1 h2
    simpa using hop.trans hops

theorem checkStmt_declares {u : SavUnit} {st : Stmt} {ts : TStmt} {s : CState}
    (hb : st.isBlock = true ∨ st.isIf = true) (h : checkStmt u f st s = .ok (ts, s')) :
    ts.declares = [] := by
  cases st with
  | block ss =>
    rw [checkStmt] at h
    obtain ⟨_, s₁, -, h1⟩ := bind_ok.1 h
    obtain ⟨ss', s₂, -, h2⟩ := bind_ok.1 h1
    obtain ⟨_, s3, -, h3⟩ := bind_ok.1 h2
    obtain ⟨rfl, -⟩ := pure_ok.1 h3
    rfl
  | ifS c t =>
    rw [checkStmt] at h
    obtain ⟨c1, s₁, -, h1⟩ := bind_ok.1 h
    obtain ⟨c2, s₂, -, h2⟩ := bind_ok.1 h1
    obtain ⟨t', s3, -, h3⟩ := bind_ok.1 h2
    obtain ⟨rfl, -⟩ := pure_ok.1 h3
    rfl
  | ifElse c t e =>
    rw [checkStmt] at h
    obtain ⟨c1, s₁, -, h1⟩ := bind_ok.1 h
    obtain ⟨c2, s₂, -, h2⟩ := bind_ok.1 h1
    obtain ⟨t', s3, -, h3⟩ := bind_ok.1 h2
    obtain ⟨e', s4, -, h4⟩ := bind_ok.1 h3
    obtain ⟨rfl, -⟩ := pure_ok.1 h4
    rfl
  | _ => simp [Stmt.isBlock, Stmt.isIf] at hb

theorem Opens.scopes {s : CState} (h : Opens s s' []) : s'.scopes = s.scopes := by
  obtain ⟨sc, rest, h0, h1⟩ := h
  rw [h0, h1, List.nil_append]

/-! ## Functions and units -/

mutual

/-- A statement control does not run off the end of. -/
def TStmt.returns : TStmt → Bool
  | .ret _ => true
  | .block ss => TStmt.returnsLast ss
  | .ifElse _ t e => t.returns && e.returns
  | _ => false

def TStmt.returnsLast : List TStmt → Bool
  | [] => false
  | [st] => st.returns
  | _ :: st :: ss => TStmt.returnsLast (st :: ss)

end

mutual

theorem checkStmt_returns (u : SavUnit) (f : Fn) : ∀ {st : Stmt} {ts : TStmt} {s s' : CState},
    checkStmt u f st s = .ok (ts, s') → alwaysReturns st = true → ts.returns = true
  | .ret p e, ts, s, s', h, _ => by
    rw [checkStmt] at h
    obtain ⟨e', s₁, -, h1⟩ := bind_ok.1 h
    obtain ⟨rfl, -⟩ := pure_ok.1 h1
    rfl
  | .block ss, ts, s, s', h, hr => by
    rw [checkStmt] at h
    obtain ⟨_, s₁, -, h1⟩ := bind_ok.1 h
    obtain ⟨ss', s₂, hs, h2⟩ := bind_ok.1 h1
    obtain ⟨_, s3, -, h3⟩ := bind_ok.1 h2
    obtain ⟨rfl, -⟩ := pure_ok.1 h3
    exact checkStmts_returns u f hs hr
  | .ifElse c t e, ts, s, s', h, hr => by
    rw [checkStmt] at h
    obtain ⟨c1, s₁, -, h1⟩ := bind_ok.1 h
    obtain ⟨c2, s₂, -, h2⟩ := bind_ok.1 h1
    obtain ⟨t', s3, ht, h3⟩ := bind_ok.1 h2
    obtain ⟨e', s4, he, h4⟩ := bind_ok.1 h3
    obtain ⟨rfl, -⟩ := pure_ok.1 h4
    simp only [alwaysReturns, Bool.and_eq_true] at hr
    simp only [TStmt.returns, Bool.and_eq_true]
    exact ⟨checkStmt_returns u f ht hr.1, checkStmt_returns u f he hr.2⟩
  | .letS .., _, _, _, _, hr | .expr .., _, _, _, _, hr | .ifS .., _, _, _, _, hr
  | .whileS .., _, _, _, _, hr | .forS .., _, _, _, _, hr | .brk .., _, _, _, _, hr
  | .cont .., _, _, _, _, hr | .assert .., _, _, _, _, hr | .matchS .., _, _, _, _, hr => by
    simp [alwaysReturns] at hr

theorem checkStmts_returns (u : SavUnit) (f : Fn) :
    ∀ {ss : List Stmt} {ts : List TStmt} {s s' : CState}, checkStmts u f ss s = .ok (ts, s') →
      lastReturns ss = true → TStmt.returnsLast ts = true
  | [], ts, s, s', h, hr => by simp [lastReturns] at hr
  | [st], ts, s, s', h, hr => by
    rw [checkStmts] at h
    obtain ⟨t, s₁, ht, h1⟩ := bind_ok.1 h
    obtain ⟨ts', s₂, hts, h2⟩ := bind_ok.1 h1
    rw [checkStmts] at hts
    obtain ⟨rfl, rfl⟩ := pure_ok.1 hts
    obtain ⟨rfl, rfl⟩ := pure_ok.1 h2
    exact checkStmt_returns u f ht hr
  | st :: st' :: ss, ts, s, s', h, hr => by
    rw [checkStmts] at h
    obtain ⟨t, s₁, ht, h1⟩ := bind_ok.1 h
    obtain ⟨ts', s₂, hts, h2⟩ := bind_ok.1 h1
    obtain ⟨rfl, rfl⟩ := pure_ok.1 h2
    have hlast := checkStmts_returns u f hts hr
    cases ts' with
    | nil => simp [TStmt.returnsLast] at hlast
    | cons t' ts' => exact hlast

end

/-- The symbols of a function's parameters, as its body sees them. -/
def TFn.scope (t : TFn) : List Sym := (t.params.map Param.sym).reverse

/-- A checked function against its source. -/
structure TypedFn (u : SavUnit) (f : Fn) (t : TFn) : Prop where
  name : t.name = f.name
  entry : t.isEntry = f.isEntry
  ret : t.ret = f.ret
  params : t.params.map (fun p => (p.name, p.ty)) = f.params
  req : ∀ k ∈ t.req, Typed u t.scope k.expr
  ens : ∃ rs : List Sym, (∀ y ∈ rs, y.ty = t.ret) ∧ ∀ k ∈ t.ens, Typed u (rs ++ t.scope) k.expr
  body : TypedStmt u t.ret t.scope t.body
  returns : t.ret.isVoid = false → t.body.returns = true

/-- A function the checker finds is one the generator finds, by anything that is the same in
both. -/
theorem find_typed {u : SavUnit} {p : Fn → Bool} {q : TFn → Bool}
    (hpq : ∀ f t, TypedFn u f t → q t = p f) {g : Fn} :
    ∀ {fs : List Fn} {ts : List TFn}, List.Forall₂ (TypedFn u) fs ts → fs.find? p = some g →
      ∃ t, ts.find? q = some t ∧ TypedFn u g t
  | _, _, .nil, h => by simp at h
  | _, _, .cons (a := f) (b := t) hf hfs, h => by
    rw [List.find?_cons] at h ⊢
    rw [hpq f t hf]
    split at h
    · cases h
      exact ⟨t, rfl, hf⟩
    · exact find_typed hpq hfs h

end Verkos.Sav
