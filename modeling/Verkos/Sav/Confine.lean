import Verkos.Sav.Manifest
import Verkos.Sav.Runs

/-!
# Capability confinement

The rule is that a program can use the capabilities its `entry fn` was handed and no others. The
checker enforces it where a capability is cast, made global or reassigned, and nowhere else, so a
value of a capability type can still come out of a constant, a slot that was never given one, or
memory; and since a receiver is never evaluated, an expression that merely has a capability type
will do for one.

What does hold: in every run, as long as no capability of a kind the entry lacks has come out of
one of those, every method called so far is one of a kind the entry was handed. The argument is a
typing one. A variable of a capability type in scope was handed its value, a call passes on what its
arguments had, and a function returns what its `return` had.
-/

namespace Verkos.Sav

open Verkos.Lib (Trace)
open Verkos.Lib.Trace (Sat)
open List

/-- The kinds of capability the entry function is handed. -/
def Fn.kinds (f : Fn) : List CapId :=
  f.params.filterMap fun p => match p.2 with
    | .cap c => some c
    | _ => none

theorem mem_kinds {f : Fn} {c : CapId} : c ∈ f.kinds ↔ ∃ p ∈ f.params, p.2 = .cap c := by
  unfold Fn.kinds
  rw [mem_filterMap]
  constructor
  · rintro ⟨p, hp, hc⟩
    refine ⟨p, hp, ?_⟩
    split at hc
    · rename_i c' hc'
      cases hc
      exact hc'
    · cases hc
  · rintro ⟨p, hp, hc⟩
    exact ⟨p, hp, by rw [hc]⟩

/-- A capability of a kind outside `K` from somewhere that was not handed one. -/
def Event.Stray (K : List CapId) : Event → Prop
  | .takes c _ => c ∉ K
  | .calls .. => False

/-- A method of a kind outside `K`. -/
def Event.Outside (K : List CapId) : Event → Prop
  | .takes .. => False
  | .calls c _ => c ∉ K

/-- A type whose values, if they are capabilities, are of a kind in `K`. -/
def Ty.Within (K : List CapId) (t : Ty) : Prop := ∀ c, t = .cap c → c ∈ K

/-- Every symbol in scope has such a type. -/
def ScopeWithin (K : List CapId) (Γ : List Sym) : Prop := ∀ y ∈ Γ, y.ty.Within K

variable {t t' : Ty} {Γ : List Sym}

theorem Ty.Within.of_same {K : List CapId} (h : t.Within K)
    (hs : Ty.same t t' = true) : t'.Within K := by
  rintro c rfl
  exact h c (Ty.same_cap hs)

theorem ScopeWithin.append {K : List CapId} {Γ' : List Sym} (h : ScopeWithin K Γ)
    (h' : ScopeWithin K Γ') : ScopeWithin K (Γ ++ Γ') := by
  intro y hy
  rcases mem_append.1 hy with hy | hy
  · exact h y hy
  · exact h' y hy

section Rules

variable {σ : Type} {K : List CapId}

/-- What a run of a part of the program does: nothing outside `K` unless something strayed, and
`P` at its end. -/
abbrev Stays (K : List CapId) {α : Type} (x : Trace σ Event α) (P : α → Prop) : Prop :=
  Sat (Event.Stray K) (Event.Outside K) x P

theorem stays_takes {src : Source} :
    Stays K (takes t src : Trace σ Event Unit) fun _ => t.Within K := by
  unfold takes
  split
  · rename_i c
    refine (Sat.say (e := Event.takes c src) id).mono fun _ h c' hc => ?_
    cases hc
    exact Classical.not_not.1 h
  · rename_i hne
    exact Sat.pure fun c hc => (hne c hc).elim

theorem stays_does {W : World σ} {a : Act} : Stays K (does W a) fun _ => True := .act

theorem stays_takesRecv {c : CapId} {r : TExpr} (h : ∀ i y, r = .var i y → c ∈ K) :
    Stays K (takesRecv c r : Trace σ Event Unit) fun _ => c ∈ K := by
  unfold takesRecv
  split
  · exact .pure (h _ _ rfl)
  · exact (Sat.say (e := Event.takes c .receiver) id).mono fun _ h => Classical.not_not.1 h

theorem stays_binds {W : World σ} : ∀ {bs : List (Sym × Int × Ty)},
    Stays K (runBinds W bs) fun _ => ScopeWithin K (bs.map (·.1))
  | [] => .pure fun _ hy => by simp at hy
  | (y, _, _) :: bs => by
    refine .bind stays_takes fun _ hy => .bind stays_does fun _ _ => ?_
    have hrest : Stays K (runBinds W bs) fun _ => ScopeWithin K (bs.map (·.1)) := stays_binds
    refine hrest.mono fun _ hbs z hz => ?_
    rcases mem_cons.1 hz with rfl | hz
    · exact hy
    · exact hbs z hz

theorem stays_armHead {W : World σ} {h : TArm} :
    Stays K (runArmHead W h) fun _ => ScopeWithin K h.declares := by
  cases h with
  | otherwise => exact .pure fun _ hy => by simp [TArm.declares] at hy
  | case k bs =>
    refine stays_binds.mono fun _ hbs y hy => hbs y ?_
    exact mem_reverse.1 hy

end Rules

/-! ## The types that are no capability -/

theorem Ty.Within.of_not_cap (h : t.isCap = false) (K : List CapId) : t.Within K := by
  rintro c rfl
  cases h

theorem Ty.isCap_of_isInt (h : t.isInt = true) : t.isCap = false := by
  cases t <;> simp_all [Ty.isInt, Ty.isCap]

theorem Ty.isCap_of_isPtr (h : t.isPtr = true) : t.isCap = false := by
  cases t <;> simp_all [Ty.isPtr, Ty.isCap]

theorem RetShape.isCap (r : RetShape) : r.ty.isCap = false := by
  cases r <;> rfl

theorem BinaryTy.isCap {op : BinOp} {ta tb : Ty} (h : BinaryTy op ta tb t) : t.isCap = false := by
  rcases h with ⟨-, -, -, rfl⟩ | ⟨-, ⟨-, -, rfl⟩ | ⟨-, hp, -, -, rfl⟩ | ⟨-, hi, -, -, rfl⟩⟩
  · rfl
  · rfl
  · exact Ty.isCap_of_isPtr hp
  · exact Ty.isCap_of_isInt hi

/-! ## Expressions -/

/-- A checked unit against its source, with no variable at the top of a file a capability. -/
structure Linked (u : SavUnit) (U : TUnit) : Prop where
  fns : List.Forall₂ (TypedFn u) u.fns U.fns
  globals : ∀ y, GlobalSym u y → y.ty.isCap = false

section Confinement

variable {σ : Type} {K : List CapId} {W : World σ} {u : SavUnit} {U : TUnit} {contracts : Bool}

theorem Ty.Within.of_node (h : t.Within K) (ht : t' = t ∨ t' = .i64) : t'.Within K := by
  rcases ht with rfl | rfl
  · exact h
  · exact Ty.Within.of_not_cap rfl K

theorem TExpr.setTy_self (e : TExpr) : e.setTy e.ty = e := by
  cases e <;> rfl

theorem Ty.isCap_of_eq (h : t = t') (hc : t'.isCap = false) : t.isCap = false := by
  rw [h]
  exact hc

theorem stays_last {a : Act} (h : t.isCap = false) (ht : t' = t ∨ t' = .i64) :
    Stays K (does W a) fun _ => t'.Within K :=
  stays_does.mono fun _ _ => (Ty.Within.of_not_cap h K).of_node ht

theorem self {n : Nat} {e : TExpr} {P : Unit → Prop}
    (h : Stays K (runExpr W U contracts n (e.setTy e.ty)) P) :
    Stays K (runExpr W U contracts n e) P := by
  rw [TExpr.setTy_self] at h
  exact h

/-- A list of types none of which has a kind outside `K`. -/
def AllWithin (K : List CapId) (ts : List Ty) : Prop := ∀ t ∈ ts, t.Within K

theorem Linked.var_within (L : Linked u U) {i : Info} {y : Sym}
    (he : Typed u Γ (.var i y)) (hΓ : ScopeWithin K Γ) : i.ty.Within K := by
  rcases he with ⟨hi, hy | hy⟩
  · rw [hi]
    exact hΓ y hy
  · rw [hi]
    exact Ty.Within.of_not_cap (L.globals y hy) K

theorem Ty.Within.of_void (h : t.isVoid = true) : t.Within K := by
  rintro c rfl
  cases h

theorem Ty.Within.scope {rs : List Sym} (h : t.Within K) (hrs : ∀ y ∈ rs, y.ty = t)
    (hΓ : ScopeWithin K Γ) : ScopeWithin K (rs ++ Γ) :=
  ScopeWithin.append (fun y hy => by rw [hrs y hy]; exact h) hΓ

/-- How a statement may end: what it declared is within `K` if control goes on behind it, what is
returned is, and a statement that always returns does. -/
structure Ends (K : List CapId) (ret : Ty) (ds : List Sym) (always : Bool) (o : Flow) : Prop where
  declared : o = .next → ScopeWithin K ds
  returned : o = .ret → ret.Within K
  always : always = true → o ≠ .next

theorem ScopeWithin.nil : ScopeWithin K [] := fun _ hy => by simp at hy

theorem Ends.quiet {ret : Ty} {o : Flow} (h : o ≠ .ret) : Ends K ret [] false o :=
  ⟨fun _ => .nil, fun ho => (h ho).elim, fun ha => nomatch ha⟩

mutual

theorem stays_expr (L : Linked u U) : ∀ (n : Nat) {e : TExpr} {t : Ty} {Γ : List Sym},
    Typed u Γ e → ScopeWithin K Γ → t = e.ty ∨ t = .i64 →
      Stays K (runExpr W U contracts n (e.setTy t)) fun _ => t.Within K
  | 0, _, _, _, _, _, _ => .stop
  | _ + 1, .int i v, t, Γ, _, _, _ => .bind stays_does fun _ _ => stays_takes
  | _ + 1, .bool i v, t, Γ, he, _, ht | _ + 1, .str i v, t, Γ, he, _, ht => stays_last (Ty.isCap_of_eq he rfl) ht
  | _ + 1, .var i y, t, Γ, he, hΓ, ht =>
    stays_does.mono fun _ _ => (L.var_within he hΓ).of_node ht
  | n + 1, .call i name as off, t, Γ, he, hΓ, ht => by
    obtain ⟨g, hfind, -, hret, hargs⟩ := he
    refine .bind (stays_all L n hargs hΓ) fun _ has => ?_
    refine .bind (stays_named L n hfind has) fun _ hg => ?_
    refine stays_does.mono fun _ _ => Ty.Within.of_node ?_ ht
    exact fun c hc => hg c (hret.symm.trans hc)
  | n + 1, .method i c m r as, t, Γ, he, hΓ, ht => by
    obtain ⟨hr, -, hret, htr, hargs⟩ := he
    refine .bind (stays_all L n hargs hΓ) fun _ _ => ?_
    refine .bind (stays_takesRecv ?_) fun _ hc => ?_
    · rintro j y rfl
      exact L.var_within htr hΓ c hr
    · refine .bind (.say (e := Event.calls c m) fun h => h hc) fun _ _ => ?_
      exact stays_last (Ty.isCap_of_eq hret m.ret.isCap) ht
  | n + 1, .unary i op a, t, Γ, he, hΓ, ht => by
    refine .bind (self (stays_expr L n he.1 hΓ (.inl rfl))) fun _ _ => stays_last ?_ ht
    rcases he.2 with ⟨-, -, hi⟩ | ⟨-, hint, hi⟩
    · exact Ty.isCap_of_eq hi rfl
    · exact Ty.isCap_of_eq hi (Ty.isCap_of_isInt hint)
  | n + 1, .binary i op a b, t, Γ, he, hΓ, ht => by
    refine .bind (self (stays_expr L n he.1 hΓ (.inl rfl))) fun _ _ => ?_
    have hlast := (Ty.Within.of_not_cap he.2.2.isCap K).of_node ht
    have hrest : Stays K (do runExpr W U contracts n b; does W (.node (.binary (i.withTy t) op a b)))
        fun _ => t.Within K :=
      Sat.bind (self (stays_expr L n he.2.1 hΓ (.inl rfl))) fun _ _ => stays_last he.2.2.isCap ht
    cases op with
    | andand | oror => exact (stays_unless L n he.2.1 hΓ).mono fun _ _ => hlast
    | _ => exact hrest
  | n + 1, .index i a b, t, Γ, he, hΓ, ht => by
    refine .bind (stays_base L n he.1 hΓ) fun _ _ => ?_
    refine .bind (self (stays_expr L n he.2.1 hΓ (.inl rfl))) fun _ _ => ?_
    exact .bind stays_does fun _ _ => stays_takes
  | n + 1, .field i a off, t, Γ, he, hΓ, ht => by
    refine .bind (stays_base L n he.1 hΓ) fun _ _ => ?_
    exact .bind stays_does fun _ _ => stays_takes
  | n + 1, .slicePtr i a, t, Γ, he, hΓ, ht => by
    obtain ⟨ha, t0, -, hi⟩ := he
    exact .bind (stays_place L n ha hΓ) fun _ _ => stays_last (Ty.isCap_of_eq hi rfl) ht
  | n + 1, .len i a, t, Γ, he, hΓ, ht => by
    have hcap := Ty.isCap_of_eq he.2.1 (by rfl)
    change Stays K (match a.ty with
      | .array .. => does W (.node (.len (i.withTy t) a))
      | _ => do
        runExpr W U contracts n a
        does W (.node (.len (i.withTy t) a))) fun _ => t.Within K
    split
    · exact stays_last hcap ht
    · exact .bind (self (stays_expr L n he.1 hΓ (.inl rfl))) fun _ _ => stays_last hcap ht
  | n + 1, .slice i a lo hi, t, Γ, he, hΓ, ht => by
    refine .bind (stays_base L n he.1 hΓ) fun _ _ => ?_
    refine .bind (self (stays_expr L n he.2.1 hΓ (.inl rfl))) fun _ _ => ?_
    refine .bind (self (stays_expr L n he.2.2.1 hΓ (.inl rfl))) fun _ _ => ?_
    exact stays_last (Ty.isCap_of_eq he.2.2.2.2 rfl) ht
  | n + 1, .sliceToEnd i a lo, t, Γ, he, hΓ, ht => by
    refine .bind (stays_base L n he.1 hΓ) fun _ _ => ?_
    refine .bind (self (stays_expr L n he.2.1 hΓ (.inl rfl))) fun _ _ => ?_
    exact stays_last (Ty.isCap_of_eq he.2.2.2 rfl) ht
  | n + 1, .addr i a, t, Γ, he, hΓ, ht => by
    refine (stays_place L n he.1 hΓ).mono fun _ _ => Ty.Within.of_node ?_ ht
    exact Ty.Within.of_not_cap (Ty.isCap_of_eq he.2.2 rfl) K
  | n + 1, .deref i isAt a, t, Γ, he, hΓ, ht => by
    refine .bind (self (stays_expr L n he.1 hΓ (.inl rfl))) fun _ _ => ?_
    exact .bind stays_does fun _ _ => stays_takes
  | n + 1, .cast i a, t, Γ, he, hΓ, ht =>
    Sat.bind (self (stays_expr L n he.1 hΓ (.inl rfl))) fun _ _ => stays_last he.2.2.2.2 ht
  | n + 1, .assign i a b, t, Γ, he, hΓ, ht => by
    obtain ⟨ha, hb, -, hs, hi⟩ := he
    refine .bind (stays_place L n ha hΓ) fun _ _ => ?_
    refine .bind (self (stays_expr L n hb hΓ (.inl rfl))) fun _ hbw => ?_
    refine stays_does.mono fun _ _ => Ty.Within.of_node ?_ ht
    exact fun c hc => (hbw.of_same hs) c (hi.symm.trans hc)
  | n + 1, .variant i tag fields as off, t, Γ, he, hΓ, ht => by
    obtain ⟨⟨en, vs, sz, hi⟩, hargs⟩ := he
    exact .bind (stays_all L n hargs hΓ) fun _ _ => stays_last (Ty.isCap_of_eq hi rfl) ht

theorem stays_unless (L : Linked u U) : ∀ (n : Nat) {settled : Bool} {e : TExpr} {Γ : List Sym},
    Typed u Γ e → ScopeWithin K Γ → Stays K (runUnless W U contracts n settled e) fun _ => True
  | 0, _, _, _, _, _ => .stop
  | n + 1, settled, e, Γ, he, hΓ => by
    refine .bind Sat.ask fun t _ => ?_
    split
    · exact .pure trivial
    · exact (self (stays_expr L n he hΓ (.inl rfl))).mono fun _ _ => trivial

theorem stays_base (L : Linked u U) : ∀ (n : Nat) {isPlace : Bool} {e : TExpr} {Γ : List Sym},
    Typed u Γ e → ScopeWithin K Γ → Stays K (runBase W U contracts n isPlace e) fun _ => True
  | 0, _, _, _, _, _ => .stop
  | n + 1, true, _, _, he, hΓ => stays_place L n he hΓ
  | n + 1, false, _, _, he, hΓ =>
    (self (stays_expr L n he hΓ (.inl rfl))).mono fun _ _ => trivial

theorem stays_place (L : Linked u U) : ∀ (n : Nat) {e : TExpr} {Γ : List Sym},
    Typed u Γ e → ScopeWithin K Γ → Stays K (runPlace W U contracts n e) fun _ => True
  | 0, _, _, _, _ => .stop
  | n + 1, .deref _ _ a, Γ, he, hΓ =>
    (self (stays_expr L n he.1 hΓ (.inl rfl))).mono fun _ _ => trivial
  | n + 1, .field i a off, Γ, he, hΓ => .bind (stays_base L n he.1 hΓ) fun _ _ => stays_does
  | n + 1, .slicePtr _ a, Γ, he, hΓ => stays_place L n he.1 hΓ
  | n + 1, .index i a b, Γ, he, hΓ => by
    refine .bind (stays_base L n he.1 hΓ) fun _ _ => ?_
    exact .bind (self (stays_expr L n he.2.1 hΓ (.inl rfl))) fun _ _ => stays_does
  | _ + 1, .int .., _, _, _ | _ + 1, .bool .., _, _, _ | _ + 1, .str .., _, _, _
  | _ + 1, .var .., _, _, _ | _ + 1, .call .., _, _, _ | _ + 1, .method .., _, _, _
  | _ + 1, .unary .., _, _, _ | _ + 1, .binary .., _, _, _ | _ + 1, .len .., _, _, _
  | _ + 1, .slice .., _, _, _ | _ + 1, .sliceToEnd .., _, _, _ | _ + 1, .addr .., _, _, _
  | _ + 1, .cast .., _, _, _ | _ + 1, .assign .., _, _, _ | _ + 1, .variant .., _, _, _ =>
    stays_does

theorem stays_all (L : Linked u U) : ∀ (n : Nat) {as : List TExpr} {ts : List Ty} {Γ : List Sym},
    TypedArgs u Γ as ts → ScopeWithin K Γ →
      Stays K (runAll W U contracts n as) fun _ => AllWithin K ts
  | 0, _, _, _, _, _ => .stop
  | _ + 1, [], [], Γ, _, _ => .pure fun _ ht => by simp at ht
  | _ + 1, [], _ :: _, Γ, he, _ => he.elim
  | _ + 1, _ :: _, [], Γ, he, _ => he.elim
  | n + 1, a :: as, t :: ts, Γ, he, hΓ => by
    refine .bind (self (stays_expr L n he.1.1 hΓ (.inl rfl))) fun _ ha => ?_
    refine (stays_all L n he.2 hΓ).mono fun _ has t' ht' => ?_
    rcases mem_cons.1 ht' with rfl | ht'
    · exact ha.of_same he.1.2
    · exact has t' ht'

theorem stays_named (L : Linked u U) : ∀ (n : Nat) {name : String} {g : Fn},
    u.findFn name = some g → AllWithin K (g.params.map (·.2)) →
      Stays K (runNamed W U contracts n name) fun _ => g.ret.Within K
  | 0, _, _, _, _ => .stop
  | n + 1, name, g, hfind, hargs => by
    obtain ⟨f, hf, htf⟩ := find_typed (p := (·.name == name)) (q := (·.name == name))
      (fun f t h => by rw [h.name]) L.fns hfind
    change Stays K (match U.fns.find? (·.name == name) with
      | none => Trace.stop
      | some f => runFn W U contracts n f) fun _ => g.ret.Within K
    rw [hf]
    exact stays_fn L n htf hargs

theorem stays_fn (L : Linked u U) : ∀ (n : Nat) {g : Fn} {f : TFn},
    TypedFn u g f → AllWithin K (g.params.map (·.2)) →
      Stays K (runFn W U contracts n f) fun _ => g.ret.Within K
  | 0, _, _, _, _ => .stop
  | n + 1, g, f, htf, hargs => by
    have hΓ : ScopeWithin K f.scope := by
      intro y hy
      obtain ⟨p, hp, rfl⟩ := mem_map.1 (mem_reverse.1 hy)
      refine hargs p.ty ?_
      rw [← htf.params, map_map]
      exact mem_map.2 ⟨p, hp, rfl⟩
    refine .bind stays_does fun _ _ => ?_
    refine .bind (stays_checks L n htf.req hΓ) fun _ _ => ?_
    refine .bind (stays_stmt L n htf htf.body hΓ hΓ) fun o ho => ?_
    rw [← htf.ret]
    cases o with
    | ret => exact stays_does.mono fun _ _ => ho.returned rfl
    | next =>
      -- control that runs off the end does so in a function that returns nothing
      have hv : f.ret.Within K := by
        cases hvoid : f.ret.isVoid with
        | true => exact Ty.Within.of_void hvoid
        | false => exact (ho.always (htf.returns hvoid) rfl).elim
      obtain ⟨rs, hrs, hens⟩ := htf.ens
      refine .bind (stays_checks L n hens (hv.scope hrs hΓ)) fun _ _ => ?_
      exact stays_does.mono fun _ _ => hv
    | brk | cont => exact .stop

theorem stays_check (L : Linked u U) : ∀ (n : Nat) {e : TExpr} {Γ : List Sym}, Typed u Γ e →
    ScopeWithin K Γ → Stays K (runCheck W U contracts n e) fun _ => True
  | 0, _, _, _, _ => .stop
  | n + 1, e, Γ, he, hΓ => by
    rw [runCheck]
    split
    · refine .bind (self (stays_expr L n he hΓ (.inl rfl))) fun _ _ => ?_
      refine .bind Sat.ask fun t _ => ?_
      split
      · exact .pure trivial
      · exact .stop
    · exact .pure trivial

theorem stays_checks (L : Linked u U) : ∀ (n : Nat) {ks : List TContract} {Γ : List Sym},
    (∀ k ∈ ks, Typed u Γ k.expr) → ScopeWithin K Γ →
      Stays K (runChecks W U contracts n ks) fun _ => True
  | 0, _, _, _, _ => .stop
  | _ + 1, [], _, _, _ => .pure trivial
  | n + 1, k :: ks, Γ, hks, hΓ => by
    refine .bind (stays_check L n (hks k mem_cons_self) hΓ) fun _ _ => ?_
    exact stays_checks L n (fun k' hk' => hks k' (mem_cons_of_mem _ hk')) hΓ

theorem stays_stmt (L : Linked u U) : ∀ (n : Nat) {g : Fn} {f : TFn} {st : TStmt} {Γ : List Sym},
    TypedFn u g f → TypedStmt u f.ret Γ st → ScopeWithin K Γ → ScopeWithin K f.scope →
      Stays K (runStmt W U contracts n f st) (Ends K f.ret st.declares st.returns)
  | 0, _, _, _, _, _, _, _, _ => .stop
  | n + 1, g, f, .block ss, Γ, htf, hst, hΓ, hp => stays_stmts L n htf hst hΓ hp
  | _ + 1, g, f, .letS y none, Γ, htf, hst, hΓ, hp => by
    refine .bind stays_takes fun _ hy => .pure ⟨fun _ z hz => ?_, by simp, by simp [TStmt.returns]⟩
    rw [mem_singleton.1 hz]
    exact hy
  | n + 1, g, f, .letS y (some e), Γ, htf, hst, hΓ, hp => by
    refine .bind (self (stays_expr L n hst.1 hΓ (.inl rfl))) fun _ he => ?_
    refine .bind stays_does fun _ _ => .pure ⟨fun _ z hz => ?_, by simp, by simp [TStmt.returns]⟩
    rw [mem_singleton.1 hz]
    rcases hst.2 with hs | ⟨-, hi⟩
    · exact he.of_same hs
    · rw [hi]
      exact Ty.Within.of_not_cap rfl K
  | n + 1, g, f, .expr e, Γ, htf, hst, hΓ, hp =>
    Sat.bind (self (stays_expr L n hst hΓ (.inl rfl))) fun _ _ => .pure (.quiet (by simp))
  | n + 1, g, f, .ifS c t, Γ, htf, hst, hΓ, hp => by
    refine .bind (self (stays_expr L n hst.1.1 hΓ (.inl rfl))) fun _ _ => ?_
    refine .bind Sat.ask fun b _ => ?_
    split
    · refine (stays_stmt L n htf hst.2 hΓ hp).mono fun o ho => ?_
      exact ⟨fun _ => .nil, ho.returned, by simp [TStmt.returns]⟩
    · exact .pure (.quiet (by simp))
  | n + 1, g, f, .ifElse c t e, Γ, htf, hst, hΓ, hp => by
    refine .bind (self (stays_expr L n hst.1.1 hΓ (.inl rfl))) fun _ _ => ?_
    refine .bind Sat.ask fun b _ => ?_
    split
    · refine (stays_stmt L n htf hst.2.1 hΓ hp).mono fun o ho => ?_
      refine ⟨fun _ => .nil, ho.returned, fun ha => ho.always ?_⟩
      exact (Bool.and_eq_true _ _ ▸ ha : _ ∧ _).1
    · refine (stays_stmt L n htf hst.2.2 hΓ hp).mono fun o ho => ?_
      refine ⟨fun _ => .nil, ho.returned, fun ha => ho.always ?_⟩
      exact (Bool.and_eq_true _ _ ▸ ha : _ ∧ _).2
  | n + 1, g, f, .whileS c b, Γ, htf, hst, hΓ, hp => by
    refine .bind (self (stays_expr L n hst.1.1 hΓ (.inl rfl))) fun _ _ => ?_
    refine .bind Sat.ask fun t _ => ?_
    split
    · refine .bind (stays_stmt L n htf hst.2 hΓ hp) fun o ho => ?_
      have hloop : Stays K (runStmt W U contracts n f (.whileS c b))
          (Ends K f.ret (TStmt.whileS c b).declares (TStmt.whileS c b).returns) :=
        stays_stmt L n htf hst hΓ hp
      cases o with
      | brk => exact .pure (.quiet (by simp))
      | ret => exact .pure ⟨by simp, fun _ => ho.returned rfl, by simp [TStmt.returns]⟩
      | next | cont => exact hloop
    · exact .pure (.quiet (by simp))
  | n + 1, g, f, .forS y lo hi b, Γ, htf, hst, hΓ, hp => by
    obtain ⟨⟨lo0, rfl, hlo, -⟩, hhi, hy, hb⟩ := hst
    refine .bind (stays_expr L n hlo hΓ (.inr rfl)) fun _ _ => ?_
    refine .bind stays_does fun _ _ => ?_
    exact stays_for L n htf hhi hy hb hΓ hp
  | n + 1, g, f, .ret none, Γ, htf, hst, hΓ, hp => by
    have hv : f.ret.Within K := Ty.Within.of_void hst
    obtain ⟨rs, hrs, hens⟩ := htf.ens
    refine .bind (stays_checks L n hens (hv.scope hrs hp)) fun _ _ => ?_
    exact .pure ⟨by simp, fun _ => hv, by simp⟩
  | n + 1, g, f, .ret (some e), Γ, htf, hst, hΓ, hp => by
    refine .bind (self (stays_expr L n hst.1 hΓ (.inl rfl))) fun _ he => ?_
    have hv := he.of_same hst.2.1
    obtain ⟨rs, hrs, hens⟩ := htf.ens
    refine .bind (stays_checks L n hens (hv.scope hrs hp)) fun _ _ => ?_
    exact .pure ⟨by simp, fun _ => hv, by simp⟩
  | _ + 1, g, f, .brk, Γ, htf, hst, hΓ, hp | _ + 1, g, f, .cont, Γ, htf, hst, hΓ, hp => .pure (.quiet (by simp))
  | n + 1, g, f, .assert c _ _, Γ, htf, hst, hΓ, hp =>
    Sat.bind (stays_check L n hst.1 hΓ) fun _ _ => .pure (.quiet (by simp))
  | n + 1, g, f, .matchS e _ arms, Γ, htf, hst, hΓ, hp => by
    refine .bind (self (stays_expr L n hst.1 hΓ (.inl rfl))) fun _ _ => ?_
    refine .bind Sat.ask fun k _ => ?_
    exact stays_arm L n htf hst.2.2 hΓ hp

theorem stays_stmts (L : Linked u U) : ∀ (n : Nat) {g : Fn} {f : TFn} {ss : List TStmt}
    {Γ : List Sym}, TypedFn u g f → TypedStmts u f.ret Γ ss → ScopeWithin K Γ →
      ScopeWithin K f.scope →
      Stays K (runStmts W U contracts n f ss) (Ends K f.ret [] (TStmt.returnsLast ss))
  | 0, _, _, _, _, _, _, _, _ => .stop
  | _ + 1, g, f, [], Γ, htf, hss, hΓ, hp => .pure (.quiet (by simp))
  | n + 1, g, f, st :: ss, Γ, htf, hss, hΓ, hp => by
    refine .bind (stays_stmt L n htf hss.1 hΓ hp) fun o ho => ?_
    -- only control that goes on behind the statement reaches the rest
    have hstop : o ≠ .next → Ends K f.ret [] (TStmt.returnsLast (st :: ss)) o := by
      intro hne
      exact ⟨fun _ => .nil, ho.returned, fun _ => hne⟩
    cases o with
    | next =>
      have hrest := stays_stmts L n htf hss.2 ((ho.declared rfl).append hΓ) hp
      refine hrest.mono fun o' ho' => ⟨fun _ => .nil, ho'.returned, fun ha => ?_⟩
      cases ss with
      | nil => exact (ho.always ha rfl).elim
      | cons st' ss' => exact ho'.always ha
    | ret | brk | cont => exact .pure (hstop (by simp))

theorem stays_for (L : Linked u U) : ∀ (n : Nat) {g : Fn} {f : TFn} {y : Sym} {hi : TExpr}
    {b : TStmt} {Γ : List Sym}, TypedFn u g f → TypedBound u Γ hi → y.ty = .i64 →
      TypedStmt u f.ret (y :: Γ) b → ScopeWithin K Γ → ScopeWithin K f.scope →
      Stays K (runFor W U contracts n f y hi b) (Ends K f.ret [] false)
  | 0, _, _, _, _, _, _, _, _, _, _, _, _ => .stop
  | n + 1, g, f, y, hi, b, Γ, htf, hhi, hy, hb, hΓ, hp => by
    have hloop := stays_for L n htf hhi hy hb hΓ hp
    obtain ⟨hi0, rfl, hhi, -⟩ := hhi
    have hyΓ : ScopeWithin K (y :: Γ) := by
      intro z hz
      rcases mem_cons.1 hz with rfl | hz
      · rw [hy]
        exact Ty.Within.of_not_cap rfl K
      · exact hΓ z hz
    refine .bind (stays_expr L n hhi hΓ (.inr rfl)) fun _ _ => ?_
    refine .bind stays_does fun _ _ => .bind Sat.ask fun t _ => ?_
    split
    · refine .bind (stays_stmt L n htf hb hyΓ hp) fun o ho => ?_
      cases o with
      | brk => exact .pure (.quiet (by simp))
      | ret => exact .pure ⟨by simp, fun _ => ho.returned rfl, by simp⟩
      | next | cont => exact .bind stays_does fun _ _ => hloop
    · exact .pure (.quiet (by simp))

theorem stays_arm (L : Linked u U) : ∀ (n : Nat) {g : Fn} {f : TFn} {k : Nat}
    {arms : List (TArm × TStmt)} {Γ : List Sym}, TypedFn u g f → TypedArms u f.ret Γ arms →
      ScopeWithin K Γ → ScopeWithin K f.scope →
      Stays K (runArm W U contracts n f k arms) (Ends K f.ret [] false)
  | 0, _, _, _, _, _, _, _, _, _ => .stop
  | _ + 1, g, f, _, [], Γ, htf, _, hΓ, hp => by
    rw [runArm]
    exact .pure (.quiet (by simp))
  | n + 1, g, f, 0, (h, st) :: arms, Γ, htf, ha, hΓ, hp => by
    refine .bind stays_armHead fun _ hh => ?_
    refine (stays_stmt L n htf ha.1 (hh.append hΓ) hp).mono fun o ho => ?_
    exact ⟨fun _ => .nil, ho.returned, by simp⟩
  | n + 1, g, f, k + 1, _ :: arms, Γ, htf, ha, hΓ, hp => stays_arm L n htf ha.2 hΓ hp

end

end Confinement

/-! ## Whole runs -/

section

variable {file : String} {u : SavUnit} {U : TUnit} (hsh : u.shaped = true)
  (h : checkUnit file u = .ok U)
include hsh h

theorem checkUnit_linked : Linked u U := by
  obtain ⟨s, hu⟩ := checkUnit_ok h
  refine ⟨checkUnit_typed hsh h, ?_⟩
  rintro y ⟨g, hg, hc, rfl⟩
  exact hu.globals g hg (by rw [hc]; rfl)

theorem stays_unit {σ : Type} {W : World σ} {contracts : Bool} (n : Nat) :
    Stays U.entry.kinds (runUnit W U contracts n) fun _ => True := by
  have L := checkUnit_linked hsh h
  obtain ⟨s, hu⟩ := checkUnit_ok h
  obtain ⟨f, hf, htf⟩ := find_typed (p := (·.isEntry)) (q := (·.isEntry))
    (fun f t h => h.entry) L.fns hu.entry
  unfold runUnit
  rw [hf]
  refine (stays_fn L n htf fun t ht => ?_).mono fun _ _ => trivial
  rintro c rfl
  obtain ⟨p, hp, hpc⟩ := mem_map.1 ht
  exact mem_kinds.2 ⟨p, hp, hpc⟩

end

/-- At every point of every run of an accepted program: if every capability that came out of a
constant, an uninitialised slot, memory or a receiver so far is of a kind the entry function was
handed, then so is every capability a method was called on so far. -/
theorem calls_within_entry {σ : Type} (W : World σ) {file : String} {u : SavUnit} {U : TUnit}
    (contracts : Bool) (hsh : u.shaped = true) (h : checkUnit file u = .ok U) (n : Nat) (s : σ)
    {pre post : List Event} (htr : (runUnit W U contracts n s).1 = pre ++ post)
    (hpre : ∀ c src, .takes c src ∈ pre → c ∈ U.entry.kinds) :
    ∀ c m, .calls c m ∈ pre → c ∈ U.entry.kinds := by
  intro c m hm
  have hst : Stays U.entry.kinds (runUnit W U contracts n) fun _ => True := stays_unit hsh h n
  have hg := (hst s).1
  rw [htr] at hg
  have hclean : ∀ b ∈ pre, ¬Event.Stray U.entry.kinds b := by
    intro b hb
    cases b with
    | takes c' src => exact fun hc => hc (hpre c' src hb)
    | calls => exact id
  by_contra hc
  exact hg.clean hclean _ hm hc

/-- A world in which nothing ends and every test holds. -/
def idle : World Unit := ⟨fun _ _ => some (), fun _ => true, fun _ => 0⟩

/-- `entry fn main(out: Console) -> i64 { out!write("x"); return 0; }` -/
def handedConsole : SavUnit :=
  ⟨[⟨"main", ⟨1, 7⟩, "a.sav", [("out", .cap .console)], .i64, none, [], [], .block [
      .expr (.method ⟨1, 38⟩ (.var ⟨1, 38⟩ "out") "write" [.str ⟨1, 48⟩ [120]]),
      .ret ⟨1, 54⟩ (some (.int ⟨1, 61⟩ 0))], true⟩], []⟩

theorem calls_within_entry_handed : ∃ U, checkUnit "a.sav" handedConsole = .ok U ∧
    handedConsole.shaped = true ∧ U.entry.kinds = [.console] ∧
    ∀ c m, .calls c m ∈ (runUnit idle U true 20 ()).1 → c ∈ U.entry.kinds := by
  have hc : (compile "a.sav" handedConsole true).any (fun c => c.checked.entry.kinds == [.console] &&
      (runUnit idle c.checked true 20 ()).1 == [.calls .console ⟨"write", 64, [.s], .i⟩]) = true := by
    decide +kernel
  obtain ⟨c, hcomp, hc⟩ := (Option.any_eq_true _ _).1 hc
  simp only [Bool.and_eq_true, beq_iff_eq] at hc
  have hcheck : checkUnit "a.sav" handedConsole = .ok c.checked := compile_check hcomp
  have hsh : handedConsole.shaped = true := by decide
  refine ⟨c.checked, hcheck, hsh, hc.1, ?_⟩
  refine calls_within_entry idle true hsh hcheck 20 () (append_nil _).symm fun c' src hm => ?_
  rw [hc.2] at hm
  simp at hm

/-- `entry fn main() -> i64 { let c: Console; c!write("x"); return 0; }` -/
def strayConsole : SavUnit :=
  mainOf [
    .letS ⟨1, 26⟩ false "c" (.typed (.cap .console) none),
    .expr (.method ⟨1, 42⟩ (.var ⟨1, 42⟩ "c") "write" [.str ⟨1, 50⟩ [120]]),
    .ret ⟨1, 56⟩ (some (.int ⟨1, 63⟩ 0))]

/-- A program that was handed nothing calls a method of `Console`, and its image writes to standard
output. -/
theorem strayConsole_writes : ∃ c : Compiled, c.unit = strayConsole ∧ c.unit.shaped = true ∧
    c.checked.entry.kinds = [] ∧
    .calls .console ⟨"write", 64, [.s], .i⟩ ∈ (runUnit idle c.checked true 20 ()).1 ∧
    ∃ m rets, Run c.code (Keeps c.code) m rets ∧ c.code[m.pc]? = some .svc ∧
      m.x X8 = 64 ∧ m.x X0 = 1 := by
  have hc : (compile "a.sav" strayConsole true).any (fun c => c.checked.entry.kinds == [] &&
      (runUnit idle c.checked true 20 ()).1.contains (.calls .console ⟨"write", 64, [.s], .i⟩) &&
      (runSteps c.code 15 atEntry []).any fun s =>
        c.code[s.1.pc]? == some .svc && s.1.x X8 == 64 && s.1.x X0 == 1) = true := by
    decide +kernel
  obtain ⟨c, hcomp, hc⟩ := (Option.any_eq_true _ _).1 hc
  simp only [Bool.and_eq_true, beq_iff_eq, contains_iff_mem] at hc
  obtain ⟨⟨m, rets⟩, hrun, hm⟩ := (Option.any_eq_true _ _).1 hc.2
  simp only [Bool.and_eq_true, beq_iff_eq] at hm
  have hreach := Run.runSteps (fun _ _ _ h => h) (.start rfl) hrun
  have hunit : c.unit = strayConsole := compile_unit hcomp
  exact ⟨c, hunit, by rw [hunit]; decide, hc.1.1, hc.1.2, m, rets, hreach, hm.1.1, hm.1.2, hm.2⟩

end Verkos.Sav
