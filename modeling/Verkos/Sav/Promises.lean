import Verkos.Sav.Checks

/-!
# The search for the returned value

A `gives` clause has to name what the function returns. `check_contract` looks for the name with a
stack of 64 places and leaves the parts of a node out when sixty are taken. `within` says where an
occurrence has to stand for the search to come to it.
-/

namespace Verkos.Sav

open Lib.Fallible (bind_ok pure_ok)

namespace TExpr

/-- Whether the named result occurs. -/
def names : TExpr → Bool
  | .int .. | .bool .. | .str .. => false
  | .var _ s => s.kind = .result
  | .call _ _ as _ | .variant _ _ _ as _ => anyNames as
  | .method _ _ _ r as => r.names || anyNames as
  | .unary _ _ a | .field _ a _ | .slicePtr _ a | .len _ a | .addr _ a | .deref _ _ a
  | .cast _ a => a.names
  | .binary _ _ a b | .index _ a b | .sliceToEnd _ a b | .assign _ a b => a.names || b.names
  | .slice _ a b c => a.names || b.names || c.names
where
  anyNames : List TExpr → Bool
    | [] => false
    | a :: as => a.names || anyNames as

/-- Whether it occurs where fewer than sixty parts wait at every node above. A second part has the
first below it, a third has two, and an argument three and the arguments before it. -/
def within (d : Nat) : TExpr → Bool
  | .int .. | .bool .. | .str .. => false
  | .var _ s => s.kind = .result
  | .call _ _ as _ | .variant _ _ _ as _ => d < 60 && anyWithin (d + 3) as
  | .method _ _ _ r as => d < 60 && (anyWithin (d + 3) as || r.within d)
  | .unary _ _ a | .field _ a _ | .slicePtr _ a | .len _ a | .addr _ a | .deref _ _ a
  | .cast _ a => d < 60 && a.within d
  | .binary _ _ a b | .index _ a b | .sliceToEnd _ a b | .assign _ a b =>
    d < 60 && (b.within (d + 1) || a.within d)
  | .slice _ a b c => d < 60 && (c.within (d + 2) || b.within (d + 1) || a.within d)
where
  anyWithin (d : Nat) : List TExpr → Bool
    | [] => false
    | a :: as => d < 60 && (anyWithin (d + 1) as || a.within d)

end TExpr

open TExpr (names.anyNames within.anyWithin)

/-! ## The stack -/

/-- Entries on top of the stack, through with which the search is in at most `n` steps; it has found
the name by then if `found` says so of the number of entries below. -/
def Searched (n : Nat) (found : Nat → Bool) (top : List (Option TExpr) → List (Option TExpr)) :
    Prop :=
  ∀ st, ∃ k ≤ n, ∀ fuel, namesResult (k + fuel) (top st) = (found st.length || namesResult fuel st)

namespace Searched

variable {n n' j : Nat} {found found' : Nat → Bool} {top top' : List (Option TExpr) → List (Option TExpr)}

theorem congr (h : Searched n found top) (hn : n ≤ n') (hf : ∀ d, found d = found' d) :
    Searched n' found' top := by
  obtain rfl := funext hf
  intro st
  obtain ⟨k, hk, hrun⟩ := h st
  exact ⟨k, hk.trans hn, hrun⟩

theorem push (h : Searched n found top) (h' : Searched n' found' top')
    (hlen : ∀ st, (top st).length = st.length + j) :
    Searched (n' + n) (fun d => found' (d + j) || found d) fun st => top' (top st) := by
  intro st
  obtain ⟨k, hk, hrun⟩ := h st
  obtain ⟨k', hk', hrun'⟩ := h' (top st)
  refine ⟨k' + k, Nat.add_le_add hk' hk, fun fuel => ?_⟩
  rw [Nat.add_assoc, hrun', hrun, hlen, Bool.or_assoc]

theorem nil : Searched 0 (fun _ => false) id := fun st => ⟨0, Nat.le_refl 0, fun fuel => by
  rw [Nat.zero_add, id, Bool.false_or]⟩

theorem none : Searched 1 (fun _ => false) (.none :: ·) := fun st => ⟨1, Nat.le_refl 1, fun fuel => by
  rw [Nat.add_comm, namesResult, Bool.false_or]⟩

theorem result (i : Info) (m : String) (t : Ty) (off : Int) :
    Searched 1 (fun _ => true) (some (.var i ⟨.result, m, t, off⟩) :: ·) := fun st =>
  ⟨1, Nat.le_refl 1, fun fuel => by rw [Nat.add_comm, namesResult, Bool.true_or]⟩

/-- A node: its parts are pushed unless there are sixty entries. -/
theorem node {e : TExpr} {a b c : Option TExpr} {args : List TExpr} {na nb nc nr : Nat}
    {fa fb fc fr : Nat → Bool} (hp : e.parts = (a, b, c, args))
    (hv : ∀ i m t off, e ≠ .var i ⟨.result, m, t, off⟩) (ha : Searched na fa (a :: ·))
    (hb : Searched nb fb (b :: ·)) (hc : Searched nc fc (c :: ·))
    (hr : Searched nr fr (pushArgs args)) : Searched (nr + (nc + (nb + na)) + 1)
      (fun d => d < 60 && (fr (d + 3) || (fc (d + 2) || (fb (d + 1) || fa d)))) (some e :: ·) := by
  intro st
  obtain ⟨k, hk, hrun⟩ := (((ha.push hb (j := 1) fun _ => rfl).push hc (j := 2) fun _ => rfl).push
    hr (j := 3) fun _ => rfl) st
  have hstep : ∀ fuel, namesResult (fuel + 1) (some e :: st) =
      if st.length < 60 then namesResult fuel (pushArgs args (c :: b :: a :: st))
      else namesResult fuel st := by
    intro fuel
    rw [namesResult.eq_5 _ _ _ hv, hp]
  by_cases hd : st.length < 60
  · refine ⟨k + 1, by omega, fun fuel => ?_⟩
    dsimp only
    rw [Nat.add_right_comm, hstep, if_pos hd, hrun, decide_eq_true hd, Bool.true_and]
  · refine ⟨1, by omega, fun fuel => ?_⟩
    dsimp only
    rw [Nat.add_comm, hstep, if_neg hd, decide_eq_false hd, Bool.false_and, Bool.false_or]

end Searched

mutual

theorem searched : ∀ e : TExpr, Searched (4 * e.nodes) (e.within ·) (some e :: ·)
  | .var i ⟨.result, m, t, off⟩ => (Searched.result i m t off).congr (by simp [TExpr.nodes]) fun d => rfl
  | .int .. | .bool .. | .str .. | .var _ ⟨.local, _, _, _⟩ | .var _ ⟨.param, _, _, _⟩
  | .var _ ⟨.global, _, _, _⟩ =>
    (Searched.node rfl (by simp) .none .none .none .nil).congr (by simp [TExpr.nodes])
      fun d => by simp [TExpr.within]
  | .call _ _ as _ | .variant _ _ _ as _ =>
    (Searched.node rfl (by simp) .none .none .none (searchedAll as)).congr
      (by simp only [TExpr.nodes]; omega) fun d => by simp [TExpr.within]
  | .method _ _ _ r as =>
    (Searched.node rfl (by simp) (searched r) .none .none (searchedAll as)).congr
      (by simp only [TExpr.nodes]; omega) fun d => by simp [TExpr.within]
  | .unary _ _ a | .field _ a _ | .slicePtr _ a | .len _ a | .addr _ a | .deref _ _ a
  | .cast _ a =>
    (Searched.node rfl (by simp) (searched a) .none .none .nil).congr
      (by simp only [TExpr.nodes]; omega) fun d => by simp [TExpr.within]
  | .binary _ _ a b | .index _ a b | .sliceToEnd _ a b | .assign _ a b =>
    (Searched.node rfl (by simp) (searched a) (searched b) .none .nil).congr
      (by simp only [TExpr.nodes]; omega) fun d => by simp [TExpr.within]
  | .slice _ a b c =>
    (Searched.node rfl (by simp) (searched a) (searched b) (searched c) .nil).congr
      (by simp only [TExpr.nodes]; omega) fun d => by simp [TExpr.within, Bool.or_assoc]

theorem searchedAll : ∀ as : List TExpr,
    Searched (4 * TExpr.nodes.nodesAll as) (within.anyWithin · as) (pushArgs as)
  | [] => Searched.nil
  | a :: as => by
    intro st
    by_cases hd : st.length < 60
    · obtain ⟨k, hk, hrun⟩ := (searched a).push (searchedAll as) (j := 1) (fun _ => rfl) st
      refine ⟨k, by simp only [TExpr.nodes.nodesAll]; omega, fun fuel => ?_⟩
      dsimp only
      rw [pushArgs, if_pos hd, within.anyWithin, decide_eq_true hd, Bool.true_and]
      exact hrun fuel
    · refine ⟨0, Nat.zero_le _, fun fuel => ?_⟩
      dsimp only
      rw [pushArgs, if_neg hd, within.anyWithin, decide_eq_false hd, Bool.false_and, Bool.false_or,
        Nat.zero_add]

end

theorem namesResult_eq (e : TExpr) : namesResult (4 * e.nodes + 1) [some e] = e.within 0 := by
  obtain ⟨k, hk, hrun⟩ := searched e []
  have hempty : ∀ fuel, namesResult fuel [] = false := fun fuel => by cases fuel <;> rfl
  rw [show 4 * e.nodes + 1 = k + (4 * e.nodes + 1 - k) by omega, hrun, hempty, Bool.or_false]
  rfl

/-! ## Occurrences -/

mutual

theorem names_of_within : ∀ {e : TExpr} {d : Nat}, e.within d → e.names
  | .var .., _, h => h
  | .call _ _ _ _, _, h | .variant .., _, h => names_of_anyWithin (Bool.and_eq_true_iff.1 h).2
  | .method .., _, h => by
    rcases Bool.or_eq_true_iff.1 (Bool.and_eq_true_iff.1 h).2 with h | h
    · exact Bool.or_eq_true_iff.2 (.inr (names_of_anyWithin h))
    · exact Bool.or_eq_true_iff.2 (.inl (names_of_within h))
  | .unary _ _ a, _, h | .field _ a _, _, h | .slicePtr _ a, _, h | .len _ a, _, h
  | .addr _ a, _, h | .deref _ _ a, _, h | .cast _ a, _, h =>
    names_of_within (e := a) (Bool.and_eq_true_iff.1 h).2
  | .binary .., _, h | .index .., _, h | .sliceToEnd .., _, h | .assign .., _, h => by
    rcases Bool.or_eq_true_iff.1 (Bool.and_eq_true_iff.1 h).2 with h | h
    · exact Bool.or_eq_true_iff.2 (.inr (names_of_within h))
    · exact Bool.or_eq_true_iff.2 (.inl (names_of_within h))
  | .slice .., _, h => by
    simp only [TExpr.within, Bool.and_eq_true, Bool.or_eq_true] at h
    simp only [TExpr.names, Bool.or_eq_true]
    obtain ⟨-, (h | h) | h⟩ := h
    · exact .inr (names_of_within h)
    · exact .inl (.inr (names_of_within h))
    · exact .inl (.inl (names_of_within h))

theorem names_of_anyWithin : ∀ {as : List TExpr} {d : Nat}, within.anyWithin d as → names.anyNames as
  | _ :: _, _, h => by
    rcases Bool.or_eq_true_iff.1 (Bool.and_eq_true_iff.1 h).2 with h | h
    · exact Bool.or_eq_true_iff.2 (.inr (names_of_anyWithin h))
    · exact Bool.or_eq_true_iff.2 (.inl (names_of_within h))

end

theorem depends_of_names : ∀ {e : TExpr}, e.names → depends true e
  | .var _ s, h => by
    rw [depends, if_pos (of_decide_eq_true h)]
  | .call .., _ | .method .., _ | .variant .., _ => rfl
  | .unary _ _ a, h | .field _ a _, h | .slicePtr _ a, h | .len _ a, h | .addr _ a, h
  | .deref _ _ a, h | .cast _ a, h => depends_of_names (e := a) h
  | .binary _ _ a b, h | .index _ a b, h | .sliceToEnd _ a b, h | .assign _ a b, h =>
    Bool.or_eq_true_iff.2 ((Bool.or_eq_true_iff.1 h).imp depends_of_names depends_of_names)
  | .slice _ a b c, h => by
    simp only [TExpr.names, Bool.or_eq_true] at h
    simp only [depends, Bool.or_eq_true]
    exact h.imp (Or.imp depends_of_names depends_of_names) depends_of_names

/-! ## The clause -/

variable {u : SavUnit} {f : Fn} {k : Contract} {s s' : CState} {e : TExpr}

theorem checkContract_ok (he : checkExpr u k.expr s = .ok (e, s')) (hf : f.ret.isVoid = false) :
    (∃ t s2, checkContract u f true k s = .ok (t, s2)) ↔
      e.ty.isBool ∧ constValue e = none ∧ e.within 0 := by
  unfold checkContract
  constructor
  · rintro ⟨t, s2, h⟩
    obtain ⟨e', s1, he', h⟩ := bind_ok.1 h
    obtain ⟨rfl, rfl⟩ : e = e' ∧ s' = s1 := by simpa [he] using he'
    split at h
    · exact (die_ok.1 h).elim
    next hb =>
      change Lib.Fallible.run _ s' = _ at h
      split at h
      · exact (die_ok.1 h).elim
      next hc =>
        split at h
        · exact (die_ok.1 h).elim
        · split at h
          · exact (die_ok.1 h).elim
          next hn => exact ⟨by simpa using hb, hc, by simpa [hf, namesResult_eq] using hn⟩
  · rintro ⟨hb, hc, hw⟩
    refine ⟨⟨e, k.text, k.pos.line⟩, s', bind_ok.2 ⟨e, s', he, ?_⟩⟩
    simp only [hb, hc, depends_of_names (names_of_within hw), namesResult_eq, hw]
    rfl

/-- What rule 1 says of a clause of a function that returns something: the clause is accepted only
if it names the result, and whenever it does, if it is true or false and not decided. -/
def SearchComplete (u : SavUnit) (f : Fn) (k : Contract) (s : CState) : Prop :=
  f.ret.isVoid = false → ∀ e s', checkExpr u k.expr s = .ok (e, s') →
    ((∃ t s2, checkContract u f true k s = .ok (t, s2)) → e.names) ∧
      (e.ty.isBool → constValue e = none → e.names →
        ∃ t s2, checkContract u f true k s = .ok (t, s2))

/-- It is so exactly for the clauses in which the name stands within reach, if it stands anywhere. -/
theorem searchComplete_iff (u : SavUnit) (f : Fn) (k : Contract) (s : CState) :
    SearchComplete u f k s ↔ (f.ret.isVoid = false → ∀ e s', checkExpr u k.expr s = .ok (e, s') →
      e.ty.isBool → constValue e = none → e.names → e.within 0) := by
  constructor
  · intro h hf e s' he hb hc hn
    exact ((checkContract_ok he hf).1 ((h hf e s' he).2 hb hc hn)).2.2
  · intro h hf e s' he
    rw [checkContract_ok he hf]
    exact ⟨fun ha => names_of_within ha.2.2, fun hb hc hn => ⟨hb, hc, h hf e s' he hb hc hn⟩⟩

/-! ## A clause too deep -/

namespace Deep

/-- `x && (x && ... r)`. -/
def clause : Nat → Expr
  | 0 => .var ⟨1, 1⟩ "r"
  | n + 1 => .binary ⟨1, 1⟩ .andand (.var ⟨1, 1⟩ "x") (clause n)

def checked : Nat → TExpr
  | 0 => .var ⟨⟨1, 1⟩, .bool⟩ ⟨.result, "r", .bool, 16⟩
  | n + 1 => .binary ⟨⟨1, 1⟩, .bool⟩ .andand
    (.var ⟨⟨1, 1⟩, .bool⟩ ⟨.param, "x", .bool, 8⟩) (checked n)

/-- In a function that takes `x` and gives `r`. -/
def state : CState :=
  ⟨"f.sav", 16, [[⟨.result, "r", .bool, 16⟩, ⟨.param, "x", .bool, 8⟩]], 0, [], []⟩

def fn : Fn :=
  ⟨"f", ⟨1, 1⟩, "f.sav", [("x", .bool)], .bool, some "r", [], [], .block [], false⟩

theorem checkExpr_clause (n : Nat) : checkExpr ⟨[], []⟩ (clause n) state = .ok (checked n, state) := by
  induction n with
  | zero => rfl
  | succ n ih =>
    rw [clause, checkExpr]
    refine bind_ok.2 ⟨_, state, rfl, bind_ok.2 ⟨_, state, ih, ?_⟩⟩
    cases n <;> rfl

theorem names_checked (n : Nat) : (checked n).names := by
  induction n with
  | zero => rfl
  | succ n ih => exact Bool.or_eq_true_iff.2 (.inr ih)

end Deep

theorem not_searchComplete : ¬∀ (u : SavUnit) (f : Fn) (k : Contract) (s : CState),
    SearchComplete u f k s := by
  intro h
  have hok := (h ⟨[], []⟩ Deep.fn ⟨Deep.clause 61, ⟨1, 1⟩, ""⟩ Deep.state rfl _ _
    (Deep.checkExpr_clause 61)).2 rfl rfl (Deep.names_checked 61)
  exact absurd ((checkContract_ok (Deep.checkExpr_clause 61) rfl).1 hok).2.2 (by decide)

end Verkos.Sav
