import Verkos.Sav.Recorded
import Verkos.Sav.Typed

/-!
# What the checker establishes

One statement for each function of the checker, over what is known of a tree that it has accepted:
its calls are recorded (`Recorded`), it is well typed (`Typed`), and every match in it has an arm
for every case (`Matched`). The results are `checkUnit_recorded` and `checkUnit_typed`.
-/

namespace Verkos.Sav

open Verkos.Lib (Fallible)
open Verkos.Lib.Fallible (bind_ok get_ok modify_ok pure_ok)
open List (mem_cons)

/-! ## The arms the checker accepts -/

/-- The case an arm names. -/
def TArm.case? : TArm → Option Nat
  | .otherwise => none
  | .case k _ => some k

/-- The cases the arms name, in order. -/
def named (hs : List TArm) : List Nat := hs.filterMap TArm.case?

/-- The arm that names a case, or the `else` when none does. -/
def armFor (k : Nat) (hs : List TArm) : Option Nat :=
  (hs.findIdx? (·.case? == some k)).or (hs.findIdx? (·.case? == none))

/-- Arms of which there is one for every case below `n`. -/
structure Chosen (n : Nat) (hs : List TArm) : Prop where
  once : (named hs).Nodup
  below : ∀ k ∈ named hs, k < n
  last : ∀ p q, hs = p ++ TArm.otherwise :: q → q = []
  all : ∀ k < n, k ∈ named hs ∨ .otherwise ∈ hs

variable {k : Nat} {hs : List TArm} {hasElse : Bool} {file : String}

theorem mem_named : k ∈ named hs ↔ ∃ h ∈ hs, h.case? = some k :=
  List.mem_filterMap

theorem Chosen.armFor {n : Nat} (h : Chosen n hs) (hk : k < n) : ∃ j, armFor k hs = some j := by
  have hfind : ∀ (p : TArm → Bool) (a : TArm), a ∈ hs → p a = true →
      ∃ j, hs.findIdx? p = some j := fun p a ha hp =>
    Option.isSome_iff_exists.1 (List.findIdx?_isSome.trans (List.any_eq_true.2 ⟨a, ha, hp⟩))
  unfold Verkos.Sav.armFor
  rcases h.all k hk with hin | hin
  · obtain ⟨a, ha, hcase⟩ := mem_named.1 hin
    obtain ⟨j, hj⟩ := hfind (·.case? == some k) a ha (beq_iff_eq.2 hcase)
    exact ⟨j, by rw [hj, Option.some_or]⟩
  · obtain ⟨j, hj⟩ := hfind (·.case? == none) _ hin rfl
    rw [hj]
    cases hs.findIdx? (·.case? == some k) with
    | none => exact ⟨j, rfl⟩
    | some i => exact ⟨i, rfl⟩

section Checked

variable {u : SavUnit} {f : Fn} {p : Pos} {en name : String} {seen : List Nat}
  {vs : List (String × List (String × Ty × Int))} {s s' : CState}

theorem checkArmCase_new {binds : List String} {fields : List (String × Ty × Int)}
    (h : checkArmCase en vs seen p name binds s = .ok ((k, fields), s')) :
    k < vs.length ∧ k ∉ seen := by
  unfold checkArmCase at h
  change Fallible.run _ s = _ at h
  split at h
  · exact (die_ok.1 h).elim
  · rename_i k' hfind
    dsimp only at h
    split at h
    · exact (die_ok.1 h).elim
    · rename_i hnew
      split at h
      · exact (die_ok.1 h).elim
      · obtain ⟨hk, -⟩ := pure_ok.1 h
        cases hk
        exact ⟨(List.findIdx?_eq_some_iff_getElem.1 hfind).1, hnew⟩

/-- No case is left over, or there is an `else`. -/
theorem checkLeftOver_all {a : Unit} (h : checkLeftOver p en vs seen hasElse s = .ok (a, s')) :
    ∀ k < vs.length, k ∈ seen ∨ hasElse = true := by
  unfold checkLeftOver at h
  split at h
  · exact (die_ok.1 h).elim
  · rename_i hmiss
    intro k hk
    by_contra hn
    rw [not_or, Bool.not_eq_true] at hn
    refine hmiss ⟨List.ne_nil_of_mem (a := k) (List.mem_filter.2 ⟨List.mem_range.2 hk, ?_⟩), hn.2⟩
    exact decide_eq_true hn.1

/-- What the arms come to: the cases they name are new ones, and an `else` is the last of them. -/
structure ArmsOk (n : Nat) (seen : List Nat) (hasElse : Bool) (hs : List TArm) (seen' : List Nat)
    (hasElse' : Bool) : Prop where
  taken : ∀ k, k ∈ seen' ↔ k ∈ named hs ∨ k ∈ seen
  once : (named hs).Nodup
  new : ∀ k ∈ named hs, k < n ∧ k ∉ seen
  others : hasElse' = true ↔ hasElse = true ∨ .otherwise ∈ hs
  none : hasElse = true → hs = []
  last : ∀ p q, hs = p ++ TArm.otherwise :: q → q = []

theorem checkArms_named : ∀ {arms : List (ArmHead × Stmt)} {seen seen' : List Nat}
    {hasElse hasElse' : Bool} {arms' : List (TArm × TStmt)} {s s' : CState},
    checkArms u f en vs seen hasElse arms s = .ok ((arms', seen', hasElse'), s') →
      ArmsOk vs.length seen hasElse (arms'.map (·.1)) seen' hasElse'
  | [], seen, seen', hasElse, hasElse', arms', s, s', h => by
    rw [checkArms] at h
    obtain ⟨hr, -⟩ := pure_ok.1 h
    cases hr
    exact ⟨by simp [named], List.nodup_nil, by simp [named], by simp, fun _ => rfl, by simp⟩
  | (.otherwise p, body) :: rest, seen, seen', hasElse, hasElse', arms', s, s', h => by
    rw [checkArms] at h
    split at h
    · exact (die_ok.1 h).elim
    · rename_i hno
      obtain ⟨_, s₁, -, h1⟩ := bind_ok.1 h
      obtain ⟨b, s₂, -, h2⟩ := bind_ok.1 h1
      obtain ⟨_, s3, -, h3⟩ := bind_ok.1 h2
      obtain ⟨⟨rest', seen1, he⟩, s4, hr, h4⟩ := bind_ok.1 h3
      have ih := checkArms_named hr
      obtain ⟨hcons, -⟩ := pure_ok.1 h4
      cases hcons
      -- nothing comes after an `else`
      obtain rfl : rest' = [] := List.map_eq_nil_iff.1 (ih.none rfl)
      have htrue : hasElse' = true := ih.others.2 (.inl rfl)
      refine ⟨ih.taken, List.nodup_nil, by simp [named, TArm.case?], ?_, fun h' => absurd h' hno,
        fun p q hpq => ?_⟩
      · simp [htrue]
      · cases p with
        | nil => exact (List.cons.inj hpq).2.symm
        | cons a p => simp at hpq
  | (.case p name binds, body) :: rest, seen, seen', hasElse, hasElse', arms', s, s', h => by
    rw [checkArms] at h
    split at h
    · exact (die_ok.1 h).elim
    · rename_i hno
      obtain ⟨⟨k, fields⟩, s0, hc, h0⟩ := bind_ok.1 h
      obtain ⟨hlt, hnew⟩ := checkArmCase_new hc
      obtain ⟨_, s₁, -, h1⟩ := bind_ok.1 h0
      obtain ⟨bs, s₂, -, h2⟩ := bind_ok.1 h1
      obtain ⟨b, s3, -, h3⟩ := bind_ok.1 h2
      obtain ⟨_, s4, -, h4⟩ := bind_ok.1 h3
      obtain ⟨⟨rest', seen1, he⟩, s5, hr, h5⟩ := bind_ok.1 h4
      have ih := checkArms_named hr
      obtain ⟨hcons, -⟩ := pure_ok.1 h5
      cases hcons
      have hnamed : named (((TArm.case k bs, b) :: rest').map (·.1)) = k :: named (rest'.map (·.1)) :=
        rfl
      refine ⟨fun x => ?_, ?_, fun x hx => ?_, ?_, fun h' => absurd h' hno, fun p q hpq => ?_⟩
      · rw [hnamed, ih.taken, mem_cons, mem_cons]
        tauto
      · rw [hnamed, List.nodup_cons]
        exact ⟨fun hk => (ih.new k hk).2 (.head _), ih.once⟩
      · rw [hnamed] at hx
        rcases mem_cons.1 hx with rfl | hx
        · exact ⟨hlt, hnew⟩
        · exact ⟨(ih.new x hx).1, fun hin => (ih.new x hx).2 (.tail _ hin)⟩
      · rw [ih.others]
        simp
      · cases p with
        | nil => simp at hpq
        | cons a p => exact ih.last p q (List.cons.inj hpq).2

theorem chosen_of_checked {arms : List (ArmHead × Stmt)} {arms' : List (TArm × TStmt)}
    {a : Unit} {s₁ s₂ : CState}
    (ha : checkArms u f en vs [] false arms s = .ok ((arms', seen, hasElse), s₁))
    (hl : checkLeftOver p en vs seen hasElse s₁ = .ok (a, s₂)) :
    Chosen vs.length (arms'.map (·.1)) := by
  have h := checkArms_named ha
  refine ⟨h.once, fun k hk => (h.new k hk).1, h.last, fun k hk => ?_⟩
  rcases checkLeftOver_all hl k hk with hin | hin
  · exact .inl (by simpa using (h.taken k).1 hin)
  · exact .inr (by simpa using h.others.1 hin)

mutual

/-- Every match in the statement is on an enum, and has an arm for each of its cases. -/
def Matched : TStmt → Prop
  | .block ss => MatchedAll ss
  | .ifS _ t => Matched t
  | .ifElse _ t e => Matched t ∧ Matched e
  | .whileS _ b => Matched b
  | .forS _ _ _ b => Matched b
  | .matchS e _ arms => (∃ en vs sz, e.ty = .enum en vs sz ∧ Chosen vs.length (arms.map (·.1))) ∧
    MatchedArms arms
  | _ => True

def MatchedAll : List TStmt → Prop
  | [] => True
  | st :: ss => Matched st ∧ MatchedAll ss

def MatchedArms : List (TArm × TStmt) → Prop
  | [] => True
  | (_, st) :: arms => Matched st ∧ MatchedArms arms

end

end Checked

/-! ## Expressions -/

/-- What an expression or a lookup leaves: nothing forgotten, and the scopes as they were. -/
structure Passes (s s' : CState) : Prop extends Grows s s' where
  scopes : s'.scopes = s.scopes

theorem Passes.refl (s : CState) : Passes s s := ⟨.refl s, rfl⟩

theorem Passes.trans {s s₁ s₂ : CState} (h : Passes s s₁) (h' : Passes s₁ s₂) : Passes s s₂ :=
  ⟨h.toGrows.trans h'.toGrows, h'.scopes.trans h.scopes⟩

theorem Passes.of_eq {s s' : CState} (h : s'.sysUsed = s.sysUsed) (hl : s'.loopDepth = s.loopDepth)
    (hs : s'.scopes = s.scopes) : Passes s s' :=
  ⟨.of_eq h hl, hs⟩

/-- What is known of an expression that was accepted between two states. -/
structure ExprChecked (u : SavUnit) (s s' : CState) (e : TExpr) : Prop where
  passes : Passes s s'
  recorded : s.Known → Recorded s'.sysUsed e
  typed : Typed u s.scopes.flatten e

/-- And of the arguments of a call. -/
structure ArgsChecked (u : SavUnit) (s s' : CState) (as : List Expr) (ts : List Ty)
    (tas : List TExpr) : Prop where
  passes : Passes s s'
  recorded : s.Known → RecordedAll s'.sysUsed tas
  typed : as.length = ts.length → TypedArgs u s.scopes.flatten tas ts

namespace ExprChecked

variable {u : SavUnit} {s s₁ s₂ s' : CState} {a b e e' : TExpr} {t : Ty}

theorem wanted (h : ExprChecked u s s' e) (hw : Wanted e t e') : ExprChecked u s s' e' :=
  ⟨h.passes, fun k => (h.recorded k).wanted hw, h.typed.wanted hw⟩

theorem litLike (h : ExprChecked u s s' e) (other : TExpr) : ExprChecked u s s' (litLike e other) :=
  ⟨h.passes, fun k => (h.recorded k).litLike, h.typed.litLike⟩

theorem later (h : ExprChecked u s s₁ e) (hp : Passes s₁ s₂) : ExprChecked u s s₂ e :=
  ⟨h.passes.trans hp, fun k => (h.recorded k).mono hp.subset, h.typed⟩

theorem after (hp : Passes s s₁) (h : ExprChecked u s₁ s₂ e) : ExprChecked u s s₂ e :=
  ⟨hp.trans h.passes, fun k => h.recorded (hp.known k), hp.scopes ▸ h.typed⟩

theorem both (ha : ExprChecked u s s₁ a) (hb : ExprChecked u s₁ s₂ b) :
    ExprChecked u s s₂ a ∧ ExprChecked u s s₂ b :=
  ⟨ha.later hb.passes, .after ha.passes hb⟩

end ExprChecked

/-- The number of a method is recorded with the call. -/
theorem record_method {s s₁ s₂ : CState} {c : CapId} {m : CapMethod} {a b : Unit}
    (hm : m ∈ c.methods) (h1 : recordSyscall m.sysno s = .ok (a, s₁))
    (h2 : recordCap c.name s₁ = .ok (b, s₂)) :
    Passes s s₂ ∧ (s.Known → m.sysno = 0 ∨ m.sysno ∈ s₂.sysUsed) := by
  obtain rfl : s₁ = s.withCall m.sysno := modify_ok.1 h1
  obtain rfl : s₂ = (s.withCall m.sysno).withCap c.name := modify_ok.1 h2
  have hcap := grows_withCap (s.withCall m.sysno) c.name
  have hgr : Grows s (s.withCall m.sysno) := by
    rcases sysno_known hm with h0 | hk
    · rw [h0, withCall_zero]
      exact .refl s
    · exact grows_withCall hk
  refine ⟨⟨hgr.trans hcap, by simp⟩, fun k => ?_⟩
  rcases Nat.eq_zero_or_pos m.sysno with h0 | h0
  · exact .inl h0
  · exact .inr (hcap.subset (mem_withCall k (by omega)))

mutual

theorem checkExpr_checks (u : SavUnit) : ∀ {e : Expr} {te : TExpr} {s s' : CState},
    checkExpr u e s = .ok (te, s') → ExprChecked u s s' te
  | .int .., te, s, s', h => by
    obtain ⟨rfl, rfl⟩ := pure_ok.1 h
    exact ⟨.refl s', fun _ => trivial, trivial⟩
  | .bool .., te, s, s', h | .str .., te, s, s', h => by
    obtain ⟨rfl, rfl⟩ := pure_ok.1 h
    exact ⟨.refl s', fun _ => trivial, rfl⟩
  | .size .., te, s, s', h => by
    obtain ⟨rfl, rfl⟩ := pure_ok.1 h
    exact ⟨.refl s', fun _ => trivial, trivial⟩
  | .var p name, te, s, s', h => by
    rw [checkExpr] at h
    obtain ⟨s0, s₁, hg, h1⟩ := bind_ok.1 h
    obtain ⟨rfl, rfl⟩ := get_ok.1 hg
    change Fallible.run _ s₁ = _ at h1
    split at h1
    · rename_i y hy
      obtain ⟨rfl, rfl⟩ := pure_ok.1 h1
      exact ⟨.refl s', fun _ => trivial, rfl, (lookup_sym hy).1⟩
    · obtain ⟨rfl, rfl⟩ := pure_ok.1 h1
      exact ⟨.refl s', fun _ => trivial, trivial⟩
    · split at h1
      · exact (die_ok.1 h1).elim
      · exact (die_ok.1 h1).elim
  | .call p name args, te, s, s', h => by
    rw [checkExpr] at h
    obtain ⟨g, s₁, hg, h1⟩ := bind_ok.1 h
    obtain ⟨rfl, hfind, hentry, hlen⟩ := checkCallee_ok hg
    obtain ⟨as, s₂, ha, h2⟩ := bind_ok.1 h1
    obtain ⟨hp, hrec, hargs⟩ := checkArgs_checks u ha
    have htyped := hargs (by rw [List.length_map, hlen])
    split at h2
    · obtain ⟨off, s3, ht, h3⟩ := bind_ok.1 h2
      obtain ⟨rfl, rfl⟩ := takeFrame_ok.1 ht
      obtain ⟨rfl, rfl⟩ := pure_ok.1 h3
      exact ⟨hp.trans (.of_eq rfl rfl rfl), hrec, g, hfind, hentry, rfl, htyped⟩
    · obtain ⟨rfl, rfl⟩ := pure_ok.1 h2
      exact ⟨hp, hrec, g, hfind, hentry, rfl, htyped⟩
  | .method p recv name args, te, s, s', h => by
    rw [checkExpr] at h
    obtain ⟨r, s₁, hr, h1⟩ := bind_ok.1 h
    have hrecv := checkExpr_checks u hr
    obtain ⟨c, s₂, hc, h2⟩ := bind_ok.1 h1
    obtain ⟨rfl, hcap⟩ := checkRecv_ok hc
    obtain ⟨m, s3, hm, h3⟩ := bind_ok.1 h2
    obtain ⟨rfl, hmem, hlen⟩ := checkMethod_ok hm
    obtain ⟨as, s4, ha, h4⟩ := bind_ok.1 h3
    obtain ⟨hp, hrec, hargs⟩ := checkArgs_checks u ha
    obtain ⟨_, s5, hs, h5⟩ := bind_ok.1 h4
    obtain ⟨_, s6, hs', h6⟩ := bind_ok.1 h5
    obtain ⟨hp', hsys⟩ := record_method hmem hs hs'
    obtain ⟨rfl, rfl⟩ := pure_ok.1 h6
    have hp1 := hrecv.passes
    refine ⟨(hp1.trans hp).trans hp', fun k => ⟨⟨hmem, hsys (hp.known (hp1.known k))⟩, ?_⟩, ?_⟩
    · exact .mono hp'.subset (hrec (hp1.known k))
    · exact ⟨hcap, hmem, rfl, hrecv.typed, hp1.scopes ▸ hargs (by rw [List.length_map, hlen])⟩
  | .unary p op a, te, s, s', h => by
    rw [checkExpr] at h
    obtain ⟨a', s₁, ha, h1⟩ := bind_ok.1 h
    have oka := checkExpr_checks u ha
    split at h1
    · rename_i hop
      obtain ⟨a'', s₂, hw, h2⟩ := bind_ok.1 h1
      obtain ⟨rfl, hwd⟩ := want_ok hw
      obtain ⟨rfl, rfl⟩ := pure_ok.1 h2
      obtain ⟨hp, hrec, hty⟩ := oka.wanted hwd
      exact ⟨hp, hrec, hty, .inl ⟨hop, Ty.same_bool hwd.same, rfl⟩⟩
    · rename_i hop
      split at h1
      · rename_i hi
        obtain ⟨rfl, rfl⟩ := pure_ok.1 h1
        exact ⟨oka.passes, oka.recorded, oka.typed, .inr ⟨hop, hi, rfl⟩⟩
      · exact (die_ok.1 h1).elim
  | .binary p op a b, te, s, s', h => by
    rw [checkExpr] at h
    obtain ⟨a', s₁, ha, h1⟩ := bind_ok.1 h
    obtain ⟨b', s₂, hb, h2⟩ := bind_ok.1 h1
    obtain ⟨oka, okb⟩ := (checkExpr_checks u ha).both (checkExpr_checks u hb)
    split at h2
    · rename_i hop
      obtain ⟨a'', s3, hw, h3⟩ := bind_ok.1 h2
      obtain ⟨rfl, hwa⟩ := want_ok hw
      obtain ⟨b'', s4, hw', h4⟩ := bind_ok.1 h3
      obtain ⟨rfl, hwb⟩ := want_ok hw'
      obtain ⟨rfl, rfl⟩ := pure_ok.1 h4
      have oka' := oka.wanted hwa
      have okb' := okb.wanted hwb
      exact ⟨oka.passes, fun k => ⟨oka'.recorded k, okb'.recorded k⟩, oka'.typed, okb'.typed,
        .inl ⟨hop, Ty.same_bool hwa.same, Ty.same_bool hwb.same, rfl⟩⟩
    · rename_i hop
      obtain ⟨rfl, t, rfl, hty⟩ := checkArith_ok h2
      have oka' := oka.litLike b'
      have okb' := okb.litLike a'
      exact ⟨oka.passes, fun k => ⟨oka'.recorded k, okb'.recorded k⟩, oka'.typed, okb'.typed,
        .inr ⟨by simpa using hop, hty⟩⟩
  | .index p a b, te, s, s', h => by
    rw [checkExpr] at h
    obtain ⟨a', s₁, ha, h1⟩ := bind_ok.1 h
    obtain ⟨b', s₂, hb, h2⟩ := bind_ok.1 h1
    obtain ⟨oka, okb⟩ := (checkExpr_checks u ha).both (checkExpr_checks u hb)
    obtain ⟨rfl, t, rfl, hbi, hat⟩ := checkIndex_ok h2
    exact ⟨oka.passes, fun k => ⟨oka.recorded k, okb.recorded k⟩, oka.typed, okb.typed, hbi, hat⟩
  | .field p a name, te, s, s', h => by
    rw [checkExpr] at h
    obtain ⟨a', s₁, ha, h1⟩ := bind_ok.1 h
    obtain ⟨hp, hrec, hty⟩ := checkExpr_checks u ha
    obtain ⟨rfl, hf⟩ := checkField_ok h1
    exact ⟨hp, fun k => (hrec k).fieldOf hf, hty.fieldOf hf⟩
  | .slice p a lo hi, te, s, s', h => by
    rw [checkExpr] at h
    obtain ⟨a', s₁, ha, h1⟩ := bind_ok.1 h
    obtain ⟨b', s₂, hb, h2⟩ := bind_ok.1 h1
    obtain ⟨c', s3, hc, h3⟩ := bind_ok.1 h2
    obtain ⟨oka, okb⟩ := (checkExpr_checks u ha).both (checkExpr_checks u hb)
    have okc := checkExpr_checks u hc
    obtain ⟨_, s4, hs, h4⟩ := bind_ok.1 h3
    obtain ⟨rfl, hsl⟩ := checkSliced_ok hs
    obtain ⟨rfl, rfl⟩ := pure_ok.1 h4
    have oka' := oka.later okc.passes
    have okb' := okb.later okc.passes
    have okc' := okc.after oka.passes
    exact ⟨oka'.passes, fun k => ⟨oka'.recorded k, okb'.recorded k, okc'.recorded k⟩,
      oka'.typed, okb'.typed, okc'.typed, hsl, rfl⟩
  | .sliceToEnd p a lo, te, s, s', h => by
    rw [checkExpr] at h
    obtain ⟨a', s₁, ha, h1⟩ := bind_ok.1 h
    obtain ⟨b', s₂, hb, h2⟩ := bind_ok.1 h1
    obtain ⟨oka, okb⟩ := (checkExpr_checks u ha).both (checkExpr_checks u hb)
    obtain ⟨_, s4, hs, h4⟩ := bind_ok.1 h2
    obtain ⟨rfl, hsl⟩ := checkSliced_ok hs
    obtain ⟨rfl, rfl⟩ := pure_ok.1 h4
    exact ⟨oka.passes, fun k => ⟨oka.recorded k, okb.recorded k⟩, oka.typed, okb.typed, hsl, rfl⟩
  | .addr p a, te, s, s', h => by
    rw [checkExpr] at h
    obtain ⟨a', s₁, ha, h1⟩ := bind_ok.1 h
    obtain ⟨hp, hrec, hty⟩ := checkExpr_checks u ha
    obtain ⟨_, s₂, hl, h2⟩ := bind_ok.1 h1
    obtain ⟨rfl, hlv⟩ := needLvalue_ok hl
    obtain ⟨rfl, rfl⟩ := pure_ok.1 h2
    exact ⟨hp, hrec, hty, hlv, rfl⟩
  | .deref p isAt a, te, s, s', h => by
    rw [checkExpr] at h
    obtain ⟨a', s₁, ha, h1⟩ := bind_ok.1 h
    obtain ⟨hp, hrec, hty⟩ := checkExpr_checks u ha
    obtain ⟨rfl, t, rfl, hat⟩ := checkDeref_ok h1
    exact ⟨hp, hrec, hty, hat⟩
  | .cast p dst a, te, s, s', h => by
    rw [checkExpr] at h
    obtain ⟨a', s₁, ha, h1⟩ := bind_ok.1 h
    obtain ⟨hp, hrec, hty⟩ := checkExpr_checks u ha
    obtain ⟨rfl, rfl, hc⟩ := checkCast_ok h1
    exact ⟨hp, hrec, hty, hc⟩
  | .assign p a b, te, s, s', h => by
    rw [checkExpr] at h
    obtain ⟨a', s₁, ha, h1⟩ := bind_ok.1 h
    obtain ⟨b', s₂, hb, h2⟩ := bind_ok.1 h1
    obtain ⟨oka, okb⟩ := (checkExpr_checks u ha).both (checkExpr_checks u hb)
    obtain ⟨_, s3, hl, h3⟩ := bind_ok.1 h2
    obtain ⟨rfl, hlv⟩ := needLvalue_ok hl
    obtain ⟨b'', s4, hw, h4⟩ := bind_ok.1 h3
    obtain ⟨rfl, hwb⟩ := want_ok hw
    obtain ⟨rfl, rfl⟩ := pure_ok.1 h4
    have okb' := okb.wanted hwb
    exact ⟨oka.passes, fun k => ⟨oka.recorded k, okb'.recorded k⟩, oka.typed, okb'.typed, hlv,
      hwb.same, rfl⟩
  | .variant p t name args, te, s, s', h => by
    rw [checkExpr] at h
    obtain ⟨⟨k, fields⟩, s₁, hv, h1⟩ := bind_ok.1 h
    obtain ⟨rfl, hen, hlen⟩ := checkVariant_ok hv
    obtain ⟨as, s₂, ha, h2⟩ := bind_ok.1 h1
    obtain ⟨hp, hrec, hargs⟩ := checkArgs_checks u ha
    obtain ⟨off, s3, ht, h3⟩ := bind_ok.1 h2
    obtain ⟨rfl, rfl⟩ := takeFrame_ok.1 ht
    obtain ⟨rfl, rfl⟩ := pure_ok.1 h3
    refine ⟨hp.trans (.of_eq rfl rfl rfl), hrec, hen, ?_⟩
    rw [List.map_map]
    exact hargs (by rw [List.length_map, hlen])

theorem checkArgs_checks (u : SavUnit) :
    ∀ {as : List Expr} {ts : List Ty} {what : String} {tas : List TExpr} {s s' : CState},
      checkArgs u as ts what s = .ok (tas, s') → ArgsChecked u s s' as ts tas
  | [], ts, what, tas, s, s', h => by
    rw [checkArgs] at h
    obtain ⟨rfl, rfl⟩ := pure_ok.1 h
    refine ⟨.refl s', fun _ => trivial, fun hl => ?_⟩
    rw [List.length_eq_zero_iff.1 hl.symm]
    trivial
  | a :: as, [], what, tas, s, s', h => by
    rw [checkArgs] at h
    obtain ⟨rfl, rfl⟩ := pure_ok.1 h
    exact ⟨.refl s', fun _ => trivial, nofun⟩
  | a :: as, t :: ts, what, tas, s, s', h => by
    rw [checkArgs] at h
    obtain ⟨a', s₁, ha, h1⟩ := bind_ok.1 h
    obtain ⟨a'', s₂, hw, h2⟩ := bind_ok.1 h1
    obtain ⟨rfl, hwd⟩ := want_ok hw
    obtain ⟨as', s3, has, h3⟩ := bind_ok.1 h2
    obtain ⟨hp, hrec, hargs⟩ := checkArgs_checks u has
    obtain ⟨rfl, rfl⟩ := pure_ok.1 h3
    have oka := (checkExpr_checks u ha).wanted hwd
    refine ⟨oka.passes.trans hp, fun k => ⟨(oka.later hp).recorded k, hrec (oka.passes.known k)⟩,
      fun hl => ⟨⟨oka.typed, hwd.same⟩, oka.passes.scopes ▸ hargs (by simpa using hl)⟩⟩

end

/-! ## Statements -/

theorem grows_declare {f : Fn} {name : String} {t : Ty} {p : Pos} {y : Sym} {s s' : CState}
    (h : declare f name t p s = .ok (y, s')) : Grows s s' := by
  obtain ⟨-, rfl, -⟩ := declare_ok h
  have hframe : Grows s { s with frame := y.offset } := .of_eq rfl rfl
  exact hframe.trans (grows_withSym _ y)

theorem grows_declareBinds {f : Fn} {p : Pos} :
    ∀ {bs : List String} {fs : List (String × Ty × Int)} {r : List (Sym × Int × Ty)}
      {s s' : CState}, declareBinds f p bs fs s = .ok (r, s') → Grows s s'
  | [], _, r, s, s', h | _ :: _, [], r, s, s', h => by
    obtain ⟨-, rfl⟩ := pure_ok.1 h
    exact .refl s'
  | b :: bs, (n, t, off) :: fs, r, s, s', h => by
    rw [declareBinds] at h
    obtain ⟨y, s₁, hd, h1⟩ := bind_ok.1 h
    obtain ⟨rest, s₂, hr, h2⟩ := bind_ok.1 h1
    obtain ⟨-, rfl⟩ := pure_ok.1 h2
    exact (grows_declare hd).trans (grows_declareBinds hr)

theorem checkLet_checks {u : SavUnit} {p : Pos} {name : String} {d : LetDecl} {t : Ty}
    {init : Option TExpr} {s s' : CState} (h : checkLet u p name d s = .ok ((t, init), s')) :
    Passes s s' ∧ (s.Known → RecordedOpt s'.sysUsed init) ∧
      TypedInit u s.scopes.flatten t init := by
  obtain ⟨hl, hn⟩ := checkLet_ok h
  match d, hl with
  | .typed _ none, hl =>
    obtain ⟨-, rfl⟩ := hl
    obtain rfl := hn rfl
    exact ⟨.refl s', fun _ => trivial, trivial⟩
  | .typed _ (some e), hl =>
    obtain ⟨rfl, e1, e2, rfl, he, hw⟩ := hl
    obtain ⟨hp, hrec, ht⟩ := (checkExpr_checks u he).wanted hw
    exact ⟨hp, hrec, ht, .inl hw.same⟩
  | .inferred e, hl =>
    obtain ⟨e1, rfl, he, -, rfl⟩ := hl
    obtain ⟨hp, hrec, ht⟩ := checkExpr_checks u he
    refine ⟨hp, hrec, ht, ?_⟩
    split
    · rename_i hlit
      exact .inr ⟨hlit, rfl⟩
    · exact .inl (Ty.same_refl _)

theorem checkReturn_checks {u : SavUnit} {f : Fn} {p : Pos} {e : Option Expr} {r : Option TExpr}
    {s s' : CState} (h : checkReturn u f p e s = .ok (r, s')) :
    Passes s s' ∧ (s.Known → RecordedOpt s'.sysUsed r) ∧ TypedRet u s.scopes.flatten f.ret r := by
  obtain ⟨hr, hn⟩ := checkReturn_ok h
  match e, hr with
  | none, hr =>
    obtain ⟨hv, rfl⟩ := hr
    obtain rfl := hn rfl
    exact ⟨.refl s', fun _ => trivial, hv⟩
  | some e, hr =>
    obtain ⟨hv, e1, e2, rfl, he, hw⟩ := hr
    obtain ⟨hp, hrec, ht⟩ := (checkExpr_checks u he).wanted hw
    exact ⟨hp, hrec, ht, hw.same, hv⟩

theorem checkCond_checks {u : SavUnit} {e : Expr} {e1 e2 : TExpr} {what : String}
    {s s₁ s₂ : CState} (he : checkExpr u e s = .ok (e1, s₁))
    (hw : want e1 .bool what s₁ = .ok (e2, s₂)) : ExprChecked u s s₂ e2 ∧ e2.ty = .bool := by
  obtain ⟨rfl, hwd⟩ := want_ok hw
  exact ⟨(checkExpr_checks u he).wanted hwd, Ty.same_bool hwd.same⟩

theorem recordBoth {s s₁ s₂ : CState} {a b : Unit} (h1 : recordSyscall 64 s = .ok (a, s₁))
    (h2 : recordSyscall 93 s₁ = .ok (b, s₂)) :
    Passes s s₂ ∧ (s.Known → 64 ∈ s₂.sysUsed ∧ 93 ∈ s₂.sysUsed) := by
  obtain rfl : s₁ = s.withCall 64 := modify_ok.1 h1
  obtain rfl : s₂ = (s.withCall 64).withCall 93 := modify_ok.1 h2
  have g1 : Grows s (s.withCall 64) := grows_withCall (by decide)
  have g2 : Grows (s.withCall 64) ((s.withCall 64).withCall 93) := grows_withCall (by decide)
  exact ⟨⟨g1.trans g2, by simp⟩, fun k => ⟨g2.subset (mem_withCall k (by decide)),
    mem_withCall (g1.known k) (by decide)⟩⟩

/-- What is known of a statement that was accepted between two states. -/
structure StmtChecked (u : SavUnit) (f : Fn) (s s' : CState) (st : Stmt) (ts : TStmt) : Prop where
  grows : Grows s s'
  recorded : s.Known → RecordedStmt s'.sysUsed (s.loopDepth ≠ 0) ts
  matched : Matched ts
  typed : st.shaped = true → s.Open → Opens s s' ts.declares ∧ TypedStmt u f.ret s.scopes.flatten ts

structure StmtsChecked (u : SavUnit) (f : Fn) (s s' : CState) (ss : List Stmt)
    (ts : List TStmt) : Prop where
  grows : Grows s s'
  recorded : s.Known → RecordedStmts s'.sysUsed (s.loopDepth ≠ 0) ts
  matched : MatchedAll ts
  typed : Stmt.shapedAll ss = true → s.Open →
    Opens s s' (declaresAll ts) ∧ TypedStmts u f.ret s.scopes.flatten ts

structure ArmsChecked (u : SavUnit) (f : Fn) (s s' : CState) (arms : List (ArmHead × Stmt))
    (arms' : List (TArm × TStmt)) : Prop where
  grows : Grows s s'
  recorded : s.Known → RecordedArms s'.sysUsed (s.loopDepth ≠ 0) arms'
  matched : MatchedArms arms'
  typed : Stmt.shapedArms arms = true → s.Open →
    s'.scopes = s.scopes ∧ TypedArms u f.ret s.scopes.flatten arms'

/-- An arm before others: `s₁` is where its names are in scope, `s₂` the end of its body. -/
theorem ArmsChecked.arm {u : SavUnit} {f : Fn} {s s₁ s₂ s' : CState} {head : ArmHead} {h : TArm}
    {body : Stmt} {b : TStmt} {rest : List (ArmHead × Stmt)} {rest' : List (TArm × TStmt)}
    (hin : Grows s s₁) (hopen : s₁.Open ∧ (∀ ds, Opens s₁ s₂ ds → s₂.scopes.tail = s.scopes) ∧
      s₁.scopes.flatten = h.declares ++ s.scopes.flatten) (hb : StmtChecked u f s₁ s₂ body b)
    (hr : ArmsChecked u f { s₂ with scopes := s₂.scopes.tail } s' rest rest') :
    ArmsChecked u f s s' ((head, body) :: rest) ((h, b) :: rest') := by
  obtain ⟨ho1, htail, hflat⟩ := hopen
  have hout : Grows s₂ { s₂ with scopes := s₂.scopes.tail } := .of_eq rfl rfl
  have hgr := (hin.trans hb.grows).trans hout
  refine ⟨hgr.trans hr.grows, fun k => ⟨?_, hgr.loop ▸ hr.recorded (hgr.known k)⟩,
    ⟨hb.matched, hr.matched⟩, fun hsh ho => ?_⟩
  · exact (hb.recorded (hin.known k)).mono (hout.trans hr.grows).subset (hin.loop ▸ id)
  · simp only [Stmt.shapedArms, Bool.and_eq_true] at hsh
    obtain ⟨hop, htb⟩ := hb.typed hsh.1 ho1
    have hs := htail _ hop
    have ho2 : CState.Open { s₂ with scopes := s₂.scopes.tail } := hs ▸ ho
    obtain ⟨hs', htr⟩ := hr.typed hsh.2 ho2
    dsimp only at hs' htr
    rw [hs] at hs' htr
    exact ⟨hs', hflat ▸ htb, htr⟩

mutual

theorem checkStmt_checks (u : SavUnit) (f : Fn) : ∀ {st : Stmt} {ts : TStmt} {s s' : CState},
    checkStmt u f st s = .ok (ts, s') → StmtChecked u f s s' st ts
  | .block ss, ts, s, s', h => by
    rw [checkStmt] at h
    obtain ⟨_, s₁, hp, h1⟩ := bind_ok.1 h
    obtain rfl := modify_ok.1 hp
    obtain ⟨ss', s₂, hs, h2⟩ := bind_ok.1 h1
    obtain ⟨hgr, hrec, hmat, hty⟩ := checkStmts_checks u f hs
    obtain ⟨_, s3, hq, h3⟩ := bind_ok.1 h2
    obtain rfl := modify_ok.1 hq
    obtain ⟨rfl, rfl⟩ := pure_ok.1 h3
    have hin : Grows s { s with scopes := [] :: s.scopes } := .of_eq rfl rfl
    refine ⟨(hin.trans hgr).trans (.of_eq rfl rfl), fun k => hrec (hin.known k), hmat,
      fun hsh ho => ?_⟩
    obtain ⟨hop, hts⟩ := hty hsh (List.cons_ne_nil _ _)
    exact ⟨.of_same ho (hop.tail rfl), hts⟩
  | .letS p isVar name d, ts, s, s', h => by
    rw [checkStmt] at h
    obtain ⟨⟨t, init⟩, s₁, hl, h1⟩ := bind_ok.1 h
    obtain ⟨hp, hrec, hti⟩ := checkLet_checks hl
    dsimp only at h1
    split at h1
    · exact (die_ok.1 h1).elim
    · obtain ⟨y, s₂, hd, h2⟩ := bind_ok.1 h1
      obtain ⟨rfl, rfl⟩ := pure_ok.1 h2
      have hgr := grows_declare hd
      refine ⟨hp.toGrows.trans hgr, fun k => RecordedOpt.mono hgr.subset (hrec k), trivial,
        fun _ ho => ?_⟩
      have hop1 := Opens.of_same ho hp.scopes
      obtain ⟨hop, hty⟩ := declare_opens hop1.open hd
      refine ⟨hop1.trans hop, ?_⟩
      change TypedInit u _ y.ty init
      rw [hty]
      exact hti
  | .expr e, ts, s, s', h => by
    rw [checkStmt] at h
    obtain ⟨e', s₁, he, h1⟩ := bind_ok.1 h
    obtain ⟨rfl, rfl⟩ := pure_ok.1 h1
    obtain ⟨hp, hrec, ht⟩ := checkExpr_checks u he
    exact ⟨hp.toGrows, hrec, trivial, fun _ ho => ⟨Opens.of_same ho hp.scopes, ht⟩⟩
  | .ifS c t, ts, s, s', h => by
    rw [checkStmt] at h
    obtain ⟨c1, s₁, hc, h1⟩ := bind_ok.1 h
    obtain ⟨c2, s₂, hw, h2⟩ := bind_ok.1 h1
    obtain ⟨⟨hp, hrc, htc⟩, hbool⟩ := checkCond_checks hc hw
    obtain ⟨t', s3, ht, h3⟩ := bind_ok.1 h2
    obtain ⟨hgr, hrt, hmt, htt⟩ := checkStmt_checks u f ht
    obtain ⟨rfl, rfl⟩ := pure_ok.1 h3
    refine ⟨hp.toGrows.trans hgr, fun k => ⟨(hrc k).mono hgr.subset, hp.loop ▸ hrt (hp.known k)⟩,
      hmt, fun hsh ho => ?_⟩
    simp only [Stmt.shaped, Bool.and_eq_true] at hsh
    have hop1 := Opens.of_same ho hp.scopes
    obtain ⟨hop, htt⟩ := htt hsh.2 hop1.open
    rw [checkStmt_declares (.inl hsh.1) ht] at hop
    exact ⟨hop1.trans hop, ⟨htc, hbool⟩, hp.scopes ▸ htt⟩
  | .ifElse c t e, ts, s, s', h => by
    rw [checkStmt] at h
    obtain ⟨c1, s₁, hc, h1⟩ := bind_ok.1 h
    obtain ⟨c2, s₂, hw, h2⟩ := bind_ok.1 h1
    obtain ⟨⟨hp, hrc, htc⟩, hbool⟩ := checkCond_checks hc hw
    obtain ⟨t', s3, ht, h3⟩ := bind_ok.1 h2
    obtain ⟨hgr2, hrt, hmt, htt⟩ := checkStmt_checks u f ht
    obtain ⟨e', s4, he, h4⟩ := bind_ok.1 h3
    obtain ⟨hgr3, hre, hme, hte⟩ := checkStmt_checks u f he
    obtain ⟨rfl, rfl⟩ := pure_ok.1 h4
    have hgr := hp.toGrows.trans hgr2
    refine ⟨hgr.trans hgr3, fun k => ⟨?_, ?_, ?_⟩, ⟨hmt, hme⟩, fun hsh ho => ?_⟩
    · exact (hrc k).mono (hgr2.trans hgr3).subset
    · exact (hrt (hp.known k)).mono hgr3.subset (hp.loop ▸ id)
    · exact hgr.loop ▸ hre (hgr.known k)
    · simp only [Stmt.shaped, Bool.and_eq_true, Bool.or_eq_true] at hsh
      have hop1 := Opens.of_same ho hp.scopes
      obtain ⟨hop2, htt⟩ := htt hsh.1.1.2 hop1.open
      rw [checkStmt_declares (.inl hsh.1.1.1) ht] at hop2
      obtain ⟨hop3, hte⟩ := hte hsh.2 hop2.open
      rw [checkStmt_declares hsh.1.2 he] at hop3
      rw [hop2.scopes, hp.scopes] at hte
      exact ⟨(hop1.trans hop2).trans hop3, ⟨htc, hbool⟩, hp.scopes ▸ htt, hte⟩
  | .whileS c b, ts, s, s', h => by
    rw [checkStmt] at h
    obtain ⟨c1, s₁, hc, h1⟩ := bind_ok.1 h
    obtain ⟨c2, s₂, hw, h2⟩ := bind_ok.1 h1
    obtain ⟨⟨hp, hrc, htc⟩, hbool⟩ := checkCond_checks hc hw
    obtain ⟨_, s3, hl, h3⟩ := bind_ok.1 h2
    obtain rfl := modify_ok.1 hl
    obtain ⟨b', s4, hb, h4⟩ := bind_ok.1 h3
    obtain ⟨hgr, hrb, hmb, htb⟩ := checkStmt_checks u f hb
    obtain ⟨_, s5, hq, h5⟩ := bind_ok.1 h4
    obtain rfl := modify_ok.1 hq
    obtain ⟨rfl, rfl⟩ := pure_ok.1 h5
    refine ⟨hp.toGrows.trans hgr.of_body, fun k => ⟨(hrc k).mono hgr.subset, ?_⟩, hmb,
      fun hsh ho => ?_⟩
    · have k2 := hp.known k
      exact (hrb ⟨k2.nodup, k2.subset⟩).mono (fun _ h => h) fun _ => trivial
    · simp only [Stmt.shaped, Bool.and_eq_true] at hsh
      have hop1 : Opens s { s₂ with loopDepth := s₂.loopDepth + 1 } [] := .of_same ho hp.scopes
      obtain ⟨hop2, htb⟩ := htb hsh.2 hop1.open
      rw [checkStmt_declares (.inl hsh.1) hb] at hop2
      rw [hop1.scopes] at htb
      exact ⟨(hop1.trans hop2).same rfl, ⟨htc, hbool⟩, htb⟩
  | .forS p name lo hi b, ts, s, s', h => by
    rw [checkStmt] at h
    obtain ⟨lo', s₁, hlo, h1⟩ := bind_ok.1 h
    obtain ⟨hi', s₂, hhi, h2⟩ := bind_ok.1 h1
    obtain ⟨⟨hp, hrlo, htlo⟩, -, hrhi, hthi⟩ :=
      (checkExpr_checks u hlo).both (checkExpr_checks u hhi)
    split at h2
    · exact (die_ok.1 h2).elim
    · rename_i hint
      simp only [Bool.or_eq_true, Bool.not_eq_true', not_or, Bool.not_eq_false] at hint
      obtain ⟨_, s3, hpush, h3⟩ := bind_ok.1 h2
      obtain rfl := modify_ok.1 hpush
      obtain ⟨y, s4, hd, h4⟩ := bind_ok.1 h3
      have hin : Grows s₂ { s₂ with scopes := [] :: s₂.scopes } := .of_eq rfl rfl
      have hgr3 := hin.trans (grows_declare hd)
      obtain ⟨_, s5, hl, h5⟩ := bind_ok.1 h4
      obtain rfl := modify_ok.1 hl
      obtain ⟨b', s6, hb, h6⟩ := bind_ok.1 h5
      obtain ⟨hgr4, hrb, hmb, htb⟩ := checkStmt_checks u f hb
      obtain ⟨_, s7, hq, h7⟩ := bind_ok.1 h6
      obtain rfl := modify_ok.1 hq
      obtain ⟨_, s8, hq', h8⟩ := bind_ok.1 h7
      obtain rfl := modify_ok.1 hq'
      obtain ⟨rfl, rfl⟩ := pure_ok.1 h8
      have hgr := hgr3.trans hgr4.of_body
      refine ⟨(hp.toGrows.trans hgr).trans (.of_eq rfl rfl), fun k => ⟨?_, ?_, ?_⟩, hmb,
        fun hsh ho => ?_⟩
      · exact ((hrlo k).mono hgr.subset).setTy .i64
      · exact ((hrhi k).mono hgr.subset).setTy .i64
      · have k4 := hgr3.known (hp.known k)
        exact (hrb ⟨k4.nodup, k4.subset⟩).mono (fun _ h => h) fun _ => trivial
      · simp only [Stmt.shaped, Bool.and_eq_true] at hsh
        have hopen : CState.Open { s₂ with scopes := [] :: s₂.scopes } := List.cons_ne_nil _ _
        obtain ⟨hop1, hty⟩ := declare_opens hopen hd
        have hop2 : Opens { s₂ with scopes := [] :: s₂.scopes }
            { s4 with loopDepth := s4.loopDepth + 1 } [y] := hop1.same rfl
        obtain ⟨hop3, htb⟩ := htb hsh.2 hop2.open
        have hout := (hop2.trans hop3).tail rfl
        rw [hop2.flatten] at htb
        exact ⟨.of_same ho (hout.trans hp.scopes), ⟨lo', rfl, htlo, hint.1⟩,
          ⟨hi', rfl, hthi, hint.2⟩, hty, by simpa [hp.scopes] using htb⟩
  | .ret p e, ts, s, s', h => by
    rw [checkStmt] at h
    obtain ⟨e', s₁, he, h1⟩ := bind_ok.1 h
    obtain ⟨rfl, rfl⟩ := pure_ok.1 h1
    obtain ⟨hp, hrec, ht⟩ := checkReturn_checks he
    exact ⟨hp.toGrows, hrec, trivial, fun _ ho => ⟨.of_same ho hp.scopes, ht⟩⟩
  | .brk p, ts, s, s', h | .cont p, ts, s, s', h => by
    rw [checkStmt] at h
    obtain ⟨_, s₁, hn, h1⟩ := bind_ok.1 h
    obtain ⟨rfl, hl⟩ := needLoop_ok hn
    obtain ⟨rfl, rfl⟩ := pure_ok.1 h1
    exact ⟨.refl s', fun _ => hl, trivial, fun _ ho => ⟨.of_same ho rfl, trivial⟩⟩
  | .assert p c text, ts, s, s', h => by
    rw [checkStmt] at h
    obtain ⟨c1, s₁, hc, h1⟩ := bind_ok.1 h
    obtain ⟨c2, s₂, hw, h2⟩ := bind_ok.1 h1
    obtain ⟨⟨hp, hrc, htc⟩, hbool⟩ := checkCond_checks hc hw
    change Fallible.run _ s₂ = _ at h2
    split at h2
    · exact (die_ok.1 h2).elim
    · split at h2
      · exact (die_ok.1 h2).elim
      · obtain ⟨_, s3, h64, h3⟩ := bind_ok.1 h2
        obtain ⟨_, s4, h93, h4⟩ := bind_ok.1 h3
        obtain ⟨hp2, hboth⟩ := recordBoth h64 h93
        obtain ⟨rfl, rfl⟩ := pure_ok.1 h4
        have hp' := hp.trans hp2
        exact ⟨hp'.toGrows, fun k => ⟨(hrc k).mono hp2.subset, hboth (hp.known k)⟩, trivial,
          fun _ ho => ⟨.of_same ho hp'.scopes, htc, hbool⟩⟩
  | .matchS p e arms, ts, s, s', h => by
    rw [checkStmt] at h
    obtain ⟨e', s₁, he, h1⟩ := bind_ok.1 h
    obtain ⟨hp, hre, hte⟩ := checkExpr_checks u he
    change Fallible.run _ s₁ = _ at h1
    split at h1
    · rename_i en vs sz hen
      obtain ⟨off, s₂, ht, h2⟩ := bind_ok.1 h1
      obtain ⟨rfl, rfl⟩ := takeFrame_ok.1 ht
      obtain ⟨⟨arms', seen, hasElse⟩, s3, ha, h3⟩ := bind_ok.1 h2
      obtain ⟨hgr, hra, hma, hta⟩ := checkArms_checks u f ha
      obtain ⟨_, s4, hl, h4⟩ := bind_ok.1 h3
      have hchosen := chosen_of_checked ha hl
      obtain rfl := checkLeftOver_ok hl
      obtain ⟨rfl, rfl⟩ := pure_ok.1 h4
      have hin : Passes s { s₁ with frame := s₁.frame + 8 } := hp.trans (.of_eq rfl rfl rfl)
      refine ⟨hin.toGrows.trans hgr, fun k => ⟨(hre k).mono hgr.subset, ?_⟩,
        ⟨⟨en, vs, sz, hen, hchosen⟩, hma⟩, fun hsh ho => ?_⟩
      · exact hin.loop ▸ hra (hin.known k)
      · have hop := Opens.of_same ho hin.scopes
        obtain ⟨hs, hta⟩ := hta hsh hop.open
        exact ⟨hop.same hs, hte, ⟨en, vs, sz, hen⟩, hin.scopes ▸ hta⟩
    · exact (die_ok.1 h1).elim

theorem checkStmts_checks (u : SavUnit) (f : Fn) :
    ∀ {ss : List Stmt} {ts : List TStmt} {s s' : CState}, checkStmts u f ss s = .ok (ts, s') →
      StmtsChecked u f s s' ss ts
  | [], ts, s, s', h => by
    rw [checkStmts] at h
    obtain ⟨rfl, rfl⟩ := pure_ok.1 h
    exact ⟨.refl s', fun _ => trivial, trivial, fun _ ho => ⟨.of_same ho rfl, trivial⟩⟩
  | st :: ss, ts, s, s', h => by
    rw [checkStmts] at h
    obtain ⟨t, s₁, ht, h1⟩ := bind_ok.1 h
    obtain ⟨hgr1, hrt, hmt, htt⟩ := checkStmt_checks u f ht
    obtain ⟨ts', s₂, hts, h2⟩ := bind_ok.1 h1
    obtain ⟨hgr2, hrts, hmts, htts⟩ := checkStmts_checks u f hts
    obtain ⟨rfl, rfl⟩ := pure_ok.1 h2
    refine ⟨hgr1.trans hgr2, fun k => ⟨(hrt k).mono hgr2.subset id, hgr1.loop ▸ hrts (hgr1.known k)⟩,
      ⟨hmt, hmts⟩, fun hsh ho => ?_⟩
    simp only [Stmt.shapedAll, Bool.and_eq_true] at hsh
    obtain ⟨hop1, htt⟩ := htt hsh.1 ho
    obtain ⟨hop2, htts⟩ := htts hsh.2 hop1.open
    exact ⟨hop1.trans hop2, htt, hop1.flatten ▸ htts⟩

theorem checkArms_checks (u : SavUnit) (f : Fn) {en : String}
    {vs : List (String × List (String × Ty × Int))} :
    ∀ {arms : List (ArmHead × Stmt)} {seen : List Nat} {hasElse : Bool}
      {r : List (TArm × TStmt) × List Nat × Bool} {s s' : CState},
      checkArms u f en vs seen hasElse arms s = .ok (r, s') → ArmsChecked u f s s' arms r.1
  | [], seen, hasElse, r, s, s', h => by
    rw [checkArms] at h
    obtain ⟨rfl, rfl⟩ := pure_ok.1 h
    exact ⟨.refl s', fun _ => trivial, trivial, fun _ _ => ⟨rfl, trivial⟩⟩
  | (.otherwise p, body) :: rest, seen, hasElse, r, s, s', h => by
    rw [checkArms] at h
    split at h
    · exact (die_ok.1 h).elim
    · obtain ⟨_, s₁, hp, h1⟩ := bind_ok.1 h
      obtain rfl := modify_ok.1 hp
      have hin : Grows s { s with scopes := [] :: s.scopes } := .of_eq rfl rfl
      obtain ⟨b, s₂, hb, h2⟩ := bind_ok.1 h1
      obtain ⟨_, s3, hq, h3⟩ := bind_ok.1 h2
      obtain rfl := modify_ok.1 hq
      obtain ⟨⟨rest', seen', he⟩, s4, hr, h4⟩ := bind_ok.1 h3
      obtain ⟨rfl, rfl⟩ := pure_ok.1 h4
      exact .arm hin ⟨List.cons_ne_nil _ _, fun _ hop => hop.tail rfl, rfl⟩
        (checkStmt_checks u f hb) (checkArms_checks u f hr)
  | (.case p name binds, body) :: rest, seen, hasElse, r, s, s', h => by
    rw [checkArms] at h
    split at h
    · exact (die_ok.1 h).elim
    · obtain ⟨⟨k, fields⟩, s0, hc, h0⟩ := bind_ok.1 h
      obtain rfl := checkArmCase_ok hc
      obtain ⟨_, s₁, hp, h1⟩ := bind_ok.1 h0
      obtain rfl := modify_ok.1 hp
      obtain ⟨bs, s₁, hbs, h1⟩ := bind_ok.1 h1
      have hin : Grows s0 s₁ :=
        (.of_eq rfl rfl : Grows s0 { s0 with scopes := [] :: s0.scopes }).trans
          (grows_declareBinds hbs)
      obtain ⟨b, s₂, hb, h2⟩ := bind_ok.1 h1
      obtain ⟨_, s3, hq, h3⟩ := bind_ok.1 h2
      obtain rfl := modify_ok.1 hq
      obtain ⟨⟨rest', seen', he⟩, s4, hr, h4⟩ := bind_ok.1 h3
      obtain ⟨rfl, rfl⟩ := pure_ok.1 h4
      have hopen : CState.Open { s0 with scopes := [] :: s0.scopes } := List.cons_ne_nil _ _
      have hop := declareBinds_opens hopen hbs
      exact .arm hin ⟨hop.open, fun _ hop2 => (hop.trans hop2).tail rfl, hop.flatten⟩
        (checkStmt_checks u f hb) (checkArms_checks u f hr)

end

/-! ## Functions and units -/

theorem checkContract_checks {u : SavUnit} {f : Fn} {b : Bool} {k : Contract} {t : TContract}
    {s s' : CState} (h : checkContract u f b k s = .ok (t, s')) : ExprChecked u s s' t.expr := by
  unfold checkContract at h
  obtain ⟨e, s₁, he, h1⟩ := bind_ok.1 h
  split at h1
  · exact (die_ok.1 h1).elim
  · change Fallible.run _ s₁ = _ at h1
    split at h1
    · exact (die_ok.1 h1).elim
    · split at h1
      · exact (die_ok.1 h1).elim
      · split at h1
        · exact (die_ok.1 h1).elim
        · obtain ⟨rfl, rfl⟩ := pure_ok.1 h1
          exact checkExpr_checks u he

/-- What is known of the clauses of a function. -/
structure ContractsChecked (u : SavUnit) (s s' : CState) (ks : List Contract)
    (ts : List TContract) : Prop where
  passes : Passes s s'
  checked : ∀ k ∈ ts, ExprChecked u s s' k.expr
  length : ts.length = ks.length

theorem checkContracts_checks {u : SavUnit} {f : Fn} {b : Bool} :
    ∀ {ks : List Contract} {ts : List TContract} {s s' : CState},
      checkContracts u f b ks s = .ok (ts, s') → ContractsChecked u s s' ks ts
  | [], ts, s, s', h => by
    obtain ⟨rfl, rfl⟩ := pure_ok.1 h
    exact ⟨.refl s', nofun, rfl⟩
  | k :: ks, ts, s, s', h => by
    rw [checkContracts] at h
    obtain ⟨t, s₁, ht, h1⟩ := bind_ok.1 h
    obtain ⟨ts', s₂, hts, h2⟩ := bind_ok.1 h1
    have ok := checkContract_checks ht
    obtain ⟨hp, hks, hlen⟩ := checkContracts_checks hts
    obtain ⟨rfl, rfl⟩ := pure_ok.1 h2
    refine ⟨ok.passes.trans hp, fun q hq => ?_, by simp [hlen]⟩
    rcases mem_cons.1 hq with rfl | hq
    · exact ok.later hp
    · exact .after ok.passes (hks q hq)

theorem checkParams_checks {f : Fn} :
    ∀ {ps : List (String × Ty)} {regs : Nat} {qs : List Param} {s s' : CState},
      checkParams f regs ps s = .ok (qs, s') → Grows s s' ∧ qs.map (fun q => (q.name, q.ty)) = ps ∧
        (s.Open → Opens s s' (qs.map Param.sym).reverse)
  | [], regs, qs, s, s', h => by
    obtain ⟨rfl, rfl⟩ := pure_ok.1 h
    exact ⟨.refl s', rfl, fun ho => .of_same ho rfl⟩
  | (name, t) :: ps, regs, qs, s, s', h => by
    rw [checkParams] at h
    split at h
    · exact (die_ok.1 h).elim
    · split at h
      · exact (die_ok.1 h).elim
      · split at h
        · exact (die_ok.1 h).elim
        · split at h
          · exact (die_ok.1 h).elim
          · obtain ⟨off, s₁, ht, h1⟩ := bind_ok.1 h
            obtain ⟨rfl, rfl⟩ := takeFrame_ok.1 ht
            obtain ⟨_, s₂, ha, h2⟩ := bind_ok.1 h1
            obtain rfl := modify_ok.1 ha
            obtain ⟨rest, s3, hr, h3⟩ := bind_ok.1 h2
            obtain ⟨hgr, hmap, hop2⟩ := checkParams_checks hr
            obtain ⟨rfl, rfl⟩ := pure_ok.1 h3
            have hframe : Grows s { s with frame := s.frame + slotSize t } := .of_eq rfl rfl
            refine ⟨(hframe.trans (grows_withSym _ _)).trans hgr, by rw [List.map_cons, hmap],
              fun ho => ?_⟩
            obtain ⟨sc, sr, hs⟩ := List.exists_cons_of_ne_nil ho
            have hop1 : Opens s (CState.withSym { s with frame := s.frame + slotSize t }
                ⟨.param, name, t, s.frame + slotSize t⟩) [⟨.param, name, t, s.frame + slotSize t⟩] :=
              ⟨sc, sr, hs, by simp [CState.withSym, hs]⟩
            simpa [Param.sym] using hop1.trans (hop2 hop1.open)

theorem checkResult_checks {f : Fn} {off : Int} {rs : List Sym} {s s' : CState}
    (h : checkResult f s = .ok ((off, rs), s')) : Passes s s' ∧ ∀ y ∈ rs, y.ty = f.ret := by
  unfold checkResult at h
  change Fallible.run _ s = _ at h
  split at h
  · obtain ⟨hp, rfl⟩ := pure_ok.1 h
    obtain ⟨-, rfl⟩ := Prod.mk.inj hp
    exact ⟨.refl s', by simp⟩
  · split at h
    · exact (die_ok.1 h).elim
    · obtain ⟨off', s₁, ht, h1⟩ := bind_ok.1 h
      obtain ⟨rfl, rfl⟩ := takeFrame_ok.1 ht
      change Fallible.run _ _ = _ at h1
      split at h1
      · obtain ⟨hp, rfl⟩ := pure_ok.1 h1
        obtain ⟨-, rfl⟩ := Prod.mk.inj hp
        exact ⟨.of_eq rfl rfl rfl, by simp⟩
      · obtain ⟨hp, rfl⟩ := pure_ok.1 h1
        obtain ⟨-, rfl⟩ := Prod.mk.inj hp
        exact ⟨.of_eq rfl rfl rfl, by simp⟩

theorem recordFails_checks {f : Fn} {s s' : CState} {a : Unit} (h : recordFails f s = .ok (a, s')) :
    Passes s s' ∧ (s.Known → f.req ≠ [] ∨ f.ens ≠ [] → 64 ∈ s'.sysUsed ∧ 93 ∈ s'.sysUsed) := by
  unfold recordFails Fallible.onlyIf at h
  split at h
  · obtain ⟨_, s₁, h64, h93⟩ := bind_ok.1 h
    obtain ⟨hp, hboth⟩ := recordBoth h64 h93
    exact ⟨hp, fun k _ => hboth k⟩
  · rename_i hc
    simp only [Bool.or_eq_true, Bool.not_eq_true', not_or, Bool.not_eq_false,
      List.isEmpty_iff] at hc
    obtain ⟨-, rfl⟩ := pure_ok.1 h
    exact ⟨.refl _, fun _ hne => (hne.elim (· hc.1) (· hc.2)).elim⟩

theorem checkSret_passes {f : Fn} {s s' : CState} {n : Int} (h : checkSret f s = .ok (n, s')) :
    Passes s s' := by
  unfold checkSret at h
  split at h
  · exact (takeFrame_ok.1 h).2 ▸ .of_eq rfl rfl rfl
  · exact (pure_ok.1 h).2 ▸ .refl s

/-- What is known of a function: its calls are recorded, and it is well typed where the scopes are
empty before it. -/
structure FnChecked (u : SavUnit) (s s' : CState) (f : Fn) (t : TFn) : Prop where
  grows : Grows s s'
  recorded : s.loopDepth = 0 → s.Known → RecordedFn s'.sysUsed t
  typed : f.body.shaped = true → s.scopes = [] → s'.scopes = [] ∧ TypedFn u f t

theorem checkFn_checks {u : SavUnit} {f : Fn} {t : TFn} {s s' : CState}
    (h : checkFn u f s = .ok (t, s')) : FnChecked u s s' f t := by
  obtain ⟨s₁, s₂, s3, s4, s5, s6, s7, rs, st⟩ := checkFn_ok h
  have hin : Grows s { s with file := f.file, frame := 0, scopes := [] :: s.scopes } :=
    Grows.of_eq rfl rfl
  obtain ⟨g1, hparams, hop1⟩ := checkParams_checks st.params
  obtain ⟨p3, hrs⟩ := checkResult_checks st.result
  have p3 := (checkSret_passes st.sret).trans p3
  obtain ⟨p4, hreq, hlr⟩ := checkContracts_checks st.req
  obtain ⟨p5, hens, hle⟩ := checkContracts_checks st.ens
  obtain ⟨p6, hfail⟩ := recordFails_checks st.fails
  have body := checkStmt_checks u f st.body
  have g3 := (hin.trans g1).trans p3.toGrows
  have g4 : Grows s4 { s4 with scopes := rs :: s4.scopes } := .of_eq rfl rfl
  have g5 : Grows s5 { s5 with scopes := s5.scopes.tail } := .of_eq rfl rfl
  have g8 : Grows s7 s' := st.after ▸ Grows.of_eq rfl rfl
  have gpost : Grows s5 s' := ((g5.trans p6.toGrows).trans body.grows).trans g8
  have gens : Grows s4 s5 := g4.trans p5.toGrows
  have gpre := g3.trans p4.toGrows
  refine ⟨(gpre.trans gens).trans gpost, fun hl k => ?_, fun hsh hs => ?_⟩
  · have k4 := gpre.known k
    have k5 := g5.known (gens.known k4)
    have hdepth : ¬ (s6.loopDepth ≠ 0) := by
      rw [(((gpre.trans gens).trans g5).trans p6.toGrows).loop, hl]
      simp
    refine ⟨fun q hq => ?_, fun q hq => ?_, fun hc => ?_, ?_⟩
    · exact ((hreq q hq).recorded (g3.known k)).mono (gens.trans gpost).subset
    · exact ((hens q hq).recorded (g4.known k4)).mono gpost.subset
    · have hc' : f.req ≠ [] ∨ f.ens ≠ [] := by
        refine hc.imp (fun h he => h ?_) (fun h he => h ?_)
        · rw [← List.length_eq_zero_iff, hlr, he, List.length_nil]
        · rw [← List.length_eq_zero_iff, hle, he, List.length_nil]
      have := hfail k5 hc'
      exact ⟨(body.grows.trans g8).subset this.1, (body.grows.trans g8).subset this.2⟩
    · exact (body.recorded (p6.known k5)).mono g8.subset hdepth
  · have hop1 := hop1 (List.cons_ne_nil _ _)
    have hs1 : s₁.scopes.flatten = t.scope := by
      rw [hop1.flatten, hs]
      simp [TFn.scope]
    have hs6 : s6.scopes = s₁.scopes := by
      rw [p6.scopes]
      dsimp only
      rw [p5.scopes]
      exact p4.scopes.trans p3.scopes
    have hop6 := hop1.same hs6
    obtain ⟨hop7, hbody⟩ := body.typed hsh hop6.open
    refine ⟨?_, st.name, st.entry, st.ret, hparams, fun q hq => ?_, ⟨rs, ?_, fun q hq => ?_⟩, ?_,
      fun hv => ?_⟩
    · rw [st.after]
      exact ((hop6.trans hop7).tail rfl).trans hs
    · rw [← hs1, ← p3.scopes]
      exact (hreq q hq).typed
    · rw [st.ret]
      exact hrs
    · have hfl : (rs :: s4.scopes).flatten = rs ++ t.scope := by
        rw [List.flatten_cons, p4.scopes, p3.scopes, hs1]
      rw [← hfl]
      exact (hens q hq).typed
    · rw [st.ret, ← hs1, ← hs6]
      exact hbody
    · rw [st.ret] at hv
      exact checkStmt_returns u f st.body (st.returns hv)

theorem checkFns_checks {u : SavUnit} :
    ∀ {fs : List Fn} {ts : List TFn} {s s' : CState}, checkFns u fs s = .ok (ts, s') →
      Grows s s' ∧ (s.loopDepth = 0 → s.Known → ∀ t ∈ ts, RecordedFn s'.sysUsed t) ∧
      ((∀ f ∈ fs, f.body.shaped = true) → s.scopes = [] → List.Forall₂ (TypedFn u) fs ts)
  | [], ts, s, s', h => by
    obtain ⟨rfl, rfl⟩ := pure_ok.1 h
    exact ⟨.refl s', fun _ _ => nofun, fun _ _ => .nil⟩
  | f :: fs, ts, s, s', h => by
    rw [checkFns] at h
    obtain ⟨t, s₁, ht, h1⟩ := bind_ok.1 h
    obtain ⟨ts', s₂, hts, h2⟩ := bind_ok.1 h1
    obtain ⟨hgr1, hrt, htt⟩ := checkFn_checks ht
    obtain ⟨hgr2, hrts, htts⟩ := checkFns_checks hts
    obtain ⟨rfl, rfl⟩ := pure_ok.1 h2
    refine ⟨hgr1.trans hgr2, fun hl hk q hq => ?_, fun hsh hs => ?_⟩
    · rcases mem_cons.1 hq with rfl | hq
      · exact (hrt hl hk).mono hgr2.subset
      · exact hrts (hgr1.loop.trans hl) (hgr1.known hk) q hq
    · obtain ⟨hs1, htf⟩ := htt (hsh f (.head _)) hs
      exact .cons htf (htts (fun g hg => hsh g (.tail _ hg)) hs1)

theorem checkUnit_recorded {u : SavUnit} {t : TUnit}
    (h : checkUnit file u = .ok t) : RecordedUnit t := by
  obtain ⟨s₂, hu⟩ := checkUnit_ok h
  obtain ⟨hgr, hrec, -⟩ := checkFns_checks hu.fns
  have k0 : CState.Known ⟨file, 0, [], 0, [], []⟩ := ⟨List.nodup_nil, by simp⟩
  have g93 : Grows s₂ (s₂.withCall 93) := grows_withCall (by decide)
  have k2 := hgr.known k0
  have k3 := g93.known k2
  refine ⟨?_, ?_, ?_, fun f hf => ?_⟩
  · rw [hu.calls]
    exact k3.nodup
  · rw [hu.calls]
    exact k3.subset
  · rw [hu.calls]
    exact mem_withCall k2 (by decide)
  · rw [hu.calls]
    exact (hrec rfl k0 f hf).mono g93.subset

theorem checkUnit_typed {u : SavUnit} {t : TUnit} (hsh : u.shaped = true)
    (h : checkUnit file u = .ok t) : List.Forall₂ (TypedFn u) u.fns t.fns := by
  obtain ⟨s₂, hu⟩ := checkUnit_ok h
  obtain ⟨-, -, htyped⟩ := checkFns_checks hu.fns
  refine htyped (fun f hf => ?_) rfl
  have hf' := List.all_eq_true.1 hsh f hf
  rw [Bool.and_eq_true] at hf'
  exact hf'.2

end Verkos.Sav
