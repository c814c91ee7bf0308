import Mathlib.Logic.Relation
import Verkos.Sav.Flow

/-!
# Where a statement stands in the buffer

The generator appends the code of a statement with the code of its parts inside it, so every
statement of a function's body has a piece of the buffer of its own (`Compiled.stands`), and what is
in front of it places only labels that are handed out already. What is proved of one statement wherever
its code stands holds of each statement of the program.
-/

namespace Verkos.Sav

open Verkos.Lib (Emit)
open Verkos.Lib.Emit (bind_ok out_ok)

/-- A statement that is directly in another. -/
inductive Part : TStmt → TStmt → Prop
  | block {st : TStmt} {ss : List TStmt} (h : st ∈ ss) : Part st (.block ss)
  | ifS (c : TExpr) (t : TStmt) : Part t (.ifS c t)
  | thenS (c : TExpr) (t e : TStmt) : Part t (.ifElse c t e)
  | elseS (c : TExpr) (t e : TStmt) : Part e (.ifElse c t e)
  | whileS (c : TExpr) (b : TStmt) : Part b (.whileS c b)
  | forS (y : Sym) (lo hi : TExpr) (b : TStmt) : Part b (.forS y lo hi b)
  | arm (e : TExpr) (off : Int) {h : TArm} {b : TStmt} {arms : List (TArm × TStmt)}
      (hin : (h, b) ∈ arms) : Part b (.matchS e off arms)

/-- A statement that is somewhere in another, or that one. -/
def Nested : TStmt → TStmt → Prop := Relation.ReflTransGen Part

/-- The code of a statement stands behind `pre`, where it was generated. -/
structure Stands (its : List Item) (E : Env) (S : List Nat) (st : TStmt) (brk cnt : Nat)
    (pre l : List Item) : Prop where
  gen : ∃ s s', genStmt E brk cnt st s = .ok ((), l, s') ∧ Fresh pre s.nlab
  recorded : RecordedStmt S True st
  place : StandsAt its pre l

variable {st st' : TStmt} {pre l : List Item} {brk cnt : Nat}

section Parts

variable {E : Env} {S : List Nat} {N : Nat} {its : List Item}

/-- The code of a statement is a piece of `l`. -/
def Holds (E : Env) (st : TStmt) (pre l : List Item) : Prop :=
  ∃ brk cnt p l' q s s', l = p ++ l' ++ q ∧ genStmt E brk cnt st s = .ok ((), l', s') ∧
    Fresh (pre ++ p) s.nlab

theorem Holds.after {l' : List Item} (h : Holds E st (pre ++ l) l') : Holds E st pre (l ++ l') := by
  obtain ⟨brk, cnt, p, l₁, q, s, s', rfl, hgen, hf⟩ := h
  exact ⟨brk, cnt, l ++ p, l₁, q, s, s', by simp, hgen, by simpa using hf⟩

theorem Holds.before {l' : List Item} (h : Holds E st pre l) : Holds E st pre (l ++ l') := by
  obtain ⟨brk, cnt, p, l₁, q, s, s', rfl, hgen, hf⟩ := h
  exact ⟨brk, cnt, p, l₁, q ++ l', s, s', by simp, hgen, hf⟩

theorem Holds.self {s s' : GState}
    (h : genStmt E brk cnt st s = .ok ((), l, s')) (hf : Fresh pre s.nlab) : Holds E st pre l :=
  ⟨brk, cnt, [], l, [], s, s', by simp, h, by simpa using hf⟩

variable (hN : E.unit.fns.length = N) (he : ∀ k ∈ E.fn.ens, Recorded S k.expr)
  (h64 : E.fn.ens ≠ [] → 64 ∈ S)

include hN he h64

theorem holds_of_mem : ∀ {ss : List TStmt} {st : TStmt} {brk cnt : Nat} {pre l : List Item}
    {s s' : GState}, st ∈ ss → RecordedStmts S True ss →
      genStmts E brk cnt ss s = .ok ((), l, s') → Fresh pre s.nlab → Holds E st pre l
  | st' :: ss, st, brk, cnt, pre, l, s, s', hmem, hr, h, hf => by
    obtain ⟨_, l₁, s1, h1, l₂, h2, rfl⟩ := bind_ok.1 h
    rcases List.mem_cons.1 hmem with rfl | hmem
    · exact (Holds.self h1 hf).before
    · have hseg : Seg S (UserCalls N S) [] [brk, cnt] s.nlab s1.nlab l₁ :=
        fits_genStmt hN he h64 hr.1 (by simp) _ _ _ _ h1
      exact (holds_of_mem hmem hr.2 h2 (hf.append hseg nofun)).after

/-- The body of an arm, in the code of the arms. -/
theorem holds_of_arm : ∀ {arms : List (TArm × TStmt)} {ls : List Nat} {h : TArm} {st : TStmt}
    {brk cnt fin : Nat} {off : Int} {pre l : List Item} {s s' : GState}, (h, st) ∈ arms →
      ls.length = arms.length → (∀ k ∈ ls, k < s.nlab) → RecordedArms S True arms →
      genArms E brk cnt off fin arms ls s = .ok ((), l, s') → Fresh pre s.nlab → Holds E st pre l
  | (h', b) :: arms, k :: ls, h, st, brk, cnt, fin, off, pre, l, s, s', hmem, hlen, hls, hr, hg,
      hf => by
    obtain ⟨_, l₁, s1, h1, _, g1, rfl⟩ := bind_ok.1 hg
    obtain ⟨_, l₂, s2, h2, _, g2, rfl⟩ := bind_ok.1 g1
    obtain ⟨_, l₃, s3, h3, _, g3, rfl⟩ := bind_ok.1 g2
    obtain ⟨_, l4, s4, h4, l5, h5, rfl⟩ := bind_ok.1 g3
    obtain ⟨rfl, rfl⟩ := out_ok.1 h1
    obtain ⟨rfl, rfl⟩ := out_ok.1 h4
    have hseg2 : Seg S (UserCalls N S) [] [] s1.nlab s2.nlab l₂ := fits_genArmHead _ _ _ _ _ _ h2
    have hseg3 : Seg S (UserCalls N S) [] [brk, cnt] s2.nlab s4.nlab l₃ :=
      fits_genStmt hN he h64 hr.1 (by simp) _ _ _ _ h3
    have hf1 : Fresh (pre ++ [Item.place k]) s1.nlab := hf.snoc fun j hj => by
      cases hj
      exact hls k List.mem_cons_self
    have hf2 := hf1.append hseg2 nofun
    rcases List.mem_cons.1 hmem with heq | hmem
    · cases heq
      exact (Holds.self h3 hf2).before.after.after
    · have hmono := hseg2.mono.trans hseg3.mono
      have hf3 := (hf2.append hseg3 nofun).snoc (i := .b fin) nofun
      have hrest := holds_of_arm hmem (by simpa using hlen)
        (fun j hj => Nat.lt_of_lt_of_le (hls j (.tail _ hj)) hmono) hr.2 h5 hf3
      exact hrest.after.after.after.after

theorem Stands.holds
    (h : Stands its E S st brk cnt pre l) (hp : Part st' st) : Holds E st' pre l := by
  obtain ⟨⟨s, s', hg, hf⟩, hr, -⟩ := h
  have hexpr : ∀ {e : TExpr} {l : List Item} {s s' : GState} {a : Unit}, Recorded S e →
      genExpr E e s = .ok (a, l, s') → Seg S (UserCalls N S) [] [] s.nlab s'.nlab l :=
    fun hr h => fits_genExpr hN hr _ _ _ _ h
  cases hp with
  | block hin => exact holds_of_mem hN he h64 hin hr hg hf
  | ifS c t | thenS c t e =>
    obtain ⟨els, _, s1, h1, _, g1, rfl⟩ := bind_ok.1 hg
    obtain ⟨done, _, s2, h2, _, g2, rfl⟩ := bind_ok.1 g1
    obtain ⟨_, lc, s3, h3, _, g3, rfl⟩ := bind_ok.1 g2
    obtain ⟨_, _, s4, h4, _, g4, rfl⟩ := bind_ok.1 g3
    obtain ⟨_, lt, s5, h5, _, g5, rfl⟩ := bind_ok.1 g4
    obtain ⟨rfl, rfl, rfl⟩ := newlab_ok.1 h1
    obtain ⟨rfl, rfl, rfl⟩ := newlab_ok.1 h2
    obtain ⟨rfl, rfl⟩ := out_ok.1 h4
    have hf1 : Fresh pre (s.nlab + 1 + 1) := hf.mono (by omega)
    have hf2 := (hf1.append (hexpr hr.1 h3) nofun).snoc (i := .cbz X0 s.nlab) nofun
    exact (Holds.self h5 hf2).before.after.after
  | elseS c t e =>
    obtain ⟨els, _, s1, h1, _, g1, rfl⟩ := bind_ok.1 hg
    obtain ⟨done, _, s2, h2, _, g2, rfl⟩ := bind_ok.1 g1
    obtain ⟨_, lc, s3, h3, _, g3, rfl⟩ := bind_ok.1 g2
    obtain ⟨_, _, s4, h4, _, g4, rfl⟩ := bind_ok.1 g3
    obtain ⟨_, lt, s5, h5, _, g5, rfl⟩ := bind_ok.1 g4
    obtain ⟨_, _, s6, h6, _, g6, rfl⟩ := bind_ok.1 g5
    obtain ⟨_, _, s7, h7, _, g7, rfl⟩ := bind_ok.1 g6
    obtain ⟨_, le, s8, h8, _, g8, rfl⟩ := bind_ok.1 g7
    obtain ⟨rfl, rfl, rfl⟩ := newlab_ok.1 h1
    obtain ⟨rfl, rfl, rfl⟩ := newlab_ok.1 h2
    obtain ⟨rfl, rfl⟩ := out_ok.1 h4
    obtain ⟨rfl, rfl⟩ := out_ok.1 h6
    obtain ⟨rfl, rfl⟩ := out_ok.1 h7
    have hsegc := hexpr hr.1 h3
    have hsegt : Seg S (UserCalls N S) [] [brk, cnt] _ _ lt :=
      fits_genStmt hN he h64 hr.2.1 (by simp) _ _ _ _ h5
    have hmonoc := hsegc.mono
    have hmonot := hsegt.mono
    have hf1 : Fresh pre (s.nlab + 1 + 1) := hf.mono (by omega)
    have hf2 := (hf1.append hsegc nofun).snoc (i := .cbz X0 s.nlab) nofun
    have hf3 := ((hf2.append hsegt nofun).snoc (i := .b (s.nlab + 1)) nofun).snoc
      (i := .place s.nlab) fun k hk => by cases hk; dsimp only at hmonoc; omega
    exact (Holds.self h8 hf3).before.after.after.after.after.after
  | whileS c b =>
    obtain ⟨top, _, s1, h1, _, g1, rfl⟩ := bind_ok.1 hg
    obtain ⟨out, _, s2, h2, _, g2, rfl⟩ := bind_ok.1 g1
    obtain ⟨_, _, s3, h3, _, g3, rfl⟩ := bind_ok.1 g2
    obtain ⟨_, lc, s4, h4, _, g4, rfl⟩ := bind_ok.1 g3
    obtain ⟨_, _, s5, h5, _, g5, rfl⟩ := bind_ok.1 g4
    obtain ⟨_, lb, s6, h6, _, g6, rfl⟩ := bind_ok.1 g5
    obtain ⟨rfl, rfl, rfl⟩ := newlab_ok.1 h1
    obtain ⟨rfl, rfl, rfl⟩ := newlab_ok.1 h2
    obtain ⟨rfl, rfl⟩ := out_ok.1 h3
    obtain ⟨rfl, rfl⟩ := out_ok.1 h5
    have hf1 : Fresh (pre ++ [Item.place s.nlab]) (s.nlab + 1 + 1) :=
      (hf.mono (by omega)).snoc fun k hk => by cases hk; omega
    have hf2 := (hf1.append (hexpr hr.1 h4) nofun).snoc (i := .cbz X0 (s.nlab + 1)) nofun
    exact (Holds.self h6 hf2).before.after.after.after
  | forS y lo hi b =>
    obtain ⟨top, _, s1, h1, _, g1, rfl⟩ := bind_ok.1 hg
    obtain ⟨out, _, s2, h2, _, g2, rfl⟩ := bind_ok.1 g1
    obtain ⟨cont, _, s3, h3, _, g3, rfl⟩ := bind_ok.1 g2
    obtain ⟨_, l4, s4, h4, _, g4, rfl⟩ := bind_ok.1 g3
    obtain ⟨_, l5, s5, h5, _, g5, rfl⟩ := bind_ok.1 g4
    obtain ⟨_, _, s6, h6, _, g6, rfl⟩ := bind_ok.1 g5
    obtain ⟨_, l7, s7, h7, _, g7, rfl⟩ := bind_ok.1 g6
    obtain ⟨_, l8, s8, h8, _, g8, rfl⟩ := bind_ok.1 g7
    obtain ⟨_, l9, s9, h9, _, g9, rfl⟩ := bind_ok.1 g8
    obtain ⟨_, l10, s10, h10, _, g10, rfl⟩ := bind_ok.1 g9
    obtain ⟨_, l11, s11, h11, _, g11, rfl⟩ := bind_ok.1 g10
    obtain ⟨_, _, s12, h12, _, g12, rfl⟩ := bind_ok.1 g11
    obtain ⟨_, lb, s13, h13, _, g13, rfl⟩ := bind_ok.1 g12
    obtain ⟨rfl, rfl, rfl⟩ := newlab_ok.1 h1
    obtain ⟨rfl, rfl, rfl⟩ := newlab_ok.1 h2
    obtain ⟨rfl, rfl, rfl⟩ := newlab_ok.1 h3
    obtain ⟨rfl, rfl⟩ := out_ok.1 h6
    obtain ⟨rfl, rfl⟩ := out_ok.1 h12
    have hseg4 := hexpr hr.1 h4
    have hseg5 : Seg S (UserCalls N S) [] [] _ _ l5 := fits_frameStore _ _ _ _ _ _ h5
    have hmono4 := hseg4.mono
    have hmono5 := hseg5.mono
    have hf1 : Fresh pre (s.nlab + 1 + 1 + 1) := hf.mono (by omega)
    have hf2 := ((hf1.append hseg4 nofun).append hseg5 nofun).snoc (i := .place s.nlab)
      fun k hk => by cases hk; dsimp only at hmono4; omega
    have hf3 := hf2.append (hexpr hr.2.1 h7) nofun
    have hf4 := hf3.append (fits_pushPair _ _ _ _ h8 : Seg S (UserCalls N S) [] [] _ _ l8) nofun
    have hf5 := hf4.append (fits_frameLoad _ _ _ _ _ _ h9 : Seg S (UserCalls N S) [] [] _ _ l9) nofun
    have hf6 := hf5.append
      (fits_popPair _ _ _ _ _ _ h10 : Seg S (UserCalls N S) [] [] _ _ l10) nofun
    have hf7 := (hf6.append (Fits.emit rfl _ _ _ _ h11 : Seg S (UserCalls N S) [] [] _ _ l11)
      nofun).snoc (i := .bcond .ge (s.nlab + 1)) nofun
    exact (Holds.self h13 hf7).before.after.after.after.after.after.after.after.after.after
  | @arm e off _ _ arms hin =>
    obtain ⟨_, l₁, s1, h1, _, g1, rfl⟩ := bind_ok.1 hg
    obtain ⟨_, l₂, s2, h2, _, g2, rfl⟩ := bind_ok.1 g1
    obtain ⟨fin, _, s3, h3, _, g3, rfl⟩ := bind_ok.1 g2
    obtain ⟨ls, _, s4, h4, _, g4, rfl⟩ := bind_ok.1 g3
    obtain ⟨_, l5, s5, h5, _, g5, rfl⟩ := bind_ok.1 g4
    obtain ⟨_, l6, s6, h6, _, g6, rfl⟩ := bind_ok.1 g5
    obtain ⟨_, l7, s7, h7, _, g7, rfl⟩ := bind_ok.1 g6
    obtain ⟨_, _, s8, h8, _, g8, rfl⟩ := bind_ok.1 g7
    obtain ⟨_, la, s9, h9, _, g9, rfl⟩ := bind_ok.1 g8
    obtain ⟨rfl, rfl, rfl⟩ := newlab_ok.1 h3
    obtain ⟨hls, rfl, hn⟩ := newlabs_ok h4
    obtain ⟨rfl, rfl⟩ := out_ok.1 h8
    have hf1 := hf.append (hexpr hr.1 h1) nofun
    have hf2 := hf1.append
      (fits_frameStoreField _ _ _ _ _ _ _ h2 : Seg S (UserCalls N S) [] [] _ _ l₂) nofun
    have hseg5 : Seg S (UserCalls N S) [] [] _ _ l5 := fits_frameLoad _ _ _ _ _ _ h5
    have hseg6 : Seg S (UserCalls N S) [] [] _ _ l6 := Fits.emit rfl _ _ _ _ h6
    have hseg7 : Seg S (UserCalls N S) [] ls _ _ l7 :=
      fits_genTests (List.Subset.refl ls) _ _ _ _ h7
    have hmono := (hseg5.mono.trans hseg6.mono).trans hseg7.mono
    have hf3 : Fresh (pre ++ l₁ ++ l₂) s4.nlab := hf2.mono (by dsimp only at hn; omega)
    have hf4 := (((hf3.append hseg5 nofun).append hseg6 nofun).append hseg7 nofun).snoc
      (i := .b (elseLabel s2.nlab (arms.map (·.1)) ls)) nofun
    have hlt : ∀ k ∈ ls, k < s8.nlab := fun k hk => by
      rw [hls, List.mem_range'_1] at hk
      omega
    have hrest := holds_of_arm hN he h64 hin (by rw [hls, List.length_range']) hlt hr.2 h9 hf4
    exact hrest.before.after.after.after.after.after.after

omit hN he h64 in
theorem RecordedStmt.part (h : RecordedStmt S True st) (hp : Part st' st) :
    RecordedStmt S True st' := by
  cases hp with
  | @block _ ss hin =>
    have hr : RecordedStmts S True ss := h
    clear h
    induction ss with
    | nil => cases hin
    | cons a ss ih =>
      rcases List.mem_cons.1 hin with rfl | hin
      · exact hr.1
      · exact ih hin hr.2
  | ifS | whileS => exact h.2
  | thenS => exact h.2.1
  | elseS | forS => exact h.2.2
  | @arm e off _ _ arms hin =>
    have hr : RecordedArms S True arms := h.2
    clear h
    induction arms with
    | nil => cases hin
    | cons a arms ih =>
      obtain ⟨h', b⟩ := a
      rcases List.mem_cons.1 hin with heq | hin
      · cases heq
        exact hr.1
      · exact ih hin hr.2

theorem Stands.nested (h : Stands its E S st brk cnt pre l) (hn : Nested st' st) :
    ∃ brk' cnt' p l' q, l = p ++ l' ++ q ∧ Stands its E S st' brk' cnt' (pre ++ p) l' := by
  induction hn generalizing brk cnt pre l with
  | refl => exact ⟨brk, cnt, [], l, [], by simp, by simpa using h⟩
  | tail _ hp ih =>
    obtain ⟨brk1, cnt1, p, l₁, q, s, s', rfl, hgen, hf⟩ := h.holds hN he h64 hp
    have hst : Stands its E S _ brk1 cnt1 (pre ++ p) l₁ :=
      ⟨⟨s, s', hgen, hf⟩, h.recorded.part hp, h.place.left.right⟩
    obtain ⟨brk2, cnt2, p', l₂, q', rfl, hst'⟩ := ih hst
    exact ⟨brk2, cnt2, p ++ p', l₂, q' ++ q, by simp, by simpa using hst'⟩

end Parts

/-! ## The bodies of the functions -/

/-- The code of a function in front of its body. -/
def genEntry (E : Env) (label : Nat) : GenM Unit := do
  place label
  emit (.stpPre X29 X30 SP (-16))
  emit (movSp X29 SP)
  Emit.onlyIf (E.fn.frameSize ≠ 0) (emitSubSp E.fn.frameSize)
  genSret E.fn
  genParams E.fn.params
  genChecks E "requirement broken" E.fn.req

section Functions

variable {E : Env} {S : List Nat} {N : Nat}

theorem genFn_parts {k : Nat} {s s' : GState} {a : Unit}
    (h : genFn E k s = .ok (a, l, s')) : ∃ lh lb lt s1 s2, l = lh ++ (lb ++ lt) ∧
      genEntry E k s = .ok ((), lh, s1) ∧ genStmt E 0 0 E.fn.body s1 = .ok ((), lb, s2) := by
  obtain ⟨_, l₁, s1, h1, _, g1, rfl⟩ := bind_ok.1 h
  obtain ⟨_, l₂, s2, h2, _, g2, rfl⟩ := bind_ok.1 g1
  obtain ⟨_, l₃, s3, h3, _, g3, rfl⟩ := bind_ok.1 g2
  obtain ⟨_, l4, s4, h4, _, g4, rfl⟩ := bind_ok.1 g3
  obtain ⟨_, l5, s5, h5, _, g5, rfl⟩ := bind_ok.1 g4
  obtain ⟨_, l6, s6, h6, _, g6, rfl⟩ := bind_ok.1 g5
  obtain ⟨_, l7, s7, h7, _, g7, rfl⟩ := bind_ok.1 g6
  obtain ⟨_, lb, s8, h8, lt, -, rfl⟩ := bind_ok.1 g7
  refine ⟨l₁ ++ (l₂ ++ (l₃ ++ (l4 ++ (l5 ++ (l6 ++ l7))))), lb, lt, s7, s8, by simp, ?_, h8⟩
  refine bind_ok.2 ⟨_, l₁, s1, h1, _, bind_ok.2 ⟨_, l₂, s2, h2, _, ?_, rfl⟩, rfl⟩
  refine bind_ok.2 ⟨_, l₃, s3, h3, _, bind_ok.2 ⟨_, l4, s4, h4, _, ?_, rfl⟩, rfl⟩
  exact bind_ok.2 ⟨_, l5, s5, h5, _, bind_ok.2 ⟨_, l6, s6, h6, _, h7, rfl⟩, rfl⟩

theorem fits_genEntry {own : List Nat} (hN : E.unit.fns.length = N) (r : RecordedFn S E.fn) {k : Nat}
    (hk : k ∈ own) : Fits S (UserCalls N S) own [] (genEntry E k) := by
  refine .seq (.place hk) <| .seq (.emit rfl) ?_
  refine .seq (.emit rfl) ?_
  refine .seq (.onlyIf fun _ => fits_emitSubSp _) ?_
  refine .seq (fits_genSret _) <| .seq (fits_genParams _) ?_
  exact fits_genChecks hN r.req fun h => (r.fails (.inl h)).1

/-- The code of a function is a piece of the code of all. -/
theorem genFns_piece {u : TUnit} {contracts : Bool} (hN : u.fns.length = N) :
    ∀ {fs : List TFn} {i j : Nat} {f : TFn} {pre l : List Item} {s s' : GState} {a : Unit},
      genFns u contracts i fs s = .ok (a, l, s') → (∀ f ∈ fs, RecordedFn S f) →
      6 + i + fs.length ≤ s.nlab → Fresh pre s.nlab → fs[j]? = some f →
      ∃ p l' q s1 s2, l = p ++ l' ++ q ∧ Fresh (pre ++ p) s1.nlab ∧ fnLabel (i + j) < s1.nlab ∧
        genFn ⟨u, contracts, f⟩ (fnLabel (i + j)) s1 = .ok ((), l', s2)
  | [], i, j, f, pre, l, s, s', a, h, _, _, _, hj => by cases hj
  | g :: fs, i, 0, f, pre, l, s, s', a, h, hr, hle, hf, hj => by
    obtain ⟨_, l₁, s1, h1, l₂, -, rfl⟩ := bind_ok.1 h
    cases hj
    refine ⟨[], l₁, l₂, s, s1, by simp, by simpa using hf, ?_, h1⟩
    unfold fnLabel
    rw [List.length_cons] at hle
    omega
  | g :: fs, i, j + 1, f, pre, l, s, s', a, h, hr, hle, hf, hj => by
    obtain ⟨_, l₁, s1, h1, l₂, h2, rfl⟩ := bind_ok.1 h
    have hseg : Seg S (UserCalls N S) [fnLabel i] [] s.nlab s1.nlab l₁ :=
      fits_genFn hN (hr g (.head _)) (.head _) _ _ _ _ h1
    have hmono := hseg.mono
    rw [List.length_cons] at hle
    have hlab : ∀ k ∈ [fnLabel i], k < s.nlab := by
      intro k hk
      obtain rfl := List.mem_singleton.1 hk
      unfold fnLabel
      omega
    obtain ⟨p, l', q, s2, s3, rfl, hf', hlt, hgen⟩ := genFns_piece hN h2
      (fun f hf => hr f (.tail _ hf)) (by omega) (hf.append hseg hlab) hj
    rw [Nat.add_right_comm, Nat.add_assoc i j 1] at hgen hlt
    exact ⟨l₁ ++ p, l', q, s2, s3, by simp, by simpa using hf', hlt, hgen⟩

end Functions

/-- The body of the `i`-th function: `pre` ends with what the function begins with. -/
structure BodyAt (c : Compiled) (i : Nat) (f : TFn) (pre l : List Item) : Prop where
  fn : c.checked.fns[i]? = some f
  entry : ∃ p lh s s', pre = p ++ lh ∧ Fresh p s.nlab ∧
    genEntry ⟨c.checked, c.contracts, f⟩ (fnLabel i) s = .ok ((), lh, s')
  stands : Stands c.items ⟨c.checked, c.contracts, f⟩ c.checked.sysUsed f.body 0 0 pre l

theorem Compiled.bodyAt (c : Compiled) {i : Nat} {f : TFn} (hi : c.checked.fns[i]? = some f) :
    ∃ pre l, BodyAt c i f pre l := by
  have hrec := checkUnit_recorded c.check
  obtain ⟨_, l₁, s1, h1, _, g1, hitems⟩ := bind_ok.1 c.gen
  obtain ⟨_, l₂, s2, h2, l₃, -, rfl⟩ := bind_ok.1 g1
  have hseg1 : Seg c.checked.sysUsed (UserCalls c.checked.fns.length c.checked.sysUsed) [] []
      (6 + c.checked.fns.length) s1.nlab l₁ :=
    fits_genStart hrec.exit (entry_index c.check) _ _ _ _ h1
  have hmono := hseg1.mono
  have hf0 : Fresh [] (6 + c.checked.fns.length) := nofun
  obtain ⟨p, l, q, s, s', rfl, hf, hlt, hgen⟩ := genFns_piece rfl h2 hrec.fns (by omega)
    (hf0.append hseg1 nofun) hi
  rw [Nat.zero_add] at hgen hlt
  obtain ⟨lh, lb, lt, s3, s4, rfl, hentry, hbody⟩ := genFn_parts hgen
  have hfn := hrec.fns f (List.mem_of_getElem? hi)
  have hseg : Seg c.checked.sysUsed (UserCalls c.checked.fns.length c.checked.sysUsed) [fnLabel i] []
      s.nlab s3.nlab lh := fits_genEntry rfl hfn (.head _) _ _ _ _ hentry
  refine ⟨l₁ ++ p ++ lh, lb, hi, ⟨l₁ ++ p, lh, s, s3, rfl, hf, hentry⟩, ⟨s3, s4, hbody, ?_⟩, ?_,
    lt ++ q ++ l₃, ?_⟩
  · exact hf.append hseg fun k hk => List.mem_singleton.1 hk ▸ hlt
  · exact hfn.body.mono (fun _ h => h) nofun
  · rw [hitems]
    simp

end Verkos.Sav
