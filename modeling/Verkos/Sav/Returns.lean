import Verkos.Sav.Flow

/-!
# Bodies that return

`always_returns` looks at the last statement of a block and at both branches of an `if`; a loop or a
`match` it never trusts. What it accepts has code that control cannot run off the end of: behind the
code of such a statement there is no instruction that control gets to from its front, whichever way
each test goes (`returns_confined`).
-/

namespace Verkos.Sav

open Verkos.Lib (Emit)
open Lib.Emit (bind_ok out_ok)

section Code

variable {E : Env} {S : List Nat} {N : Nat} {its : List Item}

/-- `x` ends with a return. -/
def EndsRet {α : Type} (x : GenM α) : Prop :=
  ∀ s a l s', x s = .ok (a, l, s') → ∃ p, l = p ++ [Item.ins .ret]

theorem EndsRet.right {α β : Type} {x : GenM α} {f : α → GenM β} (hf : ∀ a, EndsRet (f a)) :
    EndsRet (x >>= f) := by
  intro s b l s' h
  obtain ⟨a, l₁, s1, -, l₂, h2, rfl⟩ := bind_ok.1 h
  obtain ⟨p, rfl⟩ := hf a s1 b l₂ s' h2
  exact ⟨l₁ ++ p, by simp⟩

theorem endsRet_genEpilogue : EndsRet genEpilogue := by
  refine .right fun _ => .right fun _ => ?_
  intro s a l s' h
  obtain ⟨rfl, -⟩ := out_ok.1 h
  exact ⟨[], rfl⟩

theorem endsRet_genReturn (e : Option TExpr) : EndsRet (genReturn E e) := by
  unfold genReturn
  cases e with
  | none => exact .right fun _ => endsRet_genEpilogue
  | some e =>
    dsimp only
    split
    · iterate 7 refine .right fun _ => ?_
      exact endsRet_genEpilogue
    · iterate 2 refine .right fun _ => ?_
      exact endsRet_genEpilogue

/-- Behind the code there is no instruction that control gets to from its front. -/
def Returning (its pre l : List Item) : Prop :=
  ∃ A : Nat → Prop, A (coded pre).length ∧ (∀ k, A k → Span pre l k) ∧ Confined its A fun _ => False

section Parts

variable {pre l l' : List Item}

theorem Returning.after (h : Returning its (pre ++ l) l')
    (hc : Confined its (Span pre l) (Exits its pre l [])) : Returning its pre (l ++ l') := by
  obtain ⟨A, hstart, hspan, hconf⟩ := h
  refine ⟨fun k => Span pre l k ∨ A k, ?_, fun k hk => ?_, hc.union hconf ?_ fun _ h => False.elim h⟩
  · by_cases hl : (coded l).length = 0
    · right
      rw [coded_append, List.length_append, hl] at hstart
      exact hstart
    · exact .inl ⟨le_rfl, by omega⟩
  · simp only [Span, coded_append, List.length_append] at hk hspan ⊢
    rcases hk with hk | hk
    · omega
    · have hin := hspan k hk
      omega
  · rintro k (rfl | ⟨_, hin, -⟩)
    · exact .inr (.inl hstart)
    · cases hin

theorem Returning.before (h : Returning its pre l) : Returning its pre (l ++ l') := by
  obtain ⟨A, hstart, hspan, hconf⟩ := h
  refine ⟨A, hstart, fun k hk => ?_, hconf⟩
  have hin := hspan k hk
  simp only [Span, coded_append, List.length_append] at hin ⊢
  omega

end Parts

/-- A test with a returning piece at each of its ends. -/
theorem Returning.branch {pre lt mid le : List Item} {els : Nat} {rt : Reg}
    (hat : StandsAt its pre ([Item.cbz rt els] ++ (lt ++ (mid ++ le))))
    (hels : labelPos els its = some (coded (pre ++ [Item.cbz rt els] ++ lt ++ mid)).length)
    (ht : Returning its (pre ++ [Item.cbz rt els]) lt)
    (he : Returning its (pre ++ [Item.cbz rt els] ++ lt ++ mid) le) :
    Returning its pre ([Item.cbz rt els] ++ (lt ++ (mid ++ le))) := by
  obtain ⟨A, hA, hspanA, hconfA⟩ := ht
  obtain ⟨B, hB, hspanB, hconfB⟩ := he
  have hcbz := Confined.cbz (hat.left.head rfl) hels
  have hlen : (coded (pre ++ [Item.cbz rt els])).length = (coded pre).length + 1 := by
    rw [coded_append, coded_cons rfl]
    simp
  refine ⟨fun k => k = (coded pre).length ∨ (A k ∨ B k), .inl rfl, fun k hk => ?_, ?_⟩
  · have hone : (coded [Item.cbz rt els]).length = 1 := rfl
    simp only [Span, coded_append, List.length_append, hone] at hspanA hspanB ⊢
    rcases hk with rfl | hk | hk
    · omega
    · have hin := hspanA k hk
      omega
    · have hin := hspanB k hk
      omega
  · have hboth : Confined its (fun k => A k ∨ B k) fun _ => False :=
      hconfA.union hconfB (fun _ h => False.elim h) fun _ h => False.elim h
    refine hcbz.union hboth ?_ fun _ h => False.elim h
    rintro k (rfl | rfl)
    · rw [← hlen]
      exact .inr (.inl (.inl hA))
    · exact .inr (.inl (.inr hB))

mutual

theorem returns_confined (hN : E.unit.fns.length = N) (he : ∀ k ∈ E.fn.ens, Recorded S k.expr)
    (h64 : E.fn.ens ≠ [] → 64 ∈ S) : ∀ {st : TStmt} {pre l : List Item} {brk cnt : Nat}
      {s s' : GState} {a : Unit}, st.returns = true → RecordedStmt S False st →
      genStmt E brk cnt st s = .ok (a, l, s') → StandsAt its pre l → Fresh pre s.nlab →
      Returning its pre l
  | .ret e, pre, l, brk, cnt, s, s', a, _, r, h, hat, hf => by
    have hseg : Seg S (UserCalls N S) [] [] s.nlab s'.nlab l := fits_genReturn hN r he h64 _ _ _ _ h
    obtain ⟨p, hp⟩ := endsRet_genReturn e _ _ _ _ h
    refine ⟨Span pre l, ⟨le_rfl, ?_⟩, fun _ hk => hk, (hseg.confined_ret hat hf hp).mono ?_⟩
    · rw [hp, coded_append, coded_cons rfl]
      simp
    · rintro k ⟨_, hin, -⟩
      cases hin
  | .block ss, pre, l, brk, cnt, s, s', a, hr, r, h, hat, hf =>
    returnsLast_confined hN he h64 hr r h hat hf
  | .ifElse c t e, pre, l, brk, cnt, s, s', a, hr, r, h, hat, hf => by
    rw [TStmt.returns, Bool.and_eq_true] at hr
    obtain ⟨hrc, hrt, hre⟩ := r
    obtain ⟨els, _, s1, hels, _, h1, rfl⟩ := bind_ok.1 h
    obtain ⟨done, _, s2, hdone, _, h2, rfl⟩ := bind_ok.1 h1
    obtain ⟨_, lc, s3, hc, _, h3, rfl⟩ := bind_ok.1 h2
    obtain ⟨_, _, s4, hz, _, h4, rfl⟩ := bind_ok.1 h3
    obtain ⟨_, lt, s5, ht, _, h5, rfl⟩ := bind_ok.1 h4
    obtain ⟨_, _, s6, hb, _, h6, rfl⟩ := bind_ok.1 h5
    obtain ⟨_, _, s7, hp, _, h7, rfl⟩ := bind_ok.1 h6
    obtain ⟨_, le, s8, he', _, h8, rfl⟩ := bind_ok.1 h7
    obtain ⟨rfl, rfl, rfl⟩ := newlab_ok.1 hels
    obtain ⟨rfl, rfl, rfl⟩ := newlab_ok.1 hdone
    obtain ⟨rfl, rfl⟩ := out_ok.1 hz
    obtain ⟨rfl, rfl⟩ := out_ok.1 hb
    obtain ⟨rfl, rfl⟩ := out_ok.1 hp
    obtain ⟨rfl, rfl⟩ := out_ok.1 h8
    have hsegc : Seg S (UserCalls N S) [] [] (s.nlab + 1 + 1) s4.nlab lc :=
      fits_genExpr hN hrc _ _ _ _ hc
    have hsegt : Seg S (UserCalls N S) [] [] s4.nlab s7.nlab lt :=
      fits_genStmt hN he h64 hrt (fun h => h.elim) _ _ _ _ ht
    have hmonoc := hsegc.mono
    have hmonot := hsegt.mono
    have hnil : ∀ n : Nat, ∀ k ∈ ([] : List Nat), k < n := fun n k hk => by cases hk
    rw [List.nil_append, List.nil_append] at hat ⊢
    have hf1 : Fresh pre (s.nlab + 1 + 1) := hf.mono (by omega)
    have hf2 := (hf1.append hsegc (hnil _)).snoc (i := .cbz X0 s.nlab) nofun
    have hf3 := ((hf2.append hsegt (hnil _)).snoc (i := .b (s.nlab + 1)) nofun).snoc
      (i := .place s.nlab) fun k hk => by cases hk; omega
    have hatT := hat.right.right
    have hatE := hatT.right.right
    have hels : labelPos s.nlab its = some (coded (pre ++ lc ++ [Item.cbz X0 s.nlab] ++ lt ++
        [Item.b (s.nlab + 1)])).length := by
      refine hatE.label fun hin => ?_
      simp only [List.mem_append, List.mem_singleton, reduceCtorEq, or_false] at hin
      rcases hin with (hin | hin) | hin
      · exact Nat.lt_irrefl _ (hf _ hin)
      · rcases hsegc.labels _ hin with hb | hb
        · omega
        · cases hb
      · rcases hsegt.labels _ hin with hb | hb
        · omega
        · cases hb
    have hretE : Returning its _ (le ++ [Item.place (s.nlab + 1)]) :=
      (returns_confined hN he h64 hr.2 hre he' hatE.right.left hf3).before
    have hretE' := hretE.after (l := [.place s.nlab]) fun m r m' hin => absurd hin (by simp [Span])
    have hbranch := Returning.branch hat.right hels
      (returns_confined hN he h64 hr.1 hrt ht hatT.left hf2) hretE'
    exact hbranch.after (hsegc.confined hat.left hf1)
  | .letS _ _, _, _, _, _, _, _, _, hr, _, _, _, _ | .expr _, _, _, _, _, _, _, _, hr, _, _, _, _
  | .ifS _ _, _, _, _, _, _, _, _, hr, _, _, _, _ | .whileS _ _, _, _, _, _, _, _, _, hr, _, _, _, _
  | .forS _ _ _ _, _, _, _, _, _, _, _, hr, _, _, _, _ | .brk, _, _, _, _, _, _, _, hr, _, _, _, _
  | .cont, _, _, _, _, _, _, _, hr, _, _, _, _ | .assert _ _ _, _, _, _, _, _, _, _, hr, _, _, _, _
  | .matchS _ _ _, _, _, _, _, _, _, _, hr, _, _, _, _ => by cases hr

theorem returnsLast_confined (hN : E.unit.fns.length = N) (he : ∀ k ∈ E.fn.ens, Recorded S k.expr)
    (h64 : E.fn.ens ≠ [] → 64 ∈ S) : ∀ {ss : List TStmt} {pre l : List Item} {brk cnt : Nat}
      {s s' : GState} {a : Unit}, TStmt.returnsLast ss = true → RecordedStmts S False ss →
      genStmts E brk cnt ss s = .ok (a, l, s') → StandsAt its pre l → Fresh pre s.nlab →
      Returning its pre l
  | [], pre, l, brk, cnt, s, s', a, hr, _, _, _, _ => by cases hr
  | [st], pre, l, brk, cnt, s, s', a, hr, r, h, hat, hf => by
    obtain ⟨_, l₁, s1, h1, l₂, h2, rfl⟩ := bind_ok.1 h
    exact (returns_confined hN he h64 hr r.1 h1 hat.left hf).before
  | st :: st' :: ss, pre, l, brk, cnt, s, s', a, hr, r, h, hat, hf => by
    obtain ⟨_, l₁, s1, h1, l₂, h2, rfl⟩ := bind_ok.1 h
    have hseg : Seg S (UserCalls N S) [] [] s.nlab s1.nlab l₁ :=
      fits_genStmt hN he h64 r.1 (fun h => h.elim) _ _ _ _ h1
    have hlast : TStmt.returnsLast (st' :: ss) = true := hr
    have hrest := returnsLast_confined hN he h64 hlast r.2 h2 hat.right
      (hf.append hseg fun _ h => by cases h)
    exact hrest.after (hseg.confined hat.left hf)

end

end Code

end Verkos.Sav
