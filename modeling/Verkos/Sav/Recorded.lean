import Verkos.Sav.Checked

/-!
# What the checker records

The manifest is filled in while the tree is checked. This module says what an accepted unit's
manifest is known to hold: the number of every capability method that stands in the tree, the two
numbers of a failed check wherever a check stands, and the number every program ends with. The
table of 64 never fills up, because only six different numbers are ever offered to it.
-/

namespace Verkos.Sav

open Verkos.Lib (Fallible)

/-- The numbers the checker can record. -/
def knownCalls : List Nat := [64, 63, 56, 57, 172, 93]

/-- The table holds known numbers, each once. -/
structure CState.Known (s : CState) : Prop where
  nodup : s.sysUsed.Nodup
  subset : s.sysUsed ⊆ knownCalls

/-- Nothing recorded is forgotten, the table stays as it should be, and the loops around are the
same. -/
structure Grows (s s' : CState) : Prop where
  known : s.Known → s'.Known
  subset : s.sysUsed ⊆ s'.sysUsed
  loop : s'.loopDepth = s.loopDepth

theorem Grows.refl (s : CState) : Grows s s := ⟨id, fun _ h => h, rfl⟩

variable {s s' : CState} {n : Nat} {S S' : List Nat} {e : TExpr}

theorem Grows.trans {s1 s2 : CState} (h : Grows s s1) (h' : Grows s1 s2) : Grows s s2 :=
  ⟨fun k => h'.known (h.known k), fun _ hn => h'.subset (h.subset hn), h'.loop.trans h.loop⟩

theorem Grows.of_eq (h : s'.sysUsed = s.sysUsed) (hl : s'.loopDepth = s.loopDepth) : Grows s s' :=
  ⟨fun k => ⟨h ▸ k.nodup, h ▸ k.subset⟩, fun _ hn => h ▸ hn, hl⟩

theorem Grows.of_body (h : Grows { s with loopDepth := s.loopDepth + 1 } s') :
    Grows s { s' with loopDepth := s'.loopDepth - 1 } := by
  refine ⟨fun k => ?_, h.subset, ?_⟩
  · have := h.known ⟨k.nodup, k.subset⟩
    exact ⟨this.nodup, this.subset⟩
  · have hl := h.loop
    dsimp only at hl ⊢
    omega

theorem CState.Known.length_lt (h : s.Known) : s.sysUsed.length < 64 := by
  have hle : s.sysUsed.length ≤ knownCalls.length := (h.nodup.subperm h.subset).length_le
  have h6 : knownCalls.length = 6 := rfl
  omega

theorem grows_withCall (hn : n ∈ knownCalls) : Grows s (s.withCall n) := by
  unfold CState.withCall
  split
  · exact Grows.refl s
  · rename_i hmem
    rw [not_or] at hmem
    split
    · refine ⟨fun k => ⟨?_, ?_⟩, fun a ha => List.mem_append_left _ ha, rfl⟩
      · exact List.nodup_append.2 ⟨k.nodup, List.nodup_singleton n, fun a ha b hb heq => by
          rw [List.mem_singleton] at hb
          exact hmem.2 (hb ▸ heq ▸ ha)⟩
      · intro a ha
        rcases List.mem_append.1 ha with ha | ha
        · exact k.subset ha
        · exact List.mem_singleton.1 ha ▸ hn
    · exact Grows.refl s

theorem mem_withCall (k : s.Known) (hn : n ≠ 0) : n ∈ (s.withCall n).sysUsed := by
  unfold CState.withCall
  split
  · rename_i h
    rcases h with h | h
    · exact absurd h hn
    · exact h
  · rw [if_pos k.length_lt]
    exact List.mem_append_right _ (List.mem_singleton.2 rfl)

theorem withCall_zero (s : CState) : s.withCall 0 = s := by
  simp [CState.withCall]

theorem grows_withCap (s : CState) (name : String) : Grows s (s.withCap name) := by
  unfold CState.withCap
  split
  · exact Grows.refl s
  · split
    · exact Grows.of_eq rfl rfl
    · exact Grows.refl s

theorem grows_withSym (s : CState) (y : Sym) : Grows s (s.withSym y) := by
  unfold CState.withSym
  split <;> exact Grows.of_eq rfl rfl

theorem sysno_known {c : CapId} {m : CapMethod} (h : m ∈ c.methods) :
    m.sysno = 0 ∨ m.sysno ∈ knownCalls := by
  cases c <;> simp only [CapId.methods, List.mem_cons, List.not_mem_nil, or_false] at h
  · rcases h with rfl | rfl | rfl <;> decide
  · rcases h with rfl | rfl <;> decide
  · rcases h with rfl | rfl | rfl | rfl <;> decide
  · subst h
    decide

/-! ## Trees whose calls are recorded -/

mutual

/-- Every method in the tree is one of its capability's, and its number is among `S`. -/
def Recorded (S : List Nat) : TExpr → Prop
  | .int .. | .bool .. | .str .. | .var .. => True
  | .call _ _ as _ => RecordedAll S as
  | .method _ c m _ as => (m ∈ c.methods ∧ (m.sysno = 0 ∨ m.sysno ∈ S)) ∧ RecordedAll S as
  | .unary _ _ a | .field _ a _ | .slicePtr _ a | .len _ a | .addr _ a | .deref _ _ a
  | .cast _ a => Recorded S a
  | .binary _ _ a b | .index _ a b | .sliceToEnd _ a b | .assign _ a b =>
    Recorded S a ∧ Recorded S b
  | .slice _ a b c => Recorded S a ∧ Recorded S b ∧ Recorded S c
  | .variant _ _ _ as _ => RecordedAll S as

def RecordedAll (S : List Nat) : List TExpr → Prop
  | [] => True
  | a :: as => Recorded S a ∧ RecordedAll S as

end

mutual

theorem Recorded.mono {S S' : List Nat} (h : S ⊆ S') : ∀ {e : TExpr}, Recorded S e → Recorded S' e
  | .int .., _ | .bool .., _ | .str .., _ | .var .., _ => trivial
  | .call _ _ _ _, r => RecordedAll.mono h r
  | .method _ _ _ _ _, r => ⟨⟨r.1.1, r.1.2.imp id (h ·)⟩, RecordedAll.mono h r.2⟩
  | .unary _ _ a, r | .field _ a _, r | .slicePtr _ a, r | .len _ a, r | .addr _ a, r
  | .deref _ _ a, r | .cast _ a, r => Recorded.mono h (e := a) r
  | .binary _ _ _ _, r | .index _ _ _, r | .sliceToEnd _ _ _, r | .assign _ _ _, r => ⟨Recorded.mono h r.1, Recorded.mono h r.2⟩
  | .slice _ _ _ _, r => ⟨Recorded.mono h r.1, Recorded.mono h r.2.1, Recorded.mono h r.2.2⟩
  | .variant _ _ _ _ _, r => RecordedAll.mono h r

theorem RecordedAll.mono {S S' : List Nat} (h : S ⊆ S') :
    ∀ {as : List TExpr}, RecordedAll S as → RecordedAll S' as
  | [], _ => trivial
  | _ :: _, r => ⟨Recorded.mono h r.1, RecordedAll.mono h r.2⟩

end

theorem Recorded.setTy (t : Ty) (h : Recorded S e) : Recorded S (e.setTy t) := by
  cases e <;> exact h

theorem Recorded.wanted {e' : TExpr} {t : Ty} (h : Recorded S e)
    (hw : Wanted e t e') : Recorded S e' := by
  rcases hw with ⟨-, -, rfl⟩ | ⟨-, rfl⟩
  · exact h.setTy t
  · exact h

theorem Recorded.litLike {other : TExpr} (h : Recorded S e) : Recorded S (litLike e other) := by
  unfold Verkos.Sav.litLike
  split
  · exact h.setTy _
  · exact h

theorem Recorded.fieldOf {p : Pos} {a : TExpr} {name : String} (h : Recorded S a)
    (hf : FieldOf p a name e) : Recorded S e := by
  rcases hf with ⟨rfl, -⟩ | ⟨t, rfl, -⟩ | ⟨ft, off, rfl, -⟩ <;> exact h

/-! ## Statements and functions -/

/-- A value that may be missing. -/
def RecordedOpt (S : List Nat) : Option TExpr → Prop
  | none => True
  | some e => Recorded S e

mutual

/-- Every call in the statement is recorded, a check brings the two numbers of its failure, and
`break` and `continue` stand inside a loop. -/
def RecordedStmt (S : List Nat) (inLoop : Prop) : TStmt → Prop
  | .block ss => RecordedStmts S inLoop ss
  | .letS _ init => RecordedOpt S init
  | .expr e => Recorded S e
  | .ifS c t => Recorded S c ∧ RecordedStmt S inLoop t
  | .ifElse c t e => Recorded S c ∧ RecordedStmt S inLoop t ∧ RecordedStmt S inLoop e
  | .whileS c b => Recorded S c ∧ RecordedStmt S True b
  | .forS _ lo hi b => Recorded S lo ∧ Recorded S hi ∧ RecordedStmt S True b
  | .ret e => RecordedOpt S e
  | .brk | .cont => inLoop
  | .assert c _ _ => Recorded S c ∧ 64 ∈ S ∧ 93 ∈ S
  | .matchS e _ arms => Recorded S e ∧ RecordedArms S inLoop arms

def RecordedStmts (S : List Nat) (inLoop : Prop) : List TStmt → Prop
  | [] => True
  | s :: ss => RecordedStmt S inLoop s ∧ RecordedStmts S inLoop ss

def RecordedArms (S : List Nat) (inLoop : Prop) : List (TArm × TStmt) → Prop
  | [] => True
  | (_, s) :: arms => RecordedStmt S inLoop s ∧ RecordedArms S inLoop arms

end

theorem RecordedOpt.mono (h : S ⊆ S') {e : Option TExpr}
    (r : RecordedOpt S e) : RecordedOpt S' e := by
  cases e with
  | none => trivial
  | some e => exact Recorded.mono h r

mutual

theorem RecordedStmt.mono {S S' : List Nat} (h : S ⊆ S') {L L' : Prop} (hl : L → L') :
    ∀ {s : TStmt}, RecordedStmt S L s → RecordedStmt S' L' s
  | .block _, r => RecordedStmts.mono h hl r
  | .letS _ _, r => RecordedOpt.mono h r
  | .expr _, r => Recorded.mono h r
  | .ifS _ _, r => ⟨Recorded.mono h r.1, RecordedStmt.mono h hl r.2⟩
  | .ifElse _ _ _, r =>
    ⟨Recorded.mono h r.1, RecordedStmt.mono h hl r.2.1, RecordedStmt.mono h hl r.2.2⟩
  | .whileS _ _, r => ⟨Recorded.mono h r.1, RecordedStmt.mono h id r.2⟩
  | .forS _ _ _ _, r =>
    ⟨Recorded.mono h r.1, Recorded.mono h r.2.1, RecordedStmt.mono h id r.2.2⟩
  | .ret _, r => RecordedOpt.mono h r
  | .brk, r => hl r
  | .cont, r => hl r
  | .assert _ _ _, r => ⟨Recorded.mono h r.1, h r.2.1, h r.2.2⟩
  | .matchS _ _ _, r => ⟨Recorded.mono h r.1, RecordedArms.mono h hl r.2⟩

theorem RecordedStmts.mono {S S' : List Nat} (h : S ⊆ S') {L L' : Prop} (hl : L → L') :
    ∀ {ss : List TStmt}, RecordedStmts S L ss → RecordedStmts S' L' ss
  | [], _ => trivial
  | _ :: _, r => ⟨RecordedStmt.mono h hl r.1, RecordedStmts.mono h hl r.2⟩

theorem RecordedArms.mono {S S' : List Nat} (h : S ⊆ S') {L L' : Prop} (hl : L → L') :
    ∀ {as : List (TArm × TStmt)}, RecordedArms S L as → RecordedArms S' L' as
  | [], _ => trivial
  | _ :: _, r => ⟨RecordedStmt.mono h hl r.1, RecordedArms.mono h hl r.2⟩

end

/-- A function whose calls are recorded, the two numbers of a failed check included when it has
clauses. -/
structure RecordedFn (S : List Nat) (f : TFn) : Prop where
  req : ∀ k ∈ f.req, Recorded S k.expr
  ens : ∀ k ∈ f.ens, Recorded S k.expr
  fails : f.req ≠ [] ∨ f.ens ≠ [] → 64 ∈ S ∧ 93 ∈ S
  body : RecordedStmt S False f.body

theorem RecordedFn.mono (h : S ⊆ S') {f : TFn} (r : RecordedFn S f) : RecordedFn S' f :=
  ⟨fun k hk => (r.req k hk).mono h, fun k hk => (r.ens k hk).mono h,
    fun hc => ⟨h (r.fails hc).1, h (r.fails hc).2⟩, r.body.mono h id⟩

/-- The manifest of an accepted unit: known numbers once each, the number every program ends with,
and everything its functions need. -/
structure RecordedUnit (t : TUnit) : Prop where
  nodup : t.sysUsed.Nodup
  subset : t.sysUsed ⊆ knownCalls
  exit : 93 ∈ t.sysUsed
  fns : ∀ f ∈ t.fns, RecordedFn t.sysUsed f

end Verkos.Sav
