import Verkos.Sav.Checks
import Verkos.Sav.Gen

/-!
# What a run of generated code can contain

A segment is what one part of the generator appended. `Seg` collects what holds of every segment
whatever the tree was: the labels it places are its own, handed out while it was generated, or ones
it was given to place; it branches to labels it places or was given; it calls nothing but what is
listed; every `svc` stands directly behind the `movz` that loads its number; and the only branch
written with a displacement of its own is the one to itself.

`Seg` is closed under sequencing, so `Fits S calls own out x`, which says that everything `x`
appends is such a segment, is proved construct by construct, with `Fits.bind` between the parts and
`Fits.withLabel` where a construct takes a label, uses it and places it.
-/

namespace Verkos.Sav

open Verkos.Lib (Emit)
open List (map_cons map_nil mem_append mem_cons mem_cons_of_mem mem_cons_self mem_pair mem_singleton
  nil_append not_mem_nil)
open Lib.Emit (bind_ok out_ok pure_ok)

attribute [local instance] neZero4

/-- A branch instruction, which carries its own displacement. -/
def Instr.isBranch : Instr → Bool
  | .b _ | .bl _ | .bcond _ _ | .cbz _ _ | .cbnz _ _ => true
  | _ => false

/-- An instruction that neither branches, returns nor calls the kernel. -/
def Instr.isPlain : Instr → Bool
  | .b _ | .bl _ | .bcond _ _ | .cbz _ _ | .cbnz _ _ | .ret | .svc => false
  | _ => true

/-- The label a branch other than a call goes to. -/
def Item.target : Item → Option Nat
  | .b l | .bcond _ l | .cbz _ l | .cbnz _ l => some l
  | _ => none

/-- The number `n` going into `x8`. -/
def Item.LoadsCall (S : List Nat) (it : Item) : Prop :=
  ∃ n : BitVec 16, it = .ins (.movz X8 n 0) ∧ n.toNat ∈ S

/-- Every `svc` directly behind the load of a number of `S`, with `prev` before the list. -/
def SvcAfter (S : List Nat) : Option Item → List Item → Prop
  | _, [] => True
  | prev, it :: its =>
    (it = .ins .svc → ∃ q, prev = some q ∧ q.LoadsCall S) ∧ SvcAfter S (some it) its

/-- The same whatever stands before. -/
def SvcOk (S : List Nat) (l : List Item) : Prop := ∀ prev, SvcAfter S prev l

theorem SvcAfter.append {S : List Nat} {l l' : List Item} (h' : SvcOk S l') :
    ∀ {prev : Option Item}, SvcAfter S prev l → SvcAfter S prev (l ++ l') := by
  induction l with
  | nil =>
    intro prev _
    exact h' prev
  | cons it its ih =>
    intro prev h
    exact ⟨h.1, ih h.2⟩

theorem SvcOk.append {S : List Nat} {l l' : List Item} (h : SvcOk S l) (h' : SvcOk S l') :
    SvcOk S (l ++ l') :=
  fun prev => (h prev).append h'

theorem SvcOk.of_notMem {S : List Nat} {l : List Item} (h : Item.ins .svc ∉ l) : SvcOk S l := by
  induction l with
  | nil => exact fun _ => trivial
  | cons it its ih =>
    intro prev
    refine ⟨fun he => (h ?_).elim, ih (fun hm => h (mem_cons_of_mem _ hm)) _⟩
    rw [he]
    exact mem_cons_self

theorem SvcOk.pair {S : List Nat} {n : BitVec 16} (h : n.toNat ∈ S) :
    SvcOk S [.ins (.movz X8 n 0), .ins .svc] :=
  fun _ => ⟨(fun he => nomatch he), fun _ => ⟨_, rfl, n, rfl, h⟩, trivial⟩

/-- What holds of everything the generator appends between `n` and `n'` labels. -/
structure Seg (S : List Nat) (calls : Nat → Prop) (own out : List Nat) (n n' : Nat)
    (l : List Item) : Prop where
  mono : n ≤ n'
  labels : ∀ k, .place k ∈ l → (n ≤ k ∧ k < n') ∨ k ∈ own
  targets : ∀ it ∈ l, ∀ k, it.target = some k → .place k ∈ l ∨ k ∈ out
  callees : ∀ k, .bl k ∈ l → calls k
  svc : SvcOk S l
  raw : ∀ i, .ins i ∈ l → i.isBranch = true → i = .b 0

variable {own' out' : List Nat} {c : Bool} {r : Reg} {name kind : String} {off : Int}
  {m : CapMethod}

namespace Seg

variable {S : List Nat} {calls : Nat → Prop} {own out : List Nat} {n n' n'' : Nat}
  {l l' : List Item}

theorem append (h : Seg S calls own out n n' l) (h' : Seg S calls own out n' n'' l') :
    Seg S calls own out n n'' (l ++ l') where
  mono := h.mono.trans h'.mono
  labels k hk := by
    rcases mem_append.1 hk with hk | hk
    · have hm := h'.mono
      exact (h.labels k hk).imp (fun hb => ⟨hb.1, by omega⟩) id
    · have hm := h.mono
      exact (h'.labels k hk).imp (fun hb => ⟨by omega, hb.2⟩) id
  targets it hit k hk := by
    rcases mem_append.1 hit with hit | hit
    · exact (h.targets it hit k hk).imp (List.mem_append_left _) id
    · exact (h'.targets it hit k hk).imp (List.mem_append_right _) id
  callees k hk := (mem_append.1 hk).elim (h.callees k) (h'.callees k)
  svc := h.svc.append h'.svc
  raw i hi := (mem_append.1 hi).elim (h.raw i) (h'.raw i)

theorem weaken (ho : own ⊆ own') (hu : out ⊆ out')
    (h : Seg S calls own out n n' l) : Seg S calls own' out' n n' l where
  mono := h.mono
  labels k hk := (h.labels k hk).imp id (ho ·)
  targets it hit k hk := (h.targets it hit k hk).imp id (hu ·)
  callees := h.callees
  svc := h.svc
  raw := h.raw

theorem of_plain (h : ∀ it ∈ l, match it with
      | .ins i => i.isPlain = true ∨ i = .ret
      | .adrp .. | .add12 .. => True
      | _ => False) : Seg S calls own out n n l where
  mono := le_rfl
  labels k hk := (h _ hk).elim
  targets it hit k hk := by
    have := h it hit
    cases it <;> simp_all [Item.target]
  callees k hk := (h _ hk).elim
  svc := SvcOk.of_notMem fun hm => by
    have := h _ hm
    simp [Instr.isPlain] at this
  raw i hi hb := by
    rcases h _ hi with hp | rfl
    · cases i <;> first | (cases hb; done) | (cases hp; done)
    · cases hb

end Seg

/-- Everything `x` appends is such a segment. -/
def Fits (S : List Nat) (calls : Nat → Prop) (own out : List Nat) {α : Type} (x : GenM α) : Prop :=
  ∀ s a l s', x s = .ok (a, l, s') → Seg S calls own out s.nlab s'.nlab l

/-- `x` always places the label. -/
def Places (k : Nat) {α : Type} (x : GenM α) : Prop :=
  ∀ s a l s', x s = .ok (a, l, s') → .place k ∈ l

variable {x : GenM α} {f : α → GenM β} {t : Ty} {a b : GenM Unit} {i : Info} {as : List (GenM Unit)}

namespace Fits

variable {S : List Nat} {calls : Nat → Prop} {own out : List Nat} {α β : Type}

theorem bind (hx : Fits S calls own out x)
    (hf : ∀ a, Fits S calls own out (f a)) : Fits S calls own out (x >>= f) := by
  intro s b l s' h
  obtain ⟨a, l₁, s1, h1, l₂, h2, rfl⟩ := bind_ok.1 h
  exact (hx s a l₁ s1 h1).append (hf a s1 b l₂ s' h2)

theorem seq {y : GenM β} (hx : Fits S calls own out x) (hy : Fits S calls own out y) :
    Fits S calls own out (x >>= fun _ => y) := hx.bind fun _ => hy

theorem pure (a : α) : Fits S calls own out (Pure.pure a : GenM α) := by
  intro s b l s' h
  obtain ⟨-, rfl, rfl⟩ := pure_ok.1 h
  exact Seg.of_plain (by simp)

theorem weaken (ho : own ⊆ own') (hu : out ⊆ out')
    (h : Fits S calls own out x) : Fits S calls own' out' x :=
  fun s a l s' hx => (h s a l s' hx).weaken ho hu

theorem anywhere (h : Fits S calls [] [] x) : Fits S calls own out x :=
  h.weaken (List.nil_subset _) (List.nil_subset _)

theorem fail (E : Env) (p : Pos) (text : String) :
    Fits S calls own out (dieGen E p text : GenM α) := by
  intro s a l s' h
  exact (Emit.fail_ok.1 h).elim

theorem emit {i : Instr} (h : i.isPlain = true) : Fits S calls own out (emit i) := by
  intro s a l s' hx
  obtain ⟨rfl, rfl⟩ := out_ok.1 hx
  exact Seg.of_plain (by simp [h])

theorem emitRet : Fits S calls own out (Verkos.Sav.emit .ret) := by
  intro s a l s' hx
  obtain ⟨rfl, rfl⟩ := out_ok.1 hx
  exact Seg.of_plain (by simp)

theorem plains {is : List Instr} (h : ∀ i ∈ is, i.isPlain = true) :
    Fits S calls own out (Emit.out (is.map .ins) : GenM Unit) := by
  intro s a l s' hx
  obtain ⟨rfl, rfl⟩ := out_ok.1 hx
  refine Seg.of_plain fun it hit => ?_
  obtain ⟨i, hi, rfl⟩ := List.mem_map.1 hit
  exact .inl (h i hi)

theorem emitAddr (rd : Reg) (sect : Sect) (off : Int) :
    Fits S calls own out (emitAddr rd sect off) := by
  intro s a l s' hx
  obtain ⟨rfl, rfl⟩ := out_ok.1 hx
  exact Seg.of_plain (by simp)

theorem modify {g : GState → GState} (hg : ∀ s, (g s).nlab = s.nlab) :
    Fits S calls own out (Emit.modify g : GenM Unit) := by
  intro s a l s' hx
  obtain ⟨rfl, rfl⟩ := Emit.modify_ok.1 hx
  rw [hg]
  exact Seg.of_plain (by simp)

theorem addRodata (bytes : List UInt8) : Fits S calls own out (addRodata bytes) := by
  intro s a l s' hx
  simp only [Verkos.Sav.addRodata, Except.ok.injEq, Prod.mk.injEq] at hx
  obtain ⟨-, rfl, rfl⟩ := hx
  exact Seg.of_plain (by simp)

theorem onlyIf {x : GenM Unit} (h : c = true → Fits S calls own out x) :
    Fits S calls own out (Emit.onlyIf c x) := by
  unfold Emit.onlyIf
  split
  · rename_i hc
    exact h hc
  · exact .pure ()

theorem item {it : Item} (hp : ∀ k, it = .place k → k ∈ own)
    (ht : ∀ k, it.target = some k → k ∈ out) (hc : ∀ k, it = .bl k → calls k)
    (hs : ∀ i, it ≠ .ins i) : Fits S calls own out (Emit.out [it] : GenM Unit) := by
  intro s a l s' hx
  obtain ⟨rfl, rfl⟩ := out_ok.1 hx
  refine ⟨le_rfl, fun k hk => ?_, fun it' hit k hk => ?_, fun k hk => ?_, ?_, fun i hi _ => ?_⟩
  · exact .inr (hp k (mem_singleton.1 hk).symm)
  · rw [mem_singleton.1 hit] at hk
    exact .inr (ht k hk)
  · exact hc k (mem_singleton.1 hk).symm
  · exact SvcOk.of_notMem fun hm => hs _ (mem_singleton.1 hm).symm
  · exact (hs i (mem_singleton.1 hi).symm).elim

theorem emitSelf : Fits S calls own out (Verkos.Sav.emit (.b 0)) := by
  intro s a l s' hx
  obtain ⟨rfl, rfl⟩ := out_ok.1 hx
  refine ⟨le_rfl, by simp, fun it hit k hk => ?_, by simp, SvcOk.of_notMem (by simp), ?_⟩
  · rw [mem_singleton.1 hit] at hk
    cases hk
  · intro i hi _
    simpa using hi

theorem place {k : Nat} (h : k ∈ own) : Fits S calls own out (place k) :=
  item (fun _ he => by cases he; exact h) (fun _ he => by cases he) (fun _ he => by cases he)
    fun _ he => by cases he

theorem emitBranch {k : Nat} (h : k ∈ out) : Fits S calls own out (emitBranch k) :=
  item (fun _ he => by cases he) (fun _ he => by cases he; exact h) (fun _ he => by cases he)
    fun _ he => by cases he

theorem emitBcond {c : Cond} {k : Nat} (h : k ∈ out) : Fits S calls own out (emitBcond c k) :=
  item (fun _ he => by cases he) (fun _ he => by cases he; exact h) (fun _ he => by cases he)
    fun _ he => by cases he

theorem emitCbz {k : Nat} (h : k ∈ out) : Fits S calls own out (emitCbz r k) :=
  item (fun _ he => by cases he) (fun _ he => by cases he; exact h) (fun _ he => by cases he)
    fun _ he => by cases he

theorem emitCbnz {k : Nat} (h : k ∈ out) :
    Fits S calls own out (Emit.out [.cbnz r k] : GenM Unit) :=
  item (fun _ he => by cases he) (fun _ he => by cases he; exact h) (fun _ he => by cases he)
    fun _ he => by cases he

theorem emitCall {k : Nat} (h : calls k) : Fits S calls own out (emitCall k) :=
  item (fun _ he => by cases he) (fun _ he => by cases he) (fun _ he => by cases he; exact h)
    fun _ he => by cases he

theorem withLabel {f : Nat → GenM β} (hf : ∀ k, Fits S calls (k :: own) (k :: out) (f k))
    (hp : ∀ k, Places k (f k)) : Fits S calls own out (newlab >>= f) := by
  intro s b l s' h
  obtain ⟨k, l₁, s1, h1, l₂, h2, rfl⟩ := bind_ok.1 h
  simp only [newlab, Except.ok.injEq, Prod.mk.injEq] at h1
  obtain ⟨rfl, rfl, rfl⟩ := h1
  have hseg := hf s.nlab _ b l₂ s' h2
  have hpl := hp s.nlab _ b l₂ s' h2
  have hm : s.nlab + 1 ≤ s'.nlab := hseg.mono
  rw [nil_append]
  refine ⟨by omega, fun k hk => ?_, fun it hit k hk => ?_, hseg.callees, hseg.svc, hseg.raw⟩
  · rcases hseg.labels k hk with hb | hb
    · have hb1 : s.nlab + 1 ≤ k := hb.1
      exact .inl ⟨by omega, hb.2⟩
    · rcases mem_cons.1 hb with rfl | hb
      · exact .inl ⟨le_rfl, by omega⟩
      · exact .inr hb
  · rcases hseg.targets it hit k hk with hb | hb
    · exact .inl hb
    · rcases mem_cons.1 hb with rfl | hb
      · exact .inl hpl
      · exact .inr hb

end Fits

namespace Places

variable {k : Nat} {α β : Type}

theorem place : Places k (place k) := by
  intro s a l s' h
  obtain ⟨rfl, rfl⟩ := out_ok.1 h
  exact mem_singleton.2 rfl

theorem left (hx : Places k x) : Places k (x >>= f) := by
  intro s b l s' h
  obtain ⟨a, l₁, s1, h1, l₂, h2, rfl⟩ := bind_ok.1 h
  exact List.mem_append_left _ (hx s a l₁ s1 h1)

theorem right (hf : ∀ a, Places k (f a)) : Places k (x >>= f) := by
  intro s b l s' h
  obtain ⟨a, l₁, s1, h1, l₂, h2, rfl⟩ := bind_ok.1 h
  exact List.mem_append_right _ (hf a s1 b l₂ s' h2)

end Places

/-! ## Straight-line pieces -/

section Pieces

variable {S : List Nat} {calls : Nat → Prop} {own out : List Nat}

section Moves

variable {P : Instr → Prop} {rd : Reg} {v : Word}

theorem immLoop_all (hz : ∀ p hw, P (.movz rd p hw)) (hk : ∀ p hw, P (.movk rd p hw)) (first : Bool)
    (hws : List (Fin 4)) : ∀ i ∈ immLoop rd v first hws, P i := by
  induction hws generalizing first with
  | nil => exact fun i hi => by cases hi
  | cons hw rest ih =>
    intro i hi
    rw [immLoop] at hi
    split at hi
    · exact ih first i hi
    · rcases mem_cons.1 hi with rfl | hi
      · cases first
        · exact hk _ _
        · exact hz _ _
      · exact ih false i hi

theorem immCode_all (hz : ∀ p hw, P (.movz rd p hw)) (hk : ∀ p hw, P (.movk rd p hw))
    (hn : ∀ p hw, P (.movn rd p hw)) : ∀ i ∈ immCode rd v, P i := by
  unfold immCode
  split_ifs
  · exact fun i hi => mem_singleton.1 hi ▸ hz _ _
  · exact fun i hi => mem_singleton.1 hi ▸ hn _ _
  · exact immLoop_all hz hk true _

end Moves

theorem immCode_plain (rd : Reg) (v : Word) : ∀ i ∈ immCode rd v, i.isPlain = true :=
  immCode_all (fun _ _ => rfl) (fun _ _ => rfl) fun _ _ => rfl

theorem fits_emitImm (rd : Reg) (v : Word) : Fits S calls own out (emitImm rd v) :=
  Fits.plains (immCode_plain rd v)

theorem fits_emitSubSp (n : Int) : Fits S calls own out (emitSubSp n) :=
  Fits.bind (.onlyIf fun _ => .emit rfl) fun _ => .onlyIf fun _ => .emit rfl

theorem fits_localAddr (rd : Reg) (off : Int) : Fits S calls own out (localAddr rd off) := by
  unfold localAddr
  split
  · exact .emit rfl
  · exact .seq (fits_emitImm _ _) <| .emit rfl

theorem fits_pushPair : Fits S calls own out pushPair := .emit rfl

theorem fits_popPair (r r' : Reg) : Fits S calls own out (popPair r r') := .emit rfl

theorem fits_loadValue (r : Reg) (off : Int) (t : Ty) :
    Fits S calls own out (loadValue r off t) := by
  unfold loadValue
  split
  · split
    · exact .emit rfl
    · exact .seq (fits_emitImm _ _) <| .emit rfl
  · split
    · exact .seq (.emit rfl) <| .emit rfl
    · exact .emit rfl

theorem copyCode_plain (off : Int) (n : Nat) : ∀ i ∈ copyCode off n, i.isPlain = true := by
  intro i hi
  rcases mem_append.1 hi with hi | hi
  · obtain ⟨k, -, hi⟩ := List.mem_flatMap.1 hi
    rcases mem_pair.1 hi with rfl | rfl <;> rfl
  · obtain ⟨k, -, hi⟩ := List.mem_flatMap.1 hi
    rcases mem_pair.1 hi with rfl | rfl <;> rfl

theorem fits_storeValue (r : Reg) (off : Int) (t : Ty) :
    Fits S calls own out (storeValue r off t) := by
  unfold storeValue
  split
  · exact .seq (.emit rfl) <| .emit rfl
  · split
    · exact .seq (.emit rfl) <| .plains (copyCode_plain _ _)
    · exact .emit rfl

theorem fits_frameLoad (off : Int) (t : Ty) : Fits S calls own out (frameLoad off t) := by
  unfold frameLoad
  split
  · exact fits_loadValue _ _ _
  · exact .seq (fits_localAddr _ _) <| fits_loadValue _ _ _

theorem fits_frameStore (off : Int) (t : Ty) : Fits S calls own out (frameStore off t) := by
  unfold frameStore
  split
  · exact fits_storeValue _ _ _
  · exact .seq fits_pushPair <| .seq (fits_localAddr _ _) <|
      Fits.bind (fits_popPair _ _) fun _ => fits_storeValue _ _ _

theorem fits_frameStoreField (slot field : Int) (t : Ty) :
    Fits S calls own out (frameStoreField slot field t) := by
  unfold frameStoreField
  refine .seq fits_pushPair <| .seq (fits_localAddr _ _) ?_
  refine .seq (.onlyIf fun _ => ?_) ?_
  · exact .seq (fits_emitImm _ _) <| .emit rfl
  · exact .seq (fits_popPair _ _) <| fits_storeValue _ _ _

theorem fits_genCmpSet (op : BinOp) (sg : Bool) : Fits S calls own out (genCmpSet op sg) :=
  Fits.bind (.emit rfl) fun _ => .emit rfl

theorem fits_genScale (t : Ty) : Fits S calls own out (genScale t) := by
  unfold genScale
  split
  · exact .seq (fits_emitImm _ _) <| .emit rfl
  · exact .pure ()

theorem fits_genOp (op : BinOp) (t : Ty) : Fits S calls own out (genOp op t) := by
  have pick : ∀ (c : Bool) (i j : Instr), i.isPlain = true → j.isPlain = true →
      (if c then i else j).isPlain = true := by
    intro c i j hi hj
    split
    · exact hi
    · exact hj
  cases op with
  | add | sub => exact .seq (fits_genScale t) <| .emit rfl
  | div | shr => exact .emit (pick _ _ _ rfl rfl)
  | mod => exact .seq (.emit (pick _ _ _ rfl rfl)) <| .emit rfl
  | mul | and | or | xor | shl => exact .emit rfl
  | lt | le | gt | ge | eq | ne | andand | oror => exact fits_genCmpSet _ _

theorem fits_extend (s : Bool) (w : Width) :
    Fits S calls own out (emit (if s then .sxt X0 X0 w else .uxt X0 X0 w)) := by
  split <;> exact .emit rfl

theorem fits_genNarrow (op : BinOp) (t : Ty) : Fits S calls own out (genNarrow op t) := by
  unfold genNarrow
  split
  · exact .pure ()
  · split
    · exact .pure ()
    · exact fits_extend _ _
  · exact .pure ()

theorem fits_genCast (src dst : Ty) : Fits S calls own out (genCast src dst) := by
  unfold genCast
  split
  · exact .seq (fits_emitImm _ _) <| .seq (.emit rfl) <| .emit rfl
  · split
    · exact .pure ()
    · exact fits_extend _ _
    · exact .pure ()
  · exact fits_extend _ _
  · exact .pure ()

theorem fits_genArrayLen (t : Ty) : Fits S calls own out (genArrayLen t) := by
  unfold genArrayLen
  split
  · exact fits_emitImm _ _
  · exact .pure ()

theorem fits_genOffset (off : Int) : Fits S calls own out (genOffset off) :=
  Fits.onlyIf fun _ => .seq (fits_emitImm _ _) <| .emit rfl

theorem fits_genSliceStart (t : Ty) : Fits S calls own out (genSliceStart t) := by
  unfold genSliceStart
  split
  · exact .emit rfl
  · exact .seq (fits_emitImm _ _) <| .emit rfl

theorem fits_genPopAll : ∀ ps : List Param, Fits S calls own out (genPopAll ps)
  | [] => .pure ()
  | _ :: ps => .seq (fits_genPopAll ps) <| fits_popPair _ _

theorem fits_genVarAddr (E : Env) (y : Sym) : Fits S calls own out (genVarAddr E y) := by
  unfold genVarAddr
  split
  · exact .emitAddr _ _ _
  · exact fits_localAddr _ _

theorem fits_genVar (E : Env) (t : Ty) (y : Sym) : Fits S calls own out (genVar E t y) := by
  unfold genVar
  split
  · exact .seq (.emitAddr _ _ _) <| fits_loadValue _ _ _
  · split
    · exact fits_localAddr _ _
    · exact fits_frameLoad _ _

theorem fits_genEpilogue : Fits S calls own out genEpilogue :=
  Fits.bind (.emit rfl) fun _ => .bind (.emit rfl) fun _ => .emitRet

theorem fits_genBinds (off : Int) :
    ∀ bs : List (Sym × Int × Ty), Fits S calls own out (genBinds off bs)
  | [] => .pure ()
  | (_, _, _) :: bs => .seq (fits_frameLoad _ _) <|
      Fits.bind (fits_loadValue _ _ _) fun _ => .bind (fits_frameStore _ _) fun _ =>
        fits_genBinds off bs

theorem fits_genArmHead (off : Int) (h : TArm) : Fits S calls own out (genArmHead off h) := by
  cases h with
  | otherwise => exact .pure ()
  | case k bs => exact fits_genBinds off bs

theorem fits_genSret (f : TFn) : Fits S calls own out (genSret f) := by
  unfold genSret
  split
  · split
    · exact .emit rfl
    · exact .seq (fits_localAddr _ _) <| .emit rfl
  · exact .pure ()

theorem fits_genParams : ∀ ps : List Param, Fits S calls own out (genParams ps)
  | [] => .pure ()
  | _ :: ps => .seq (.emit rfl) <|
      Fits.bind (.onlyIf fun _ => .emit rfl) fun _ =>
        Fits.bind (fits_frameStore _ _) fun _ => fits_genParams ps

theorem fits_genCaps : ∀ (r : Nat) (ps : List (String × Ty)), Fits S calls own out (genCaps r ps)
  | _, [] => .pure ()
  | r, (_, _) :: ps => .seq (fits_emitImm _ _) <| fits_genCaps (r + 1) ps

theorem immCode_known {n : Nat} (h : n ∈ knownCalls) :
    immCode X8 (BitVec.ofNat 64 n) = [.movz X8 (BitVec.ofNat 16 n) 0] ∧
      (BitVec.ofNat 16 n).toNat = n := by
  simp only [knownCalls, mem_cons, not_mem_nil, or_false] at h
  rcases h with rfl | rfl | rfl | rfl | rfl | rfl <;> decide

theorem fits_genSvc {n : Nat} (hn : n ∈ S) (hk : n ∈ knownCalls) :
    Fits S calls own out (genSvc n) := by
  intro s a l s' h
  obtain ⟨_, l₁, s1, h1, l₂, h2, rfl⟩ := bind_ok.1 h
  obtain ⟨rfl, rfl⟩ := out_ok.1 h1
  obtain ⟨rfl, rfl⟩ := out_ok.1 h2
  obtain ⟨himm, hto⟩ := immCode_known hk
  rw [himm]
  refine ⟨le_rfl, ?_, ?_, ?_, SvcOk.pair (by rw [hto]; exact hn), ?_⟩
  · simp
  · intro it hit k hk
    simp only [map_cons, map_nil, List.cons_append, nil_append, mem_cons,
      not_mem_nil, or_false] at hit
    rcases hit with rfl | rfl <;> cases hk
  · simp
  · intro i hi
    simp only [map_cons, map_nil, List.cons_append, nil_append, mem_cons,
      not_mem_nil, or_false, Item.ins.injEq] at hi
    rcases hi with rfl | rfl <;> exact fun hb => nomatch hb

end Pieces

/-! ## Expressions and statements -/

/-- What the code of a program may call: its functions, the pieces it makes the compiler add, and
the report of a failed check when the manifest covers one. -/
def UserCalls (nfns : Nat) (S : List Nat) (k : Nat) : Prop :=
  (∃ i < nfns, k = fnLabel i) ∨ k = lblArgget ∨ k = lblCstr ∨ k = lblRange ∨
    (k = lblFail ∧ 64 ∈ S)

section Tree

variable {S : List Nat} {N : Nat} {own out : List Nat} {E : Env}

theorem fits_genRangeFail (file : String) (line : Nat) (what l1 l2 : String) :
    Fits S (UserCalls N S) own out (genRangeFail file line what l1 l2) := by
  unfold genRangeFail
  refine .seq (.modify fun _ => rfl) ?_
  refine .bind (.addRodata _) fun _ => .bind (.addRodata _) fun _ => ?_
  refine .bind (.addRodata _) fun _ => .bind (.emitAddr _ _ _) fun _ => ?_
  refine .seq (fits_emitImm _ _) <| .seq (.emitAddr _ _ _) ?_
  refine .seq (fits_emitImm _ _) <| .seq (.emitAddr _ _ _) ?_
  exact .seq (fits_emitImm _ _) <|
    Fits.emitCall (.inr (.inr (.inr (.inl rfl))))

theorem fits_genBoundsCheck (file : String) (line : Nat) (what : String) :
    Fits S (UserCalls N S) own out (genBoundsCheck file line what) := by
  refine .withLabel (fun k => ?_) fun k => ?_
  · refine .seq (.emit rfl) <| .seq (.emitBcond (by simp)) ?_
    refine .seq (.emit rfl) ?_
    exact .seq (fits_genRangeFail _ _ _ _ _) <| .place (by simp)
  · exact .right fun _ => .right fun _ => .right fun _ =>
      Places.right fun _ => .place

theorem fits_genSliceChecks (file : String) (line : Nat) :
    Fits S (UserCalls N S) own out (genSliceChecks file line) := by
  refine .withLabel (fun k => .withLabel (fun k' => ?_) fun k' => ?_) fun k => ?_
  · refine .seq (.emit rfl) <| .seq (.emitBcond (by simp)) ?_
    refine .seq (.emit rfl) <| .seq (.emit rfl) ?_
    refine .seq (fits_genRangeFail _ _ _ _ _) ?_
    refine .seq (.place (by simp)) <| .seq (.emit rfl) ?_
    refine .seq (.emitBcond (by simp)) <| .seq (.emit rfl) ?_
    refine .seq (.emit rfl) ?_
    exact .seq (fits_genRangeFail _ _ _ _ _) <| .place (by simp)
  · iterate 11 refine .right fun _ => ?_
    exact .place
  · iterate 6 refine .right fun _ => ?_
    exact .left Places.place

theorem fits_genBinary {op : BinOp} {ta : Ty}
    (ha : Fits S (UserCalls N S) [] [] a) (hb : Fits S (UserCalls N S) [] [] b) :
    Fits S (UserCalls N S) own out (genBinary op t ta a b) := by
  have strict : ∀ op, Fits S (UserCalls N S) own out (do
      a; pushPair; b; emit (.mov X2 X0); popPair X0 X1; emit (.mov X1 X2); genOp op ta
      genNarrow op t) := fun op =>
    Fits.bind ha.anywhere fun _ => .bind fits_pushPair fun _ => .bind hb.anywhere fun _ =>
      Fits.bind (.emit rfl) fun _ => .bind (fits_popPair _ _) fun _ =>
        Fits.bind (.emit rfl) fun _ => .bind (fits_genOp _ _) fun _ => fits_genNarrow _ _
  cases op with
  | andand =>
    refine .withLabel (fun k => ?_) fun k => ?_
    · exact .seq ha.anywhere <| .seq (.emitCbz (by simp)) <|
        Fits.bind hb.anywhere fun _ => .place (by simp)
    · exact .right fun _ => .right fun _ => .right fun _ => .place
  | oror =>
    refine .withLabel (fun k => ?_) fun k => ?_
    · exact .seq ha.anywhere <| .seq (fits_emitImm _ _) <|
        Fits.bind (.emit rfl) fun _ => .bind (.emitBcond (by simp)) fun _ =>
          Fits.bind hb.anywhere fun _ => .place (by simp)
    · exact .right fun _ => .right fun _ => .right fun _ =>
        Places.right fun _ => .right fun _ => .place
  | _ => exact strict _

theorem fits_genUnary {op : UnOp} (ha : Fits S (UserCalls N S) own out a) :
    Fits S (UserCalls N S) own out (genUnary op a) := by
  refine .seq ha ?_
  cases op with
  | neg | compl => exact .emit rfl
  | not =>
    exact .seq (fits_emitImm _ _) <| .seq (.emit rfl) <| .emit rfl

theorem fits_genPushAll : ∀ {as : List (GenM Unit)}, (∀ a ∈ as, Fits S (UserCalls N S) own out a) →
    Fits S (UserCalls N S) own out (genPushAll as)
  | [], _ => .pure ()
  | _ :: _, h => .seq (h _ mem_cons_self) <| .seq fits_pushPair <|
      fits_genPushAll fun a ha => h a (mem_cons_of_mem _ ha)

theorem callee_label {f : TFn} {l : Nat} (h : E.callee name = some (f, l)) :
    ∃ i, i < E.unit.fns.length ∧ l = fnLabel i ∧ E.unit.fns[i]? = some f := by
  unfold Env.callee at h
  split at h
  · cases h
  · rename_i i hi
    split at h
    · cases h
    · rename_i g hg
      obtain ⟨rfl, rfl⟩ := Prod.mk.inj (Option.some.inj h)
      exact ⟨i, (List.getElem?_eq_some_iff.1 hg).1, rfl, hg⟩

theorem fits_genCall (hN : E.unit.fns.length = N) (h : ∀ a ∈ as, Fits S (UserCalls N S) own out a) :
    Fits S (UserCalls N S) own out (genCall E i name off as) := by
  unfold genCall
  split
  · exact .fail _ _ _
  · rename_i f l hl
    obtain ⟨j, hj, rfl, -⟩ := callee_label hl
    refine .seq (fits_genPushAll h) <| .seq (fits_genPopAll _) ?_
    refine .seq (.onlyIf fun _ => fits_localAddr _ _) ?_
    exact .emitCall (.inl ⟨j, hN ▸ hj, rfl⟩)

theorem fits_getD (h : ∀ a ∈ as, Fits S (UserCalls N S) own out a)
    (k : Nat) : Fits S (UserCalls N S) own out (as.getD k (pure ())) := by
  rw [List.getD_eq_getElem?_getD]
  cases hk : as[k]? with
  | none => exact .pure ()
  | some a => exact h a (List.mem_of_getElem? hk)

theorem sysno_pos {c : CapId} (h : m ∈ c.methods) (hc : c ≠ .args) : m.sysno ≠ 0 := by
  cases c <;> simp only [CapId.methods, mem_cons, not_mem_nil, or_false] at h
  · rcases h with rfl | rfl | rfl <;> decide
  · exact absurd rfl hc
  · rcases h with rfl | rfl | rfl | rfl <;> decide
  · subst h
    decide

theorem fits_genMethod {c : CapId} (hm : m ∈ c.methods) (hS : m.sysno = 0 ∨ m.sysno ∈ S)
    (h : ∀ a ∈ as, Fits S (UserCalls N S) own out a) :
    Fits S (UserCalls N S) own out (genMethod E i c m as) := by
  have svc : c ≠ .args → Fits S (UserCalls N S) own out (genSvc m.sysno) := fun hc =>
    fits_genSvc (hS.resolve_left (sysno_pos hm hc))
      ((sysno_known hm).resolve_left (sysno_pos hm hc))
  have console : ∀ fd, c ≠ .args →
      Fits S (UserCalls N S) own out (genConsole fd m.sysno (as.getD 0 (pure ()))) := fun fd hc =>
    Fits.bind (fits_getD h 0) fun _ => .bind (.emit rfl) fun _ =>
      Fits.bind (.emit rfl) fun _ => .bind (fits_emitImm _ _) fun _ => svc hc
  unfold genMethod
  dsimp only
  cases c with
  | console =>
    dsimp only
    split
    · exact console _ (by decide)
    · split
      · exact console _ (by decide)
      · split
        · exact console _ (by decide)
        · exact .fail _ _ _
  | proc => exact svc (by decide)
  | args =>
    dsimp only
    split
    · exact .seq (.emitAddr _ _ _) <| .seq (.emit rfl) <|
        Fits.emit rfl
    · exact .seq (fits_getD h 0) <| .seq (.modify fun _ => rfl) <|
        Fits.emitCall (.inr (.inl rfl))
  | files =>
    dsimp only
    split
    · refine .seq (fits_getD h 0) <| .seq fits_pushPair ?_
      refine .seq (fits_getD h 1) <| .seq fits_pushPair ?_
      refine .seq (fits_popPair _ _) <| .seq (fits_popPair _ _) ?_
      refine .seq (.modify fun _ => rfl) ?_
      refine .seq (.emitCall (.inr (.inr (.inl rfl)))) ?_
      refine .seq (.emit rfl) <| .seq (fits_emitImm _ _) ?_
      refine .seq (.emit rfl) <| .seq (fits_emitImm _ _) ?_
      exact svc (by decide)
    · split
      · refine .seq (fits_getD h 0) <| .seq fits_pushPair ?_
        refine .seq (fits_getD h 1) <| .seq fits_pushPair ?_
        refine .seq (fits_popPair _ _) <| .seq (fits_popPair _ _) ?_
        exact svc (by decide)
      · split
        · exact .seq (fits_getD h 0) <| svc (by decide)
        · exact .fail _ _ _

theorem fits_genIndexAddr
    (ha : Fits S (UserCalls N S) own out a) (hb : Fits S (UserCalls N S) own out b) :
    Fits S (UserCalls N S) own out (genIndexAddr E i t a b) := by
  refine .seq ha <| .seq fits_pushPair <| .seq hb ?_
  refine .seq (.emit rfl) <| .seq (fits_popPair _ _) ?_
  refine .seq (fits_genArrayLen _) <| .seq (fits_genBoundsCheck _ _ _) ?_
  refine .seq (.onlyIf fun _ => ?_) <| .emit rfl
  exact .seq (fits_emitImm _ _) <| .emit rfl

theorem fits_genSlice {lo hi : GenM Unit}
    (ha : Fits S (UserCalls N S) own out a) (hlo : Fits S (UserCalls N S) own out lo)
    (hhi : Fits S (UserCalls N S) own out hi) :
    Fits S (UserCalls N S) own out (genSlice E i t a lo hi) := by
  refine .seq ha <| .seq (fits_genArrayLen _) ?_
  refine .seq fits_pushPair <| .seq hlo <| .seq fits_pushPair ?_
  refine .seq hhi <| .seq (.emit rfl) ?_
  refine .seq (fits_popPair _ _) <| .seq (fits_popPair _ _) ?_
  refine .seq (.onlyIf fun _ => fits_genSliceChecks _ _) ?_
  exact .seq (fits_genSliceStart _) <| .seq (.emit rfl) <| .emit rfl

theorem fits_genPayload (off : Int) : ∀ {as : List (GenM Unit)} {fs : List (Ty × Int)},
      (∀ a ∈ as, Fits S (UserCalls N S) own out a) →
        Fits S (UserCalls N S) own out (genPayload off as fs)
  | [], _, _ => .pure ()
  | _ :: _, [], _ => .pure ()
  | _ :: _, (_, _) :: _, h => .seq (h _ mem_cons_self) <|
      Fits.bind (fits_frameStoreField _ _ _) fun _ =>
        fits_genPayload off fun a ha => h a (mem_cons_of_mem _ ha)

theorem fits_genAssign (ha : Fits S (UserCalls N S) own out a)
    (hb : Fits S (UserCalls N S) own out b) : Fits S (UserCalls N S) own out (genAssign t a b) :=
  Fits.bind ha fun _ => .bind fits_pushPair fun _ => .bind hb fun _ =>
    Fits.bind (fits_popPair _ _) fun _ => fits_storeValue _ _ _

theorem fits_base (ha : Fits S (UserCalls N S) own out a) (hb : Fits S (UserCalls N S) own out b) :
    Fits S (UserCalls N S) own out (if c then a else b) := by
  split
  · exact ha
  · exact hb

mutual

theorem fits_genAddr (hN : E.unit.fns.length = N) : ∀ {e : TExpr}, Recorded S e →
    Fits S (UserCalls N S) [] [] (genAddr E e)
  | .var .., _ => fits_genVarAddr _ _
  | .deref .., r => fits_genExpr hN r
  | .field .., r => .seq (fits_base (fits_genExpr hN r) (fits_genAddr hN r)) <|
      fits_genOffset _
  | .slicePtr _ a, r => fits_genAddr hN (e := a) r
  | .index .., r => fits_genIndexAddr (fits_base (fits_genAddr hN r.1) (fits_genExpr hN r.1))
      (fits_genExpr hN r.2)
  | .int .., _ | .bool .., _ | .str .., _ | .call .., _ | .method .., _ | .unary .., _
  | .binary .., _ | .len .., _ | .slice .., _ | .sliceToEnd .., _ | .addr .., _ | .cast .., _
  | .assign .., _ | .variant .., _ => .fail _ _ _

theorem fits_genExpr (hN : E.unit.fns.length = N) : ∀ {e : TExpr}, Recorded S e →
    Fits S (UserCalls N S) [] [] (genExpr E e)
  | .int .., _ | .bool .., _ => fits_emitImm _ _
  | .str .., _ => .bind (.addRodata _) fun _ => .bind (.emitAddr _ _ _) fun _ =>
      fits_emitImm _ _
  | .var .., _ => fits_genVar _ _ _
  | .call _ _ as _, r => fits_genCall hN (fits_genAll hN r)
  | .method _ _ _ _ as, r => fits_genMethod r.1.1 r.1.2 (fits_genAll hN r.2)
  | .unary _ _ a, r => fits_genUnary (fits_genExpr hN (e := a) r)
  | .binary .., r => fits_genBinary (fits_genExpr hN r.1) (fits_genExpr hN r.2)
  | .index .., r => .bind (fits_genIndexAddr
      (fits_base (fits_genAddr hN r.1) (fits_genExpr hN r.1)) (fits_genExpr hN r.2)) fun _ =>
        fits_loadValue _ _ _
  | .field _ a _, r => .bind (.bind
      (fits_base (fits_genExpr hN (e := a) r) (fits_genAddr hN (e := a) r)) fun _ =>
        fits_genOffset _) fun _ => fits_loadValue _ _ _
  | .slicePtr _ a, r => .seq (fits_genAddr hN (e := a) r) <| fits_loadValue _ _ _
  | .len _ a, r => by
    rw [genExpr]
    split
    · exact fits_emitImm _ _
    · exact .seq (fits_genExpr hN (e := a) r) <| .emit rfl
  | .slice .., r => fits_genSlice (fits_base (fits_genAddr hN r.1) (fits_genExpr hN r.1))
      (fits_genExpr hN r.2.1) (fits_genExpr hN r.2.2)
  | .sliceToEnd .., r => fits_genSlice (fits_base (fits_genAddr hN r.1) (fits_genExpr hN r.1))
      (fits_genExpr hN r.2) (.emit rfl)
  | .variant _ _ _ as _, r => .seq (fits_emitImm _ _) <|
      Fits.bind (fits_frameStoreField _ _ _) fun _ =>
        Fits.bind (fits_genPayload _ (show ∀ a ∈ genAll E as, _ from fits_genAll hN r)) fun _ =>
          fits_localAddr _ _
  | .addr _ a, r => fits_genAddr hN (e := a) r
  | .deref _ _ a, r => .seq (fits_genExpr hN (e := a) r) <| fits_loadValue _ _ _
  | .cast _ a, r => .seq (fits_genExpr hN (e := a) r) <| fits_genCast _ _
  | .assign .., r => fits_genAssign (fits_genAddr hN r.1) (fits_genExpr hN r.2)

theorem fits_genAll (hN : E.unit.fns.length = N) : ∀ {as : List TExpr}, RecordedAll S as →
    ∀ a ∈ genAll E as, Fits S (UserCalls N S) [] [] a
  | [], _, a, ha => by simp [genAll] at ha
  | b :: bs, r, a, ha => by
    rw [genAll] at ha
    rcases mem_cons.1 ha with rfl | ha
    · exact fits_genExpr hN r.1
    · exact fits_genAll hN r.2 a ha

end

theorem fits_genCheck (hN : E.unit.fns.length = N) {e : TExpr} {text : String} {line : Nat}
    (r : Recorded S e) (h : 64 ∈ S) :
    Fits S (UserCalls N S) own out (genCheck E e kind text line) := by
  unfold genCheck
  split
  · refine .withLabel (fun k => ?_) fun k => ?_
    · refine .bind (fits_genExpr hN r).anywhere fun _ => ?_
      refine .bind (.emitCbnz (by simp)) fun _ => .bind (.addRodata _) fun _ => ?_
      refine .bind (.emitAddr _ _ _) fun _ => .bind (fits_emitImm _ _) fun _ => ?_
      exact .seq (.emitCall (.inr (.inr (.inr (.inr ⟨rfl, h⟩))))) <|
        Fits.place (by simp)
    · iterate 6 refine .right fun _ => ?_
      exact .place
  · exact .pure ()

theorem fits_genChecks (hN : E.unit.fns.length = N) :
    ∀ {ks : List TContract}, (∀ k ∈ ks, Recorded S k.expr) → (ks ≠ [] → 64 ∈ S) →
      Fits S (UserCalls N S) own out (genChecks E kind ks)
  | [], _, _ => .pure ()
  | _ :: _, r, h => .bind
      (fits_genCheck hN (r _ mem_cons_self) (h (List.cons_ne_nil _ _))) fun _ =>
        fits_genChecks hN (fun k hk => r k (mem_cons_of_mem _ hk))
          fun _ => h (List.cons_ne_nil _ _)

theorem fits_genReturn (hN : E.unit.fns.length = N) {e : Option TExpr} (r : RecordedOpt S e)
    (he : ∀ k ∈ E.fn.ens, Recorded S k.expr) (h : E.fn.ens ≠ [] → 64 ∈ S) :
    Fits S (UserCalls N S) own out (genReturn E e) := by
  unfold genReturn
  split
  · have hr : Fits S (UserCalls N S) [] [] (genExpr E _) := fits_genExpr hN r
    split
    · refine .seq hr.anywhere <| .seq fits_pushPair ?_
      refine .seq (fits_frameLoad _ _) <| .seq (.emit rfl) ?_
      refine .seq (fits_popPair _ _) <| .seq (fits_storeValue _ _ _) ?_
      exact .seq (.emit rfl) fits_genEpilogue
    · refine .seq hr.anywhere <| .seq (.onlyIf fun _ => ?_) <|
        fits_genEpilogue
      exact .seq (fits_frameStore _ _) <| .seq (fits_genChecks hN he h) <|
        fits_frameLoad _ _
  · exact .seq (fits_genChecks hN he h) fits_genEpilogue

theorem newlabs_ok : ∀ {n : Nat} {s s' : GState} {ks : List Nat} {l : List Item},
    newlabs n s = .ok (ks, l, s') → ks = List.range' s.nlab n ∧ l = [] ∧ s'.nlab = s.nlab + n
  | 0, s, s', ks, l, h => by
    obtain ⟨rfl, rfl, rfl⟩ := pure_ok.1 h
    exact ⟨rfl, rfl, rfl⟩
  | n + 1, s, s', ks, l, h => by
    obtain ⟨k, la, sa, ha, lb, hb, rfl⟩ := bind_ok.1 h
    simp only [newlab, Except.ok.injEq, Prod.mk.injEq] at ha
    obtain ⟨rfl, rfl, rfl⟩ := ha
    obtain ⟨ks', lc, sc, hc, ld, hd, rfl⟩ := bind_ok.1 hb
    obtain ⟨rfl, rfl, hn⟩ := newlabs_ok hc
    obtain ⟨rfl, rfl, rfl⟩ := pure_ok.1 hd
    dsimp only at hn
    exact ⟨rfl, rfl, by omega⟩

/-- Labels handed out in a row are new and all placed. -/
theorem Fits.withLabels {calls : Nat → Prop} {f : List Nat → GenM Unit} :
    ∀ {n : Nat} {own out : List Nat},
      (∀ ks, ks.length = n → Fits S calls (ks ++ own) (ks ++ out) (f ks)) →
      (∀ ks, ks.length = n → ∀ k ∈ ks, Places k (f ks)) →
        Fits S calls own out (newlabs n >>= f) := by
  intro n own out hf hp s b l s' h
  obtain ⟨ks, l₁, s1, h1, l₂, h2, rfl⟩ := bind_ok.1 h
  obtain ⟨hks, rfl, hn⟩ := newlabs_ok h1
  have hlen : ks.length = n := by rw [hks, List.length_range']
  have hr : ∀ k ∈ ks, s.nlab ≤ k ∧ k < s.nlab + n := fun k hk => by
    rw [hks, List.mem_range'_1] at hk
    exact hk
  have hseg := hf ks hlen s1 b l₂ s' h2
  have hm := hseg.mono
  rw [nil_append]
  refine ⟨by omega, fun k hk => ?_, fun it hit k hk => ?_, hseg.callees, hseg.svc, hseg.raw⟩
  · rcases hseg.labels k hk with hb | hb
    · exact .inl ⟨by omega, hb.2⟩
    · rcases mem_append.1 hb with hb | hb
      · have := hr k hb
        exact .inl ⟨this.1, by omega⟩
      · exact .inr hb
  · rcases hseg.targets it hit k hk with hb | hb
    · exact .inl hb
    · rcases mem_append.1 hb with hb | hb
      · exact .inl (hp ks hlen k hb s1 b l₂ s' h2)
      · exact .inr hb

theorem fits_genTests : ∀ {arms : List TArm} {ls : List Nat}, ls ⊆ out →
    Fits S (UserCalls N S) own out (genTests arms ls)
  | [], _, _ | .otherwise :: _, [], _ | .case _ _ :: _, [], _ => .pure ()
  | .otherwise :: _, _ :: _, h => by
    rw [genTests]
    exact fits_genTests (List.subset_of_cons_subset h)
  | .case _ _ :: _, _ :: _, h => .seq (fits_emitImm _ _) <|
      Fits.bind (.emit rfl) fun _ => .bind (.emitBcond (h mem_cons_self)) fun _ =>
        fits_genTests (List.subset_of_cons_subset h)

theorem elseLabel_mem : ∀ {arms : List TArm} {ls : List Nat} {fin : Nat}, fin ∈ out → ls ⊆ out →
    elseLabel fin arms ls ∈ out
  | [], _, _, hf, _ => hf
  | .otherwise :: _, [], _, hf, _ => hf
  | .case _ _ :: _, [], _, hf, _ => hf
  | .otherwise :: arms, l :: ls, _, _, h => by
    rw [elseLabel]
    exact elseLabel_mem (h mem_cons_self) (List.subset_of_cons_subset h)
  | .case _ _ :: arms, _ :: ls, _, hf, h => by
    rw [elseLabel]
    exact elseLabel_mem hf (List.subset_of_cons_subset h)

/-- Every arm is placed at its label. -/
theorem places_genArms {brk cnt : Nat} {fin : Nat} :
    ∀ {arms : List (TArm × TStmt)} {ls : List Nat}, ls.length = arms.length → ∀ k ∈ ls,
      Places k (genArms E brk cnt off fin arms ls)
  | [], ls, hl, k, hk => by
    rw [List.length_nil, List.length_eq_zero_iff] at hl
    simp [hl] at hk
  | (_, _) :: _, [], hl, _, _ => by simp at hl
  | (h, b) :: arms, l :: ls, hl, k, hk => by
    rw [genArms]
    rcases mem_cons.1 hk with rfl | hk
    · exact .left Places.place
    · have hl' : ls.length = arms.length := by simpa using hl
      exact .right fun _ => .right fun _ => .right fun _ => .right fun _ =>
        places_genArms hl' k hk

mutual

/-- The code of a statement. Inside a loop it may branch to the labels it was given. -/
theorem fits_genStmt (hN : E.unit.fns.length = N) (he : ∀ k ∈ E.fn.ens, Recorded S k.expr)
    (h64 : E.fn.ens ≠ [] → 64 ∈ S) : ∀ {st : TStmt} {inLoop : Prop} {brk cnt : Nat}
      {own out : List Nat}, RecordedStmt S inLoop st → (inLoop → brk ∈ out ∧ cnt ∈ out) →
      Fits S (UserCalls N S) own out (genStmt E brk cnt st)
  | .block _, _, _, _, _, _, r, hl => fits_genStmts hN he h64 r hl
  | .letS _ none, _, _, _, _, _, _, _ => .pure ()
  | .letS y (some e), _, _, _, _, _, r, _ => by
    have hr : Fits S (UserCalls N S) [] [] (genExpr E e) := fits_genExpr hN r
    rw [genStmt]
    split
    · exact .seq hr.anywhere <| .seq fits_pushPair <|
        Fits.bind (fits_localAddr _ _) fun _ => .bind (fits_popPair _ _) fun _ =>
          fits_storeValue _ _ _
    · exact .seq hr.anywhere <| fits_frameStore _ _
  | .expr e, _, _, _, _, _, r, _ => (fits_genExpr hN (e := e) r).anywhere
  | .ifS _ _, _, _, _, _, _, r, hl => by
    refine .withLabel (fun k => .withLabel (fun k' => ?_) fun k' => ?_) fun k => ?_
    · refine .bind (fits_genExpr hN r.1).anywhere fun _ => ?_
      refine .seq (.emitCbz (by simp)) <| .bind ?_ fun _ => ?_
      · exact fits_genStmt hN he h64 r.2 fun hin => by simp [hl hin]
      · exact .seq (.place (by simp)) <| .place (by simp)
    · exact .right fun _ => .right fun _ => .right fun _ => .right fun _ =>
        Places.place
    · exact .right fun _ => .right fun _ => .right fun _ => .right fun _ =>
        Places.left Places.place
  | .ifElse _ _ _, _, _, _, _, _, r, hl => by
    refine .withLabel (fun k => .withLabel (fun k' => ?_) fun k' => ?_) fun k => ?_
    · refine .bind (fits_genExpr hN r.1).anywhere fun _ => ?_
      refine .seq (.emitCbz (by simp)) <| .bind ?_ fun _ => ?_
      · exact fits_genStmt hN he h64 r.2.1 fun hin => by simp [hl hin]
      · refine .seq (.emitBranch (by simp)) ?_
        refine .seq (.place (by simp)) <| .bind ?_ fun _ => .place (by simp)
        exact fits_genStmt hN he h64 r.2.2 fun hin => by simp [hl hin]
    · iterate 6 refine .right fun _ => ?_
      exact .place
    · iterate 5 refine .right fun _ => ?_
      exact .left Places.place
  | .whileS _ _, _, _, _, _, _, r, _ => by
    refine .withLabel (fun k => .withLabel (fun k' => ?_) fun k' => ?_) fun k => ?_
    · refine .seq (.place (by simp)) ?_
      refine .bind (fits_genExpr hN r.1).anywhere fun _ => ?_
      refine .seq (.emitCbz (by simp)) <| .bind ?_ fun _ => ?_
      · exact fits_genStmt hN he h64 r.2 fun _ => by simp
      · exact .seq (.emitBranch (by simp)) <| .place (by simp)
    · exact .right fun _ => .right fun _ => .right fun _ => .right fun _ =>
        Places.right fun _ => .place
    · exact .right fun _ => .left Places.place
  | .forS _ _ _ _, _, _, _, _, _, r, _ => by
    refine .withLabel (fun k => .withLabel (fun k' => .withLabel (fun k'' => ?_)
      fun k'' => ?_) fun k' => ?_) fun k => ?_
    · refine .bind (fits_genExpr hN r.1).anywhere fun _ => ?_
      refine .seq (fits_frameStore _ _) <| .seq (.place (by simp)) ?_
      refine .bind (fits_genExpr hN r.2.1).anywhere fun _ => .seq fits_pushPair ?_
      refine .seq (fits_frameLoad _ _) <| .seq (fits_popPair _ _) ?_
      refine .seq (.emit rfl) <| .seq (.emitBcond (by simp)) ?_
      refine .seq (fits_genStmt hN he h64 r.2.2 fun _ => by simp) ?_
      refine .seq (.place (by simp)) <| .seq (fits_frameLoad _ _) ?_
      refine .seq (.emit rfl) <| .seq (fits_frameStore _ _) ?_
      exact .seq (.emitBranch (by simp)) <| .place (by simp)
    · iterate 10 refine .right fun _ => ?_
      exact .left Places.place
    · refine .right fun _ => ?_
      iterate 15 refine .right fun _ => ?_
      exact .place
    · iterate 4 refine .right fun _ => ?_
      exact .left Places.place
  | .ret _, _, _, _, _, _, r, _ => fits_genReturn hN r he h64
  | .brk, _, _, _, _, _, r, hl => .emitBranch (hl r).1
  | .cont, _, _, _, _, _, r, hl => .emitBranch (hl r).2
  | .assert _ _ _, _, _, _, _, _, r, _ => fits_genCheck hN r.1 r.2.1
  | .matchS e off arms, _, _, _, _, _, r, hl => by
    rw [genStmt]
    refine .bind (fits_genExpr hN r.1).anywhere fun _ => ?_
    refine .seq (fits_frameStoreField _ _ _) ?_
    refine .withLabel (fun k => .withLabels (fun ks hks => ?_) fun ks hks k' hk' => ?_)
      fun k => ?_
    · refine .seq (fits_frameLoad _ _) <| .seq (.emit rfl) ?_
      refine .seq (fits_genTests (List.subset_append_left _ _)) ?_
      refine .bind (.emitBranch (elseLabel_mem (by simp) (List.subset_append_left _ _)))
        fun _ => ?_
      refine .bind (fits_genArms hN he h64 r.2 (fun hin => by simp [hl hin]) (by simp)
        (List.subset_append_left _ _)) fun _ => .place (by simp)
    · iterate 4 refine .right fun _ => ?_
      exact .left (places_genArms hks k' hk')
    · iterate 6 refine .right fun _ => ?_
      exact .place

theorem fits_genStmts (hN : E.unit.fns.length = N) (he : ∀ k ∈ E.fn.ens, Recorded S k.expr)
    (h64 : E.fn.ens ≠ [] → 64 ∈ S) : ∀ {ss : List TStmt} {inLoop : Prop} {brk cnt : Nat}
      {own out : List Nat}, RecordedStmts S inLoop ss → (inLoop → brk ∈ out ∧ cnt ∈ out) →
      Fits S (UserCalls N S) own out (genStmts E brk cnt ss)
  | [], _, _, _, _, _, _, _ => .pure ()
  | _ :: _, _, _, _, _, _, r, hl => .seq (fits_genStmt hN he h64 r.1 hl) <|
      fits_genStmts hN he h64 r.2 hl

theorem fits_genArms (hN : E.unit.fns.length = N) (he : ∀ k ∈ E.fn.ens, Recorded S k.expr)
    (h64 : E.fn.ens ≠ [] → 64 ∈ S) : ∀ {as : List (TArm × TStmt)} {ls : List Nat} {inLoop : Prop}
      {brk cnt fin : Nat} {off : Int} {own out : List Nat}, RecordedArms S inLoop as →
      (inLoop → brk ∈ out ∧ cnt ∈ out) → fin ∈ out → ls ⊆ own →
      Fits S (UserCalls N S) own out (genArms E brk cnt off fin as ls)
  | [], _, _, _, _, _, _, _, _, _, _, _, _ => .pure ()
  | _ :: _, [], _, _, _, _, _, _, _, _, _, _, _ => .pure ()
  | (_, _) :: _, _ :: _, _, _, _, _, _, _, _, r, hl, hf, ho =>
    Fits.bind (.place (ho mem_cons_self)) fun _ => .bind (fits_genArmHead _ _) fun _ =>
      Fits.bind (fits_genStmt hN he h64 r.1 hl) fun _ => .bind (.emitBranch hf) fun _ =>
        fits_genArms hN he h64 r.2 hl hf fun _ hk => ho (mem_cons_of_mem _ hk)

end

theorem fits_genFn (hN : E.unit.fns.length = N) (r : RecordedFn S E.fn) {k : Nat} (hk : k ∈ own) :
    Fits S (UserCalls N S) own out (genFn E k) := by
  refine .seq (.place hk) <| .seq (.emit rfl) ?_
  refine .seq (.emit rfl) ?_
  refine .seq (.onlyIf fun _ => fits_emitSubSp _) ?_
  refine .seq (fits_genSret _) <| .seq (fits_genParams _) ?_
  refine .seq (fits_genChecks hN r.req fun h => (r.fails (.inl h)).1) ?_
  have h64 : E.fn.ens ≠ [] → 64 ∈ S := fun h => (r.fails (.inr h)).1
  refine .seq (fits_genStmt hN r.ens h64 r.body fun h => h.elim) ?_
  exact .seq (fits_genChecks hN r.ens h64) fits_genEpilogue

theorem fits_genFns {u : TUnit} {contracts : Bool} (hN : u.fns.length = N) :
    ∀ {fs : List TFn} {i : Nat}, (∀ f ∈ fs, RecordedFn S f) →
      (∀ j, i ≤ j → j < i + fs.length → fnLabel j ∈ own) →
        Fits S (UserCalls N S) own out (genFns u contracts i fs)
  | [], _, _, _ => .pure ()
  | f :: fs, i, r, ho => by
    have hhead : fnLabel i ∈ own := ho i le_rfl (by simp)
    refine .seq (fits_genFn hN (r f mem_cons_self) hhead) ?_
    refine fits_genFns hN (fun g hg => r g (mem_cons_of_mem _ hg)) fun j hj hj' => ?_
    exact ho j (by omega) (by simp only [List.length_cons]; omega)

end Tree

end Verkos.Sav
