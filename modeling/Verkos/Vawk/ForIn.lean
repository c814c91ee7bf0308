import Mathlib.Algebra.Group.Nat.Defs
import Mathlib.Data.List.Nodup
import Mathlib.Data.List.TakeWhile
import Mathlib.Logic.Relation

/-!
# `for (k in a)`

An array of `vawk` is a table of chains. The loop stands on an entry while its body runs and goes on
from there, so an entry that the body deletes is read after it has been freed. An entry is known by
its key here: the bodies in question add none, and one that is in no chain has been freed.
-/

namespace Verkos.Vawk

open List (range')

abbrev Key := List UInt8

theorem Key.lawful : LawfulBEq (List UInt8) := inferInstance
attribute [local instance] Key.lawful

/-- `HN`. -/
def hn : Nat := 1021

theorem hn_pos : 0 < hn := by decide

def hash (s : Key) : Nat := s.foldl (fun h b => (h * 33 + b.toNat) % 2 ^ 32) 5381 % hn

/-- `Map`: the chains, each key in the chain of its hash, once, with its value. -/
structure Map (ν : Type) where
  b : Nat → List (Key × ν)
  placed : ∀ h, ∀ e ∈ b h, hash e.1 = h
  nodup : ∀ h, ((b h).map Prod.fst).Nodup

namespace Map

variable {ν : Type} {m m' : Map ν} {h : Nat} {k : Key}

def chain (m : Map ν) (h : Nat) : List Key := (m.b h).map Prod.fst

/-- `map_has`. -/
def has (m : Map ν) (k : Key) : Bool := k ∈ m.chain (hash k)

theorem hash_of_mem (hk : k ∈ m.chain h) : hash k = h := by
  obtain ⟨e, he, rfl⟩ := List.mem_map.1 hk
  exact m.placed h e he

theorem has_of_mem (hk : k ∈ m.chain h) : m.has k := decide_eq_true (by rwa [hash_of_mem hk])

/-- Another chain, with no other keys. -/
def withChain (m : Map ν) (h : Nat) (l : List (Key × ν)) (hl : (l.map Prod.fst).Sublist (m.chain h)) :
    Map ν where
  b := Function.update m.b h l
  placed := by
    intro h' e he
    by_cases hh : h' = h
    · subst hh
      rw [Function.update_self] at he
      exact hash_of_mem (hl.subset (List.mem_map_of_mem he))
    · rw [Function.update_of_ne hh] at he
      exact m.placed h' e he
  nodup := by
    intro h'
    by_cases hh : h' = h
    · subst hh
      rw [Function.update_self]
      exact (m.nodup h').sublist hl
    · rw [Function.update_of_ne hh]
      exact m.nodup h'

/-- `map_del`. -/
def del (m : Map ν) (k : Key) : Map ν :=
  m.withChain (hash k) ((m.b (hash k)).eraseP (·.1 = k)) (List.eraseP_sublist.map _)

/-- `delete a`. -/
def clear (_ : Map ν) : Map ν := ⟨fun _ => [], fun _ _ h => (List.not_mem_nil h).elim, fun _ => .nil⟩

/-- An assignment to an element that `map_get` finds. -/
def assign (m : Map ν) (k : Key) (v : ν) : Map ν :=
  m.withChain (hash k) ((m.b (hash k)).map fun e => (e.1, if e.1 = k then v else e.2)) <| by
    rw [List.map_map]
    exact List.Sublist.refl _

/-- The keys from a chain on, in the order of the table. -/
def keysFrom (m : Map ν) (h : Nat) : List Key := (range' h (hn - h)).flatMap m.chain

theorem withChain_sublist {l : List (Key × ν)} {hl : (l.map Prod.fst).Sublist (m.chain h)} (h' : Nat) :
    ((m.withChain h l hl).chain h').Sublist (m.chain h') := by
  change ((Function.update m.b h l h').map Prod.fst).Sublist _
  by_cases hh : h' = h
  · subst hh
    rwa [Function.update_self]
  · rw [Function.update_of_ne hh]
    exact .refl _

theorem eq_filter_of_sublist {l l' : List Key} (hs : l'.Sublist l) (hl : l.Nodup) :
    l' = l.filter (· ∈ l') := by
  induction hs with
  | slnil => rfl
  | cons a hs ih =>
    obtain ⟨ha, hl⟩ := List.nodup_cons.1 hl
    rw [List.filter_cons_of_neg (by simpa using fun h => ha (hs.subset h)), ← ih hl]
  | cons_cons a hs ih =>
    obtain ⟨ha, hl⟩ := List.nodup_cons.1 hl
    rw [List.filter_cons_of_pos (by simp)]
    refine congrArg (a :: ·) ((ih hl).trans (List.filter_congr fun x hx => ?_))
    have hne : x ≠ a := fun h => ha (h ▸ hx)
    simp [hne]

end Map

/-- What a body may do to the array. -/
inductive Change {ν : Type} : Map ν → Map ν → Prop
  | del (m k) : Change m (m.del k)
  | clear (m) : Change m m.clear
  | assign (m k v) (h : m.has k) : Change m (m.assign k v)

/-- A loop body, as what its `j`-th run makes of the array. -/
structure Body (ν : Type) where
  run : Nat → Map ν → Map ν
  changes : ∀ j m, Relation.ReflTransGen Change m (run j m)

theorem Body.chain_eq {ν : Type} (body : Body ν) (j : Nat) (m : Map ν) (h : Nat) :
    (body.run j m).chain h = (m.chain h).filter (body.run j m).has := by
  have hsub : ((body.run j m).chain h).Sublist (m.chain h) := by
    have hc := body.changes j m
    generalize body.run j m = m' at hc ⊢
    induction hc with
    | refl => exact .refl _
    | tail _ hc ih =>
      refine List.Sublist.trans ?_ ih
      cases hc with
      | del | assign => exact Map.withChain_sublist h
      | clear => exact List.nil_sublist _
  refine (Map.eq_filter_of_sublist hsub (m.nodup h)).trans (List.filter_congr fun k hk => ?_)
  rw [Map.has, Map.hash_of_mem hk]

theorem Body.keysFrom_eq {ν : Type} (body : Body ν) (j : Nat) (m : Map ν) (h : Nat) :
    (body.run j m).keysFrom h = (m.keysFrom h).filter (body.run j m).has := by
  rw [Map.keysFrom, Map.keysFrom, List.filter_flatMap]
  exact List.flatMap_congr fun i _ => body.chain_eq j m i

/-! ## The loop -/

section Loop

variable {ν : Type} (body : Body ν)

/-- Where the loop is: the array, the chain, the key of the entry it stands on, and the keys the
body has been run for. -/
structure Loop (ν : Type) where
  m : Map ν
  i : Nat
  e : Option Key
  ran : List Key

inductive Outcome
  | running
  | done (ran : List Key)
  | freed

/-- `S_FORIN`, so many steps of it. -/
def forIn : Nat → Loop ν → Outcome
  | 0, _ => .running
  | n + 1, s =>
    match s.e with
    | none =>
      if s.i + 1 < hn then forIn n { s with i := s.i + 1, e := (s.m.chain (s.i + 1)).head? }
      else .done s.ran
    | some k =>
      let m := body.run s.ran.length s.m
      -- `e = e->next`
      match (m.chain s.i).dropWhile (· ≠ k) with
      | [] => .freed
      | _ :: rest => forIn n ⟨m, s.i, rest.head?, s.ran ++ [k]⟩

def Loop.start (m : Map ν) : Loop ν := ⟨m, 0, (m.chain 0).head?, []⟩

/-- What is meant: the keys that were there at the start are gone through, and the body is run for
those that are there when it is their turn. -/
def inTurn : List Key → Nat → Map ν → List Key
  | [], _, _ => []
  | k :: ks, j, m => if m.has k then k :: inTurn ks (j + 1) (body.run j m) else inTurn ks j m

/-- No run of the body deletes the element it is run for. -/
def KeepsCurrent : List Key → Nat → Map ν → Prop
  | [], _, _ => True
  | k :: ks, j, m =>
    if m.has k then (body.run j m).has k ∧ KeepsCurrent ks (j + 1) (body.run j m)
    else KeepsCurrent ks j m

variable {body}

theorem has_of_run {j : Nat} {m : Map ν} {k : Key} (h : (body.run j m).has k) : m.has k := by
  have hk := of_decide_eq_true h
  rw [body.chain_eq] at hk
  exact decide_eq_true (List.mem_filter.1 hk).1

theorem turn_filter {p : Key → Bool} {ks : List Key} {j : Nat} {m : Map ν} (hp : ∀ k, m.has k → p k) :
    inTurn body (ks.filter p) j m = inTurn body ks j m ∧
      (KeepsCurrent body (ks.filter p) j m ↔ KeepsCurrent body ks j m) := by
  induction ks generalizing j m with
  | nil => exact ⟨rfl, .rfl⟩
  | cons k ks ih =>
    by_cases hk : m.has k
    · obtain ⟨hturn, hkeep⟩ := ih (j := j + 1) (m := body.run j m) fun k h => hp k (has_of_run h)
      rw [List.filter_cons_of_pos (hp k hk), inTurn, inTurn, KeepsCurrent, KeepsCurrent, hturn, hkeep,
        if_pos hk, if_pos hk, if_pos hk, if_pos hk]
      exact ⟨rfl, .rfl⟩
    · obtain ⟨hturn, hkeep⟩ := ih hp
      rw [inTurn, KeepsCurrent, if_neg hk, if_neg hk]
      by_cases hpk : p k
      · rw [List.filter_cons_of_pos hpk, inTurn, KeepsCurrent, if_neg hk, if_neg hk]
        exact ⟨hturn, hkeep⟩
      · rw [List.filter_cons_of_neg hpk]
        exact ⟨hturn, hkeep⟩

theorem keysFrom_succ (m : Map ν) {i : Nat} (hi : i < hn) :
    m.keysFrom i = m.chain i ++ m.keysFrom (i + 1) := by
  rw [Map.keysFrom, show hn - i = hn - (i + 1) + 1 by omega, List.range'_succ, List.flatMap_cons]
  rfl

/-- The loop from an entry on: if no run deletes the current element it ends, and has run the body
for the keys in their turn; else it comes to an entry that has been freed and does not end. -/
theorem forIn_spec {s : Loop ν} {p suf ks : List Key} (hchain : s.m.chain s.i = p ++ suf)
    (he : s.e = suf.head?) (hi : s.i < hn) (hks : ks = suf ++ s.m.keysFrom (s.i + 1)) :
    (KeepsCurrent body ks s.ran.length s.m →
      ∃ n, forIn body n s = .done (s.ran ++ inTurn body ks s.ran.length s.m)) ∧
    (¬KeepsCurrent body ks s.ran.length s.m → ∀ n ran, forIn body n s ≠ .done ran) := by
  generalize hc : hn - s.i + ks.length = c
  induction c using Nat.strongRecOn generalizing s p suf ks with
  | _ c ih =>
    obtain ⟨m, i, e, ran⟩ := s
    dsimp only at hchain he hi hc hks ⊢
    subst he
    cases suf with
    | nil =>
      have hstep : ∀ n, forIn body (n + 1) ⟨m, i, none, ran⟩ = if i + 1 < hn then
        forIn body n ⟨m, i + 1, (m.chain (i + 1)).head?, ran⟩ else .done ran := fun n => rfl
      rw [List.nil_append] at hks
      by_cases hlast : i + 1 < hn
      · rw [keysFrom_succ m hlast] at hks
        obtain ⟨hdone, hfreed⟩ := ih (hn - (i + 1) + ks.length) (by omega)
          (s := ⟨m, i + 1, (m.chain (i + 1)).head?, ran⟩) (p := []) rfl rfl hlast hks rfl
        refine ⟨fun hkeep => ?_, fun hkeep n => ?_⟩
        · obtain ⟨n, hn'⟩ := hdone hkeep
          exact ⟨n + 1, by rw [List.head?_nil, hstep, if_pos hlast, hn']⟩
        · cases n with
          | zero => exact fun _ => Outcome.noConfusion
          | succ n =>
            rw [List.head?_nil, hstep, if_pos hlast]
            exact hfreed hkeep n
      · have hnil : ks = [] := by
          rw [hks, Map.keysFrom, show hn - (i + 1) = 0 by omega]
          rfl
        subst hnil
        exact ⟨fun _ => ⟨1, by rw [List.head?_nil, hstep, if_neg hlast, inTurn, List.append_nil]⟩,
          fun h => (h trivial).elim⟩
    | cons k suf =>
      subst hks
      have hk : m.has k := Map.has_of_mem (hchain ▸ List.mem_append_right _ (.head _))
      have hrest := body.keysFrom_eq ran.length m (i + 1)
      have hchain' := body.chain_eq ran.length m i
      rw [List.cons_append, KeepsCurrent, inTurn, if_pos hk, if_pos hk]
      generalize hm : body.run ran.length m = m' at hrest hchain' ⊢
      have hstep : ∀ n, forIn body (n + 1) ⟨m, i, some k, ran⟩ =
          match (m'.chain i).dropWhile (· ≠ k) with
          | [] => .freed
          | _ :: rest => forIn body n ⟨m', i, rest.head?, ran ++ [k]⟩ := fun n => by
        rw [← hm]
        rfl
      by_cases hk' : m'.has k
      · have hlen := List.length_filter_le m'.has (suf ++ m.keysFrom (i + 1))
        obtain ⟨hturn, hkeep⟩ := @turn_filter ν body m'.has (suf ++ m.keysFrom (i + 1))
          (ran.length + 1) m' fun _ h => h
        have hnd : (p ++ k :: suf).Nodup := by
          rw [← hchain]
          exact m.nodup i
        rw [hchain, List.filter_append, List.filter_cons_of_pos hk'] at hchain'
        rw [List.filter_append, ← hrest] at hturn hkeep hlen
        rw [List.cons_append, List.length_cons] at hc
        have hdrop : (m'.chain i).dropWhile (· ≠ k) = k :: suf.filter m'.has := by
          rw [hchain', List.dropWhile_append_of_pos, List.dropWhile_cons_of_neg (by simp)]
          intro a ha
          have hpre : k ∉ p := fun h => (List.nodup_append'.1 hnd).2.2 h (.head _)
          simpa using fun h : a = k => hpre (h ▸ (List.mem_filter.1 ha).1)
        obtain ⟨hdone, hfreed⟩ := ih (hn - i + (suf.filter m'.has ++ m'.keysFrom (i + 1)).length)
          (by omega) (s := ⟨m', i, (suf.filter m'.has).head?, ran ++ [k]⟩)
          (p := p.filter m'.has ++ [k]) (by rw [hchain', List.append_assoc]; rfl) rfl hi rfl rfl
        simp only [List.length_append, List.length_singleton, hturn, hkeep] at hdone hfreed
        refine ⟨fun h => ?_, fun h n => ?_⟩
        · obtain ⟨n, hn'⟩ := hdone h.2
          refine ⟨n + 1, ?_⟩
          simpa only [List.head?_cons, hstep, hdrop, List.append_assoc, List.singleton_append] using hn'
        · cases n with
          | zero => exact fun _ => Outcome.noConfusion
          | succ n =>
            simp only [List.head?_cons, hstep, hdrop]
            exact hfreed (fun hkeep => h ⟨hk', hkeep⟩) n
      · have hdrop : (m'.chain i).dropWhile (· ≠ k) = [] := by
          rw [List.dropWhile_eq_nil_iff]
          intro a ha
          simpa using fun h : a = k => hk' (Map.has_of_mem (h ▸ ha))
        refine ⟨fun h => absurd h.1 hk', fun _ n => ?_⟩
        cases n with
        | zero => exact fun _ => Outcome.noConfusion
        | succ n =>
          simp only [List.head?_cons, hstep, hdrop]
          exact fun _ => Outcome.noConfusion

theorem inTurn_sublist (ks : List Key) (j : Nat) (m : Map ν) : (inTurn body ks j m).Sublist ks := by
  induction ks generalizing j m with
  | nil => exact .refl _
  | cons k ks ih =>
    rw [inTurn]
    split
    · exact (ih _ _).cons_cons k
    · exact (ih _ _).cons k

theorem keysFrom_nodup (m : Map ν) (h : Nat) : (m.keysFrom h).Nodup := by
  refine List.nodup_flatMap.2 ⟨fun i _ => m.nodup i, List.Pairwise.imp (fun hne => ?_)
    (List.nodup_range' 1)⟩
  exact fun k ha hb => hne ((Map.hash_of_mem ha).symm.trans (Map.hash_of_mem hb))

/-- The loop ends without an entry that has been freed, and the body has been run once for each key
that was there at the start and not deleted before its turn, and for no other. -/
def Survives (body : Body ν) (m : Map ν) : Prop := ∃ n ran, forIn body n (.start m) = .done ran ∧ ran.Nodup ∧
  ran = inTurn body (m.keysFrom 0) 0 m

theorem keeps_of_survives {m : Map ν} (h : Survives body m) :
    KeepsCurrent body (m.keysFrom 0) 0 m := by
  obtain ⟨n, ran, hrun, -⟩ := h
  by_contra hkeep
  exact (forIn_spec (s := .start m) (p := []) rfl rfl hn_pos (keysFrom_succ m hn_pos)).2 hkeep n
    ran hrun

theorem survives_iff (body : Body ν) (m : Map ν) :
    Survives body m ↔ KeepsCurrent body (m.keysFrom 0) 0 m := by
  refine ⟨keeps_of_survives, fun hkeep => ?_⟩
  obtain ⟨n, hdone⟩ := (forIn_spec (s := .start m) (p := []) rfl rfl hn_pos
    (keysFrom_succ m hn_pos)).1 hkeep
  exact ⟨n, _, hdone, (keysFrom_nodup m 0).sublist (inTurn_sublist _ _ _), rfl⟩

/-- One element. -/
def Map.single (k : Key) (v : ν) : Map ν where
  b h := if h = hash k then [(k, v)] else []
  placed h e he := by
    split at he
    next hh => rw [List.mem_singleton.1 he, hh]
    · cases he
  nodup h := by split <;> simp

theorem not_survives : ¬∀ (ν : Type) (body : Body ν) (m : Map ν), Survives body m := by
  intro h
  obtain ⟨k⟩ : Nonempty Key := ⟨[]⟩
  have hkeep := keeps_of_survives (h _ ⟨fun _ m => m.clear, fun _ m => .single (.clear m)⟩
    (Map.single k ()))
  have hhas : ∀ a ∈ (Map.single k ()).keysFrom 0, (Map.single k ()).has a := fun a ha => by
    obtain ⟨i, -, hi⟩ := List.mem_flatMap.1 ha
    exact Map.has_of_mem hi
  have hmem : k ∈ (Map.single k ()).keysFrom 0 := by
    refine List.mem_flatMap.2 ⟨hash k, List.mem_range'_1.2 ⟨Nat.zero_le _, ?_⟩, ?_⟩
    · rw [Nat.zero_add]
      exact Nat.mod_lt _ hn_pos
    · simp [Map.chain, Map.single]
  cases hks : (Map.single k ()).keysFrom 0 with
  | nil => exact absurd hmem (hks ▸ List.not_mem_nil)
  | cons a ks =>
    rw [hks, KeepsCurrent, if_pos (hhas a (hks ▸ .head _))] at hkeep
    exact absurd hkeep.1 (by simp [Map.has, Map.clear, Map.chain])

end Loop

end Verkos.Vawk
