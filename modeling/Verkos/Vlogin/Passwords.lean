import Verkos.Vlogin.Hashes

/-!
# Passwords over runs of the account tools

In a run of careful commands that give no new password, every account opens with what its standing
says, in every state: a lock takes its passwords away and an unlock gives the same ones back, and
nothing else changes them.
-/

namespace Verkos.Vlogin

open Lib

variable {crypt : Text → Text → Option Text} {h h' : History}

/-- The files are tidy, and hash and standing of each account go together. -/
structure History.Sound (crypt : Text → Text → Option Text) (h : History) : Prop where
  lined : ∃ ps ss, Lined h.files ps ss
  there : ∀ n, (storedOf h.files n).isSome = (h.standings n).isSome
  agrees : ∀ n hash s, storedOf h.files n = some hash → h.standings n = some s →
    Agrees crypt hash s

theorem History.Sound.kept (hs : h.Sound crypt) : h.Kept crypt := by
  intro n
  refine ⟨hs.there n, fun hash s hhash hst => ?_⟩
  have ha := hs.agrees n hash s hhash hst
  refine ⟨?_, ha.nonempty⟩
  cases hlocked : s.locked with
  | false => exact ha.opens hlocked
  | true =>
    rw [if_pos rfl]
    rcases ha.locked.1 hlocked with rfl | ⟨rest, rfl⟩
    · rfl
    · exact passwordOk_locked rest

theorem firstStandings_sound {S : Files} {ps ss : List Text} (hl : Lined S ps ss) :
    History.Sound crypt ⟨S, firstStandings crypt S⟩ where
  lined := ⟨ps, ss, hl⟩
  there n := (Option.isSome_map ..).symm
  agrees n hash s hhash hst := by
    unfold firstStandings at hst
    dsimp only at hhash hst
    rw [hhash, Option.map_some] at hst
    obtain rfl := Option.some.inj hst
    split
    next =>
      exact ⟨⟨fun _ => .inl rfl, fun _ => rfl⟩, nofun, nofun, nofun⟩
    next rest =>
      refine agrees_locked fun hne => ?_
      rw [behindLocks, if_neg hne]
    next hash hnot =>
      refine agrees_unlocked (fun hhead => ?_) of_decide_eq_true
      obtain ⟨rest, rfl⟩ := List.head?_eq_some_iff.1 hhead
      exact hnot rest rfl

theorem History.Sound.step {i : Env × Command} (hs : h.Sound crypt) (hgives : GivesNone i.2)
    (hcare : Careful h.files i) (hstep : h.step i = some h') : h'.Sound crypt := by
  obtain ⟨ps, ss, hl⟩ := hs.lined
  obtain ⟨hlined, hchange⟩ := Command.keeps hl hgives hcare
  obtain rfl := Option.some.inj hstep
  refine ⟨hlined, fun n => (Option.isSome_map ..).symm, fun n hash s hhash hst => ?_⟩
  have hc := hchange n
  have hthere := hs.there n
  dsimp only at hhash hst
  rw [nextStandings, hhash, Option.map_some] at hst
  obtain rfl := Option.some.inj hst
  rw [hhash] at hc
  cases hold : storedOf h.files n with
  | none =>
    rw [hold] at hc hthere
    have hnone : h.standings n = none := by simpa using hthere.symm
    rw [hnone]
    cases hc
    exact agrees_new
  | some old =>
    rw [hold] at hc hthere
    obtain ⟨s, hsome⟩ := Option.isSome_iff_exists.1 hthere.symm
    rw [hsome]
    refine Change.agrees ?_ (hs.agrees n old s hold hsome)
    simpa only [decide_eq_true_eq] using hc

/-- In every state of a run of careful commands, the accounts open with what they should. -/
theorem passwords_kept {S : Files} {ps ss : List Text} {is : List (Env × Command)}
    (hl : Lined S ps ss) (hrun : Run History.step (fun h i => GivesNone i.2 ∧ Careful h.files i)
      ⟨S, firstStandings crypt S⟩ is h) : h.Kept crypt :=
  (hrun.invariant (fun _ _ _ hs hok hstep => hs.step hok.1 hok.2 hstep)
    (firstStandings_sound hl)).kept

/-- Root, on the first day. -/
def byRoot : Env := ⟨0, 0, fun _ _ => none, fun _ _ => none⟩

/-- An account is made and locked. -/
theorem passwords_kept_new : ∃ h, Run History.step (fun h i => GivesNone i.2 ∧ Careful h.files i)
      ⟨fun _ => [], firstStandings (fun _ _ => none) fun _ => []⟩
      [(byRoot, .useradd [['b']]), (byRoot, .passwd [['-', 'l'], ['b']] [])] h ∧
    h.Kept fun _ _ => none := by
  have hl : Lined (fun _ => []) [] [] := ⟨⟨rfl, nofun⟩, ⟨rfl, nofun⟩⟩
  have hadd : Careful (fun _ => []) (byRoot, .useradd [['b']]) := by
    intro o name ho hname _
    cases ho
    cases hname
    refine ⟨by decide, by decide, by decide, by decide, by decide, fun g hg => ?_, by decide⟩
    cases hg
    decide
  have hlock : Careful ((cmdUseradd byRoot [['b']]).run fun _ => []).2
      (byRoot, .passwd [['-', 'l'], ['b']] []) := by
    intro o target pw ho htarget hpw
    cases ho
    cases htarget
    cases hpw
    refine ⟨fun _ => ⟨by decide, by decide, fun pw hpw hx => ?_⟩, nofun⟩
    cases hpw
    exact absurd rfl hx
  have hgives : GivesNone (.passwd [['-', 'l'], ['b']] []) :=
    ⟨⟨some ['b'], true, false, false⟩, rfl, .inl rfl, Bool.false_ne_true⟩
  obtain ⟨h, hrun⟩ : ∃ h, Run History.step (fun h i => GivesNone i.2 ∧ Careful h.files i)
      ⟨fun _ => [], firstStandings (fun _ _ => none) fun _ => []⟩
      [(byRoot, .useradd [['b']]), (byRoot, .passwd [['-', 'l'], ['b']] [])] h :=
    ⟨_, .cons ⟨trivial, hadd⟩ rfl (.cons ⟨hgives, hlock⟩ rfl (.nil _))⟩
  exact ⟨h, hrun, passwords_kept hl hrun⟩

/-- An account that never had a password opens without one when it is unlocked. -/
theorem unlock_opens :
    ∃ h, exec History.step ⟨fun _ => [], firstStandings (fun _ _ => none) fun _ => []⟩
      [(byRoot, .useradd [['b']]), (byRoot, .passwd [['-', 'u'], ['b']] [])] = some h ∧
    GivesNone (.useradd [['b']]) ∧ GivesNone (.passwd [['-', 'u'], ['b']] []) ∧
    ¬h.Kept fun _ _ => none := by
  refine ⟨_, rfl, trivial, ⟨⟨some ['b'], false, true, false⟩, rfl, .inr rfl, Bool.false_ne_true⟩,
    fun h => ?_⟩
  refine ((h ['b']).2 (some []) ⟨false, fun _ => false, true⟩ ?_ ?_).2 rfl rfl
  · decide
  · rfl

end Verkos.Vlogin
