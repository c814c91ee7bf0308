import Verkos.Vlogin.Ordered
import Verkos.Vlogin.Passwords

/-!
# Account files over runs of the tools

Well-formed account files stay well-formed in runs of orderly commands that succeed, and what each
of them does to ids and to members is what it should.
-/

namespace Verkos.Vlogin

open Lib

variable {S S' S'' : Files}

theorem Command.kept {d : Records} {i : Env × Command} (hd : Holds S d) (hc : Covered d)
    (hok : Orderly S i) : Prog.Yields (i.2.tool i.1) S fun _ S' => Kept i.2 S S' := by
  obtain ⟨env, c⟩ := i
  cases c with
  | useradd argv => exact cmdUseradd_kept hd hc hok
  | usermod argv => exact cmdUsermod_kept hd hc hok
  | userdel argv => exact cmdUserdel_kept hd hc hok
  | groupadd argv => exact cmdGroupadd_kept hd hc hok
  | groupdel argv => exact cmdGroupdel_kept hd hc
  | passwd argv input => exact cmdPasswd_kept hd hc hok
  | chpasswd input => exact cmdChpasswd_kept hd hc hok
  | pwconv => exact cmdPwconv_kept hd hc

theorem succeed_kept {i : Env × Command} (hS : WellFormed S) (hok : Orderly S i)
    (h : succeed S i = some S') : Kept i.2 S S' := by
  obtain ⟨d, hd, hc⟩ := hS.holds hok.1
  have hyields := Command.kept hd hc hok
  unfold succeed at h
  split at h
  next S1 hrun =>
    obtain rfl := Option.some.inj h
    have hdone := hyields 0 (congrArg Prod.fst hrun)
    rw [hrun] at hdone
    exact hdone
  next => cases h

/-- In every state of a run of orderly commands the files are well-formed, and whatever orderly
command comes next has ids of its own and keeps the members. -/
theorem accounts_in_order {is : List (Env × Command)} (hS : WellFormed S)
    (hrun : Run succeed Orderly S is S') : WellFormed S' ∧
      ∀ i S'', Orderly S' i → succeed S' i = some S'' →
        OwnIds i.2 S'' ∧ KeepsMembers i.2 S' S'' := by
  have hS' : WellFormed S' := hrun.invariant
    (fun _ _ _ hs hok hstep => (succeed_kept hs hok hstep).formed) hS
  refine ⟨hS', fun i S'' hok hstep => ?_⟩
  have hkept := succeed_kept hS' hok hstep
  exact ⟨hkept.ids, hkept.members⟩

theorem wellFormed_empty : WellFormed fun _ => [] where
  passwd := ⟨[], rfl, nofun, .nil⟩
  shadow := ⟨[], rfl, nofun, .nil⟩
  group := ⟨[], rfl, nofun, .nil⟩
  shadowed := nofun
  members := nofun

/-- An account is made and deleted. -/
theorem accounts_in_order_new : ∃ S', Run succeed Orderly (fun _ => [])
    [(byRoot, .useradd [['b']]), (byRoot, .userdel [['b']])] S' ∧ WellFormed S' := by
  have hadd : Orderly (fun _ => []) (byRoot, .useradd [['b']]) := by
    refine ⟨fun file => ?_, nofun, fun o name ho hname => ?_⟩
    · cases file <;> decide
    · cases ho
      cases hname
      refine ⟨rfl, fun _ => rfl, by decide, by decide, nofun, by decide, fun g hg => ?_, by decide,
        fun _ g hg => ?_, fun _ _ => nofun, fun _ => nofun, nofun⟩
      · cases hg
        decide
      · cases hg
        decide
  have hdel : Orderly ((cmdUseradd byRoot [['b']]).run fun _ => []).2
      (byRoot, .userdel [['b']]) := by
    refine ⟨fun file => ?_, nofun, fun name hname => ?_⟩
    · cases file <;> decide
    · cases hname
      decide
  obtain ⟨S', hrun⟩ : ∃ S', Run succeed Orderly (fun _ => [])
      [(byRoot, .useradd [['b']]), (byRoot, .userdel [['b']])] S' :=
    ⟨_, .cons hadd rfl (.cons hdel rfl (.nil _))⟩
  exact ⟨S', hrun, (accounts_in_order wellFormed_empty hrun).1⟩

/-- The account files with a user `b` in the group `g`. -/
def oneMember : Files
  | .passwd => ['b', ':', 'x', ':', '1', ':', '1', ':', ':', ':', '\n']
  | .shadow => ['b', ':', '!', ':', ':', ':', ':', ':', ':', ':', '\n']
  | .group => ['g', ':', 'x', ':', '5', ':', 'b', '\n']

theorem wellFormed_oneMember : WellFormed oneMember where
  passwd := ⟨[['b', ':', 'x', ':', '1', ':', '1', ':', ':', ':']], rfl, by decide, by decide⟩
  shadow := ⟨[['b', ':', '!', ':', ':', ':', ':', ':', ':', ':']], rfl, by decide, by decide⟩
  group := ⟨[['g', ':', 'x', ':', '5', ':', 'b']], rfl, by decide, by decide⟩
  shadowed := by decide
  members := by decide

/-- `groupdel` takes a group with its members, and two system accounts have one uid. -/
theorem members_and_ids_lost :
    (WellFormed oneMember ∧ ∃ S', succeed oneMember (byRoot, .groupdel [['g']]) = some S' ∧
      ∃ gr ∈ groups (oneMember .group), ['b'] ∈ gr.mem ∧
        ¬∃ gr' ∈ groups (S' .group), gr'.name = gr.name ∧ ['b'] ∈ gr'.mem) ∧
    (WellFormed (fun _ => []) ∧ ∃ S', exec succeed (fun _ => [])
      [(byRoot, .useradd [['-', 'r'], ['b']]), (byRoot, .useradd [['-', 'r'], ['c']])] = some S' ∧
      ¬OwnId Passwd.name Passwd.uid ['c'] (passwds (S' .passwd))) := by
  refine ⟨⟨wellFormed_oneMember, _, rfl, ?_⟩, wellFormed_empty, _, rfl, ?_⟩
  · decide
  · unfold OwnId
    decide

end Verkos.Vlogin
