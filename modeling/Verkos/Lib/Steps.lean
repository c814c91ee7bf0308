import Mathlib.Data.List.Basic

/-!
# Runs of a partial step

A machine is a step on a state and an input, partial because not every input can come in every
state. `Run ok` is a run in which every step meets `ok` where it is taken, and `Run.invariant` is
the one induction that a safety result needs: what a step that meets `ok` keeps, every state of
the run has.
-/

namespace Verkos.Lib

variable {σ ι : Type*}

/-- The inputs lead from one state to the other, and each step meets `ok` where it is taken. -/
inductive Run (step : σ → ι → Option σ) (ok : σ → ι → Prop) : σ → List ι → σ → Prop
  | nil (s : σ) : Run step ok s [] s
  | cons {s s' s'' : σ} {i : ι} {is : List ι} : ok s i → step s i = some s' →
    Run step ok s' is s'' → Run step ok s (i :: is) s''

namespace Run

variable {step : σ → ι → Option σ} {ok : σ → ι → Prop} {s s' s'' : σ} {i : ι} {is js : List ι}

/-- What every step keeps holds at the end of a run, so at every point of it. -/
theorem invariant {Inv : σ → Prop} (keep : ∀ s i s', Inv s → ok s i → step s i = some s' → Inv s')
    (h : Run step ok s is s') (h0 : Inv s) : Inv s' := by
  induction h with
  | nil => exact h0
  | cons hok hstep _ ih => exact ih (keep _ _ _ h0 hok hstep)

theorem append (h : Run step ok s is s') (h' : Run step ok s' js s'') :
    Run step ok s (is ++ js) s'' := by
  induction h with
  | nil => exact h'
  | cons hok hstep _ ih => exact .cons hok hstep (ih h')

end Run

/-- The state that the inputs lead to, if each of them can come. -/
def exec (step : σ → ι → Option σ) (s : σ) : List ι → Option σ
  | [] => some s
  | i :: is => (step s i).bind fun s' => exec step s' is

theorem run_of_exec {step : σ → ι → Option σ} {s s' : σ} {is : List ι}
    (h : exec step s is = some s') : Run step (fun _ _ => True) s is s' := by
  induction is generalizing s with
  | nil =>
    obtain rfl := Option.some.inj h
    exact .nil _
  | cons i is ih =>
    obtain ⟨s1, hs, h⟩ := Option.bind_eq_some_iff.1 h
    exact .cons trivial hs (ih h)

end Verkos.Lib
