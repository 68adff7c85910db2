import Mathlib.Logic.Function.Basic

/-!
# Runs of a call-driven system

A kernel component is a state together with the calls its clients may make. `step s op` gives
the result of a call and the next state, or `none` when the call never comes back with a defined
result. `ok s op` is what the client promises for the call `op` in the state `s`. A state is
reachable when a sequence of such calls leads to it.
-/

namespace MyOS2

variable {σ ι ρ : Type*}

/-- The states a run can pass through: a start state, or the state some call left behind. -/
inductive Reachable (step : σ → ι → Option (ρ × σ)) (ok : σ → ι → Prop) (start : σ → Prop) :
    σ → Prop
  | start {s : σ} : start s → Reachable step ok start s
  | call {s s' : σ} {op : ι} {r : ρ} :
      Reachable step ok start s → ok s op → step s op = some (r, s') →
      Reachable step ok start s'

namespace Reachable

variable {step : σ → ι → Option (ρ × σ)} {ok : σ → ι → Prop} {start : σ → Prop}

/-- A sequence of calls, each one permitted where it is made: the state after the last. -/
def run (step : σ → ι → Option (ρ × σ)) (ok : σ → ι → Prop) [∀ s op, Decidable (ok s op)]
    (s : σ) : List ι → Option σ
  | [] => some s
  | op :: ops =>
    if ok s op then
      match step s op with
      | some (_, s') => run step ok s' ops
      | none => none
    else none

section

variable [∀ s op, Decidable (ok s op)]

theorem of_run {s s' : σ} (hs : Reachable step ok start s)
    (ops : List ι) (h : run step ok s ops = some s') : Reachable step ok start s' := by
  induction ops generalizing s with
  | nil => exact Option.some.inj h ▸ hs
  | cons op ops ih =>
    rw [run] at h
    split at h
    · rename_i hok
      split at h
      · rename_i r s₁ hstep
        exact ih (.call hs hok hstep) h
      · contradiction
    · contradiction

theorem exists_of_run_from {s : σ} {p : σ → Bool}
    (hs : Reachable step ok start s) (ops : List ι) (h : (run step ok s ops).any p = true) :
    ∃ s', Reachable step ok start s' ∧ p s' = true := by
  cases hrun : run step ok s ops with
  | none =>
    rw [hrun] at h
    contradiction
  | some s' =>
    rw [hrun] at h
    exact ⟨s', of_run hs ops hrun, h⟩

theorem exists_of_run {s : σ} {p : σ → Bool} (hs : start s)
    (ops : List ι) (h : (run step ok s ops).any p = true) :
    ∃ s', Reachable step ok start s' ∧ p s' = true :=
  exists_of_run_from (.start hs) ops h

end

/-- A run under a stronger promise is a run. -/
theorem imp {ok' : σ → ι → Prop} (himp : ∀ s op, ok s op → ok' s op) {s : σ}
    (h : Reachable step ok start s) : Reachable step ok' start s := by
  induction h with
  | start hs => exact .start hs
  | call _ hok hstep ih => exact .call ih (himp _ _ hok) hstep

theorem invariant {Inv : σ → Prop} (hstart : ∀ s, start s → Inv s)
    (hcall : ∀ s op r s', Inv s → ok s op → step s op = some (r, s') → Inv s')
    {s : σ} (h : Reachable step ok start s) : Inv s := by
  induction h with
  | start hs => exact hstart _ hs
  | call _ hok hstep ih => exact hcall _ _ _ _ ih hok hstep

theorem invariant_of_returns {Inv : σ → Prop} (hstart : ∀ s, start s → Inv s)
    (hcall : ∀ s op, Inv s → ok s op → ∃ r s', step s op = some (r, s') ∧ Inv s')
    {s : σ} (h : Reachable step ok start s) : Inv s := by
  refine h.invariant hstart fun s op r s' hs hok hstep => ?_
  obtain ⟨r₁, s₁, hstep₁, hs₁⟩ := hcall s op hs hok
  cases hstep₁.symm.trans hstep
  exact hs₁

end Reachable

end MyOS2
