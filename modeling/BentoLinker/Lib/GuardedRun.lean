import Mathlib.Tactic.TypeStar

/-!
# Guarded Runs

Runs of a labelled transition system in which each step has to be allowed in the state it
is taken from.

- `GuardedRun start step ok s`: `s` is reached from a start state by allowed steps
- `GuardedRun.invariant`: what holds at the start and is preserved by each allowed step
  holds in every state reached
- `GuardedRun.mono`: a run is a run under any weaker guard

The guard is kept apart from the steps, so that one transition system serves several
statements of the form "in every run whose steps all meet the condition".
-/

/-- The states reached from a start state by allowed steps. -/
inductive GuardedRun {σ ε : Type*} (start : σ → Prop) (step : ε → σ → σ → Prop)
    (ok : ε → σ → Prop) : σ → Prop where
  | start {s : σ} : start s → GuardedRun start step ok s
  | step {s s' : σ} {e : ε} : GuardedRun start step ok s → ok e s → step e s s' →
      GuardedRun start step ok s'

namespace GuardedRun

variable {σ ε : Type*} {start : σ → Prop} {step : ε → σ → σ → Prop} {ok ok' : ε → σ → Prop}

/-- The induction over a run. -/
theorem invariant (Inv : σ → Prop) (hstart : ∀ s, start s → Inv s)
    (hstep : ∀ e s s', Inv s → ok e s → step e s s' → Inv s') {s : σ}
    (h : GuardedRun start step ok s) : Inv s := by
  induction h with
  | start h => exact hstart _ h
  | step _ hok hs ih => exact hstep _ _ _ ih hok hs

theorem mono (hok : ∀ e s, ok e s → ok' e s) {s : σ} (h : GuardedRun start step ok s) :
    GuardedRun start step ok' s := by
  induction h with
  | start h => exact .start h
  | step _ h hs ih => exact .step ih (hok _ _ h) hs

end GuardedRun
