import Mathlib.Tactic

/-!
# Enumerate — what a stepper yields

A stepper is a state with a step that can fail, a test whether it is at its end, and the item it
stands on. It enumerates a list if its steps never fail, it stands on the items of the list one after
the other, and it is at its end behind them and stays there.
-/

namespace Enumerate

variable {σ α : Type*}

/-- From `s` on, `step` yields the items of `xs` in order, and then the end. -/
def Enumerates (step : σ → Option σ) (done : σ → Bool) (item : σ → Option α) (s : σ) (xs : List α) :
    Prop :=
  ∃ run : Nat → σ, run 0 = s ∧ (∀ i, step (run i) = some (run (i + 1))) ∧
    ∀ i, done (run i) = decide (xs.length ≤ i) ∧ item (run i) = xs[i]?

variable {step : σ → Option σ} {done : σ → Bool} {item : σ → Option α}

/-- At its end a stepper that stays there enumerates nothing. -/
theorem enumerates_nil {s : σ} (hdone : done s = true) (hitem : item s = none)
    (hstep : step s = some s) : Enumerates step done item s [] :=
  ⟨fun _ => s, rfl, fun _ => hstep, fun i => ⟨by simp [hdone], by simp [hitem]⟩⟩

/-- One step further the rest is enumerated. -/
theorem enumerates_cons {s s' : σ} {x : α} {xs : List α} (hdone : done s = false)
    (hitem : item s = some x) (hstep : step s = some s') (h : Enumerates step done item s' xs) :
    Enumerates step done item s (x :: xs) := by
  obtain ⟨run, hzero, hsteps, hitems⟩ := h
  refine ⟨fun i => match i with
    | 0 => s
    | i + 1 => run i, rfl, fun i => ?_, fun i => ?_⟩
  · cases i with
    | zero => rw [hstep, ← hzero]
    | succ i => exact hsteps i
  · cases i with
    | zero => exact ⟨by simp [hdone], hitem⟩
    | succ i =>
      obtain ⟨hd, hx⟩ := hitems i
      exact ⟨by simp [hd], by simpa using hx⟩

/-- What is still to come, kept by every step, is what is enumerated. -/
theorem enumerates_of_rest {R : σ → List α → Prop}
    (hnil : ∀ s, R s [] → done s = true ∧ item s = none ∧ step s = some s)
    (hcons : ∀ s x xs, R s (x :: xs) → done s = false ∧ item s = some x ∧ ∃ s', step s = some s' ∧ R s' xs)
    (xs : List α) : ∀ {s : σ}, R s xs → Enumerates step done item s xs := by
  induction xs with
  | nil =>
    intro s h
    obtain ⟨hdone, hitem, hstep⟩ := hnil s h
    exact enumerates_nil hdone hitem hstep
  | cons x xs ih =>
    intro s h
    obtain ⟨hdone, hitem, s', hstep, hrest⟩ := hcons s x xs h
    exact enumerates_cons hdone hitem hstep (ih hrest)

end Enumerate
