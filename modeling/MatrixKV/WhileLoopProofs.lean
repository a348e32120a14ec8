import Mathlib

/-! # Loops without a bound

    A round of a `while (true)` loop goes on with a new state or leaves the loop with
    a result.  `run` makes a number of rounds; the loop returns `b` when some number
    of rounds does.

    * `Returns.exit`, `Returns.round` — one round at a time.
    * `not_returns` — a set of states in which every round goes on, and stays, is
      never left. -/

namespace WhileLoop

variable {σ β : Type}

/-- `fuel` rounds at most. -/
def run (step : σ → σ ⊕ β) : Nat → σ → Option β
  | 0, _ => none
  | fuel + 1, s =>
    match step s with
    | .inl s' => run step fuel s'
    | .inr b => some b

/-- The loop leaves with `b`. -/
def Returns (step : σ → σ ⊕ β) (s : σ) (b : β) : Prop := ∃ fuel, run step fuel s = some b

variable {step : σ → σ ⊕ β} {s s' : σ} {b c : β}

theorem run_of_inl (h : step s = .inl s') (fuel : Nat) :
    run step (fuel + 1) s = run step fuel s' := by
  rw [run, h]

theorem run_of_inr (h : step s = .inr b) (fuel : Nat) : run step (fuel + 1) s = some b := by
  rw [run, h]

theorem Returns.exit (h : step s = .inr b) : Returns step s b :=
  ⟨1, run_of_inr h 0⟩

theorem Returns.round (h : step s = .inl s') (hr : Returns step s' b) : Returns step s b := by
  obtain ⟨fuel, hfuel⟩ := hr
  exact ⟨fuel + 1, (run_of_inl h fuel).trans hfuel⟩

/-- More rounds do not change a result. -/
theorem run_succ : ∀ (fuel : Nat) (s : σ), run step fuel s = some b →
    run step (fuel + 1) s = some b := by
  intro fuel
  induction fuel with
  | zero => intro s h; exact nomatch h
  | succ fuel ih =>
  intro s h
  cases hs : step s with
  | inl s' =>
    rw [run_of_inl hs] at h ⊢
    exact ih s' h
  | inr c =>
    rw [run_of_inr hs] at h ⊢
    exact h

theorem run_mono {fuel fuel' : Nat} (hle : fuel ≤ fuel') (h : run step fuel s = some b) :
    run step fuel' s = some b := by
  induction hle with
  | refl => exact h
  | step _ ih => exact run_succ _ s ih

/-- What holds before a round that goes on and after it keeps the loop going. -/
theorem not_returns (I : σ → Prop) (hI : ∀ s, I s → ∃ s', step s = .inl s' ∧ I s') :
    ∀ s, I s → ¬ Returns step s b := by
  rintro s hs ⟨fuel, hfuel⟩
  induction fuel generalizing s with
  | zero => exact nomatch hfuel
  | succ fuel ih =>
  obtain ⟨s', hstep, hs'⟩ := hI s hs
  rw [run_of_inl hstep] at hfuel
  exact ih s' hs' hfuel

end WhileLoop
