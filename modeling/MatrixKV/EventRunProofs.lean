import Mathlib

/-! # Runs of a machine over a list of events

    A machine is a function `step` from a state and an event to the next state.
    `Always P` says that `P` holds in every state of a run, `Never B` that no
    step of it is a `B` step.  The rule `always_iff_never` settles a property
    that an invariant carries until the first bad step and that every bad step
    breaks. -/

namespace EventRun

variable {σ ε : Type} (step : σ → ε → σ)

/-- The state after a run. -/
def run : σ → List ε → σ
  | s, [] => s
  | s, e :: es => run (step s e) es

/-- `P` holds in every state of the run, the first and the last included. -/
def Always (P : σ → Prop) : σ → List ε → Prop
  | s, [] => P s
  | s, e :: es => P s ∧ Always P (step s e) es

/-- No event of the run is taken in a state where it is bad. -/
def Never (B : σ → ε → Prop) : σ → List ε → Prop
  | _, [] => True
  | s, e :: es => ¬ B s e ∧ Never B (step s e) es

section Rules

variable {step} {P I : σ → Prop} {B : σ → ε → Prop}

/-- What holds throughout holds at the start. -/
theorem Always.start {s : σ} {es : List ε} (h : Always step P s es) : P s := by
  cases es with
  | nil => exact h
  | cons e es => exact h.1

/-- A run goes on where its first part ended. -/
theorem run_append (as bs : List ε) : ∀ s, run step s (as ++ bs) = run step (run step s as) bs := by
  induction as with
  | nil => exact fun _ => rfl
  | cons a as ih => exact fun s => ih (step s a)

/-- What every step keeps holds at the end of every run. -/
theorem run_induction (hkeep : ∀ s e, I s → I (step s e)) (es : List ε) (s : σ) (hs : I s) :
    I (run step s es) := by
  induction es generalizing s with
  | nil => exact hs
  | cons e es ih => exact ih (step s e) (hkeep s e hs)

/-- What every allowed step keeps holds at the end of every run of such steps. -/
theorem run_allowed {A : σ → ε → Prop} (hkeep : ∀ s e, I s → A s e → I (step s e)) (es : List ε)
    (s : σ) (hs : I s) (h : Never step (fun s e => ¬ A s e) s es) : I (run step s es) := by
  induction es generalizing s with
  | nil => exact hs
  | cons e es ih => exact ih (step s e) (hkeep s e hs (not_not.mp h.1)) h.2

/-- **THE RULE**: an invariant that implies `P`, is kept by every allowed step that is
    not bad and whose bad steps break `P`. -/
theorem always_iff_never_of_allowed {A : σ → ε → Prop} (himp : ∀ s, I s → P s)
    (hkeep : ∀ s e, I s → A s e → ¬ B s e → I (step s e))
    (hbreak : ∀ s e, I s → A s e → B s e → ¬ P (step s e)) (es : List ε) (s : σ) (hs : I s)
    (hall : Never step (fun s e => ¬ A s e) s es) : (Always step P s es ↔ Never step B s es) := by
  induction es generalizing s with
  | nil =>
    exact iff_of_true (himp s hs) trivial
  | cons e es ih =>
  have hallowed : A s e := not_not.mp hall.1
  by_cases hbad : B s e
  · refine iff_of_false ?_ (fun h => h.1 hbad)
    exact fun h => hbreak s e hs hallowed hbad h.2.start
  · have hnext := ih (step s e) (hkeep s e hs hallowed hbad) hall.2
    exact ⟨fun h => ⟨hbad, hnext.mp h.2⟩, fun h => ⟨himp s hs, hnext.mpr h.2⟩⟩

theorem never_false (es : List ε) (s : σ) : Never step (fun _ _ => ¬ True) s es := by
  induction es generalizing s with
  | nil => exact trivial
  | cons e es ih => exact ⟨not_not.mpr trivial, ih (step s e)⟩

/-- The rule where every step is allowed. -/
theorem always_iff_never (himp : ∀ s, I s → P s)
    (hkeep : ∀ s e, I s → ¬ B s e → I (step s e))
    (hbreak : ∀ s e, I s → B s e → ¬ P (step s e)) (es : List ε) (s : σ) (hs : I s) :
    Always step P s es ↔ Never step B s es :=
  always_iff_never_of_allowed himp (fun s e hs _ => hkeep s e hs) (fun s e hs _ => hbreak s e hs)
    es s hs (never_false es s)

end Rules

end EventRun
