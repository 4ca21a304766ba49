import Mathlib.Data.List.Basic
import Mathlib.Tactic.Common

/-!
# Runs which may end in a fault

A step takes a state to the next state or to a fault, and a run ends at its first
fault.  What holds of every step of a run, and of every state it reaches, is
decided step by step.
-/

namespace DialdTop

section Runs

variable {σ ε α : Type*}

def runSteps (step : α → σ → Except ε σ) : List α → σ → Except ε σ
  | [], s => .ok s
  | a :: as, s => (step a s).bind (runSteps step as)

/-- The property holds in front of every step which the run comes to. -/
def EveryStep (step : α → σ → Except ε σ) (P : α → σ → Prop) (as : List α) (s : σ) : Prop :=
  ∀ before a after s', as = before ++ a :: after → runSteps step before s = .ok s' → P a s'

/-- The property holds in every state which the run reaches. -/
def EveryState (step : α → σ → Except ε σ) (P : σ → Prop) (as : List α) (s : σ) : Prop :=
  ∀ before after s', as = before ++ after → runSteps step before s = .ok s' → P s'

variable {step : α → σ → Except ε σ} {P : α → σ → Prop} {Inv T : σ → Prop}

theorem runSteps_cons_of_ok {a : α} {s s' : σ} (h : step a s = .ok s') (as : List α) :
    runSteps step (a :: as) s = runSteps step as s' := by
  rw [runSteps, h]
  rfl

theorem runSteps_cons_of_error {a : α} {s : σ} {e : ε} (h : step a s = .error e)
    (as : List α) : runSteps step (a :: as) s = .error e := by
  rw [runSteps, h]
  rfl

theorem runSteps_append_of_ok
    {as : List α} {s s' : σ} (h : runSteps step as s = .ok s') (bs : List α) :
    runSteps step (as ++ bs) s = runSteps step bs s' := by
  induction as generalizing s with
  | nil =>
      cases h
      rfl
  | cons a as ih =>
      cases hstep : step a s with
      | error e =>
          rw [runSteps_cons_of_error hstep] at h
          cases h
      | ok s₁ =>
          rw [runSteps_cons_of_ok hstep] at h
          rw [List.cons_append, runSteps_cons_of_ok hstep, ih h]

/-- An invariant of the steps holds where a run ends. -/
theorem runSteps_invariant {as : List α}
    (hinv : ∀ a ∈ as, ∀ s s', Inv s → step a s = .ok s' → Inv s')
    {s s' : σ} (hs : Inv s) (h : runSteps step as s = .ok s') : Inv s' := by
  induction as generalizing s with
  | nil =>
      cases h
      exact hs
  | cons a as ih =>
      rw [List.forall_mem_cons] at hinv
      cases hstep : step a s with
      | error e =>
          rw [runSteps_cons_of_error hstep] at h
          cases h
      | ok s₁ =>
          rw [runSteps_cons_of_ok hstep] at h
          exact ih hinv.2 (hinv.1 s s₁ hs hstep) h

@[simp] theorem everyStep_nil (s : σ) : EveryStep step P [] s := by
  intro before a after s' has
  simp at has

theorem everyStep_cons (a : α) (as : List α) (s : σ) :
    EveryStep step P (a :: as) s ↔
      P a s ∧ ∀ s', step a s = .ok s' → EveryStep step P as s' := by
  constructor
  · intro h
    refine ⟨h [] a as s rfl rfl, ?_⟩
    intro s' hstep before b after s'' has hrun
    apply h (a :: before) b after s'' (by rw [has, List.cons_append])
    rw [runSteps_cons_of_ok hstep, hrun]
  · rintro ⟨hfirst, hlater⟩ before b after s'' has hrun
    cases before with
    | nil =>
        cases has
        cases hrun
        exact hfirst
    | cons c before =>
        cases has
        cases hstep : step a s with
        | error e =>
            rw [runSteps_cons_of_error hstep] at hrun
            cases hrun
        | ok s' =>
            rw [runSteps_cons_of_ok hstep] at hrun
            exact hlater s' hstep before b after s'' rfl hrun

@[simp] theorem everyState_nil (s : σ) : EveryState step T [] s ↔ T s := by
  constructor
  · intro h
    exact h [] [] s rfl rfl
  · intro h before after s' has hrun
    obtain ⟨rfl, rfl⟩ := List.append_eq_nil_iff.mp has.symm
    cases hrun
    exact h

theorem everyState_cons (a : α) (as : List α) (s : σ) :
    EveryState step T (a :: as) s ↔
      T s ∧ ∀ s', step a s = .ok s' → EveryState step T as s' := by
  constructor
  · intro h
    refine ⟨h [] (a :: as) s rfl rfl, ?_⟩
    intro s' hstep before after s'' has hrun
    apply h (a :: before) after s'' (by rw [has, List.cons_append])
    rw [runSteps_cons_of_ok hstep, hrun]
  · rintro ⟨hfirst, hlater⟩ before after s'' has hrun
    cases before with
    | nil =>
        cases hrun
        exact hfirst
    | cons c before =>
        cases has
        cases hstep : step a s with
        | error e =>
            rw [runSteps_cons_of_error hstep] at hrun
            cases hrun
        | ok s' =>
            rw [runSteps_cons_of_ok hstep] at hrun
            exact hlater s' hstep before after s'' rfl hrun

/-- A run avoids the bad faults when each of its steps does. -/
theorem avoids_iff_everyStep
    {Bad : ε → Prop} (hinv : ∀ a s s', Inv s → step a s = .ok s' → Inv s')
    (hfault : ∀ a s, Inv s → ((∀ e, step a s = .error e → ¬ Bad e) ↔ P a s))
    (as : List α) {s : σ} (hs : Inv s) :
    (∀ e, runSteps step as s = .error e → ¬ Bad e) ↔ EveryStep step P as s := by
  induction as generalizing s with
  | nil => simp [runSteps]
  | cons a as ih =>
      rw [everyStep_cons, ← hfault a s hs]
      cases hstep : step a s with
      | error e =>
          rw [runSteps_cons_of_error hstep]
          simp
      | ok s' =>
          rw [runSteps_cons_of_ok hstep, ih (hinv a s s' hs hstep)]
          simp

/-- A property of states is kept by a run exactly when each completed step keeps it. -/
theorem everyState_iff_everyStep
    (hinv : ∀ a s s', Inv s → step a s = .ok s' → Inv s')
    (hkeeps : ∀ a s, Inv s → T s → ((∀ s', step a s = .ok s' → T s') ↔ P a s))
    (as : List α) {s : σ} (hs : Inv s) (ht : T s) :
    EveryState step T as s ↔ EveryStep step P as s := by
  induction as generalizing s with
  | nil => simp [ht]
  | cons a as ih =>
      rw [everyState_cons, everyStep_cons, ← hkeeps a s hs ht]
      constructor
      · rintro ⟨-, hlater⟩
        have hnext : ∀ s', step a s = .ok s' → T s' := by
          intro s' hstep
          exact hlater s' hstep [] as s' rfl rfl
        refine ⟨hnext, fun s' hstep => ?_⟩
        exact (ih (hinv a s s' hs hstep) (hnext s' hstep)).mp (hlater s' hstep)
      · rintro ⟨hnext, hlater⟩
        refine ⟨ht, fun s' hstep => ?_⟩
        exact (ih (hinv a s s' hs hstep) (hnext s' hstep)).mpr (hlater s' hstep)

end Runs

end DialdTop
