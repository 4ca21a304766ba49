import Mathlib.Data.Finset.Card
import Mathlib.Data.Finset.Insert
import Mathlib.Data.Finset.Erase
import Mathlib.Data.Finset.SDiff
import DialdTop.CString

/-!
# The counting semaphore of the client library

The threads are known by the elements of a type of any size.  The sections
which hold the mutex are atomic.  A thread in `pthread_cond_wait` is waiting
until it is woken, by a signal or for no reason, and it goes on when it has the
mutex again, which may be after other threads had it.
-/

namespace DialdTop

/-- `value` of the `SemID_t`, the threads inside `pthread_cond_wait` before and
after they are woken, and how many calls have returned. -/
structure Semaphore (T : Type) where
  value : Int
  waiting : Finset T
  woken : Finset T
  takes : ℕ
  gives : ℕ
  deriving DecidableEq

namespace Semaphore

variable {T : Type}

/-- After `SemaphoreCreate`. -/
def create (initVal : Int) : Semaphore T where
  value := initVal
  waiting := ∅
  woken := ∅
  takes := 0
  gives := 0

/-- The thread is in no call. -/
def Outside (s : Semaphore T) (t : T) : Prop :=
  t ∉ s.waiting ∧ t ∉ s.woken

/-- `value--`, the last statement of `SemaphoreTake` under the mutex. -/
def decrement (s : Semaphore T) : Semaphore T :=
  { s with value := wrapInt (s.value - 1), takes := s.takes + 1 }

inductive Action (T : Type)
  | take (t : T)
  | taken (t : T)
  | give (t : T) (signalled : Finset T)
  | wake (t : T)

/-! ## Safety -/

/-- The counter is not negative, and not more has been taken than there was. -/
def Safe (initVal : Int) (s : Semaphore T) : Prop :=
  0 ≤ s.value ∧ (s.takes : Int) ≤ initVal + s.gives

instance (initVal : Int) (s : Semaphore T) : Decidable (s.Safe initVal) :=
  inferInstanceAs (Decidable (_ ∧ _))

/-- A thread which returns from `pthread_cond_wait` finds something to take, and
a `SemaphoreGive` does not find the greatest `int`. -/
def Guarded (s : Semaphore T) : Action T → Prop
  | .taken _ => s.value ≠ 0
  | .give _ _ => s.value ≠ intMax
  | _ => True

/-- What a guarded run preserves. -/
structure Accounted (initVal : Int) (s : Semaphore T) : Prop where
  value : s.value = initVal + s.gives - s.takes
  inRange : 0 ≤ s.value ∧ s.value ≤ intMax

instance (s : Semaphore T) (a : Action T) : Decidable (s.Guarded a) :=
  match a with
  | .take _ => isTrue trivial
  | .taken _ => inferInstanceAs (Decidable (_ ≠ _))
  | .give _ _ => inferInstanceAs (Decidable (_ ≠ _))
  | .wake _ => isTrue trivial

theorem Accounted.safe {initVal : Int} {s : Semaphore T} (h : Accounted initVal s) :
    s.Safe initVal := by
  have hvalue := h.value
  have hrange := h.inRange
  exact ⟨hrange.1, by omega⟩

theorem wrapInt_of_inRange {value : Int} (hlow : 0 ≤ value) (hhigh : value ≤ intMax) :
    wrapInt value = value := by
  unfold intMax at hhigh
  exact Int.bmod_eq_of_le (by omega) (by omega)

theorem Accounted.decrement
    {initVal : Int} {s t : Semaphore T} (h : Accounted initVal s) (hvalue : s.value ≠ 0)
    (hdecrement : t.value = wrapInt (s.value - 1)) (htakes : t.takes = s.takes + 1)
    (hgives : t.gives = s.gives) : Accounted initVal t := by
  have hrange := h.inRange
  rw [wrapInt_of_inRange (by omega) (by omega)] at hdecrement
  have haccount := h.value
  refine ⟨?_, by omega⟩
  rw [hdecrement, htakes, hgives]
  push_cast
  omega

/-! ## Sections and runs -/

variable [DecidableEq T]

instance (s : Semaphore T) (t : T) : Decidable (s.Outside t) :=
  inferInstanceAs (Decidable (_ ∧ _))

/-- `SemaphoreTake` up to the first release of the mutex. -/
def semaphoreTake (s : Semaphore T) (t : T) : Semaphore T :=
  if s.value = 0 then { s with waiting := insert t s.waiting }
  else s.decrement

/-- The rest of `SemaphoreTake` behind `pthread_cond_wait`. -/
def semaphoreTaken (s : Semaphore T) (t : T) : Semaphore T :=
  { s.decrement with woken := s.woken.erase t }

/-- `SemaphoreGive`, whose signal wakes the given threads. -/
def semaphoreGive (s : Semaphore T) (signalled : Finset T) : Semaphore T :=
  { s with
    value := wrapInt (s.value + 1)
    waiting := s.waiting \ signalled
    woken := s.woken ∪ signalled
    gives := s.gives + 1 }

/-- `pthread_cond_signal` wakes at least one of the threads which wait. -/
def Signals (s : Semaphore T) (signalled : Finset T) : Prop :=
  signalled ⊆ s.waiting ∧ (signalled = ∅ → s.waiting = ∅)

instance (s : Semaphore T) (signalled : Finset T) : Decidable (s.Signals signalled) :=
  inferInstanceAs (Decidable (_ ∧ _))

/-- One atomic section, or a spurious wake-up. -/
def step (s : Semaphore T) : Action T → Option (Semaphore T)
  | .take t => if s.Outside t then some (s.semaphoreTake t) else none
  | .taken t => if t ∈ s.woken then some (s.semaphoreTaken t) else none
  | .give t signalled =>
      if s.Outside t ∧ s.Signals signalled then some (s.semaphoreGive signalled) else none
  | .wake t =>
      if t ∈ s.waiting then
        some { s with waiting := s.waiting.erase t, woken := insert t s.woken }
      else none

/-- The states of a run, as long as its actions are possible. -/
def states (s : Semaphore T) : List (Action T) → List (Semaphore T)
  | [] => [s]
  | a :: later =>
      s :: match s.step a with
        | some next => next.states later
        | none => []

/-- The steps of a run: each possible action with the state it is taken in. -/
def steps (s : Semaphore T) : List (Action T) → List (Semaphore T × Action T)
  | [] => []
  | a :: later =>
      match s.step a with
      | some next => (s, a) :: next.steps later
      | none => []

/-- From an accounted state, the guarded actions lead to accounted states and
the others to unsafe ones. -/
theorem Accounted.step_iff
    {initVal : Int} {s next : Semaphore T} {a : Action T} (h : Accounted initVal s)
    (hstep : s.step a = some next) :
    (s.Guarded a → Accounted initVal next) ∧ (¬ s.Guarded a → ¬ next.Safe initVal) := by
  have haccount := h.value
  have hrange := h.inRange
  cases a with
  | take t =>
      refine ⟨fun _ => ?_, fun hguarded => absurd trivial hguarded⟩
      simp only [step, Option.ite_none_right_eq_some, Option.some.injEq] at hstep
      rw [← hstep.2, semaphoreTake]
      by_cases hvalue : s.value = 0
      · rw [if_pos hvalue]
        exact ⟨haccount, hrange⟩
      · rw [if_neg hvalue]
        exact h.decrement hvalue rfl rfl rfl
  | taken t =>
      simp only [step, Option.ite_none_right_eq_some, Option.some.injEq] at hstep
      rw [← hstep.2]
      constructor
      · intro hvalue
        exact h.decrement hvalue rfl rfl rfl
      · intro hguarded hsafe
        have hvalue : s.value = 0 := not_not.mp hguarded
        have hnegative : (s.semaphoreTaken t).value = -1 := by
          simp only [semaphoreTaken, Semaphore.decrement, hvalue]
          decide
        have hnonneg := hsafe.1
        omega
  | give t signalled =>
      simp only [step, Option.ite_none_right_eq_some, Option.some.injEq] at hstep
      rw [← hstep.2]
      constructor
      · intro hvalue
        have hbelow : s.value < intMax := lt_of_le_of_ne hrange.2 hvalue
        have hincrement : (s.semaphoreGive signalled).value = s.value + 1 :=
          wrapInt_of_inRange (by omega) (by omega)
        refine ⟨?_, by omega⟩
        rw [hincrement]
        simp only [semaphoreGive]
        push_cast
        omega
      · intro hguarded hsafe
        have hvalue : s.value = intMax := not_not.mp hguarded
        have hnegative : (s.semaphoreGive signalled).value = -2147483648 := by
          simp only [semaphoreGive, hvalue]
          decide
        have hnonneg := hsafe.1
        omega
  | wake t =>
      refine ⟨fun _ => ?_, fun hguarded => absurd trivial hguarded⟩
      simp only [step, Option.ite_none_right_eq_some, Option.some.injEq] at hstep
      rw [← hstep.2]
      exact ⟨haccount, hrange⟩

theorem Accounted.run_iff
    {initVal : Int} {s : Semaphore T} (h : Accounted initVal s) (actions : List (Action T)) :
    (∀ t ∈ s.states actions, t.Safe initVal) ↔ ∀ p ∈ s.steps actions, p.1.Guarded p.2 := by
  induction actions generalizing s with
  | nil => simp [states, steps, h.safe]
  | cons a later ih =>
      simp only [states, steps]
      cases hstep : s.step a with
      | none => simp [h.safe]
      | some next =>
          have hnext := h.step_iff hstep
          simp only [List.forall_mem_cons, h.safe, true_and]
          by_cases hguarded : s.Guarded a
          · rw [ih (hnext.1 hguarded)]
            simp [hguarded]
          · constructor
            · intro hsafe
              have hfirst : next ∈ next.states later := by
                cases later with
                | nil => exact List.mem_singleton.mpr rfl
                | cons b later => exact List.mem_cons_self
              exact absurd (hsafe next hfirst) (hnext.2 hguarded)
            · intro hall
              exact absurd hall.1 hguarded

end Semaphore

open Semaphore in
/-- Every state of a run is safe if and only if every step of it is guarded. -/
theorem semaphore_safe_iff
    {T : Type} [DecidableEq T] {initVal : Int} (hinit : 0 ≤ initVal ∧ initVal ≤ intMax)
    (actions : List (Action T)) :
    (∀ t ∈ (create initVal).states actions, t.Safe initVal) ↔
      ∀ p ∈ (create initVal).steps actions, p.1.Guarded p.2 := by
  have haccounted : Accounted initVal (create initVal : Semaphore T) := by
    refine ⟨?_, hinit⟩
    simp [create]
  exact haccounted.run_iff actions

theorem semaphore_safe_iff_handover :
    let handedOver : Semaphore ℕ :=
      { value := 0, waiting := ∅, woken := ∅, takes := 1, gives := 1 }
    handedOver ∈ (Semaphore.create 0).states [.take 0, .give 1 {0}, .taken 0] ∧
      handedOver.Safe 0 := by
  intro handedOver
  have hreached : handedOver ∈ (Semaphore.create 0).states [.take 0, .give 1 {0}, .taken 0] := by
    decide
  exact ⟨hreached, (semaphore_safe_iff (by decide) _).mpr (by decide) handedOver hreached⟩

/-- Another thread enters before the woken one has the mutex again. -/
theorem exists_overdrawn_semaphore :
    ∃ (actions : List (Semaphore.Action ℕ)) (t : Semaphore ℕ),
      t ∈ (Semaphore.create 0).states actions ∧ t.value = -1 ∧ t.takes = 2 ∧ t.gives = 1 ∧
        ¬ t.Safe 0 := by
  let overdrawn : Semaphore ℕ :=
    { value := -1, waiting := ∅, woken := ∅, takes := 2, gives := 1 }
  exact ⟨[.take 0, .give 1 {0}, .take 2, .taken 0], overdrawn, by decide, rfl, rfl, rfl,
    by decide⟩

namespace Semaphore

variable {T : Type} [DecidableEq T]

/-! ## Wake-ups -/

/-- A thread waits only while what is left is due to threads which have been woken. -/
structure Covered (s : Semaphore T) : Prop where
  apart : Disjoint s.waiting s.woken
  covered : s.waiting ≠ ∅ → s.value ≤ s.woken.card

/-- `value--` does not find the least `int`. -/
def NoUnderflow (s : Semaphore T) : Prop := -2147483648 < s.value

instance (s : Semaphore T) : Decidable s.NoUnderflow :=
  inferInstanceAs (Decidable (_ < _))

theorem wrapInt_le {value : Int} (h : -2147483648 ≤ value) : wrapInt value ≤ value := by
  rw [wrapInt, Int.bmod_def]
  split
  · omega
  · omega

omit [DecidableEq T] in
theorem decrement_value_le {s : Semaphore T} (h : s.NoUnderflow) :
    s.decrement.value ≤ s.value - 1 := by
  rw [NoUnderflow] at h
  exact wrapInt_le (by omega)

theorem Covered.step
    {s next : Semaphore T} {a : Action T} (h : s.Covered) (hvalue : s.NoUnderflow)
    (hstep : s.step a = some next) : next.Covered := by
  have hdecrement := decrement_value_le hvalue
  cases a with
  | take t =>
      simp only [Semaphore.step, Option.ite_none_right_eq_some, Option.some.injEq] at hstep
      rcases hstep with ⟨houtside, rfl⟩
      unfold semaphoreTake
      split
      next hzero =>
        refine ⟨Finset.disjoint_insert_left.mpr ⟨houtside.2, h.apart⟩, fun _ => ?_⟩
        change s.value ≤ s.woken.card
        omega
      next =>
        refine ⟨h.apart, fun hwaiting => ?_⟩
        have hcovered := h.covered hwaiting
        change s.decrement.value ≤ s.woken.card
        omega
  | taken t =>
      simp only [Semaphore.step, Option.ite_none_right_eq_some, Option.some.injEq] at hstep
      rcases hstep with ⟨hwoken, rfl⟩
      refine ⟨h.apart.mono_right (Finset.erase_subset t s.woken), fun hwaiting => ?_⟩
      have hcovered := h.covered hwaiting
      have hcard := Finset.card_erase_add_one hwoken
      change s.decrement.value ≤ (s.woken.erase t).card
      omega
  | give t signalled =>
      simp only [Semaphore.step, Option.ite_none_right_eq_some, Option.some.injEq] at hstep
      rcases hstep with ⟨⟨_, hsubset, hsignals⟩, rfl⟩
      have hincrement : wrapInt (s.value + 1) ≤ s.value + 1 := by
        rw [NoUnderflow] at hvalue
        exact wrapInt_le (by omega)
      refine ⟨?_, fun hwaiting => ?_⟩
      · exact Finset.disjoint_union_right.mpr
          ⟨h.apart.mono_left Finset.sdiff_subset, Finset.sdiff_disjoint⟩
      · -- Threads still wait, so that others did before, and one of them is woken now.
        have hbefore : s.waiting ≠ ∅ := by
          intro hempty
          apply hwaiting
          change s.waiting \ signalled = ∅
          rw [hempty]
          exact Finset.empty_sdiff signalled
        have hcovered := h.covered hbefore
        have hwoken : 0 < signalled.card :=
          Finset.card_pos.mpr (Finset.nonempty_iff_ne_empty.mpr (mt hsignals hbefore))
        have hcard := Finset.card_union_of_disjoint (h.apart.symm.mono_right hsubset)
        change wrapInt (s.value + 1) ≤ (s.woken ∪ signalled).card
        omega
  | wake t =>
      simp only [Semaphore.step, Option.ite_none_right_eq_some, Option.some.injEq] at hstep
      rcases hstep with ⟨hwaits, rfl⟩
      have hwoken : t ∉ s.woken := Finset.disjoint_left.mp h.apart hwaits
      refine ⟨?_, fun _ => ?_⟩
      · rw [Finset.disjoint_insert_right]
        exact ⟨Finset.notMem_erase t s.waiting,
          h.apart.mono_left (Finset.erase_subset t s.waiting)⟩
      · have hcovered := h.covered (Finset.ne_empty_of_mem hwaits)
        have hcard := Finset.card_insert_of_notMem hwoken
        change s.value ≤ (insert t s.woken).card
        omega

theorem Covered.run
    {s : Semaphore T} (h : s.Covered) {actions : List (Action T)}
    (hvalues : ∀ p ∈ s.steps actions, p.1.NoUnderflow) : ∀ t ∈ s.states actions, t.Covered := by
  induction actions generalizing s with
  | nil => simpa [states] using h
  | cons a later ih =>
      simp only [states, steps] at hvalues ⊢
      cases hstep : s.step a with
      | none => simpa using h
      | some next =>
          rw [hstep, List.forall_mem_cons] at hvalues
          simp only [List.forall_mem_cons]
          exact ⟨h, ih (h.step hvalues.1 hstep) hvalues.2⟩

end Semaphore

open Semaphore in
/-- No wake-up is lost: while a thread waits, as much as the value has been left
for threads which have been woken. -/
theorem semaphore_wakes
    {T : Type} [DecidableEq T] {initVal : Int} {actions : List (Action T)}
    (hvalues : ∀ p ∈ (create initVal).steps actions, p.1.NoUnderflow) :
    ∀ s ∈ (create initVal).states actions, ∀ t ∈ s.waiting, s.value ≤ s.woken.card := by
  intro s hs t ht
  have hcreate : (create initVal : Semaphore T).Covered :=
    ⟨Finset.disjoint_empty_left _, fun hwaiting => absurd rfl hwaiting⟩
  exact (hcreate.run hvalues s hs).covered (Finset.ne_empty_of_mem ht)

/-- One thread is woken and another one waits. -/
theorem semaphore_wakes_one :
    let s : Semaphore ℕ := { value := 1, waiting := {1}, woken := {0}, takes := 0, gives := 1 }
    s ∈ (Semaphore.create 0).states [.take 0, .take 1, .give 2 {0}] ∧ s.value ≤ s.woken.card := by
  intro s
  have hreached : s ∈ (Semaphore.create 0).states [.take 0, .take 1, .give 2 {0}] := by decide
  exact ⟨hreached, semaphore_wakes (by decide) s hreached 1 (by decide)⟩

end DialdTop
