import Mathlib.Tactic.Common

/-!
# Programs interrupted between statements

A C program which installs a signal handler has two readings.  Undisturbed, it
is a state transformer which may stop abnormally.  With signals enabled, the
handler may run to completion between any two of its statements.  This file
gives both readings to one syntax: a program is the sequence of its atomic
statements, each labelled with the place at which control waits before it.

The rules are `Prog.Keeps.exec`, for an invariant which every single statement
and the handler preserve, and those of `Prog.Triple`, for assertions which
differ from statement to statement and which the handler must leave valid at
the place where they stand.
-/

namespace Program

/-- A program which works on states `σ`, returns a value of type `α`, and may
stop abnormally with a reason in `ε`.  Every statement is atomic. -/
inductive Prog (L σ ε α : Type) : Type 1
  | ret (value : α) : Prog L σ ε α
  | stmt {β : Type} (place : L) (act : σ → Except ε (β × σ))
      (rest : β → Prog L σ ε α) : Prog L σ ε α

namespace Prog

variable {L σ ε α β γ : Type}

/-- Run one program and then another which depends on its result. -/
def bind : Prog L σ ε α → (α → Prog L σ ε β) → Prog L σ ε β
  | .ret value, f => f value
  | .stmt place act rest, f => .stmt place act fun b => (rest b).bind f

instance : Monad (Prog L σ ε) where
  pure := .ret
  bind := bind

/-- A single statement at a given place. -/
def act (place : L) (f : σ → Except ε (α × σ)) : Prog L σ ε α :=
  .stmt place f .ret

/-- Undisturbed execution. -/
def run : Prog L σ ε α → σ → Except ε (α × σ)
  | .ret value, s => .ok (value, s)
  | .stmt _ act rest, s =>
      match act s with
      | .error reason => .error reason
      | .ok (b, next) => (rest b).run next

@[simp] theorem run_pure (value : α) (s : σ) :
    (pure value : Prog L σ ε α).run s = .ok (value, s) := rfl

@[simp] theorem run_act
    (place : L) (f : σ → Except ε (α × σ)) (s : σ) :
    (act place f).run s = f s := by
  simp only [act, run]
  cases f s <;> rfl

@[simp] theorem run_bind
    (p : Prog L σ ε α) (f : α → Prog L σ ε β) (s : σ) :
    (p >>= f).run s =
      match p.run s with
      | .error reason => .error reason
      | .ok (a, next) => (f a).run next := by
  change (p.bind f).run s = _
  induction p generalizing s with
  | ret value => rfl
  | stmt place act rest ih =>
      simp only [bind, run]
      cases act s with
      | error reason => rfl
      | ok result => exact ih result.1 result.2

theorem run_bind_eq_ok
    {p : Prog L σ ε α} {f : α → Prog L σ ε β} {s last : σ} {b : β} :
    (p >>= f).run s = .ok (b, last) ↔
      ∃ a next, p.run s = .ok (a, next) ∧ (f a).run next = .ok (b, last) := by
  rw [run_bind]
  cases p.run s with
  | error reason => simp
  | ok result =>
      constructor
      · intro h
        exact ⟨result.1, result.2, rfl, h⟩
      · rintro ⟨a, next, hresult, h⟩
        cases hresult
        exact h

/-- The same program with every statement at one place. -/
def within (place : L) : Prog L σ ε α → Prog L σ ε α
  | .ret value => .ret value
  | .stmt _ act rest => .stmt place act fun b => (rest b).within place

@[simp] theorem run_within
    (place : L) (p : Prog L σ ε α) (s : σ) :
    (p.within place).run s = p.run s := by
  induction p generalizing s with
  | ret value => rfl
  | stmt old act rest ih =>
      simp only [within, run]
      cases act s with
      | error reason => rfl
      | ok result => exact ih result.1 result.2

theorem within_act (place old : L) (f : σ → Except ε (α × σ)) :
    (act old f).within place = act place f := rfl

theorem within_bind
    (place : L) (p : Prog L σ ε α) (f : α → Prog L σ ε β) :
    (p >>= f).within place = p.within place >>= fun a => (f a).within place := by
  change (p.bind f).within place = (p.within place).bind fun a => (f a).within place
  induction p with
  | ret value => rfl
  | stmt old act rest ih =>
      simp only [bind, within]
      congr 1
      funext b
      exact ih b

/-! ## Two runs -/

/-- Two runs which stop for one reason, or return one value in related states. -/
inductive Agree (R : σ → σ → Prop) : Except ε (α × σ) → Except ε (α × σ) → Prop
  | ok {value : α} {s t : σ} : R s t → Agree R (.ok (value, s)) (.ok (value, t))
  | error (reason : ε) : Agree R (.error reason) (.error reason)

theorem Agree.bind
    {R : σ → σ → Prop} {p q : Prog L σ ε α} {f g : α → Prog L σ ε β} {s t : σ}
    (hpq : Agree R (p.run s) (q.run t))
    (hfg : ∀ a next last, p.run s = .ok (a, next) → R next last →
      Agree R ((f a).run next) ((g a).run last)) :
    Agree R ((p >>= f).run s) ((q >>= g).run t) := by
  rw [run_bind, run_bind]
  generalize hp : p.run s = result at hpq
  generalize q.run t = result' at hpq
  cases hpq with
  | ok hrelated => exact hfg _ _ _ hp hrelated
  | error reason => exact .error reason

/-- What the relation determines is the same at the end of both runs. -/
theorem Agree.map_eq
    {R : σ → σ → Prop} {r r' : Except ε (α × σ)} (h : Agree R r r')
    {observe : σ → γ} (hobserve : ∀ s t, R s t → observe s = observe t) :
    r.map (fun result => observe result.2) = r'.map (fun result => observe result.2) := by
  cases h with
  | ok hrelated => exact congrArg Except.ok (hobserve _ _ hrelated)
  | error reason => rfl

/-! ## Execution with a signal handler -/

/-- Execution in which the handler may run to completion before any statement.
The relation `H` says at which places it may be delivered and what it does. -/
inductive Exec (H : L → σ → σ → Prop) : Prog L σ ε α → σ → α → σ → Prop
  | ret {value : α} {s : σ} : Exec H (.ret value) s value s
  | stmt {δ : Type} {place : L} {act : σ → Except ε (δ × σ)}
      {rest : δ → Prog L σ ε α} {s next last : σ} {d : δ} {value : α} :
      act s = .ok (d, next) → Exec H (rest d) next value last →
        Exec H (.stmt place act rest) s value last
  | signal {δ : Type} {place : L} {act : σ → Except ε (δ × σ)}
      {rest : δ → Prog L σ ε α} {s next last : σ} {value : α} :
      H place s next → Exec H (.stmt place act rest) next value last →
        Exec H (.stmt place act rest) s value last

/-- Undisturbed execution is one of the executions with a handler. -/
theorem exec_of_run
    {H : L → σ → σ → Prop} {p : Prog L σ ε α} {s last : σ} {value : α}
    (hrun : p.run s = .ok (value, last)) :
    Exec H p s value last := by
  induction p generalizing s with
  | ret a =>
      simp only [run, Except.ok.injEq, Prod.mk.injEq] at hrun
      obtain ⟨rfl, rfl⟩ := hrun
      exact .ret
  | stmt place act rest ih =>
      simp only [run] at hrun
      cases hact : act s with
      | error reason => simp [hact] at hrun
      | ok result =>
          rw [hact] at hrun
          exact .stmt hact (ih result.1 hrun)

/-- An execution of a sequence splits where control passes to the second
part. -/
theorem Exec.of_bind
    {H : L → σ → σ → Prop} {p : Prog L σ ε α} {f : α → Prog L σ ε β}
    {s last : σ} {b : β} (hexec : Exec H (p >>= f) s b last) :
    ∃ a next, Exec H p s a next ∧ Exec H (f a) next b last := by
  induction p generalizing s with
  | ret value => exact ⟨value, s, .ret, hexec⟩
  | stmt place act rest ih =>
      -- Signals before the first statement only move the starting state.
      generalize hq : (Prog.stmt place act rest >>= f) = q at hexec
      induction hexec with
      | ret => cases hq
      | stmt hact hrest =>
          cases hq
          obtain ⟨a, next, hfirst, hsecond⟩ := ih _ hrest
          exact ⟨a, next, .stmt hact hfirst, hsecond⟩
      | signal hsignal _ ihsignal =>
          cases hq
          obtain ⟨a, next, hfirst, hsecond⟩ := ihsignal ih rfl
          exact ⟨a, next, .signal hsignal hfirst, hsecond⟩

/-- Execution in which the handler runs once, before the statement with the
given number. -/
def interrupted (handler : σ → Except ε (Unit × σ)) :
    ℕ → Prog L σ ε α → σ → Except ε (α × σ)
  | _, .ret value, s => .ok (value, s)
  | 0, .stmt place act rest, s =>
      match handler s with
      | .error reason => .error reason
      | .ok (_, next) => (Prog.stmt place act rest).run next
  | n + 1, .stmt _ act rest, s =>
      match act s with
      | .error reason => .error reason
      | .ok (b, next) => (rest b).interrupted handler n next

theorem exec_of_interrupted
    {H : L → σ → σ → Prop} {handler : σ → Except ε (Unit × σ)}
    (hhandler : ∀ place s next, handler s = .ok ((), next) → H place s next)
    {n : ℕ} {p : Prog L σ ε α} {s last : σ} {value : α}
    (hrun : p.interrupted handler n s = .ok (value, last)) :
    Exec H p s value last := by
  induction p generalizing n s with
  | ret a =>
      simp only [interrupted, Except.ok.injEq, Prod.mk.injEq] at hrun
      obtain ⟨rfl, rfl⟩ := hrun
      exact .ret
  | stmt place act rest ih =>
      cases n with
      | zero =>
          simp only [interrupted] at hrun
          cases hsignal : handler s with
          | error reason => simp [hsignal] at hrun
          | ok result =>
              rw [hsignal] at hrun
              exact .signal (hhandler place s result.2 hsignal) (exec_of_run hrun)
      | succ n =>
          simp only [interrupted] at hrun
          cases hact : act s with
          | error reason => simp [hact] at hrun
          | ok result =>
              rw [hact] at hrun
              exact .stmt hact (ih result.1 hrun)

/-! ## Invariants of every statement -/

/-- Every statement of the program preserves `I`, whatever the statements
before it returned. -/
def Keeps (I : σ → Prop) : Prog L σ ε α → Prop
  | .ret _ => True
  | .stmt _ act rest =>
      (∀ s b next, I s → act s = .ok (b, next) → I next) ∧
        ∀ b, (rest b).Keeps I

@[simp] theorem keeps_pure (I : σ → Prop) (value : α) :
    (pure value : Prog L σ ε α).Keeps I := trivial

theorem keeps_act
    {I : σ → Prop} {place : L} {f : σ → Except ε (α × σ)}
    (hf : ∀ s b next, I s → f s = .ok (b, next) → I next) :
    (act place f).Keeps I :=
  ⟨hf, fun _ => trivial⟩

theorem Keeps.bind
    {I : σ → Prop} {p : Prog L σ ε α} {f : α → Prog L σ ε β}
    (hp : p.Keeps I) (hf : ∀ a, (f a).Keeps I) :
    (p >>= f).Keeps I := by
  change (p.bind f).Keeps I
  induction p with
  | ret value => exact hf value
  | stmt place act rest ih => exact ⟨hp.1, fun b => ih b (hp.2 b)⟩

@[simp] theorem keeps_ite_iff
    {I : σ → Prop} {c : Prop} [Decidable c] {p q : Prog L σ ε α} :
    (if c then p else q).Keeps I ↔ (c → p.Keeps I) ∧ (¬ c → q.Keeps I) := by
  by_cases hc : c
  · simp [hc]
  · simp [hc]

theorem keeps_act_bind_iff
    {I : σ → Prop} {place : L} {act : σ → Except ε (α × σ)} {f : α → Prog L σ ε β} :
    (Prog.act place act >>= f).Keeps I ↔
      (Prog.act place act).Keeps I ∧ ∀ a, (f a).Keeps I := by
  constructor
  · intro h
    exact ⟨⟨h.1, fun _ => trivial⟩, h.2⟩
  · intro h
    exact h.1.bind h.2

/-- An invariant of every statement and of the handler holds at the end of
every execution with signals. -/
theorem Keeps.exec
    {I : σ → Prop} {H : L → σ → σ → Prop} {p : Prog L σ ε α}
    {s last : σ} {value : α} (hp : p.Keeps I)
    (hhandler : ∀ place s next, H place s next → I s → I next)
    (hexec : Exec H p s value last) (hs : I s) : I last := by
  induction hexec with
  | ret => exact hs
  | stmt hact _ ih => exact ih (hp.2 _) (hp.1 _ _ _ hs hact)
  | signal hsignal _ ih => exact ih hp (hhandler _ _ _ hsignal hs)

/-! ## Assertions between statements -/

/-- The handler at this place preserves the assertion. -/
def Stable (H : L → σ → σ → Prop) (place : L) (P : σ → Prop) : Prop :=
  ∀ s next, H place s next → P s → P next

/-- From states in `P`, executions with the handler end in states in `Q`. -/
def Triple (H : L → σ → σ → Prop) (P : σ → Prop) (p : Prog L σ ε α)
    (Q : α → σ → Prop) : Prop :=
  ∀ s value last, Exec H p s value last → P s → Q value last

theorem triple_pure
    {H : L → σ → σ → Prop} {P : σ → Prop} {Q : α → σ → Prop} {value : α}
    (h : ∀ s, P s → Q value s) :
    Triple H P (pure value : Prog L σ ε α) Q := by
  intro s a last hexec hs
  cases hexec with
  | ret => exact h s hs

/-- The assertion before a statement has to be stable at its place. -/
theorem triple_act
    {H : L → σ → σ → Prop} {P : σ → Prop} {Q : α → σ → Prop} {place : L}
    {f : σ → Except ε (α × σ)} (hstable : Stable H place P)
    (hf : ∀ s a next, P s → f s = .ok (a, next) → Q a next) :
    Triple H P (act place f) Q := by
  intro s value last hexec hs
  generalize hp : act place f = p at hexec
  induction hexec with
  | ret => cases hp
  | stmt hact hrest _ =>
      cases hp
      cases hrest with
      | ret => exact hf _ _ _ hs hact
  | signal hsignal _ ih =>
      cases hp
      exact ih (hstable _ _ hsignal hs) rfl

theorem Triple.bind
    {H : L → σ → σ → Prop} {P : σ → Prop} {R : α → σ → Prop} {Q : β → σ → Prop}
    {p : Prog L σ ε α} {f : α → Prog L σ ε β}
    (hp : Triple H P p R) (hf : ∀ a, Triple H (R a) (f a) Q) :
    Triple H P (p >>= f) Q := by
  intro s value last hexec hs
  obtain ⟨a, next, hfirst, hsecond⟩ := hexec.of_bind
  exact hf a next value last hsecond (hp s a next hfirst hs)

theorem Triple.ite
    {H : L → σ → σ → Prop} {P : σ → Prop} {Q : α → σ → Prop} {c : Prop} [Decidable c]
    {p q : Prog L σ ε α} (hp : c → Triple H P p Q) (hq : ¬ c → Triple H P q Q) :
    Triple H P (if c then p else q) Q := by
  by_cases hc : c
  · rw [if_pos hc]
    exact hp hc
  · rw [if_neg hc]
    exact hq hc

theorem Triple.weaken
    {H : L → σ → σ → Prop} {P P' : σ → Prop} {Q : α → σ → Prop} {p : Prog L σ ε α}
    (hp : Triple H P' p Q) (h : ∀ s, P s → P' s) : Triple H P p Q := by
  intro s value last hexec hs
  exact hp s value last hexec (h s hs)

theorem Keeps.triple
    {I : σ → Prop} {H : L → σ → σ → Prop} {p : Prog L σ ε α} (hp : p.Keeps I)
    (hstable : ∀ place, Stable H place I) :
    Triple H I p fun _ => I := by
  intro s value last hexec hs
  exact hp.exec (fun place s next hH => hstable place s next hH) hexec hs

end Prog

end Program
