import DialdTop.LRParser
import Mathlib.Data.List.Nodup
import Mathlib.Logic.Relation

/-!
# Stacks of a parser

Every state of the stack but the last is entered from the one below it over a
symbol.  What stands before the point of an item is therefore no longer than the
stack, so that no reduction empties it, and recovery from an error finds at
least the initial state.
-/

namespace LR

open Relation (ReflTransGen)

variable {T N A : Type*} {G : Grammar T N A}

/-! ## Items -/

/-- The item is a production of the grammar with its point behind `before`. -/
def Item.Past (G : Grammar T N A) (before : List (Symbol T N)) (i : Item T N A) : Prop :=
  match i.reduction with
  | some r => ∃ rule ∈ G.rules r.lhs,
      r = ⟨r.lhs, rule.rhs.length, rule.action⟩ ∧ rule.rhs = before ++ i.rest
  | none => before ++ i.rest = [.nonterminal G.start, .eof]

theorem Item.Past.advance
    {before rest : List (Symbol T N)} {reduction : Option (Reduction N A)} {X : Symbol T N}
    (h : Item.Past G before ⟨reduction, X :: rest⟩) :
    Item.Past G (before ++ [X]) ⟨reduction, rest⟩ := by
  cases reduction with
  | none =>
      rw [Item.Past, List.append_assoc]
      exact h
  | some r =>
      rcases h with ⟨rule, hrule, hr, hrhs⟩
      refine ⟨rule, hrule, hr, ?_⟩
      rw [hrhs, List.append_assoc]
      rfl

theorem past_of_mem_predict {n : N} {i : Item T N A} (h : i ∈ G.predict n) : i.Past G [] := by
  rcases List.mem_map.mp h with ⟨rule, hrule, rfl⟩
  exact ⟨rule, hrule, rfl, rfl⟩

theorem mem_reductions {items : List (Item T N A)} {r : Reduction N A} :
    r ∈ reductions items ↔ ⟨some r, []⟩ ∈ items := by
  rw [reductions, List.mem_filterMap]
  constructor
  · rintro ⟨⟨reduction, rest⟩, hi, hr⟩
    cases rest with
    | nil =>
        have hreduction : reduction = some r := hr
        rw [← hreduction]
        exact hi
    | cons X rest => cases hr
  · intro h
    exact ⟨_, h, rfl⟩

/-! ## Predictions -/

variable [DecidableEq N]

/-- The nonterminals whose productions the closure adds. -/
def Grammar.predicted (G : Grammar T N A) (q : State T N A) : List N :=
  G.reachable (fun n => nonterminalsOf (heads (G.predict n))) (nonterminalsOf (heads q))

theorem mem_closure {q : State T N A} {i : Item T N A} :
    i ∈ G.closure q ↔ i ∈ q ∨ ∃ n ∈ G.predicted q, i ∈ G.predict n := by
  rw [Grammar.closure, List.mem_append, List.mem_flatMap]
  rfl

theorem mem_reach
    {next : N → List N} {fuel : ℕ} {todo seen : List N} {n : N}
    (h : n ∈ Grammar.reach next fuel todo seen) :
    n ∈ seen ∨ ∃ m ∈ todo, ReflTransGen (fun a b => b ∈ next a) m n := by
  induction fuel generalizing todo seen with
  | zero => exact Or.inl h
  | succ fuel ih =>
      cases todo with
      | nil => exact Or.inl h
      | cons m todo =>
          rw [Grammar.reach] at h
          split at h
          · rcases ih h with hn | ⟨a, ha, hpath⟩
            · exact Or.inl hn
            · exact Or.inr ⟨a, List.mem_cons_of_mem m ha, hpath⟩
          · rcases ih h with hn | ⟨a, ha, hpath⟩
            · rcases List.mem_cons.mp hn with rfl | hn
              · exact Or.inr ⟨n, List.mem_cons_self, .refl⟩
              · exact Or.inl hn
            · rcases List.mem_append.mp ha with ha | ha
              · exact Or.inr ⟨m, List.mem_cons_self, hpath.head ha⟩
              · exact Or.inr ⟨a, List.mem_cons_of_mem m ha, hpath⟩

theorem nodup_reach
    {next : N → List N} {fuel : ℕ} {todo seen : List N} (h : seen.Nodup) :
    (Grammar.reach next fuel todo seen).Nodup := by
  induction fuel generalizing todo seen with
  | zero => exact h
  | succ fuel ih =>
      cases todo with
      | nil => exact h
      | cons m todo =>
          rw [Grammar.reach]
          split
          · exact ih h
          · exact ih (List.nodup_cons.mpr ⟨‹_›, h⟩)

theorem Grammar.predicted_nodup (q : State T N A) : (G.predicted q).Nodup :=
  nodup_reach List.nodup_nil

/-- A nonterminal which no production begins with is predicted by the items of
the state only. -/
theorem Grammar.mem_predicted_of_inner
    {q : State T N A} {n : N}
    (hinner : ∀ m, ∀ rule ∈ G.rules m, rule.rhs.head? ≠ some (.nonterminal n))
    (h : n ∈ G.predicted q) : ∃ i ∈ q, i.rest.head? = some (.nonterminal n) := by
  have hheads : ∀ items : List (Item T N A), n ∈ nonterminalsOf (heads items) →
      ∃ i ∈ items, i.rest.head? = some (.nonterminal n) := by
    intro items hn
    rcases List.mem_filterMap.mp hn with ⟨X, hX, hXn⟩
    rcases List.mem_filterMap.mp hX with ⟨i, hi, hhead⟩
    cases X with
    | nonterminal m =>
        cases hXn
        exact ⟨i, hi, hhead⟩
    | _ => cases hXn
  rcases mem_reach h with hseen | ⟨m, hm, hpath⟩
  · cases hseen
  · rcases ReflTransGen.cases_tail hpath with rfl | ⟨m', _, hlast⟩
    · exact hheads q hm
    · rcases hheads _ hlast with ⟨i, hi, hhead⟩
      rcases List.mem_map.mp hi with ⟨rule, hrule, rfl⟩
      exact absurd hhead (hinner m' rule hrule)

/-! ## Stacks -/

variable [DecidableEq T]

theorem mem_advance {X : Symbol T N} {items : List (Item T N A)} {i : Item T N A} :
    i ∈ Grammar.advance X items ↔ ⟨i.reduction, X :: i.rest⟩ ∈ items := by
  rw [Grammar.advance, List.mem_filterMap]
  constructor
  · rintro ⟨⟨reduction, rest⟩, hj, hi⟩
    cases rest with
    | nil => cases hi
    | cons Y rest =>
        by_cases hY : Y = X
        · simp only [hY, if_true, Option.some.injEq] at hi
          rw [← hi, ← hY]
          exact hj
        · simp [hY] at hi
  · intro h
    exact ⟨_, h, by simp⟩

variable (G) in
/-- The stacks of states which the parser may have. -/
inductive Stacked : List (State T N A) → Prop
  | initial : Stacked [G.initial]
  | goto {q : State T N A} {below : List (State T N A)} (X : Symbol T N) :
      Stacked (q :: below) → Stacked (G.goto q X :: q :: below)

theorem goto_past
    {q : State T N A} {X : Symbol T N} {depth : ℕ}
    (hq : ∀ i ∈ q, ∃ before, before.length ≤ depth ∧ i.Past G before) {i : Item T N A}
    (hi : i ∈ G.goto q X) : ∃ before, before.length ≤ depth ∧ i.Past G (before ++ [X]) := by
  rcases mem_closure.mp (mem_advance.mp hi) with hkernel | ⟨n, _, hpredicted⟩
  · rcases hq _ hkernel with ⟨before, hlength, hpast⟩
    exact ⟨before, hlength, hpast.advance⟩
  · exact ⟨[], Nat.zero_le depth, (past_of_mem_predict hpredicted).advance⟩

theorem Stacked.past
    {q : State T N A} {below : List (State T N A)} (h : Stacked G (q :: below)) :
    ∀ i ∈ q, ∃ before, before.length ≤ below.length ∧ i.Past G before := by
  generalize hstates : q :: below = states at h
  induction h generalizing q below with
  | initial =>
      cases hstates
      intro i hi
      rw [Grammar.initial, List.mem_singleton] at hi
      rw [hi]
      exact ⟨[], Nat.le_refl _, rfl⟩
  | goto X _ ih =>
      cases hstates
      intro i hi
      rcases goto_past (ih rfl) hi with ⟨before, hlength, hpast⟩
      exact ⟨before ++ [X], by simpa using hlength, hpast⟩

theorem Stacked.reduction_length
    {q : State T N A} {below : List (State T N A)} (h : Stacked G (q :: below))
    {r : Reduction N A} (hr : r ∈ reductions (G.closure q)) : r.length ≤ below.length := by
  have hpast : ∃ before, before.length ≤ below.length ∧ Item.Past G before ⟨some r, []⟩ := by
    rcases mem_closure.mp (mem_reductions.mp hr) with hkernel | ⟨n, _, hpredicted⟩
    · exact h.past _ hkernel
    · exact ⟨[], Nat.zero_le _, past_of_mem_predict hpredicted⟩
  rcases hpast with ⟨before, hlength, rule, _, hrule, hrhs⟩
  rw [List.append_nil] at hrhs
  have hr' : r.length = rule.rhs.length := congrArg Reduction.length hrule
  rw [hr', hrhs]
  exact hlength

theorem Stacked.drop
    {states : List (State T N A)} (h : Stacked G states) {n : ℕ} (hn : n < states.length) :
    ∃ q below, states.drop n = q :: below ∧ Stacked G (q :: below) := by
  induction h generalizing n with
  | initial =>
      have hzero : n = 0 := by simpa using hn
      subst n
      exact ⟨_, _, rfl, .initial⟩
  | goto X hq ih =>
      cases n with
      | zero => exact ⟨_, _, rfl, .goto X hq⟩
      | succ n => exact ih (by simpa using hn)

theorem Stacked.ne_nil {states : List (State T N A)} (h : Stacked G states) : states ≠ [] := by
  cases h <;> simp

theorem Stacked.push {states : List (State T N A)} (h : Stacked G states) (X : Symbol T N) :
    Stacked G (G.goto (states.headD []) X :: states) := by
  cases states with
  | nil => exact absurd rfl h.ne_nil
  | cons q below => exact .goto X h

theorem Stacked.recover
    {V : Type*} {states : List (State T N A)} (h : Stacked G states)
    (hinitial : .error ∈ shifts (G.closure G.initial)) {values : List V}
    (hvalues : values.length = states.length) :
    ∃ states' values', LR.recover G states values = some (states', values') ∧
      Stacked G states' ∧ values'.length = states'.length := by
  induction h generalizing values with
  | initial =>
      cases values with
      | nil => cases hvalues
      | cons v values => exact ⟨_, _, by rw [LR.recover, if_pos hinitial], .initial, hvalues⟩
  | @goto q below X hq ih =>
      cases values with
      | nil => cases hvalues
      | cons v values =>
          by_cases herror : .error ∈ shifts (G.closure (G.goto q X))
          · exact ⟨_, _, by rw [LR.recover, if_pos herror], .goto X hq, hvalues⟩
          · rw [LR.recover, if_neg herror]
            exact ih (by simpa using hvalues)

/-! ## Symbols which make up a production -/

theorem advance_append (X : Symbol T N) (items items' : List (Item T N A)) :
    Grammar.advance X (items ++ items') = Grammar.advance X items ++ Grammar.advance X items' :=
  List.filterMap_append

theorem advance_eq_nil {X : Symbol T N} {items : List (Item T N A)}
    (h : ∀ i ∈ items, i.rest.head? ≠ some X) : Grammar.advance X items = [] := by
  rw [List.eq_nil_iff_forall_not_mem]
  intro i hi
  exact h _ (mem_advance.mp hi) rfl

theorem flatMap_eq_of_unique {α β : Type*} {l : List α} (hl : l.Nodup) {a : α} (ha : a ∈ l)
    {f : α → List β} (hother : ∀ b ∈ l, b ≠ a → f b = []) : l.flatMap f = f a := by
  rcases List.append_of_mem ha with ⟨front, rest, rfl⟩
  have hsplit := List.nodup_middle.mp hl
  rw [List.nodup_cons] at hsplit
  have hnone : ∀ part : List α, (∀ b ∈ part, b ∈ front ++ rest) → part.flatMap f = [] := by
    intro part hpart
    rw [List.flatMap_eq_nil_iff]
    intro b hb
    have hmem := hpart b hb
    apply hother b
    · rcases List.mem_append.mp hmem with hmem | hmem
      · exact List.mem_append_left _ hmem
      · exact List.mem_append_right _ (List.mem_cons_of_mem a hmem)
    · intro hba
      rw [hba] at hmem
      exact hsplit.1 hmem
  rw [List.flatMap_append, List.flatMap_cons,
    hnone front fun b hb => List.mem_append_left rest hb,
    hnone rest fun b hb => List.mem_append_right front hb, List.append_nil, List.nil_append]

/-- A terminal which makes up a production wherever it stands is not behind the
point of an item of a state, but only of those which the state predicts. -/
theorem Stacked.not_mem_of_lone
    {q : State T N A} {below : List (State T N A)} (h : Stacked G (q :: below)) {t : T}
    (hlone : ∀ n, ∀ rule ∈ G.rules n, .terminal t ∈ rule.rhs → rule.rhs = [.terminal t]) :
    ∀ i ∈ q, i.rest.head? ≠ some (.terminal t) := by
  rintro ⟨reduction, rest⟩ hi hhead
  cases rest with
  | nil => cases hhead
  | cons X rest =>
      cases hhead
      cases h with
      | initial =>
          rw [Grammar.initial, List.mem_singleton] at hi
          cases hi
      | goto X hq =>
          rcases goto_past hq.past hi with ⟨before, _, hpast⟩
          cases reduction with
          | none =>
              have hpast' : (before ++ [X]) ++ .terminal t :: rest =
                  [.nonterminal G.start, .eof] := hpast
              cases before with
              | nil => simp at hpast'
              | cons Y before => cases before <;> simp at hpast'
          | some r =>
              rcases hpast with ⟨rule, hrule, _, hrhs⟩
              have hwhole := hlone _ rule hrule (by rw [hrhs]; simp)
              rw [hwhole] at hrhs
              have hlength := congrArg List.length hrhs
              simp at hlength
              omega

theorem Stacked.goto_of_lone
    {q : State T N A} {below : List (State T N A)} (h : Stacked G (q :: below)) {t : T}
    (hlone : ∀ n, ∀ rule ∈ G.rules n, .terminal t ∈ rule.rhs → rule.rhs = [.terminal t])
    {n : N} (hn : n ∈ G.predicted q)
    (hother : ∀ m ∈ G.predicted q, m ≠ n → ∀ rule ∈ G.rules m, .terminal t ∉ rule.rhs) :
    G.goto q (.terminal t) = Grammar.advance (.terminal t) (G.predict n) := by
  have hkernel : Grammar.advance (.terminal t) q = [] :=
    advance_eq_nil (h.not_mem_of_lone hlone)
  have hpredicted : Grammar.advance (.terminal t) ((G.predicted q).flatMap G.predict) =
      (G.predicted q).flatMap fun m => Grammar.advance (.terminal t) (G.predict m) :=
    List.filterMap_flatMap
  rw [Grammar.goto, Grammar.closure, advance_append, hkernel, List.nil_append]
  change Grammar.advance (.terminal t) ((G.predicted q).flatMap G.predict) = _
  rw [hpredicted]
  apply flatMap_eq_of_unique (Grammar.predicted_nodup q) hn
  intro m hm hne
  apply advance_eq_nil
  intro i hi hhead
  rcases List.mem_map.mp hi with ⟨rule, hrule, rfl⟩
  exact hother m hm hne rule hrule (List.mem_of_mem_head? hhead)

/-- A state with a single reduction does not look at the next token. -/
theorem Grammar.decision_complete (r : Reduction N A) (char : Option (Option T)) :
    G.decision [⟨some r, []⟩] char = .reduce r := rfl

/-! ## Steps -/

theorem Grammar.decision_shift {q q' : State T N A} {char : Option (Option T)}
    (h : G.decision q char = .shift q') :
    ∃ kind, char = some kind ∧ q' = G.goto q (.ofKind kind) := by
  cases char with
  | none => exact absurd h (G.decision_none_ne_shift q q')
  | some kind =>
      refine ⟨kind, rfl, ?_⟩
      unfold Grammar.decision at h
      simp only at h
      split at h
      next => cases h
      next => cases h
      next hkind _ =>
        cases hkind
        split at h
        · split at h
          · cases h
          · cases h
            rfl
        · split at h
          · cases h
          · cases h

theorem Grammar.decision_reduce {q : State T N A} {char : Option (Option T)}
    {r : Reduction N A} (h : G.decision q char = .reduce r) :
    r ∈ reductions (G.closure q) := by
  unfold Grammar.decision at h
  simp only at h
  split at h
  · rename_i hfound
    cases h
    rw [hfound]
    exact List.mem_singleton_self r
  · cases h
  · split at h
    · split at h
      · cases h
      · cases h
    · split at h
      next r' later hpossible =>
        cases h
        have hmem : r ∈ r :: later := List.mem_cons_self
        rw [← hpossible] at hmem
        split at hmem
        · exact (List.mem_filter.mp hmem).1
        · exact hmem
      next => cases h

theorem Grammar.decision_accept {q : State T N A} {char : Option (Option T)}
    (h : G.decision q char = .accept) : char = some none := by
  unfold Grammar.decision at h
  simp only at h
  split at h
  · cases h
  · cases h
  · rename_i kind _
    split at h
    · split at h
      · rename_i heof
        cases kind with
        | none => rfl
        | some t => cases heof
      · cases h
    · split at h
      · cases h
      · cases h

/-! ## Runs -/

variable {V L E : Type*} {linked : Linked T A V L E}

/-- Every state on the stack has a value. -/
structure Parser.Balanced (G : Grammar T N A) (p : Parser T N A V) : Prop where
  stacked : Stacked G p.states
  values : p.values.length = p.states.length

theorem Parser.balanced_start (empty : V) : (Parser.start G empty).Balanced G :=
  ⟨.initial, rfl⟩

/-- What a step of a parser with a proper stack makes of it.  The new top of the
stack is entered over a symbol, unless a token is read. -/
inductive Stepped (G : Grammar T N A) (linked : Linked T A V L E) (p : Parser T N A V) (l : L)
    (e : E) : Outcome T N A V L E → Prop
  | look : G.decision p.top (p.char.map Token.kind) = .look →
      Stepped G linked p l e (.running { p with char := (linked.lex l).1 } (linked.lex l).2 e)
  | shift {p' : Parser T N A V} {t : Token T V} : p.char = some t →
      p'.states = G.goto p.top (.ofKind t.kind) :: p.states → p'.char = none →
        p'.Balanced G → Stepped G linked p l e (.running p' l e)
  | reduce {r : Reduction N A} {p' : Parser T N A V} {e' : E} {q : State T N A}
      {below : List (State T N A)} : G.decision p.top (p.char.map Token.kind) = .reduce r →
        p'.states = G.goto q (.nonterminal r.lhs) :: q :: below → p'.char = p.char →
          p'.Balanced G → Stepped G linked p l e (.running p' l e')
  | recovered {p' : Parser T N A V} {e' : E} {q : State T N A} {below : List (State T N A)} :
      p'.states = G.goto q .error :: q :: below → p'.char = p.char ∨ p'.char = none →
        p'.Balanced G → Stepped G linked p l e (.running p' l e')
  | ended {r : Reduction N A} {done : Performed V E} :
      G.decision p.top (p.char.map Token.kind) = .reduce r →
        done = linked.perform r.action (p.values.take r.length).reverse e →
          done.accepted = true → Stepped G linked p l e (.returned 0 l done.effect)
  | atEof {t : Token T V} {result : ℕ} {e' : E} : p.char = some t → t.kind = none →
      Stepped G linked p l e (.returned result l e')
  | exited {e' : E} : Stepped G linked p l e (.exited l e')

theorem Parser.Balanced.drop
    {p : Parser T N A V} (h : p.Balanced G) {r : Reduction N A}
    (hr : r ∈ reductions (G.closure p.top)) :
    ∃ q below, p.states.drop r.length = q :: below ∧ Stacked G (q :: below) ∧
      (p.values.drop r.length).length = (q :: below).length := by
  rcases p with ⟨states, values, char, errStatus⟩
  cases states with
  | nil => exact absurd rfl h.stacked.ne_nil
  | cons top below =>
      have hlength : r.length ≤ below.length := h.stacked.reduction_length hr
      rcases h.stacked.drop (n := r.length) (by rw [List.length_cons]; omega) with
        ⟨q, rest, hdrop, hstacked⟩
      refine ⟨q, rest, hdrop, hstacked, ?_⟩
      have hvalues := h.values
      rw [← hdrop, List.length_drop, List.length_drop, hvalues]

theorem handleError_stepped
    {p : Parser T N A V} (h : p.Balanced G)
    (hinitial : .error ∈ shifts (G.closure G.initial)) (l : L) (e e' : E) :
    Stepped G linked p l e (p.handleError G linked.empty l e') := by
  unfold Parser.handleError
  dsimp only
  split
  next hend =>
    rcases Option.map_eq_some_iff.mp hend.2 with ⟨t, ht, hkind⟩
    exact .atEof ht hkind
  next =>
    rcases h.stacked.recover hinitial h.values with ⟨states, values, hrecover, hstacked, hvalues⟩
    rw [hrecover]
    cases states with
    | nil => exact absurd rfl hstacked.ne_nil
    | cons q below =>
        refine .recovered rfl ?_ ⟨.goto .error hstacked, by simpa using hvalues⟩
        dsimp only
        split
        · exact Or.inr rfl
        · exact Or.inl rfl

theorem step_stepped
    {p : Parser T N A V} (h : p.Balanced G)
    (hinitial : .error ∈ shifts (G.closure G.initial)) (l : L) (e : E) :
    Stepped G linked p l e (step G linked p l e) := by
  cases hdecision : G.decision p.top (p.char.map Token.kind) with
  | look =>
      rw [step, hdecision]
      exact .look hdecision
  | shift q =>
      rcases Grammar.decision_shift hdecision with ⟨kind, hchar, hq⟩
      rcases Option.map_eq_some_iff.mp hchar with ⟨t, ht, hkind⟩
      rw [step, hdecision]
      dsimp only
      rw [hq, ← hkind]
      exact .shift ht rfl rfl ⟨h.stacked.push _, by simpa using h.values⟩
  | reduce r =>
      rcases h.drop (Grammar.decision_reduce hdecision) with ⟨q, below, hdrop, hstacked, hvalues⟩
      rw [step, hdecision]
      dsimp only
      split
      · exact .ended hdecision rfl ‹_›
      · rw [hdrop]
        exact .reduce hdecision rfl rfl ⟨.goto _ hstacked, by simpa using hvalues⟩
  | accept =>
      rcases Option.map_eq_some_iff.mp (Grammar.decision_accept hdecision) with ⟨t, ht, hkind⟩
      rw [step, hdecision]
      exact .atEof ht hkind
  | error =>
      rw [step, hdecision]
      dsimp only
      split
      · split
        · split
          · exact .exited
          · exact handleError_stepped h hinitial l e _
        · exact handleError_stepped h hinitial l e e
      · exact handleError_stepped h hinitial l e e

/-- The scanner changes only when the parser looks for a token. -/
theorem step_lexer
    {P : L → Prop} (hlex : ∀ l, P l → P (linked.lex l).2) {p p' : Parser T N A V}
    (h : p.Balanced G) (hinitial : .error ∈ shifts (G.closure G.initial)) {l l' : L} {e e' : E}
    (hstep : step G linked p l e = .running p' l' e') (hl : P l) : P l' := by
  have hstepped : Stepped G linked p l e _ := step_stepped h hinitial l e
  rw [hstep] at hstepped
  cases hstepped with
  | look => exact hlex l hl
  | shift => exact hl
  | reduce => exact hl
  | recovered => exact hl

/-- What every step preserves holds before the last step of a run. -/
theorem run_last
    {I : Parser T N A V → L → E → Prop}
    (hstep : ∀ p l e p' l' e', I p l e → step G linked p l e = .running p' l' e' → I p' l' e')
    {fuel : ℕ} {p : Parser T N A V} {l : L} {e : E} {o : Outcome T N A V L E}
    (hrun : run G linked fuel p l e = some o) (hstart : I p l e) :
    ∃ p' l' e', I p' l' e' ∧ Reaches G linked p l e (.running p' l' e') ∧
      step G linked p' l' e' = o := by
  induction fuel generalizing p l e with
  | zero => cases hrun
  | succ fuel ih =>
      rw [run] at hrun
      split at hrun
      next p' l' e' hnext =>
        rcases ih hrun (hstep _ _ _ _ _ _ hstart hnext) with
          ⟨p'', l'', e'', hI, hreaches, hlast⟩
        exact ⟨p'', l'', e'', hI, .step hnext hreaches, hlast⟩
      next =>
        cases hrun
        exact ⟨p, l, e, hstart, .refl, rfl⟩

/-! ## Moves without effect -/

/-- The moves change the two stacks alike. -/
theorem play_length
    {fuel : ℕ} {states states' : List (State T N A)} {char : Option (Option T)}
    {kinds : List (Option T)} {ms : List (Move N A)}
    (hmoves : moves G fuel states char kinds = some (ms, states')) {tokens values values' : List V}
    {e e' : E} (hlength : values.length = states.length)
    (hplay : play linked ms tokens values e = .going values' e') :
    values'.length = states'.length := by
  induction fuel generalizing states char kinds ms tokens values e with
  | zero => cases hmoves
  | succ fuel ih =>
      unfold moves at hmoves
      cases hdecision : G.decision (states.headD []) char with
      | look =>
          rw [hdecision] at hmoves
          cases char with
          | some token => cases hmoves
          | none =>
              cases kinds with
              | nil =>
                  cases hmoves
                  cases hplay
                  exact hlength
              | cons kind kinds => exact ih hmoves hlength hplay
      | shift q =>
          rw [hdecision] at hmoves
          rcases Option.map_eq_some_iff.mp hmoves with ⟨⟨later, reached⟩, hlater, hms⟩
          cases hms
          exact ih hlater (by simp [hlength]) hplay
      | reduce r =>
          rw [hdecision] at hmoves
          rcases Option.map_eq_some_iff.mp hmoves with ⟨⟨later, reached⟩, hlater, hms⟩
          cases hms
          rw [play] at hplay
          dsimp only at hplay
          split at hplay
          · cases hplay
          · exact ih hlater (by simp [hlength]) hplay
      | accept =>
          rw [hdecision] at hmoves
          cases hmoves
      | error =>
          rw [hdecision] at hmoves
          cases hmoves

/-- The reductions have actions which do nothing but compute a value. -/
def Idle (linked : Linked T A V L E) (ms : List (Move N A)) : Prop :=
  ∀ r, .reduce r ∈ ms → ∀ values e, (linked.perform r.action values e).effect = e ∧
    (linked.perform r.action values e).accepted = false

omit [DecidableEq T] [DecidableEq N] in
theorem play_of_idle
    {ms : List (Move N A)} (hidle : Idle linked ms) (tokens values : List V) (e : E) :
    ∃ values', play linked ms tokens values e = .going values' e := by
  induction ms generalizing tokens values with
  | nil => exact ⟨values, rfl⟩
  | cons m ms ih =>
      have hlater : Idle linked ms := fun r hr => hidle r (List.mem_cons_of_mem m hr)
      cases m with
      | shift => exact ih hlater _ _
      | reduce r =>
          have hdone := hidle r List.mem_cons_self (values.take r.length).reverse e
          rw [play]
          simp only [hdone.1, hdone.2, Bool.false_eq_true, if_false]
          exact ih hlater _ _

theorem reaches_of_idle
    {fuel : ℕ} {states states' : List (State T N A)} {char : Option (Token T V)}
    {ts : List (Token T V)} {ms : List (Move N A)}
    (hmoves : moves G fuel states (char.map Token.kind) (ts.map Token.kind) = some (ms, states'))
    (hidle : Idle linked ms) {l l' : L} (hlexes : Lexes linked.lex l ts l') {values : List V}
    (hlength : values.length = states.length) (e : E) :
    ∃ values', values'.length = states'.length ∧
      Reaches G linked { states := states, values := values, char := char, errStatus := 0 } l e
        (.running { states := states', values := values', char := none, errStatus := 0 } l' e) := by
  rcases play_of_idle hidle ((char.toList ++ ts).map Token.value) values e with ⟨values', hplay⟩
  have hreaches := reaches_of_moves hmoves hlexes values e (by rw [hplay]; trivial)
  rw [hplay] at hreaches
  exact ⟨values', play_length hmoves hlength hplay, hreaches⟩

end LR
