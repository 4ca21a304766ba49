import DialdTop.ShiftReduce

/-!
# Parsers which record more

Two parsers with the same productions differ in the names of their actions, in
their values and in what their functions keep.  When what one of them records
more can be erased, the two go through the same states and get to the same
outcome after every number of steps.
-/

namespace LR

variable {T N A B V W L M E F : Type*}

/-! ## Productions -/

def Rule.map (f : B → A) (r : Rule T N B) : Rule T N A := ⟨r.rhs, f r.action⟩

def Reduction.map (f : B → A) (r : Reduction N B) : Reduction N A :=
  ⟨r.lhs, r.length, f r.action⟩

def Item.map (f : B → A) (i : Item T N B) : Item T N A := ⟨i.reduction.map (.map f), i.rest⟩

def State.map (f : B → A) (q : State T N B) : State T N A := List.map (Item.map f) q

def Grammar.map (f : B → A) (G : Grammar T N B) : Grammar T N A where
  nonterminals := G.nonterminals
  rules n := (G.rules n).map (.map f)
  start := G.start

section Productions

variable (f : B → A) (G : Grammar T N B)

@[simp] theorem Rule.rhs_map (r : Rule T N B) : (r.map f).rhs = r.rhs := rfl

@[simp] theorem Item.rest_map (i : Item T N B) : (i.map f).rest = i.rest := rfl

@[simp] theorem Item.reduction_map (i : Item T N B) :
    (i.map f).reduction = i.reduction.map (.map f) := rfl

@[simp] theorem Grammar.nonterminals_map : (G.map f).nonterminals = G.nonterminals := rfl

@[simp] theorem Grammar.rules_map (n : N) : (G.map f).rules n = (G.rules n).map (.map f) := rfl

@[simp] theorem Grammar.start_map : (G.map f).start = G.start := rfl

@[simp] theorem heads_map (items : List (Item T N B)) :
    heads (items.map (Item.map f)) = heads items := by
  unfold heads
  rw [List.filterMap_map]
  rfl

@[simp] theorem shifts_map (items : List (Item T N B)) :
    shifts (items.map (Item.map f)) = shifts items := by
  unfold shifts
  rw [heads_map]

@[simp] theorem reductions_map (items : List (Item T N B)) :
    reductions (items.map (Item.map f)) = (reductions items).map (.map f) := by
  unfold reductions
  rw [List.filterMap_map, List.map_filterMap]
  congr 1
  funext i
  rcases i with ⟨reduction, rest⟩
  cases rest with
  | nil => rfl
  | cons X rest => rfl

@[simp] theorem Grammar.size_map : (G.map f).size = G.size := by
  unfold Grammar.size
  simp only [Grammar.nonterminals_map, Grammar.rules_map, List.map_flatMap, List.map_map]
  rfl

theorem Grammar.predict_map (n : N) :
    (G.map f).predict n = (G.predict n).map (Item.map f) := by
  unfold Grammar.predict
  rw [Grammar.rules_map, List.map_map, List.map_map]
  rfl

@[simp] theorem Grammar.nullable_map (fuel : ℕ) (Xs : List (Symbol T N)) :
    (G.map f).nullable fuel Xs = G.nullable fuel Xs := by
  induction fuel generalizing Xs with
  | zero => cases Xs <;> rfl
  | succ fuel ih =>
      cases Xs with
      | nil => rfl
      | cons X rest =>
          cases X with
          | nonterminal n =>
              simp only [Grammar.nullable, ih, Grammar.rules_map, List.any_map]
              rfl
          | _ => rfl

@[simp] theorem Grammar.leading_map (Xs : List (Symbol T N)) :
    (G.map f).leading Xs = G.leading Xs := by
  induction Xs with
  | nil => rfl
  | cons X rest ih => simp only [Grammar.leading, Grammar.nullable_map, Grammar.size_map, ih]

theorem Grammar.begin_map : (G.map f).begin = G.begin := by
  funext n
  unfold Grammar.begin
  simp only [Grammar.leading_map, Grammar.rules_map, List.flatMap_map, Rule.rhs_map]

variable [DecidableEq N]

@[simp] theorem Grammar.reachable_map (next : N → List N) (start : List N) :
    (G.map f).reachable next start = G.reachable next start := by
  unfold Grammar.reachable
  rw [G.size_map]

theorem Grammar.closure_map (q : State T N B) :
    (G.map f).closure (q.map f) = (G.closure q).map (Item.map f) := by
  have hpredict : (G.map f).predict = fun n => (G.predict n).map (Item.map f) :=
    funext (G.predict_map f)
  unfold Grammar.closure State.map
  rw [hpredict]
  simp only [Grammar.reachable_map, heads_map, List.map_append, List.map_flatMap]

theorem Grammar.first_map : (G.map f).first = G.first := by
  funext Xs
  unfold Grammar.first
  simp only [Grammar.leading_map, Grammar.reachable_map, Grammar.begin_map]

variable [DecidableEq T]

theorem Grammar.advance_map (X : Symbol T N) (items : List (Item T N B)) :
    Grammar.advance X (items.map (Item.map f)) = State.map f (Grammar.advance X items) := by
  unfold Grammar.advance State.map
  rw [List.filterMap_map, List.map_filterMap]
  congr 1
  funext i
  rcases i with ⟨reduction, rest⟩
  cases rest with
  | nil => rfl
  | cons Y rest =>
      by_cases hY : Y = X
      · simp [Item.map, hY]
      · simp [Item.map, hY]

theorem Grammar.goto_map (q : State T N B) (X : Symbol T N) :
    (G.map f).goto (q.map f) X = (G.goto q X).map f := by
  unfold Grammar.goto
  rw [Grammar.closure_map, Grammar.advance_map]

theorem Grammar.containers_map : (G.map f).containers = G.containers := by
  funext n
  unfold Grammar.containers
  simp only [Grammar.nullable_map, Grammar.size_map, Grammar.nonterminals_map,
    Grammar.rules_map, List.any_map]
  rfl

@[simp] theorem Grammar.follow_map (n : N) : (G.map f).follow n = G.follow n := by
  have hrules : (G.map f).nonterminals.flatMap (G.map f).rules =
      (G.nonterminals.flatMap G.rules).map (.map f) := by
    rw [List.map_flatMap]
    rfl
  unfold Grammar.follow
  rw [hrules]
  simp only [Grammar.reachable_map, Grammar.first_map, Grammar.containers_map,
    Grammar.start_map, List.flatMap_map, Rule.rhs_map]
  rfl

end Productions

/-! ## Decisions -/

def Decision.map (f : B → A) : Decision T N B → Decision T N A
  | .look => .look
  | .shift q => .shift (q.map f)
  | .reduce r => .reduce (r.map f)
  | .accept => .accept
  | .error => .error

variable [DecidableEq T] [DecidableEq N] (f : B → A) {G : Grammar T N B}

theorem Grammar.decision_map (q : State T N B) (char : Option (Option T)) :
    (G.map f).decision (q.map f) char = (G.decision q char).map f := by
  have hfilter : ∀ (X : Symbol T N) (found : List (Reduction N B)),
      (found.map (.map f)).filter (fun r => X ∈ (G.map f).follow r.lhs) =
        (found.filter fun r => X ∈ G.follow r.lhs).map (Reduction.map f) := by
    intro X found
    rw [List.filter_map]
    simp only [Grammar.follow_map]
    rfl
  have hchosen : ∀ found : List (Reduction N B),
      (match found.map (Reduction.map f) with
        | r :: _ => Decision.reduce r
        | [] => Decision.error) =
        Decision.map (T := T) f
          (match found with
            | r :: _ => .reduce r
            | [] => .error) := by
    intro found
    cases found with
    | nil => rfl
    | cons r found => rfl
  unfold Grammar.decision
  dsimp only
  rw [Grammar.closure_map, shifts_map, reductions_map]
  generalize shifts (G.closure q) = tokens
  generalize hitems : G.closure q = items
  generalize reductions items = found
  cases tokens with
  | nil =>
      cases found with
      | nil => cases char <;> rfl
      | cons r found =>
          cases found with
          | nil => rfl
          | cons r' found =>
              cases char with
              | none => rfl
              | some kind => simp [Decision.map]
  | cons Y tokens =>
      cases char with
      | none => rfl
      | some kind =>
          dsimp only
          rw [Grammar.advance_map, hfilter]
          by_cases hX : Symbol.ofKind kind ∈ Y :: tokens
          · rw [if_pos hX, if_pos hX]
            by_cases heof : (Symbol.ofKind kind : Symbol T N) = .eof
            · rw [if_pos heof, if_pos heof]
              rfl
            · rw [if_neg heof, if_neg heof]
              rfl
          · rw [if_neg hX, if_neg hX, ← apply_ite (List.map (Reduction.map f))]
            exact hchosen _

/-! ## Steps -/

def Token.map (v : W → V) (t : Token T W) : Token T V := ⟨t.kind, v t.value⟩

def Parser.map (f : B → A) (v : W → V) (p : Parser T N B W) : Parser T N A V where
  states := p.states.map (.map f)
  values := p.values.map v
  char := p.char.map (.map v)
  errStatus := p.errStatus

def Outcome.map (f : B → A) (v : W → V) (l : M → L) (e : F → E) :
    Outcome T N B W M F → Outcome T N A V L E
  | .running p s x => .running (p.map f v) (l s) (e x)
  | .returned result s x => .returned result (l s) (e x)
  | .exited s x => .exited (l s) (e x)

/-- The functions of the first parser do on what is left after the erasure what
those of the second one do. -/
structure Erases (linked : Linked T B W M F) (erased : Linked T A V L E) (f : B → A) (v : W → V)
    (l : M → L) (e : F → E) : Prop where
  lex : ∀ s, erased.lex (l s) = ((linked.lex s).1.map (.map v), l (linked.lex s).2)
  perform : ∀ action values x, erased.perform (f action) (values.map v) (e x) =
    ⟨v (linked.perform action values x).value, e (linked.perform action values x).effect,
      (linked.perform action values x).accepted⟩
  report : ∀ t x, erased.report (t.map v) (e x) =
    (e (linked.report t x).1, (linked.report t x).2)
  empty : erased.empty = v linked.empty

section Fields

omit [DecidableEq T] [DecidableEq N]

theorem headD_map (states : List (State T N B)) :
    (states.map (State.map f)).headD [] = (states.headD []).map f := by
  cases states with
  | nil => rfl
  | cons q states => rfl

variable (v : W → V) (p : Parser T N B W)

@[simp] theorem Parser.states_map : (p.map f v).states = p.states.map (.map f) := rfl

@[simp] theorem Parser.values_map : (p.map f v).values = p.values.map v := rfl

@[simp] theorem Parser.char_map : (p.map f v).char = p.char.map (.map v) := rfl

@[simp] theorem Parser.errStatus_map : (p.map f v).errStatus = p.errStatus := rfl

theorem Parser.top_map : (p.map f v).top = p.top.map f :=
  headD_map f p.states

theorem Parser.kind_map : (p.map f v).char.map Token.kind = p.char.map Token.kind := by
  rw [Parser.char_map, Option.map_map]
  rfl

theorem Parser.map_start (empty : W) :
    (Parser.start G empty).map f v = .start (G.map f) (v empty) := rfl

end Fields

theorem recover_map (v : W → V) (states : List (State T N B)) (values : List W) :
    LR.recover (G.map f) (states.map (.map f)) (values.map v) =
      (LR.recover G states values).map fun found => (found.1.map (.map f), found.2.map v) := by
  induction states generalizing values with
  | nil => rfl
  | cons q states ih =>
      cases values with
      | nil => rfl
      | cons value values =>
          rw [List.map_cons, List.map_cons, LR.recover, LR.recover, Grammar.closure_map,
            shifts_map, ih]
          split
          · rfl
          · rfl

section Erased

variable {f} {linked : Linked T B W M F} {erased : Linked T A V L E} {v : W → V} {l : M → L}
  {e : F → E}

theorem Erases.handleError
    (h : Erases linked erased f v l e) (p : Parser T N B W) (s : M) (x : F) :
    (p.map f v).handleError (G.map f) erased.empty (l s) (e x) =
      (p.handleError G linked.empty s x).map f v l e := by
  unfold Parser.handleError
  dsimp only
  rw [Parser.kind_map, Parser.errStatus_map, Parser.states_map, Parser.values_map, recover_map,
    h.empty]
  by_cases hend : p.errStatus = 3 ∧ p.char.map Token.kind = some none
  · rw [if_pos hend, if_pos hend]
    rfl
  · rw [if_neg hend, if_neg hend]
    cases LR.recover G p.states p.values with
    | none => rfl
    | some found =>
        simp only [Option.map_some, headD_map, Grammar.goto_map]
        rw [Parser.char_map]
        by_cases hstatus : p.errStatus = 3
        · simp [Outcome.map, Parser.map, hstatus]
        · simp [Outcome.map, Parser.map, hstatus]

theorem Erases.step
    (h : Erases linked erased f v l e) (p : Parser T N B W) (s : M) (x : F) :
    LR.step (G.map f) erased (p.map f v) (l s) (e x) = (LR.step G linked p s x).map f v l e := by
  unfold LR.step
  rw [Parser.kind_map, Parser.top_map, Grammar.decision_map]
  cases G.decision p.top (p.char.map Token.kind) with
  | look =>
      dsimp only [Decision.map]
      rw [h.lex]
      rfl
  | shift q =>
      dsimp only [Decision.map, Outcome.map, Parser.map]
      rw [h.empty, Option.map_map]
      cases p.char with
      | none => rfl
      | some t => rfl
  | reduce r =>
      dsimp only [Decision.map, Parser.map, Reduction.map]
      rw [← List.map_take, ← List.map_reverse, h.perform]
      split
      · rfl
      · rw [← List.map_drop, ← List.map_drop, headD_map, Grammar.goto_map]
        rfl
  | accept => rfl
  | error =>
      dsimp only [Decision.map]
      cases hchar : p.char with
      | none =>
          have hmap : (p.map f v).char = none := by
            rw [Parser.map, hchar]
            rfl
          rw [hmap]
          exact h.handleError p s x
      | some t =>
          have hmap : (p.map f v).char = some (t.map v) := by
            rw [Parser.map, hchar]
            rfl
          rw [hmap]
          dsimp only
          rw [h.report]
          change (if p.errStatus = 0 then _ else _) = _
          split
          · split
            · rfl
            · exact h.handleError p s _
          · exact h.handleError p s x

/-- The runs of the two parsers are the same up to the erasure. -/
theorem Erases.after
    (h : Erases linked erased f v l e) (n : ℕ) (p : Parser T N B W) (s : M) (x : F) :
    LR.after (G.map f) erased n (p.map f v) (l s) (e x) =
      (LR.after G linked n p s x).map f v l e := by
  induction n generalizing p s x with
  | zero => rfl
  | succ n ih =>
      rw [LR.after, LR.after, h.step]
      cases LR.step G linked p s x with
      | running p' s' x' => exact ih p' s' x'
      | returned result s' x' => rfl
      | exited s' x' => rfl

end Erased

end LR
