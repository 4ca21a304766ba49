import Mathlib.Algebra.Ring.Nat
import Mathlib.Tactic.Common

/-!
# Parsers generated by bison

A state of the parser is the set of the items behind whose point it is, computed
from the grammar.  As bison has it, shifting goes before reducing, a state with
a single reduction and nothing to shift reduces without a look at the next
token, and the other states reduce by default on any token which they do not
shift.  Only the states which shift `error` have no default, and reduce on the
tokens which may follow the nonterminal.  Grammars with a choice between two
reductions are not covered.

`moves` is the work of the parser on the kinds of the tokens alone, and `play`
what it computes; a run of the parser without errors is the two together.
-/

namespace LR

/-! ## Grammars -/

inductive Symbol (T N : Type*)
  | terminal (t : T)
  | nonterminal (n : N)
  | error
  | eof
  deriving DecidableEq

/-- The right-hand side of a production and the name of its action. -/
structure Rule (T N A : Type*) where
  rhs : List (Symbol T N)
  action : A
  deriving DecidableEq

structure Grammar (T N A : Type*) where
  nonterminals : List N
  rules : N → List (Rule T N A)
  start : N

structure Reduction (N A : Type*) where
  lhs : N
  length : ℕ
  action : A
  deriving DecidableEq

/-- What stands behind the point of a production.  The production which ends
with the file has no reduction. -/
structure Item (T N A : Type*) where
  reduction : Option (Reduction N A)
  rest : List (Symbol T N)
  deriving DecidableEq

/-- The items of a state which are not predicted by others. -/
abbrev State (T N A : Type*) := List (Item T N A)

variable {T N A : Type*}

def Symbol.isToken : Symbol T N → Bool
  | .nonterminal _ => false
  | _ => true

/-- The token of a kind, or the end of the file. -/
def Symbol.ofKind : Option T → Symbol T N
  | some t => .terminal t
  | none => .eof

def nonterminalsOf (Xs : List (Symbol T N)) : List N :=
  Xs.filterMap fun X =>
    match X with
    | .nonterminal n => some n
    | _ => none

def heads (items : List (Item T N A)) : List (Symbol T N) :=
  items.filterMap fun i => i.rest.head?

variable [DecidableEq T] [DecidableEq N] (G : Grammar T N A)

namespace Grammar

/-- The nonterminals which are reached from the given ones. -/
def reach (next : N → List N) : ℕ → List N → List N → List N
  | 0, _, seen => seen
  | _ + 1, [], seen => seen
  | fuel + 1, n :: todo, seen =>
      if n ∈ seen then reach next fuel todo seen
      else reach next fuel (next n ++ todo) (n :: seen)

/-- More than the number of the nonterminals in all productions. -/
def size : ℕ :=
  ((G.nonterminals.flatMap G.rules).map fun r => r.rhs.length + 1).sum

def reachable (next : N → List N) (from_ : List N) : List N :=
  reach next (G.size + from_.length + 1) from_ []

/-! ## States -/

def predict (n : N) : List (Item T N A) :=
  (G.rules n).map fun r => ⟨some ⟨n, r.rhs.length, r.action⟩, r.rhs⟩

def closure (q : State T N A) : List (Item T N A) :=
  q ++ (G.reachable (fun n => nonterminalsOf (heads (G.predict n)))
    (nonterminalsOf (heads q))).flatMap G.predict

/-- The items whose point moves over `X`. -/
def advance (X : Symbol T N) (items : List (Item T N A)) : State T N A :=
  items.filterMap fun i =>
    match i.rest with
    | Y :: rest => if Y = X then some ⟨i.reduction, rest⟩ else none
    | [] => none

def goto (q : State T N A) (X : Symbol T N) : State T N A :=
  advance X (G.closure q)

def initial : State T N A := [⟨none, [.nonterminal G.start, .eof]⟩]

/-! ## Tokens which may follow -/

def nullable : ℕ → List (Symbol T N) → Bool
  | _, [] => true
  | 0, _ => false
  | fuel + 1, .nonterminal n :: rest =>
      (G.rules n).any (fun r => nullable fuel r.rhs) && nullable fuel rest
  | _ + 1, _ => false

/-- The symbols of the list up to the first one which is not nullable. -/
def leading : List (Symbol T N) → List (Symbol T N)
  | [] => []
  | X :: rest => X :: (if G.nullable G.size [X] then leading rest else [])

def begin (n : N) : List (Symbol T N) :=
  (G.rules n).flatMap fun r => G.leading r.rhs

def first (Xs : List (Symbol T N)) : List (Symbol T N) :=
  let corners := G.reachable (fun n => nonterminalsOf (G.begin n)) (nonterminalsOf (G.leading Xs))
  (G.leading Xs ++ corners.flatMap G.begin).filter Symbol.isToken

/-- What stands behind the occurrences of `n`. -/
def behind (n : N) : List (Symbol T N) → List (List (Symbol T N))
  | [] => []
  | X :: rest => if X = .nonterminal n then rest :: behind n rest else behind n rest

/-- The nonterminals with a production at whose end `n` may stand. -/
def containers (n : N) : List N :=
  G.nonterminals.filter fun m =>
    (G.rules m).any fun r => (behind n r.rhs).any fun rest => G.nullable G.size rest

def follow (n : N) : List (Symbol T N) :=
  (G.reachable G.containers [n]).flatMap fun m =>
    (if m = G.start then [.eof] else []) ++
      (G.nonterminals.flatMap G.rules).flatMap fun r => (behind m r.rhs).flatMap G.first

end Grammar

/-! ## Decisions -/

inductive Decision (T N A : Type*)
  | look
  | shift (q : State T N A)
  | reduce (r : Reduction N A)
  | accept
  | error
  deriving DecidableEq

def shifts (items : List (Item T N A)) : List (Symbol T N) :=
  (heads items).filter Symbol.isToken

def reductions (items : List (Item T N A)) : List (Reduction N A) :=
  items.filterMap fun i => if i.rest.isEmpty then i.reduction else none

/-- `char` is the kind of the next token, if it has been read. -/
def Grammar.decision (q : State T N A) (char : Option (Option T)) : Decision T N A :=
  let items := G.closure q
  match shifts items, reductions items, char with
  | [], [r], _ => .reduce r
  | _, _, none => .look
  | tokens, found, some kind =>
      let X : Symbol T N := .ofKind kind
      if X ∈ tokens then
        if X = .eof then .accept else .shift (Grammar.advance X items)
      else
        let possible :=
          if .error ∈ tokens then found.filter fun r => X ∈ G.follow r.lhs else found
        match possible with
        | r :: _ => .reduce r
        | [] => .error

/-! ## The parser -/

structure Token (T V : Type*) where
  kind : Option T
  value : V
  deriving DecidableEq

variable {V L E : Type*}

/-- The stacks have their tops in front, and `char` is the token which has been
read and not shifted. -/
structure Parser (T N A V : Type*) where
  states : List (State T N A)
  values : List V
  char : Option (Token T V)
  errStatus : ℕ

/-- The value of the left-hand side, and whether the action ends the parser. -/
structure Performed (V E : Type*) where
  value : V
  effect : E
  accepted : Bool

/-- The functions a parser is linked with.  `lex` may need several steps for a
token; `report` tells whether it ends the program. -/
structure Linked (T A V L E : Type*) where
  lex : L → Option (Token T V) × L
  perform : A → List V → E → Performed V E
  report : Token T V → E → E × Bool
  empty : V

inductive Outcome (T N A V L E : Type*)
  | running (p : Parser T N A V) (l : L) (e : E)
  | returned (result : ℕ) (l : L) (e : E)
  | exited (l : L) (e : E)

def Parser.top (p : Parser T N A V) : State T N A := p.states.headD []

def Parser.start (empty : V) : Parser T N A V where
  states := [G.initial]
  values := [empty]
  char := none
  errStatus := 0

/-- States are dropped until one shifts `error`. -/
def recover : List (State T N A) → List V → Option (List (State T N A) × List V)
  | q :: states, v :: values =>
      if .error ∈ shifts (G.closure q) then some (q :: states, v :: values)
      else recover states values
  | _, _ => none

/-- The part of the error handling which comes after the report. -/
def Parser.handleError (empty : V) (p : Parser T N A V) (l : L) (e : E) :
    Outcome T N A V L E :=
  let atEnd := (p.char.map Token.kind) = some none
  if p.errStatus = 3 ∧ atEnd then .returned 1 l e
  else
    let char := if p.errStatus = 3 then none else p.char
    match recover G p.states p.values with
    | none => .returned 1 l e
    | some (states, values) =>
        let q := G.goto (states.headD []) .error
        .running
          { states := q :: states, values := empty :: values, char := char, errStatus := 3 } l e

def step (linked : Linked T A V L E) (p : Parser T N A V) (l : L) (e : E) :
    Outcome T N A V L E :=
  match G.decision p.top (p.char.map Token.kind) with
  | .look =>
      let lexed := linked.lex l
      .running { p with char := lexed.1 } lexed.2 e
  | .shift q =>
      let value := (p.char.map Token.value).getD linked.empty
      .running
        { states := q :: p.states, values := value :: p.values, char := none
          errStatus := p.errStatus - 1 } l e
  | .reduce r =>
      let done := linked.perform r.action (p.values.take r.length).reverse e
      if done.accepted then .returned 0 l done.effect
      else
        let below := p.states.drop r.length
        .running
          { p with
            states := G.goto (below.headD []) (.nonterminal r.lhs) :: below
            values := done.value :: p.values.drop r.length } l done.effect
  | .accept => .returned 0 l e
  | .error =>
      match p.char with
      | some token =>
          if p.errStatus = 0 then
            let reported := linked.report token e
            if reported.2 then .exited l reported.1
            else p.handleError G linked.empty l reported.1
          else p.handleError G linked.empty l e
      | none => p.handleError G linked.empty l e

/-- A call of the parser, for at most `fuel` steps. -/
def run (linked : Linked T A V L E) : ℕ → Parser T N A V → L → E → Option (Outcome T N A V L E)
  | 0, _, _, _ => none
  | fuel + 1, p, l, e =>
      match step G linked p l e with
      | .running p l e => run linked fuel p l e
      | done => some done

def parse (linked : Linked T A V L E) (fuel : ℕ) (l : L) (e : E) :
    Option (Outcome T N A V L E) :=
  run G linked fuel (Parser.start G linked.empty) l e

/-! ## Runs -/

/-- The parser gets from a configuration to an outcome. -/
inductive Reaches (linked : Linked T A V L E) :
    Parser T N A V → L → E → Outcome T N A V L E → Prop
  | refl {p : Parser T N A V} {l : L} {e : E} : Reaches linked p l e (.running p l e)
  | done {p : Parser T N A V} {l : L} {e : E} : Reaches linked p l e (step G linked p l e)
  | step {p p' : Parser T N A V} {l l' : L} {e e' : E} {o : Outcome T N A V L E} :
      LR.step G linked p l e = .running p' l' e' → Reaches linked p' l' e' o →
        Reaches linked p l e o

def Outcome.Final : Outcome T N A V L E → Prop
  | .running _ _ _ => False
  | _ => True

variable {G} {linked : Linked T A V L E}

theorem Reaches.trans
    {p p' : Parser T N A V} {l l' : L} {e e' : E} {o : Outcome T N A V L E}
    (hfirst : Reaches G linked p l e (.running p' l' e'))
    (hlater : Reaches G linked p' l' e' o) :
    Reaches G linked p l e o := by
  generalize hmid : Outcome.running p' l' e' = mid at hfirst
  induction hfirst with
  | refl =>
      cases hmid
      exact hlater
  | done => exact .step hmid.symm hlater
  | step hstep _ ih => exact .step hstep (ih hmid)

theorem Reaches.run
    {p : Parser T N A V} {l : L} {e : E} {o : Outcome T N A V L E}
    (h : Reaches G linked p l e o) (hfinal : o.Final) :
    ∃ n, ∀ fuel, n ≤ fuel → run G linked fuel p l e = some o := by
  induction h with
  | refl => exact absurd hfinal not_false
  | @done p l e =>
      refine ⟨1, ?_⟩
      intro fuel hfuel
      cases fuel with
      | zero => omega
      | succ fuel =>
          cases hstep : LR.step G linked p l e with
          | running p' l' e' =>
              rw [hstep] at hfinal
              exact absurd hfinal not_false
          | returned result l' e' => rw [LR.run, hstep]
          | exited l' e' => rw [LR.run, hstep]
  | step hstep _ ih =>
      rcases ih hfinal with ⟨n, hn⟩
      refine ⟨n + 1, ?_⟩
      intro fuel hfuel
      cases fuel with
      | zero => omega
      | succ fuel =>
          rw [LR.run, hstep]
          exact hn fuel (by omega)

/-! ## Moves -/

/-- The tokens which a scanner returns one after the other. -/
inductive Lexes (lex : L → Option (Token T V) × L) : L → List (Token T V) → L → Prop
  | nil {l : L} : Lexes lex l [] l
  | skip {l l' l'' : L} {t : Token T V} {ts : List (Token T V)} :
      lex l = (none, l') → Lexes lex l' (t :: ts) l'' → Lexes lex l (t :: ts) l''
  | token {l l' l'' : L} {t : Token T V} {ts : List (Token T V)} :
      lex l = (some t, l') → Lexes lex l' ts l'' → Lexes lex l (t :: ts) l''

inductive Move (N A : Type*)
  | shift
  | reduce (r : Reduction N A)
  deriving DecidableEq

variable (G) in
/-- The moves up to where a token is needed and there is none. -/
def moves : ℕ → List (State T N A) → Option (Option T) → List (Option T) →
    Option (List (Move N A) × List (State T N A))
  | 0, _, _, _ => none
  | fuel + 1, states, char, kinds =>
      match G.decision (states.headD []) char with
      | .look =>
          match char, kinds with
          | none, [] => some ([], states)
          | none, kind :: kinds => moves fuel states (some kind) kinds
          | some _, _ => none
      | .shift q => (moves fuel (q :: states) none kinds).map fun m => (.shift :: m.1, m.2)
      | .reduce r =>
          let below := states.drop r.length
          let q := G.goto (below.headD []) (.nonterminal r.lhs)
          (moves fuel (q :: below) char kinds).map fun m => (.reduce r :: m.1, m.2)
      | .accept => none
      | .error => none

/-- What has been computed, or the effect at the end of the parser together with
the tokens which were left. -/
inductive Played (V E : Type*)
  | going (values : List V) (e : E)
  | accepted (left : List V) (e : E)

variable (linked) in
/-- The moves on the values, of which `tokens` are still to be shifted. -/
def play : List (Move N A) → List V → List V → E → Played V E
  | [], _, values, e => .going values e
  | .shift :: moves, tokens, values, e =>
      play moves tokens.tail (tokens.headD linked.empty :: values) e
  | .reduce r :: moves, tokens, values, e =>
      let done := linked.perform r.action (values.take r.length).reverse e
      if done.accepted then .accepted tokens done.effect
      else play moves tokens (done.value :: values.drop r.length) done.effect

/-- The outcome which the moves lead to. -/
def Played.outcome (states : List (State T N A)) (l : L) : Played V E → Outcome T N A V L E
  | .going values e =>
      .running { states := states, values := values, char := none, errStatus := 0 } l e
  | .accepted _ e => .returned 0 l e

/-- No token was left when the parser ended. -/
def Played.Complete : Played V E → Prop
  | .going _ _ => True
  | .accepted left _ => left = []

theorem Grammar.decision_none_ne_shift (q q' : State T N A) :
    G.decision q none ≠ .shift q' := by
  intro h
  unfold Grammar.decision at h
  simp only at h
  split at h
  · cases h
  · cases h
  · rename_i hnone _
    cases hnone

theorem reaches_token
    {p : Parser T N A V} (hlook : G.decision p.top none = .look) (hchar : p.char = none)
    {l l' : L} {t : Token T V} {ts : List (Token T V)} (hlexes : Lexes linked.lex l (t :: ts) l')
    (e : E) :
    ∃ l₁, Reaches G linked p l e (.running { p with char := some t } l₁ e) ∧
      Lexes linked.lex l₁ ts l' := by
  have hstep : ∀ l₀, LR.step G linked p l₀ e =
      .running { p with char := (linked.lex l₀).1 } (linked.lex l₀).2 e := by
    intro l₀
    rw [LR.step, hchar, Option.map_none, hlook]
  generalize htokens : t :: ts = tokens at hlexes
  induction hlexes with
  | nil => cases htokens
  | @skip l₀ l₁ _ _ _ hlex _ ih =>
      rcases ih htokens with ⟨l₂, hreaches, hlater⟩
      have hskip : LR.step G linked p l₀ e = .running p l₁ e := by
        rw [hstep, hlex, ← hchar]
      exact ⟨l₂, .step hskip hreaches, hlater⟩
  | @token l₀ l₁ _ _ _ hlex hlater _ =>
      cases htokens
      have hread : LR.step G linked p l₀ e = .running { p with char := some t } l₁ e := by
        rw [hstep, hlex]
      exact ⟨l₁, .step hread .refl, hlater⟩

/-- The parser makes the moves which the kinds of the tokens ask for. -/
theorem reaches_of_moves
    {fuel : ℕ} {states states' : List (State T N A)} {char : Option (Token T V)}
    {ts : List (Token T V)} {ms : List (Move N A)}
    (hmoves : moves G fuel states (char.map Token.kind) (ts.map Token.kind) =
      some (ms, states'))
    {l l' : L} (hlexes : Lexes linked.lex l ts l') (values : List V) (e : E)
    (hcomplete : (play linked ms ((char.toList ++ ts).map Token.value) values e).Complete) :
    Reaches G linked { states := states, values := values, char := char, errStatus := 0 } l e
      ((play linked ms ((char.toList ++ ts).map Token.value) values e).outcome states' l') := by
  induction fuel generalizing states char ts ms l values e with
  | zero => cases hmoves
  | succ fuel ih =>
      unfold moves at hmoves
      cases hdecision : G.decision (states.headD []) (char.map Token.kind) with
      | look =>
          rw [hdecision] at hmoves
          cases char with
          | some token => cases hmoves
          | none =>
              cases ts with
              | nil =>
                  cases hlexes
                  cases hmoves
                  exact .refl
              | cons t ts =>
                  let p : Parser T N A V :=
                    { states := states, values := values, char := none, errStatus := 0 }
                  have hlook : G.decision p.top none = .look := hdecision
                  rcases reaches_token hlook rfl hlexes e with ⟨l₁, hread, hlater⟩
                  have hnext : moves G fuel states ((some t).map Token.kind)
                      (ts.map Token.kind) = some (ms, states') := hmoves
                  exact hread.trans (ih hnext hlater values e hcomplete)
      | shift q =>
          rw [hdecision] at hmoves
          rw [Option.map_eq_some_iff] at hmoves
          rcases hmoves with ⟨⟨later, reached⟩, hlater, hms⟩
          cases hms
          cases char with
          | none =>
              exact absurd hdecision (Grammar.decision_none_ne_shift _ q)
          | some token =>
              have hshift : LR.step G linked
                  { states := states, values := values, char := some token, errStatus := 0 } l e =
                  .running
                    { states := q :: states, values := token.value :: values, char := none
                      errStatus := 0 } l e := by
                rw [LR.step, Parser.top, hdecision]
                rfl
              have hnext : moves G fuel (q :: states) ((none : Option (Token T V)).map Token.kind)
                  (ts.map Token.kind) = some (later, reached) := hlater
              exact .step hshift (ih hnext hlexes (token.value :: values) e hcomplete)
      | reduce r =>
          rw [hdecision] at hmoves
          rw [Option.map_eq_some_iff] at hmoves
          rcases hmoves with ⟨⟨later, reached⟩, hlater, hms⟩
          cases hms
          have hreduce : LR.step G linked
              { states := states, values := values, char := char, errStatus := 0 } l e =
              (let done := linked.perform r.action (values.take r.length).reverse e
               if done.accepted then .returned 0 l done.effect
               else
                let below := states.drop r.length
                .running
                  { states := G.goto (below.headD []) (.nonterminal r.lhs) :: below
                    values := done.value :: values.drop r.length, char := char
                    errStatus := 0 } l done.effect) := by
            rw [LR.step, Parser.top, hdecision]
          rw [play] at hcomplete ⊢
          cases haccepted :
              (linked.perform r.action (values.take r.length).reverse e).accepted with
          | true =>
              simp only [haccepted, if_true] at hreduce hcomplete ⊢
              have hleft : (char.toList ++ ts).map Token.value = [] := hcomplete
              rw [List.map_eq_nil_iff, List.append_eq_nil_iff] at hleft
              rcases hleft with ⟨_, rfl⟩
              cases hlexes
              change Reaches G linked _ _ e (.returned 0 _ _)
              rw [← hreduce]
              exact .done
          | false =>
              simp only [haccepted, Bool.false_eq_true, if_false] at hreduce hcomplete ⊢
              exact .step hreduce (ih hlater hlexes _ _ hcomplete)
      | accept =>
          rw [hdecision] at hmoves
          cases hmoves
      | error =>
          rw [hdecision] at hmoves
          cases hmoves

end LR
