import DialdTop.MonitorTokens

/-!
# Parsing well-formed records

The parser takes in the parts of a stream one by one, with time-outs in between.
-/

namespace DialdTop

open Scanner

namespace Monitor

/-! ## Moves -/

abbrev Stack := List (LR.State TokenKind Nonterminal Action)

def top (symbols : List Symbol) : LR.State TokenKind Nonterminal Action :=
  symbols.foldl (fun q X => grammar.goto q X) grammar.initial

/-- The states between two parts, when a token is known to follow. -/
def settled (inQueue : Bool) : Stack :=
  if inQueue then
    [top [symbol .blurbs, symbol .queue, symbol .packets],
      top [symbol .blurbs, symbol .queue], top [symbol .blurbs], top []]
  else [top [symbol .blurbs], top []]

/-- The states before a first part, when no token is known to follow. -/
def unsettled (inQueue : Bool) : Stack :=
  if inQueue then [top [symbol .blurbs, symbol .queue], top [symbol .blurbs], top []]
  else [top []]

abbrev Move := LR.Move Nonterminal Action

def reduceMove (lhs : Nonterminal) (length : ℕ) (action : Action) : Move :=
  .reduce { lhs := lhs, length := length, action := action }

def lineMoves (lhs : Nonterminal) (action : Action) : List Move :=
  [.shift, .shift, reduceMove lhs 2 action]

def stringMoves : List Move :=
  [.shift, reduceMove .string 1 .first, .shift, reduceMove .stringnl 2 .first]

def addressMoves : List Move :=
  [.shift, reduceMove .ip 1 .first, .shift, reduceMove .port 1 .first]

/-- The moves for the part whose first token is of the kind. -/
def movesFor (inQueue : Bool) : TokenKind → List Move
  | .status =>
      lineMoves .status .first ++ (List.replicate 6 (lineMoves .num .first)).flatten ++
        (List.replicate 3 (lineMoves .time .first)).flatten ++
        [reduceMove .blurb 10 .status, reduceMove .blurbs 2 .first]
  | .load =>
      lineMoves .load .first ++ lineMoves .num .first ++ lineMoves .num .first ++
        [reduceMove .blurb 3 .load, reduceMove .blurbs 2 .first]
  | .interface =>
      lineMoves .interface .first ++ stringMoves ++ lineMoves .ipnl .first ++
        lineMoves .ipnl .first ++ [reduceMove .blurb 4 .interface, reduceMove .blurbs 2 .first]
  | .state =>
      lineMoves .state .first ++ stringMoves ++
        [reduceMove .blurb 2 .state, reduceMove .blurbs 2 .first]
  | .message =>
      lineMoves .message .first ++ stringMoves ++
        [reduceMove .blurb 2 .message, reduceMove .blurbs 2 .first]
  | .queue => lineMoves .queue .queue
  | .string =>
      [.shift, reduceMove .string 1 .first] ++ addressMoves ++ addressMoves ++
        lineMoves .time .first ++ [reduceMove .packet 6 .packet, reduceMove .packets 2 .first]
  | .endqueue =>
      lineMoves .endqueue .endqueue ++
        [reduceMove .blurb 3 .testkey, reduceMove .blurbs 2 .first]
  | .wouldblock =>
      if inQueue then [.shift, reduceMove .packet 1 .first, reduceMove .packets 2 .first]
      else
        [.shift, reduceMove .time 1 .accept, reduceMove .belch 2 .first,
          reduceMove .blurbs 1 .first]
  | _ => []

/-- The kinds of the later tokens of the part. -/
def laterKinds : TokenKind → List TokenKind
  | .status =>
      .newline :: (List.replicate 6 [.num, .newline]).flatten ++
        (List.replicate 3 [.time, .newline]).flatten
  | .load => [.newline, .num, .newline, .num, .newline]
  | .interface => [.newline, .string, .newline, .ip, .newline, .ip, .newline]
  | .state => [.newline, .string, .newline]
  | .message => [.newline, .string, .newline]
  | .queue => [.newline]
  | .string => [.ip, .port, .ip, .port, .time, .newline]
  | .endqueue => [.newline]
  | _ => []

/-! ## Pieces of the input -/

inductive Piece
  | part (p : Part)
  | timeout

def Piece.tokens : Piece → List Token
  | .part p => p.tokens
  | .timeout => [wouldblock]

def Piece.calls : Piece → List Call
  | .part p => [p.call]
  | .timeout => []

def Report.kind : Report → TokenKind
  | .status .. => .status
  | .load .. => .load
  | .interface .. => .interface
  | .state _ => .state
  | .message _ => .message

def Piece.kind : Piece → TokenKind
  | .part (.report r) => r.kind
  | .part .queue => .queue
  | .part (.packet _) => .string
  | .part .endqueue => .endqueue
  | .timeout => .wouldblock

theorem Piece.tokens_eq (x : Piece) :
    ∃ t ts, x.tokens = t :: ts ∧ t.kind = some x.kind ∧
      ts.map LR.Token.kind = (laterKinds x.kind).map some := by
  cases x with
  | part p =>
      cases p with
      | report r =>
          cases r with
          | _ => exact ⟨_, _, rfl, rfl, rfl⟩
      | _ => exact ⟨_, _, rfl, rfl, rfl⟩
  | timeout => exact ⟨_, _, rfl, rfl, rfl⟩

/-- Where a piece may stand, and whether a queue is open behind it. -/
inductive Follows : Bool → Piece → Bool → Prop
  | timeout (inQueue : Bool) : Follows inQueue .timeout inQueue
  | report (r : Report) : Follows false (.part (.report r)) false
  | queue : Follows false (.part .queue) true
  | packet (p : Packet) : Follows true (.part (.packet p)) true
  | endqueue : Follows true (.part .endqueue) false

/-- The states behind a piece. -/
def Piece.states (inQueue : Bool) (x : Piece) : Stack :=
  if x.kind = .queue then unsettled inQueue else settled inQueue

theorem moves_report (kind : TokenKind)
    (hkind : kind ∈ [.status, .load, .interface, .state, TokenKind.message]) :
    LR.moves grammar 100 (settled false) (some (some kind)) ((laterKinds kind).map some) =
      some (movesFor false kind, settled false) := by
  decide +revert +kernel

theorem moves_in_queue (kind : TokenKind) (hkind : kind ∈ [.string, TokenKind.wouldblock]) :
    LR.moves grammar 100 (settled true) (some (some kind)) ((laterKinds kind).map some) =
      some (movesFor true kind, settled true) := by
  decide +revert +kernel

theorem Follows.moves
    {inQueue inQueue' : Bool} {x : Piece} (h : Follows inQueue x inQueue') :
    LR.moves grammar 100 (settled inQueue) (some (some x.kind)) ((laterKinds x.kind).map some) =
      some (movesFor inQueue x.kind, x.states inQueue') := by
  cases h with
  | timeout =>
      cases inQueue with
      | true => exact moves_in_queue .wouldblock (by decide)
      | false => decide +kernel
  | report r =>
      have hkind : r.kind ∈ [.status, .load, .interface, .state, TokenKind.message] := by
        cases r with
        | _ => simp [Report.kind]
      have hstates : (Piece.part (.report r)).states false = settled false := by
        cases r with
        | _ => rfl
      rw [hstates]
      exact moves_report r.kind hkind
  | queue => decide +kernel
  | packet p => exact moves_in_queue .string (by decide)
  | endqueue => decide +kernel

/-! ## Values -/

/-- What the moves have done, and whether they have ended the parser. -/
def played (accepted : Bool) (values : List Value) (e : Effects) : LR.Played Value Effects :=
  if accepted then .accepted [] e else .going values e

theorem play_report (w : Surroundings) (r : Report) (a b : Value) (e : Effects) :
    ∃ accepted, LR.play (linked w) (movesFor false r.kind) (r.tokens.map LR.Token.value) [a, b] e =
      played accepted [a, b] { e with calls := e.calls ++ [r.call], tested := e.tested + 1 } := by
  cases r with
  | load => exact ⟨true, rfl⟩
  | _ => exact ⟨w.lexTestkey e.tested, rfl⟩

/-- The moves pass the fields on to the call which the piece prescribes. -/
theorem Follows.play
    (w : Surroundings) {inQueue inQueue' : Bool} {x : Piece} (h : Follows inQueue x inQueue')
    {values : List Value} (hvalues : values.length = (settled inQueue).length) (e : Effects) :
    ∃ accepted values' e',
      LR.play (linked w) (movesFor inQueue x.kind) (x.tokens.map LR.Token.value) values e =
        played accepted values' e' ∧
      values'.length = (x.states inQueue').length ∧ e'.calls = e.calls ++ x.calls ∧
      e'.complaints = e.complaints ∧ (accepted = true → inQueue' = false) := by
  cases h with
  | timeout =>
      cases inQueue with
      | true =>
          match values, hvalues with
          | [a, b, c, d], _ =>
              exact ⟨false, [a, b, c, d], e, rfl, rfl, (List.append_nil _).symm, rfl, by simp⟩
      | false =>
          exact ⟨true, values, e, rfl, hvalues, (List.append_nil _).symm, rfl, fun _ => rfl⟩
  | report r =>
      match values, hvalues with
      | [a, b], _ =>
          rcases play_report w r a b e with ⟨accepted, hplay⟩
          refine ⟨accepted, [a, b], _, hplay, ?_, rfl, rfl, fun _ => rfl⟩
          cases r with
          | _ => rfl
  | queue =>
      match values, hvalues with
      | [a, b], _ => exact ⟨false, [.undefined, a, b], _, rfl, rfl, rfl, rfl, by simp⟩
  | packet p =>
      match values, hvalues with
      | [a, b, c, d], _ => exact ⟨false, [a, b, c, d], _, rfl, rfl, rfl, rfl, by simp⟩
  | endqueue =>
      match values, hvalues with
      | [a, b, c, d], _ =>
          exact ⟨w.lexTestkey e.tested, [c, d], { e.call .doEndqueue with tested := e.tested + 1 },
            rfl, rfl, rfl, rfl, fun _ => rfl⟩

end Monitor

end DialdTop
