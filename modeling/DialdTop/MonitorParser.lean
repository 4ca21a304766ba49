import DialdTop.DottedQuad
import DialdTop.MonitorLexer

/-!
# The parser of the monitor stream

The grammar of `monitor.y` with its actions, and the two loops which call
`yyparse`.  The calls of the `do_` functions are recorded in order.  Memory is
never released and never runs out.
-/

namespace DialdTop

open Scanner

namespace Monitor

/-! ## Grammar -/

inductive Nonterminal
  | num
  | time
  | string
  | stringnl
  | ip
  | ipnl
  | port
  | blurbs
  | belch
  | blurb
  | status
  | load
  | interface
  | state
  | message
  | queue
  | endqueue
  | packets
  | packet
  deriving DecidableEq, Repr

/-- The actions, of which `first` is `$$ = $1` and does nothing else. -/
inductive Action
  | first
  | accept
  | append
  | status
  | load
  | interface
  | state
  | message
  | testkey
  | queue
  | endqueue
  | packet
  | numberedPacket
  deriving DecidableEq, Repr

abbrev Symbol := LR.Symbol TokenKind Nonterminal

abbrev Rule := LR.Rule TokenKind Nonterminal Action

def tokenSymbol (kind : TokenKind) : Symbol := .terminal kind

def symbol (n : Nonterminal) : Symbol := .nonterminal n

def productions : Nonterminal → List Rule
  | .num => [⟨[tokenSymbol .num, tokenSymbol .newline], .first⟩]
  | .time =>
      [⟨[tokenSymbol .time, tokenSymbol .newline], .first⟩,
        ⟨[tokenSymbol .wouldblock], .accept⟩]
  | .string =>
      [⟨[tokenSymbol .string], .first⟩,
        ⟨[symbol .string, tokenSymbol .string], .append⟩]
  | .stringnl => [⟨[symbol .string, tokenSymbol .newline], .first⟩]
  | .ip => [⟨[tokenSymbol .ip], .first⟩]
  | .ipnl => [⟨[tokenSymbol .ip, tokenSymbol .newline], .first⟩]
  | .port => [⟨[tokenSymbol .port], .first⟩]
  | .blurbs =>
      [⟨[], .first⟩,
        ⟨[symbol .blurbs, symbol .blurb], .first⟩,
        ⟨[.error, symbol .blurbs], .first⟩,
        ⟨[symbol .belch], .first⟩]
  | .belch =>
      [⟨[symbol .blurbs, symbol .time], .first⟩,
        ⟨[symbol .blurbs, symbol .string], .first⟩,
        ⟨[symbol .blurbs, tokenSymbol .endqueue], .first⟩,
        ⟨[symbol .blurbs, tokenSymbol .ip], .first⟩,
        ⟨[symbol .blurbs, tokenSymbol .port], .first⟩,
        ⟨[symbol .blurbs, tokenSymbol .newline], .first⟩,
        ⟨[symbol .blurbs, tokenSymbol .num], .first⟩]
  | .blurb =>
      [⟨[symbol .status, symbol .num, symbol .num, symbol .num, symbol .num, symbol .num,
          symbol .num, symbol .time, symbol .time, symbol .time], .status⟩,
        ⟨[symbol .load, symbol .num, symbol .num], .load⟩,
        ⟨[symbol .interface, symbol .stringnl, symbol .ipnl, symbol .ipnl], .interface⟩,
        ⟨[symbol .state, symbol .stringnl], .state⟩,
        ⟨[symbol .message, symbol .stringnl], .message⟩,
        ⟨[symbol .queue, symbol .packets, symbol .endqueue], .testkey⟩,
        ⟨[symbol .queue, .error, symbol .endqueue], .testkey⟩]
  | .status =>
      [⟨[tokenSymbol .status, tokenSymbol .newline], .first⟩,
        ⟨[symbol .queue, tokenSymbol .status, tokenSymbol .newline], .first⟩]
  | .load => [⟨[tokenSymbol .load, tokenSymbol .newline], .first⟩]
  | .interface => [⟨[tokenSymbol .interface, tokenSymbol .newline], .first⟩]
  | .state => [⟨[tokenSymbol .state, tokenSymbol .newline], .first⟩]
  | .message => [⟨[tokenSymbol .message, tokenSymbol .newline], .first⟩]
  | .queue => [⟨[tokenSymbol .queue, tokenSymbol .newline], .queue⟩]
  | .endqueue => [⟨[tokenSymbol .endqueue, tokenSymbol .newline], .endqueue⟩]
  | .packets =>
      [⟨[], .first⟩,
        ⟨[symbol .packets, symbol .packet], .first⟩]
  | .packet =>
      [⟨[symbol .string, symbol .ip, symbol .port, symbol .ip, symbol .port, symbol .time],
          .packet⟩,
        ⟨[tokenSymbol .num, symbol .ip, symbol .port, symbol .ip, symbol .port, symbol .time],
          .numberedPacket⟩,
        ⟨[tokenSymbol .wouldblock], .first⟩]

def grammar : LR.Grammar TokenKind Nonterminal Action where
  nonterminals :=
    [.num, .time, .string, .stringnl, .ip, .ipnl, .port, .blurbs, .belch, .blurb, .status, .load,
      .interface, .state, .message, .queue, .endqueue, .packets, .packet]
  rules := productions
  start := .blurbs

/-! ## Actions -/

inductive Call
  | doStatus (up force im imItm imTm imFuzz : Int) (imTo forceTo to_ : List Byte)
  | doLoad (itxtotal irxtotal : Int)
  | doInterface (interface localIp remoteIp : List Byte)
  | doState (state : List Byte)
  | doMessage (message : List Byte)
  | doQueue
  | doPacket (protocol ip1 : List Byte) (port1 : Int) (ip2 : List Byte) (port2 : Int)
      (ttl : List Byte)
  | doEndqueue
  deriving DecidableEq, Repr

/-- The results of `lex_testkey` in order, what `%d` makes of a pointer to a
string, and an option of the command line. -/
structure Surroundings where
  lexTestkey : ℕ → Bool
  pointer : List Byte → Int
  quitIfParseError : Bool

/-- `tested` counts the calls of `lex_testkey`, and `complaints` has the
lookaheads which `yyerror` has printed. -/
structure Effects where
  calls : List Call
  tested : ℕ
  complaints : List (Option TokenKind)
  deriving DecidableEq, Repr

def Effects.none : Effects where
  calls := []
  tested := 0
  complaints := []

/-- The member `number` of `$i`. -/
def number (values : List Value) (i : ℕ) : Int :=
  match values[i - 1]? with
  | some (.number n) => n
  | _ => 0

/-- The member `string` of `$i`. -/
def text (values : List Value) (i : ℕ) : List Byte :=
  match values[i - 1]? with
  | some (.string s) => s
  | _ => []

/-- The text which `%d` prints. -/
def printInt (n : Int) : List Byte :=
  if n < 0 then 45 :: decimal n.natAbs else decimal n.natAbs

theorem nul_notMem_printInt (n : Int) : nul ∉ printInt n := by
  have hdigits : nul ∉ decimal n.natAbs := notMem_decimal (by decide) _
  unfold printInt
  split
  · rw [List.mem_cons, not_or]
    exact ⟨by decide, hdigits⟩
  · exact hdigits

def Effects.call (e : Effects) (c : Call) : Effects :=
  { e with calls := e.calls ++ [c] }

/-- The value of the first symbol on the right, and whether a key is pressed. -/
def ifKey (w : Surroundings) (values : List Value) (e : Effects) :
    LR.Performed Value Effects where
  value := values.headD .undefined
  effect := { e with tested := e.tested + 1 }
  accepted := w.lexTestkey e.tested

def perform (w : Surroundings) (action : Action) (values : List Value) (e : Effects) :
    LR.Performed Value Effects :=
  let first := values.headD .undefined
  match action with
  | .first => { value := first, effect := e, accepted := false }
  | .accept => { value := first, effect := e, accepted := true }
  | .append =>
      { value := .string (cString (text values 1) ++ cString (text values 2)), effect := e
        accepted := false }
  | .status =>
      ifKey w values
        (e.call (.doStatus (number values 2) (number values 3) (number values 4)
          (number values 5) (number values 6) (number values 7) (text values 8) (text values 9)
          (text values 10)))
  | .load =>
      { ifKey w values (e.call (.doLoad (number values 2) (number values 3))) with
        accepted := true }
  | .interface =>
      ifKey w values (e.call (.doInterface (text values 2) (text values 3) (text values 4)))
  | .state => ifKey w values (e.call (.doState (text values 2)))
  | .message => ifKey w values (e.call (.doMessage (text values 2)))
  | .testkey => ifKey w values e
  | .queue => { value := first, effect := e.call .doQueue, accepted := false }
  | .endqueue => { value := first, effect := e.call .doEndqueue, accepted := false }
  | .packet =>
      let call := Call.doPacket (text values 1) (text values 2) (number values 3)
        (text values 4) (number values 5) (text values 6)
      { value := first, effect := e.call call, accepted := false }
  | .numberedPacket =>
      -- `sprintf` is given `$2` and not `$1`.
      let call := Call.doPacket (printInt (w.pointer (text values 2))) (text values 2)
        (number values 3) (text values 4) (number values 5) (text values 6)
      { value := first, effect := e.call call, accepted := false }

/-- `yyerror`, which may end the program. -/
def yyerror (w : Surroundings) (yychar : Token) (e : Effects) : Effects × Bool :=
  if yychar.kind = some .wouldblock then (e, false)
  else ({ e with complaints := e.complaints ++ [yychar.kind] }, w.quitIfParseError)

def linked (w : Surroundings) : LR.Linked TokenKind Action Value Lexer Effects where
  lex := yylex
  perform := perform w
  report := yyerror w
  empty := .undefined

/-! ## Calls of the parser -/

abbrev Outcome := LR.Outcome TokenKind Nonterminal Action Value Lexer Effects

/-- `none` when `fuel` steps are not enough. -/
def yyparse (w : Surroundings) (fuel : ℕ) (l : Lexer) (e : Effects) : Option Outcome :=
  LR.parse grammar (linked w) fuel l e

/-- `while (!yacc_eof) yyparse();`, the main function of the tester. -/
def parseToEof (w : Surroundings) : ℕ → Lexer → Effects → Option Outcome
  | 0, _, _ => none
  | fuel + 1, l, e =>
      match yyparse w fuel l e with
      | some (.returned result l e) =>
          if l.yaccEof then some (.returned result l e) else parseToEof w fuel l e
      | other => other

/-- The loop of `read_fifo`, which has called `yyparse` `i` times. -/
def readLoop (w : Surroundings) (fuel : ℕ) : ℕ → ℕ → Lexer → Effects → Option Outcome
  | 0, _, _, _ => none
  | n + 1, i, l, e =>
      match yyparse w fuel l e with
      | some (.returned result l e) =>
          if ¬ l.reader.timedOut ∧ i + 1 ≤ 3 then readLoop w fuel n (i + 1) l e
          else some (.returned result l e)
      | other => other

/-- `read_fifo` without its redisplay; it returns -1 when `yaccEof` is set. -/
def readFifo (w : Surroundings) (fuel : ℕ) (l : Lexer) (e : Effects) : Option Outcome :=
  readLoop w fuel 4 0 { l with yaccEof := false } e

/-- Calls of `read_fifo` until it returns -1. -/
def readToEof (w : Surroundings) : ℕ → Lexer → Effects → Option Outcome
  | 0, _, _ => none
  | fuel + 1, l, e =>
      match readFifo w fuel l e with
      | some (.returned result l e) =>
          if l.yaccEof then some (.returned result l e) else readToEof w fuel l e
      | other => other

/-- The scanner in front of its input. -/
def Lexer.start (input : List (Arrival Byte)) : Lexer where
  reader :=
    { mode := { start := .initial, atBol := true }, buffer := [], ended := false
      timedOut := false, input := input }
  yaccEof := false

end Monitor

end DialdTop
