import DialdTop.ConfScanner
import DialdTop.InteractiveScanner
import DialdTop.LRParser

/-!
# The scanner of the monitor stream

The rules of `monitor.l` in their order.  A token of the scanner is a token of
the parser with its `yylval`.
-/

namespace DialdTop

open Scanner

namespace Monitor

inductive TokenKind
  | state
  | interface
  | status
  | load
  | message
  | queue
  | endqueue
  | time
  | num
  | ip
  | port
  | string
  | newline
  | wouldblock
  deriving DecidableEq, Repr

/-- `YYSTYPE`.  A string is the memory behind the pointer up to the NUL which
`lex_string` has put there. -/
inductive Value
  | undefined
  | number (n : Int)
  | string (text : List Byte)
  deriving DecidableEq, Repr

abbrev Token := LR.Token TokenKind Value

inductive StartCondition
  | initial
  | preMessage
  | inMessage
  deriving DecidableEq, Repr

def slash : Byte := 47

/-- `[^0-9 \n]`. -/
def isNondigit (c : Byte) : Bool :=
  !isDigit c && c ≠ blank && c ≠ newline

/-- `[^/ \n]`. -/
def isNoslash (c : Byte) : Bool :=
  c ≠ slash && c ≠ blank && c ≠ newline

def decimalValue (digits : List Byte) : ℕ :=
  digits.foldl (fun n c => 10 * n + (c.toNat - 48)) 0

/-- The library function on a text which begins with a digit.  The value is kept
below `LONG_MAX` and then taken as an `int`. -/
def atoi (text : List Byte) : Int :=
  wrapInt (min (decimalValue (text.takeWhile isDigit)) 9223372036854775807 : ℕ)

/-! ## Patterns -/

def digitPattern : Regex Byte := .cls isDigit

def timePattern : Regex Byte :=
  let two : Regex Byte → Regex Byte := fun r => .cat digitPattern (.cat digitPattern r)
  let separator : Regex Byte := .cls (· = colon)
  two (.cat separator (two (.cat separator (two .epsilon))))

def numPattern : Regex Byte := .cat digitPattern (.star digitPattern)

def ipPattern : Regex Byte := ConfScanner.ip

/-- `"/"[1-9][0-9]*`. -/
def portPattern : Regex Byte :=
  .cat (.cls (· = slash)) (.cat (.cls fun c => isDigit c && c ≠ 48) (.star digitPattern))

/-- `{NONDIGIT}{NOSLASH}*`. -/
def partPattern : Regex Byte := .cat (.cls isNondigit) (.star (.cls isNoslash))

def stringPattern : Regex Byte :=
  .cat (.cls isNondigit)
    (.cat (.star (.cls isNoslash)) (.star (.cat (.cls (· = slash)) partPattern.opt)))

/-! ## Rules -/

/-- A rule without start conditions is active in the inclusive ones. -/
def inclusive : StartCondition → Bool
  | .inMessage => false
  | _ => true

def token (kind : TokenKind) (value : Value) (begins : Option StartCondition) :
    Option (Reaction StartCondition Token) :=
  some { token := { kind := some kind, value := value }, begins := begins }

/-- A keyword at the beginning of a line. -/
def keywordRule (text : String) (kind : TokenKind) (begins : Option StartCondition) :
    BoundRule Byte StartCondition Token where
  active := inclusive
  bol := true
  rule := ⟨.word (bytes text), none, fun _ => token kind .undefined begins⟩

/-- A rule whose `yylval` is computed from the match. -/
def valueRule (pattern : Regex Byte) (kind : TokenKind) (yylval : List Byte → Value) :
    BoundRule Byte StartCondition Token where
  active := inclusive
  bol := false
  rule := ⟨pattern, none, fun yytext => token kind (yylval yytext) none⟩

def newlineRule (active : StartCondition → Bool) (begins : Option StartCondition) :
    BoundRule Byte StartCondition Token where
  active := active
  bol := false
  rule := ⟨.cls (· = newline), none, fun _ => token .newline .undefined begins⟩

def keywordRules : List (BoundRule Byte StartCondition Token) :=
  [keywordRule "STATE" .state none,
    keywordRule "INTERFACE" .interface none,
    keywordRule "STATUS" .status none,
    keywordRule "LOAD" .load none,
    keywordRule "QUEUE" .queue none,
    keywordRule "END QUEUE" .endqueue none,
    keywordRule "MESSAGE" .message (some .preMessage)]

def timeRule := valueRule timePattern .time .string
def numRule := valueRule numPattern .num fun yytext => .number (atoi yytext)
def ipRule := valueRule ipPattern .ip .string

/-- The action moves `yytext` behind the slash. -/
def portRule := valueRule portPattern .port fun yytext => .number (atoi yytext.tail)

def blankRule : BoundRule Byte StartCondition Token where
  active := inclusive
  bol := false
  rule := ⟨.cls (· = blank), none, fun _ => none⟩

def stringRule := valueRule stringPattern .string .string

/-- `<in_message>^[^\n]*$`. -/
def messageRule : BoundRule Byte StartCondition Token where
  active := (· = .inMessage)
  bol := true
  rule :=
    ⟨.star (.cls (· ≠ newline)), some (· = newline),
      fun yytext => token .string (.string yytext) none⟩

def rules : List (BoundRule Byte StartCondition Token) :=
  keywordRules ++
    [timeRule, numRule, ipRule, portRule, blankRule, stringRule, messageRule,
      newlineRule (· = .preMessage) (some .inMessage),
      newlineRule (· = .inMessage) (some .initial),
      newlineRule inclusive none]

/-! ## The scanner -/

/-- `yacc_block` tells whether the last call of the input function has timed
out, as `timedOut` does. -/
structure Lexer where
  reader : Reader Byte StartCondition
  yaccEof : Bool

def isEndOfLine (c : Byte) : Bool := c = newline

def wouldblock : Token := { kind := some .wouldblock, value := .undefined }

/-- A match of `yylex`, or its rule for `<<EOF>>`. -/
def yylex (l : Lexer) : Option Token × Lexer :=
  let matched := l.reader.step isEndOfLine rules
  match matched.1 with
  | .silent => (none, { l with reader := matched.2 })
  | .token t => (some t, { l with reader := matched.2 })
  | .eof true => (some wouldblock, { l with reader := matched.2 })
  | .eof false =>
      (some { kind := none, value := .undefined }, { reader := matched.2, yaccEof := true })

end Monitor

end DialdTop
