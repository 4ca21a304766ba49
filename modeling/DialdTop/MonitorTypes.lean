import DialdTop.LexerProgress
import DialdTop.MonitorStream
import DialdTop.ParserErasure

/-!
# The values of the symbols of the monitor stream

The grammar declares which member of `YYSTYPE` a symbol has.  Whatever arrives,
each value on the stack of the parser has the member of its symbol, with a text
of the right form in it, so that the actions read what the scanner has stored.
-/

namespace DialdTop

open Scanner

namespace Monitor

/-! ## Contents -/

/-- What is in the member of a symbol. -/
inductive Content
  | nothing
  | number
  | clock
  | address
  | line
  deriving DecidableEq

/-- The declarations of the types of the symbols. -/
def content : Symbol → Content
  | .terminal .num | .terminal .port | .nonterminal .num | .nonterminal .port => .number
  | .terminal .time | .nonterminal .time => .clock
  | .terminal .ip | .nonterminal .ip | .nonterminal .ipnl => .address
  | .terminal .string | .nonterminal .string | .nonterminal .stringnl => .line
  | _ => .nothing

def IsInt (n : Int) : Prop := -2147483648 ≤ n ∧ n ≤ intMax

def IsLine (s : List Byte) : Prop := newline ∉ s

def IsClock (s : List Byte) : Prop := ∃ t : Clock, s = t.text

def IsAddress (s : List Byte) : Prop := ∃ q : Quad, s = q.text

def Content.Holds : Content → Value → Prop
  | .nothing, _ => True
  | .number, v => ∃ n, IsInt n ∧ v = .number n
  | .clock, v => ∃ s, IsClock s ∧ v = .string s
  | .address, v => ∃ s, IsAddress s ∧ v = .string s
  | .line, v => ∃ s, IsLine s ∧ v = .string s

def HasContent (entry : Symbol × Value) : Prop := (content entry.1).Holds entry.2

/-! ## Tokens -/

theorem isInt_wrapInt (n : Int) : IsInt (wrapInt n) := by
  unfold IsInt intMax wrapInt
  rw [Int.bmod_def]
  split
  · omega
  · omega

theorem isLine_of_within
    {r : Regex Byte} {p : Byte → Bool} (h : r.Within p) (hp : p newline = false) {s : List Byte}
    (hs : s ∈ r.lang) : IsLine s := by
  intro hnewline
  have hholds := h s hs newline hnewline
  rw [hp] at hholds
  cases hholds

theorem isClock_of_mem {s : List Byte} (hs : s ∈ timePattern.lang) : IsClock s := by
  have hcons : ∀ {r : Regex Byte} {w : List Byte}, w ∈ (Regex.cat digitPattern r).lang →
      ∃ i v, w = digit i :: v ∧ v ∈ r.lang := by
    intro r w hw
    rcases (Regex.mem_lang_cls_cat _ _ _).mp hw with ⟨c, v, rfl, hc, hv⟩
    rcases exists_digit hc with ⟨i, rfl⟩
    exact ⟨i, v, rfl, hv⟩
  have hcolon : ∀ {r : Regex Byte} {w : List Byte},
      w ∈ (Regex.cat (.cls fun c => c = colon) r).lang → ∃ v, w = colon :: v ∧ v ∈ r.lang := by
    intro r w hw
    rcases (Regex.mem_lang_cls_cat _ _ _).mp hw with ⟨c, v, rfl, hc, hv⟩
    exact ⟨v, by rw [of_decide_eq_true hc], hv⟩
  rcases hcons hs with ⟨h₁, v₁, rfl, hv₁⟩
  rcases hcons hv₁ with ⟨h₂, v₂, rfl, hv₂⟩
  rcases hcolon hv₂ with ⟨v₃, rfl, hv₃⟩
  rcases hcons hv₃ with ⟨m₁, v₄, rfl, hv₄⟩
  rcases hcons hv₄ with ⟨m₂, v₅, rfl, hv₅⟩
  rcases hcolon hv₅ with ⟨v₆, rfl, hv₆⟩
  rcases hcons hv₆ with ⟨s₁, v₇, rfl, hv₇⟩
  rcases hcons hv₇ with ⟨s₂, v₈, rfl, hv₈⟩
  rw [Regex.mem_lang_epsilon] at hv₈
  subst hv₈
  exact ⟨⟨(h₁, h₂), (m₁, m₂), (s₁, s₂)⟩, rfl⟩

theorem exists_group {s : List Byte} (hs : s ∈ ConfScanner.octet.lang) :
    ∃ g : Group, s = g.digits := by
  have hopt : ∀ {v : List Byte}, v ∈ (Regex.cls isDigit).opt.lang →
      v.length ≤ 1 ∧ ∀ c ∈ v, isDigit c = true := by
    intro v hv
    rcases (Regex.mem_lang_opt _ _).mp hv with ⟨c, hc, rfl⟩ | rfl
    · exact ⟨le_rfl, by simpa using hc⟩
    · exact ⟨Nat.zero_le _, by simp⟩
  rcases (Regex.mem_lang_cls_cat _ _ _).mp hs with ⟨c, v, rfl, hc, hv⟩
  rcases (Regex.mem_lang_cat _ _ _).mp hv with ⟨v₁, hv₁, v₂, hv₂, rfl⟩
  have h₁ := hopt hv₁
  have h₂ := hopt hv₂
  refine ⟨⟨c :: (v₁ ++ v₂), List.cons_ne_nil _ _, ?_, ?_⟩, rfl⟩
  · rw [List.length_cons, List.length_append]
    omega
  · rw [List.forall_mem_cons, List.forall_mem_append]
    exact ⟨hc, h₁.2, h₂.2⟩

theorem isAddress_of_mem {s : List Byte} (hs : s ∈ ipPattern.lang) : IsAddress s := by
  have hgroup : ∀ {r : Regex Byte} {w : List Byte},
      w ∈ (Regex.cat ConfScanner.octet (.cat ConfScanner.point r)).lang →
        ∃ (g : Group) (v : List Byte), w = g.digits ++ dot :: v ∧ v ∈ r.lang := by
    intro r w hw
    rcases (Regex.mem_lang_cat _ _ _).mp hw with ⟨u, hu, v, hv, rfl⟩
    rcases exists_group hu with ⟨g, rfl⟩
    rcases (Regex.mem_lang_cls_cat _ _ _).mp hv with ⟨c, v, rfl, hc, hv⟩
    exact ⟨g, v, by rw [of_decide_eq_true hc], hv⟩
  rcases hgroup hs with ⟨g₁, v₁, rfl, hv₁⟩
  rcases hgroup hv₁ with ⟨g₂, v₂, rfl, hv₂⟩
  rcases hgroup hv₂ with ⟨g₃, v₃, rfl, hv₃⟩
  rcases exists_group hv₃ with ⟨g₄, rfl⟩
  exact ⟨⟨g₁, g₂, g₃, g₄⟩, rfl⟩

/-- A token and its value. -/
def TokenContent (t : Token) : Prop := HasContent (.ofKind t.kind, t.value)

theorem tokenContent_of_nothing (kind : Option TokenKind) (h : content (.ofKind kind) = .nothing)
    (value : Value) : TokenContent ⟨kind, value⟩ := by
  rw [TokenContent, HasContent, h]
  trivial

theorem rules_content :
    ∀ b ∈ rules, ∀ word ∈ b.rule.whole.lang, ∀ reaction,
      b.rule.action (word.take (word.length - b.rule.contextLength)) = some reaction →
        TokenContent reaction.token := by
  have hkeyword : ∀ (text : String) (kind : TokenKind) (begins : Option StartCondition),
      content (.terminal kind) = .nothing → ∀ word ∈ (keywordRule text kind begins).rule.whole.lang,
        ∀ reaction, (keywordRule text kind begins).rule.action
          (word.take (word.length - (keywordRule text kind begins).rule.contextLength)) =
            some reaction → TokenContent reaction.token := by
    intro text kind begins hkind word _ reaction haction
    cases haction
    exact tokenContent_of_nothing (some kind) hkind _
  have hnewline : ∀ (active : StartCondition → Bool) (begins : Option StartCondition),
      ∀ word ∈ (newlineRule active begins).rule.whole.lang,
        ∀ reaction, (newlineRule active begins).rule.action
          (word.take (word.length - (newlineRule active begins).rule.contextLength)) =
            some reaction → TokenContent reaction.token := by
    intro active begins word _ reaction haction
    cases haction
    exact tokenContent_of_nothing (some .newline) rfl _
  have hvalue : ∀ (pattern : Regex Byte) (kind : TokenKind) (yylval : List Byte → Value),
      (∀ word ∈ pattern.lang, (content (.terminal kind)).Holds (yylval word)) →
        ∀ word ∈ (valueRule pattern kind yylval).rule.whole.lang,
          ∀ reaction, (valueRule pattern kind yylval).rule.action
            (word.take (word.length - (valueRule pattern kind yylval).rule.contextLength)) =
              some reaction → TokenContent reaction.token := by
    intro pattern kind yylval hholds word hword reaction haction
    have hwhole : (valueRule pattern kind yylval).rule.contextLength = 0 := rfl
    rw [hwhole, Nat.sub_zero, List.take_length] at haction
    cases haction
    exact hholds word hword
  simp only [rules, keywordRules, List.cons_append, List.nil_append, List.forall_mem_cons]
  refine ⟨hkeyword _ _ _ rfl, hkeyword _ _ _ rfl, hkeyword _ _ _ rfl, hkeyword _ _ _ rfl,
    hkeyword _ _ _ rfl, hkeyword _ _ _ rfl, hkeyword _ _ _ rfl, hvalue _ _ _ ?_, hvalue _ _ _ ?_,
    hvalue _ _ _ ?_, hvalue _ _ _ ?_, ?_, hvalue _ _ _ ?_, ?_, hnewline _ _, hnewline _ _,
    hnewline _ _, by simp⟩
  · exact fun word hword => ⟨word, isClock_of_mem hword, rfl⟩
  · exact fun word _ => ⟨_, isInt_wrapInt _, rfl⟩
  · exact fun word hword => ⟨word, isAddress_of_mem hword, rfl⟩
  · exact fun word _ => ⟨_, isInt_wrapInt _, rfl⟩
  · intro word _ reaction haction
    cases haction
  · exact fun word hword => ⟨word, isLine_of_within string_within (by decide) hword, rfl⟩
  · intro word hword reaction haction
    rcases (mem_message_lang word).mp hword with ⟨u, hu, rfl⟩
    have hlexeme : (u ++ [newline]).take ((u ++ [newline]).length -
        messageRule.rule.contextLength) = u := by
      rw [List.length_append]
      exact List.take_left' rfl
    rw [hlexeme] at haction
    cases haction
    exact ⟨u, hu, rfl⟩

/-- The scanner stores the member which the parser expects. -/
theorem yylex_content (l : Lexer) : ∀ t ∈ (yylex l).1, TokenContent t := by
  intro t ht
  have hlexed := yylex_lexed l
  rw [Option.mem_def.mp ht] at hlexed
  generalize (yylex l).2 = next at hlexed
  cases hlexed with
  | token _ hstep => exact Reader.step_token_of_lang _ rules_content hstep
  | wouldblock => exact tokenContent_of_nothing (some .wouldblock) rfl _
  | eof => exact tokenContent_of_nothing none rfl _

/-! ## Actions -/

/-- The members which an action other than `$$ = $1` reads, by the numbers of the
symbols.  It gives back no others. -/
def Action.reads : Action → List (ℕ × Content)
  | .first | .accept | .testkey | .queue | .endqueue => []
  | .append => [(1, .line), (2, .line)]
  | .status =>
      [(2, .number), (3, .number), (4, .number), (5, .number), (6, .number), (7, .number),
        (8, .clock), (9, .clock), (10, .clock)]
  | .load => [(2, .number), (3, .number)]
  | .interface => [(2, .line), (3, .address), (4, .address)]
  | .state | .message => [(2, .line)]
  | .packet =>
      [(1, .line), (2, .address), (3, .number), (4, .address), (5, .number), (6, .clock)]
  | .numberedPacket => [(2, .address), (3, .number), (4, .address), (5, .number), (6, .clock)]

/-- What `$$ = $1` reads. -/
def copiedReads (n : Nonterminal) : List (ℕ × Content) :=
  match content (.nonterminal n) with
  | .nothing => []
  | member => [(1, member)]

/-- What `lex_free($2)` reads in the actions of `belch`. -/
def belchReads : List Symbol → List (ℕ × Content)
  | [_, .nonterminal .time] => [(2, .clock)]
  | [_, .nonterminal .string] => [(2, .line)]
  | [_, .terminal .ip] => [(2, .address)]
  | _ => []

/-- The members which the action of a production of `n` reads. -/
def ruleReads (n : Nonterminal) (rule : Rule) : List (ℕ × Content) :=
  match n, rule.action with
  | .belch, _ => belchReads rule.rhs
  | n, .first => copiedReads n
  | _, action => action.reads

/-- An action and the members which it reads in a production. -/
structure TypedAction where
  action : Action
  reads : List (ℕ × Content)
  deriving DecidableEq

def typedGrammar : LR.Grammar TokenKind Nonterminal TypedAction where
  nonterminals := grammar.nonterminals
  rules n := (productions n).map fun rule => ⟨rule.rhs, ⟨rule.action, ruleReads n rule⟩⟩
  start := grammar.start

def typedLinked (w : Surroundings) : LR.Linked TokenKind TypedAction Value Lexer Effects where
  lex := yylex
  perform typed := perform w typed.action
  report := yyerror w
  empty := .undefined

theorem typedGrammar_erase : typedGrammar.map TypedAction.action = grammar := by
  have hrules : (typedGrammar.map TypedAction.action).rules = grammar.rules := by
    funext n
    rw [LR.Grammar.rules_map, typedGrammar, List.map_map]
    exact List.map_id _
  exact congrArg
    (fun rules => (⟨grammar.nonterminals, rules, grammar.start⟩ : LR.Grammar _ _ _)) hrules

theorem erases_typed (w : Surroundings) :
    LR.Erases (typedLinked w) (linked w) TypedAction.action id id id where
  lex l := by
    change yylex l = ((yylex l).1.map id, (yylex l).2)
    rw [Option.map_id_fun]
    rfl
  perform typed values e := by
    rw [List.map_id]
    rfl
  report t e := rfl
  empty := rfl

/-- The member of `$i` has been stored. -/
def Stored (values : List Value) (read : ℕ × Content) : Prop :=
  ∃ v ∈ values[read.1 - 1]?, read.2.Holds v

def Call.WellFormed : Call → Prop
  | .doStatus up force im imItm imTm imFuzz imTo forceTo to_ =>
      (∀ n ∈ [up, force, im, imItm, imTm, imFuzz], IsInt n) ∧
        ∀ s ∈ [imTo, forceTo, to_], IsClock s
  | .doLoad itxtotal irxtotal => IsInt itxtotal ∧ IsInt irxtotal
  | .doInterface interface localIp remoteIp =>
      IsLine interface ∧ IsAddress localIp ∧ IsAddress remoteIp
  | .doState state => IsLine state
  | .doMessage message => IsLine message
  | .doPacket protocol ip1 port1 ip2 port2 ttl =>
      IsLine protocol ∧ IsAddress ip1 ∧ IsInt port1 ∧ IsAddress ip2 ∧ IsInt port2 ∧ IsClock ttl
  | .doQueue | .doEndqueue => True

def Effects.WellFormed (e : Effects) : Prop := ∀ call ∈ e.calls, call.WellFormed

theorem productions_reads (n : Nonterminal) :
    ∀ rule ∈ productions n, ∀ read ∈ ruleReads n rule,
      (rule.rhs[read.1 - 1]?).map content = some read.2 := by
  cases n <;> decide

/-- The call of an action reads nothing else. -/
theorem reads_subset_ruleReads (n : Nonterminal) :
    ∀ rule ∈ productions n, rule.action.reads ⊆ ruleReads n rule := by
  cases n <;> decide

/-- The value of a nonterminal with a type is that of the first symbol, or it is
put together. -/
theorem productions_content (n : Nonterminal) :
    ∀ rule ∈ productions n, content (.nonterminal n) = .nothing ∨ rule.action = .accept ∨
      rule.action = .append ∧ content (.nonterminal n) = .line ∨
      rule.action = .first ∧
        (rule.rhs.head?).map content = some (content (.nonterminal n)) := by
  cases n <;> decide

theorem stored_of_zip
    {rhs : List Symbol} {values : List Value} (hlength : values.length = rhs.length)
    (hvalues : ∀ entry ∈ rhs.zip values, HasContent entry) (read : ℕ × Content)
    (hread : (rhs[read.1 - 1]?).map content = some read.2) : Stored values read := by
  rcases Option.map_eq_some_iff.mp hread with ⟨X, hX, hcontent⟩
  rcases List.getElem?_eq_some_iff.mp hX with ⟨hlt, _⟩
  have hvalue : values[read.1 - 1]? = some values[read.1 - 1] :=
    List.getElem?_eq_getElem (hlength ▸ hlt)
  refine ⟨_, hvalue, ?_⟩
  have hmem : (X, values[read.1 - 1]) ∈ rhs.zip values := by
    apply List.mem_of_getElem? (i := read.1 - 1)
    rw [List.getElem?_zip_eq_some]
    exact ⟨hX, hvalue⟩
  rw [← hcontent]
  exact hvalues _ hmem

section Members

variable {values : List Value} {i : ℕ}

theorem Stored.number (h : Stored values (i, .number)) : IsInt (number values i) := by
  rcases h with ⟨v, hv, n, hn, rfl⟩
  rw [Monitor.number, Option.mem_def.mp hv]
  exact hn

theorem Stored.clock (h : Stored values (i, .clock)) : IsClock (text values i) := by
  rcases h with ⟨v, hv, s, hs, rfl⟩
  rw [Monitor.text, Option.mem_def.mp hv]
  exact hs

theorem Stored.address (h : Stored values (i, .address)) : IsAddress (text values i) := by
  rcases h with ⟨v, hv, s, hs, rfl⟩
  rw [Monitor.text, Option.mem_def.mp hv]
  exact hs

theorem Stored.line (h : Stored values (i, .line)) : IsLine (text values i) := by
  rcases h with ⟨v, hv, s, hs, rfl⟩
  rw [Monitor.text, Option.mem_def.mp hv]
  exact hs

end Members

theorem isLine_cString {s : List Byte} (h : IsLine s) : IsLine (cString s) :=
  fun hnewline => h ((List.takeWhile_subset _) hnewline)

theorem isLine_printInt (n : Int) : IsLine (printInt n) := by
  have hdigits : newline ∉ decimal n.natAbs := notMem_decimal (by decide) _
  unfold IsLine printInt
  split
  · rw [List.mem_cons, not_or]
    exact ⟨by decide, hdigits⟩
  · exact hdigits

theorem Effects.WellFormed.call
    {e : Effects} (h : e.WellFormed) {call : Call} (hcall : call.WellFormed) :
    (e.call call).WellFormed := by
  intro made hmade
  rcases List.mem_append.mp hmade with hbefore | hnow
  · exact h made hbefore
  · rw [List.mem_singleton.mp hnow]
    exact hcall

/-- An action which finds its members makes a well-formed call. -/
theorem perform_wellFormed
    (w : Surroundings) {action : Action} {values : List Value}
    (hstored : ∀ read ∈ action.reads, Stored values read) {e : Effects} (he : e.WellFormed) :
    (perform w action values e).effect.WellFormed := by
  cases action with
  | first | accept | append | testkey => exact he
  | queue | endqueue => exact he.call trivial
  | status =>
      simp only [Action.reads, List.forall_mem_cons] at hstored
      rcases hstored with ⟨h₂, h₃, h₄, h₅, h₆, h₇, h₈, h₉, h₁₀, _⟩
      refine he.call ⟨?_, ?_⟩
      · simp only [List.forall_mem_cons]
        exact ⟨h₂.number, h₃.number, h₄.number, h₅.number, h₆.number, h₇.number, by simp⟩
      · simp only [List.forall_mem_cons]
        exact ⟨h₈.clock, h₉.clock, h₁₀.clock, by simp⟩
  | load =>
      simp only [Action.reads, List.forall_mem_cons] at hstored
      exact he.call ⟨hstored.1.number, hstored.2.1.number⟩
  | interface =>
      simp only [Action.reads, List.forall_mem_cons] at hstored
      exact he.call ⟨hstored.1.line, hstored.2.1.address, hstored.2.2.1.address⟩
  | state =>
      simp only [Action.reads, List.forall_mem_cons] at hstored
      exact he.call hstored.1.line
  | message =>
      simp only [Action.reads, List.forall_mem_cons] at hstored
      exact he.call hstored.1.line
  | packet =>
      simp only [Action.reads, List.forall_mem_cons] at hstored
      rcases hstored with ⟨h₁, h₂, h₃, h₄, h₅, h₆, _⟩
      exact he.call ⟨h₁.line, h₂.address, h₃.number, h₄.address, h₅.number, h₆.clock⟩
  | numberedPacket =>
      simp only [Action.reads, List.forall_mem_cons] at hstored
      rcases hstored with ⟨h₂, h₃, h₄, h₅, h₆, _⟩
      exact he.call ⟨isLine_printInt _, h₂.address, h₃.number, h₄.address, h₅.number, h₆.clock⟩

/-- The value which an action leaves for its left-hand side. -/
theorem perform_content
    (w : Surroundings) {n : Nonterminal} {rule : Rule} (hrule : rule ∈ productions n)
    {values : List Value} (hlength : values.length = rule.rhs.length)
    (hvalues : ∀ entry ∈ rule.rhs.zip values, HasContent entry) (e : Effects)
    (haccepted : (perform w rule.action values e).accepted = false) :
    HasContent (.nonterminal n, (perform w rule.action values e).value) := by
  rcases productions_content n rule hrule with hnothing | haction | ⟨haction, hline⟩ |
    ⟨haction, hhead⟩
  · rw [HasContent, hnothing]
    trivial
  · rw [haction] at haccepted
    cases haccepted
  · have hreads := fun read hread => productions_reads n rule hrule read
      (reads_subset_ruleReads n rule hrule hread)
    rw [haction] at hreads ⊢
    simp only [Action.reads, List.forall_mem_cons] at hreads
    have hfirst := stored_of_zip hlength hvalues (1, .line) hreads.1
    have hsecond := stored_of_zip hlength hvalues (2, .line) hreads.2.1
    rw [HasContent, hline]
    refine ⟨_, ?_, rfl⟩
    rw [IsLine, List.mem_append, not_or]
    exact ⟨isLine_cString hfirst.line, isLine_cString hsecond.line⟩
  · have hstored : Stored values (1, content (.nonterminal n)) := by
      apply stored_of_zip hlength hvalues (1, content (.nonterminal n))
      rw [← hhead, Nat.sub_self, List.head?_eq_getElem?]
    rcases hstored with ⟨v, hv, hholds⟩
    have hfirst : values.headD .undefined = v := by
      have hvalue : values[0]? = some v := hv
      rw [List.headD_eq_head?_getD, List.head?_eq_getElem?, hvalue]
      rfl
    rw [haction, HasContent]
    change (content (.nonterminal n)).Holds (values.headD .undefined)
    rw [hfirst]
    exact hholds

/-! ## Runs -/

abbrev Config := LR.Config TokenKind Nonterminal Value Lexer Effects

structure Declared (c : Config) : Prop where
  entries : ∀ entry ∈ c.entries, HasContent entry
  char : ∀ t ∈ c.char, TokenContent t
  effect : c.effect.WellFormed

abbrev TypedRule := LR.Rule TokenKind Nonterminal TypedAction

theorem exists_rule_of_typed {n : Nonterminal} {typed : TypedRule}
    (h : typed ∈ typedGrammar.rules n) :
    ∃ rule ∈ productions n, typed = ⟨rule.rhs, ⟨rule.action, ruleReads n rule⟩⟩ := by
  rcases List.mem_map.mp h with ⟨rule, hrule, heq⟩
  exact ⟨rule, hrule, heq.symm⟩

section Handle

variable {c : Config} {n : Nonterminal} {typed : TypedRule} {values : List Value}
  {below : List (Symbol × Value)} (hc : Declared c)
  (h : LR.Handle typedGrammar c n typed values below)

include hc h

theorem Declared.contents : ∀ entry ∈ typed.rhs.zip values, HasContent entry := by
  intro entry hentry
  apply hc.entries
  rw [h.entries, List.mem_append, List.mem_reverse]
  exact Or.inl hentry

theorem Declared.stored : ∀ read ∈ typed.action.reads, Stored values read := by
  intro read hread
  apply stored_of_zip h.length (hc.contents h)
  rcases exists_rule_of_typed h.rule_mem with ⟨rule, hrule, rfl⟩
  exact productions_reads n rule hrule read hread

theorem Declared.performed (w : Surroundings) :
    (perform w typed.action.action values c.effect).effect.WellFormed := by
  apply perform_wellFormed w _ hc.effect
  intro read hread
  apply hc.stored h
  rcases exists_rule_of_typed h.rule_mem with ⟨rule, hrule, rfl⟩
  exact reads_subset_ruleReads n rule hrule hread

theorem Declared.left (w : Surroundings)
    (haccepted : (perform w typed.action.action values c.effect).accepted = false) :
    HasContent (.nonterminal n, (perform w typed.action.action values c.effect).value) := by
  have hvalues := hc.contents h
  have hlength := h.length
  rcases exists_rule_of_typed h.rule_mem with ⟨rule, hrule, rfl⟩
  exact perform_content w hrule hlength hvalues c.effect haccepted

end Handle

theorem reported_wellFormed
    {w : Surroundings} {c : Config} (hc : c.effect.WellFormed) {effect : Effects}
    (h : LR.Reported (typedLinked w) c effect) : effect.WellFormed := by
  rcases h with rfl | ⟨t, _, rfl⟩
  · exact hc
  · change (yyerror w t c.effect).1.WellFormed
    unfold yyerror
    split
    · exact hc
    · exact hc

theorem Declared.machine
    {w : Surroundings} {c c' : Config} (hc : Declared c)
    (h : LR.Machine (typedLinked w) typedGrammar c c') : Declared c' := by
  cases h with
  | look => exact ⟨hc.entries, yylex_content c.lexer, hc.effect⟩
  | shift _ hchar =>
      refine ⟨?_, by simp, hc.effect⟩
      rw [List.forall_mem_cons]
      exact ⟨hc.char _ hchar, hc.entries⟩
  | reduce _ hhandle haccepted =>
      refine ⟨?_, hc.char, hc.performed hhandle w⟩
      rw [List.forall_mem_cons]
      refine ⟨hc.left hhandle w haccepted, ?_⟩
      intro entry hentry
      apply hc.entries
      rw [hhandle.entries, List.mem_append]
      exact Or.inr hentry
  | recover _ hentries hchar hreported =>
      refine ⟨?_, ?_, reported_wellFormed hc.effect hreported⟩
      · rw [List.forall_mem_cons]
        refine ⟨trivial, ?_⟩
        intro entry hentry
        apply hc.entries
        rw [hentries, List.mem_append]
        exact Or.inr hentry
      · rcases hchar with rfl | rfl
        · exact hc.char
        · simp

/-- Where the loops around `yyparse` get to between its calls. -/
inductive Between (w : Surroundings) : Lexer → Effects → Prop
  | start (input : List (Arrival Byte)) : Between w (.start input) .none
  | opened {l : Lexer} {e : Effects} (yaccEof : Bool) :
      Between w l e → Between w { l with yaccEof := yaccEof } e
  | again {fuel result : ℕ} {l l' : Lexer} {e e' : Effects} :
      Between w l e → yyparse w fuel l e = some (.returned result l' e') → Between w l' e'

theorem Between.readFifo
    {w : Surroundings} {fuel result : ℕ} {l l' : Lexer} {e e' : Effects} (h : Between w l e)
    (hread : readFifo w fuel l e = some (.returned result l' e')) : Between w l' e' := by
  have hloop : ∀ (n i : ℕ) (l : Lexer) (e : Effects), Between w l e →
      readLoop w fuel n i l e = some (.returned result l' e') → Between w l' e' := by
    intro n
    induction n with
    | zero =>
        intro i l e _ hread
        cases hread
    | succ n ih =>
        intro i l e h hread
        rw [readLoop] at hread
        split at hread
        next result' l₁ e₁ hparse =>
          split at hread
          · exact ih _ _ _ (.again h hparse) hread
          · cases hread
            exact .again h hparse
        next => exact .again h hread
  exact hloop 4 0 _ e (.opened false h) hread

theorem Between.readToEof
    {w : Surroundings} {fuel result : ℕ} {l l' : Lexer} {e e' : Effects} (h : Between w l e)
    (hread : readToEof w fuel l e = some (.returned result l' e')) : Between w l' e' := by
  induction fuel generalizing l e with
  | zero => cases hread
  | succ fuel ih =>
      rw [Monitor.readToEof] at hread
      split at hread
      next result' l₁ e₁ hfifo =>
        split at hread
        · cases hread
          exact h.readFifo hfifo
        · exact ih (h.readFifo hfifo) hread
      next => exact h.readFifo hread

theorem declared_start (l : Lexer) {e : Effects} (he : e.WellFormed) :
    Declared (.start l e) where
  entries := by simp [LR.Config.start]
  char := by simp [LR.Config.start]
  effect := he

/-- A call of `yyparse` after `n` steps. -/
def yyparseAfter (w : Surroundings) (n : ℕ) (l : Lexer) (e : Effects) : Outcome :=
  LR.after grammar (linked w) n (.start grammar .undefined) l e

def effectsOf : Outcome → Effects
  | .running _ _ e | .returned _ _ e | .exited _ e => e

abbrev TypedOutcome :=
  LR.Outcome TokenKind Nonterminal TypedAction Value Lexer Effects

/-- The same call with the members noted which the actions read. -/
def typedAfter (w : Surroundings) (n : ℕ) (l : Lexer) (e : Effects) : TypedOutcome :=
  LR.after typedGrammar (typedLinked w) n (.start typedGrammar .undefined) l e

def TypedOutcome.erase (o : TypedOutcome) : Outcome := o.map TypedAction.action id id id

/-- What the parser is about to do with the values of a right-hand side. -/
def nextAction : TypedOutcome → Option (TypedAction × List Value)
  | .running p _ _ =>
      match typedGrammar.decision p.top (p.char.map LR.Token.kind) with
      | .reduce r => some (r.action, (p.values.take r.length).reverse)
      | _ => none
  | _ => none

theorem typedAfter_erase (w : Surroundings) (n : ℕ) (l : Lexer) (e : Effects) :
    (typedAfter w n l e).erase = yyparseAfter w n l e := by
  have hafter := (erases_typed w).after (G := typedGrammar) n (.start typedGrammar .undefined) l e
  rw [LR.Parser.map_start, typedGrammar_erase] at hafter
  exact hafter.symm

theorem Declared.describes
    {w : Surroundings} {c : Config} (hc : Declared c) {o : TypedOutcome}
    (h : LR.Describes typedGrammar (typedLinked w) c o) :
    (effectsOf o.erase).WellFormed ∧ ∀ typed values, nextAction o = some (typed, values) →
      ∀ read ∈ typed.reads, Stored values read := by
  cases o with
  | running p l e =>
      refine ⟨?_, ?_⟩
      · change e.WellFormed
        rw [h.effect]
        exact hc.effect
      · intro typed values hnext
        rw [nextAction] at hnext
        split at hnext
        next r hdecision =>
          cases hnext
          rcases h.handle (LR.Grammar.decision_reduce hdecision) with ⟨rule, hr, hhandle⟩
          have haction : r.action = rule.action := congrArg LR.Reduction.action hr
          rw [haction]
          exact hc.stored hhandle
        next => cases hnext
  | returned result l e =>
      refine ⟨?_, by simp [nextAction]⟩
      cases h with
      | accepted hhandle _ => exact hc.performed hhandle w
      | returned hreported => exact reported_wellFormed hc.effect hreported
  | exited l e =>
      refine ⟨?_, by simp [nextAction]⟩
      cases h with
      | exited hreported => exact reported_wellFormed hc.effect hreported

theorem typedAfter_declared
    (w : Surroundings) (l : Lexer) {e : Effects} (he : e.WellFormed) (n : ℕ) :
    ∃ c, Declared c ∧ LR.Describes typedGrammar (typedLinked w) c (typedAfter w n l e) :=
  LR.after_invariant (typedLinked w) (fun _ _ hc hmachine _ => hc.machine hmachine)
    (declared_start l he) (LR.represents_start (typedLinked w) l e) n

theorem Between.wellFormed
    {w : Surroundings} {l : Lexer} {e : Effects} (h : Between w l e) : e.WellFormed := by
  induction h with
  | start => simp [Effects.WellFormed, Effects.none]
  | opened _ _ ih => exact ih
  | @again _ _ l _ e e' _ hparse ih =>
      rcases LR.exists_after hparse with ⟨_, n, hn⟩
      rcases typedAfter_declared w l ih n with ⟨c, hc, hdescribes⟩
      have hwellFormed := (hc.describes hdescribes).1
      have heffects : effectsOf (yyparseAfter w n l e) = e' := congrArg effectsOf hn
      rw [typedAfter_erase, heffects] at hwellFormed
      exact hwellFormed

/-- Whatever arrives, the actions read what has been stored, and the calls get
texts and numbers of the right forms. -/
theorem members_stored
    {w : Surroundings} {l : Lexer} {e : Effects} (h : Between w l e) (n : ℕ) :
    (typedAfter w n l e).erase = yyparseAfter w n l e ∧
      (effectsOf (yyparseAfter w n l e)).WellFormed ∧
      ∀ typed values, nextAction (typedAfter w n l e) = some (typed, values) →
        ∀ read ∈ typed.reads, Stored values read := by
  have herase := typedAfter_erase w n l e
  rcases typedAfter_declared w l h.wellFormed n with ⟨c, hc, hdescribes⟩
  rcases hc.describes hdescribes with ⟨hwellFormed, hstored⟩
  rw [herase] at hwellFormed
  exact ⟨herase, hwellFormed, hstored⟩

/-- A time which nothing has asked for is given back, and the state is printed. -/
theorem members_stored_state :
    let after := fun n =>
      typedAfter quiet n (.start [.data 49 (bytes "0:00:01\nSTATE\nUP\n")]) .none
    let belch : List Value := [.undefined, .string (bytes "10:00:01")]
    let blurb : List Value := [.undefined, .string (bytes "UP")]
    nextAction (after 6) = some (⟨.first, [(2, .clock)]⟩, belch) ∧ Stored belch (2, .clock) ∧
      nextAction (after 19) = some (⟨.state, [(2, .line)]⟩, blurb) ∧ Stored blurb (2, .line) := by
  intro after belch blurb
  have hbelch : nextAction (after 6) = some (⟨.first, [(2, .clock)]⟩, belch) := by decide +kernel
  have hblurb : nextAction (after 19) = some (⟨.state, [(2, .line)]⟩, blurb) := by decide +kernel
  exact ⟨hbelch, (members_stored (.start _) 6).2.2 _ _ hbelch _ (by decide),
    hblurb, (members_stored (.start _) 19).2.2 _ _ hblurb _ (by decide)⟩

end Monitor

end DialdTop
