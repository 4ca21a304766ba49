import DialdTop.Derivation
import DialdTop.LexerProgress
import DialdTop.MonitorRuns

/-!
# Rows of the queue

The tokens which the grammar reduces to a packet, and the call which the actions
make of them.  A protocol which is a number is printed from the place of the
first address.
-/

namespace DialdTop

open Scanner

namespace Monitor

/-! ## Tokens of a row -/

/-- The token has the value which the scanner gives to its kind. -/
def Typed (t : Token) : Prop :=
  match t.kind with
  | some .num | some .port => ∃ n, t.value = .number n
  | some .ip | some .string | some .time => ∃ s, t.value = .string s
  | _ => t.value = .undefined

def numberToken (kind : TokenKind) (n : Int) : Token :=
  { kind := some kind, value := .number n }

def textToken (kind : TokenKind) (s : List Byte) : Token :=
  { kind := some kind, value := .string s }

inductive Protocol
  | strings (first : List Byte) (more : List (List Byte))
  | number (n : Int)

structure PacketRow where
  protocol : Protocol
  ip1 : List Byte
  port1 : Int
  ip2 : List Byte
  port2 : Int
  time : List Byte

def Protocol.tokens : Protocol → List Token
  | .strings first more => (first :: more).map (textToken .string)
  | .number n => [numberToken .num n]

/-- The tokens behind the protocol. -/
def PacketRow.addressTokens (row : PacketRow) : List Token :=
  [textToken .ip row.ip1,
    numberToken .port row.port1,
    textToken .ip row.ip2,
    numberToken .port row.port2,
    textToken .time row.time,
    symbolToken .newline]

def PacketRow.tokens (row : PacketRow) : List Token :=
  row.protocol.tokens ++ row.addressTokens

/-- What `strcat` makes of the memory of two strings. -/
def joined (memory s : List Byte) : List Byte := cString memory ++ cString s

/-- The memory of the strings when the last one has been appended. -/
def memoryOf (first : List Byte) (more : List (List Byte)) : List Byte :=
  more.foldl joined first

theorem memoryOf_append (first : List Byte) (more : List (List Byte)) (s : List Byte) :
    memoryOf first (more ++ [s]) = joined (memoryOf first more) s := by
  rw [memoryOf, memoryOf, List.foldl_append]
  rfl

/-- The text of the protocol: its strings one after the other, or its number. -/
def Protocol.text : Protocol → List Byte
  | .strings first more => (first :: more).flatMap cString
  | .number n => printInt n

/-- The call which the actions make. -/
def PacketRow.made (w : Surroundings) (row : PacketRow) : Call :=
  match row.protocol with
  | .strings first more =>
      .doPacket (memoryOf first more) row.ip1 row.port1 row.ip2 row.port2 row.time
  | .number _ =>
      .doPacket (printInt (w.pointer row.ip1)) row.ip1 row.port1 row.ip2 row.port2 row.time

/-- The call has the fields of the row, in their order. -/
def PacketRow.CarriedBy (row : PacketRow) (c : Call) : Prop :=
  ∃ protocol, c = .doPacket protocol row.ip1 row.port1 row.ip2 row.port2 row.time ∧
    cString protocol = row.protocol.text

/-- Strings, or the number which the place of the first address prints as. -/
def PacketRow.Printable (w : Surroundings) (row : PacketRow) : Prop :=
  match row.protocol with
  | .strings _ _ => True
  | .number n => w.pointer row.ip1 = n

/-! ## Derivations of a row -/

/-- The grammar reduces the tokens to the nonterminal. -/
abbrev Reduces (w : Surroundings) (n : Nonterminal) (ts : List Token) (v : Value)
    (e e' : Effects) : Prop :=
  LR.Derives grammar (perform w) [symbol n] ts [v] e e'

section Derivation

variable {w : Surroundings} {Xs : List Symbol} {ts : List Token} {vs : List Value}
  {e e' : Effects}

theorem rules_typed :
    ∀ b ∈ rules, ∀ yytext reaction, b.rule.action yytext = some reaction →
      Typed reaction.token := by
  simp [rules, keywordRules, keywordRule, valueRule, newlineRule, timeRule, numRule, ipRule,
    portRule, blankRule, stringRule, messageRule, token, Typed]

/-- The scanner never returns a token of another type. -/
theorem typed_of_lexes
    {l l' : Lexer} {ts : List Token} (h : LR.Lexes yylex l ts l') : ∀ t ∈ ts, Typed t := by
  induction h with
  | nil => simp
  | skip _ _ ih => exact ih
  | @token l _ _ t _ hlex _ ih =>
      have hlexed := yylex_lexed l
      rw [hlex] at hlexed
      have ht : Typed t := by
        cases hlexed with
        | token _ hstep => exact Reader.step_token _ rules_typed hstep
        | wouldblock => rfl
        | eof => rfl
      rw [List.forall_mem_cons]
      exact ⟨ht, ih⟩

theorem Typed.number
    {t : Token} {kind : TokenKind} (h : Typed t) (hkind : t.kind = some kind)
    (hnumber : kind ∈ [.num, TokenKind.port]) :
    ∃ n, t = numberToken kind n := by
  rcases t with ⟨_, value⟩
  cases hkind
  rcases List.mem_pair.mp hnumber with rfl | rfl
  · rcases h with ⟨n, rfl⟩
    exact ⟨n, rfl⟩
  · rcases h with ⟨n, rfl⟩
    exact ⟨n, rfl⟩

theorem Typed.string
    {t : Token} {kind : TokenKind} (h : Typed t) (hkind : t.kind = some kind)
    (hstring : kind = .ip ∨ kind = .string ∨ kind = .time) :
    ∃ s, t = textToken kind s := by
  rcases t with ⟨_, value⟩
  cases hkind
  rcases hstring with rfl | rfl | rfl
  · rcases h with ⟨s, rfl⟩
    exact ⟨s, rfl⟩
  · rcases h with ⟨s, rfl⟩
    exact ⟨s, rfl⟩
  · rcases h with ⟨s, rfl⟩
    exact ⟨s, rfl⟩

theorem Typed.newline {t : Token} (h : Typed t) (hkind : t.kind = some .newline) :
    t = symbolToken .newline := by
  rcases t with ⟨kind, value⟩
  cases hkind
  rcases h with rfl
  rfl

theorem derives_token
    {n : Nonterminal} {kind : TokenKind}
    (hrules : productions n = [⟨[tokenSymbol kind], .first⟩])
    (h : LR.Derives grammar (perform w) (symbol n :: Xs) ts vs e e') :
    ∃ t ts' vs', ts = t :: ts' ∧ vs = t.value :: vs' ∧ t.kind = some kind ∧
      LR.Derives grammar (perform w) Xs ts' vs' e e' := by
  rcases h.of_single hrules with ⟨ts₁, ts₂, us, vs', e₁, rfl, rfl, hrhs, hlater⟩
  rcases hrhs.of_terminal with ⟨t, ts', us', rfl, rfl, hkind, hnil⟩
  rcases hnil.eq_nil with ⟨rfl, rfl, rfl⟩
  exact ⟨t, ts₂, vs', rfl, rfl, hkind, hlater⟩

theorem derives_time
    (htyped : ∀ t ∈ ts, Typed t)
    (h : LR.Derives grammar (perform w) (symbol .time :: Xs) ts vs e e') :
    ∃ s ts' vs', ts = textToken .time s :: symbolToken .newline :: ts' ∧
      vs = .string s :: vs' ∧ LR.Derives grammar (perform w) Xs ts' vs' e e' := by
  cases h with
  | nonterminal hr hrhs haccepted hlater =>
      rcases List.mem_pair.mp hr with rfl | rfl
      · rcases hrhs.of_terminal with ⟨t, ts', us', rfl, rfl, hkind, hrest⟩
        rcases hrest.of_terminal with ⟨nl, ts'', us'', rfl, rfl, hnewline, hnil⟩
        rcases hnil.eq_nil with ⟨rfl, rfl, rfl⟩
        rcases (htyped t (by simp)).string hkind (by simp) with ⟨s, rfl⟩
        rw [(htyped nl (by simp)).newline hnewline]
        exact ⟨s, _, _, rfl, rfl, hlater⟩
      · -- the parser ends here
        cases haccepted

theorem derives_string
    (htyped : ∀ t ∈ ts, Typed t)
    (h : LR.Derives grammar (perform w) (symbol .string :: Xs) ts vs e e') :
    ∃ first more ts' vs', ts = (first :: more).map (textToken .string) ++ ts' ∧
      vs = .string (memoryOf first more) :: vs' ∧
      LR.Derives grammar (perform w) Xs ts' vs' e e' := by
  generalize hsymbols : symbol .string :: Xs = symbols at h
  induction h generalizing Xs with
  | nil => cases hsymbols
  | terminal => cases hsymbols
  | nonterminal hr hrhs haccepted hlater ih =>
      cases hsymbols
      rcases List.mem_pair.mp hr with rfl | rfl
      · rcases hrhs.of_terminal with ⟨t, ts', us', rfl, rfl, hkind, hnil⟩
        rcases hnil.eq_nil with ⟨rfl, rfl, rfl⟩
        rcases (htyped t (by simp)).string hkind (by simp) with ⟨s, rfl⟩
        exact ⟨s, [], _, _, rfl, rfl, hlater⟩
      · rcases ih (fun t ht => htyped t (List.mem_append_left _ ht)) rfl with
          ⟨first, more, ts', vs', rfl, rfl, hlast⟩
        rcases hlast.of_terminal with ⟨t, ts'', us'', rfl, rfl, hkind, hnil⟩
        rcases hnil.eq_nil with ⟨rfl, rfl, rfl⟩
        rcases (htyped t (by simp)).string hkind (by simp) with ⟨s, rfl⟩
        refine ⟨first, more ++ [s], _, _, ?_, ?_, hlater⟩
        · simp
        · rw [memoryOf_append]
          rfl

theorem derives_addresses
    (htyped : ∀ t ∈ ts, Typed t)
    (h : LR.Derives grammar (perform w)
      [symbol .ip, symbol .port, symbol .ip, symbol .port, symbol .time] ts vs e e') :
    ∃ ip1 port1 ip2 port2 time, (∀ protocol, ts =
        PacketRow.addressTokens ⟨protocol, ip1, port1, ip2, port2, time⟩) ∧
      vs = [.string ip1, .number port1, .string ip2, .number port2, .string time] ∧ e' = e := by
  have hip : productions .ip = [⟨[tokenSymbol .ip], .first⟩] := rfl
  have hport : productions .port = [⟨[tokenSymbol .port], .first⟩] := rfl
  rcases derives_token hip h with ⟨t₁, _, _, rfl, rfl, h₁, h⟩
  rcases derives_token hport h with ⟨t₂, _, _, rfl, rfl, h₂, h⟩
  rcases derives_token hip h with ⟨t₃, _, _, rfl, rfl, h₃, h⟩
  rcases derives_token hport h with ⟨t₄, _, _, rfl, rfl, h₄, h⟩
  rcases derives_time (fun t ht => htyped t (by simp [ht])) h with ⟨time, _, _, rfl, rfl, hnil⟩
  rcases hnil.eq_nil with ⟨rfl, rfl, rfl⟩
  rcases (htyped t₁ (by simp)).string h₁ (by simp) with ⟨ip1, rfl⟩
  rcases (htyped t₂ (by simp)).number h₂ (by simp) with ⟨port1, rfl⟩
  rcases (htyped t₃ (by simp)).string h₃ (by simp) with ⟨ip2, rfl⟩
  rcases (htyped t₄ (by simp)).number h₄ (by simp) with ⟨port2, rfl⟩
  exact ⟨ip1, port1, ip2, port2, time, fun _ => rfl, rfl, rfl⟩

/-- What the grammar reduces to a packet is a row, or a time-out. -/
theorem reduces_packet
    {v : Value} (htyped : ∀ t ∈ ts, Typed t) (h : Reduces w .packet ts v e e') :
    ts.map LR.Token.kind = [some .wouldblock] ∨
      ∃ row : PacketRow, ts = row.tokens ∧ e' = e.call (row.made w) := by
  cases h with
  | nonterminal hr hrhs _ hlater =>
      rcases hlater.eq_nil with ⟨rfl, _, rfl⟩
      rw [List.append_nil] at htyped ⊢
      rcases List.mem_cons.mp hr with rfl | hr
      · rcases derives_string htyped hrhs with ⟨first, more, _, _, rfl, rfl, haddresses⟩
        have hbehind := fun t ht => htyped t (List.mem_append_right _ ht)
        rcases derives_addresses hbehind haddresses with
          ⟨ip1, port1, ip2, port2, time, hts, rfl, rfl⟩
        rw [hts (.strings first more)]
        exact Or.inr ⟨⟨.strings first more, ip1, port1, ip2, port2, time⟩, rfl, rfl⟩
      · rcases List.mem_pair.mp hr with rfl | rfl
        · rcases hrhs.of_terminal with ⟨t, _, _, rfl, rfl, hkind, haddresses⟩
          rcases (htyped t (by simp)).number hkind (by simp) with ⟨n, rfl⟩
          have hbehind := fun t ht => htyped t (List.mem_cons_of_mem _ ht)
          rcases derives_addresses hbehind haddresses with
            ⟨ip1, port1, ip2, port2, time, hts, rfl, rfl⟩
          rw [hts (.number n)]
          exact Or.inr ⟨⟨.number n, ip1, port1, ip2, port2, time⟩, rfl, rfl⟩
        · rcases hrhs.of_terminal with ⟨t, _, _, rfl, rfl, hkind, hnil⟩
          rcases hnil.eq_nil with ⟨rfl, rfl, rfl⟩
          exact Or.inl (by rw [List.map_singleton, hkind])

theorem reduces_of_rhs
    {n : Nonterminal} {r : Rule} (hr : r ∈ productions n) {us : List Value} {e₁ : Effects}
    (hrhs : LR.Derives grammar (perform w) r.rhs ts us e e₁)
    (haccepted : (perform w r.action us e₁).accepted = false) :
    Reduces w n ts (perform w r.action us e₁).value e (perform w r.action us e₁).effect := by
  have h := LR.Derives.nonterminal (G := grammar) hr hrhs haccepted .nil
  rwa [List.append_nil] at h

theorem reduces_strings
    (w : Surroundings) (first : List Byte) (more : List (List Byte)) (e : Effects) :
    Reduces w .string ((first :: more).map (textToken .string))
      (.string (memoryOf first more)) e e := by
  induction more using List.reverseRecOn with
  | nil =>
      have hrhs : LR.Derives grammar (perform w) [tokenSymbol .string] [textToken .string first]
          [.string first] e e := .terminal (t := textToken .string first) rfl .nil
      exact reduces_of_rhs (r := ⟨_, .first⟩) List.mem_cons_self hrhs rfl
  | append_singleton more s ih =>
      have hlast : LR.Derives grammar (perform w) [tokenSymbol .string] [textToken .string s]
          [.string s] e e := .terminal (t := textToken .string s) rfl .nil
      have hrhs := ih.append hlast
      rw [memoryOf_append, ← List.cons_append, List.map_append]
      exact reduces_of_rhs (r := ⟨_, .append⟩) (by decide) hrhs rfl

theorem reduces_token
    {n : Nonterminal} {kind : TokenKind}
    (hrules : productions n = [⟨[tokenSymbol kind], .first⟩]) (w : Surroundings) (v : Value)
    (e : Effects) : Reduces w n [{ kind := some kind, value := v }] v e e := by
  have hrhs : LR.Derives grammar (perform w) [tokenSymbol kind]
      [{ kind := some kind, value := v }] [v] e e :=
    .terminal (t := { kind := some kind, value := v }) rfl .nil
  refine reduces_of_rhs (r := ⟨_, .first⟩) ?_ hrhs rfl
  rw [hrules]
  exact List.mem_cons_self

theorem PacketRow.derives_addresses (w : Surroundings) (row : PacketRow) (e : Effects) :
    LR.Derives grammar (perform w)
      [symbol .ip, symbol .port, symbol .ip, symbol .port, symbol .time] row.addressTokens
      [.string row.ip1, .number row.port1, .string row.ip2, .number row.port2, .string row.time]
      e e := by
  have hline : LR.Derives grammar (perform w) [tokenSymbol .time, tokenSymbol .newline]
      [textToken .time row.time, symbolToken .newline]
      [.string row.time, .undefined] e e :=
    .terminal (t := textToken .time row.time) rfl
      (.terminal (t := symbolToken .newline) rfl .nil)
  have htime : Reduces w .time
      [textToken .time row.time, symbolToken .newline]
      (.string row.time) e e :=
    reduces_of_rhs (r := ⟨_, .first⟩) List.mem_cons_self hline rfl
  have hip := fun s => reduces_token (n := .ip) rfl w (.string s) e
  have hport := fun n => reduces_token (n := .port) rfl w (.number n) e
  exact (hip row.ip1).append ((hport row.port1).append ((hip row.ip2).append
    ((hport row.port2).append htime)))

theorem PacketRow.reduces (w : Surroundings) (row : PacketRow) (e : Effects) :
    ∃ v, Reduces w .packet row.tokens v e (e.call (row.made w)) := by
  have haddresses := row.derives_addresses w e
  rcases row with ⟨protocol, ip1, port1, ip2, port2, time⟩
  cases protocol with
  | strings first more =>
      have hrhs := (reduces_strings w first more e).append haddresses
      exact ⟨_, reduces_of_rhs (r := ⟨_, .packet⟩) List.mem_cons_self hrhs rfl⟩
  | number n =>
      have hnum : LR.Derives grammar (perform w) [tokenSymbol .num]
          [numberToken .num n] [.number n] e e :=
        .terminal (t := numberToken .num n) rfl .nil
      have hrhs := hnum.append haddresses
      exact ⟨_, reduces_of_rhs (r := ⟨_, .numberedPacket⟩) (by decide) hrhs rfl⟩

end Derivation

/-! ## Runs of the parser -/

/-- The states when the strings of a protocol have been read. -/
def named : Stack :=
  top [symbol .blurbs, symbol .queue, symbol .packets, symbol .string] :: settled true

def addressKinds : List TokenKind := [.ip, .port, .ip, .port, .time, .newline]

/-- The moves for the tokens behind the protocol. -/
def rowMoves (action : Action) : List Move :=
  addressMoves ++ addressMoves ++ lineMoves .time .first ++
    [reduceMove .packet 6 action, reduceMove .packets 2 .first]

theorem moves_first_string :
    LR.moves grammar 100 (settled true) (some (some .string)) [] =
      some ([.shift, reduceMove .string 1 .first], named) := by
  decide +kernel

theorem moves_later_string :
    LR.moves grammar 100 named none [some .string] =
      some ([.shift, reduceMove .string 2 .append], named) := by
  decide +kernel

theorem moves_named_row :
    LR.moves grammar 100 named none (addressKinds.map some) =
      some (rowMoves .packet, settled true) := by
  decide +kernel

theorem moves_numbered_row :
    LR.moves grammar 100 (settled true) (some (some .num)) (addressKinds.map some) =
      some (.shift :: rowMoves .numberedPacket, settled true) := by
  decide +kernel

theorem opening_numbered :
    grammar.decision ((unsettled true).headD []) (some (some .num)) =
      .reduce (opening true) := by
  decide +kernel

/-- The parser with the states and the values, between two tokens. -/
def standing (states : Stack) (values : List Value) : Parser :=
  { states := states, values := values, char := none, errStatus := 0 }

section Run

variable (w : Surroundings) {l l' : Lexer}

theorem reaches_strings
    (memory : List Byte) (more : List (List Byte)) (values : List Value)
    (hlexes : LR.Lexes yylex l (more.map (textToken .string)) l') (e : Effects) :
    LR.Reaches grammar (linked w) (standing named (.string memory :: values)) l e
      (.running (standing named (.string (memoryOf memory more) :: values)) l' e) := by
  induction more generalizing memory l with
  | nil =>
      cases hlexes
      exact .refl
  | cons s more ih =>
      have hsplit : LR.Lexes yylex l ([textToken .string s] ++ more.map (textToken .string)) l' :=
        hlexes
      rcases hsplit.of_append with ⟨mid, hfirst, hlater⟩
      have hmoves : LR.moves grammar 100 named ((none : Option Token).map LR.Token.kind)
          ([textToken .string s].map LR.Token.kind) = some (_, named) := moves_later_string
      have hstep : LR.Reaches grammar (linked w) (standing named (.string memory :: values)) l e
          (.running (standing named (.string (joined memory s) :: values)) mid e) :=
        LR.reaches_of_moves hmoves hfirst _ e trivial
      exact hstep.trans (ih (joined memory s) hlater)

theorem reaches_named_row
    (row : PacketRow) (memory : List Byte) (a b c d : Value)
    (hlexes : LR.Lexes yylex l row.addressTokens l') (e : Effects) :
    LR.Reaches grammar (linked w) (standing named [.string memory, a, b, c, d]) l e
      (.running (standing (settled true) [a, b, c, d]) l'
        (e.call (.doPacket memory row.ip1 row.port1 row.ip2 row.port2 row.time))) := by
  have hmoves : LR.moves grammar 100 named ((none : Option Token).map LR.Token.kind)
      (row.addressTokens.map LR.Token.kind) = some (_, settled true) := moves_named_row
  exact LR.reaches_of_moves hmoves hlexes _ e trivial

/-- A row is read from wherever the parser may stand in a queue. -/
theorem PacketRow.reaches
    {p : Parser} (h : AtBoundary p true) (row : PacketRow)
    (hlexes : LR.Lexes yylex l row.tokens l') (e : Effects) :
    ∃ p', AtBoundary p' true ∧
      LR.Reaches grammar (linked w) p l e (.running p' l' (e.call (row.made w))) := by
  have hboundary : ∀ a b c d : Value,
      AtBoundary (standing (settled true) [a, b, c, d]) true := fun _ _ _ _ =>
    ⟨Or.inl rfl, rfl, rfl, rfl⟩
  rcases row with ⟨protocol, ip1, port1, ip2, port2, time⟩
  cases protocol with
  | strings first more =>
      rcases reaches_opened w h (t := textToken .string first) opening_in_queue hlexes e with
        ⟨values, l₁, hvalues, hlater, hopened⟩
      rcases LR.Lexes.of_append hlater with ⟨mid, hmore, haddresses⟩
      match values, hvalues with
      | [a, b, c, d], _ =>
          have hmoves : LR.moves grammar 100 (settled true)
              ((some (textToken .string first)).map LR.Token.kind)
              (([] : List Token).map LR.Token.kind) = some (_, named) := moves_first_string
          have hfirst : LR.Reaches grammar (linked w)
              { states := settled true, values := [a, b, c, d]
                char := some (textToken .string first), errStatus := 0 } l₁ e
              (.running (standing named [.string first, a, b, c, d]) l₁ e) :=
            LR.reaches_of_moves hmoves .nil _ e trivial
          have hstrings := reaches_strings w first more [a, b, c, d] hmore e
          have hrow := reaches_named_row w ⟨.strings first more, ip1, port1, ip2, port2, time⟩
            (memoryOf first more) a b c d haddresses e
          exact ⟨_, hboundary a b c d,
            ((hopened.trans hfirst).trans hstrings).trans hrow⟩
  | number n =>
      rcases reaches_opened w h (t := numberToken .num n) opening_numbered hlexes e with
        ⟨values, l₁, hvalues, hlater, hopened⟩
      match values, hvalues with
      | [a, b, c, d], _ =>
          let row : PacketRow := ⟨.number n, ip1, port1, ip2, port2, time⟩
          have hmoves : LR.moves grammar 100 (settled true)
              ((some (numberToken .num n)).map LR.Token.kind)
              (row.addressTokens.map LR.Token.kind) = some (_, settled true) := moves_numbered_row
          have hrow : LR.Reaches grammar (linked w)
              { states := settled true, values := [a, b, c, d]
                char := some (numberToken .num n), errStatus := 0 } l₁ e
              (.running (standing (settled true) [a, b, c, d]) l' (e.call (row.made w))) :=
            LR.reaches_of_moves hmoves hlater _ e trivial
          exact ⟨_, hboundary a b c d, hopened.trans hrow⟩

end Run

/-! ## Printed numbers -/

theorem decimalValue_decimal (n : ℕ) : decimalValue (decimal n) = n := by
  have hread : decimalValue (decimal n) = Nat.ofDigitChars 10 (Nat.toDigits 10 n) 0 := by
    rw [decimalValue, decimal, List.foldl_map, Nat.ofDigitChars_eq_foldl]
    apply List.foldl_ext
    intro m c hc
    rw [(toNat_toUInt8_of_isDigit (Nat.isDigit_of_mem_toDigits (by omega) le_rfl hc)).1]
    rfl
  rw [hread, Nat.ofDigitChars_ten_toDigits]

theorem decimal_injective : Function.Injective decimal := by
  intro m n heq
  rw [← decimalValue_decimal m, heq, decimalValue_decimal]

theorem printInt_injective : Function.Injective printInt := by
  intro m n heq
  have hminus : ∀ i : ℕ, (45 : Byte) ∉ decimal i := notMem_decimal (by decide)
  unfold printInt at heq
  split at heq
  next hm =>
    split at heq
    next hn =>
      have habs := decimal_injective (List.cons.inj heq).2
      omega
    next =>
      exact absurd (heq ▸ List.mem_cons_self) (hminus n.natAbs)
  next hm =>
    split at heq
    next =>
      exact absurd (heq.symm ▸ List.mem_cons_self) (hminus m.natAbs)
    next hn =>
      have habs := decimal_injective heq
      omega

/-! ## Fields of a row -/

theorem cString_joined (memory s : List Byte) :
    cString (joined memory s) = cString memory ++ cString s := by
  apply cString_of_notMem
  rw [joined, List.mem_append, not_or]
  exact ⟨nul_notMem_cString memory, nul_notMem_cString s⟩

theorem cString_memoryOf (first : List Byte) (more : List (List Byte)) :
    cString (memoryOf first more) = (first :: more).flatMap cString := by
  induction more using List.reverseRecOn with
  | nil => simp [memoryOf]
  | append_singleton more s ih =>
      rw [memoryOf_append, cString_joined, ih, ← List.cons_append, List.flatMap_append,
        List.flatMap_singleton]

/-- The call has the fields of the row if and only if the protocol is printable. -/
theorem PacketRow.carriedBy_made_iff (w : Surroundings) (row : PacketRow) :
    row.CarriedBy (row.made w) ↔ row.Printable w := by
  rcases row with ⟨protocol, ip1, port1, ip2, port2, time⟩
  cases protocol with
  | strings first more =>
      refine iff_of_true ⟨memoryOf first more, rfl, cString_memoryOf first more⟩ trivial
  | number n =>
      constructor
      · rintro ⟨protocol, hcall, htext⟩
        injection hcall with hprotocol
        rw [← hprotocol, cString_of_notMem (nul_notMem_printInt _)] at htext
        exact printInt_injective htext
      · intro hprints
        refine ⟨_, rfl, ?_⟩
        rw [cString_of_notMem (nul_notMem_printInt _)]
        exact congrArg printInt hprints

/-- A sequence of tokens which reduces to a packet, other than a time-out, is a row;
its fields reach `do_packet` if and only if the protocol is printable. -/
theorem packetRow_iff
    {w : Surroundings} {ts : List Token} {v : Value} {e e' : Effects}
    (hreduces : Reduces w .packet ts v e e') (htyped : ∀ t ∈ ts, Typed t)
    (hrow : ts.map LR.Token.kind ≠ [some .wouldblock]) :
    ∃ (row : PacketRow) (c : Call), ts = row.tokens ∧ e' = e.call c ∧
      (∀ p l l', AtBoundary p true → LR.Lexes yylex l ts l' →
        ∃ p', AtBoundary p' true ∧ LR.Reaches grammar (linked w) p l e (.running p' l' e')) ∧
      (row.CarriedBy c ↔ row.Printable w) := by
  rcases reduces_packet htyped hreduces with hblock | ⟨row, rfl, rfl⟩
  · exact absurd hblock hrow
  · refine ⟨row, row.made w, rfl, rfl, ?_, row.carriedBy_made_iff w⟩
    intro p l l' hp hlexes
    exact row.reaches w hp hlexes e

/-- Every pointer prints as the same number. -/
def Surroundings.pointing (place : Int) : Surroundings where
  lexTestkey := fun _ => false
  pointer := fun _ => place
  quitIfParseError := false

/-- A packet of the protocol with the number 17. -/
def numberedRow : PacketRow where
  protocol := .number 17
  ip1 := bytes "10.0.0.1"
  port1 := 53
  ip2 := bytes "10.0.0.2"
  port2 := 1024
  time := bytes "00:00:30"

theorem packetRow_iff_numbered :
    ∃ (row : PacketRow) (c : Call), numberedRow.tokens = row.tokens ∧
      Effects.none.call (numberedRow.made (.pointing 17)) = Effects.none.call c ∧
      (row.CarriedBy c ↔ row.Printable (.pointing 17)) := by
  have htyped : ∀ t ∈ numberedRow.tokens, Typed t := by
    simp [numberedRow, PacketRow.tokens, Protocol.tokens, PacketRow.addressTokens, Typed,
      numberToken, textToken, symbolToken]
  rcases numberedRow.reduces (.pointing 17) .none with ⟨v, hreduces⟩
  rcases packetRow_iff hreduces htyped (by decide) with ⟨row, c, hrow, hcall, _, hcarried⟩
  exact ⟨row, c, hrow, hcall, hcarried⟩

/-- The protocol with the number 17 is printed as the place of an address. -/
theorem exists_misprinted_protocol :
    ∃ w v e', Reduces w .packet numberedRow.tokens v .none e' ∧
      e'.calls = [.doPacket (bytes "134515000") (bytes "10.0.0.1") 53 (bytes "10.0.0.2") 1024
        (bytes "00:00:30")] ∧
      numberedRow.protocol.text = bytes "17" := by
  rcases numberedRow.reduces (.pointing 134515000) .none with ⟨v, hreduces⟩
  exact ⟨_, v, _, hreduces, by decide +kernel, by decide +kernel⟩

end Monitor

end DialdTop
