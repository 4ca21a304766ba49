import DialdTop.MonitorParsing

/-!
# Runs of the parser

A call of `yyparse` takes in some of the pieces in front of the scanner, and the
loops around it take in all of them.
-/

namespace DialdTop

open Scanner

namespace Monitor

/-! ## Where the scanner stands -/

/-- The texts up to the time-outs. -/
def texts : List Piece → List Byte × List (List Byte)
  | [] => ([], [])
  | .part p :: xs => (p.text ++ (texts xs).1, (texts xs).2)
  | .timeout :: xs => ([], (texts xs).1 :: (texts xs).2)

structure Stands (l : Lexer) (m : Mode StartCondition) (text : List Byte)
    (later : List (List Byte)) : Prop where
  consistent : l.reader.Consistent
  segmented : l.reader.segmented = { mode := m, text := text, later := later }

/-- The scanner is at the beginning of a line, in front of the pieces. -/
def At (l : Lexer) (xs : List Piece) : Prop :=
  Stands l lineStart (texts xs).1 (texts xs).2

theorem Stands.step
    {l : Lexer} {m : Mode StartCondition} {text : List Byte} {later : List (List Byte)}
    (h : Stands l m text later) :
    let stepped := Segmented.step isEndOfLine rules
      { mode := m, text := text, later := later }
    ∃ r : Reader Byte StartCondition, l.reader.step isEndOfLine rules = (stepped.1, r) ∧
      r.Consistent ∧ r.segmented = stepped.2 := by
  have hstep := Reader.step_segmented isEndOfLine rules_live h.consistent
  rw [h.segmented] at hstep
  exact ⟨_, Prod.ext hstep.1 rfl, hstep.2.2, hstep.2.1⟩

theorem Scanned.lexes
    {m m' : Mode StartCondition} {s s' : List Byte} {ts : List Token}
    (hscanned : Scanned m s ts m' s') {l : Lexer} {later : List (List Byte)}
    (h : Stands l m s later) :
    ∃ l', LR.Lexes yylex l ts l' ∧ Stands l' m' s' later ∧ l'.yaccEof = l.yaccEof := by
  induction hscanned generalizing l with
  | refl => exact ⟨l, .nil, h, rfl⟩
  | token hmatch _ ih =>
      rcases h.step with ⟨r, hstep, hconsistent, hsegmented⟩
      simp only [Segmented.step, hmatch] at hstep hsegmented
      rcases ih (l := { l with reader := r }) ⟨hconsistent, hsegmented⟩ with
        ⟨l', hlexes, hstands, heof⟩
      exact ⟨l', .token (by rw [yylex, hstep]) hlexes, hstands, heof⟩
  | silent hmatch _ ih =>
      rcases h.step with ⟨r, hstep, hconsistent, hsegmented⟩
      simp only [Segmented.step, hmatch] at hstep hsegmented
      rcases ih (l := { l with reader := r }) ⟨hconsistent, hsegmented⟩ with
        ⟨l', hlexes, hstands, heof⟩
      exact ⟨l', .skip (by rw [yylex, hstep]) hlexes, hstands, heof⟩

theorem At.piece {l : Lexer} {x : Piece} {xs : List Piece} (h : At l (x :: xs)) :
    ∃ l', LR.Lexes yylex l x.tokens l' ∧ At l' xs ∧ l'.yaccEof = l.yaccEof := by
  cases x with
  | part p => exact (scanned_part p (texts xs).1).lexes h
  | timeout =>
      rcases h.step with ⟨r, hstep, hconsistent, hsegmented⟩
      simp only [texts, Segmented.step] at hstep hsegmented
      exact ⟨{ l with reader := r }, .token (by rw [yylex, hstep]) .nil,
        ⟨hconsistent, hsegmented⟩, rfl⟩

def endOfFile : Token := { kind := none, value := .undefined }

theorem At.eof {l : Lexer} (h : At l []) :
    ∃ l', yylex l = (some endOfFile, l') ∧ At l' [] ∧ l'.yaccEof = true := by
  rcases h.step with ⟨r, hstep, hconsistent, hsegmented⟩
  simp only [texts, Segmented.step] at hstep hsegmented
  refine ⟨{ reader := r, yaccEof := true }, ?_, ⟨hconsistent, hsegmented⟩, rfl⟩
  rw [yylex, hstep]
  rfl

/-! ## Where the parser stands -/

abbrev Parser := LR.Parser TokenKind Nonterminal Action Value

structure AtBoundary (p : Parser) (inQueue : Bool) : Prop where
  states : p.states = settled inQueue ∨ p.states = unsettled inQueue
  values : p.values.length = p.states.length
  char : p.char = none
  errStatus : p.errStatus = 0

theorem boundary_looks (inQueue : Bool) :
    grammar.decision ((settled inQueue).headD []) none = .look ∧
      grammar.decision ((unsettled inQueue).headD []) none = .look := by
  cases inQueue with
  | true => decide +kernel
  | false => decide +kernel

theorem AtBoundary.looks {p : Parser} {inQueue : Bool} (h : AtBoundary p inQueue) :
    grammar.decision p.top none = .look := by
  rcases h.states with hstates | hstates
  · rw [LR.Parser.top, hstates]
    exact (boundary_looks inQueue).1
  · rw [LR.Parser.top, hstates]
    exact (boundary_looks inQueue).2

theorem atBoundary_start : AtBoundary (LR.Parser.start grammar .undefined) false where
  states := Or.inr rfl
  values := rfl
  char := rfl
  errStatus := rfl

/-- The empty list which the next token decides on. -/
def opening (inQueue : Bool) : LR.Reduction Nonterminal Action where
  lhs := if inQueue then .packets else .blurbs
  length := 0
  action := .first

theorem opening_between (kind : Option TokenKind) :
    grammar.decision (top []) (some kind) = .reduce (opening false) := by
  have hkinds : ∀ k : TokenKind, grammar.decision (top []) (some (some k)) =
      .reduce (opening false) := by
    intro k
    cases k <;> decide +kernel
  cases kind with
  | none => decide +kernel
  | some k => exact hkinds k

theorem opening_in_queue :
    grammar.decision ((unsettled true).headD []) (some (some .string)) =
      .reduce (opening true) := by
  decide +kernel

theorem Follows.opening
    {inQueue inQueue' : Bool} {x : Piece} (h : Follows inQueue x inQueue') :
    grammar.decision ((unsettled inQueue).headD []) (some (some x.kind)) =
      .reduce (Monitor.opening inQueue) := by
  cases h with
  | timeout =>
      cases inQueue with
      | true => decide +kernel
      | false => exact opening_between _
  | report r => exact opening_between _
  | queue => exact opening_between _
  | packet p => exact opening_in_queue
  | endqueue => decide +kernel

/-- The parser has read a token and is in the settled states. -/
theorem reaches_settled
    (w : Surroundings) {p : Parser} {inQueue : Bool} (h : AtBoundary p inQueue) {t : Token}
    (hopening : grammar.decision ((unsettled inQueue).headD []) (some t.kind) =
      .reduce (opening inQueue)) (l : Lexer) (e : Effects) :
    ∃ values : List Value, values.length = (settled inQueue).length ∧
      LR.Reaches grammar (linked w) { p with char := some t } l e
        (.running
          { states := settled inQueue, values := values, char := some t, errStatus := 0 } l e) := by
  rcases p with ⟨states, values, char, errStatus⟩
  have herr : errStatus = 0 := h.errStatus
  have hlength : values.length = states.length := h.values
  subst herr
  rcases h.states with hstates | hstates
  · have hstates' : states = settled inQueue := hstates
    subst hstates'
    exact ⟨values, hlength, .refl⟩
  · have hstates' : states = unsettled inQueue := hstates
    subst hstates'
    refine ⟨.undefined :: values, ?_, .step ?_ .refl⟩
    · rw [List.length_cons, hlength]
      cases inQueue <;> rfl
    · rw [LR.step, LR.Parser.top, Option.map_some, hopening]
      cases inQueue <;> rfl

/-- The next token has been read and the parser is in the settled states. -/
theorem reaches_opened
    (w : Surroundings) {p : Parser} {inQueue : Bool} (h : AtBoundary p inQueue) {t : Token}
    {ts : List Token}
    (hopening : grammar.decision ((unsettled inQueue).headD []) (some t.kind) =
      .reduce (opening inQueue)) {l l' : Lexer} (hlexes : LR.Lexes yylex l (t :: ts) l')
    (e : Effects) :
    ∃ (values : List Value) (l₁ : Lexer), values.length = (settled inQueue).length ∧
      LR.Lexes yylex l₁ ts l' ∧
      LR.Reaches grammar (linked w) p l e
        (.running { states := settled inQueue, values := values, char := some t, errStatus := 0 }
          l₁ e) := by
  have hread : ∃ l₁, LR.Reaches grammar (linked w) p l e
      (.running { p with char := some t } l₁ e) ∧ LR.Lexes yylex l₁ ts l' :=
    LR.reaches_token h.looks h.char hlexes e
  rcases hread with ⟨l₁, hread, hlater⟩
  rcases reaches_settled w h hopening l₁ e with ⟨values, hvalues, hsettled⟩
  exact ⟨values, l₁, hvalues, hlater, hread.trans hsettled⟩

/-! ## Pieces -/

/-- The effects differ by the calls alone. -/
def Performs (e : Effects) (calls : List Call) (e' : Effects) : Prop :=
  e'.calls = e.calls ++ calls ∧ e'.complaints = e.complaints

theorem reaches_piece
    (w : Surroundings) {p : Parser} {inQueue inQueue' : Bool} (h : AtBoundary p inQueue)
    {x : Piece} (hx : Follows inQueue x inQueue') {l l' : Lexer}
    (hlexes : LR.Lexes yylex l x.tokens l') (e : Effects) :
    ∃ e', Performs e x.calls e' ∧
      ((∃ p', AtBoundary p' inQueue' ∧
        LR.Reaches grammar (linked w) p l e (.running p' l' e')) ∨
      (inQueue' = false ∧ LR.Reaches grammar (linked w) p l e (.returned 0 l' e'))) := by
  rcases x.tokens_eq with ⟨t, ts, htokens, hkind, hkinds⟩
  rw [htokens] at hlexes
  have hopening := hx.opening
  rw [← hkind] at hopening
  rcases reaches_opened w h hopening hlexes e with ⟨values, l₁, hvalues, hlater, hopened⟩
  rcases hx.play w hvalues e with ⟨accepted, values', e', hplay, hvalues', hcalls, hsame, hend⟩
  have hmoves := hx.moves
  rw [← hkind, ← hkinds] at hmoves
  rw [htokens] at hplay
  have hcomplete : (LR.play (linked w) (movesFor inQueue x.kind)
      (((some t).toList ++ ts).map LR.Token.value) values e).Complete := by
    change (LR.play (linked w) (movesFor inQueue x.kind)
      ((t :: ts).map LR.Token.value) values e).Complete
    rw [hplay]
    cases accepted with
    | true => rfl
    | false => trivial
  have hrun : LR.Reaches grammar (linked w)
      { states := settled inQueue, values := values, char := some t, errStatus := 0 } l₁ e
      ((LR.play (linked w) (movesFor inQueue x.kind)
        ((t :: ts).map LR.Token.value) values e).outcome (x.states inQueue') l') :=
    LR.reaches_of_moves hmoves hlater values e hcomplete
  rw [hplay] at hrun
  have hwhole := hopened.trans hrun
  refine ⟨e', ⟨hcalls, hsame⟩, ?_⟩
  cases accepted with
  | true => exact Or.inr ⟨hend rfl, hwhole⟩
  | false =>
      refine Or.inl ⟨_, ⟨?_, hvalues', rfl, rfl⟩, hwhole⟩
      change x.states inQueue' = _ ∨ x.states inQueue' = _
      unfold Piece.states
      by_cases hqueue : x.kind = .queue
      · rw [if_pos hqueue]
        exact Or.inr rfl
      · rw [if_neg hqueue]
        exact Or.inl rfl

/-! ## Calls of `yyparse` -/

/-- The pieces make up whole records. -/
inductive Nested : Bool → List Piece → Prop
  | nil : Nested false []
  | cons {inQueue inQueue' : Bool} {x : Piece} {xs : List Piece} :
      Follows inQueue x inQueue' → Nested inQueue' xs → Nested inQueue (x :: xs)

def calls (xs : List Piece) : List Call := xs.flatMap Piece.calls

/-- What a call of the parser makes of the pieces `xs`: some of them are left,
or all have been taken in and the end of the file has been seen. -/
structure Consumes (xs : List Piece) (l : Lexer) (e : Effects) (l' : Lexer) (e' : Effects)
    (rest : List Piece) : Prop where
  at_ : At l' rest
  nested : Nested false rest
  calls : e'.calls ++ calls rest = e.calls ++ calls xs
  complaints : e'.complaints = e.complaints
  progress : rest = [] ∧ l'.yaccEof = true ∨
    rest.length < xs.length ∧ l'.yaccEof = l.yaccEof

theorem reaches_eof
    (w : Surroundings) {p : Parser} (h : AtBoundary p false) {l : Lexer} (hl : At l [])
    (e : Effects) :
    ∃ l', At l' [] ∧ l'.yaccEof = true ∧
      LR.Reaches grammar (linked w) p l e (.returned 0 l' e) := by
  rcases hl.eof with ⟨l', hlex, hl', heof⟩
  have hopening : grammar.decision ((unsettled false).headD []) (some endOfFile.kind) =
      .reduce (opening false) := opening_between none
  rcases reaches_opened w h hopening (.token hlex .nil) e with ⟨values, _, _, hend, hopened⟩
  cases hend
  refine ⟨l', hl', heof, hopened.trans ?_⟩
  have hdecision : grammar.decision ((settled false).headD []) (some none) = .accept := by
    decide +kernel
  have haccept : LR.step grammar (linked w)
      { states := settled false, values := values, char := some endOfFile, errStatus := 0 } l' e =
      .returned 0 l' e := by
    have hkind : endOfFile.kind = none := rfl
    rw [LR.step, LR.Parser.top, Option.map_some, hkind, hdecision]
  rw [← haccept]
  exact .done

theorem parser_consumes
    (w : Surroundings) {p : Parser} {inQueue : Bool} {xs : List Piece} (h : AtBoundary p inQueue)
    (hxs : Nested inQueue xs) {l : Lexer} (hl : At l xs) (e : Effects) :
    ∃ l' e' rest, LR.Reaches grammar (linked w) p l e (.returned 0 l' e') ∧
      Consumes xs l e l' e' rest := by
  induction hxs generalizing p l e with
  | nil =>
      rcases reaches_eof w h hl e with ⟨l', hl', heof, hreaches⟩
      exact ⟨l', e, [], hreaches, hl', .nil, rfl, rfl, Or.inl ⟨rfl, heof⟩⟩
  | @cons inQueue inQueue' x xs hx hxs ih =>
      rcases hl.piece with ⟨l₁, hlexes, hl₁, heof⟩
      rcases reaches_piece w h hx hlexes e with ⟨e₁, hperforms, hgoing | hended⟩
      · rcases hgoing with ⟨p', hp', hreaches⟩
        rcases ih hp' hl₁ e₁ with ⟨l', e', rest, hrest, hconsumes⟩
        refine ⟨l', e', rest, hreaches.trans hrest, hconsumes.at_, hconsumes.nested, ?_, ?_, ?_⟩
        · rw [hconsumes.calls, hperforms.1, List.append_assoc]
          rfl
        · rw [hconsumes.complaints, hperforms.2]
        · rcases hconsumes.progress with hend | ⟨hshorter, hsame⟩
          · exact Or.inl hend
          · exact Or.inr ⟨by rw [List.length_cons]; omega, hsame.trans heof⟩
      · rcases hended with ⟨rfl, hreaches⟩
        refine ⟨l₁, e₁, xs, hreaches, hl₁, hxs, ?_, hperforms.2, Or.inr ⟨?_, heof⟩⟩
        · rw [hperforms.1, List.append_assoc]
          rfl
        · rw [List.length_cons]
          omega

theorem yyparse_consumes
    (w : Surroundings) {xs : List Piece} (hxs : Nested false xs) {l : Lexer} (hl : At l xs)
    (e : Effects) :
    ∃ l' e' rest n, (∀ fuel, n ≤ fuel → yyparse w fuel l e = some (.returned 0 l' e')) ∧
      Consumes xs l e l' e' rest := by
  rcases parser_consumes w atBoundary_start hxs hl e with ⟨l', e', rest, hreaches, hconsumes⟩
  rcases hreaches.run trivial with ⟨n, hn⟩
  exact ⟨l', e', rest, n, hn, hconsumes⟩

/-! ## The loops -/

/-- All pieces have been taken in. -/
structure Finishes (xs : List Piece) (e : Effects) (l' : Lexer) (e' : Effects) : Prop where
  eof : l'.yaccEof = true
  calls : e'.calls = e.calls ++ calls xs
  complaints : e'.complaints = e.complaints

theorem Consumes.finishes
    {xs rest : List Piece} {l l' l'' : Lexer} {e e' e'' : Effects}
    (hfirst : Consumes xs l e l' e' rest) (hlater : Finishes rest e' l'' e'') :
    Finishes xs e l'' e'' where
  eof := hlater.eof
  calls := hlater.calls.trans hfirst.calls
  complaints := hlater.complaints.trans hfirst.complaints

theorem Consumes.finished
    {xs : List Piece} {l l' : Lexer} {e e' : Effects} (h : Consumes xs l e l' e' [])
    (heof : l'.yaccEof = true) : Finishes xs e l' e' where
  eof := heof
  calls := by
    have hcalls := h.calls
    rwa [Monitor.calls, List.flatMap_nil, List.append_nil] at hcalls
  complaints := h.complaints

theorem parseToEof_finishes
    (w : Surroundings) {xs : List Piece} (hxs : Nested false xs) {l : Lexer} (hl : At l xs)
    (heof : l.yaccEof = false) (e : Effects) :
    ∃ l' e' n, (∀ fuel, n ≤ fuel → parseToEof w fuel l e = some (.returned 0 l' e')) ∧
      Finishes xs e l' e' := by
  induction hlength : xs.length using Nat.strong_induction_on generalizing xs l e with
  | _ k ih =>
      rcases yyparse_consumes w hxs hl e with ⟨l₁, e₁, rest, n, hn, hconsumes⟩
      rcases hconsumes.progress with ⟨rfl, hend⟩ | ⟨hshorter, hsame⟩
      · refine ⟨l₁, e₁, n + 1, ?_, hconsumes.finished hend⟩
        intro fuel hfuel
        cases fuel with
        | zero => omega
        | succ fuel => simp only [parseToEof, hn fuel (by omega), hend, if_true]
      · rw [heof] at hsame
        rcases ih rest.length (by omega) hconsumes.nested hconsumes.at_ hsame e₁ rfl with
          ⟨l', e', m, hm, hfinishes⟩
        refine ⟨l', e', n + m + 1, ?_, hconsumes.finishes hfinishes⟩
        intro fuel hfuel
        cases fuel with
        | zero => omega
        | succ fuel =>
            simp only [parseToEof, hn fuel (by omega), hsame, Bool.false_eq_true, if_false]
            exact hm fuel (by omega)

theorem Consumes.trans
    {xs rest rest' : List Piece} {l l' l'' : Lexer} {e e' e'' : Effects}
    (hfirst : Consumes xs l e l' e' rest) (hlater : Consumes rest l' e' l'' e'' rest') :
    Consumes xs l e l'' e'' rest' where
  at_ := hlater.at_
  nested := hlater.nested
  calls := hlater.calls.trans hfirst.calls
  complaints := hlater.complaints.trans hfirst.complaints
  progress := by
    rcases hlater.progress with hend | ⟨hshorter, hsame⟩
    · exact Or.inl hend
    · rcases hfirst.progress with ⟨rfl, _⟩ | ⟨hshorter', hsame'⟩
      · exact absurd hshorter (Nat.not_lt_zero _)
      · exact Or.inr ⟨hshorter.trans hshorter', hsame.trans hsame'⟩

theorem readLoop_consumes
    (w : Surroundings) {n i : ℕ} (hi : i + n = 3) {xs : List Piece} (hxs : Nested false xs)
    {l : Lexer} (hl : At l xs) (e : Effects) :
    ∃ l' e' rest k,
      (∀ fuel, k ≤ fuel → readLoop w fuel (n + 1) i l e = some (.returned 0 l' e')) ∧
      Consumes xs l e l' e' rest := by
  induction n generalizing i xs l e with
  | zero =>
      rcases yyparse_consumes w hxs hl e with ⟨l₁, e₁, rest, k, hk, hconsumes⟩
      refine ⟨l₁, e₁, rest, k, ?_, hconsumes⟩
      intro fuel hfuel
      have hlast : ¬ (¬ l₁.reader.timedOut ∧ i + 1 ≤ 3) := by
        omega
      simp only [readLoop, hk fuel hfuel, if_neg hlast]
  | succ n ih =>
      rcases yyparse_consumes w hxs hl e with ⟨l₁, e₁, rest, k, hk, hconsumes⟩
      by_cases hagain : ¬ l₁.reader.timedOut ∧ i + 1 ≤ 3
      · rcases ih (i := i + 1) (by omega) hconsumes.nested hconsumes.at_ e₁ with
          ⟨l', e', rest', k', hk', hlater⟩
        refine ⟨l', e', rest', k + k', ?_, hconsumes.trans hlater⟩
        intro fuel hfuel
        rw [readLoop, hk fuel (by omega)]
        simp only [if_pos hagain]
        exact hk' fuel (by omega)
      · refine ⟨l₁, e₁, rest, k, ?_, hconsumes⟩
        intro fuel hfuel
        rw [readLoop, hk fuel hfuel]
        simp only [if_neg hagain]

theorem readToEof_finishes
    (w : Surroundings) {xs : List Piece} (hxs : Nested false xs) {l : Lexer} (hl : At l xs)
    (e : Effects) :
    ∃ l' e' n, (∀ fuel, n ≤ fuel → readToEof w fuel l e = some (.returned 0 l' e')) ∧
      Finishes xs e l' e' := by
  induction hlength : xs.length using Nat.strong_induction_on generalizing xs l e with
  | _ k ih =>
      have hl' : At { l with yaccEof := false } xs := ⟨hl.consistent, hl.segmented⟩
      rcases readLoop_consumes w (Nat.zero_add 3) hxs hl' e with
        ⟨l₁, e₁, rest, n, hn, hconsumes⟩
      have hread : ∀ fuel, n ≤ fuel → readFifo w fuel l e = some (.returned 0 l₁ e₁) := hn
      rcases hconsumes.progress with ⟨rfl, hend⟩ | ⟨hshorter, hsame⟩
      · refine ⟨l₁, e₁, n + 1, ?_, hconsumes.finished hend⟩
        intro fuel hfuel
        cases fuel with
        | zero => omega
        | succ fuel => simp only [readToEof, hread fuel (by omega), hend, if_true]
      · rcases ih rest.length (by omega) hconsumes.nested hconsumes.at_ e₁ rfl with
          ⟨l', e', m, hm, hfinishes⟩
        refine ⟨l', e', n + m + 1, ?_, hconsumes.finishes hfinishes⟩
        intro fuel hfuel
        cases fuel with
        | zero => omega
        | succ fuel =>
            have hopen : l₁.yaccEof = false := hsame
            simp only [readToEof, hread fuel (by omega), hopen, Bool.false_eq_true, if_false]
            exact hm fuel (by omega)

end Monitor

end DialdTop
