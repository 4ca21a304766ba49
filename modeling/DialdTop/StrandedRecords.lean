import DialdTop.LexerProgress
import DialdTop.LRStacks
import DialdTop.MonitorStream

/-!
# Records left in the buffer

`main` waits for the descriptor, while the scanner may still hold records which
it has read before.  After a time-out the buffer ends within a line, and every
record has two lines.  A complete record is therefore left behind only when the
last call of the input function has delivered something, which means that
`read_fifo` has used up its four calls of `yyparse`.
-/

namespace DialdTop

open Scanner

namespace Monitor

/-! ## Lines in the buffer -/

theorem rules_once : ∀ b ∈ rules, b.rule.whole.once newline = true := by decide

/-- A text with two newlines decides the match. -/
theorem count_newline_of_undecided
    {m : Mode StartCondition} {s : List Byte} (h : jammed (enabled rules m) s = false) :
    s.count newline ≤ 1 := by
  by_contra htwo
  have hjammed : jammed (enabled rules m) s = true := by
    rw [jammed, List.all_eq_true]
    intro r hr
    rcases List.mem_map.mp hr with ⟨b, hb, rfl⟩
    rw [Regex.after_of_once (rules_once b (List.mem_filter.mp hb).1) (by omega)]
    rfl
  rw [h] at hjammed
  cases hjammed

/-- After a time-out the buffer has a newline at its end, if at all. -/
def Lexer.OneLine (l : Lexer) : Prop :=
  l.reader.WaitsWith fun s => s.count newline ≤ 1

theorem Lexer.OneLine.yylex {l : Lexer} (h : l.OneLine) : (yylex l).2.OneLine := by
  have hstep : (l.reader.step isEndOfLine rules).2.WaitsWith fun s => s.count newline ≤ 1 := by
    apply Reader.step_waitsWith isEndOfLine _ _ h
    · intro m s hundecided
      exact count_newline_of_undecided hundecided
    · intro s n hs
      exact ((List.drop_sublist n s).count_le newline).trans hs
  have hlexed := yylex_lexed l
  generalize Monitor.yylex l = lexed at hlexed
  rcases lexed with ⟨token, next⟩
  cases hlexed with
  | silent hread => rw [hread] at hstep; exact hstep
  | token _ hread => rw [hread] at hstep; exact hstep
  | wouldblock hread => rw [hread] at hstep; exact hstep
  | eof hread => rw [hread] at hstep; exact hstep

theorem count_newline_unlines (lines : List (List Byte)) :
    lines.length ≤ (unlines lines).count newline := by
  induction lines with
  | nil => exact Nat.zero_le _
  | cons line lines ih =>
      simp only [unlines, List.flatMap_cons, List.count_append, List.count_singleton_self,
        List.length_cons] at ih ⊢
      omega

theorem Record.count_newline (r : Record) : 2 ≤ r.text.count newline := by
  cases r with
  | report r =>
      refine le_trans ?_ (count_newline_unlines r.lines)
      cases r <;> simp [Report.lines]
  | queue packets =>
      refine le_trans ?_ (count_newline_unlines _)
      simp

/-- A complete record. -/
def HoldsRecord (buffer : List Byte) : Prop :=
  ∃ r : Record, r.text <:+: buffer

theorem Lexer.OneLine.not_holdsRecord {l : Lexer} (h : l.OneLine)
    (htimedOut : l.reader.timedOut = true) : ¬ HoldsRecord l.reader.buffer := by
  rintro ⟨r, hr⟩
  have htwo := r.count_newline
  have hmore := hr.sublist.count_le newline
  have hone : l.reader.buffer.count newline ≤ 1 := h htimedOut
  omega

/-! ## The state behind `_WOULDBLOCK` -/

theorem accept_production :
    ∀ n, ∀ rule ∈ productions n, rule.action = .accept →
      n = .time ∧ rule.rhs = [tokenSymbol .wouldblock] := by
  intro n
  cases n <;> decide

/-- `_WOULDBLOCK` is a `time` or a `packet`, and part of nothing else. -/
theorem wouldblock_production :
    ∀ n, ∀ rule ∈ productions n, tokenSymbol .wouldblock ∈ rule.rhs →
      (n = .time ∨ n = .packet) ∧ rule.rhs = [tokenSymbol .wouldblock] := by
  intro n
  cases n <;> decide

theorem time_packet_inner :
    ∀ n, ∀ rule ∈ productions n,
      rule.rhs.head? ≠ some (symbol .time) ∧ rule.rhs.head? ≠ some (symbol .packet) := by
  intro n
  cases n <;> decide

/-- What stands before a `packet` stands before no `time`. -/
theorem before_time_and_packet :
    ∀ n, ∀ rule ∈ productions n, ∀ X ∈ rule.rhs,
      ([X, symbol .time] <:+: rule.rhs → X ≠ symbol .packets) ∧
        ([X, symbol .packet] <:+: rule.rhs → X = symbol .packets) := by
  intro n
  cases n <;> decide

theorem pair_infix {α : Type*} {before rest whole : List α} {a b : α}
    (hwhole : whole = (before ++ [a]) ++ b :: rest) : [a, b] <:+: whole ∧ a ∈ whole := by
  subst hwhole
  exact ⟨⟨before, rest, by simp⟩, by simp⟩

abbrev State := LR.State TokenKind Nonterminal Action

theorem past_of_head
    {before : List Symbol} {X : Symbol} {i : LR.Item TokenKind Nonterminal Action}
    {n : Nonterminal} (hpast : i.Past grammar (before ++ [X]))
    (hhead : i.rest.head? = some (symbol n)) :
    ∃ m, ∃ rule ∈ productions m, [X, symbol n] <:+: rule.rhs ∧ X ∈ rule.rhs := by
  rcases i with ⟨reduction, rest⟩
  cases rest with
  | nil => cases hhead
  | cons Y rest =>
      cases hhead
      cases reduction with
      | none =>
          have hstart : (before ++ [X]) ++ symbol n :: rest =
              [.nonterminal Nonterminal.blurbs, .eof] := hpast
          cases before with
          | nil => simp [symbol] at hstart
          | cons Y before => cases before <;> simp at hstart
      | some r =>
          rcases hpast with ⟨rule, hrule, _, hrhs⟩
          exact ⟨r.lhs, rule, hrule, pair_infix hrhs⟩

/-- No state expects both a `time` and a `packet`. -/
theorem not_predicted_packet
    {q : State} {below : List State} (h : LR.Stacked grammar (q :: below))
    (htime : .time ∈ grammar.predicted q) : .packet ∉ grammar.predicted q := by
  intro hpacket
  rcases LR.Grammar.mem_predicted_of_inner
    (fun n rule hrule => (time_packet_inner n rule hrule).1) htime with ⟨i, hi, hihead⟩
  rcases LR.Grammar.mem_predicted_of_inner
    (fun n rule hrule => (time_packet_inner n rule hrule).2) hpacket with ⟨j, hj, hjhead⟩
  cases h with
  | initial =>
      rw [LR.Grammar.initial, List.mem_singleton] at hi
      subst i
      cases hihead
  | goto X hq =>
      rcases LR.goto_past hq.past hi with ⟨_, _, hpast⟩
      rcases LR.goto_past hq.past hj with ⟨_, _, hpast'⟩
      rcases past_of_head hpast hihead with ⟨n, rule, hrule, hinfix, hX⟩
      rcases past_of_head hpast' hjhead with ⟨n', rule', hrule', hinfix', hX'⟩
      exact (before_time_and_packet n rule hrule X hX).1 hinfix
        ((before_time_and_packet n' rule' hrule' X hX').2 hinfix')

theorem initial_not_accepting :
    ∀ r ∈ LR.reductions (grammar.closure grammar.initial), r.action ≠ .accept := by
  decide +kernel

/-- A state which may end the parser by `time: _WOULDBLOCK` has just been entered
over that token, and looks at no further one. -/
theorem accepting_goto
    {q : State} {below : List State} (h : LR.Stacked grammar (q :: below)) {X : Symbol}
    {r : LR.Reduction Nonterminal Action}
    (hr : r ∈ LR.reductions (grammar.closure (grammar.goto q X))) (haccept : r.action = .accept) :
    X = tokenSymbol .wouldblock ∧
      ∀ char, ∃ r', grammar.decision (grammar.goto q X) char = .reduce r' := by
  have hkernel : ⟨some r, []⟩ ∈ grammar.goto q X := by
    rcases LR.mem_closure.mp (LR.mem_reductions.mp hr) with hkernel | ⟨n, _, hpredicted⟩
    · exact hkernel
    · rcases LR.past_of_mem_predict hpredicted with ⟨rule, hrule, hr, hrhs⟩
      have haction : rule.action = .accept := by rw [← haccept, hr]
      rw [(accept_production _ rule hrule haction).2] at hrhs
      cases hrhs
  rcases LR.goto_past h.past hkernel with ⟨before, _, rule, hrule, hr', hrhs⟩
  have haction : rule.action = .accept := by rw [← haccept, hr']
  rcases accept_production _ rule hrule haction with ⟨htime, hwhole⟩
  have hX : X = tokenSymbol .wouldblock := by
    rw [hwhole, List.append_nil] at hrhs
    cases before with
    | nil => exact (List.singleton_inj.mp hrhs).symm
    | cons Y before => cases before <;> simp at hrhs
  refine ⟨hX, ?_⟩
  subst X
  have hlone : ∀ n, ∀ rule ∈ productions n, tokenSymbol .wouldblock ∈ rule.rhs →
      rule.rhs = [tokenSymbol .wouldblock] := fun n rule hrule hmem =>
    (wouldblock_production n rule hrule hmem).2
  have hpredicted : .time ∈ grammar.predicted q := by
    rcases LR.mem_closure.mp (LR.mem_advance.mp hkernel) with hmem | ⟨n, hn, hmem⟩
    · exact absurd rfl (h.not_mem_of_lone hlone _ hmem)
    · rcases List.mem_map.mp hmem with ⟨_, _, hitem⟩
      have hlhs : n = r.lhs := by
        have hreduction := congrArg LR.Item.reduction hitem
        simp only [Option.some.injEq] at hreduction
        rw [← hreduction]
      rw [← htime, ← hlhs]
      exact hn
  have hgoto : grammar.goto q (tokenSymbol .wouldblock) =
      LR.Grammar.advance (tokenSymbol .wouldblock) (grammar.predict .time) := by
    apply h.goto_of_lone hlone hpredicted
    intro m hm hne rule hrule hmem
    rcases (wouldblock_production m rule hrule hmem).1 with hm' | hm'
    · exact hne hm'
    · exact not_predicted_packet h hpredicted (hm' ▸ hm)
  let reduction : LR.Reduction Nonterminal Action := ⟨.time, 1, .accept⟩
  intro char
  rw [hgoto]
  exact ⟨reduction, LR.Grammar.decision_complete reduction char⟩

/-! ## Where a call of `yyparse` ends -/

inductive Ending
  | load
  | key
  | wouldblock
  | endOfFile
  deriving DecidableEq, Repr

/-- The actions at the end of a record behind which the keyboard is tested. -/
def recordActions : List Action := [.status, .interface, .state, .message, .testkey]

/-- The step which the parser is about to take ends it. -/
inductive EndsAt (w : Surroundings) (p : Parser) (l : Lexer) (e : Effects) : Ending → Prop
  | load {r : LR.Reduction Nonterminal Action} :
      grammar.decision p.top (p.char.map LR.Token.kind) = .reduce r → r.action = .load →
        EndsAt w p l e .load
  | key {r : LR.Reduction Nonterminal Action} :
      grammar.decision p.top (p.char.map LR.Token.kind) = .reduce r →
        r.action ∈ recordActions → w.lexTestkey e.tested = true → EndsAt w p l e .key
  | wouldblock {r : LR.Reduction Nonterminal Action} :
      grammar.decision p.top (p.char.map LR.Token.kind) = .reduce r → r.action = .accept →
        p.char = none → l.reader.timedOut = true → EndsAt w p l e .wouldblock
  | endOfFile {t : Token} : p.char = some t → t.kind = none → l.yaccEof = true →
      EndsAt w p l e .endOfFile

theorem perform_accepted
    {w : Surroundings} {action : Action} {values : List Value} {e : Effects}
    (h : (perform w action values e).accepted = true) :
    action = .accept ∨ action = .load ∨ action ∈ recordActions ∧ w.lexTestkey e.tested = true := by
  cases action with
  | accept => exact Or.inl rfl
  | load => exact Or.inr (Or.inl rfl)
  | status => exact Or.inr (Or.inr ⟨by decide, h⟩)
  | interface => exact Or.inr (Or.inr ⟨by decide, h⟩)
  | state => exact Or.inr (Or.inr ⟨by decide, h⟩)
  | message => exact Or.inr (Or.inr ⟨by decide, h⟩)
  | testkey => exact Or.inr (Or.inr ⟨by decide, h⟩)
  | _ => cases h

/-- The token which the parser holds tells why the scanner has returned it, and
`time: _WOULDBLOCK` is reduced right after a time-out. -/
structure Reading (p : Parser) (l : Lexer) : Prop where
  balanced : p.Balanced grammar
  eof : ∀ t, p.char = some t → t.kind = none → l.yaccEof = true
  wouldblock : ∀ t, p.char = some t → t.kind = some .wouldblock → l.reader.timedOut = true
  accepting : ∀ r ∈ LR.reductions (grammar.closure p.top), r.action = .accept →
    p.char = none ∧ l.reader.timedOut = true

theorem error_shifted : .error ∈ LR.shifts (grammar.closure grammar.initial) := by
  decide +kernel

theorem reading_start (l : Lexer) : Reading (LR.Parser.start grammar .undefined) l where
  balanced := LR.Parser.balanced_start Value.undefined
  eof := fun _ hchar => by cases hchar
  wouldblock := fun _ hchar => by cases hchar
  accepting := fun r hr haccept => absurd haccept (initial_not_accepting r hr)

/-- A parser which looks for a token is not about to accept. -/
theorem Reading.not_accepting_of_look
    {p : Parser} {l : Lexer} (h : Reading p l)
    (hlook : grammar.decision p.top (p.char.map LR.Token.kind) = .look) :
    ∀ r ∈ LR.reductions (grammar.closure p.top), r.action ≠ .accept := by
  intro r hr haccept
  rcases p with ⟨states, values, char, errStatus⟩
  have hstacked : LR.Stacked grammar states := h.balanced.stacked
  cases hstacked with
  | initial => exact initial_not_accepting r hr haccept
  | goto X hq =>
      rcases (accepting_goto hq hr haccept).2 (char.map LR.Token.kind) with ⟨r', hreduce⟩
      rw [LR.Parser.top] at hlook
      exact absurd (hreduce.symm.trans hlook) (by simp)

/-- A top of the stack which is entered over another symbol does not accept. -/
theorem not_accepting_of_ne
    {p : Parser} (hp : p.Balanced grammar) {q : State} {below : List State} {X : Symbol}
    (hstates : p.states = grammar.goto q X :: q :: below) (hX : X ≠ tokenSymbol .wouldblock) :
    ∀ r ∈ LR.reductions (grammar.closure p.top), r.action ≠ .accept := by
  intro r hr haccept
  have hstacked := hp.stacked.drop (n := 1) (by rw [hstates]; simp)
  rw [hstates] at hstacked
  rcases hstacked with ⟨q', below', hdrop, hq⟩
  cases hdrop
  rw [LR.Parser.top, hstates] at hr
  exact hX (accepting_goto hq hr haccept).1

theorem Reading.yylex
    {p : Parser} {l : Lexer} (h : Reading p l)
    (hlook : grammar.decision p.top (p.char.map LR.Token.kind) = .look) :
    Reading { p with char := (yylex l).1 } (yylex l).2 := by
  have hlexed := yylex_lexed l
  generalize Monitor.yylex l = lexed at hlexed
  rcases lexed with ⟨token, next⟩
  refine ⟨⟨h.balanced.stacked, h.balanced.values⟩, ?_, ?_, ?_⟩
  · intro t ht hkind
    have ht' : token = some t := ht
    subst ht'
    cases hlexed with
    | token htext _ => exact absurd hkind htext.1
    | wouldblock _ => cases hkind
    | eof _ => rfl
  · intro t ht hkind
    have ht' : token = some t := ht
    subst ht'
    cases hlexed with
    | token htext _ => exact absurd hkind htext.2
    | wouldblock hstep => exact Reader.step_eof_timedOut isEndOfLine hstep
    | eof _ => cases hkind
  · intro r hr haccept
    exact absurd haccept (h.not_accepting_of_look hlook r hr)

theorem Reading.step
    {w : Surroundings} {p p' : Parser} {l l' : Lexer} {e e' : Effects} (h : Reading p l)
    (hstep : LR.step grammar (linked w) p l e = .running p' l' e') : Reading p' l' := by
  have hstepped : LR.Stepped grammar (linked w) p l e _ :=
    LR.step_stepped h.balanced error_shifted l e
  rw [hstep] at hstepped
  cases hstepped with
  | look hlook => exact h.yylex hlook
  | @shift _ t hchar hstates hnone hbalanced =>
      refine ⟨hbalanced, ?_, ?_, ?_⟩
      · intro t' ht'
        rw [hnone] at ht'
        cases ht'
      · intro t' ht'
        rw [hnone] at ht'
        cases ht'
      · intro r hr haccept
        refine ⟨hnone, ?_⟩
        apply h.wouldblock t hchar
        by_contra hkind
        rcases h.balanced.stacked.drop (n := 0) (List.length_pos_iff.mpr h.balanced.stacked.ne_nil)
          with ⟨q, below, hbelow, _⟩
        rw [List.drop_zero] at hbelow
        have htop : p.top = q := by rw [LR.Parser.top, hbelow]; rfl
        rw [htop, hbelow] at hstates
        refine not_accepting_of_ne hbalanced hstates ?_ r hr haccept
        intro hX
        apply hkind
        cases hk : t.kind with
        | none => rw [hk] at hX; cases hX
        | some kind => rw [hk] at hX; cases hX; rfl
  | reduce _ hstates hchar hbalanced =>
      refine ⟨hbalanced, ?_, ?_, ?_⟩
      · rw [hchar]
        exact h.eof
      · rw [hchar]
        exact h.wouldblock
      · intro r hr haccept
        exact absurd haccept
          (not_accepting_of_ne hbalanced hstates (by simp [tokenSymbol]) r hr)
  | recovered hstates hchar hbalanced =>
      refine ⟨hbalanced, ?_, ?_, ?_⟩
      · intro t ht
        rcases hchar with hchar | hchar
        · exact h.eof t (hchar ▸ ht)
        · rw [hchar] at ht
          cases ht
      · intro t ht
        rcases hchar with hchar | hchar
        · exact h.wouldblock t (hchar ▸ ht)
        · rw [hchar] at ht
          cases ht
      · intro r hr haccept
        exact absurd haccept
          (not_accepting_of_ne hbalanced hstates (by simp [tokenSymbol]) r hr)

theorem Reading.endsAt
    {w : Surroundings} {p : Parser} {l l' : Lexer} {e e' : Effects} {result : ℕ}
    (h : Reading p l)
    (hstep : LR.step grammar (linked w) p l e = .returned result l' e') :
    l' = l ∧ ∃ ending, EndsAt w p l e ending := by
  have hstepped : LR.Stepped grammar (linked w) p l e _ :=
    LR.step_stepped h.balanced error_shifted l e
  rw [hstep] at hstepped
  cases hstepped with
  | ended hreduce hdone haccepted =>
      refine ⟨rfl, ?_⟩
      subst hdone
      rcases perform_accepted haccepted with haction | haction | ⟨haction, hkey⟩
      · rcases h.accepting _ (LR.Grammar.decision_reduce hreduce) haction with ⟨hchar, htimedOut⟩
        exact ⟨.wouldblock, .wouldblock hreduce haction hchar htimedOut⟩
      · exact ⟨.load, .load hreduce haction⟩
      · exact ⟨.key, .key hreduce haction hkey⟩
  | atEof hchar hkind => exact ⟨rfl, .endOfFile, .endOfFile hchar hkind (h.eof _ hchar hkind)⟩

/-! ## Calls of `yyparse` -/

/-- A call of `yyparse` and the place where it ends. -/
def ParseEnds (w : Surroundings) (l : Lexer) (e : Effects) (ending : Ending) (l' : Lexer)
    (e' : Effects) : Prop :=
  ∃ p e₁ result, LR.Reaches grammar (linked w) (LR.Parser.start grammar .undefined) l e
      (.running p l' e₁) ∧ EndsAt w p l' e₁ ending ∧
    LR.step grammar (linked w) p l' e₁ = .returned result l' e'

theorem ParseEnds.timedOut
    {w : Surroundings} {l l' : Lexer} {e e' : Effects}
    (h : ParseEnds w l e .wouldblock l' e') : l'.reader.timedOut = true := by
  rcases h with ⟨_, _, _, _, hends, _⟩
  cases hends with
  | wouldblock _ _ _ htimedOut => exact htimedOut

theorem ParseEnds.yaccEof
    {w : Surroundings} {l l' : Lexer} {e e' : Effects}
    (h : ParseEnds w l e .endOfFile l' e') : l'.yaccEof = true := by
  rcases h with ⟨_, _, _, _, hends, _⟩
  cases hends with
  | endOfFile _ _ heof => exact heof

/-- What the calls of the scanner keep. -/
structure Kept (l l' : Lexer) : Prop where
  oneLine : l.OneLine → l'.OneLine
  yaccEof : l.yaccEof = true → l'.yaccEof = true

theorem Kept.trans {l l' l'' : Lexer} (h : Kept l l') (h' : Kept l' l'') : Kept l l'' :=
  ⟨fun hl => h'.oneLine (h.oneLine hl), fun hl => h'.yaccEof (h.yaccEof hl)⟩

theorem kept_yylex (l : Lexer) : Kept l (yylex l).2 := by
  refine ⟨Lexer.OneLine.yylex, ?_⟩
  intro heof
  have hlexed := yylex_lexed l
  generalize yylex l = lexed at hlexed
  rcases lexed with ⟨token, next⟩
  cases hlexed with
  | silent => exact heof
  | token => exact heof
  | wouldblock => exact heof
  | eof => rfl

theorem yyparse_ends
    {w : Surroundings} {fuel : ℕ} {l l' : Lexer} {e e' : Effects} {result : ℕ}
    (h : yyparse w fuel l e = some (.returned result l' e')) :
    Kept l l' ∧ ∃ ending, ParseEnds w l e ending l' e' := by
  have hstep : ∀ p l₁ (e₁ : Effects) p' l₂ e₂, Reading p l₁ ∧ Kept l l₁ →
      LR.step grammar (linked w) p l₁ e₁ = .running p' l₂ e₂ → Reading p' l₂ ∧ Kept l l₂ := by
    rintro p l₁ e₁ p' l₂ e₂ ⟨hreading, hkept⟩ hnext
    refine ⟨hreading.step hnext, ?_⟩
    have hlex : ∀ l₁, Kept l l₁ → Kept l ((linked w).lex l₁).2 := fun l₁ h₁ =>
      h₁.trans (kept_yylex l₁)
    exact LR.step_lexer hlex hreading.balanced error_shifted hnext hkept
  have hstart : Reading (LR.Parser.start grammar .undefined) l ∧ Kept l l :=
    ⟨reading_start l, id, id⟩
  rcases LR.run_last hstep h hstart with ⟨p, l₁, e₁, ⟨hreading, hkept⟩, hreaches, hlast⟩
  rcases hreading.endsAt hlast with ⟨rfl, ending, hends⟩
  exact ⟨hkept, ending, p, e₁, result, hreaches, hends, hlast⟩

/-! ## Calls of `read_fifo` -/

/-- Calls of `yyparse`, each of which has ended at a LOAD record or at a record
behind which a key was pressed. -/
inductive RecordCalls (w : Surroundings) (fuel : ℕ) :
    ℕ → Lexer → Effects → Lexer → Effects → Prop
  | zero {l : Lexer} {e : Effects} : RecordCalls w fuel 0 l e l e
  | succ {n result : ℕ} {l l₁ l' : Lexer} {e e₁ e' : Effects} {ending : Ending} :
      yyparse w fuel l e = some (.returned result l₁ e₁) → ParseEnds w l e ending l₁ e₁ →
        ending = .load ∨ ending = .key → RecordCalls w fuel n l₁ e₁ l' e' →
          RecordCalls w fuel (n + 1) l e l' e'

theorem readLoop_ends
    {w : Surroundings} {fuel n i : ℕ} (hi : i + n = 4) {l l' : Lexer} {e e' : Effects}
    {result : ℕ} (h : readLoop w fuel n i l e = some (.returned result l' e')) :
    Kept l l' ∧ (l'.yaccEof = false → l'.reader.timedOut = false →
      RecordCalls w fuel n l e l' e') := by
  induction n generalizing i l e with
  | zero => cases h
  | succ n ih =>
      rw [readLoop] at h
      split at h
      next result₁ l₁ e₁ hparse =>
        rcases yyparse_ends hparse with ⟨hkept, ending, hends⟩
        have hrecord : l₁.yaccEof = false → l₁.reader.timedOut = false →
            ending = .load ∨ ending = .key := by
          intro heof htimedOut
          cases ending with
          | load => exact Or.inl rfl
          | key => exact Or.inr rfl
          | wouldblock => rw [hends.timedOut] at htimedOut; cases htimedOut
          | endOfFile => rw [hends.yaccEof] at heof; cases heof
        split at h
        next hgoing =>
          rcases ih (by omega) h with ⟨hlater, hcalls⟩
          refine ⟨hkept.trans hlater, ?_⟩
          intro heof htimedOut
          have hopen : l₁.yaccEof = false := by
            by_contra hset
            rw [hlater.yaccEof (by simpa using hset)] at heof
            cases heof
          exact .succ hparse hends (hrecord hopen (by simpa using hgoing.1))
            (hcalls heof htimedOut)
        next hlast =>
          cases h
          refine ⟨hkept, ?_⟩
          intro heof htimedOut
          have hzero : n = 0 := by
            by_contra hmore
            exact hlast ⟨by simp [htimedOut], by omega⟩
          subst n
          exact .succ hparse hends (hrecord heof htimedOut) .zero
      next other hother =>
        exact absurd h (hother _ _ _)

/-- The scanner after some calls of `read_fifo` which have returned 1. -/
inductive Served (w : Surroundings) (input : List (Arrival Byte)) : Lexer → Effects → Prop
  | start : Served w input (.start input) .none
  | again {fuel result : ℕ} {l l' : Lexer} {e e' : Effects} : Served w input l e →
      readFifo w fuel l e = some (.returned result l' e') → l'.yaccEof = false →
        Served w input l' e'

theorem Served.oneLine
    {w : Surroundings} {input : List (Arrival Byte)} {l : Lexer} {e : Effects}
    (h : Served w input l e) : l.OneLine := by
  induction h with
  | start =>
      intro htimedOut
      cases htimedOut
  | again _ hread _ ih => exact (readLoop_ends rfl hread).1.oneLine ih

/-- Whenever `read_fifo` returns 1, the buffer has no complete record, or all
four calls of `yyparse` have been made and each has ended at a LOAD record or at
a key. -/
theorem record_left_only_at_limit (w : Surroundings) :
    (∀ input l e fuel result l' e', Served w input l e →
      readFifo w fuel l e = some (.returned result l' e') → l'.yaccEof = false →
        ¬ HoldsRecord l'.reader.buffer ∨
          l'.reader.timedOut = false ∧
            RecordCalls w fuel 4 { l with yaccEof := false } e l' e') ∧
    ∀ l e fuel result l' e', yyparse w fuel l e = some (.returned result l' e') →
      ∃ ending, ParseEnds w l e ending l' e' := by
  constructor
  · intro input l e fuel result l' e' hserved hread heof
    rcases readLoop_ends rfl hread with ⟨hkept, hcalls⟩
    cases htimedOut : l'.reader.timedOut with
    | true =>
        have honeLine : l'.OneLine := hkept.oneLine hserved.oneLine
        exact Or.inl (honeLine.not_holdsRecord htimedOut)
    | false => exact Or.inr ⟨rfl, hcalls heof htimedOut⟩
  · intro l e fuel result l' e' hparse
    exact (yyparse_ends hparse).2

/-- What a call of `read_fifo` leaves: `yacc_eof`, `yacc_block`, the buffer, and
what has not arrived yet. -/
def leftBehind : Option Outcome → Option (Bool × Bool × List Byte × List (Arrival Byte))
  | some (.returned _ l _) =>
      some (l.yaccEof, l.reader.timedOut, l.reader.buffer, l.reader.input)
  | _ => none

theorem leftBehind_eq_some
    {outcome : Option Outcome} {eof timedOut : Bool} {buffer : List Byte}
    {input : List (Arrival Byte)} (h : leftBehind outcome = some (eof, timedOut, buffer, input)) :
    ∃ result l e, outcome = some (.returned result l e) ∧ l.yaccEof = eof ∧
      l.reader.timedOut = timedOut ∧ l.reader.buffer = buffer ∧ l.reader.input = input := by
  unfold leftBehind at h
  split at h
  next result l e =>
    simp only [Option.some.injEq, Prod.mk.injEq] at h
    exact ⟨result, l, e, rfl, h⟩
  next => cases h

/-- A STATE record and then nothing. -/
def linkUp : Lexer := .start [.data 83 (bytes "TATE\nUP\n"), .timeout]

theorem record_left_only_at_limit_up :
    (∃ result l e, readFifo quiet 60 linkUp .none = some (.returned result l e) ∧
      ¬ HoldsRecord l.reader.buffer) ∧
    ∃ result l e ending, yyparse quiet 60 linkUp .none = some (.returned result l e) ∧
      ParseEnds quiet linkUp .none ending l e := by
  have hread : leftBehind (readFifo quiet 60 linkUp .none) = some (false, true, [], []) := by
    decide +kernel
  have hparse : leftBehind (yyparse quiet 60 linkUp .none) = some (false, true, [], []) := by
    decide +kernel
  rcases leftBehind_eq_some hread with ⟨result, l, e, hread, heof, htimedOut, _⟩
  rcases leftBehind_eq_some hparse with ⟨result', l', e', hparse, _⟩
  constructor
  · refine ⟨result, l, e, hread, ?_⟩
    rcases (record_left_only_at_limit quiet).1 _ _ _ _ _ _ _ .start hread heof with hnone | hlimit
    · exact hnone
    · rw [htimedOut] at hlimit
      cases hlimit.1
  · rcases (record_left_only_at_limit quiet).2 _ _ _ _ _ _ hparse with ⟨ending, hends⟩
    exact ⟨result', l', e', ending, hparse, hends⟩

/-- A LOAD record. -/
def traffic : Record :=
  .report (.load ⟨[49], by simp, by simp [isDigit], by simp [decimalValue]⟩
    ⟨[50], by simp, by simp [isDigit], by simp [decimalValue]⟩)

/-- Five LOAD records in one `read` are one too many. -/
theorem exists_record_left :
    ∃ rs input fuel result l e, received input = stream rs ∧
      readFifo quiet fuel (.start input) .none = some (.returned result l e) ∧
        l.yaccEof = false ∧ l.reader.input = [.timeout] ∧ HoldsRecord l.reader.buffer := by
  let records := bytes "OAD\n1\n2\nLOAD\n1\n2\nLOAD\n1\n2\nLOAD\n1\n2\nLOAD\n1\n2\n"
  let input : List (Arrival Byte) := [.data 76 records, .timeout]
  have hleft : leftBehind (readFifo quiet 60 (.start input) .none) =
      some (false, false, traffic.text, [.timeout]) := by
    decide +kernel
  rcases leftBehind_eq_some hleft with ⟨result, l, e, hread, heof, _, hbuffer, hinput⟩
  refine ⟨List.replicate 5 traffic, input, 60, result, l, e, by decide, hread, heof, hinput,
    traffic, ?_⟩
  rw [hbuffer]

end Monitor

end DialdTop
