import DialdTop.MonitorTokens
import DialdTop.ScannerProgress
import Mathlib.Logic.Relation

/-!
# Progress of the scanner of the monitor stream

The rule for the text of a message may match an empty line, in front of its
newline.  It leaves the start condition and the beginning of the line as they
are, so that the next match is the same one.
-/

namespace DialdTop

open Scanner
open Relation (ReflTransGen)

namespace Monitor

/-! ## Rules with empty matches -/

/-- Only the rule for the text of a message matches an empty text. -/
theorem rules_nullable :
    ∀ b ∈ rules, b = messageRule ∨ b.rule.trailing = none ∧ b.rule.pattern.nullable = false := by
  simp only [rules, keywordRules, List.cons_append, List.nil_append, List.forall_mem_cons]
  refine ⟨.inr ?_, .inr ?_, .inr ?_, .inr ?_, .inr ?_, .inr ?_, .inr ?_, .inr ?_, .inr ?_,
    .inr ?_, .inr ?_, .inr ?_, .inr ?_, .inl trivial, .inr ?_, .inr ?_, .inr ?_, by simp⟩
  all_goals exact ⟨rfl, by decide⟩

theorem enabled_message :
    enabled rules { start := .inMessage, atBol := true } =
      [] ++ messageRule.rule :: [(newlineRule (· = .inMessage) (some .initial)).rule] := rfl

theorem winner_empty_message (s : List Byte) :
    winner (enabled rules { start := .inMessage, atBol := true }) (newline :: s) =
      some (messageRule.rule, 1) := by
  rw [enabled_message]
  refine winner_of_best (by simp) (message_longest List.not_mem_nil s) ?_
  rw [List.forall_mem_singleton]
  have hnewline : (newlineRule (· = .inMessage) (some .initial)).rule.whole.longest
      (newline :: s) = some 1 :=
    Regex.longest_cls (by decide) s
  intro n hn
  rw [hnewline, Option.some.injEq] at hn
  omega

theorem scanMatch_empty_message (s : List Byte) :
    scanMatch isEndOfLine rules { start := .inMessage, atBol := true } newline s =
      (.token (stringToken []), { start := .inMessage, atBol := true }, newline :: s) := by
  rw [scanMatch, winner_empty_message]
  rfl

/-- An empty line at the place where the text of a message is expected. -/
theorem idle_iff (m : Mode StartCondition) (s : List Byte) :
    Idle rules m s ↔
      m = { start := .inMessage, atBol := true } ∧ s.head? = some newline := by
  constructor
  · rintro ⟨r, n, hwinner, hle⟩
    rcases winner_mem hwinner with ⟨hr, hlongest⟩
    rcases (Regex.longest_eq_some_iff _ _ _).mp hlongest with ⟨w, rest, hs, rfl, hw, _⟩
    rcases List.mem_map.mp hr with ⟨b, hb, rfl⟩
    rcases List.mem_filter.mp hb with ⟨hmem, hactive⟩
    rcases rules_nullable b hmem with rfl | ⟨htrailing, hnullable⟩
    · -- the word is the newline of the trailing context
      rcases (mem_message_lang w).mp hw with ⟨u, _, hword⟩
      have hlength : w.length ≤ 1 := hle
      have hempty : u = [] := by
        rw [hword, List.length_append, List.length_singleton] at hlength
        exact List.length_eq_zero_iff.mp (by omega)
      have hmode : m = { start := .inMessage, atBol := true } := by
        rcases m with ⟨start, atBol⟩
        simpa [messageRule] using hactive
      refine ⟨hmode, ?_⟩
      rw [hs, hword, hempty]
      rfl
    · have hwhole : b.rule.whole = b.rule.pattern := by
        simp only [Rule.whole, htrailing]
      have hcontext : b.rule.contextLength = 0 := by
        simp only [Rule.contextLength, htrailing]
      have hempty : w = [] := by
        rw [hcontext] at hle
        exact List.length_eq_zero_iff.mp (Nat.le_zero.mp hle)
      rw [hempty, hwhole, ← Regex.nullable_iff, hnullable] at hw
      cases hw
  · rintro ⟨rfl, hhead⟩
    cases s with
    | nil => cases hhead
    | cons c s =>
        cases hhead
        exact ⟨_, _, winner_empty_message s, le_rfl⟩

/-! ## Calls of the scanner -/

/-- A token other than the end of the file and `_WOULDBLOCK`. -/
def OfText (t : Token) : Prop :=
  t.kind ≠ none ∧ t.kind ≠ some .wouldblock

theorem ofText_stringToken (text : List Byte) : OfText (stringToken text) :=
  ⟨by simp [stringToken], by simp [stringToken]⟩

/-- The scanner expects the text of a message and the next byte is a newline. -/
def Lexer.AtEmptyMessage (l : Lexer) : Prop :=
  l.reader.mode = { start := .inMessage, atBol := true } ∧
    l.reader.upcoming.head? = some newline

/-- What a match of `yylex` makes of a match of its reader. -/
inductive Lexed (l : Lexer) : Option Token → Lexer → Prop
  | silent {r : Reader Byte StartCondition} :
      l.reader.step isEndOfLine rules = (.silent, r) → Lexed l none { l with reader := r }
  | token {t : Token} {r : Reader Byte StartCondition} : OfText t →
      l.reader.step isEndOfLine rules = (.token t, r) → Lexed l (some t) { l with reader := r }
  | wouldblock {r : Reader Byte StartCondition} :
      l.reader.step isEndOfLine rules = (.eof true, r) →
        Lexed l (some wouldblock) { l with reader := r }
  | eof {r : Reader Byte StartCondition} :
      l.reader.step isEndOfLine rules = (.eof false, r) →
        Lexed l (some { kind := none, value := .undefined }) { reader := r, yaccEof := true }

theorem rules_ofText :
    ∀ b ∈ rules, ∀ yytext reaction, b.rule.action yytext = some reaction →
      OfText reaction.token := by
  simp [rules, keywordRules, keywordRule, valueRule, newlineRule, timeRule, numRule, ipRule,
    portRule, blankRule, stringRule, messageRule, token, OfText]

theorem yylex_lexed (l : Lexer) : Lexed l (yylex l).1 (yylex l).2 := by
  cases hstep : l.reader.step isEndOfLine rules with
  | mk event r =>
      unfold yylex
      rw [hstep]
      cases event with
      | silent => exact .silent hstep
      | token t => exact .token (Reader.step_token _ rules_ofText hstep) hstep
      | eof timedOut =>
          cases timedOut with
          | true => exact .wouldblock hstep
          | false => exact .eof hstep

/-- At an empty message the scanner returns a string and stays where it is. -/
theorem Lexer.AtEmptyMessage.yylex
    {l : Lexer} (h : l.AtEmptyMessage) :
    ∃ t next, Monitor.yylex l = (some t, next) ∧ t = stringToken [] ∧ next.AtEmptyMessage ∧
      next.reader.left = l.reader.left := by
  rcases h with ⟨hmode, hhead⟩
  have hfilled := l.reader.filled rules
  cases hbuffer : (l.reader.fill rules).buffer with
  | nil =>
      rw [(Reader.upcoming_of_nil rules_live hbuffer).2] at hhead
      cases hhead
  | cons c s =>
      have hc : c = newline := by
        have h := (Reader.upcoming_of_cons hbuffer).1
        rw [hhead, Option.some.injEq] at h
        exact h.symm
      have hstep : l.reader.step isEndOfLine rules =
          (.token (stringToken []), l.reader.fill rules) := by
        rw [Reader.step_of_cons _ hbuffer, hc, hmode, scanMatch_empty_message, ← hc, ← hbuffer,
          ← hmode, ← hfilled.mode]
      refine ⟨_, { l with reader := l.reader.fill rules }, ?_, rfl,
        ⟨hfilled.mode.trans hmode, ?_⟩, hfilled.left⟩
      · rw [Monitor.yylex, hstep]
      · rw [hfilled.upcoming]
        exact hhead

/-- A match which returns a token of the text consumes something, unless the
scanner is at an empty message. -/
theorem yylex_left_iff (l : Lexer) :
    (∀ t next, yylex l = (some t, next) → OfText t → next.reader.left < l.reader.left) ↔
      ¬ l.AtEmptyMessage := by
  constructor
  · intro h hempty
    rcases hempty.yylex with ⟨t, next, hlex, ht, _, hleft⟩
    have htext : OfText t := by
      rw [ht]
      exact ofText_stringToken []
    have hless := h t next hlex htext
    omega
  · intro hempty t next hlex htext
    have hlexed := yylex_lexed l
    rw [hlex] at hlexed
    cases hlexed with
    | token _ hstep =>
        refine (Reader.step_left _ hstep (by simp)).1.mpr ?_
        rw [idle_iff]
        exact hempty
    | wouldblock => exact absurd rfl htext.2
    | eof => exact absurd rfl htext.1

/-! ## Tokens of a text -/

/-- The tokens of the text up to the end of the file, for at most `fuel` matches. -/
def tokenise : ℕ → Lexer → Option (List Token)
  | 0, _ => none
  | fuel + 1, l =>
      match yylex l with
      | (none, next) => tokenise fuel next
      | (some t, next) =>
          match t.kind with
          | none => some []
          | some .wouldblock => tokenise fuel next
          | some _ => (tokenise fuel next).map (t :: ·)

/-- A match before the end of the file. -/
def LexStep (l next : Lexer) : Prop :=
  ∃ token, yylex l = (token, next) ∧ ∀ t ∈ token, t.kind ≠ none

theorem lexStep_of_fst
    {l : Lexer} {t : Token} (h : (yylex l).1 = some t) (hkind : t.kind ≠ none) :
    LexStep l (yylex l).2 := by
  refine ⟨some t, Prod.ext h rfl, ?_⟩
  intro t' ht'
  cases ht'
  exact hkind

theorem tokenise_of_ofText
    {l next : Lexer} {t : Token} (h : yylex l = (some t, next)) (ht : OfText t) (fuel : ℕ) :
    tokenise (fuel + 1) l = (tokenise fuel next).map (t :: ·) := by
  rcases t with ⟨kind, value⟩
  rw [tokenise, h]
  cases kind with
  | none => exact absurd rfl ht.1
  | some kind =>
      cases kind with
      | wouldblock => exact absurd rfl ht.2
      | _ => rfl

/-- What follows a match is tokenised when all of the text is. -/
theorem LexStep.tokenise
    {l next : Lexer} (h : LexStep l next) {fuel : ℕ} {tokens : List Token}
    (htokens : Monitor.tokenise (fuel + 1) l = some tokens) :
    ∃ later, Monitor.tokenise fuel next = some later := by
  rcases h with ⟨token, hlex, hkind⟩
  have hlexed := yylex_lexed l
  rw [hlex] at hlexed
  cases hlexed with
  | silent =>
      rw [Monitor.tokenise, hlex] at htokens
      exact ⟨tokens, htokens⟩
  | token ht =>
      rw [tokenise_of_ofText hlex ht, Option.map_eq_some_iff] at htokens
      rcases htokens with ⟨later, hlater, _⟩
      exact ⟨later, hlater⟩
  | wouldblock =>
      rw [Monitor.tokenise, hlex] at htokens
      exact ⟨tokens, htokens⟩
  | eof => exact absurd rfl (hkind _ rfl)

theorem Lexer.AtEmptyMessage.tokenise
    {l : Lexer} (h : l.AtEmptyMessage) (fuel : ℕ) : Monitor.tokenise fuel l = none := by
  induction fuel generalizing l with
  | zero => rfl
  | succ fuel ih =>
      rcases h.yylex with ⟨t, next, hlex, ht, hnext, _⟩
      have htext : OfText t := by
        rw [ht]
        exact ofText_stringToken []
      rw [tokenise_of_ofText hlex htext, ih hnext]
      rfl

theorem tokenise_eq_none
    {l next : Lexer} (hsteps : ReflTransGen LexStep l next) (hempty : next.AtEmptyMessage)
    (fuel : ℕ) : tokenise fuel l = none := by
  induction hsteps using ReflTransGen.head_induction_on generalizing fuel with
  | refl => exact hempty.tokenise fuel
  | head hstep _ ih =>
      cases fuel with
      | zero => rfl
      | succ fuel =>
          cases htokens : tokenise (fuel + 1) _ with
          | none => rfl
          | some tokens =>
              rcases hstep.tokenise htokens with ⟨later, hlater⟩
              rw [ih] at hlater
              cases hlater

/-- A match uses up a byte or a time-out. -/
theorem LexStep.left_add_waits
    {l next : Lexer} (h : LexStep l next) (hempty : ¬ l.AtEmptyMessage) :
    next.reader.left ≤ l.reader.left ∧
      next.reader.left + next.reader.waits < l.reader.left + l.reader.waits := by
  have hidle : ¬ Idle rules l.reader.mode l.reader.upcoming := by
    rw [idle_iff]
    exact hempty
  rcases h with ⟨token, hlex, hkind⟩
  have hlexed := yylex_lexed l
  rw [hlex] at hlexed
  cases hlexed with
  | silent hstep =>
      have hleft := Reader.step_left _ hstep (by simp)
      have hless := hleft.1.mpr hidle
      exact ⟨hless.le, by dsimp only; omega⟩
  | token _ hstep =>
      have hleft := Reader.step_left _ hstep (by simp)
      have hless := hleft.1.mpr hidle
      exact ⟨hless.le, by dsimp only; omega⟩
  | wouldblock hstep =>
      have heof := Reader.step_eof _ rules_live hstep
      have hwaits := heof.2.2 rfl
      exact ⟨heof.2.1.le, by dsimp only; omega⟩
  | eof => exact absurd rfl (hkind _ rfl)

theorem tokenise_completes
    {l : Lexer} (h : ∀ next, ReflTransGen LexStep l next → ¬ next.AtEmptyMessage) {fuel : ℕ}
    (hfuel : l.reader.left + l.reader.waits < fuel) :
    ∃ tokens, tokenise fuel l = some tokens ∧ tokens.length ≤ l.reader.left := by
  induction fuel generalizing l with
  | zero => omega
  | succ fuel ih =>
      have hrest : ∀ next, LexStep l next → next.reader.left ≤ l.reader.left ∧
          ∃ tokens, tokenise fuel next = some tokens ∧ tokens.length ≤ next.reader.left := by
        intro next hstep
        have hless := hstep.left_add_waits (h l .refl)
        exact ⟨hless.1, ih (fun last hlast => h last (hlast.head hstep)) (by omega)⟩
      cases hlex : yylex l with
      | mk token next =>
          have hlexed := yylex_lexed l
          rw [hlex] at hlexed
          cases hlexed with
          | silent =>
              rcases hrest _ ⟨_, hlex, by simp⟩ with ⟨hleft, tokens, htokens, hlength⟩
              refine ⟨tokens, ?_, hlength.trans hleft⟩
              rw [tokenise, hlex]
              exact htokens
          | @token t _ ht _ =>
              have hless := (yylex_left_iff l).mpr (h l .refl) _ _ hlex ht
              rcases hrest _ ⟨_, hlex, by simpa using ht.1⟩ with ⟨_, tokens, htokens, hlength⟩
              refine ⟨t :: tokens, ?_, hlength.trans_lt hless⟩
              rw [tokenise_of_ofText hlex ht, htokens]
              rfl
          | wouldblock =>
              rcases hrest _ ⟨_, hlex, by simp [wouldblock]⟩ with ⟨hleft, tokens, htokens, hlength⟩
              refine ⟨tokens, ?_, hlength.trans hleft⟩
              rw [tokenise, hlex]
              exact htokens
          | eof =>
              refine ⟨[], ?_, Nat.zero_le _⟩
              rw [tokenise, hlex]

/-- The scanner makes progress if and only if it is not at an empty message, and
reaches the end of its text if and only if it never is. -/
theorem lexer_progress_iff (l : Lexer) :
    ((∀ t next, yylex l = (some t, next) → OfText t → next.reader.left < l.reader.left) ↔
      ¬ l.AtEmptyMessage) ∧
    ((∃ fuel tokens, tokenise fuel l = some tokens ∧ tokens.length ≤ l.reader.left) ↔
      ∀ next, ReflTransGen LexStep l next → ¬ next.AtEmptyMessage) := by
  refine ⟨yylex_left_iff l, ?_, ?_⟩
  · rintro ⟨fuel, tokens, htokens, _⟩ next hsteps hempty
    rw [tokenise_eq_none hsteps hempty] at htokens
    cases htokens
  · intro h
    rcases tokenise_completes h (Nat.lt_succ_self _) with ⟨tokens, htokens, hlength⟩
    exact ⟨_, tokens, htokens, hlength⟩

/-- A message whose line is empty. -/
def emptyMessage : Lexer := .start [.data 77 (bytes "ESSAGE\n\n")]

/-- The scanner returns empty strings for ever. -/
theorem exists_endless_text :
    ∃ next t later, ReflTransGen LexStep emptyMessage next ∧ yylex next = (some t, later) ∧
      OfText t ∧ later.reader.left = next.reader.left ∧
      ∀ fuel, tokenise fuel emptyMessage = none := by
  let keyword := (yylex emptyMessage).2
  let header := (yylex keyword).2
  have hkeyword : (yylex emptyMessage).1 = some (symbolToken .message) := by decide +kernel
  have hheader : (yylex keyword).1 = some (symbolToken .newline) := by decide +kernel
  have hfirst : LexStep emptyMessage keyword := lexStep_of_fst hkeyword (by simp [symbolToken])
  have hsecond : LexStep keyword header := lexStep_of_fst hheader (by simp [symbolToken])
  have hsteps : ReflTransGen LexStep emptyMessage header := .tail (.single hfirst) hsecond
  have hempty : header.AtEmptyMessage := by
    constructor
    · decide +kernel
    · decide +kernel
  rcases hempty.yylex with ⟨t, later, hlex, ht, _, hleft⟩
  refine ⟨header, t, later, hsteps, hlex, ?_, hleft, tokenise_eq_none hsteps hempty⟩
  rw [ht]
  exact ofText_stringToken []

end Monitor

end DialdTop
