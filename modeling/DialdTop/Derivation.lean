import DialdTop.LRParser

/-!
# Derivations

What a grammar makes of a sequence of tokens: the values of the symbols, and the
effect of the actions, which run from left to right.  An action which ends the
parser has no place in a derivation.
-/

namespace LR

variable {T N A V E : Type*}

/-- The symbols derive the tokens, with the values of the symbols and the effects
before and after. -/
inductive Derives (G : Grammar T N A) (perform : A → List V → E → Performed V E) :
    List (Symbol T N) → List (Token T V) → List V → E → E → Prop
  | nil {e : E} : Derives G perform [] [] [] e e
  | terminal {kind : T} {t : Token T V} {Xs : List (Symbol T N)} {ts : List (Token T V)}
      {vs : List V} {e e' : E} : t.kind = some kind → Derives G perform Xs ts vs e e' →
        Derives G perform (.terminal kind :: Xs) (t :: ts) (t.value :: vs) e e'
  | nonterminal {n : N} {r : Rule T N A} {Xs : List (Symbol T N)} {ts later : List (Token T V)}
      {us vs : List V} {e e₁ e' : E} : r ∈ G.rules n → Derives G perform r.rhs ts us e e₁ →
        (perform r.action us e₁).accepted = false →
        Derives G perform Xs later vs (perform r.action us e₁).effect e' →
        Derives G perform (.nonterminal n :: Xs) (ts ++ later)
          ((perform r.action us e₁).value :: vs) e e'

variable {G : Grammar T N A} {perform : A → List V → E → Performed V E}
  {Xs : List (Symbol T N)} {ts : List (Token T V)} {vs : List V} {e e' : E}

theorem Derives.eq_nil (h : Derives G perform [] ts vs e e') : ts = [] ∧ vs = [] ∧ e' = e := by
  cases h
  exact ⟨rfl, rfl, rfl⟩

theorem Derives.of_terminal
    {kind : T} (h : Derives G perform (.terminal kind :: Xs) ts vs e e') :
    ∃ t ts' vs', ts = t :: ts' ∧ vs = t.value :: vs' ∧ t.kind = some kind ∧
      Derives G perform Xs ts' vs' e e' := by
  cases h with
  | terminal hkind hlater => exact ⟨_, _, _, rfl, rfl, hkind, hlater⟩

/-- One symbol at a time. -/
theorem Derives.append
    {Ys : List (Symbol T N)} {us : List (Token T V)} {ws : List V} {e₁ : E}
    (h : Derives G perform Xs ts vs e e₁) (hlater : Derives G perform Ys us ws e₁ e') :
    Derives G perform (Xs ++ Ys) (ts ++ us) (vs ++ ws) e e' := by
  induction h with
  | nil => exact hlater
  | terminal hkind _ ih => exact .terminal hkind (ih hlater)
  | nonterminal hr hrhs haccepted _ _ ih =>
      rw [List.append_assoc]
      exact .nonterminal hr hrhs haccepted (ih hlater)

theorem Derives.of_single
    {n : N} {r : Rule T N A} (hrules : G.rules n = [r])
    (h : Derives G perform (.nonterminal n :: Xs) ts vs e e') :
    ∃ ts₁ ts₂ us vs' e₁, ts = ts₁ ++ ts₂ ∧ vs = (perform r.action us e₁).value :: vs' ∧
      Derives G perform r.rhs ts₁ us e e₁ ∧
      Derives G perform Xs ts₂ vs' (perform r.action us e₁).effect e' := by
  cases h with
  | nonterminal hr hrhs _ hlater =>
      rw [hrules, List.mem_singleton] at hr
      subst hr
      exact ⟨_, _, _, _, _, rfl, rfl, hrhs, hlater⟩

/-- The tokens of a sequence come one after the other. -/
theorem Lexes.of_append
    {L : Type*} {lex : L → Option (Token T V) × L} {l l' : L} {us : List (Token T V)}
    (h : Lexes lex l (ts ++ us) l') : ∃ mid, Lexes lex l ts mid ∧ Lexes lex mid us l' := by
  generalize hwhole : ts ++ us = whole at h
  induction h generalizing ts with
  | nil =>
      rw [List.append_eq_nil_iff] at hwhole
      rcases hwhole with ⟨rfl, rfl⟩
      exact ⟨_, .nil, .nil⟩
  | skip hlex hlater ih =>
      rcases ih hwhole with ⟨mid, hfirst, hrest⟩
      cases ts with
      | nil =>
          rw [List.nil_append] at hwhole
          subst hwhole
          exact ⟨_, .nil, .skip hlex hlater⟩
      | cons t ts =>
          cases hwhole
          exact ⟨mid, .skip hlex hfirst, hrest⟩
  | token hlex hlater ih =>
      cases ts with
      | nil =>
          rw [List.nil_append] at hwhole
          subst hwhole
          exact ⟨_, .nil, .token hlex hlater⟩
      | cons t ts =>
          cases hwhole
          rcases ih rfl with ⟨mid, hfirst, hrest⟩
          exact ⟨mid, .token hlex hfirst, hrest⟩

end LR
