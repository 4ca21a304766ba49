import DialdTop.LRStacks

/-!
# The parser as a machine which shifts and reduces

Each entry of the stack but the first one belongs to the symbol over which its
state has been entered.  On these symbols the automaton can be forgotten: the
parser shifts a token, or takes the right-hand side of a production off the top
of the stack and puts its left-hand side there, or drops entries to recover from
an error.  An invariant of this machine is an invariant of every run.
-/

namespace LR

open Relation (ReflTransGen)

variable {T N A : Type*} [DecidableEq T] [DecidableEq N] {G : Grammar T N A}

/-! ## Predictions -/

omit [DecidableEq T] in
theorem subset_reach (next : N → List N) (fuel : ℕ) (todo seen : List N) :
    seen ⊆ Grammar.reach next fuel todo seen := by
  induction fuel generalizing todo seen with
  | zero => exact fun _ h => h
  | succ fuel ih =>
      cases todo with
      | nil => exact fun _ h => h
      | cons m todo =>
          rw [Grammar.reach]
          split
          · exact ih todo seen
          · exact fun n hn => ih _ _ (List.mem_cons_of_mem m hn)

omit [DecidableEq T] in
theorem mem_reach_next
    {next : N → List N} {fuel : ℕ} {todo seen : List N} {n : N}
    (h : n ∈ Grammar.reach next fuel todo seen) :
    n ∈ seen ∨ n ∈ todo ∨ ∃ m ∈ Grammar.reach next fuel todo seen, n ∈ next m := by
  induction fuel generalizing todo seen with
  | zero => exact Or.inl h
  | succ fuel ih =>
      cases todo with
      | nil => exact Or.inl h
      | cons m todo =>
          rw [Grammar.reach] at h ⊢
          split at h
          next hm =>
            rw [if_pos hm]
            rcases ih h with hseen | htodo | hnext
            · exact Or.inl hseen
            · exact Or.inr (Or.inl (List.mem_cons_of_mem m htodo))
            · exact Or.inr (Or.inr hnext)
          next hm =>
            rw [if_neg hm]
            rcases ih h with hseen | htodo | hnext
            · rcases List.mem_cons.mp hseen with rfl | hseen
              · exact Or.inr (Or.inl List.mem_cons_self)
              · exact Or.inl hseen
            · rcases List.mem_append.mp htodo with hn | htodo
              · exact Or.inr (Or.inr ⟨m, subset_reach _ _ _ _ List.mem_cons_self, hn⟩)
              · exact Or.inr (Or.inl (List.mem_cons_of_mem m htodo))
            · exact Or.inr (Or.inr hnext)

omit [DecidableEq T] [DecidableEq N] in
theorem mem_nonterminalsOf {Xs : List (Symbol T N)} {n : N} :
    n ∈ nonterminalsOf Xs ↔ .nonterminal n ∈ Xs := by
  rw [nonterminalsOf, List.mem_filterMap]
  constructor
  · rintro ⟨X, hX, hn⟩
    cases X with
    | nonterminal m =>
        cases hn
        exact hX
    | _ => cases hn
  · exact fun h => ⟨_, h, rfl⟩

omit [DecidableEq T] [DecidableEq N] in
theorem mem_heads {items : List (Item T N A)} {X : Symbol T N} :
    X ∈ heads items ↔ ∃ i ∈ items, i.rest.head? = some X :=
  List.mem_filterMap

omit [DecidableEq T] in
/-- The productions of a nonterminal are predicted because it may come next. -/
theorem mem_heads_of_predicted {q : State T N A} {n : N} (h : n ∈ G.predicted q) :
    .nonterminal n ∈ heads (G.closure q) := by
  rw [mem_heads]
  rcases mem_reach_next h with hseen | hstart | ⟨m, hm, hn⟩
  · cases hseen
  · rcases mem_heads.mp (mem_nonterminalsOf.mp hstart) with ⟨i, hi, hhead⟩
    exact ⟨i, mem_closure.mpr (Or.inl hi), hhead⟩
  · rcases mem_heads.mp (mem_nonterminalsOf.mp hn) with ⟨i, hi, hhead⟩
    exact ⟨i, mem_closure.mpr (Or.inr ⟨m, hm, hi⟩), hhead⟩

omit [DecidableEq T] in
/-- What the closure predicts is found from the items of the state. -/
theorem exists_prediction {q : State T N A} {n : N} (h : n ∈ G.predicted q) :
    ∃ m, (∃ i ∈ q, i.rest.head? = some (.nonterminal m)) ∧
      ReflTransGen (fun a b => .nonterminal b ∈ heads (G.predict a)) m n := by
  rcases mem_reach h with hseen | ⟨m, hm, hpath⟩
  · cases hseen
  · refine ⟨m, mem_heads.mp (mem_nonterminalsOf.mp hm), ?_⟩
    exact hpath.lift id fun _ _ hb => mem_nonterminalsOf.mp hb

omit [DecidableEq T] [DecidableEq N] in
theorem mem_heads_predict {a b : N} :
    (.nonterminal b : Symbol T N) ∈ heads (G.predict a) ↔
      ∃ rule ∈ G.rules a, rule.rhs.head? = some (.nonterminal b) := by
  rw [mem_heads]
  constructor
  · rintro ⟨i, hi, hhead⟩
    rcases List.mem_map.mp hi with ⟨rule, hrule, rfl⟩
    exact ⟨rule, hrule, hhead⟩
  · rintro ⟨rule, hrule, hhead⟩
    exact ⟨_, List.mem_map_of_mem hrule, hhead⟩

/-! ## Symbols of a stack -/

variable (G) in
/-- The states have been entered over the symbols, the last one in front, each of
which could come next. -/
inductive Labelled : List (State T N A) → List (Symbol T N) → Prop
  | initial : Labelled [G.initial] []
  | goto {q : State T N A} {below : List (State T N A)} {symbols : List (Symbol T N)}
      {X : Symbol T N} : Labelled (q :: below) symbols → X ∈ heads (G.closure q) →
        Labelled (G.goto q X :: q :: below) (X :: symbols)

theorem Labelled.exists_top {states : List (State T N A)} {symbols : List (Symbol T N)}
    (h : Labelled G states symbols) : ∃ q below, states = q :: below := by
  cases h with
  | initial => exact ⟨_, _, rfl⟩
  | goto _ _ => exact ⟨_, _, rfl⟩

theorem Labelled.push
    {states : List (State T N A)} {symbols : List (Symbol T N)} (h : Labelled G states symbols)
    {X : Symbol T N} (hX : X ∈ heads (G.closure (states.headD []))) :
    Labelled G (G.goto (states.headD []) X :: states) (X :: symbols) := by
  rcases h.exists_top with ⟨q, below, rfl⟩
  exact .goto h hX

theorem Labelled.unique
    {states states' : List (State T N A)} {symbols : List (Symbol T N)}
    (h : Labelled G states symbols) (h' : Labelled G states' symbols) : states = states' := by
  induction h generalizing states' with
  | initial =>
      cases h'
      rfl
  | goto _ _ ih =>
      cases h' with
      | goto hbelow _ =>
          have heq := ih hbelow
          cases heq
          rfl

theorem Labelled.drop
    {states : List (State T N A)} {symbols : List (Symbol T N)} (h : Labelled G states symbols)
    {n : ℕ} (hn : n ≤ symbols.length) : Labelled G (states.drop n) (symbols.drop n) := by
  induction h generalizing n with
  | initial =>
      have hzero : n = 0 := by simpa using hn
      subst n
      exact .initial
  | goto hq hX ih =>
      cases n with
      | zero => exact .goto hq hX
      | succ n => exact ih (by simpa using hn)

/-- What stands before the point of an item is on top of the stack. -/
theorem Labelled.past
    {q : State T N A} {below : List (State T N A)} {symbols : List (Symbol T N)}
    (h : Labelled G (q :: below) symbols) :
    ∀ i ∈ q, ∃ before, i.Past G before ∧ before.reverse <+: symbols := by
  generalize hstates : q :: below = states at h
  induction h generalizing q below with
  | initial =>
      cases hstates
      intro i hi
      rw [Grammar.initial, List.mem_singleton] at hi
      rw [hi]
      exact ⟨[], rfl, List.nil_prefix⟩
  | @goto q' below' symbols X _ _ ih =>
      cases hstates
      intro i hi
      rcases mem_closure.mp (mem_advance.mp hi) with hkernel | ⟨n, _, hpredicted⟩
      · rcases ih rfl _ hkernel with ⟨before, hpast, hprefix⟩
        refine ⟨before ++ [X], hpast.advance, ?_⟩
        rw [List.reverse_append]
        exact (List.prefix_cons_inj X).mpr hprefix
      · refine ⟨[] ++ [X], (past_of_mem_predict hpredicted).advance, ?_⟩
        exact (List.prefix_cons_inj X).mpr List.nil_prefix

theorem Labelled.exists_past
    {q : State T N A} {below : List (State T N A)} {symbols : List (Symbol T N)}
    (h : Labelled G (q :: below) symbols) {i : Item T N A} (hi : i ∈ G.closure q) :
    ∃ before, i.Past G before ∧ before.reverse <+: symbols := by
  rcases mem_closure.mp hi with hkernel | ⟨n, _, hpredicted⟩
  · exact h.past i hkernel
  · exact ⟨[], past_of_mem_predict hpredicted, List.nil_prefix⟩

theorem Labelled.reduction
    {q : State T N A} {below : List (State T N A)} {symbols : List (Symbol T N)}
    (h : Labelled G (q :: below) symbols) {r : Reduction N A}
    (hr : r ∈ reductions (G.closure q)) :
    ∃ rule ∈ G.rules r.lhs, r = ⟨r.lhs, rule.rhs.length, rule.action⟩ ∧
      rule.rhs.reverse <+: symbols := by
  rcases h.exists_past (mem_reductions.mp hr) with ⟨before, ⟨rule, hrule, hr', hrhs⟩, hprefix⟩
  rw [List.append_nil] at hrhs
  exact ⟨rule, hrule, hr', by rwa [hrhs]⟩

/-- In the state below what stands before the point, the left-hand side may come
next. -/
theorem Labelled.expects
    {q : State T N A} {below : List (State T N A)} {symbols : List (Symbol T N)}
    (h : Labelled G (q :: below) symbols) :
    ∀ i ∈ G.closure q, ∀ r, i.reduction = some r →
      .nonterminal r.lhs ∈
        heads (G.closure (((q :: below).drop (r.length - i.rest.length)).headD [])) := by
  generalize hstates : q :: below = states at h
  induction h generalizing q below with
  | initial =>
      cases hstates
      intro i hi r hr
      rcases mem_closure.mp hi with hkernel | ⟨n, hn, hpredicted⟩
      · rw [Grammar.initial, List.mem_singleton] at hkernel
        subst i
        cases hr
      · rcases List.mem_map.mp hpredicted with ⟨rule, _, rfl⟩
        cases hr
        rw [Nat.sub_self]
        exact mem_heads_of_predicted hn
  | @goto q' below' symbols X hq hX ih =>
      cases hstates
      intro i hi r hr
      rcases mem_closure.mp hi with hkernel | ⟨n, hn, hpredicted⟩
      · have hbefore := mem_advance.mp hkernel
        rcases hq.exists_past hbefore with ⟨before, hpast, _⟩
        have hexpects := ih rfl _ hbefore r hr
        unfold Item.Past at hpast
        simp only [hr] at hpast
        rcases hpast with ⟨rule, _, hr', hrhs⟩
        have hlength : r.length = before.length + (i.rest.length + 1) := by
          rw [hr', hrhs, List.length_append, List.length_cons]
        have hdrop : r.length - i.rest.length = (r.length - (X :: i.rest).length) + 1 := by
          rw [List.length_cons]
          omega
        rw [hdrop, List.drop_succ_cons]
        exact hexpects
      · rcases List.mem_map.mp hpredicted with ⟨rule, _, rfl⟩
        cases hr
        rw [Nat.sub_self]
        exact mem_heads_of_predicted hn

theorem Grammar.decision_shift_mem
    {q q' : State T N A} {kind : Option T} (h : G.decision q (some kind) = .shift q') :
    .ofKind kind ∈ heads (G.closure q) := by
  unfold Grammar.decision at h
  simp only at h
  split at h
  next => cases h
  next hnone _ => cases hnone
  next hkind _ =>
    cases hkind
    split at h
    next htoken => exact List.mem_of_mem_filter htoken
    next =>
      split at h
      · cases h
      · cases h

/-! ## The machine -/

variable {V L E : Type*}

/-- The entries have the top of the stack in front. -/
structure Config (T N V L E : Type*) where
  entries : List (Symbol T N × V)
  char : Option (Token T V)
  lexer : L
  effect : E

def Config.start (l : L) (e : E) : Config T N V L E where
  entries := []
  char := none
  lexer := l
  effect := e

variable (linked : Linked T A V L E)

/-- The effect after an error, which may have been reported. -/
def Reported (c : Config T N V L E) (effect : E) : Prop :=
  effect = c.effect ∨ ∃ t, c.char = some t ∧ effect = (linked.report t c.effect).1

/-- The right-hand side of the rule is on top of the stack, with these values. -/
structure Handle (G : Grammar T N A) (c : Config T N V L E) (n : N) (rule : Rule T N A)
    (values : List V) (below : List (Symbol T N × V)) : Prop where
  rule_mem : rule ∈ G.rules n
  entries : c.entries = (rule.rhs.zip values).reverse ++ below
  length : values.length = rule.rhs.length

def Viable (G : Grammar T N A) (c : Config T N V L E) : Prop :=
  ∃ states, Labelled G states (c.entries.map Prod.fst)

/-- What the automaton decides on behind the symbols. -/
def Decides (G : Grammar T N A) (c : Config T N V L E) (d : Decision T N A) : Prop :=
  ∃ states, Labelled G states (c.entries.map Prod.fst) ∧
    G.decision (states.headD []) (c.char.map Token.kind) = d

inductive Machine (G : Grammar T N A) : Config T N V L E → Config T N V L E → Prop
  | look {c : Config T N V L E} : Decides G c .look → c.char = none →
      Machine G c { c with char := (linked.lex c.lexer).1, lexer := (linked.lex c.lexer).2 }
  | shift {c : Config T N V L E} {q : State T N A} {t : Token T V} :
      Decides G c (.shift q) → c.char = some t →
      Machine G c { c with entries := (.ofKind t.kind, t.value) :: c.entries, char := none }
  | reduce {c : Config T N V L E} {n : N} {rule : Rule T N A} {values : List V}
      {below : List (Symbol T N × V)} :
      Decides G c (.reduce ⟨n, rule.rhs.length, rule.action⟩) → Handle G c n rule values below →
        (linked.perform rule.action values c.effect).accepted = false →
          Machine G c { c with
            entries :=
              (.nonterminal n, (linked.perform rule.action values c.effect).value) :: below
            effect := (linked.perform rule.action values c.effect).effect }
  | recover {c : Config T N V L E} {dropped below : List (Symbol T N × V)}
      {char : Option (Token T V)} {effect : E} : Decides G c .error → c.entries = dropped ++ below →
        char = c.char ∨ char = none → Reported linked c effect →
          Machine G c { c with
            entries := (.error, linked.empty) :: below, char := char, effect := effect }

/-- The last step of a run. -/
inductive Ends (G : Grammar T N A) (c : Config T N V L E) : Outcome T N A V L E → Prop
  | accepted {n : N} {rule : Rule T N A} {values : List V} {below : List (Symbol T N × V)} :
      Handle G c n rule values below →
        (linked.perform rule.action values c.effect).accepted = true →
          Ends G c (.returned 0 c.lexer (linked.perform rule.action values c.effect).effect)
  | returned {result : ℕ} {effect : E} : Reported linked c effect →
      Ends G c (.returned result c.lexer effect)
  | exited {effect : E} : Reported linked c effect → Ends G c (.exited c.lexer effect)

/-- The parser has the entries on its stack, above the initial state. -/
structure Represents (G : Grammar T N A) (c : Config T N V L E) (p : Parser T N A V) (l : L)
    (e : E) : Prop where
  labelled : Labelled G p.states (c.entries.map Prod.fst)
  values : ∃ bottom, p.values = c.entries.map Prod.snd ++ [bottom]
  char : p.char = c.char
  lexer : l = c.lexer
  effect : e = c.effect

variable {linked}

theorem represents_start (linked : Linked T A V L E) (l : L) (e : E) :
    Represents G (Config.start l e) (Parser.start G linked.empty) l e where
  labelled := .initial
  values := ⟨linked.empty, rfl⟩
  char := rfl
  lexer := rfl
  effect := rfl

theorem Grammar.decision_look {q : State T N A} {char : Option (Option T)}
    (h : G.decision q char = .look) : char = none := by
  cases char with
  | none => rfl
  | some kind =>
      unfold Grammar.decision at h
      simp only at h
      split at h
      next => cases h
      next hnone _ => cases hnone
      next =>
        split at h
        · split at h
          · cases h
          · cases h
        · split at h
          · cases h
          · cases h

theorem zip_of_prefix {α β : Type*} {symbols : List α} {entries : List (α × β)}
    (h : symbols.reverse <+: entries.map Prod.fst) :
    entries = (symbols.zip ((entries.map Prod.snd).take symbols.length).reverse).reverse ++
      entries.drop symbols.length := by
  have htake : (entries.take symbols.length).map Prod.fst = symbols.reverse := by
    rw [List.map_take, ← List.length_reverse]
    exact (List.prefix_iff_eq_take.mp h).symm
  have hzip : (symbols.zip ((entries.map Prod.snd).take symbols.length).reverse).reverse =
      entries.take symbols.length := by
    have hsymbols : symbols = ((entries.take symbols.length).map Prod.fst).reverse := by
      rw [htake, List.reverse_reverse]
    have hlength : symbols.length ≤ entries.length := by
      have := h.length_le
      simpa using this
    rw [List.reverse_eq_iff, ← List.map_take]
    conv_lhs => rw [hsymbols]
    rw [← List.map_reverse, ← List.map_reverse]
    simp only [List.length_map, List.length_reverse, List.length_take]
    rw [Nat.min_eq_left hlength]
    exact (List.zip_of_prod rfl rfl).symm
  rw [hzip, List.take_append_drop]

/-! ## Runs of the parser -/

theorem Represents.top
    {c : Config T N V L E} {p : Parser T N A V} {l : L} {e : E} (h : Represents G c p l e) :
    ∃ below, p.states = p.top :: below := by
  rcases h.labelled.exists_top with ⟨q, below, hstates⟩
  refine ⟨below, ?_⟩
  rw [Parser.top, hstates, List.headD_cons]

/-- The reduction which the parser has decided on is that of a production whose
right-hand side is on top of the stack. -/
theorem Represents.handle
    {c : Config T N V L E} {p : Parser T N A V} {l : L} {e : E} (h : Represents G c p l e)
    {r : Reduction N A} (hr : r ∈ reductions (G.closure p.top)) :
    ∃ rule, r = ⟨r.lhs, rule.rhs.length, rule.action⟩ ∧
      Handle G c r.lhs rule (p.values.take r.length).reverse (c.entries.drop r.length) := by
  rcases h.top with ⟨below, hstates⟩
  have hlabelled := h.labelled
  rw [hstates] at hlabelled
  rcases hlabelled.reduction hr with ⟨rule, hrule, hr', hprefix⟩
  have hlength : r.length = rule.rhs.length := congrArg Reduction.length hr'
  have hshort : rule.rhs.length ≤ c.entries.length := by
    have := hprefix.length_le
    simpa using this
  have htake : p.values.take r.length = (c.entries.map Prod.snd).take rule.rhs.length := by
    rcases h.values with ⟨bottom, hvalues⟩
    rw [hvalues, hlength, List.take_append_of_le_length]
    simpa using hshort
  refine ⟨rule, hr', hrule, ?_, ?_⟩
  · rw [htake, hlength]
    exact zip_of_prefix hprefix
  · rw [htake]
    simp [hshort]

theorem Represents.recover
    {c : Config T N V L E} {p : Parser T N A V} {l : L} {e : E} (h : Represents G c p l e)
    {states : List (State T N A)} {values : List V}
    (hrecover : LR.recover G p.states p.values = some (states, values)) :
    ∃ dropped below, c.entries = dropped ++ below ∧ Labelled G states (below.map Prod.fst) ∧
      .error ∈ heads (G.closure (states.headD [])) ∧
        ∃ bottom, values = below.map Prod.snd ++ [bottom] := by
  rcases h.values with ⟨bottom, hvalues⟩
  have hlabelled := h.labelled
  rw [hvalues] at hrecover
  generalize c.entries = entries at hlabelled hrecover ⊢
  generalize p.states = old at hlabelled hrecover
  induction entries generalizing old with
  | nil =>
      cases hlabelled
      rw [List.map_nil, List.nil_append, LR.recover] at hrecover
      split at hrecover
      next herror =>
        cases hrecover
        exact ⟨[], [], rfl, .initial, List.mem_of_mem_filter herror, bottom, rfl⟩
      next => cases hrecover
  | cons entry entries ih =>
      cases hlabelled with
      | goto hbelow hentry =>
          rw [List.map_cons, List.cons_append, LR.recover] at hrecover
          split at hrecover
          next herror =>
            cases hrecover
            exact ⟨[], entry :: entries, rfl, .goto hbelow hentry, List.mem_of_mem_filter herror,
              bottom, rfl⟩
          next =>
            rcases ih _ hbelow hrecover with ⟨dropped, below, hsplit, hrest⟩
            exact ⟨entry :: dropped, below, by rw [hsplit, List.cons_append], hrest⟩

/-- What the machine does for a step of the parser. -/
def Simulates (G : Grammar T N A) (linked : Linked T A V L E) (c : Config T N V L E) :
    Outcome T N A V L E → Prop
  | .running p l e => ∃ c', Machine linked G c c' ∧ Represents G c' p l e
  | o => Ends linked G c o

theorem Represents.decides
    {c : Config T N V L E} {p : Parser T N A V} {l : L} {e : E} (h : Represents G c p l e)
    {d : Decision T N A} (hd : G.decision p.top (p.char.map Token.kind) = d) : Decides G c d := by
  rw [h.char] at hd
  exact ⟨p.states, h.labelled, hd⟩

theorem Represents.handleError
    {c : Config T N V L E} {p : Parser T N A V} {l : L} {e : E} (h : Represents G c p l e)
    (hdecides : Decides G c .error) {effect : E} (hreported : Reported linked c effect) :
    Simulates G linked c (p.handleError G linked.empty l effect) := by
  unfold Parser.handleError
  dsimp only
  rw [h.lexer]
  split
  next => exact .returned hreported
  next =>
    split
    next => exact .returned hreported
    next states values hrecover =>
      rcases h.recover hrecover with ⟨dropped, below, hsplit, hlabelled, herror, bottom, hbottom⟩
      have hchar : (if p.errStatus = 3 then none else p.char) = c.char ∨
          (if p.errStatus = 3 then none else p.char) = none := by
        split
        · exact Or.inr rfl
        · exact Or.inl h.char
      exact ⟨_, .recover hdecides hsplit hchar hreported, hlabelled.push herror,
        ⟨bottom, by rw [hbottom]; rfl⟩, rfl, rfl, rfl⟩

theorem Represents.step
    {c : Config T N V L E} {p : Parser T N A V} {l : L} {e : E} (h : Represents G c p l e) :
    Simulates G linked c (LR.step G linked p l e) := by
  cases hdecision : G.decision p.top (p.char.map Token.kind) with
  | look =>
      have hchar := Grammar.decision_look hdecision
      rw [Option.map_eq_none_iff, h.char] at hchar
      rw [LR.step, hdecision, h.lexer]
      exact ⟨_, .look (h.decides hdecision) hchar, h.labelled, h.values, rfl, rfl, h.effect⟩
  | shift q =>
      rcases Grammar.decision_shift hdecision with ⟨kind, hchar, hq⟩
      rcases Option.map_eq_some_iff.mp hchar with ⟨t, ht, rfl⟩
      rw [LR.step, hdecision]
      dsimp only
      rw [ht, hq]
      rcases h.values with ⟨bottom, hvalues⟩
      have hnext : .ofKind t.kind ∈ heads (G.closure p.top) := by
        rw [hchar] at hdecision
        exact Grammar.decision_shift_mem hdecision
      refine ⟨_, .shift (h.decides hdecision) (h.char.symm.trans ht), h.labelled.push hnext,
        ⟨bottom, ?_⟩, rfl, h.lexer, h.effect⟩
      rw [hvalues]
      rfl
  | reduce r =>
      have hreduction := Grammar.decision_reduce hdecision
      rcases h.handle hreduction with ⟨rule, hr, hhandle⟩
      have hdecides := h.decides hdecision
      rw [hr] at hdecides
      have haction : r.action = rule.action := congrArg Reduction.action hr
      have hlength : r.length = rule.rhs.length := congrArg Reduction.length hr
      rw [LR.step, hdecision]
      dsimp only
      rw [haction, h.effect, h.lexer]
      split
      next haccepted => exact .accepted hhandle haccepted
      next haccepted =>
        have hshort : r.length ≤ c.entries.length := by
          have hentries := congrArg List.length hhandle.entries
          rw [List.length_append, List.length_reverse, List.length_zip, hhandle.length,
            Nat.min_self] at hentries
          omega
        have hlabelled := h.labelled.drop (n := r.length) (by simpa using hshort)
        have hexpects : .nonterminal r.lhs ∈
            heads (G.closure ((p.states.drop r.length).headD [])) := by
          rcases h.top with ⟨below, hstates⟩
          have htop := h.labelled
          rw [hstates] at htop ⊢
          exact htop.expects _ (mem_reductions.mp hreduction) r rfl
        rcases h.values with ⟨bottom, hvalues⟩
        refine ⟨_, .reduce hdecides hhandle (by simpa using haccepted), ?_, ⟨bottom, ?_⟩, h.char,
          rfl, rfl⟩
        · rw [List.map_cons, List.map_drop]
          exact hlabelled.push hexpects
        · dsimp only
          rw [hvalues, List.drop_append_of_le_length (by simpa using hshort), List.map_cons,
            List.map_drop]
          rfl
  | accept =>
      rw [LR.step, hdecision, h.effect, h.lexer]
      exact .returned (Or.inl rfl)
  | error =>
      have hdecides := h.decides hdecision
      rw [LR.step, hdecision]
      dsimp only
      split
      next token htoken =>
        have hreport : Reported linked c (linked.report token e).1 :=
          Or.inr ⟨token, h.char.symm.trans htoken, by rw [h.effect]⟩
        split
        · split
          · rw [h.lexer]
            exact .exited hreport
          · exact h.handleError hdecides hreport
        · exact h.handleError hdecides (Or.inl h.effect)
      next => exact h.handleError hdecides (Or.inl h.effect)

/-- The outcome of the given number of steps, or of all steps if there are fewer. -/
def after (G : Grammar T N A) (linked : Linked T A V L E) :
    ℕ → Parser T N A V → L → E → Outcome T N A V L E
  | 0, p, l, e => .running p l e
  | n + 1, p, l, e =>
      match step G linked p l e with
      | .running p l e => after G linked n p l e
      | done => done

/-- The parser goes on from the configuration, or has ended there. -/
def Describes (G : Grammar T N A) (linked : Linked T A V L E) (c : Config T N V L E) :
    Outcome T N A V L E → Prop
  | .running p l e => Represents G c p l e
  | o => Ends linked G c o

/-- An invariant of the machine holds wherever the parser gets to. -/
theorem after_invariant
    (linked : Linked T A V L E) {I : Config T N V L E → Prop}
    (hmachine : ∀ c c', I c → Machine linked G c c' → Viable G c' → I c')
    {c : Config T N V L E} {p : Parser T N A V} {l : L} {e : E} (hI : I c)
    (h : Represents G c p l e) (n : ℕ) :
    ∃ c', I c' ∧ Describes G linked c' (after G linked n p l e) := by
  induction n generalizing c p l e with
  | zero => exact ⟨c, hI, h⟩
  | succ n ih =>
      have hstep : Simulates G linked c (step G linked p l e) := h.step
      rw [after]
      cases hnext : step G linked p l e with
      | running p' l' e' =>
          rw [hnext] at hstep
          rcases hstep with ⟨c', hc', hrepresents⟩
          exact ih (hmachine c c' hI hc' ⟨p'.states, hrepresents.labelled⟩) hrepresents
      | returned result l' e' =>
          rw [hnext] at hstep
          exact ⟨c, hI, hstep⟩
      | exited l' e' =>
          rw [hnext] at hstep
          exact ⟨c, hI, hstep⟩

/-- Every run of the parser is of a number of steps. -/
theorem exists_after
    {fuel : ℕ} {p : Parser T N A V} {l : L} {e : E} {o : Outcome T N A V L E}
    (h : run G linked fuel p l e = some o) : o.Final ∧ ∃ n, after G linked n p l e = o := by
  induction fuel generalizing p l e with
  | zero => cases h
  | succ fuel ih =>
      rw [run] at h
      cases hstep : step G linked p l e with
      | running p' l' e' =>
          rw [hstep] at h
          rcases ih h with ⟨hfinal, n, hn⟩
          refine ⟨hfinal, n + 1, ?_⟩
          rw [after, hstep]
          exact hn
      | returned result l' e' =>
          rw [hstep] at h
          cases h
          refine ⟨trivial, 1, ?_⟩
          rw [after, hstep]
      | exited l' e' =>
          rw [hstep] at h
          cases h
          refine ⟨trivial, 1, ?_⟩
          rw [after, hstep]

theorem run_of_after
    {n : ℕ} {p : Parser T N A V} {l : L} {e : E} {o : Outcome T N A V L E}
    (h : after G linked n p l e = o) (hfinal : o.Final) : run G linked n p l e = some o := by
  induction n generalizing p l e with
  | zero =>
      rw [← h] at hfinal
      exact absurd hfinal not_false
  | succ n ih =>
      rw [after] at h
      rw [run]
      cases hstep : step G linked p l e with
      | running p' l' e' =>
          rw [hstep] at h
          exact ih h
      | returned result l' e' =>
          rw [hstep] at h
          exact congrArg some h
      | exited l' e' =>
          rw [hstep] at h
          exact congrArg some h

end LR
