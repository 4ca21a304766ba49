import DialdTop.MonitorTypes
import DialdTop.ParserErasure

/-!
# The memory of the parser

The strings of the scanner are memory from `malloc`, which the actions of
`monitor.y` give back.  This is the program when it is built without obstacks.
A value is a pointer together with the text behind it; what is read, given back
and moved is checked against the list of the blocks which have been given back.
-/

namespace DialdTop

namespace Monitor

/-! ## Memory -/

/-- Memory from `malloc` in `lex_string` or from `realloc`, by the number of the
call. -/
inductive Block
  | lexed (n : ℕ)
  | grown (n : ℕ)
  deriving DecidableEq

/-- `YYSTYPE` with its pointers.  The pointer to no block is `yynullstr`. -/
inductive Datum
  | undefined
  | number (n : Int)
  | string (block : Option Block) (text : List Byte)
  deriving DecidableEq

def Datum.erase : Datum → Value
  | .undefined => .undefined
  | .number n => .number n
  | .string _ text => .string text

def Datum.block : Datum → Option Block
  | .string block _ => block
  | _ => none

/-- Which calls of the library functions find memory. -/
structure Allocator where
  malloc : ℕ → Bool
  realloc : ℕ → Bool

inductive Fault
  | readsFreed (b : Block)
  | freesTwice (b : Block)
  | movesFreed (b : Block)
  | movesConstant
  | wildPointer
  deriving DecidableEq

/-- `moves` counts the calls of `realloc`. -/
structure Heap where
  freed : List Block
  moves : ℕ
  faults : List Fault
  deriving DecidableEq

def Heap.fault (h : Heap) (f : Fault) : Heap := { h with faults := h.faults ++ [f] }

def Heap.read (h : Heap) : Datum → Heap
  | .string (some b) _ => if b ∈ h.freed then h.fault (.readsFreed b) else h
  | .string none _ => h
  | _ => h.fault .wildPointer

def Heap.lexFree (h : Heap) : Datum → Heap
  | .string (some b) _ =>
      if b ∈ h.freed then h.fault (.freesTwice b) else { h with freed := b :: h.freed }
  | .string none _ => h
  | _ => h.fault .wildPointer

/-- The new block, or nothing when there is no memory for it. -/
def Heap.move (a : Allocator) (h : Heap) (old : List Block) : Heap × Option Block :=
  if a.realloc h.moves then
    ({ h with freed := old ++ h.freed, moves := h.moves + 1 }, some (.grown h.moves))
  else ({ h with moves := h.moves + 1 }, none)

def Heap.realloc (a : Allocator) (h : Heap) : Datum → Heap × Option Block
  | .string (some b) _ =>
      if b ∈ h.freed then (h.fault (.movesFreed b)).move a [] else h.move a [b]
  | .string none _ => (h.fault .movesConstant).move a []
  | _ => (h.fault .wildPointer).move a []

/-! ## The scanner -/

/-- `allocated` counts the calls of `malloc`. -/
structure AllocatingLexer where
  lexer : Lexer
  allocated : ℕ

def lexString (a : Allocator) (n : ℕ) (yytext : List Byte) : Datum :=
  if a.malloc n then .string (some (.lexed n)) yytext else .string none []

def AllocatingLexer.store (a : Allocator) (n : ℕ) : Value → Datum × ℕ
  | .undefined => (.undefined, n)
  | .number k => (.number k, n)
  | .string yytext => (lexString a n yytext, n + 1)

def AllocatingLexer.yylex (a : Allocator) (l : AllocatingLexer) :
    Option (LR.Token TokenKind Datum) × AllocatingLexer :=
  let lexed := Monitor.yylex l.lexer
  match lexed.1 with
  | none => (none, ⟨lexed.2, l.allocated⟩)
  | some t =>
      let stored := store a l.allocated t.value
      (some ⟨t.kind, stored.1⟩, ⟨lexed.2, stored.2⟩)

/-! ## The actions -/

/-- `belch` is `$$ = $1` and gives `$2` back. -/
inductive FreeingAction
  | named (action : Action)
  | belch
  deriving DecidableEq

def FreeingAction.erase : FreeingAction → Action
  | .named action => action
  | .belch => .first

abbrev FreeingRule := LR.Rule TokenKind Nonterminal FreeingAction

def freeingProductions : Nonterminal → List FreeingRule
  | .belch =>
      [⟨[symbol .blurbs, symbol .time], .belch⟩,
        ⟨[symbol .blurbs, symbol .string], .belch⟩,
        ⟨[symbol .blurbs, tokenSymbol .endqueue], .named .first⟩,
        ⟨[symbol .blurbs, tokenSymbol .ip], .belch⟩,
        ⟨[symbol .blurbs, tokenSymbol .port], .named .first⟩,
        ⟨[symbol .blurbs, tokenSymbol .newline], .named .first⟩,
        ⟨[symbol .blurbs, tokenSymbol .num], .named .first⟩]
  | n => (productions n).map (.map .named)

def freeingGrammar : LR.Grammar TokenKind Nonterminal FreeingAction where
  nonterminals := grammar.nonterminals
  rules := freeingProductions
  start := grammar.start

/-- The symbols whose texts are read before the call is made. -/
def FreeingAction.uses : FreeingAction → List ℕ
  | .named .append => [1, 2]
  | .named .status => [8, 9, 10]
  | .named .interface => [2, 3, 4]
  | .named .state | .named .message => [2]
  | .named .packet => [1, 2, 4, 6]
  | .named .numberedPacket => [2, 4, 6]
  | _ => []

/-- The arguments of `lex_free` in order. -/
def FreeingAction.frees : FreeingAction → List ℕ
  | .belch | .named .append => [2]
  | .named .status => [10, 9, 8]
  | .named .interface => [4, 3, 2]
  | .named .state | .named .message => [2]
  | .named .packet => [6, 4, 2, 1]
  | .named .numberedPacket => [6, 4, 2]
  | _ => []

structure MemoryEffects where
  effects : Effects
  heap : Heap

def MemoryEffects.none : MemoryEffects where
  effects := .none
  heap := { freed := [], moves := 0, faults := [] }

/-- `$i`. -/
def datum (data : List Datum) (i : ℕ) : Datum := (data[i - 1]?).getD .undefined

def Heap.readAll (h : Heap) (data : List Datum) (is : List ℕ) : Heap :=
  is.foldl (fun h i => h.read (datum data i)) h

def Heap.freeAll (h : Heap) (data : List Datum) (is : List ℕ) : Heap :=
  is.foldl (fun h i => h.lexFree (datum data i)) h

def performFreeing (w : Surroundings) (a : Allocator) (action : FreeingAction)
    (data : List Datum) (e : MemoryEffects) : LR.Performed Datum MemoryEffects :=
  let values := data.map Datum.erase
  let done := perform w action.erase values e.effects
  let used := e.heap.readAll data action.uses
  match action with
  | .named .append =>
      let moved := used.realloc a (datum data 1)
      let value :=
        match moved.2 with
        | some b => .string (some b) (cString (text values 1) ++ cString (text values 2))
        | none => datum data 1
      let heap := moved.1.freeAll data action.frees
      { value := value, effect := { effects := done.effect, heap := heap }, accepted := false }
  | _ =>
      let heap := used.freeAll data action.frees
      { value := data.headD .undefined, effect := { effects := done.effect, heap := heap }
        accepted := done.accepted }

def linkedFreeing (w : Surroundings) (a : Allocator) :
    LR.Linked TokenKind FreeingAction Datum AllocatingLexer MemoryEffects where
  lex := AllocatingLexer.yylex a
  perform := performFreeing w a
  report t e :=
    let reported := yyerror w (t.map Datum.erase) e.effects
    ({ e with effects := reported.1 }, reported.2)
  empty := .undefined

abbrev FreeingOutcome :=
  LR.Outcome TokenKind Nonterminal FreeingAction Datum AllocatingLexer MemoryEffects

abbrev FreeingConfig := LR.Config TokenKind Nonterminal Datum AllocatingLexer MemoryEffects

def AllocatingLexer.start (input : List (Scanner.Arrival Byte)) : AllocatingLexer where
  lexer := .start input
  allocated := 0

/-- Where the loops around `yyparse` get to between its calls. -/
inductive FreeingBetween (w : Surroundings) (a : Allocator) :
    AllocatingLexer → MemoryEffects → Prop
  | start (input : List (Scanner.Arrival Byte)) : FreeingBetween w a (.start input) .none
  | opened {l : AllocatingLexer} {e : MemoryEffects} (yaccEof : Bool) :
      FreeingBetween w a l e →
        FreeingBetween w a { l with lexer := { l.lexer with yaccEof := yaccEof } } e
  | again {fuel result : ℕ} {l l' : AllocatingLexer} {e e' : MemoryEffects} :
      FreeingBetween w a l e →
        LR.parse freeingGrammar (linkedFreeing w a) fuel l e = some (.returned result l' e') →
          FreeingBetween w a l' e'

/-! ## Memory which never runs out -/

structure Allocator.Unfailing (a : Allocator) : Prop where
  malloc : ∀ n, a.malloc n = true
  realloc : ∀ n, a.realloc n = true

theorem freeingGrammar_erase : freeingGrammar.map FreeingAction.erase = grammar := by
  have hrules : (freeingGrammar.map FreeingAction.erase).rules = productions := by
    funext n
    cases n <;> rfl
  rw [LR.Grammar.map, LR.Grammar.mk.injEq]
  exact ⟨rfl, hrules, rfl⟩

theorem Heap.realloc_unfailing
    {a : Allocator} (ha : a.Unfailing) (h : Heap) (d : Datum) :
    ∃ b, (h.realloc a d).2 = some b := by
  have hmove : ∀ (h : Heap) (old : List Block), ∃ b, (h.move a old).2 = some b := by
    intro h old
    refine ⟨.grown h.moves, ?_⟩
    rw [Heap.move, if_pos (ha.realloc _)]
  unfold Heap.realloc
  split
  · split
    · exact hmove _ _
    · exact hmove _ _
  · exact hmove _ _
  · exact hmove _ _

theorem headD_erase (data : List Datum) :
    (data.headD .undefined).erase = (data.map Datum.erase).headD .undefined := by
  cases data with
  | nil => rfl
  | cons d data => rfl

theorem AllocatingLexer.yylex_erase
    {a : Allocator} (ha : a.Unfailing) (l : AllocatingLexer) :
    Monitor.yylex l.lexer =
      ((l.yylex a).1.map (LR.Token.map Datum.erase), (l.yylex a).2.lexer) := by
  unfold AllocatingLexer.yylex
  generalize Monitor.yylex l.lexer = lexed
  rcases lexed with ⟨token, next⟩
  cases token with
  | none => rfl
  | some t =>
      rcases t with ⟨kind, value⟩
      cases value with
      | undefined => rfl
      | number n => rfl
      | string text =>
          simp only [store, lexString, ha.malloc, if_true]
          rfl

theorem performFreeing_erase
    (w : Surroundings) {a : Allocator} (ha : a.Unfailing) (action : FreeingAction)
    (data : List Datum) (e : MemoryEffects) :
    perform w action.erase (data.map Datum.erase) e.effects =
      ⟨(performFreeing w a action data e).value.erase,
        (performFreeing w a action data e).effect.effects,
        (performFreeing w a action data e).accepted⟩ := by
  have hhead := headD_erase data
  cases action with
  | belch =>
      dsimp only [performFreeing]
      rw [hhead]
      rfl
  | named action =>
      cases action with
      | append =>
          rcases (e.heap.readAll data (FreeingAction.named .append).uses).realloc_unfailing ha
            (datum data 1) with ⟨b, hb⟩
          dsimp only [performFreeing]
          rw [hb]
          rfl
      | _ =>
          dsimp only [performFreeing]
          rw [hhead]
          rfl

theorem erases_freeing (w : Surroundings) {a : Allocator} (ha : a.Unfailing) :
    LR.Erases (linkedFreeing w a) (linked w) FreeingAction.erase Datum.erase
      AllocatingLexer.lexer MemoryEffects.effects where
  lex := AllocatingLexer.yylex_erase ha
  perform := performFreeing_erase w ha
  report _ _ := rfl
  empty := rfl

/-! ## Ownership -/

def isText (X : Symbol) : Bool :=
  match content X with
  | .clock | .address | .line => true
  | _ => false

/-- One of the first calls of `malloc` has failed. -/
def Allocator.FailedBefore (a : Allocator) (allocated : ℕ) : Prop :=
  ∃ n < allocated, a.malloc n = false

theorem Allocator.FailedBefore.mono
    {a : Allocator} {m n : ℕ} (h : a.FailedBefore m) (hmn : m ≤ n) : a.FailedBefore n := by
  rcases h with ⟨k, hk, hfails⟩
  exact ⟨k, hk.trans_le hmn, hfails⟩

/-- A pointer is `yynullstr` only after `malloc` has failed. -/
def Datum.Pointer (a : Allocator) (allocated : ℕ) (d : Datum) : Prop :=
  ∃ block text, d = .string block text ∧ (block = none → a.FailedBefore allocated)

def HasPointer (a : Allocator) (allocated : ℕ) (entry : Symbol × Datum) : Prop :=
  isText entry.1 = true → entry.2.Pointer a allocated

theorem HasPointer.mono
    {a : Allocator} {m n : ℕ} {entry : Symbol × Datum} (h : HasPointer a m entry) (hmn : m ≤ n) :
    HasPointer a n entry := by
  intro htext
  rcases h htext with ⟨block, text, heq, hnull⟩
  exact ⟨block, text, heq, fun hnone => (hnull hnone).mono hmn⟩

/-- The block which only this entry of the stack may give back. -/
def ownedBy (entry : Symbol × Datum) : Option Block :=
  if isText entry.1 then entry.2.block else none

/-- The blocks are different ones and have not been given back, and no fault has
happened but that `yynullstr` was to be moved. -/
structure Owns (a : Allocator) (allocated : ℕ) (blocks : List Block) (h : Heap) : Prop where
  nodup : (blocks ++ h.freed).Nodup
  lexed : ∀ n, .lexed n ∈ blocks ++ h.freed → n < allocated
  grown : ∀ n, .grown n ∈ blocks ++ h.freed → n < h.moves
  faults : ∀ f ∈ h.faults, f = .movesConstant ∧ a.FailedBefore allocated

theorem filterMap_cons_toList {α β : Type*} (f : α → Option β) (x : α) (l : List α) :
    (x :: l).filterMap f = (f x).toList ++ l.filterMap f := by
  rw [List.filterMap_cons]
  cases f x with
  | none => rfl
  | some y => rfl

section Ownership

variable {a : Allocator} {allocated : ℕ} {blocks rest : List Block} {h : Heap} {d : Datum}

theorem Owns.of_subperm
    (ho : Owns a allocated blocks h) (hrest : rest.Subperm blocks) : Owns a allocated rest h := by
  have hsubperm : (rest ++ h.freed).Subperm (blocks ++ h.freed) :=
    (List.subperm_append_right _).mpr hrest
  refine ⟨?_, ?_, ?_, ho.faults⟩
  · rcases hsubperm with ⟨l, hl, hsublist⟩
    exact hl.nodup_iff.mp (ho.nodup.sublist hsublist)
  · exact fun n hn => ho.lexed n (hsubperm.subset hn)
  · exact fun n hn => ho.grown n (hsubperm.subset hn)

theorem Owns.notMem_freed (ho : Owns a allocated blocks h) {b : Block} (hb : b ∈ blocks) :
    b ∉ h.freed := fun hfreed => List.disjoint_of_nodup_append ho.nodup hb hfreed

theorem Heap.read_of_owns
    (ho : Owns a allocated blocks h) (hd : d.Pointer a allocated) (hb : ∀ b ∈ d.block, b ∈ blocks) :
    h.read d = h := by
  rcases hd with ⟨block, text, rfl, _⟩
  cases block with
  | none => rfl
  | some b => exact if_neg (ho.notMem_freed (hb b rfl))

theorem Owns.lexFree
    (ho : Owns a allocated (d.block.toList ++ rest) h) (hd : d.Pointer a allocated) :
    Owns a allocated rest (h.lexFree d) := by
  rcases hd with ⟨block, text, rfl, _⟩
  cases block with
  | none => exact ho
  | some b =>
      have hb : b ∉ h.freed := ho.notMem_freed (by simp [Datum.block])
      have hfree : h.lexFree (.string (some b) text) = { h with freed := b :: h.freed } := if_neg hb
      have hperm : (rest ++ b :: h.freed).Perm (b :: rest ++ h.freed) := List.perm_middle
      rw [hfree]
      refine ⟨hperm.nodup_iff.mpr ho.nodup, ?_, ?_, ho.faults⟩
      · exact fun n hn => ho.lexed n (hperm.subset hn)
      · exact fun n hn => ho.grown n (hperm.subset hn)

theorem Owns.move
    {old : List Block} (ho : Owns a allocated (old ++ rest) h) :
    Owns a allocated ((h.move a old).2.elim old (fun b => [b]) ++ rest) (h.move a old).1 := by
  unfold Heap.move
  split
  · have hperm : (rest ++ (old ++ h.freed)).Perm (old ++ rest ++ h.freed) := by
      rw [← List.append_assoc]
      exact List.perm_append_comm.append_right _
    have hnew : .grown h.moves ∉ old ++ rest ++ h.freed := fun hmem =>
      absurd (ho.grown _ hmem) (lt_irrefl _)
    refine ⟨?_, ?_, ?_, ho.faults⟩
    · change (.grown h.moves :: (rest ++ (old ++ h.freed))).Nodup
      rw [List.nodup_cons, hperm.mem_iff, hperm.nodup_iff]
      exact ⟨hnew, ho.nodup⟩
    · intro n hn
      rcases List.mem_cons.mp hn with heq | hn
      · cases heq
      · exact ho.lexed n (hperm.subset hn)
    · intro n hn
      rcases List.mem_cons.mp hn with heq | hn
      · cases heq
        exact Nat.lt_succ_self _
      · exact (ho.grown n (hperm.subset hn)).trans (Nat.lt_succ_self _)
  · exact ⟨ho.nodup, ho.lexed, fun n hn => (ho.grown n hn).trans (Nat.lt_succ_self _), ho.faults⟩

theorem Owns.realloc
    (ho : Owns a allocated (d.block.toList ++ rest) h) (hd : d.Pointer a allocated) :
    Owns a allocated ((h.realloc a d).2.elim d.block.toList (fun b => [b]) ++ rest)
      (h.realloc a d).1 := by
  rcases hd with ⟨block, text, rfl, hnull⟩
  cases block with
  | none =>
      have hfault : Owns a allocated ([] ++ rest) (h.fault .movesConstant) := by
        refine ⟨ho.nodup, ho.lexed, ho.grown, ?_⟩
        intro f hf
        rcases List.mem_append.mp hf with hf | hf
        · exact ho.faults f hf
        · exact ⟨List.mem_singleton.mp hf, hnull rfl⟩
      exact hfault.move
  | some b =>
      have hb : b ∉ h.freed := ho.notMem_freed (by simp [Datum.block])
      have hmove : h.realloc a (.string (some b) text) = h.move a [b] := if_neg hb
      rw [hmove]
      have howned : Owns a allocated ([b] ++ rest) h := ho
      exact howned.move

theorem Heap.readAll_of_owns
    {data : List Datum} {is : List ℕ} (ho : Owns a allocated blocks h)
    (hpointers : ∀ i ∈ is, (datum data i).Pointer a allocated)
    (hblocks : ∀ i ∈ is, ∀ b ∈ (datum data i).block, b ∈ blocks) : h.readAll data is = h := by
  unfold Heap.readAll
  induction is with
  | nil => rfl
  | cons i is ih =>
      rw [List.foldl_cons, Heap.read_of_owns ho (hpointers i List.mem_cons_self)
        (hblocks i List.mem_cons_self)]
      exact ih (fun j hj => hpointers j (List.mem_cons_of_mem i hj))
        (fun j hj => hblocks j (List.mem_cons_of_mem i hj))

theorem Owns.freeAll
    {data : List Datum} {is : List ℕ}
    (ho : Owns a allocated (is.filterMap (fun i => (datum data i).block) ++ rest) h)
    (hpointers : ∀ i ∈ is, (datum data i).Pointer a allocated) :
    Owns a allocated rest (h.freeAll data is) := by
  unfold Heap.freeAll
  induction is generalizing h with
  | nil => exact ho
  | cons i is ih =>
      refine ih ?_ fun j hj => hpointers j (List.mem_cons_of_mem i hj)
      rw [filterMap_cons_toList, List.append_assoc] at ho
      exact ho.lexFree (hpointers i List.mem_cons_self)

end Ownership

/-! ## Right-hand sides -/

theorem filterMap_getElem_subperm
    {α β : Type*} (g : α → Option β) (l : List α) {ks : List ℕ} (hks : ks.Nodup) :
    (ks.filterMap fun k => l[k]?.bind g).Subperm (l.filterMap g) := by
  have hall : l.filterMap g = (List.range l.length).filterMap fun k => l[k]?.bind g := by
    induction l with
    | nil => rfl
    | cons x l ih =>
        rw [List.length_cons, List.range_succ_eq_map, List.filterMap_cons, List.filterMap_cons,
          List.filterMap_map, ih]
        rfl
  have hinside : ks.filterMap (fun k => l[k]?.bind g) =
      (ks.filter (· < l.length)).filterMap fun k => l[k]?.bind g := by
    rw [List.filterMap_filter]
    apply List.filterMap_congr
    intro k _
    split
    next => rfl
    next hk =>
      rw [List.getElem?_eq_none (by simpa using hk)]
      rfl
  have hsubset : ks.filter (· < l.length) ⊆ List.range l.length := by
    intro k hk
    simpa using (List.mem_filter.mp hk).2
  rcases List.subperm_of_subset (hks.filter _) hsubset with ⟨ks', hperm, hsublist⟩
  rw [hinside, hall]
  exact ⟨_, hperm.filterMap _, hsublist.filterMap _⟩

/-- What an action reads and gives back are the strings of its right-hand side,
none of them twice. -/
theorem freeingProductions_reads (n : Nonterminal) :
    ∀ rule ∈ freeingProductions n, rule.action.frees.Nodup ∧
      ∀ i ∈ rule.action.uses ++ rule.action.frees,
        0 < i ∧ (rule.rhs[i - 1]?).map isText = some true := by
  cases n <;> decide

theorem freeingProductions_text (n : Nonterminal) :
    ∀ rule ∈ freeingProductions n, isText (.nonterminal n) = false ∨
      rule.action = .named .accept ∨ rule.action = .named .append ∨
      rule.action = .named .first ∧ (rule.rhs[0]?).map isText = some true := by
  cases n <;> decide

/-- The values of a right-hand side. -/
structure Holding (a : Allocator) (allocated : ℕ) (rhs : List Symbol) (data : List Datum) :
    Prop where
  length : data.length = rhs.length
  pointers : ∀ entry ∈ rhs.zip data, HasPointer a allocated entry

section Holding

variable {a : Allocator} {allocated : ℕ} {rhs : List Symbol} {data : List Datum} {i : ℕ}

theorem Holding.entry
    (h : Holding a allocated rhs data) (hi : (rhs[i - 1]?).map isText = some true) :
    ∃ X, isText X = true ∧ (rhs.zip data)[i - 1]? = some (X, datum data i) := by
  rcases Option.map_eq_some_iff.mp hi with ⟨X, hX, htext⟩
  rcases List.getElem?_eq_some_iff.mp hX with ⟨hlt, _⟩
  have hinside : i - 1 < data.length := h.length ▸ hlt
  have hdatum : data[i - 1]? = some data[i - 1] := List.getElem?_eq_getElem hinside
  refine ⟨X, htext, ?_⟩
  rw [List.getElem?_zip_eq_some, datum, hdatum]
  exact ⟨hX, rfl⟩

theorem Holding.pointer
    (h : Holding a allocated rhs data) (hi : (rhs[i - 1]?).map isText = some true) :
    (datum data i).Pointer a allocated := by
  rcases h.entry hi with ⟨X, htext, hentry⟩
  exact h.pointers _ (List.mem_of_getElem? hentry) htext

theorem Holding.ownedBy
    (h : Holding a allocated rhs data) (hi : (rhs[i - 1]?).map isText = some true) :
    (rhs.zip data)[i - 1]?.bind Monitor.ownedBy = (datum data i).block := by
  rcases h.entry hi with ⟨X, htext, hentry⟩
  rw [hentry]
  exact if_pos htext

theorem Holding.subperm
    (h : Holding a allocated rhs data) {is : List ℕ} (his : is.Nodup)
    (htext : ∀ i ∈ is, 0 < i ∧ (rhs[i - 1]?).map isText = some true) :
    (is.filterMap fun i => (datum data i).block).Subperm
      ((rhs.zip data).filterMap Monitor.ownedBy) := by
  have hpositions : (is.map (· - 1)).Nodup := by
    refine his.map_on ?_
    intro i hi j hj heq
    have := (htext i hi).1
    have := (htext j hj).1
    omega
  have hblocks : (is.filterMap fun i => (datum data i).block) =
      (is.map (· - 1)).filterMap fun k => (rhs.zip data)[k]?.bind Monitor.ownedBy := by
    rw [List.filterMap_map]
    apply List.filterMap_congr
    intro i hi
    exact (h.ownedBy (htext i hi).2).symm
  rw [hblocks]
  exact filterMap_getElem_subperm _ _ hpositions

end Holding

/-! ## Actions which keep the discipline -/

section Perform

variable {w : Surroundings} {a : Allocator} {allocated : ℕ} {n : Nonterminal}
  {rule : FreeingRule} {data : List Datum} {rest : List Block} {e : MemoryEffects}

theorem Owns.readAll
    (hrule : rule ∈ freeingProductions n) (hdata : Holding a allocated rule.rhs data)
    (ho : Owns a allocated ((rule.rhs.zip data).filterMap ownedBy ++ rest) e.heap) :
    e.heap.readAll data rule.action.uses = e.heap := by
  have hreads : ∀ i ∈ rule.action.uses, (rule.rhs[i - 1]?).map isText = some true := fun i hi =>
    ((freeingProductions_reads n rule hrule).2 i (List.mem_append_left _ hi)).2
  apply Heap.readAll_of_owns ho
  · exact fun i hi => hdata.pointer (hreads i hi)
  · intro i hi b hb
    rw [List.mem_append, List.mem_filterMap]
    rcases hdata.entry (hreads i hi) with ⟨X, htext, hentry⟩
    exact Or.inl ⟨_, List.mem_of_getElem? hentry, (if_pos htext).trans hb⟩

theorem Owns.freeAll_frees
    (hrule : rule ∈ freeingProductions n) (hdata : Holding a allocated rule.rhs data)
    (ho : Owns a allocated ((rule.rhs.zip data).filterMap ownedBy ++ rest) e.heap) :
    Owns a allocated rest (e.heap.freeAll data rule.action.frees) := by
  rcases freeingProductions_reads n rule hrule with ⟨hnodup, hreads⟩
  have hfrees : ∀ i ∈ rule.action.frees, 0 < i ∧ (rule.rhs[i - 1]?).map isText = some true :=
    fun i hi => hreads i (List.mem_append_right _ hi)
  apply Owns.freeAll
  · exact ho.of_subperm ((List.subperm_append_right _).mpr (hdata.subperm hnodup hfrees))
  · exact fun i hi => hdata.pointer (hfrees i hi).2

theorem performFreeing_of_ne_append {action : FreeingAction} (haction : action ≠ .named .append) :
    performFreeing w a action data e =
      { value := data.headD .undefined
        effect :=
          { effects := (perform w action.erase (data.map Datum.erase) e.effects).effect
            heap := (e.heap.readAll data action.uses).freeAll data action.frees }
        accepted := (perform w action.erase (data.map Datum.erase) e.effects).accepted } := by
  cases action with
  | belch => rfl
  | named action =>
      cases action with
      | append => exact absurd rfl haction
      | _ => rfl

/-- The strings move to a longer one, which belongs to the left-hand side. -/
theorem Owns.append
    (hrule : rule ∈ freeingProductions n) (haction : rule.action = .named .append)
    (hdata : Holding a allocated rule.rhs data)
    (ho : Owns a allocated ((rule.rhs.zip data).filterMap ownedBy ++ rest) e.heap) :
    (performFreeing w a rule.action data e).value.Pointer a allocated ∧
      Owns a allocated ((performFreeing w a rule.action data e).value.block.toList ++ rest)
        (performFreeing w a rule.action data e).effect.heap := by
  have hused := ho.readAll hrule hdata
  have hreads := (freeingProductions_reads n rule hrule).2
  rw [haction] at hused hreads ⊢
  have htext : ∀ i ∈ [1, 2], 0 < i ∧ (rule.rhs[i - 1]?).map isText = some true := fun i hi =>
    hreads i (List.mem_append_left _ hi)
  have hfirst := hdata.pointer (htext 1 (by decide)).2
  have hsecond := hdata.pointer (htext 2 (by decide)).2
  have hblocks : ([1, 2].filterMap fun i => (datum data i).block) ++ rest =
      (datum data 1).block.toList ++ ((datum data 2).block.toList ++ rest) := by
    rw [filterMap_cons_toList, filterMap_cons_toList, List.filterMap_nil, List.append_nil,
      List.append_assoc]
  have hboth := ho.of_subperm
    ((List.subperm_append_right rest).mpr (hdata.subperm (by decide) htext))
  rw [hblocks] at hboth
  have hmoved := hboth.realloc hfirst
  dsimp only [performFreeing]
  rw [hused]
  generalize e.heap.realloc a (datum data 1) = moved at hmoved
  rcases moved with ⟨heap, block⟩
  have hfree : ∀ first : List Block,
      Owns a allocated (first ++ ((datum data 2).block.toList ++ rest)) heap →
        Owns a allocated (first ++ rest) (heap.freeAll data [2]) := by
    intro first hfirst
    refine Owns.lexFree ?_ hsecond
    refine hfirst.of_subperm (List.Perm.subperm ?_)
    rw [← List.append_assoc, ← List.append_assoc]
    exact List.perm_append_comm.append_right _
  cases block with
  | none => exact ⟨hfirst, hfree _ hmoved⟩
  | some b => exact ⟨⟨some b, _, rfl, by simp⟩, hfree [b] hmoved⟩

/-- An action gives back what it does not leave for its left-hand side. -/
theorem Owns.perform
    (hrule : rule ∈ freeingProductions n) (hdata : Holding a allocated rule.rhs data)
    (ho : Owns a allocated ((rule.rhs.zip data).filterMap ownedBy ++ rest) e.heap)
    (haccepted : (performFreeing w a rule.action data e).accepted = false) :
    HasPointer a allocated (.nonterminal n, (performFreeing w a rule.action data e).value) ∧
      Owns a allocated
        ((ownedBy (.nonterminal n, (performFreeing w a rule.action data e).value)).toList ++ rest)
        (performFreeing w a rule.action data e).effect.heap := by
  by_cases happend : rule.action = .named .append
  · rcases ho.append (w := w) hrule happend hdata with ⟨hpointer, howns⟩
    refine ⟨fun _ => hpointer, howns.of_subperm ?_⟩
    rw [ownedBy]
    split
    · exact List.Subperm.refl _
    · exact (List.sublist_append_right _ _).subperm
  · have hfreed := ho.freeAll_frees hrule hdata
    have hused := ho.readAll hrule hdata
    rw [performFreeing_of_ne_append happend, hused] at haccepted ⊢
    dsimp only at haccepted ⊢
    rcases freeingProductions_text n rule hrule with hnothing | haction | haction |
      ⟨haction, hhead⟩
    · refine ⟨fun htext => ?_, ?_⟩
      · rw [hnothing] at htext
        cases htext
      · rw [ownedBy, hnothing]
        exact hfreed
    · rw [haction] at haccepted
      cases haccepted
    · exact absurd haction happend
    · have hdatum : data.headD .undefined = datum data 1 := by
        rw [datum, List.headD_eq_head?_getD, List.head?_eq_getElem?]
      rw [hdatum]
      refine ⟨fun _ => hdata.pointer (i := 1) hhead, ?_⟩
      have hnone : rule.action.frees = [] := by rw [haction]; rfl
      rw [hnone]
      have hfirst := hdata.subperm (List.nodup_singleton 1) (by simpa using hhead)
      rw [filterMap_cons_toList, List.filterMap_nil, List.append_nil] at hfirst
      refine ho.of_subperm ((List.subperm_append_right rest).mpr (List.Subperm.trans ?_ hfirst))
      rw [ownedBy]
      split
      · exact List.Subperm.refl _
      · exact List.nil_subperm

theorem Owns.perform_accepted
    (hrule : rule ∈ freeingProductions n) (hdata : Holding a allocated rule.rhs data)
    (ho : Owns a allocated ((rule.rhs.zip data).filterMap ownedBy ++ rest) e.heap)
    (haccepted : (performFreeing w a rule.action data e).accepted = true) :
    Owns a allocated rest (performFreeing w a rule.action data e).effect.heap := by
  have happend : rule.action ≠ .named .append := by
    intro haction
    rw [haction] at haccepted
    cases haccepted
  have hfreed := ho.freeAll_frees hrule hdata
  rw [performFreeing_of_ne_append happend, ho.readAll hrule hdata]
  exact hfreed

end Perform

/-! ## Runs -/

def entryOf (t : LR.Token TokenKind Datum) : Symbol × Datum := (.ofKind t.kind, t.value)

/-- The token which has been read stands in front of the stack. -/
def pending (c : FreeingConfig) : List (Symbol × Datum) :=
  c.char.toList.map entryOf ++ c.entries

structure Disciplined (a : Allocator) (c : FreeingConfig) : Prop where
  pointers : ∀ entry ∈ pending c, HasPointer a c.lexer.allocated entry
  owns : Owns a c.lexer.allocated ((pending c).filterMap ownedBy) c.effect.heap

theorem ownedBy_sublist (entry : Symbol × Datum) :
    (ownedBy entry).toList.Sublist entry.2.block.toList := by
  rw [ownedBy]
  split
  · exact List.Sublist.refl _
  · exact List.nil_sublist _

theorem TokenContent.string
    {t : Token} (h : TokenContent t) (htext : isText (.ofKind t.kind) = true) :
    ∃ text, t.value = .string text := by
  rw [TokenContent, HasContent] at h
  unfold isText at htext
  dsimp only at h
  split at htext
  next hcontent =>
    rw [hcontent] at h
    exact ⟨h.choose, h.choose_spec.2⟩
  next hcontent =>
    rw [hcontent] at h
    exact ⟨h.choose, h.choose_spec.2⟩
  next hcontent =>
    rw [hcontent] at h
    exact ⟨h.choose, h.choose_spec.2⟩
  next => cases htext

theorem lexString_pointer (a : Allocator) (n : ℕ) (yytext : List Byte) :
    (lexString a n yytext).Pointer a (n + 1) := by
  unfold lexString
  split
  next => exact ⟨_, _, rfl, by simp⟩
  next hfails => exact ⟨_, _, rfl, fun _ => ⟨n, Nat.lt_succ_self n, by simpa using hfails⟩⟩

theorem AllocatingLexer.allocated_le (a : Allocator) (l : AllocatingLexer) :
    l.allocated ≤ (l.yylex a).2.allocated := by
  unfold AllocatingLexer.yylex
  generalize Monitor.yylex l.lexer = lexed
  rcases lexed with ⟨token, next⟩
  cases token with
  | none => exact le_rfl
  | some t =>
      rcases t with ⟨kind, value⟩
      cases value with
      | undefined => exact le_rfl
      | number n => exact le_rfl
      | string yytext => exact Nat.le_succ _

section Lexing

variable {a : Allocator} {allocated : ℕ} {blocks : List Block} {h : Heap}

theorem Owns.lexed_cons (ho : Owns a allocated blocks h) :
    Owns a (allocated + 1) (.lexed allocated :: blocks) h := by
  refine ⟨?_, ?_, ?_, ?_⟩
  · rw [List.cons_append, List.nodup_cons]
    exact ⟨fun hmem => absurd (ho.lexed _ hmem) (lt_irrefl _), ho.nodup⟩
  · intro n hn
    rcases List.mem_cons.mp hn with heq | hn
    · cases heq
      exact Nat.lt_succ_self _
    · exact (ho.lexed n hn).trans (Nat.lt_succ_self _)
  · intro n hn
    rcases List.mem_cons.mp hn with heq | hn
    · cases heq
    · exact ho.grown n hn
  · intro f hf
    exact ⟨(ho.faults f hf).1, (ho.faults f hf).2.mono (Nat.le_succ allocated)⟩

theorem Owns.store (ho : Owns a allocated blocks h) (value : Value) :
    Owns a (AllocatingLexer.store a allocated value).2
      ((AllocatingLexer.store a allocated value).1.block.toList ++ blocks) h := by
  cases value with
  | undefined => exact ho
  | number n => exact ho
  | string yytext =>
      have hnew := ho.lexed_cons
      dsimp only [AllocatingLexer.store, lexString]
      split
      · exact hnew
      · exact hnew.of_subperm (List.sublist_cons_self _ _).subperm

/-- A new string has a block of its own. -/
theorem Owns.yylex {l : AllocatingLexer} (ho : Owns a l.allocated blocks h) :
    (∀ t ∈ (l.yylex a).1, HasPointer a (l.yylex a).2.allocated (entryOf t)) ∧
      Owns a (l.yylex a).2.allocated
        (((l.yylex a).1.toList.map entryOf).filterMap ownedBy ++ blocks) h := by
  have hcontent := yylex_content l.lexer
  unfold AllocatingLexer.yylex
  generalize Monitor.yylex l.lexer = lexed at hcontent
  rcases lexed with ⟨token, next⟩
  cases token with
  | none => exact ⟨by simp, ho⟩
  | some t =>
      dsimp only
      refine ⟨?_, ?_⟩
      · intro t' ht' htext
        cases ht'
        rcases (hcontent t rfl).string htext with ⟨yytext, hvalue⟩
        rw [entryOf, hvalue]
        exact lexString_pointer a l.allocated yytext
      · refine (ho.store t.value).of_subperm ((List.subperm_append_right _).mpr ?_)
        rw [Option.toList_some, List.map_singleton, filterMap_cons_toList, List.filterMap_nil,
          List.append_nil]
        exact (ownedBy_sublist _).subperm

end Lexing

theorem Disciplined.holding
    {a : Allocator} {c : FreeingConfig} (hc : Disciplined a c) {n : Nonterminal}
    {rule : FreeingRule} {data : List Datum} {below : List (Symbol × Datum)}
    (h : LR.Handle freeingGrammar c n rule data below) :
    Holding a c.lexer.allocated rule.rhs data where
  length := h.length
  pointers := by
    intro entry hentry
    apply hc.pointers
    rw [pending, h.entries]
    simp [hentry]

/-- The blocks of a right-hand side and of the rest. -/
theorem Disciplined.owns_handle
    {a : Allocator} {c : FreeingConfig} (hc : Disciplined a c) {n : Nonterminal}
    {rule : FreeingRule} {data : List Datum} {below : List (Symbol × Datum)}
    (h : LR.Handle freeingGrammar c n rule data below) :
    Owns a c.lexer.allocated
      ((rule.rhs.zip data).filterMap ownedBy ++
        (c.char.toList.map entryOf ++ below).filterMap ownedBy) c.effect.heap := by
  refine hc.owns.of_subperm (List.Perm.subperm ?_)
  rw [← List.filterMap_append, pending, h.entries]
  apply List.Perm.filterMap
  rw [← List.append_assoc, ← List.append_assoc]
  refine List.Perm.append_right below ?_
  exact List.perm_append_comm.trans ((List.reverse_perm _).symm.append_left _)

theorem reported_heap
    {w : Surroundings} {a : Allocator} {c : FreeingConfig} {effect : MemoryEffects}
    (h : LR.Reported (linkedFreeing w a) c effect) : effect.heap = c.effect.heap := by
  rcases h with rfl | ⟨t, _, rfl⟩
  · rfl
  · rfl

theorem Disciplined.machine
    {w : Surroundings} {a : Allocator} {c c' : FreeingConfig} (hc : Disciplined a c)
    (h : LR.Machine (linkedFreeing w a) freeingGrammar c c') : Disciplined a c' := by
  cases h with
  | look _ hchar =>
      have hpending : pending c = c.entries := by
        rw [pending, hchar]
        rfl
      have howns := hc.owns
      have hpointers := hc.pointers
      rw [hpending] at howns hpointers
      have hlexed := howns.yylex
      refine ⟨?_, ?_⟩
      · intro entry hentry
        rcases List.mem_append.mp hentry with hentry | hentry
        · rcases List.mem_map.mp hentry with ⟨t, ht, rfl⟩
          exact hlexed.1 t (Option.mem_toList.mp ht)
        · exact (hpointers entry hentry).mono (AllocatingLexer.allocated_le a _)
      · rw [pending, List.filterMap_append]
        exact hlexed.2
  | @shift _ t _ hchar =>
      have hpending : pending c = entryOf t :: c.entries := by
        rw [pending, hchar]
        rfl
      exact ⟨hpending ▸ hc.pointers, hpending ▸ hc.owns⟩
  | reduce _ hhandle haccepted =>
      have hdone := (hc.owns_handle hhandle).perform (w := w) hhandle.rule_mem
        (hc.holding hhandle) haccepted
      refine ⟨?_, ?_⟩
      · intro entry hentry
        rcases List.mem_append.mp hentry with hentry | hentry
        · exact hc.pointers entry (List.mem_append_left _ hentry)
        · rcases List.mem_cons.mp hentry with rfl | hentry
          · exact hdone.1
          · apply hc.pointers
            rw [pending, hhandle.entries]
            simp [hentry]
      · refine hdone.2.of_subperm (List.Perm.subperm ?_)
        rw [← filterMap_cons_toList]
        exact List.Perm.filterMap _ List.perm_middle
  | @recover dropped below char effect _ hentries hchar hreported =>
      have hsublist : (char.toList.map entryOf ++ below).Sublist (pending c) := by
        rw [pending, hentries]
        refine List.Sublist.append ?_ (List.sublist_append_right _ _)
        rcases hchar with rfl | rfl
        · exact List.Sublist.refl _
        · exact List.nil_sublist _
      refine ⟨?_, ?_⟩
      · intro entry hentry
        rcases List.mem_append.mp hentry with hentry | hentry
        · exact hc.pointers entry (hsublist.subset (List.mem_append_left _ hentry))
        · rcases List.mem_cons.mp hentry with rfl | hentry
          · intro htext
            cases htext
          · exact hc.pointers entry (hsublist.subset (List.mem_append_right _ hentry))
      · change Owns a c.lexer.allocated
          ((char.toList.map entryOf ++ (.error, .undefined) :: below).filterMap ownedBy) effect.heap
        rw [reported_heap hreported, List.filterMap_append, List.filterMap_cons_none rfl,
          ← List.filterMap_append]
        exact hc.owns.of_subperm (hsublist.filterMap _).subperm

theorem disciplined_start
    {a : Allocator} {l : AllocatingLexer} {e : MemoryEffects}
    (h : Owns a l.allocated [] e.heap) : Disciplined a (.start l e) where
  pointers := by simp [pending, LR.Config.start]
  owns := h

/-- A call of `yyparse` after `n` steps. -/
def freeingAfter (w : Surroundings) (a : Allocator) (n : ℕ) (l : AllocatingLexer)
    (e : MemoryEffects) : FreeingOutcome :=
  LR.after freeingGrammar (linkedFreeing w a) n (.start freeingGrammar .undefined) l e

def heapOf : FreeingOutcome → Heap
  | .running _ _ e | .returned _ _ e | .exited _ e => e.heap

def allocatedOf : FreeingOutcome → ℕ
  | .running _ l _ | .returned _ l _ | .exited l _ => l.allocated

/-- The stack is left behind with all that it owns. -/
def DropsAll (a : Allocator) : FreeingOutcome → Prop
  | .running _ l e | .returned _ l e | .exited l e => Owns a l.allocated [] e.heap

theorem DropsAll.faults {a : Allocator} {o : FreeingOutcome} (h : DropsAll a o) :
    ∀ f ∈ (heapOf o).faults, f = .movesConstant ∧ a.FailedBefore (allocatedOf o) := by
  cases o with
  | running p l e => exact Owns.faults h
  | returned result l e => exact Owns.faults h
  | exited l e => exact Owns.faults h

theorem Disciplined.describes
    {w : Surroundings} {a : Allocator} {c : FreeingConfig} (hc : Disciplined a c)
    {o : FreeingOutcome} (h : LR.Describes freeingGrammar (linkedFreeing w a) c o) :
    DropsAll a o := by
  have hempty := hc.owns.of_subperm List.nil_subperm
  cases o with
  | running p l e =>
      change Owns a l.allocated [] e.heap
      rw [h.lexer, h.effect]
      exact hempty
  | returned result l e =>
      cases h with
      | accepted hhandle haccepted =>
          have hdone := (hc.owns_handle hhandle).perform_accepted (w := w) hhandle.rule_mem
            (hc.holding hhandle) haccepted
          exact hdone.of_subperm List.nil_subperm
      | returned hreported =>
          change Owns a c.lexer.allocated [] e.heap
          rw [reported_heap hreported]
          exact hempty
  | exited l e =>
      cases h with
      | exited hreported =>
          change Owns a c.lexer.allocated [] e.heap
          rw [reported_heap hreported]
          exact hempty

theorem freeingAfter_dropsAll
    (w : Surroundings) {a : Allocator} {l : AllocatingLexer} {e : MemoryEffects}
    (h : Owns a l.allocated [] e.heap) (n : ℕ) : DropsAll a (freeingAfter w a n l e) := by
  rcases LR.after_invariant (linkedFreeing w a) (fun _ _ hc hmachine _ => hc.machine hmachine)
    (disciplined_start h) (LR.represents_start (linkedFreeing w a) l e) n with
    ⟨c, hc, hdescribes⟩
  exact hc.describes hdescribes

theorem freeingAfter_of_parse
    {w : Surroundings} {a : Allocator} {fuel : ℕ} {l : AllocatingLexer} {e : MemoryEffects}
    {o : FreeingOutcome} (h : LR.parse freeingGrammar (linkedFreeing w a) fuel l e = some o) :
    o.Final ∧ ∃ n, freeingAfter w a n l e = o :=
  LR.exists_after h

theorem FreeingBetween.owns
    {w : Surroundings} {a : Allocator} {l : AllocatingLexer} {e : MemoryEffects}
    (h : FreeingBetween w a l e) : Owns a l.allocated [] e.heap := by
  induction h with
  | start =>
      refine ⟨List.nodup_nil, ?_, ?_, ?_⟩
      · exact fun n hn => absurd hn List.not_mem_nil
      · exact fun n hn => absurd hn List.not_mem_nil
      · exact fun f hf => absurd hf List.not_mem_nil
  | opened _ _ ih => exact ih
  | again _ hparse ih =>
      rcases freeingAfter_of_parse hparse with ⟨_, n, hn⟩
      have hdrops := freeingAfter_dropsAll w ih n
      rw [hn] at hdrops
      exact hdrops

/-- Whatever arrives and wherever memory runs out, no string is read, given back
or moved after it has been given back, and only `yynullstr` may be moved in error,
when a call of `malloc` has failed before. -/
theorem memory_disciplined
    {w : Surroundings} {a : Allocator} {l : AllocatingLexer} {e : MemoryEffects}
    (h : FreeingBetween w a l e) (n : ℕ) :
    ∀ f ∈ (heapOf (freeingAfter w a n l e)).faults, f = .movesConstant ∧
      ∃ k < allocatedOf (freeingAfter w a n l e), a.malloc k = false :=
  (freeingAfter_dropsAll w h.owns n).faults

/-- A state with a blank in it. -/
def twoWords : AllocatingLexer := .start [.data 83 (bytes "TATE\nlink up\n")]

/-- There is no memory for the first word, and the constant is moved to make room
for the second one. -/
theorem memory_disciplined_twoWords :
    let a : Allocator := { malloc := fun n => n ≠ 0, realloc := fun _ => true }
    let o := freeingAfter quiet a 20 twoWords .none
    (heapOf o).faults = [.movesConstant] ∧ ∃ k < allocatedOf o, a.malloc k = false := by
  intro a o
  have hfaults : (heapOf o).faults = [.movesConstant] := by decide +kernel
  have hmem : Fault.movesConstant ∈ (heapOf o).faults := by
    rw [hfaults]
    exact List.mem_singleton_self _
  exact ⟨hfaults, (memory_disciplined (.start _) 20 _ hmem).2⟩

theorem freeingAfter_erased
    (w : Surroundings) {a : Allocator} (ha : a.Unfailing) (l : AllocatingLexer)
    (e : MemoryEffects) (n : ℕ) :
    yyparseAfter w n l.lexer e.effects =
      (freeingAfter w a n l e).map FreeingAction.erase Datum.erase AllocatingLexer.lexer
        MemoryEffects.effects := by
  have hafter := (erases_freeing w ha).after (G := freeingGrammar) n
    (.start freeingGrammar .undefined) l e
  rw [LR.Parser.map_start, freeingGrammar_erase] at hafter
  exact hafter

theorem FreeingBetween.erase
    {w : Surroundings} {a : Allocator} (ha : a.Unfailing) {l : AllocatingLexer}
    {e : MemoryEffects} (h : FreeingBetween w a l e) : Between w l.lexer e.effects := by
  induction h with
  | start input => exact .start input
  | opened yaccEof _ ih => exact .opened yaccEof ih
  | @again _ _ l _ e _ _ hparse ih =>
      rcases freeingAfter_of_parse hparse with ⟨_, n, hn⟩
      have hafter := freeingAfter_erased w ha l e n
      rw [hn] at hafter
      exact .again ih (LR.run_of_after hafter trivial)

/-- With memory which never runs out there are no faults, and the parser does what
the one does which keeps every text. -/
theorem memory_erased
    {w : Surroundings} {a : Allocator} (ha : a.Unfailing) {l : AllocatingLexer}
    {e : MemoryEffects} (h : FreeingBetween w a l e) (n : ℕ) :
    (heapOf (freeingAfter w a n l e)).faults = [] ∧ Between w l.lexer e.effects ∧
      yyparseAfter w n l.lexer e.effects =
        (freeingAfter w a n l e).map FreeingAction.erase Datum.erase AllocatingLexer.lexer
          MemoryEffects.effects := by
  refine ⟨?_, h.erase ha, freeingAfter_erased w ha l e n⟩
  rw [List.eq_nil_iff_forall_not_mem]
  intro f hf
  rcases (freeingAfter_dropsAll w h.owns n).faults f hf with ⟨_, k, _, hk⟩
  rw [ha.malloc] at hk
  cases hk

/-- Both words and the state which is made of them are given back. -/
theorem memory_erased_twoWords :
    let a : Allocator := { malloc := fun _ => true, realloc := fun _ => true }
    let o := freeingAfter quiet a 20 twoWords .none
    (heapOf o).freed = [.grown 0, .lexed 1, .lexed 0] ∧ (heapOf o).faults = [] ∧
      effectsOf (yyparseAfter quiet 20 twoWords.lexer .none) =
        { calls := [.doState (bytes "linkup")], tested := 1, complaints := [] } := by
  intro a o
  have hstart : FreeingBetween quiet a twoWords .none := .start _
  have herased := memory_erased ⟨fun _ => rfl, fun _ => rfl⟩ hstart 20
  refine ⟨by decide +kernel, herased.1, ?_⟩
  have heffects : effectsOf (o.map FreeingAction.erase Datum.erase AllocatingLexer.lexer
      MemoryEffects.effects) =
        { calls := [.doState (bytes "linkup")], tested := 1, complaints := [] } := by
    decide +kernel
  exact (congrArg effectsOf herased.2.2).trans heffects

end Monitor

end DialdTop
