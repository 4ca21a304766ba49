import DialdTop.MonitorTypes
import DialdTop.StrandedRecords

/-!
# The calls for a queue

`do_packet` and `do_endqueue` rely on a `do_queue` which has set up the table.
Whatever arrives, and wherever the parser recovers from an error or is left for a
key, they are called only directly behind a `do_queue` and the packets after it.
-/

namespace DialdTop

open Relation (ReflTransGen)

namespace Monitor

/-! ## Calls -/

def Call.isPacket : Call → Bool
  | .doPacket .. => true
  | _ => false

/-- The call relies on a `do_queue`. -/
def Call.needsQueue : Call → Bool
  | .doPacket .. | .doEndqueue => true
  | _ => false

/-- The last calls are those of a queue without its end. -/
def InQueue (calls : List Call) : Prop :=
  ∃ earlier packets, calls = earlier ++ .doQueue :: packets ∧ ∀ call ∈ packets, call.isPacket

/-- Whether a queue is open after the call.  Only in an open queue are there
packets and an end. -/
def Call.track : Bool → Call → Option Bool
  | _, .doQueue => some true
  | isOpen, .doPacket .. => if isOpen then some true else none
  | isOpen, .doEndqueue => if isOpen then some false else none
  | _, _ => some false

def Effects.track (e : Effects) : Option Bool := e.calls.foldlM Call.track false

theorem foldlM_track_append (calls : List Call) (call : Call) :
    (calls ++ [call]).foldlM Call.track false =
      (calls.foldlM Call.track false).bind fun isOpen => call.track isOpen := by
  rw [List.foldlM_append]
  cases List.foldlM Call.track false calls with
  | none => rfl
  | some isOpen => exact bind_pure (call.track isOpen)

theorem Effects.track_call (e : Effects) (call : Call) :
    (e.call call).track = e.track.bind fun isOpen => call.track isOpen :=
  foldlM_track_append e.calls call

theorem inQueue_of_track {calls : List Call} (h : calls.foldlM Call.track false = some true) :
    InQueue calls := by
  induction calls using List.reverseRecOn with
  | nil => cases h
  | append_singleton calls call ih =>
      rw [foldlM_track_append, Option.bind_eq_some_iff] at h
      rcases h with ⟨isOpen, hopen, hcall⟩
      cases call with
      | doQueue => exact ⟨calls, [], rfl, by simp⟩
      | doPacket protocol ip1 port1 ip2 port2 ttl =>
          cases isOpen with
          | false => cases hcall
          | true =>
              rcases ih hopen with ⟨earlier, packets, rfl, hpackets⟩
              refine ⟨earlier, packets ++ [.doPacket protocol ip1 port1 ip2 port2 ttl], ?_, ?_⟩
              · rw [List.append_assoc, List.cons_append]
              · rw [List.forall_mem_append]
                exact ⟨hpackets, by simp [Call.isPacket]⟩
      | doEndqueue => cases isOpen <;> cases hcall
      | _ => cases hcall

/-- If all calls can be followed, those which rely on a queue have got one. -/
theorem inQueue_of_needsQueue
    {before later : List Call} {call : Call} {isOpen : Bool}
    (h : (before ++ call :: later).foldlM Call.track false = some isOpen)
    (hcall : call.needsQueue) : InQueue before := by
  rw [List.foldlM_append, Option.bind_eq_bind, Option.bind_eq_some_iff] at h
  rcases h with ⟨isOpen', hbefore, hlater⟩
  rw [List.foldlM_cons, Option.bind_eq_bind, Option.bind_eq_some_iff] at hlater
  rcases hlater with ⟨_, htrack, _⟩
  apply inQueue_of_track
  rw [hbefore]
  cases isOpen' with
  | true => rfl
  | false =>
      cases call with
      | doPacket => cases htrack
      | doEndqueue => cases htrack
      | _ => cases hcall

/-! ## Productions -/

/-- The nonterminals which stand in a queue and nowhere else. -/
def onlyInQueue : List Nonterminal := [.packets, .packet, .endqueue]

def partsOfQueue : List Nonterminal := onlyInQueue ++ [.string, .ip, .port, .time]

def staysInside : Symbol → Bool
  | .nonterminal n => n ∈ partsOfQueue
  | _ => true

theorem inside_production (n : Nonterminal) :
    ∀ rule ∈ productions n, n ∈ partsOfQueue → ∀ X ∈ rule.rhs, staysInside X = true := by
  cases n <;> decide

theorem behind_queue_production (n : Nonterminal) :
    ∀ rule ∈ productions n, ∀ k < rule.rhs.length, symbol .queue ∈ rule.rhs.take k →
      ∀ X ∈ rule.rhs.drop k, staysInside X = true := by
  cases n <;> decide

theorem only_production (n : Nonterminal) :
    ∀ rule ∈ productions n, ∀ m ∈ onlyInQueue, ∀ k < rule.rhs.length,
      rule.rhs[k]? = some (symbol m) → n ∈ onlyInQueue ∨ symbol .queue ∈ rule.rhs.take k := by
  cases n <;> decide

theorem endqueue_production (n : Nonterminal) :
    ∀ rule ∈ productions n, ∀ k < rule.rhs.length, rule.rhs[k]? = some (symbol .endqueue) →
      n ∉ partsOfQueue ∧ k + 1 = rule.rhs.length := by
  cases n <;> decide

theorem queue_mem_production (n : Nonterminal) :
    ∀ rule ∈ productions n, symbol .endqueue ∈ rule.rhs → symbol .queue ∈ rule.rhs := by
  cases n <;> decide

/-- The actions which make the calls for a queue, and those of its parts. -/
theorem queue_actions (n : Nonterminal) :
    ∀ rule ∈ productions n,
      (n ∈ partsOfQueue →
        rule.action ∈ [.first, .accept, .append, .packet, .numberedPacket, .endqueue]) ∧
      (symbol .queue ∈ rule.rhs → rule.action ∈ [.first, .testkey]) ∧
      (rule.action ∈ [.packet, .numberedPacket] → n = .packet) ∧
      (rule.action = .endqueue ↔ n = .endqueue) ∧ (rule.action = .queue ↔ n = .queue) := by
  cases n <;> decide

/-! ## States in a queue -/

abbrev Item := LR.Item TokenKind Nonterminal Action

theorem past_of_none
    {i : Item} {before : List Symbol} (h : i.Past grammar before) (hnone : i.reduction = none) :
    before ++ i.rest = [.nonterminal .blurbs, .eof] := by
  unfold LR.Item.Past at h
  rw [hnone] at h
  exact h

theorem past_of_some
    {i : Item} {before : List Symbol} (h : i.Past grammar before)
    {r : LR.Reduction Nonterminal Action} (hr : i.reduction = some r) :
    ∃ rule ∈ productions r.lhs, r = ⟨r.lhs, rule.rhs.length, rule.action⟩ ∧
      rule.rhs = before ++ i.rest := by
  unfold LR.Item.Past at h
  rw [hr] at h
  exact h

/-- The item is of a part of a queue, or the point is behind the beginning of one. -/
def Inside (i : Item) (before : List Symbol) : Prop :=
  i.Past grammar before ∧
    ∃ r, i.reduction = some r ∧ (r.lhs ∈ partsOfQueue ∨ symbol .queue ∈ before)

theorem Inside.advance
    {reduction : Option (LR.Reduction Nonterminal Action)} {before rest : List Symbol}
    {X : Symbol} (h : Inside ⟨reduction, X :: rest⟩ before) :
    Inside ⟨reduction, rest⟩ (before ++ [X]) := by
  rcases h with ⟨hpast, r, hr, hinside⟩
  exact ⟨hpast.advance, r, hr, hinside.imp id (List.mem_append_left _)⟩

theorem Inside.head
    {i : Item} {before : List Symbol} (h : Inside i before) {X : Symbol}
    (hX : i.rest.head? = some X) : staysInside X = true := by
  rcases h with ⟨hpast, r, hr, hinside⟩
  rcases past_of_some hpast hr with ⟨rule, hrule, _, hrhs⟩
  have hmem : X ∈ i.rest := List.mem_of_mem_head? hX
  rcases hinside with hlhs | hqueue
  · refine inside_production _ rule hrule hlhs X ?_
    rw [hrhs]
    exact List.mem_append_right _ hmem
  · have hlength : before.length < rule.rhs.length := by
      rw [hrhs, List.length_append]
      have := List.length_pos_of_mem hmem
      omega
    apply behind_queue_production _ rule hrule before.length hlength
    · rw [hrhs, List.take_left]
      exact hqueue
    · rw [hrhs, List.drop_left]
      exact hmem

theorem inside_predicted
    {q : State} (hq : ∀ i ∈ q, ∃ before, Inside i before) {n : Nonterminal}
    (h : n ∈ grammar.predicted q) : n ∈ partsOfQueue := by
  rcases LR.exists_prediction h with ⟨m, ⟨i, hi, hhead⟩, hpath⟩
  rcases hq i hi with ⟨before, hinside⟩
  have hm : m ∈ partsOfQueue := of_decide_eq_true (hinside.head hhead)
  clear h
  induction hpath with
  | refl => exact hm
  | tail _ hnext ih =>
      rcases LR.mem_heads_predict.mp hnext with ⟨rule, hrule, hrule'⟩
      exact of_decide_eq_true
        (inside_production _ rule hrule ih _ (List.mem_of_mem_head? hrule'))

theorem inside_closure
    {q : State} {below : List State} {symbols : List Symbol}
    (h : LR.Labelled grammar (q :: below) symbols) (hqueue : symbol .queue ∈ symbols) :
    ∀ i ∈ grammar.closure q, ∃ before, Inside i before := by
  generalize hstates : q :: below = states at h
  induction h generalizing q below with
  | initial => cases hqueue
  | @goto q' below' symbols X hbelow _ ih =>
      cases hstates
      have hkernel : ∀ i ∈ grammar.goto q' X, ∃ before, Inside i before := by
        intro i hi
        have hbefore := LR.mem_advance.mp hi
        by_cases hinner : symbol .queue ∈ symbols
        · rcases ih hinner rfl _ hbefore with ⟨before, hinside⟩
          exact ⟨_, hinside.advance⟩
        · have hX : X = symbol .queue := by
            rcases List.mem_cons.mp hqueue with hX | hmem
            · exact hX.symm
            · exact absurd hmem hinner
          subst hX
          rcases hbelow.exists_past hbefore with ⟨before, hpast, _⟩
          cases hreduction : i.reduction with
          | none =>
              have hstart := past_of_none hpast hreduction
              cases before with
              | nil => cases hstart
              | cons Y before => cases before <;> simp [symbol] at hstart
          | some r => exact ⟨_, hpast.advance, r, hreduction, Or.inr (by simp)⟩
      intro i hi
      rcases LR.mem_closure.mp hi with hi | ⟨n, hn, hi⟩
      · exact hkernel i hi
      · refine ⟨[], LR.past_of_mem_predict hi, ?_⟩
        rcases List.mem_map.mp hi with ⟨rule, _, rfl⟩
        exact ⟨_, rfl, Or.inl (inside_predicted hkernel hn)⟩

/-- Nothing above a queue is a queue. -/
theorem queue_count_le
    {states : List State} {symbols : List Symbol} (h : LR.Labelled grammar states symbols) :
    symbols.count (symbol .queue) ≤ 1 := by
  induction h with
  | initial => exact Nat.zero_le _
  | @goto q below symbols X hbelow hX ih =>
      by_cases heq : X = symbol .queue
      · subst heq
        rw [List.count_cons_self]
        have hzero : symbol .queue ∉ symbols := by
          intro hqueue
          rcases LR.mem_heads.mp hX with ⟨i, hi, hhead⟩
          rcases inside_closure hbelow hqueue i hi with ⟨before, hinside⟩
          exact absurd (hinside.head hhead) (by decide)
        rw [List.count_eq_zero_of_not_mem hzero]
      · rw [List.count_cons_of_ne heq]
        exact ih

/-- Outside of a queue none of its proper parts is expected. -/
theorem outside_closure
    {q : State} {below : List State} {symbols : List Symbol}
    (h : LR.Labelled grammar (q :: below) symbols) (hqueue : symbol .queue ∉ symbols) :
    ∀ i ∈ grammar.closure q, ∀ r, i.reduction = some r → r.lhs ∉ onlyInQueue := by
  have hpredicted : ∀ {q : State} {below : List State} {symbols : List Symbol},
      LR.Labelled grammar (q :: below) symbols → symbol .queue ∉ symbols →
        (∀ i ∈ q, ∀ r, i.reduction = some r → r.lhs ∉ onlyInQueue) →
          ∀ n ∈ grammar.predicted q, n ∉ onlyInQueue := by
    intro q below symbols h hqueue hkernel n hn honly
    rcases LR.exists_prediction hn with ⟨m, ⟨i, hi, hhead⟩, hpath⟩
    have hm : m ∈ onlyInQueue := by
      clear hhead hi
      induction hpath using ReflTransGen.head_induction_on with
      | refl => exact honly
      | head hnext _ ih =>
          rcases LR.mem_heads_predict.mp hnext with ⟨rule, hrule, hrule'⟩
          rw [List.head?_eq_getElem?] at hrule'
          rcases List.getElem?_eq_some_iff.mp hrule' with ⟨hlt, _⟩
          rcases only_production _ rule hrule _ ih 0 hlt hrule' with hlhs | hempty
          · exact hlhs
          · cases hempty
    rcases h.past i hi with ⟨before, hpast, hprefix⟩
    cases hreduction : i.reduction with
    | none =>
        have hstart := past_of_none hpast hreduction
        rw [List.head?_eq_some_iff] at hhead
        rcases hhead with ⟨rest, hrest⟩
        rw [hrest] at hstart
        cases before with
        | nil =>
            cases hstart
            exact absurd hm (by decide)
        | cons Y before => cases before <;> simp at hstart
    | some r =>
        rcases past_of_some hpast hreduction with ⟨rule, hrule, _, hrhs⟩
        have hat : rule.rhs[before.length]? = some (symbol m) := by
          rw [hrhs, List.getElem?_append_right le_rfl, Nat.sub_self, ← List.head?_eq_getElem?]
          exact hhead
        rcases List.getElem?_eq_some_iff.mp hat with ⟨hlt, _⟩
        rcases only_production _ rule hrule m hm _ hlt hat with hlhs | hbefore
        · exact hkernel i hi r hreduction hlhs
        · rw [hrhs, List.take_left] at hbefore
          exact hqueue (List.IsPrefix.subset hprefix (List.mem_reverse.mpr hbefore))
  have hclosure : ∀ {q : State} {below : List State} {symbols : List Symbol},
      LR.Labelled grammar (q :: below) symbols → symbol .queue ∉ symbols →
        (∀ i ∈ q, ∀ r, i.reduction = some r → r.lhs ∉ onlyInQueue) →
          ∀ i ∈ grammar.closure q, ∀ r, i.reduction = some r → r.lhs ∉ onlyInQueue := by
    intro q below symbols h hqueue hkernel i hi r hr
    rcases LR.mem_closure.mp hi with hi | ⟨n, hn, hi⟩
    · exact hkernel i hi r hr
    · rcases List.mem_map.mp hi with ⟨rule, _, rfl⟩
      cases hr
      exact hpredicted h hqueue hkernel n hn
  generalize hstates : q :: below = states at h
  induction h generalizing q below with
  | initial =>
      cases hstates
      apply hclosure .initial hqueue
      intro i hi r hr
      rw [LR.Grammar.initial, List.mem_singleton] at hi
      subst hi
      cases hr
  | @goto q' below' symbols X hbelow hX ih =>
      cases hstates
      have hqueue' : symbol .queue ∉ symbols := fun hmem => hqueue (List.mem_cons_of_mem X hmem)
      apply hclosure (.goto hbelow hX) hqueue
      exact fun i hi r hr => ih hqueue' rfl _ (LR.mem_advance.mp hi) r hr

/-- A state behind the end of a queue has nothing but its reductions. -/
theorem endqueue_closure
    {q : State} {below : List State} {symbols : List Symbol}
    (h : LR.Labelled grammar (q :: below) (symbol .endqueue :: symbols)) :
    ∀ i ∈ grammar.closure q, i.rest = [] ∧ ∃ r, i.reduction = some r ∧ r.lhs ∉ partsOfQueue := by
  cases h with
  | @goto q' below' _ _ hbelow hX =>
      have hkernel : ∀ i ∈ grammar.goto q' (symbol .endqueue), i.rest = [] ∧
          ∃ r, i.reduction = some r ∧ r.lhs ∉ partsOfQueue := by
        intro i hi
        rcases hbelow.exists_past (LR.mem_advance.mp hi) with ⟨before, hpast, _⟩
        cases hreduction : i.reduction with
        | none =>
            have hstart := past_of_none hpast hreduction
            cases before with
            | nil => cases hstart
            | cons Y before => cases before <;> simp [symbol] at hstart
        | some r =>
            rcases past_of_some hpast hreduction with ⟨rule, hrule, _, hrhs⟩
            have hat : rule.rhs[before.length]? = some (symbol .endqueue) := by
              rw [hrhs, List.getElem?_append_right le_rfl, Nat.sub_self]
              rfl
            rcases List.getElem?_eq_some_iff.mp hat with ⟨hlt, _⟩
            rcases endqueue_production _ rule hrule _ hlt hat with ⟨hlhs, hlength⟩
            refine ⟨?_, r, rfl, hlhs⟩
            rw [hrhs, List.length_append, List.length_cons] at hlength
            exact List.length_eq_zero_iff.mp (by omega)
      intro i hi
      rcases LR.mem_closure.mp hi with hi | ⟨n, hn, hi⟩
      · exact hkernel i hi
      · rcases LR.exists_prediction hn with ⟨m, ⟨j, hj, hhead⟩, _⟩
        rw [(hkernel j hj).1] at hhead
        cases hhead

/-- The end of a queue is only on top of the stack, and there it is no error. -/
theorem endqueue_top
    {states : List State} {symbols : List Symbol} (h : LR.Labelled grammar states symbols)
    (hend : symbol .endqueue ∈ symbols) : symbols.head? = some (symbol .endqueue) := by
  cases h with
  | initial => cases hend
  | @goto q below symbols X hbelow hX =>
      rcases List.mem_cons.mp hend with rfl | hend
      · rfl
      · exfalso
        have hhead := endqueue_top hbelow hend
        rw [List.head?_eq_some_iff] at hhead
        rcases hhead with ⟨later, rfl⟩
        rcases LR.mem_heads.mp hX with ⟨i, hi, hnext⟩
        rw [(endqueue_closure hbelow i hi).1] at hnext
        cases hnext

theorem not_error_of_endqueue
    {q : State} {below : List State} {symbols : List Symbol}
    (h : LR.Labelled grammar (q :: below) (symbol .endqueue :: symbols))
    (char : Option (Option TokenKind)) : grammar.decision q char ≠ .error := by
  have hitems := endqueue_closure h
  have hshifts : LR.shifts (grammar.closure q) = [] := by
    rw [List.eq_nil_iff_forall_not_mem]
    intro X hX
    rcases LR.mem_heads.mp (List.mem_of_mem_filter hX) with ⟨i, hi, hnext⟩
    rw [(hitems i hi).1] at hnext
    cases hnext
  have hreductions : LR.reductions (grammar.closure q) ≠ [] := by
    cases h with
    | @goto q' below' _ _ hbelow hX =>
        rcases LR.mem_heads.mp hX with ⟨⟨reduction, rest⟩, hi, hnext⟩
        have hmem : (⟨reduction, rest.tail⟩ : Item) ∈
            grammar.closure (grammar.goto q' (symbol .endqueue)) := by
          apply LR.mem_closure.mpr
          refine Or.inl (LR.mem_advance.mpr ?_)
          rw [List.head?_eq_some_iff] at hnext
          rcases hnext with ⟨later, rfl⟩
          exact hi
        rcases hitems _ hmem with ⟨hrest, r, hr, _⟩
        exact List.ne_nil_of_mem (LR.mem_reductions.mpr (by
          rw [← hr, ← hrest]
          exact hmem))
  unfold LR.Grammar.decision
  dsimp only
  rw [hshifts]
  split
  next => simp
  next => simp
  next =>
    split
    next hmem => cases hmem
    next =>
      rw [if_neg (by simp)]
      split
      next => simp
      next hnil => exact absurd hnil hreductions

/-! ## Runs -/

/-- Whether a queue is open after the action. -/
def Action.track (isOpen : Bool) : Action → Bool
  | .queue | .packet | .numberedPacket => true
  | .first | .accept | .append | .testkey => isOpen
  | _ => false

theorem perform_track
    {w : Surroundings} {action : Action} {values : List Value} {e : Effects} {isOpen : Bool}
    (h : e.track = some isOpen)
    (hqueue : action ∈ [.packet, .numberedPacket, .endqueue] → isOpen = true) :
    (perform w action values e).effect.track = some (action.track isOpen) := by
  have hcall : ∀ call : Call, (e.call call).track = call.track isOpen := by
    intro call
    rw [Effects.track_call, h]
    rfl
  cases action with
  | first | accept | append | testkey => exact h
  | packet | numberedPacket | endqueue =>
      rw [hqueue (by simp)] at hcall
      exact hcall _
  | _ => exact hcall _

theorem not_mem_of_accepted
    {w : Surroundings} {action : Action} {values : List Value} {e : Effects}
    (h : (perform w action values e).accepted = true) :
    action ∉ [.packet, .numberedPacket, .endqueue] := by
  rcases perform_accepted h with rfl | rfl | ⟨hrecord, _⟩
  · decide
  · decide
  · revert hrecord
    cases action <;> decide

theorem reported_track
    {w : Surroundings} {c : Config} {effect : Effects} (h : LR.Reported (linked w) c effect) :
    effect.track = c.effect.track := by
  rcases h with rfl | ⟨t, _, rfl⟩
  · rfl
  · change (yyerror w t c.effect).1.track = _
    unfold yyerror
    split
    · rfl
    · rfl

/-- The calls can be followed, and a queue is open between its beginning and its
end on the stack. -/
def InOrder (c : Config) : Prop :=
  ∃ isOpen, c.effect.track = some isOpen ∧
    (symbol .queue ∈ c.entries.map Prod.fst → symbol .endqueue ∉ c.entries.map Prod.fst →
      isOpen = true)

/-- What is reduced outside of a queue is not a part of one. -/
theorem reduce_outside
    {symbols : List Symbol} {states : List State} (h : LR.Labelled grammar states symbols)
    (hqueue : symbol .queue ∉ symbols) {n : Nonterminal} {rule : Rule}
    (hrule : rule ∈ productions n) {k : ℕ}
    (hr : ⟨n, k, rule.action⟩ ∈ LR.reductions (grammar.closure (states.headD []))) :
    rule.action ∉ [.packet, .numberedPacket, .endqueue] := by
  rcases h.exists_top with ⟨q, below, rfl⟩
  have hlhs : n ∉ onlyInQueue := outside_closure h hqueue _ (LR.mem_reductions.mp hr) _ rfl
  rcases queue_actions n rule hrule with ⟨_, _, hpacket, hendqueue, _⟩
  intro haction
  rcases List.mem_cons.mp haction with haction | haction
  · rw [hpacket (by rw [haction]; simp)] at hlhs
    exact hlhs (by decide)
  rcases List.mem_cons.mp haction with haction | haction
  · rw [hpacket (by rw [haction]; simp)] at hlhs
    exact hlhs (by decide)
  · rw [hendqueue.mp (List.mem_singleton.mp haction)] at hlhs
    exact hlhs (by decide)

/-- What is reduced inside of a queue is a part of it, or begins with it. -/
theorem reduce_inside
    {symbols : List Symbol} {states : List State} (h : LR.Labelled grammar states symbols)
    (hqueue : symbol .queue ∈ symbols) {n : Nonterminal} {k : ℕ} {action : Action}
    (hr : ⟨n, k, action⟩ ∈ LR.reductions (grammar.closure (states.headD []))) :
    n ∈ partsOfQueue ∧ action ∈ [.first, .accept, .append, .packet, .numberedPacket, .endqueue] ∨
      0 < k ∧ action ∈ [.first, .testkey] := by
  rcases h.exists_top with ⟨q, below, rfl⟩
  rcases inside_closure h hqueue _ (LR.mem_reductions.mp hr) with ⟨before, hpast, r, hreduction, hr⟩
  cases hreduction
  rcases past_of_some hpast rfl with ⟨rule, hrule, hr', hrhs⟩
  rcases queue_actions n rule hrule with ⟨hparts, hbegins, _⟩
  cases hr'
  rw [List.append_nil] at hrhs
  rcases hr with hn | hbefore
  · exact Or.inl ⟨hn, hparts hn⟩
  · rw [← hrhs] at hbefore
    exact Or.inr ⟨List.length_pos_of_mem hbefore, hbegins hbefore⟩

theorem not_part_of_endqueue
    {symbols : List Symbol} {states : List State} (h : LR.Labelled grammar states symbols)
    (hend : symbol .endqueue ∈ symbols) {n : Nonterminal} {k : ℕ} {action : Action}
    (hr : ⟨n, k, action⟩ ∈ LR.reductions (grammar.closure (states.headD []))) :
    n ∉ partsOfQueue := by
  have htop := endqueue_top h hend
  rw [List.head?_eq_some_iff] at htop
  rcases htop with ⟨later, rfl⟩
  rcases h.exists_top with ⟨q, below, rfl⟩
  rcases endqueue_closure h _ (LR.mem_reductions.mp hr) with ⟨_, r, hreduction, hn⟩
  cases hreduction
  exact hn

/-- A reduction of the end of a queue takes its beginning from the stack. -/
theorem not_mem_of_endqueue
    {rhs below : List Symbol} {states : List State}
    (h : LR.Labelled grammar states (rhs.reverse ++ below))
    (hend : symbol .endqueue ∈ rhs.reverse ++ below) (hrhs : 0 < rhs.length)
    (hrule : symbol .endqueue ∈ rhs → symbol .queue ∈ rhs) : symbol .queue ∉ below := by
  have htop := endqueue_top h hend
  rw [List.head?_append_of_ne_nil _ (by simpa using List.ne_nil_of_length_pos hrhs)] at htop
  have hmem : symbol .endqueue ∈ rhs := List.mem_reverse.mp (List.mem_of_mem_head? htop)
  have hcount := queue_count_le h
  rw [List.count_append, List.count_reverse] at hcount
  have hpos := List.count_pos_iff.mpr (hrule hmem)
  exact List.count_eq_zero.mp (by omega)

theorem InOrder.reduce
    {c : Config} (hc : InOrder c) {w : Surroundings} {n : Nonterminal} {rule : Rule}
    {values : List Value} {below : List (Symbol × Value)}
    (hdecides : LR.Decides grammar c (.reduce ⟨n, rule.rhs.length, rule.action⟩))
    (hhandle : LR.Handle grammar c n rule values below) (value : Value) :
    InOrder { c with
      entries := (.nonterminal n, value) :: below
      effect := (perform w rule.action values c.effect).effect } := by
  rcases hc with ⟨isOpen, htrack, hopen⟩
  rcases hdecides with ⟨states, hlabelled, hdecision⟩
  have hr := LR.Grammar.decision_reduce hdecision
  have hsymbols : c.entries.map Prod.fst = rule.rhs.reverse ++ below.map Prod.fst := by
    rw [hhandle.entries, List.map_append, List.map_reverse,
      List.map_fst_zip hhandle.length.ge]
  rcases queue_actions n rule hhandle.rule_mem with ⟨_, _, _, hendqueue, hnqueue⟩
  by_cases hqueue : symbol .queue ∈ c.entries.map Prod.fst
  · have hreduce := reduce_inside hlabelled hqueue hr
    by_cases hend : symbol .endqueue ∈ c.entries.map Prod.fst
    · have hbegins : 0 < rule.rhs.length ∧ rule.action ∈ [.first, .testkey] := by
        rcases hreduce with ⟨hn, _⟩ | hbegins
        · exact absurd hn (not_part_of_endqueue hlabelled hend hr)
        · exact hbegins
      rw [hsymbols] at hlabelled hend
      have hbelow := not_mem_of_endqueue hlabelled hend hbegins.1
        (queue_mem_production n rule hhandle.rule_mem)
      refine ⟨_, perform_track htrack fun hneeds => ?_, fun hmem _ => ?_⟩
      · have hboth := And.intro hbegins.2 hneeds
        revert hboth
        cases rule.action <;> simp
      · rcases List.mem_cons.mp hmem with hn | hmem
        · have haction := hbegins.2
          rw [hnqueue.mpr (LR.Symbol.nonterminal.inj hn).symm] at haction
          exact absurd haction (by decide)
        · exact absurd hmem hbelow
    · have hisOpen := hopen hqueue hend
      subst hisOpen
      refine ⟨_, perform_track htrack fun _ => rfl, fun _ hnone => ?_⟩
      have haction : rule.action ≠ .endqueue := by
        intro haction
        rw [hendqueue.mp haction] at hnone
        exact hnone (by simp [symbol])
      rcases hreduce with ⟨_, hparts⟩ | ⟨_, hbegins⟩
      · revert hparts haction
        cases rule.action <;> decide
      · revert hbegins
        cases rule.action <;> decide
  · refine ⟨_, perform_track htrack fun hneeds => ?_, fun hmem _ => ?_⟩
    · exact absurd hneeds (reduce_outside hlabelled hqueue hhandle.rule_mem hr)
    · rcases List.mem_cons.mp hmem with hn | hmem
      · rw [hnqueue.mpr (LR.Symbol.nonterminal.inj hn).symm]
        rfl
      · rw [hsymbols] at hqueue
        exact absurd (List.mem_append_right _ hmem) hqueue

theorem InOrder.machine
    {w : Surroundings} {c c' : Config} (hc : InOrder c)
    (h : LR.Machine (linked w) grammar c c') : InOrder c' := by
  cases h with
  | look => exact hc
  | @shift _ t _ hchar =>
      rcases hc with ⟨isOpen, htrack, hopen⟩
      have hmem : ∀ n, symbol n ∈ LR.Symbol.ofKind t.kind :: c.entries.map Prod.fst ↔
          symbol n ∈ c.entries.map Prod.fst := by
        intro n
        rw [List.mem_cons, or_iff_right]
        cases t.kind <;> simp [symbol, LR.Symbol.ofKind]
      refine ⟨isOpen, htrack, fun hqueue hend => hopen ?_ ?_⟩
      · exact (hmem _).mp hqueue
      · exact fun hold => hend ((hmem _).mpr hold)
  | reduce hdecides hhandle _ => exact hc.reduce hdecides hhandle _
  | @recover dropped below char effect hdecides hentries _ hreported =>
      rcases hc with ⟨isOpen, htrack, hopen⟩
      refine ⟨isOpen, (reported_track hreported).trans htrack, fun hqueue _ => hopen ?_ ?_⟩
      · rcases List.mem_cons.mp hqueue with hqueue | hqueue
        · cases hqueue
        · rw [hentries, List.map_append]
          exact List.mem_append_right _ hqueue
      · intro hend
        rcases hdecides with ⟨states, hlabelled, herror⟩
        have htop := endqueue_top hlabelled hend
        rw [List.head?_eq_some_iff] at htop
        rcases htop with ⟨later, hlater⟩
        rw [hlater] at hlabelled
        rcases hlabelled.exists_top with ⟨q, rest, rfl⟩
        exact not_error_of_endqueue hlabelled _ herror

theorem InOrder.describes
    {w : Surroundings} {c : Config} (hc : InOrder c) {o : Outcome}
    (h : LR.Describes grammar (linked w) c o) : ∃ isOpen, (effectsOf o).track = some isOpen := by
  rcases hc with ⟨isOpen, htrack, _⟩
  cases o with
  | running p l e =>
      refine ⟨isOpen, ?_⟩
      change e.track = _
      rw [h.effect]
      exact htrack
  | returned result l e =>
      cases h with
      | accepted _ haccepted =>
          exact ⟨_, perform_track htrack fun haction =>
            absurd haction (not_mem_of_accepted haccepted)⟩
      | returned hreported => exact ⟨isOpen, (reported_track hreported).trans htrack⟩
  | exited l e =>
      cases h with
      | exited hreported => exact ⟨isOpen, (reported_track hreported).trans htrack⟩

theorem inOrder_after
    {w : Surroundings} {l : Lexer} {e : Effects} {isOpen : Bool} (h : e.track = some isOpen)
    (n : ℕ) : ∃ isOpen, (effectsOf (yyparseAfter w n l e)).track = some isOpen := by
  have hstart : InOrder (.start l e) := ⟨isOpen, h, by simp [LR.Config.start]⟩
  rcases LR.after_invariant (linked w) (fun _ _ hc hmachine _ => hc.machine hmachine)
    hstart (LR.represents_start (linked w) l e) n with ⟨c, hc, hdescribes⟩
  exact hc.describes hdescribes

theorem Between.track
    {w : Surroundings} {l : Lexer} {e : Effects} (h : Between w l e) :
    ∃ isOpen, e.track = some isOpen := by
  induction h with
  | start => exact ⟨false, rfl⟩
  | opened _ _ ih => exact ih
  | @again fuel result l l' e e' _ hparse ih =>
      rcases ih with ⟨isOpen, htrack⟩
      rcases LR.exists_after hparse with ⟨_, n, hn⟩
      have hafter : yyparseAfter w n l e = .returned result l' e' := hn
      have htracked := inOrder_after (w := w) (l := l) htrack n
      rwa [hafter] at htracked

/-- Whatever arrives, a packet or the end of a queue is only passed on directly
behind the beginning of the queue and the packets after it. -/
theorem queue_disciplined
    {w : Surroundings} {l : Lexer} {e : Effects} (h : Between w l e) (n : ℕ)
    {before later : List Call} {call : Call}
    (hcalls : (effectsOf (yyparseAfter w n l e)).calls = before ++ call :: later)
    (hcall : call.needsQueue) : InQueue before := by
  rcases h.track with ⟨_, htrack⟩
  rcases inOrder_after (w := w) htrack n with ⟨isOpen, hafter⟩
  rw [Effects.track, hcalls] at hafter
  exact inQueue_of_needsQueue hafter hcall

theorem queue_disciplined_endqueue :
    InQueue [.doQueue, .doPacket (bytes "tcp") (bytes "1.2.3.4") 5 (bytes "6.7.8.9") 10
      (bytes "00:00:10")] := by
  have hcalls : (effectsOf (yyparseAfter quiet 37 (.start [.data 81 (bytes
      "UEUE\ntcp 1.2.3.4/5 6.7.8.9/10 00:00:10\nEND QUEUE\n")]) .none)).calls =
        [.doQueue, .doPacket (bytes "tcp") (bytes "1.2.3.4") 5 (bytes "6.7.8.9") 10
          (bytes "00:00:10")] ++ .doEndqueue :: [] := by
    decide +kernel
  exact queue_disciplined (.start _) 37 hcalls rfl

end Monitor

end DialdTop
