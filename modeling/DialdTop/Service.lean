import DialdTop.Authorisation
import DialdTop.Commands

/-!
# One round over the ready clients

`port_server` walks along the queue while ports drop out of it.  Between two
steps the queue is the ports already passed, in the state their commands have
left, followed by the ports not yet visited.  The loop is run against this
division, from any place in the queue to its end.
-/

namespace DialdTop

open Program
open Relation (ReflTransGen)

/-! ## The cursor -/

/-- The node before the cursor. -/
def before (front : List Port) : Option ℕ :=
  if front = [] then none else some (front.length - 1)

theorem before_append_singleton (front : List Port) (p : Port) :
    before (front ++ [p]) = some front.length := by
  simp [before]

theorem advance_run_before
    {s : Server} {front rest : List Port} (hpq : s.pq = front ++ rest) :
    (advance (before front)).run s = .ok (cursor front rest, s) := by
  rcases List.eq_nil_or_concat front with hfront | ⟨passed, p, hfront⟩
  · subst front
    exact advance_run_none hpq
  · rw [List.concat_eq_append] at hfront
    subst front
    rw [before_append_singleton]
    apply advance_run_some
    rw [hpq, List.append_assoc, List.singleton_append]

/-! ## One step of the loop -/

theorem serve_run_done
    (env : Env) {count i : Int} (hi : ¬ i < count) (fuel : ℕ) (curr prev : Option ℕ)
    (s : Server) : (serve env count (fuel + 1) curr prev i).run s = .ok ((), s) := by
  cases curr with
  | none => rfl
  | some c => simp [serve, hi]

section Step

variable (env : Env) {s : Server} {front rest : List Port} {p : Port}
  (hpq : s.pq = front ++ p :: rest) (hrange : 0 ≤ p.fd ∧ p.fd < fdSetSize)

include hpq hrange

theorem serve_run_skip
    (hidle : p.fd ∉ s.ps.sel) {count i : Int} (hi : i < count) (fuel : ℕ) (prev : Option ℕ) :
    (serve env count (fuel + 1) (some front.length) prev i).run s =
      (serve env count fuel (cursor (front ++ [p]) rest) (some front.length) i).run s := by
  have hnode : s.pq[front.length]? = some p := by simp [hpq]
  simp [serve, hi, node_run hnode, fdIsSet, hrange, hidle, advance_run_some hpq, Except.map]

theorem serve_run_hangup
    (hinv : QueueInv s) (hready : p.fd ∈ s.ps.sel) {count i : Int} (hi : i < count)
    {chunk : Option (List Byte)} (hread : (env.read s p.fd).map (·.take 1000) = chunk)
    (hend : chunk = none ∨ chunk = some []) (fuel : ℕ) :
    (serve env count (fuel + 1) (some front.length) (before front) i).run s =
      (serve env count fuel (cursor front rest) (before front) (i + 1)).run
        ((s.log (.read p.fd chunk)).closed front.length p) := by
  have hnode : s.pq[front.length]? = some p := by simp [hpq]
  have hclose := (hinv.log (.read p.fd chunk)).closePort_run hnode
  have hleft : ((s.log (.read p.fd chunk)).closed front.length p).pq = front ++ rest := by
    simp [Server.closed, Server.log, hpq]
  have hadvance := advance_run_before hleft
  rcases hend with hend | hend
  · subst hend
    simp [serve, hi, node_run hnode, fdIsSet, hrange, hready, sysRead, hread, hclose,
      hadvance, Except.map]
  · subst hend
    simp [serve, hi, node_run hnode, fdIsSet, hrange, hready, sysRead, hread, hclose,
      hadvance, Except.map]

theorem serve_run_command
    (hready : p.fd ∈ s.ps.sel) {count i : Int} (hi : i < count) {line : List Byte}
    (hread : (env.read s p.fd).map (·.take 1000) = some line) (hline : line ≠ [])
    (fuel : ℕ) (prev : Option ℕ) :
    (serve env count (fuel + 1) (some front.length) prev i).run s =
      (do let closed ← parseIncoming env line front.length
          let left := if closed then prev else some front.length
          serve env count fuel (← advance left) left (i + 1) : Srv Unit).run
        (s.log (.read p.fd (some line))) := by
  have hnode : s.pq[front.length]? = some p := by simp [hpq]
  cases line with
  | nil => exact absurd rfl hline
  | cons b bs =>
      simp [serve, hi, node_run hnode, fdIsSet, hrange, hready, sysRead, hread, Except.map]

end Step

/-! ## One command -/

/-- A closed descriptor is not open, unless the FIFO got its number. -/
def Released (fd : Int) (s : Server) : Prop :=
  fd ∉ s.kernel ∨ fd = s.monitorfd

/-- A command writes to its port or to the control FIFO. -/
def Event.Answers (s : Server) (p : Port) (event : Event) : Prop :=
  ∃ writer fd text result,
    event = .write writer fd text result ∧ (fd = p.fd ∨ fd = s.controlfd)

/-- The ports in `front` and `rest` are what they were, and the port `p` between
them has become `left`. -/
structure Obeyed (s : Server) (front : List Port) (p : Port) (rest : List Port)
    (left : Option Port) (t : Server) : Prop where
  queue : t.pq = front ++ left.toList ++ rest
  rights : ∀ q ∈ left, SameRights q p
  sel : t.ps.sel = s.ps.sel
  answers : ∃ events, t.trace = s.trace ++ events ∧ ∀ event ∈ events, event.Answers s p
  released : ∀ fd, fd ≠ -1 → Released fd s → Released fd t
  gone : left = none → Released p.fd t

section Obey

variable {s : Server} {front rest : List Port} {p : Port}
  (hpq : s.pq = front ++ p :: rest)

include hpq

theorem obeyed_closed : Obeyed s front p rest none (s.closed front.length p) where
  queue := by simp [Server.closed, hpq]
  rights := by
    intro q hq
    cases hq
  sel := rfl
  answers := ⟨[], (List.append_nil _).symm, by simp⟩
  released := by
    intro fd _ hreleased
    rcases hreleased with hclosed | hfifo
    · exact Or.inl fun hmem => hclosed (Finset.mem_of_mem_erase hmem)
    · exact Or.inr hfifo
  gone := by
    intro _
    exact Or.inl (Finset.notMem_erase p.fd s.kernel)

theorem obeyed_modify
    {f : Port → Port} {t : Server} (hf : SameRights (f p) p)
    (hqueue : t.pq = s.pq.modify front.length f) (hsel : t.ps.sel = s.ps.sel)
    (htrace : t.trace = s.trace) (hkernel : t.kernel = s.kernel)
    (hmonitorfd : t.monitorfd = s.monitorfd) :
    Obeyed s front p rest (some (f p)) t where
  queue := by
    rw [hqueue, hpq, modify_append_cons]
    simp
  rights := by
    intro q hq
    cases hq
    exact hf
  sel := hsel
  answers := ⟨[], by rw [htrace, List.append_nil], by simp⟩
  released := by
    intro fd _ hreleased
    rw [Released, hkernel, hmonitorfd]
    exact hreleased
  gone := by
    intro h
    cases h

theorem obeyed_self : Obeyed s front p rest (some p) s :=
  obeyed_modify hpq (f := id) ⟨rfl, rfl, rfl, rfl⟩ (by rw [List.modify_id]) rfl rfl rfl rfl

end Obey

theorem Obeyed.log_write
    {s t : Server} {front rest : List Port} {p : Port} {left : Option Port}
    (h : Obeyed s front p rest left t) (writer : Writer) {fd : Int} (text : List Byte)
    (result : WriteResult) (hfd : fd = p.fd ∨ fd = s.controlfd) :
    Obeyed s front p rest left (t.log (.write writer fd text result)) := by
  refine { h with answers := ?_ }
  rcases h.answers with ⟨events, htrace, hanswers⟩
  refine ⟨events ++ [.write writer fd text result], ?_, ?_⟩
  · rw [Server.log, htrace, List.append_assoc]
  · intro event hevent
    rw [List.mem_append, List.mem_singleton] at hevent
    rcases hevent with hevent | hevent
    · exact hanswers event hevent
    · exact ⟨writer, fd, text, result, hevent, hfd⟩

theorem Released.monitorOpen
    {env : Env} {s next : Server} {u : Unit} {fd : Int} (hfd : fd ≠ -1)
    (hreleased : Released fd s) (hrun : (monitorOpen env).run s = .ok (u, next)) :
    Released fd next := by
  rcases monitorOpen_cases hrun with ⟨_, hnext⟩ | ⟨hclosed, path, hnext⟩
  · rw [hnext]
    exact hreleased
  · have hgone : fd ∉ s.kernel := by
      rcases hreleased with hgone | hfifo
      · exact hgone
      · exact absurd (hfifo.trans hclosed) hfd
    rcases hnext with ⟨hnext, _⟩ | ⟨fifo, result, _, _, hnext⟩
    · rw [hnext]
      exact Or.inl hgone
    · rw [hnext]
      by_cases hsame : fd = fifo
      · exact Or.inr hsame
      · left
        intro hmem
        rcases Finset.mem_insert.mp hmem with heq | hmem
        · exact hsame heq
        · exact hgone hmem

theorem Obeyed.monitorOpen
    {env : Env} {s t next : Server} {front rest : List Port} {p q : Port} {u : Unit}
    (h : Obeyed s front p rest (some q) t) (hcontrolfd : t.controlfd = s.controlfd)
    (hrun : (monitorOpen env).run t = .ok (u, next)) :
    Obeyed s front p rest (some q) next := by
  have hreleased : ∀ fd, fd ≠ -1 → Released fd s → Released fd next := by
    intro fd hfd hs
    exact (h.released fd hfd hs).monitorOpen hfd hrun
  rcases monitorOpen_cases hrun with ⟨_, hnext⟩ | ⟨_, path, ⟨hnext, _⟩ | hopened⟩
  · rw [hnext]
    exact h
  · subst next
    exact ⟨h.queue, h.rights, h.sel, h.answers, hreleased, by simp⟩
  · rcases hopened with ⟨fd, result, _, _, hnext⟩
    have hwritten := h.log_write .monitorOpen (monitorLine path) result
      (Or.inr hcontrolfd)
    subst next
    exact ⟨h.queue, h.rights, h.sel, hwritten.answers, hreleased, by simp⟩

theorem Command.obeyed
    {env : Env} {line : List Byte} {s next : Server} {front rest : List Port} {p : Port}
    {closed : Bool} (hinv : QueueInv s) (hpq : s.pq = front ++ p :: rest)
    (hcommand : Command env line front.length p s closed next) :
    ∃ left : Option Port, (closed = true ↔ left = none) ∧
      Obeyed s front p rest left next := by
  have hp : s.pq[front.length]? = some p := by simp [hpq]
  cases hcommand with
  | ignored => exact ⟨some p, by simp, obeyed_self hpq⟩
  | monitorOff _ =>
      exact ⟨_, by simp, obeyed_modify hpq (sameRights_monitorOff p) rfl rfl rfl rfl rfl⟩
  | monitorOn _ _ =>
      exact ⟨_, by simp, obeyed_modify hpq (sameRights_monitorOn p) rfl rfl rfl rfl rfl⟩
  | monitorOpen _ _ hopen =>
      have hon : Obeyed s front p rest (some p.monitorOn) (s.monitorOn front.length) :=
        obeyed_modify hpq (sameRights_monitorOn p) rfl rfl rfl rfl rfl
      exact ⟨_, by simp, hon.monitorOpen rfl hopen⟩
  | close hclose =>
      rw [hinv.closePort_run hp] at hclose
      cases hclose
      exact ⟨none, by simp, obeyed_closed hpq⟩
  | control result _ =>
      exact ⟨some p, by simp, (obeyed_self hpq).log_write _ _ _ (Or.inr rfl)⟩
  | refuse result _ =>
      exact ⟨some p, by simp, (obeyed_self hpq).log_write _ _ _ (Or.inl rfl)⟩

/-! ## A walk along the queue -/

/-- The descriptor from which an event reads. -/
def Event.source : Event → Option Int
  | .read fd _ => some fd
  | _ => none

/-- The answer of `read` ends the connection, or the command does. -/
def hangsUp : Option (List Byte) → Bool
  | some (b :: line) => strncasecmp (b :: line) (bytes "close") 5 = 0
  | _ => true

/-- This event is the end of the connection on the given descriptor. -/
def Event.hangsUpOn (fd : Int) : Event → Bool
  | .read source chunk => decide (source = fd) && hangsUp chunk
  | _ => false

theorem any_hangsUpOn_eq_false {events : List Event} {fd : Int}
    (hfd : fd ∉ events.filterMap Event.source) :
    events.any (Event.hangsUpOn fd) = false := by
  rw [List.any_eq_false]
  intro event hevent
  cases event with
  | read source chunk =>
      have hsource : source ∈ events.filterMap Event.source :=
        List.mem_filterMap.mpr ⟨_, hevent, rfl⟩
      have hne : source ≠ fd := by
        intro heq
        rw [heq] at hsource
        exact hfd hsource
      simp [Event.hangsUpOn, hne]
  | write => simp [Event.hangsUpOn]
  | connect => simp [Event.hangsUpOn]

/-- A walk along the ports `rest`: what is read and answered on the way, and the
ports which are left. -/
inductive Walk (sel : Finset Int) : List Port → List Event → List Port → Prop
  | nil : Walk sel [] [] []
  | idle {p : Port} {rest kept : List Port} {events : List Event} :
      p.fd ∉ sel → Walk sel rest events kept → Walk sel (p :: rest) events (p :: kept)
  | ready {p : Port} {rest kept : List Port} {answers events : List Event}
      (chunk : Option (List Byte)) (left : Option Port) :
      p.fd ∈ sel → (hangsUp chunk = true ↔ left = none) → (∀ q ∈ left, SameRights q p) →
        answers.filterMap Event.source = [] → Walk sel rest events kept →
          Walk sel (p :: rest) (.read p.fd chunk :: answers ++ events) (left.toList ++ kept)

theorem walk_idle {sel : Finset Int} {rest : List Port} (h : ∀ p ∈ rest, p.fd ∉ sel) :
    Walk sel rest [] rest := by
  induction rest with
  | nil => exact .nil
  | cons p rest ih =>
      rw [List.forall_mem_cons] at h
      exact .idle h.1 (ih h.2)

theorem Walk.sources
    {sel : Finset Int} {rest kept : List Port} {events : List Event}
    (h : Walk sel rest events kept) :
    events.filterMap Event.source = (rest.filter fun p => p.fd ∈ sel).map Port.fd := by
  induction h with
  | nil => rfl
  | idle hidle _ ih => rw [ih, List.filter_cons_of_neg (by simpa using hidle)]
  | ready chunk left hready _ _ hanswers _ ih =>
      rw [List.filter_cons_of_pos (by simpa using hready), List.map_cons, List.cons_append,
        List.filterMap_cons_some (by rfl), List.filterMap_append, hanswers, ih]
      rfl

theorem Walk.source_mem
    {sel : Finset Int} {rest kept : List Port} {events : List Event}
    (h : Walk sel rest events kept) {fd : Int} (hfd : fd ∈ events.filterMap Event.source) :
    fd ∈ rest.map Port.fd := by
  rw [h.sources, List.mem_map] at hfd
  rcases hfd with ⟨p, hp, heq⟩
  exact List.mem_map.mpr ⟨p, (List.mem_filter.mp hp).1, heq⟩

theorem Walk.kept
    {sel : Finset Int} {rest kept : List Port} {events : List Event}
    (h : Walk sel rest events kept) (hdistinct : (rest.map Port.fd).Nodup) :
    List.Forall₂ SameRights kept
      (rest.filter fun p => !events.any (Event.hangsUpOn p.fd)) := by
  induction h with
  | nil => exact .nil
  | idle _ hwalk ih =>
      rename_i p rest kept events _
      rw [List.map_cons, List.nodup_cons] at hdistinct
      have hp : events.any (Event.hangsUpOn p.fd) = false :=
        any_hangsUpOn_eq_false fun hmem => hdistinct.1 (hwalk.source_mem hmem)
      rw [List.filter_cons_of_pos (by rw [hp]; rfl)]
      exact .cons ⟨rfl, rfl, rfl, rfl⟩ (ih hdistinct.2)
  | ready chunk left hready hhangsUp hrights hanswers hwalk ih =>
      rename_i p rest kept answers events
      rw [List.map_cons, List.nodup_cons] at hdistinct
      have hquiet : ∀ fd, answers.any (Event.hangsUpOn fd) = false := by
        intro fd
        apply any_hangsUpOn_eq_false
        rw [hanswers]
        exact List.not_mem_nil
      have hany : ∀ fd, (Event.read p.fd chunk :: answers ++ events).any (Event.hangsUpOn fd) =
          (decide (p.fd = fd) && hangsUp chunk || events.any (Event.hangsUpOn fd)) := by
        intro fd
        rw [List.cons_append, List.any_cons, List.any_append, hquiet, Bool.false_or]
        rfl
      have hp : events.any (Event.hangsUpOn p.fd) = false :=
        any_hangsUpOn_eq_false fun hmem => hdistinct.1 (hwalk.source_mem hmem)
      have hrest : (rest.filter fun q =>
          !(Event.read p.fd chunk :: answers ++ events).any (Event.hangsUpOn q.fd)) =
            rest.filter fun q => !events.any (Event.hangsUpOn q.fd) := by
        apply List.filter_congr
        intro q hq
        have hne : p.fd ≠ q.fd := by
          intro heq
          rw [heq] at hdistinct
          exact hdistinct.1 (List.mem_map_of_mem hq)
        rw [hany, decide_eq_false hne, Bool.false_and, Bool.false_or]
      have hself := hany p.fd
      rw [hp, decide_eq_true rfl, Bool.true_and, Bool.or_false] at hself
      cases left with
      | none =>
          rw [List.filter_cons_of_neg (by rw [hself, hhangsUp.mpr rfl]; simp), hrest]
          exact ih hdistinct.2
      | some q =>
          have hstays : hangsUp chunk = false := by
            rw [← Bool.not_eq_true, hhangsUp]
            simp
          rw [List.filter_cons_of_pos (by rw [hself, hstays]; rfl), hrest]
          exact .cons (hrights q rfl) (ih hdistinct.2)

/-- The state after the part `rest` of the queue has been served. -/
structure Walked (s : Server) (front rest : List Port) (next : Server) : Prop where
  queue : QueueInv next
  walk : ∃ events kept, next.pq = front ++ kept ∧ next.trace = s.trace ++ events ∧
    Walk s.ps.sel rest events kept
  released : ∀ fd, fd ≠ -1 → Released fd s → Released fd next
  gone : ∀ p ∈ rest, p.fd ∉ next.ps.full → Released p.fd next

/-- The chunk from a ready port makes `parse_incoming` write past the end of a
buffer. -/
def Overrun (env : Env) (s : Server) (reason : Halt) : Prop :=
  ∃ mid front p rest line fault, ReflTransGen (ServeEffect env) s mid ∧
    mid.pq = front ++ p :: rest ∧ p.fd ∈ s.ps.sel ∧
    (env.read mid p.fd).map (·.take 1000) = some line ∧
    Overruns env line front.length p (mid.log (.read p.fd (some line))) ∧
    reason = .fault fault

theorem Overrun.head
    {env : Env} {s t : Server} {reason : Halt} (heffect : ServeEffect env s t)
    (hsel : t.ps.sel = s.ps.sel) (h : Overrun env t reason) : Overrun env s reason := by
  rcases h with ⟨mid, front, p, rest, line, fault, hsteps, hpq, hready, hrest⟩
  rw [hsel] at hready
  exact ⟨mid, front, p, rest, line, fault, .head heffect hsteps, hpq, hready, hrest⟩

theorem serve_run_ready
    (env : Env) {s : Server} (hinv : QueueInv s) {front rest : List Port} {p : Port}
    (hpq : s.pq = front ++ p :: rest) (hready : p.fd ∈ s.ps.sel) {count i : Int}
    (hi : i < count) (fuel : ℕ) :
    (∃ chunk left t, ServeEffect env s t ∧ (hangsUp chunk = true ↔ left = none) ∧
      Obeyed (s.log (.read p.fd chunk)) front p rest left t ∧
      (serve env count (fuel + 1) (some front.length) (before front) i).run s =
        (serve env count fuel (cursor (front ++ left.toList) rest)
          (before (front ++ left.toList)) (i + 1)).run t) ∨
      ∃ reason, Overrun env s reason ∧
        (serve env count (fuel + 1) (some front.length) (before front) i).run s =
          .error reason := by
  have hp : s.pq[front.length]? = some p := by simp [hpq]
  have hrange := hinv.inRange p (List.mem_of_getElem? hp)
  cases hread : (env.read s p.fd).map (·.take 1000) with
  | none =>
      have hrun := serve_run_hangup env hpq hrange hinv hready hi hread (Or.inl rfl) fuel
      have hclose := (hinv.log (.read p.fd none)).closePort_run hp
      refine Or.inl ⟨none, none, _, .hangup none hp hclose, by simp [hangsUp],
        obeyed_closed hpq, ?_⟩
      rw [hrun, Option.toList_none, List.append_nil]
  | some line =>
      cases hline : line with
      | nil =>
          subst line
          have hrun := serve_run_hangup env hpq hrange hinv hready hi hread (Or.inr rfl) fuel
          have hclose := (hinv.log (.read p.fd (some []))).closePort_run hp
          refine Or.inl ⟨some [], none, _, .hangup _ hp hclose, by simp [hangsUp],
            obeyed_closed hpq, ?_⟩
          rw [hrun, Option.toList_none, List.append_nil]
      | cons b bs =>
          have hne : line ≠ [] := by simp [hline]
          have hrun := serve_run_command env hpq hrange hready hi hread hne fuel (before front)
          rw [Prog.run_bind] at hrun
          have hlog := hinv.log (.read p.fd (some line))
          have hp' : (s.log (.read p.fd (some line))).pq[front.length]? = some p := hp
          by_cases hfits :
              Overruns env line front.length p (s.log (.read p.fd (some line)))
          · right
            rcases parseIncoming_faults hp' hfits with ⟨fault, hfault⟩
            rw [hfault] at hrun
            exact ⟨.fault fault, ⟨s, front, p, rest, line, fault, .refl, hpq, hready, hread,
              hfits, rfl⟩, hrun⟩
          · left
            rcases parseIncoming_completes hlog hp' hfits with ⟨closed, t, hparse⟩
            rcases parseIncoming_cases hparse with ⟨q, hq, hcommand⟩
            have hsame : q = p := Option.some.inj (hq.symm.trans hp)
            subst q
            rcases hcommand.obeyed hlog hpq with ⟨left, hclosed, hobeyed⟩
            have hkeyword := parseIncoming_closed_iff hp' hlog hparse
            have hhangsUp : hangsUp (some line) = true ↔ left = none := by
              rw [← hclosed, hkeyword, keyword_eq_close_iff, hline, hangsUp,
                decide_eq_true_iff]
            refine ⟨some line, left, t, .command hp hcommand, hhangsUp, hobeyed, ?_⟩
            rw [hrun, hparse]
            have hqueue := hobeyed.queue
            have hadvance := advance_run_before hqueue
            cases left with
            | none =>
                have hyes : closed = true := hclosed.mpr rfl
                rw [Option.toList_none, List.append_nil] at hadvance
                simp [hyes, hadvance]
            | some q =>
                have hno : closed = false := by simpa using hclosed
                rw [Option.toList_some, before_append_singleton] at hadvance
                simp [hno, hadvance, before_append_singleton]

theorem Walked.idle
    {s next : Server} {front rest : List Port} {p : Port} (hidle : p.fd ∉ s.ps.sel)
    (h : Walked s (front ++ [p]) rest next) : Walked s front (p :: rest) next := by
  rcases h.walk with ⟨events, kept, hpq, htrace, hwalk⟩
  refine ⟨h.queue, ⟨events, p :: kept, ?_, htrace, .idle hidle hwalk⟩, h.released, ?_⟩
  · rw [hpq, List.append_assoc, List.singleton_append]
  · intro q hq hgone
    rw [List.mem_cons] at hq
    rcases hq with hq | hq
    · subst q
      exact absurd (h.queue.mem_full (by simp [hpq])) hgone
    · exact h.gone q hq hgone

theorem Walked.ready
    {s t next : Server} {front rest : List Port} {p : Port} {chunk : Option (List Byte)}
    {left : Option Port} (hready : p.fd ∈ s.ps.sel) (hfd : p.fd ≠ -1)
    (hhangsUp : hangsUp chunk = true ↔ left = none)
    (hobeyed : Obeyed (s.log (.read p.fd chunk)) front p rest left t)
    (h : Walked t (front ++ left.toList) rest next) : Walked s front (p :: rest) next := by
  rcases h.walk with ⟨events, kept, hpq, htrace, hwalk⟩
  rcases hobeyed.answers with ⟨answers, hanswers, hwrites⟩
  have hsources : answers.filterMap Event.source = [] := by
    rw [List.filterMap_eq_nil_iff]
    intro event hevent
    rcases hwrites event hevent with ⟨writer, fd, text, result, heq, _⟩
    rw [heq]
    rfl
  rw [hobeyed.sel] at hwalk
  refine ⟨h.queue, ⟨_, _, ?_, ?_,
    .ready chunk left hready hhangsUp hobeyed.rights hsources hwalk⟩, ?_, ?_⟩
  · rw [hpq, List.append_assoc]
  · rw [htrace, hanswers]
    simp [Server.log]
  · intro fd hother hreleased
    exact h.released fd hother (hobeyed.released fd hother hreleased)
  · intro q hq hgone
    rw [List.mem_cons] at hq
    rcases hq with hq | hq
    · subst q
      cases left with
      | none => exact h.released p.fd hfd (hobeyed.gone rfl)
      | some q =>
          have hmem : q.fd ∈ next.ps.full := h.queue.mem_full (by simp [hpq])
          rw [(hobeyed.rights q rfl).fd] at hmem
          exact absurd hmem hgone
    · exact h.gone q hq hgone

/-- The walk from the cursor to the end of the queue, by induction on what is
left of it. -/
theorem serve_walk
    (env : Env) {count : Int} {rest : List Port} {s : Server} (hinv : QueueInv s)
    {front : List Port} (hpq : s.pq = front ++ rest) {i : Int}
    (hcount : i + (rest.countP fun p => p.fd ∈ s.ps.sel) = count) {fuel : ℕ}
    (hfuel : rest.length < fuel) :
    (∃ next, (serve env count fuel (cursor front rest) (before front) i).run s =
        .ok ((), next) ∧ Walked s front rest next) ∨
      ∃ reason, Overrun env s reason ∧
        (serve env count fuel (cursor front rest) (before front) i).run s =
          .error reason := by
  induction rest generalizing s front i fuel with
  | nil =>
      obtain ⟨fuel, rfl⟩ : ∃ n, fuel = n + 1 := ⟨fuel - 1, by omega⟩
      refine Or.inl ⟨s, rfl, hinv, ⟨[], [], hpq, (List.append_nil _).symm, .nil⟩,
        fun _ _ h => h, ?_⟩
      intro p hp
      cases hp
  | cons p rest ih =>
      obtain ⟨fuel, rfl⟩ : ∃ n, fuel = n + 1 := ⟨fuel - 1, by omega⟩
      have hrest : rest.length < fuel := by
        rw [List.length_cons] at hfuel
        omega
      have hrange := hinv.inRange p (by simp [hpq])
      have hcursor : cursor front (p :: rest) = some front.length := rfl
      rw [hcursor]
      by_cases hi : i < count
      · by_cases hready : p.fd ∈ s.ps.sel
        · rw [List.countP_cons_of_pos (by simpa using hready)] at hcount
          rcases serve_run_ready env hinv hpq hready hi fuel with
            ⟨chunk, left, t, heffect, hhangsUp, hobeyed, hrun⟩ | hoverrun
          · have hsel : t.ps.sel = s.ps.sel := hobeyed.sel
            have hcount' : i + 1 + (rest.countP fun p => p.fd ∈ t.ps.sel) = count := by
              rw [hsel]
              omega
            rw [hrun]
            rcases ih (hinv.serveEffect heffect) hobeyed.queue hcount' hrest with
              ⟨next, hnext, hwalked⟩ | ⟨reason, hoverrun, hnext⟩
            · exact Or.inl ⟨next, hnext, hwalked.ready hready (by omega) hhangsUp hobeyed⟩
            · exact Or.inr ⟨reason, hoverrun.head heffect hsel, hnext⟩
          · exact Or.inr hoverrun
        · rw [List.countP_cons_of_neg (by simpa using hready)] at hcount
          have hpq' : s.pq = (front ++ [p]) ++ rest := by
            rw [hpq, List.append_assoc, List.singleton_append]
          rw [serve_run_skip env hpq hrange hready hi, ← before_append_singleton front p]
          rcases ih hinv hpq' hcount hrest with ⟨next, hnext, hwalked⟩ | hoverrun
          · exact Or.inl ⟨next, hnext, hwalked.idle hready⟩
          · exact Or.inr hoverrun
      · -- All ready ports have been visited.
        have hnone : (p :: rest).countP (fun p => p.fd ∈ s.ps.sel) = 0 := by omega
        have hidle : ∀ q ∈ p :: rest, q.fd ∉ s.ps.sel := by
          rw [List.countP_eq_zero] at hnone
          intro q hq
          simpa using hnone q hq
        refine Or.inl ⟨s, serve_run_done env hi fuel _ _ s, hinv,
          ⟨[], _, hpq, (List.append_nil _).symm, walk_idle hidle⟩, fun _ _ h => h, ?_⟩
        intro q hq hgone
        exact absurd (hinv.mem_full (by rw [hpq]; exact List.mem_append_right _ hq)) hgone

/-! ## A call of `port_server` -/

/-- Each selected port has been read once, and no other.  The ports left are
those whose connection has not ended, in their order. -/
structure Serviced (s next : Server) : Prop where
  queue : QueueInv next
  reads : ∃ events, next.trace = s.trace ++ events ∧
    events.filterMap Event.source = (s.pq.filter fun p => p.fd ∈ s.ps.sel).map Port.fd ∧
    List.Forall₂ SameRights next.pq
      (s.pq.filter fun p => !events.any (Event.hangsUpOn p.fd))
  closed : ∀ p ∈ s.pq, p.fd ∉ next.ps.full → Released p.fd next

theorem QueueInv.countP_sel {s : Server} (hinv : QueueInv s) (hsel : s.ps.sel ⊆ s.ps.full) :
    (s.pq.countP fun p => p.fd ∈ s.ps.sel) = s.ps.sel.card := by
  have hfilter : (s.pq.map Port.fd).filter (fun fd => fd ∈ s.ps.sel) =
      (s.pq.filter fun p => p.fd ∈ s.ps.sel).map Port.fd := by
    rw [List.filter_map]
    rfl
  have hset : ((s.pq.map Port.fd).filter fun fd => fd ∈ s.ps.sel).toFinset = s.ps.sel := by
    ext fd
    rw [List.mem_toFinset, List.mem_filter, decide_eq_true_iff]
    constructor
    · intro h
      exact h.2
    · intro hfd
      have hfull := hsel hfd
      rw [hinv.full, List.mem_toFinset] at hfull
      exact ⟨hfull, hfd⟩
  have hcard := List.toFinset_card_of_nodup (hinv.distinct.filter fun fd => fd ∈ s.ps.sel)
  rw [hset, hfilter, List.length_map] at hcard
  rw [List.countP_eq_length_filter]
  exact hcard.symm

theorem portServer_services
    (env : Env) {s : Server} (hinv : QueueInv s) (hsel : s.ps.sel ⊆ s.ps.full)
    (hcount : s.ps.selcount = s.ps.sel.card) {fuel : ℕ} (hfuel : s.pq.length < fuel) :
    (∃ next, (portServer env fuel).run s = .ok ((), next) ∧ Serviced s next) ∨
      ∃ reason, Overrun env s reason ∧ (portServer env fuel).run s = .error reason := by
  have hready : 0 + ((s.pq.countP fun p => p.fd ∈ s.ps.sel : ℕ) : Int) = s.ps.selcount := by
    rw [hinv.countP_sel hsel, hcount]
    omega
  have hrun : (portServer env fuel).run s =
      (serve env s.ps.selcount fuel (cursor [] s.pq) (before []) 0).run s := by
    rw [portServer, Prog.run_bind, run_look]
    simp only [Prog.run_bind, advance_run_none (rfl : s.pq = s.pq)]
    rfl
  have hpq : s.pq = [] ++ s.pq := (List.nil_append _).symm
  rw [hrun]
  rcases serve_walk env hinv hpq hready hfuel with
    ⟨next, hnext, hwalked⟩ | hoverrun
  · left
    rcases hwalked.walk with ⟨events, kept, hpq, htrace, hwalk⟩
    rw [List.nil_append] at hpq
    refine ⟨next, hnext, hwalked.queue, ⟨events, htrace, hwalk.sources, ?_⟩, ?_⟩
    · rw [hpq]
      exact hwalk.kept hinv.distinct
    · intro p hp hgone
      exact hwalked.gone p hp hgone
  · exact Or.inr hoverrun

/-- Two clients have sent something. -/
def Server.crowded : Server :=
  let started := finalState ((start .obliging).run .blank)
  let queued := (started.enqueued monitorClient).enqueued { monitorClient with fd := 8 }
  { queued with ps := { queued.ps with sel := {7, 8}, selcount := 2 } }

/-- One of them leaves. -/
def Env.parting : Env :=
  { Env.obliging with
    read := fun _ fd => some (bytes (if fd = 7 then "close\n" else "monitor \n")) }

theorem portServer_services_crowded :
    Serviced .crowded (finalState ((portServer .parting 3).run .crowded)) := by
  let started := finalState ((start .obliging).run .blank)
  have hstart : (start .obliging).run .blank = .ok ((), started) := by decide
  have hfirst : QueueInv (started.enqueued monitorClient) :=
    (start_cases hstart).repInv.toQueueInv.enqueued (by decide) (by decide) (by decide)
  have hsecond : QueueInv
      ((started.enqueued monitorClient).enqueued { monitorClient with fd := 8 }) :=
    hfirst.enqueued (by decide) (by decide) (by decide)
  have hinv : QueueInv .crowded := { hsecond with }
  have hrun : (portServer .parting 3).run .crowded =
      .ok ((), finalState ((portServer .parting 3).run .crowded)) := by
    decide +kernel
  have hlength : Server.crowded.pq.length < 3 := by decide
  rcases portServer_services .parting hinv (by decide) (by decide) hlength with
    ⟨next, hnext, hserviced⟩ | ⟨reason, _, hfault⟩
  · rw [hnext]
    exact hserviced
  · rw [hfault] at hrun
    cases hrun

end DialdTop
