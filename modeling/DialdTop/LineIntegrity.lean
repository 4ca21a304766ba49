import DialdTop.FanOut
import DialdTop.ServerInvariant

/-!
# Lines of the monitor stream

Three functions write to the socket of a monitoring client: `fifo_server`, which
passes chunks of the monitor FIFO on as they come, and `parse_incoming` and
`reauthenticate_users`, which send messages.  A message never falls within the
writes of one call of `fifo_server`.
-/

namespace DialdTop

open Program
open Relation (ReflTransGen)

/-! ## What a client receives -/

/-- What an event brings to the given descriptor. -/
def Event.delivered (target : Int) : Event → List Byte
  | .write _ fd text (.wrote count) => if fd = target then text.take count else []
  | _ => []

def delivered (fd : Int) (events : List Event) : List Byte :=
  events.flatMap (Event.delivered fd)

def Event.chunk : Event → List Byte
  | .read _ (some chunk) => chunk
  | _ => []

/-- All that has been read. -/
def drained (events : List Event) : List Byte :=
  events.flatMap Event.chunk

def WholeLines (text : List Byte) : Prop :=
  ∃ lines, (∀ line ∈ lines, newline ∉ line) ∧ text = unlines lines

/-- `part` consists of lines of `text`, which consists of whole lines. -/
def MadeOf (text part : List Byte) : Prop :=
  ∃ lines, (∀ line ∈ lines, newline ∉ line) ∧ text = unlines lines ∧
    ∃ kept ⊆ lines, part = unlines kept

/-- Events which bring nothing to the descriptor, or one message, or lines of
the monitor FIFO and nothing else. -/
inductive Block (fd : Int) : List Event → Prop
  | elsewhere {event : Event} : event.delivered fd = [] → Block fd [event]
  | message {writer : Writer} {text : List Byte} {result : WriteResult} :
      writer ≠ .fifoServer → WholeLines text →
        (Event.write writer fd text result).delivered fd = text →
          Block fd [.write writer fd text result]
  | relayed {events : List Event} :
      (∀ writer text result, .write writer fd text result ∈ events →
        writer = .fifoServer) →
        MadeOf (drained events) (delivered fd events) → Block fd events

/-- The descriptor receives whole lines, and no message within one of them. -/
def Unbroken (fd : Int) (events : List Event) : Prop :=
  ∃ blocks : List (List Event), events = blocks.flatten ∧ ∀ block ∈ blocks, Block fd block

theorem delivered_append (fd : Int) (first second : List Event) :
    delivered fd (first ++ second) = delivered fd first ++ delivered fd second := by
  simp [delivered]

theorem drained_append (first second : List Event) :
    drained (first ++ second) = drained first ++ drained second := by
  simp [drained]

theorem WholeLines.append {first second : List Byte} (hfirst : WholeLines first)
    (hsecond : WholeLines second) : WholeLines (first ++ second) := by
  rcases hfirst with ⟨lines, hlines, hfirst⟩
  rcases hsecond with ⟨lines', hlines', hsecond⟩
  refine ⟨lines ++ lines', ?_, ?_⟩
  · intro line hline
    rcases List.mem_append.mp hline with hline | hline
    · exact hlines line hline
    · exact hlines' line hline
  · rw [unlines_append, hfirst, hsecond]

theorem WholeLines.getLast {text : List Byte} (h : WholeLines text) (hne : text ≠ []) :
    text.getLast? = some newline := by
  rcases h with ⟨lines, _, htext⟩
  cases hlines : lines.reverse with
  | nil =>
      rw [List.reverse_eq_nil_iff] at hlines
      rw [htext, hlines] at hne
      exact absurd rfl hne
  | cons last before =>
      have hsplit : lines = before.reverse ++ [last] := by
        rw [← List.reverse_reverse lines, hlines, List.reverse_cons]
      rw [htext, hsplit, unlines_append]
      simp [List.getLast?_append]

theorem MadeOf.wholeLines {text part : List Byte} (h : MadeOf text part) :
    WholeLines part := by
  rcases h with ⟨lines, hlines, _, kept, hkept, hpart⟩
  exact ⟨kept, fun line hline => hlines line (hkept hline), hpart⟩

theorem Block.wholeLines {fd : Int} {block : List Event} (hblock : Block fd block) :
    WholeLines (delivered fd block) := by
  cases hblock with
  | elsewhere hnothing =>
      refine ⟨[], by simp, ?_⟩
      simp [delivered, hnothing]
  | message _ hwhole htext =>
      have hdelivered : ∀ event : Event, delivered fd [event] = event.delivered fd := by
        intro event
        simp [delivered]
      rw [hdelivered, htext]
      exact hwhole
  | relayed _ hmade => exact hmade.wholeLines

theorem Unbroken.append {fd : Int} {first second : List Event}
    (hfirst : Unbroken fd first) (hsecond : Unbroken fd second) :
    Unbroken fd (first ++ second) := by
  rcases hfirst with ⟨blocks, hblocks, hall⟩
  rcases hsecond with ⟨blocks', hblocks', hall'⟩
  refine ⟨blocks ++ blocks', ?_, ?_⟩
  · rw [List.flatten_append, hblocks, hblocks']
  · intro block hblock
    rcases List.mem_append.mp hblock with hblock | hblock
    · exact hall block hblock
    · exact hall' block hblock

theorem Unbroken.wholeLines {fd : Int} {events : List Event} (h : Unbroken fd events) :
    WholeLines (delivered fd events) := by
  rcases h with ⟨blocks, hblocks, hall⟩
  subst events
  induction blocks with
  | nil => exact ⟨[], by simp, rfl⟩
  | cons block blocks ih =>
      rw [List.flatten_cons, delivered_append]
      apply (hall block (List.mem_cons_self ..)).wholeLines.append
      exact ih fun other hother => hall other (List.mem_cons_of_mem block hother)

/-- What has been received before a message ends with a line. -/
theorem Unbroken.before_message
    {fd : Int} {before after : List Event} {writer : Writer} {text : List Byte}
    {result : WriteResult} (hwriter : writer ≠ .fifoServer)
    (h : Unbroken fd (before ++ .write writer fd text result :: after)) :
    WholeLines (delivered fd before) := by
  rcases h with ⟨blocks, hblocks, hall⟩
  induction blocks generalizing before with
  | nil => simp at hblocks
  | cons block blocks ih =>
      have hblock := hall block (List.mem_cons_self ..)
      rw [List.flatten_cons, List.append_eq_append_iff] at hblocks
      rcases hblocks with ⟨inner, hinner, hrest⟩ | ⟨inner, hinner, hrest⟩
      · cases inner with
        | nil =>
            rw [List.append_nil] at hinner
            rw [← hinner]
            exact hblock.wholeLines
        | cons event inner =>
            -- The message belongs to this block, which is therefore nothing else.
            rw [List.cons_append, List.cons.injEq] at hrest
            rcases hrest with ⟨hevent, _⟩
            subst event
            have hsingle : block.length = 1 → before = [] := by
              intro hlength
              rw [hinner, List.length_append, List.length_cons] at hlength
              apply List.eq_nil_of_length_eq_zero
              omega
            have hempty : before = [] := by
              cases hblock with
              | elsewhere => exact hsingle rfl
              | message => exact hsingle rfl
              | relayed honly _ =>
                  have hmem : .write writer fd text result ∈ block := by
                    rw [hinner]
                    simp
                  exact absurd (honly _ _ _ hmem) hwriter
            rw [hempty]
            exact ⟨[], by simp, rfl⟩
      · have hwhole : WholeLines (delivered fd inner) :=
          ih hrest.symm fun other hother => hall other (List.mem_cons_of_mem block hother)
        rw [hinner, delivered_append]
        exact hblock.wholeLines.append hwhole

/-! ## Messages -/

/-- An event is no write to the descriptor, or it is a message. -/
def IsMessage (fd : Int) (event : Event) : Prop :=
  ∀ writer text result, event = .write writer fd text result →
    writer ≠ .fifoServer ∧ WholeLines text

/-- Writes to the descriptor succeed in full. -/
def Complete (fd : Int) (events : List Event) : Prop :=
  ∀ writer text result, .write writer fd text result ∈ events →
    result = .wrote text.length

theorem Event.delivered_complete {fd : Int} {writer : Writer} {text : List Byte} :
    (Event.write writer fd text (.wrote text.length)).delivered fd = text := by
  simp [Event.delivered]

theorem Event.delivered_eq_nil {fd : Int} {event : Event}
    (h : ∀ writer text result, event ≠ .write writer fd text result) :
    event.delivered fd = [] := by
  cases event with
  | read target chunk => rfl
  | connect target addr success => rfl
  | write writer target text result =>
      cases result with
      | error errno => rfl
      | wrote count =>
          have hfd : target ≠ fd := by
            intro heq
            subst target
            exact h writer text _ rfl
          rw [Event.delivered, if_neg hfd]

theorem unbroken_of_messages {fd : Int} {events : List Event}
    (hmessages : ∀ event ∈ events, IsMessage fd event) (hcomplete : Complete fd events) :
    Unbroken fd events := by
  have hsplit : events = (events.map fun event => [event]).flatten := by
    rw [← List.flatMap_def]
    exact (List.flatMap_singleton' events).symm
  refine ⟨events.map fun event => [event], hsplit, ?_⟩
  intro block hblock
  rcases List.mem_map.mp hblock with ⟨event, hevent, heq⟩
  subst block
  by_cases hwrite : ∃ writer text result, event = .write writer fd text result
  · rcases hwrite with ⟨writer, text, result, heq⟩
    subst event
    have hmessage := hmessages _ hevent writer text result rfl
    have hresult := hcomplete writer text result hevent
    subst result
    exact .message hmessage.1 hmessage.2 Event.delivered_complete
  · apply Block.elsewhere
    apply Event.delivered_eq_nil
    intro writer text result heq
    exact hwrite ⟨writer, text, result, heq⟩

/-- A text before a newline is made of whole lines with it. -/
theorem wholeLines_append_newline (text : List Byte) :
    WholeLines (text ++ [newline]) := by
  rcases exists_lines_append text with ⟨lines, last, hlast, hlines, htext⟩
  refine ⟨lines ++ [last], ?_, ?_⟩
  · intro line hline
    rcases List.mem_append.mp hline with hline | hline
    · exact hlines line hline
    · rw [List.mem_singleton] at hline
      subst line
      exact hlast
  · rw [unlines_append, htext, List.append_assoc]
    simp

theorem noControlLine_wholeLines (line : List Byte) : WholeLines (noControlLine line) := by
  have htail : bytes "\" ignored\n" = bytes "\" ignored" ++ [newline] := by decide +kernel
  rw [noControlLine, htail, ← List.append_assoc]
  exact wholeLines_append_newline _

theorem reloadLine_wholeLines (granted : Bool) : WholeLines (reloadLine granted) := by
  have hline : reloadLine granted = (reloadLine granted).dropLast ++ [newline] := by
    cases granted with
    | true => decide +kernel
    | false => decide +kernel
  rw [hline]
  exact wholeLines_append_newline _

/-- The events between two states are messages to the descriptor, or do not
concern it. -/
def Polite (fd : Int) (s t : Server) : Prop :=
  ∃ events, t.trace = s.trace ++ events ∧ ∀ event ∈ events, IsMessage fd event

theorem polite_of_trace {fd : Int} {s t : Server} (htrace : t.trace = s.trace) :
    Polite fd s t :=
  ⟨[], by rw [htrace, List.append_nil], by simp⟩

theorem Polite.trans {fd : Int} {s t u : Server} (hst : Polite fd s t)
    (htu : Polite fd t u) : Polite fd s u := by
  rcases hst with ⟨first, hfirst, hmessages⟩
  rcases htu with ⟨second, hsecond, hmessages'⟩
  refine ⟨first ++ second, by rw [hsecond, hfirst, List.append_assoc], ?_⟩
  intro event hevent
  rcases List.mem_append.mp hevent with hevent | hevent
  · exact hmessages event hevent
  · exact hmessages' event hevent

theorem isMessage_read (fd target : Int) (chunk : Option (List Byte)) :
    IsMessage fd (.read target chunk) := by
  intro writer text result heq
  cases heq

theorem isMessage_elsewhere {fd target : Int} (hfd : target ≠ fd) (writer : Writer)
    (text : List Byte) (result : WriteResult) :
    IsMessage fd (.write writer target text result) := by
  intro writer' text' result' heq
  cases heq
  exact absurd rfl hfd

theorem Command.polite
    {env : Env} {line : List Byte} {c : ℕ} {p : Port} {s next : Server} {closed : Bool}
    (hcommand : Command env line c p s closed next) {fd : Int} (hfd : fd ≠ s.controlfd) :
    Polite fd s next := by
  have hcontrol : ∀ writer text result,
      IsMessage fd (.write writer s.controlfd text result) :=
    fun writer text result => isMessage_elsewhere hfd.symm writer text result
  cases hcommand with
  | ignored => exact polite_of_trace rfl
  | monitorOff => exact polite_of_trace rfl
  | monitorOn => exact polite_of_trace rfl
  | monitorOpen _ _ hopen =>
      rcases monitorOpen_trace hopen with htrace | ⟨path, result, htrace⟩
      · exact polite_of_trace htrace
      · refine ⟨_, htrace, ?_⟩
        intro event hevent
        rw [List.mem_singleton] at hevent
        rw [hevent]
        exact hcontrol _ _ _
  | close hclose => exact polite_of_trace (closePort_trace hclose)
  | control result _ =>
      refine ⟨_, rfl, ?_⟩
      intro event hevent
      rw [List.mem_singleton] at hevent
      rw [hevent]
      exact hcontrol _ _ _
  | refuse result _ =>
      refine ⟨_, rfl, ?_⟩
      intro event hevent writer text result heq
      rw [List.mem_singleton] at hevent
      rw [hevent] at heq
      cases heq
      exact ⟨by simp, noControlLine_wholeLines line⟩

theorem ServeEffect.polite
    {env : Env} {s next : Server} (heffect : ServeEffect env s next) {fd : Int}
    (hfd : fd ≠ s.controlfd) : Polite fd s next := by
  have hread : ∀ target chunk, Polite fd s (s.log (.read target chunk)) := by
    intro target chunk
    refine ⟨_, rfl, ?_⟩
    intro event hevent
    rw [List.mem_singleton] at hevent
    rw [hevent]
    exact isMessage_read fd target chunk
  cases heffect with
  | hangup chunk _ hclose => exact (hread _ chunk).trans (polite_of_trace (closePort_trace hclose))
  | command _ hcommand => exact (hread _ _).trans (hcommand.polite hfd)

theorem portServer_polite
    {env : Env} {fuel : ℕ} {s next : Server}
    (hrun : (portServer env fuel).run s = .ok ((), next)) {fd : Int}
    (hfd : fd ≠ s.controlfd) : Polite fd s next := by
  have hboth : next.controlfd = s.controlfd ∧ Polite fd s next := by
    have heffects := portServer_effects hrun
    clear hrun
    induction heffects with
    | refl => exact ⟨rfl, polite_of_trace rfl⟩
    | tail _ heffect ih =>
        have htail := heffect.polite (by rw [ih.1]; exact hfd)
        exact ⟨heffect.descends.controlfd.trans ih.1, ih.2.trans htail⟩
  exact hboth.2

theorem ReloadWrites.isMessage
    {aq : List AuthData} {ports : List Port} {events : List Event}
    (hwrites : ReloadWrites aq ports events) (fd : Int) :
    ∀ event ∈ events, IsMessage fd event := by
  induction hwrites with
  | nil => simp
  | @cons p event ports events hfirst _ ih =>
      intro other hother
      rcases List.mem_cons.mp hother with hother | hother
      · rcases hfirst with ⟨granted, result, _, hevent⟩
        rw [hother, hevent]
        intro writer text result' heq
        cases heq
        exact ⟨by simp, reloadLine_wholeLines granted⟩
      · exact ih other hother

/-! ## The relay -/

/-- Every write among the events is one of the relay, of one of these texts. -/
def Relays (texts : List (List Byte)) (events : List Event) : Prop :=
  ∀ writer fd text result, .write writer fd text result ∈ events →
    writer = .fifoServer ∧ text ∈ texts

/-- No write has failed with EPIPE. -/
def Unfailing (events : List Event) : Prop :=
  ∀ writer fd text, .write writer fd text (.error .epipe) ∉ events

theorem Unfailing.of_subset {first second : List Event} (h : Unfailing second)
    (hsubset : first ⊆ second) : Unfailing first := by
  intro writer fd text hmem
  exact h writer fd text (hsubset hmem)

theorem Complete.of_subset {fd : Int} {first second : List Event} (h : Complete fd second)
    (hsubset : first ⊆ second) : Complete fd first := by
  intro writer text result hmem
  exact h writer text result (hsubset hmem)

theorem Relays.append {texts : List (List Byte)} {first second : List Event}
    (hfirst : Relays texts first) (hsecond : Relays texts second) :
    Relays texts (first ++ second) := by
  intro writer fd text result hmem
  rcases List.mem_append.mp hmem with hmem | hmem
  · exact hfirst writer fd text result hmem
  · exact hsecond writer fd text result hmem

theorem Relays.mono {texts texts' : List (List Byte)} {events : List Event}
    (h : Relays texts events) (hsubset : texts ⊆ texts') : Relays texts' events := by
  intro writer fd text result hmem
  have hrelay := h writer fd text result hmem
  exact ⟨hrelay.1, hsubset hrelay.2⟩

theorem relays_nil (texts : List (List Byte)) : Relays texts [] := by
  intro writer fd text result hmem
  cases hmem

theorem relays_singleton {texts : List (List Byte)} {text : List Byte} (htext : text ∈ texts)
    (fd : Int) (result : WriteResult) : Relays texts [.write .fifoServer fd text result] := by
  intro writer target other result' hmem
  rw [List.mem_singleton] at hmem
  cases hmem
  exact ⟨rfl, htext⟩

theorem relay_events_cons
    {chunk : List Byte} {fd : Int} {s next : Server} (result : WriteResult)
    (hrest : ∃ events,
      next.trace = (s.log (.write .fifoServer fd chunk result)).trace ++ events ∧
        Relays [chunk] events ∧ drained events = []) :
    ∃ events, next.trace = s.trace ++ events ∧ Relays [chunk] events ∧
      drained events = [] := by
  rcases hrest with ⟨events, htrace, hrelays, hdrained⟩
  have hwritten : Relays [chunk] [.write .fifoServer fd chunk result] :=
    relays_singleton (List.mem_singleton_self chunk) fd result
  refine ⟨[.write .fifoServer fd chunk result] ++ events, ?_, hwritten.append hrelays, ?_⟩
  · rw [htrace, ← List.append_assoc]
    rfl
  · rw [drained_append, hdrained]
    rfl

theorem relay_events
    {env : Env} {chunk : List Byte} {fuel : ℕ} {curr : Option ℕ} {i : Int}
    {s next : Server} (hrun : (relay env chunk fuel curr i).run s = .ok ((), next)) :
    ∃ events, next.trace = s.trace ++ events ∧ Relays [chunk] events ∧
      drained events = [] := by
  induction fuel generalizing curr i s with
  | zero => simp [relay] at hrun
  | succ fuel ih =>
      cases relay_cases hrun with
      | ended => exact ⟨[], (List.append_nil _).symm, relays_nil _, rfl⟩
      | passed hrest => exact ih hrest
      | written result _ _ hrest => exact relay_events_cons result (ih hrest)
      | hungUp result _ _ hclose hrest =>
          have hevents := ih hrest
          rw [closePort_trace hclose] at hevents
          exact relay_events_cons result hevents

/-- The walk has left the queue as it is and brought the chunk to every
monitoring port which was still ahead. -/
def Distributed (chunk : List Byte) (rest : List Port) (events : List Event)
    (s next : Server) : Prop :=
  next = { s with trace := s.trace ++ events } ∧
    ∀ p ∈ s.pq, p.has flagMonitor = true → Complete p.fd events →
      delivered p.fd events = if p ∈ rest then chunk else []

theorem distributed_nothing
    {chunk : List Byte} {rest : List Port} {events : List Event} {s : Server}
    (hidle : ∀ p ∈ rest, p.has flagMonitor = false) (hevents : s.trace = s.trace ++ events) :
    Distributed chunk rest events s s := by
  have hnil : events = [] := List.self_eq_append_right.mp hevents
  subst hnil
  refine ⟨by rw [List.append_nil], ?_⟩
  intro p _ hp _
  have hbehind : p ∉ rest := by
    intro hmem
    rw [hidle p hmem] at hp
    cases hp
  rw [if_neg hbehind]
  rfl

theorem delivered_cons (fd : Int) (event : Event) (events : List Event) :
    delivered fd (event :: events) = event.delivered fd ++ delivered fd events := by
  simp [delivered]

theorem Distributed.passed
    {chunk : List Byte} {q : Port} {rest : List Port} {events : List Event} {s next : Server}
    (h : Distributed chunk rest events s next) (hq : q.has flagMonitor = false) :
    Distributed chunk (q :: rest) events s next := by
  refine ⟨h.1, ?_⟩
  intro p hmem hp hcomplete
  have hne : p ≠ q := by
    intro heq
    rw [heq, hq] at hp
    cases hp
  rw [h.2 p hmem hp hcomplete]
  simp [hne]

/-- The chunk reaches the port it is written to, and no other. -/
theorem Distributed.written
    {chunk : List Byte} {q : Port} {front rest : List Port} {events : List Event}
    {s next : Server} {result : WriteResult} (hinv : QueueInv s)
    (hpq : s.pq = front ++ q :: rest)
    (h : Distributed chunk rest events (s.log (.write .fifoServer q.fd chunk result)) next) :
    Distributed chunk (q :: rest) (.write .fifoServer q.fd chunk result :: events) s next := by
  constructor
  · rw [h.1]
    simp [Server.log]
  · intro p hmem hp hcomplete
    have hbehind := h.2 p hmem hp (hcomplete.of_subset (List.subset_cons_self _ _))
    rw [delivered_cons, hbehind]
    by_cases heq : p = q
    · subst p
      have hresult : result = .wrote chunk.length :=
        hcomplete .fifoServer chunk result List.mem_cons_self
      have hnotin : q ∉ rest := by
        have hnodup := hinv.distinct.of_map
        rw [hpq, List.nodup_append, List.nodup_cons] at hnodup
        exact hnodup.2.1.1
      rw [if_neg hnotin, if_pos List.mem_cons_self, List.append_nil, hresult,
        Event.delivered_complete]
    · have hfd : q.fd ≠ p.fd := by
        intro hfd
        have hq' : q ∈ s.pq := by rw [hpq]; simp
        exact heq (hinv.port_unique hq' hmem hfd).symm
      have helsewhere :
          (Event.write .fifoServer q.fd chunk result).delivered p.fd = [] := by
        apply Event.delivered_eq_nil
        intro writer text result' hwrite
        rw [Event.write.injEq] at hwrite
        exact hfd hwrite.2.1
      rw [helsewhere, List.nil_append]
      simp [heq]

/-- A walk along the queue begins with the event it has just caused. -/
theorem relay_events_eq_cons
    {env : Env} {chunk : List Byte} {fuel : ℕ} {curr : Option ℕ} {i : Int}
    {s mid next : Server} {event : Event} {events : List Event}
    (hmid : mid.trace = s.trace ++ [event])
    (hrun : (relay env chunk fuel curr i).run mid = .ok ((), next))
    (hevents : next.trace = s.trace ++ events) :
    ∃ more, events = event :: more ∧ next.trace = mid.trace ++ more := by
  rcases relay_events hrun with ⟨more, htrace, _, _⟩
  refine ⟨more, ?_, htrace⟩
  rw [hevents, hmid, List.append_assoc] at htrace
  exact List.append_cancel_left htrace

/-- While no write fails, a walk with enough budget distributes the chunk. -/
theorem relay_distributed
    {env : Env} {chunk : List Byte} {fuel : ℕ} {s next : Server} {i : Int}
    {front rest : List Port} {events : List Event} (hinv : QueueInv s)
    (hpq : s.pq = front ++ rest)
    (hahead : (rest.countP (·.has flagMonitor) : Int) ≤ s.monitorcount - i)
    (hrun : (relay env chunk fuel (cursor front rest) i).run s = .ok ((), next))
    (hevents : next.trace = s.trace ++ events) (hunfailing : Unfailing events) :
    Distributed chunk rest events s next := by
  induction fuel generalizing s i front rest events with
  | zero => simp [relay] at hrun
  | succ fuel ih =>
      cases rest with
      | nil =>
          simp only [cursor, relay, Prog.run_pure, Except.ok.injEq, Prod.mk.injEq, if_true,
            true_and] at hrun
          subst hrun
          exact distributed_nothing (by simp) hevents
      | cons q rest =>
          have hcursor : cursor front (q :: rest) = some front.length := rfl
          have hnext : s.pq = (front ++ [q]) ++ rest := by simp [hpq]
          rw [hcursor] at hrun
          by_cases hi : i < s.monitorcount
          · cases hq : q.has flagMonitor with
            | false =>
                rw [relay_run_skip env chunk fuel hpq hi hq] at hrun
                rw [List.countP_cons_of_neg (by simp [hq])] at hahead
                exact (ih hinv hnext hahead hrun hevents hunfailing).passed hq
            | true =>
                rw [List.countP_cons_of_pos (by simp [hq])] at hahead
                by_cases hfailed : env.write s q.fd chunk = .error .epipe
                · -- The failure is among the events.
                  rw [relay_run_failure fuel hinv hpq hi hq hfailed] at hrun
                  have hone : ((s.log (relayEvent chunk (q, false))).closed front.length q).trace =
                      s.trace ++ [relayEvent chunk (q, false)] := rfl
                  rcases relay_events_eq_cons hone hrun hevents with ⟨more, rfl, _⟩
                  exact absurd List.mem_cons_self (hunfailing _ _ _)
                · rw [relay_run_written fuel hpq hi hq rfl hfailed] at hrun
                  rcases relay_events_eq_cons rfl hrun hevents with ⟨more, rfl, htrace⟩
                  have hleft : (rest.countP (·.has flagMonitor) : Int) ≤
                      s.monitorcount - (i + 1) := by
                    push_cast at hahead
                    omega
                  have hrest := ih (hinv.log _) hnext hleft hrun htrace
                    (hunfailing.of_subset (List.subset_cons_self _ _))
                  exact hrest.written hinv hpq
          · rw [relay_run_stop env chunk fuel _ hi] at hrun
            cases hrun
            apply distributed_nothing _ hevents
            have hzero : (q :: rest).countP (·.has flagMonitor) = 0 := by omega
            simpa [List.countP_eq_zero] using hzero

def chunks (events : List Event) : List (List Byte) :=
  events.map Event.chunk

/-- One call of `fifo_server` writes what it reads, and while no write fails it
brings all of it to every monitoring port. -/
def Forwards (s : Server) (events : List Event) : Prop :=
  Relays (chunks events) events ∧
    (Unfailing events → ∀ p ∈ s.pq, p.has flagMonitor = true → Complete p.fd events →
      delivered p.fd events = drained events)

theorem forwards_nil (s : Server) : Forwards s [] :=
  ⟨relays_nil _, fun _ _ _ _ _ => rfl⟩

theorem forwards_read (s : Server) (fd : Int) (chunk : Option (List Byte))
    (hnothing : (Event.read fd chunk).chunk = []) : Forwards s [.read fd chunk] := by
  constructor
  · intro writer target text result hmem
    simp at hmem
  · intro _ p _ _ _
    simp [delivered, Event.delivered, drained, hnothing]

theorem relayChunk_distributed
    {env : Env} {chunk : List Byte} {walk : ℕ} {s next : Server} {events : List Event}
    (hinv : QueueInv s) (hrun : (relayChunk env chunk walk).run s = .ok ((), next))
    (hevents : next.trace = s.trace ++ events) (hunfailing : Unfailing events) :
    Distributed chunk s.pq events s next := by
  unfold relayChunk at hrun
  rw [Prog.run_bind, advance_run_none rfl] at hrun
  have hahead : (s.pq.countP (·.has flagMonitor) : Int) ≤ s.monitorcount - 0 := by
    rw [hinv.monitorcount]
    omega
  exact relay_distributed hinv (List.nil_append _).symm hahead hrun hevents hunfailing

theorem relayChunk_events
    {env : Env} {chunk : List Byte} {walk : ℕ} {s next : Server}
    (hrun : (relayChunk env chunk walk).run s = .ok ((), next)) :
    ∃ events, next.trace = s.trace ++ events ∧ Relays [chunk] events ∧
      drained events = [] := by
  unfold relayChunk at hrun
  rw [Prog.run_bind, advance_run_none rfl] at hrun
  exact relay_events hrun

/-- A chunk is read and relayed, and the rest of the call follows. -/
theorem forwards_append
    {env : Env} {chunk : List Byte} {fd : Int} {walk : ℕ} {s mid : Server}
    {first second : List Event} (hinv : QueueInv s)
    (hrelay : (relayChunk env chunk walk).run (s.log (.read fd (some chunk))) = .ok ((), mid))
    (hfirst : mid.trace = (s.log (.read fd (some chunk))).trace ++ first)
    (hrelays : Relays [chunk] first) (hdrained : drained first = [])
    (hforwards : Forwards mid second) :
    Forwards s (.read fd (some chunk) :: (first ++ second)) := by
  let read : Event := .read fd (some chunk)
  constructor
  · have hread : Relays (chunks (read :: (first ++ second))) [read] := by
      intro writer target text result hmem
      simp [read] at hmem
    have hhead : [chunk] ⊆ chunks (read :: (first ++ second)) := by
      intro text htext
      rw [List.mem_singleton] at htext
      rw [htext]
      exact List.mem_cons_self ..
    have htail : chunks second ⊆ chunks (read :: (first ++ second)) := by
      intro text htext
      simp only [chunks, List.map_cons, List.map_append, List.mem_cons, List.mem_append]
      exact Or.inr (Or.inr htext)
    exact hread.append ((hrelays.mono hhead).append (hforwards.1.mono htail))
  · intro hunfailing p hp hmonitor hcomplete
    have hsubset : first ⊆ read :: (first ++ second) := by
      intro event hevent
      exact List.mem_cons_of_mem _ (List.mem_append_left _ hevent)
    have hsubset' : second ⊆ read :: (first ++ second) := by
      intro event hevent
      exact List.mem_cons_of_mem _ (List.mem_append_right _ hevent)
    have hdistributed := relayChunk_distributed (hinv.log _) hrelay hfirst
      (hunfailing.of_subset hsubset)
    have hdelivered := hdistributed.2 p hp hmonitor (hcomplete.of_subset hsubset)
    have hp' : p ∈ mid.pq := by
      rw [hdistributed.1]
      exact hp
    have hlater := hforwards.2 (hunfailing.of_subset hsubset') p hp' hmonitor
      (hcomplete.of_subset hsubset')
    have hchunk : delivered p.fd first = chunk := by
      rw [hdelivered]
      exact if_pos hp
    have hread : (Event.read fd (some chunk)).delivered p.fd = [] := rfl
    rw [delivered_cons, delivered_append, hread, hchunk, hlater, List.nil_append]
    simp only [drained, List.flatMap_cons, List.flatMap_append] at hdrained ⊢
    rw [hdrained]
    rfl

theorem relayAll_forwards
    {env : Env} {walk fuel : ℕ} {s next : Server} (hinv : QueueInv s)
    (hrun : (relayAll env walk fuel).run s = .ok ((), next)) :
    ∃ events, next.trace = s.trace ++ events ∧ Forwards s events := by
  induction fuel generalizing s with
  | zero => simp [relayAll] at hrun
  | succ fuel ih =>
      have hstep : ∀ {chunk : List Byte} {mid : Server},
          (relayChunk env chunk walk).run (s.log (.read s.monitorfd (some chunk))) =
            .ok ((), mid) →
          (∃ second, next.trace = mid.trace ++ second ∧ Forwards mid second) →
            ∃ events, next.trace = s.trace ++ events ∧ Forwards s events := by
        intro chunk mid hrelay hrest
        rcases relayChunk_events hrelay with ⟨first, hfirst, hrelays, hdrained⟩
        rcases hrest with ⟨second, hsecond, hforwards⟩
        exact ⟨_, hsecond.trans (by rw [hfirst]; simp [Server.log]),
          forwards_append hinv hrelay hfirst hrelays hdrained hforwards⟩
      cases relayAll_cases hrun with
      | drained hnothing =>
          rcases hnothing with rfl | rfl
          · exact ⟨_, rfl, forwards_read s _ _ rfl⟩
          · exact ⟨_, rfl, forwards_read s _ _ rfl⟩
      | last hrelay _ =>
          exact hstep hrelay ⟨[], (List.append_nil _).symm, forwards_nil next⟩
      | relayed hrelay hrest =>
          have hmid : QueueInv _ :=
            invariant_of_effects (fun _ _ heffect ha => ha.relayEffect heffect)
              (relayChunk_effects hrelay) (hinv.log _)
          exact hstep hrelay (ih hmid hrest)

theorem fifoServer_forwards
    {env : Env} {fuel : ℕ} {s next : Server} (hinv : QueueInv s)
    (hrun : (fifoServer env fuel).run s = .ok ((), next)) :
    ∃ events, next.trace = s.trace ++ events ∧ Forwards s events := by
  unfold fifoServer at hrun
  rw [Prog.run_bind, run_test] at hrun
  by_cases hidle : s.ps.fullcount = 0 ∨ s.monitorcount = 0
  · simp only [hidle, decide_true, if_true, monitorClose_run, Except.ok.injEq,
      Prod.mk.injEq, true_and] at hrun
    refine ⟨[], ?_, forwards_nil s⟩
    rw [← hrun, List.append_nil]
    split
    · rfl
    · rfl
  · simp only [hidle, decide_false] at hrun
    exact relayAll_forwards hinv hrun

/-! ## Whole lines in, whole lines out -/

theorem drained_eq_flatten (events : List Event) :
    drained events = (chunks events).flatten := by
  rw [drained, chunks, List.flatMap_def]

/-- Texts of whole lines consist of the lines of all of them. -/
theorem exists_lines {texts : List (List Byte)} (htexts : ∀ text ∈ texts, WholeLines text) :
    ∃ lines, (∀ line ∈ lines, newline ∉ line) ∧ texts.flatten = unlines lines ∧
      ∀ text ∈ texts, ∃ kept ⊆ lines, text = unlines kept := by
  induction texts with
  | nil => exact ⟨[], by simp, rfl, by simp⟩
  | cons text texts ih =>
      rcases htexts text (List.mem_cons_self ..) with ⟨first, hfirst, htext⟩
      rcases ih fun other hother => htexts other (List.mem_cons_of_mem text hother) with
        ⟨lines, hlines, hflatten, hkept⟩
      refine ⟨first ++ lines, ?_, ?_, ?_⟩
      · intro line hline
        rcases List.mem_append.mp hline with hline | hline
        · exact hfirst line hline
        · exact hlines line hline
      · rw [List.flatten_cons, unlines_append, htext, hflatten]
      · intro other hother
        rcases List.mem_cons.mp hother with hother | hother
        · exact ⟨first, List.subset_append_left first lines, hother.trans htext⟩
        · rcases hkept other hother with ⟨kept, hsubset, heq⟩
          exact ⟨kept, List.Subset.trans hsubset (List.subset_append_right first lines), heq⟩

theorem delivered_of_relays
    {fd : Int} {texts : List (List Byte)} {lines : List (List Byte)} {events : List Event}
    (hkept : ∀ text ∈ texts, ∃ kept ⊆ lines, text = unlines kept)
    (hrelays : Relays texts events) (hcomplete : Complete fd events) :
    ∃ kept ⊆ lines, delivered fd events = unlines kept := by
  induction events with
  | nil => exact ⟨[], List.nil_subset lines, rfl⟩
  | cons event events ih =>
      have hsubset := List.subset_cons_self event events
      have htail : Relays texts events := by
        intro writer target text result hmem
        exact hrelays writer target text result (hsubset hmem)
      rcases ih htail (hcomplete.of_subset hsubset) with ⟨later, hlater, hdelivered⟩
      rw [delivered_cons, hdelivered]
      by_cases hwrite : ∃ writer text result, event = .write writer fd text result
      · rcases hwrite with ⟨writer, text, result, heq⟩
        subst event
        have hresult := hcomplete writer text result (List.mem_cons_self ..)
        have htext := (hrelays writer fd text result (List.mem_cons_self ..)).2
        rcases hkept text htext with ⟨kept, hkeptLines, hlines⟩
        subst result
        refine ⟨kept ++ later, List.append_subset.mpr ⟨hkeptLines, hlater⟩, ?_⟩
        rw [Event.delivered_complete, unlines_append, ← hlines]
      · refine ⟨later, hlater, ?_⟩
        rw [Event.delivered_eq_nil fun writer text result heq =>
          hwrite ⟨writer, text, result, heq⟩, List.nil_append]

/-- One call of `fifo_server` reads whole lines at a time, or whole lines in all
and none of its writes fails with EPIPE. -/
def DrainsLines (s next : Server) : Prop :=
  ∀ events, next.trace = s.trace ++ events →
    (∀ chunk ∈ chunks events, WholeLines chunk) ∨
      (WholeLines (drained events) ∧ Unfailing events)

theorem Forwards.block
    {fd : Int} {s : Server} {events : List Event} (h : Forwards s events)
    (hlines : (∀ chunk ∈ chunks events, WholeLines chunk) ∨
      (WholeLines (drained events) ∧ Unfailing events))
    (hmonitor : ∃ p ∈ s.pq, p.fd = fd ∧ p.has flagMonitor = true)
    (hcomplete : Complete fd events) : Block fd events := by
  apply Block.relayed
  · intro writer text result hmem
    exact (h.1 writer fd text result hmem).1
  · rcases hlines with hchunks | ⟨hwhole, hunfailing⟩
    · rcases exists_lines hchunks with ⟨lines, hlines, hflatten, hkept⟩
      exact ⟨lines, hlines, (drained_eq_flatten events).trans hflatten,
        delivered_of_relays hkept h.1 hcomplete⟩
    · rcases hmonitor with ⟨p, hp, hfd, hmonitor⟩
      subst fd
      rcases hwhole with ⟨lines, hlines, hdrained⟩
      refine ⟨lines, hlines, hdrained, lines, List.Subset.refl lines, ?_⟩
      rw [h.2 hunfailing p hp hmonitor hcomplete, hdrained]

/-! ## Runs -/

/-- A step at whose beginning the client on `fd` is monitoring and whose writes
to it succeed, while `fifo_server` drains whole lines. -/
structure MonitoredStep (fd : Int) (s next : Server) : Prop where
  step : ServerStep (fun _ _ => True) DrainsLines s next
  monitoring : ∃ p ∈ s.pq, p.fd = fd ∧ p.has flagMonitor = true
  complete : ∀ events, next.trace = s.trace ++ events → Complete fd events

theorem MonitoredStep.unbroken
    {fd : Int} {s next : Server} (hstep : MonitoredStep fd s next) (hinv : ServerInv s) :
    ∃ events, next.trace = s.trace ++ events ∧ Unbroken fd events := by
  rcases hstep.monitoring with ⟨p, hp, hfd, _⟩
  have happart : fd ≠ s.controlfd := by
    rw [← hfd]
    exact hinv.portsApart p hp
  have hpolite : Polite fd s next →
      ∃ events, next.trace = s.trace ++ events ∧ Unbroken fd events := by
    intro hpolite
    rcases hpolite with ⟨events, htrace, hmessages⟩
    exact ⟨events, htrace, unbroken_of_messages hmessages (hstep.complete events htrace)⟩
  cases hstep.step with
  | doSelect hrun =>
      apply hpolite
      apply polite_of_trace
      rw [(doSelect_cases hrun).server]
  | portDaemon haccepts _ hrun =>
      rcases portDaemon_cases haccepts hrun with
        ⟨q, events, kernel, _, _, hfresh, _, _, hadmitted⟩
      apply hpolite
      have htrace : next.trace = s.trace ++ events := by
        cases hadmitted with
        | queued => rfl
        | refused => rfl
      refine ⟨events, htrace, ?_⟩
      intro event hevent writer text result heq
      subst event
      have hclosed := (hfresh writer fd text result hevent).2.2
      rw [← hfd] at hclosed
      exact absurd (hinv.isOpen hp) hclosed
  | portServer ready count hrun =>
      apply hpolite
      exact portServer_polite hrun happart
  | fifoServer hrun hdrains =>
      rcases fifoServer_forwards hinv.queue hrun with ⟨events, htrace, hforwards⟩
      have hblock := hforwards.block (hdrains events htrace) hstep.monitoring
        (hstep.complete events htrace)
      exact ⟨events, htrace, [events], by simp, by simpa using hblock⟩
  | rereadConf hrun =>
      rcases rereadConf_cases hrun with ⟨aq, events, hwrites, hnext⟩
      apply hpolite
      refine ⟨events, by rw [hnext], hwrites.isMessage fd⟩

theorem unbroken_of_run
    {fd : Int} {s next : Server} (hreachable : Reachable s)
    (hrun : ReflTransGen (MonitoredStep fd) s next) :
    ∃ events, next.trace = s.trace ++ events ∧ Unbroken fd events := by
  have hboth : ServerInv next ∧
      ∃ events, next.trace = s.trace ++ events ∧ Unbroken fd events := by
    induction hrun with
    | refl =>
        exact ⟨hreachable.serverInv, [], (List.append_nil _).symm, [], rfl, by simp⟩
    | tail _ hstep ih =>
        rcases ih.2 with ⟨first, hfirst, hunbroken⟩
        rcases hstep.unbroken ih.1 with ⟨second, hsecond, hunbroken'⟩
        refine ⟨ih.1.serverStep hstep.step, first ++ second, ?_, hunbroken.append hunbroken'⟩
        rw [hsecond, hfirst, List.append_assoc]
  exact hboth.2

/-! ## A status line in two chunks -/

/-- The monitor FIFO holds two chunks, the first of them not empty. -/
def Env.relaying (first second : List Byte) : Env :=
  { Env.obliging with
    read := fun s _ =>
      match s.trace.getLast? with
      | some (.write .fifoServer _ text _) => if text = first then some second else some []
      | _ => some first }

/-- A client has connected and asked for the monitor stream. -/
def Server.watched : Server :=
  let started := finalState ((start .obliging).run .blank)
  let admitted := finalState ((portDaemon .obliging).run started)
  finalState ((portServer (.relaying (bytes "monitor on\n") []) 2).run
    { admitted with ps := { admitted.ps with sel := {3}, selcount := 1 } })

theorem reachable_watched : Reachable .watched := by
  let started := finalState ((start .obliging).run .blank)
  let admitted := finalState ((portDaemon .obliging).run started)
  have hstart : (start .obliging).run .blank = .ok ((), started) := by decide +kernel
  have haccepts : Accepts .obliging started :=
    ⟨nextFd started, _, rfl, nextFd_fresh started⟩
  have hadmitted : (portDaemon .obliging).run started = .ok ((), admitted) := by
    decide +kernel
  have hserved : (portServer (.relaying (bytes "monitor on\n") []) 2).run
      { admitted with ps := { admitted.ps with sel := {3}, selcount := 1 } } =
        .ok ((), .watched) := by
    decide +kernel
  exact ⟨.obliging, started, hstart,
    .tail (.single (.portDaemon haccepts trivial hadmitted)) (.portServer {3} 1 hserved)⟩

def statusEvents : List Event :=
  [.read 4 (some (bytes "STATUS\nu")),
    .write .fifoServer 3 (bytes "STATUS\nu") (.wrote 8),
    .read 4 (some (bytes "p\n")), .write .fifoServer 3 (bytes "p\n") (.wrote 2),
    .read 4 (some [])]

def noticeEvent : Event :=
  .write .reauthenticateUsers 3 readOnlyLine (.wrote readOnlyLine.length)

/-- Both chunks are read in one call, and the notice of a reload comes behind them. -/
theorem unbroken_of_run_watched :
    let relayed :=
      finalState ((fifoServer (.relaying (bytes "STATUS\nu") (bytes "p\n")) 3).run .watched)
    let reloaded := finalState ((rereadConf .obliging).run relayed)
    reloaded.trace = Server.watched.trace ++ (statusEvents ++ [noticeEvent]) ∧
      Unbroken 3 (statusEvents ++ [noticeEvent]) := by
  let relayed :=
    finalState ((fifoServer (.relaying (bytes "STATUS\nu") (bytes "p\n")) 3).run .watched)
  let reloaded := finalState ((rereadConf .obliging).run relayed)
  let p : Port := ⟨3, ⟨0x7f000001, 1024⟩, flagRead ||| flagMonitor, some []⟩
  have hrun : (fifoServer (.relaying (bytes "STATUS\nu") (bytes "p\n")) 3).run .watched =
      .ok ((), relayed) := by
    decide +kernel
  have hreload : (rereadConf .obliging).run relayed = .ok ((), reloaded) := by decide +kernel
  have htrace : relayed.trace = Server.watched.trace ++ statusEvents := by decide +kernel
  have hnotice : reloaded.trace = relayed.trace ++ [noticeEvent] := by decide +kernel
  have hevents : ∀ events, relayed.trace = Server.watched.trace ++ events →
      events = statusEvents := by
    intro events h
    rw [htrace] at h
    exact (List.append_cancel_left h).symm
  have hfirst : MonitoredStep 3 .watched relayed := by
    refine ⟨.fifoServer hrun ?_, ⟨p, by decide +kernel, rfl, by decide⟩, ?_⟩
    · intro events h
      rw [hevents events h]
      refine Or.inr ⟨⟨[bytes "STATUS", bytes "up"], by decide, by decide⟩, ?_⟩
      intro writer fd text hmem
      simp [statusEvents] at hmem
    · intro events h
      rw [hevents events h]
      intro writer text result hmem
      simp [statusEvents] at hmem
      rcases hmem with ⟨_, htext, hresult⟩ | ⟨_, htext, hresult⟩
      · rw [hresult, htext]
        rfl
      · rw [hresult, htext]
        rfl
  have hsecond : MonitoredStep 3 relayed reloaded := by
    refine ⟨.rereadConf hreload, ⟨p, by decide +kernel, rfl, by decide⟩, ?_⟩
    intro events h
    rw [hnotice] at h
    rw [← List.append_cancel_left h]
    intro writer text result hmem
    simp [noticeEvent] at hmem
    rw [hmem.2.2, hmem.2.1]
  have hboth : reloaded.trace = Server.watched.trace ++ (statusEvents ++ [noticeEvent]) := by
    rw [hnotice, htrace, List.append_assoc]
  rcases unbroken_of_run reachable_watched ((ReflTransGen.single hfirst).tail hsecond) with
    ⟨events, hall, hunbroken⟩
  rw [hboth] at hall
  rw [← List.append_cancel_left hall] at hunbroken
  exact ⟨hboth, hunbroken⟩

def brokenEvents : List Event :=
  [.read 4 (some (bytes "STATUS\nu")),
    .write .fifoServer 3 (bytes "STATUS\nu") (.wrote 8), .read 4 (some []),
    .write .reauthenticateUsers 3 readOnlyLine (.wrote readOnlyLine.length),
    .read 4 (some (bytes "p\n")), .write .fifoServer 3 (bytes "p\n") (.wrote 2),
    .read 4 (some [])]

/-- The rest of the line comes after a reload of the configuration. -/
theorem exists_broken_line :
    ∃ s next events, Reachable s ∧
      ReflTransGen (fun a b => ServerStep (fun _ _ => True) (fun _ _ => True) a b ∧
        ∃ p ∈ a.pq, p.fd = 3 ∧ p.has flagMonitor = true) s next ∧
      (∃ p ∈ next.pq, p.fd = 3 ∧ p.has flagMonitor = true) ∧
      next.trace = s.trace ++ events ∧ WholeLines (drained events) ∧
      Complete 3 events ∧ ¬ Unbroken 3 events := by
  let half := finalState ((fifoServer (.relaying (bytes "STATUS\nu") []) 3).run .watched)
  let reloaded := finalState ((rereadConf .obliging).run half)
  let next := finalState ((fifoServer (.relaying (bytes "p\n") []) 3).run reloaded)
  have hhalf : (fifoServer (.relaying (bytes "STATUS\nu") []) 3).run .watched =
      .ok ((), half) := by
    decide +kernel
  have hreloaded : (rereadConf .obliging).run half = .ok ((), reloaded) := by
    decide +kernel
  have hnext : (fifoServer (.relaying (bytes "p\n") []) 3).run reloaded =
      .ok ((), next) := by
    decide +kernel
  let p : Port := ⟨3, ⟨0x7f000001, 1024⟩, flagRead ||| flagMonitor, some []⟩
  have hwatched : p ∈ Server.watched.pq := by decide +kernel
  have hhalf' : p ∈ half.pq := by decide +kernel
  have hreloaded' : p ∈ reloaded.pq := by decide +kernel
  have hnext' : p ∈ next.pq := by decide +kernel
  refine ⟨.watched, next, brokenEvents, reachable_watched, ?_, ⟨p, hnext', rfl, by decide⟩,
    by decide +kernel, ⟨[bytes "STATUS", bytes "up"], by decide, by decide⟩, ?_, ?_⟩
  · exact .tail (.tail (.single ⟨.fifoServer hhalf trivial, p, hwatched, rfl, by decide⟩)
      ⟨.rereadConf hreloaded, p, hhalf', rfl, by decide⟩)
      ⟨.fifoServer hnext trivial, p, hreloaded', rfl, by decide⟩
  · intro writer text result hmem
    simp [brokenEvents] at hmem
    rcases hmem with ⟨_, htext, hresult⟩ | ⟨_, htext, hresult⟩ | ⟨_, htext, hresult⟩
    · rw [hresult, htext]
      rfl
    · rw [hresult, htext]
    · rw [hresult, htext]
      rfl
  · intro hunbroken
    have hsplit : brokenEvents = brokenEvents.take 3 ++
        .write .reauthenticateUsers 3 readOnlyLine (.wrote readOnlyLine.length) ::
          brokenEvents.drop 4 := rfl
    rw [hsplit] at hunbroken
    have hwhole := hunbroken.before_message (by simp)
    have hlast := hwhole.getLast (by decide)
    revert hlast
    decide

end DialdTop
