import DialdTop.ControlCommands
import DialdTop.RecordRelay
import Mathlib.Data.List.Chain

/-!
# From the prompt to diald

A remote client asks for the feed and then sends the commands which are typed.
The server reads this stream in pieces of any size, between which it serves other
clients.  No piece but the first begins with a keyword, so that with the right to
write the stream reaches diald as it was sent.
-/

namespace DialdTop

open Program
open Relation (ReflTransGen)

/-! ## What a client has sent -/

/-- The chunk which has been read from the descriptor. -/
def Event.chunkFrom (fd : Int) : Event → Option (List Byte)
  | .read source (some (b :: line)) => if source = fd then some (b :: line) else none
  | _ => none

/-- What `parse_incoming` has written to `target` on behalf of the port on `fd`. -/
def Event.passedFrom (fd target : Int) : Event → Option (List Byte)
  | .write (.parseIncoming p) other text _ =>
      if p.fd = fd ∧ other = target then some text else none
  | _ => none

def chunksFrom (fd : Int) (events : List Event) : List (List Byte) :=
  events.filterMap (Event.chunkFrom fd)

def passedFrom (fd target : Int) (events : List Event) : List (List Byte) :=
  events.filterMap (Event.passedFrom fd target)

/-- The chunks without a keyword, of a port which may write. -/
def passable (writes : Bool) (chunks : List (List Byte)) : List (List Byte) :=
  if writes then chunks.filter fun chunk => keyword chunk = none else []

/-- Whether a port monitors after a chunk. -/
def listens (monitors : Bool) (chunk : List Byte) : Bool :=
  match keyword chunk with
  | some .monitor => true
  | some .monitorOff => false
  | _ => monitors

/-- Between the two states exactly the chunks of the client without a keyword have
been passed on, and the others have turned its feed on and off. -/
structure Heard (fd : Int) (writes : Bool) (s t : Server) (events : List Event) : Prop where
  trace : t.trace = s.trace ++ events
  passed : passedFrom fd s.controlfd events = passable writes (chunksFrom fd events)
  monitors : ∀ q ∈ t.pq, q.fd = fd → ∃ p ∈ s.pq, p.fd = fd ∧
    q.has flagMonitor = (chunksFrom fd events).foldl listens (p.has flagMonitor)

theorem passable_nil (writes : Bool) : passable writes [] = [] := by
  cases writes with
  | false => rfl
  | true => rfl

theorem passable_append (writes : Bool) (first later : List (List Byte)) :
    passable writes (first ++ later) = passable writes first ++ passable writes later := by
  cases writes with
  | false => rfl
  | true => exact List.filter_append first later

theorem Heard.trans
    {fd : Int} {writes : Bool} {s t u : Server} {first later : List Event}
    (hst : Heard fd writes s t first) (htu : Heard fd writes t u later)
    (hcontrolfd : t.controlfd = s.controlfd) : Heard fd writes s u (first ++ later) where
  trace := by rw [htu.trace, hst.trace, List.append_assoc]
  passed := by
    have hlater := htu.passed
    rw [hcontrolfd] at hlater
    rw [passedFrom, chunksFrom, List.filterMap_append, List.filterMap_append, passable_append]
    exact congrArg₂ (· ++ ·) hst.passed hlater
  monitors := by
    intro q hq hfd
    rcases htu.monitors q hq hfd with ⟨p, hp, hpfd, hlater⟩
    rcases hst.monitors p hp hpfd with ⟨r, hr, hrfd, hfirst⟩
    refine ⟨r, hr, hrfd, ?_⟩
    rw [hlater, hfirst, chunksFrom, chunksFrom, chunksFrom, List.filterMap_append,
      List.foldl_append]

/-- The event is neither a chunk of the client nor written on its behalf. -/
def Event.Beside (fd target : Int) (event : Event) : Prop :=
  event.chunkFrom fd = none ∧ event.passedFrom fd target = none

theorem beside_write
    (fd target : Int) {writer : Writer} (hwriter : ∀ p, writer ≠ .parseIncoming p) (other : Int)
    (text : List Byte) (result : WriteResult) :
    (Event.write writer other text result).Beside fd target := by
  refine ⟨rfl, ?_⟩
  cases writer with
  | parseIncoming p => exact absurd rfl (hwriter p)
  | portDaemon => rfl
  | monitorOpen => rfl
  | fifoServer => rfl
  | reauthenticateUsers => rfl

theorem beside_read
    {fd source : Int} (hsource : source ≠ fd) (target : Int) (chunk : Option (List Byte)) :
    (Event.read source chunk).Beside fd target := by
  refine ⟨?_, rfl⟩
  cases chunk with
  | none => rfl
  | some line =>
      cases line with
      | nil => rfl
      | cons b line => exact if_neg hsource

theorem heard_of_beside
    {fd : Int} {s t : Server} {events : List Event} (htrace : t.trace = s.trace ++ events)
    (hbeside : ∀ event ∈ events, event.Beside fd s.controlfd)
    (hports : ∀ q ∈ t.pq, q.fd = fd → ∃ p ∈ s.pq, p.fd = fd ∧ q.has flagMonitor = p.has flagMonitor)
    (writes : Bool) : Heard fd writes s t events := by
  have hchunks : chunksFrom fd events = [] :=
    List.filterMap_eq_nil_iff.mpr fun event hevent => (hbeside event hevent).1
  have hpassed : passedFrom fd s.controlfd events = [] :=
    List.filterMap_eq_nil_iff.mpr fun event hevent => (hbeside event hevent).2
  refine ⟨htrace, ?_, ?_⟩
  · rw [hpassed, hchunks, passable_nil]
  · rw [hchunks]
    exact hports

theorem heard_refl (fd : Int) (writes : Bool) (s : Server) : Heard fd writes s s [] :=
  heard_of_beside (List.append_nil _).symm (by simp) (fun q hq hfd => ⟨q, hq, hfd, rfl⟩) writes

/-! ## One read -/

theorem QueueInv.port_of_modify
    {s : Server} (hinv : QueueInv s) {c : ℕ} {p : Port} (hp : s.pq[c]? = some p) {f : Port → Port}
    {q : Port} (hq : q ∈ s.pq.modify c f) : q = f p ∨ q ∈ s.pq ∧ q.fd ≠ p.fd := by
  rcases queue_split hp with ⟨front, rest, hpq, rfl⟩
  have hnodup := hinv.distinct
  rw [hpq, List.map_append, List.map_cons, List.nodup_middle, List.nodup_cons] at hnodup
  rw [hpq, modify_append_cons, List.mem_append, List.mem_cons] at hq
  have hother : ∀ q, q ∈ front ∨ q ∈ rest → q ∈ s.pq ∧ q.fd ≠ p.fd := by
    intro q hq
    have hmem : q ∈ front ++ rest := List.mem_append.mpr hq
    refine ⟨?_, ?_⟩
    · rw [hpq, List.mem_append, List.mem_cons]
      exact hq.imp_right Or.inr
    · intro hfd
      apply hnodup.1
      rw [← List.map_append, ← hfd]
      exact List.mem_map_of_mem hmem
  rcases hq with hq | rfl | hq
  · exact Or.inr (hother q (Or.inl hq))
  · exact Or.inl rfl
  · exact Or.inr (hother q (Or.inr hq))

/-- The port which has sent a chunk has followed it, and the others are as before. -/
def Follows (p : Port) (line : List Byte) (s t : Server) : Prop :=
  ∀ q ∈ t.pq, q.fd = p.fd ∧ q.has flagMonitor = listens (p.has flagMonitor) line ∨
    q ∈ s.pq ∧ q.fd ≠ p.fd

theorem follows_of_modify
    {s t : Server} (hinv : QueueInv s) {c : ℕ} {p : Port} (hp : s.pq[c]? = some p)
    {f : Port → Port} (hpq : t.pq = s.pq.modify c f) (hfd : (f p).fd = p.fd) {line : List Byte}
    (hmonitor : (f p).has flagMonitor = listens (p.has flagMonitor) line) : Follows p line s t := by
  intro q hq
  rw [hpq] at hq
  rcases hinv.port_of_modify hp hq with rfl | hother
  · exact Or.inl ⟨hfd, hmonitor⟩
  · exact Or.inr hother

theorem follows_of_pq
    {s t : Server} (hinv : QueueInv s) {c : ℕ} {p : Port} (hp : s.pq[c]? = some p)
    (hpq : t.pq = s.pq) {line : List Byte}
    (hmonitor : p.has flagMonitor = listens (p.has flagMonitor) line) : Follows p line s t :=
  follows_of_modify hinv hp (by rw [hpq, List.modify_id]) rfl hmonitor

theorem heard_of_follows
    {fd : Int} {writes : Bool} {s t : Server} {p : Port} (hp : p ∈ s.pq) {line : List Byte}
    (hline : line ≠ []) {answers : List Event}
    (htrace : t.trace = s.trace ++ .read p.fd (some line) :: answers)
    (hwrites : ∀ event ∈ answers, event.chunkFrom fd = none)
    (hpassed : passedFrom fd s.controlfd answers =
      if p.fd = fd then passable writes [line] else [])
    (hfollows : Follows p line s t) :
    Heard fd writes s t (.read p.fd (some line) :: answers) := by
  have hnone : answers.filterMap (Event.chunkFrom fd) = [] :=
    List.filterMap_eq_nil_iff.mpr hwrites
  have hchunks : chunksFrom fd (.read p.fd (some line) :: answers) =
      if p.fd = fd then [line] else [] := by
    cases line with
    | nil => exact absurd rfl hline
    | cons b line =>
        by_cases hfd : p.fd = fd
        · simp [chunksFrom, Event.chunkFrom, hnone, hfd]
        · simp [chunksFrom, Event.chunkFrom, hnone, hfd]
  refine ⟨htrace, ?_, ?_⟩
  · rw [hchunks, passedFrom, List.filterMap_cons_none rfl]
    refine hpassed.trans ?_
    split
    next => rfl
    next => exact (passable_nil writes).symm
  · intro q hq hfd
    rw [hchunks]
    rcases hfollows q hq with ⟨hsame, hmonitor⟩ | ⟨hmem, hother⟩
    · refine ⟨p, hp, hsame.symm.trans hfd, ?_⟩
      rw [if_pos (hsame.symm.trans hfd)]
      exact hmonitor
    · refine ⟨q, hmem, hfd, ?_⟩
      rw [if_neg (fun hpfd => hother (hfd.trans hpfd.symm))]
      rfl

section Parse

variable {env : Env} {fd : Int} {writes : Bool} {s next : Server} {c : ℕ} {p : Port}
  {line : List Byte} {closed : Bool} (hp : s.pq[c]? = some p) (hline : line ≠ [])

include hp hline

/-- A chunk with a keyword is not passed on. -/
theorem heard_of_keyword
    {word : Keyword} (hword : keyword line = some word) {answers : List Event}
    (htrace : next.trace = s.trace ++ .read p.fd (some line) :: answers)
    (hanswers : ∀ event ∈ answers, event.Beside fd s.controlfd) (hfollows : Follows p line s next) :
    Heard fd writes s next (.read p.fd (some line) :: answers) := by
  have hpassable : passable writes [line] = [] := by
    cases writes with
    | false => rfl
    | true => simp [passable, hword]
  have hpassed : passedFrom fd s.controlfd answers = [] :=
    List.filterMap_eq_nil_iff.mpr fun event hevent => (hanswers event hevent).2
  refine heard_of_follows (List.mem_of_getElem? hp) hline htrace
    (fun event hevent => (hanswers event hevent).1) ?_ hfollows
  rw [hpassed, hpassable, ite_self]

variable (hinv : QueueInv s)

include hinv

theorem parseIncoming_heard_other
    (hword : keyword line = none) (hrights : p.fd = fd → p.has flagWrite = writes)
    (happart : fd ≠ s.controlfd)
    (hrun : (parseIncoming env line c).run (s.log (.read p.fd (some line))) =
      .ok (closed, next)) :
    ∃ answers, Heard fd writes s next (.read p.fd (some line) :: answers) := by
  have hmonitor : p.has flagMonitor = listens (p.has flagMonitor) line := by
    rw [listens, hword]
  have hnode : (s.log (.read p.fd (some line))).pq[c]? = some p := hp
  have hmem : p ∈ s.pq := List.mem_of_getElem? hp
  rw [parseIncoming_run_other hnode hword] at hrun
  split at hrun
  next hwrite =>
    cases hrun
    refine ⟨[.write (.parseIncoming p) s.controlfd line _], heard_of_follows hmem hline
      (by simp [Server.log]; rfl) (by simp [Event.chunkFrom]) ?_
      (follows_of_pq hinv hp rfl hmonitor)⟩
    by_cases hfd : p.fd = fd
    · have hwrites : writes = true := (hrights hfd).symm.trans hwrite
      simp [passedFrom, Event.passedFrom, hfd, passable, hwrites, hword]
    · simp [passedFrom, Event.passedFrom, hfd]
  next hwrite =>
    split at hrun
    next =>
      cases hrun
      refine ⟨[.write (.parseIncoming p) p.fd (noControlLine line) _], heard_of_follows hmem hline
        (by simp [Server.log]; rfl) (by simp [Event.chunkFrom]) ?_
        (follows_of_pq hinv hp rfl hmonitor)⟩
      by_cases hfd : p.fd = fd
      · have hwrites : writes = false := by
          rw [← hrights hfd, ← Bool.not_eq_true]
          exact hwrite
        simp [passedFrom, Event.passedFrom, hfd, happart, passable, hwrites]
      · simp [passedFrom, Event.passedFrom, hfd]
    next => cases hrun

theorem parseIncoming_heard_word
    {word : Keyword} (hword : keyword line = some word)
    (hrun : (parseIncoming env line c).run (s.log (.read p.fd (some line))) =
      .ok (closed, next)) :
    ∃ answers, Heard fd writes s next (.read p.fd (some line) :: answers) := by
  let received := s.log (.read p.fd (some line))
  have hnode : received.pq[c]? = some p := hp
  have hqueue : QueueInv received := hinv.log _
  have hsilent : received.trace = s.trace ++ [.read p.fd (some line)] := rfl
  cases word with
  | monitorOff =>
      rw [parseIncoming_run_monitorOff hnode hword] at hrun
      have hoff : listens (p.has flagMonitor) line = false := by rw [listens, hword]
      split at hrun
      next hmonitor =>
        rw [Except.ok.injEq, Prod.mk.injEq] at hrun
        rw [← hrun.2]
        refine ⟨[], heard_of_keyword hp hline hword hsilent (by simp) ?_⟩
        refine follows_of_modify hinv hp rfl rfl ?_
        rw [hoff, Port.monitorOff_has_monitor]
      next hmonitor =>
        rw [Except.ok.injEq, Prod.mk.injEq] at hrun
        rw [← hrun.2]
        refine ⟨[], heard_of_keyword hp hline hword hsilent (by simp) ?_⟩
        refine follows_of_pq hinv hp rfl ?_
        rw [hoff, ← Bool.not_eq_true]
        exact hmonitor
  | monitor =>
      have hon : listens (p.has flagMonitor) line = true := by rw [listens, hword]
      have hstarted : ∀ t : Server, t.pq = received.pq.modify c Port.monitorOn →
          Follows p line s t := by
        intro t ht
        refine follows_of_modify hinv hp ht rfl ?_
        rw [hon, Port.monitorOn_has_monitor]
      rcases parseIncoming_monitor_cases hnode hword hrun with
        ⟨_, ⟨hmonitor, hnext⟩ | ⟨_, ⟨_, hnext⟩ | ⟨_, hopen⟩⟩⟩
      · rw [hnext]
        refine ⟨[], heard_of_keyword hp hline hword hsilent (by simp) ?_⟩
        refine follows_of_pq hinv hp rfl ?_
        rw [hon, hmonitor]
      · rw [hnext]
        exact ⟨[], heard_of_keyword hp hline hword hsilent (by simp) (hstarted _ rfl)⟩
      · have hpq : next.pq = (received.monitorOn c).pq := by
          rcases monitorOpen_cases hopen with ⟨_, hnext⟩ | ⟨_, path, ⟨hnext, _⟩ | hopened⟩
          · rw [hnext]
          · rw [hnext]
            rfl
          · rcases hopened with ⟨_, _, _, _, hnext⟩
            rw [hnext]
            rfl
        rcases monitorOpen_trace hopen with htrace | ⟨path, result, htrace⟩
        · exact ⟨[], heard_of_keyword hp hline hword (htrace.trans hsilent) (by simp)
            (hstarted _ hpq)⟩
        · refine ⟨[.write .monitorOpen s.controlfd (monitorLine path) result],
            heard_of_keyword hp hline hword ?_ ?_ (hstarted _ hpq)⟩
          · rw [htrace]
            simp [Server.monitorOn, Server.log, received]
          · rw [List.forall_mem_singleton]
            exact beside_write _ _ (fun q heq => by cases heq) _ _ _
  | close =>
      rw [parseIncoming_run_close hnode hqueue hword] at hrun
      cases hrun
      refine ⟨[], heard_of_keyword hp hline hword hsilent (by simp) ?_⟩
      intro q hq
      refine Or.inr ⟨List.mem_of_mem_eraseIdx hq, ?_⟩
      intro hfd
      apply hqueue.fd_not_mem_closed hnode
      rw [← hfd]
      exact List.mem_map_of_mem hq

end Parse

/-! ## One step of the server -/

theorem ServeRound.heard
    {env : Env} {s next : Server} (hround : ServeRound env s next) (hinv : QueueInv s) {fd : Int}
    {writes : Bool} (hrights : ∀ p ∈ s.pq, p.fd = fd → p.has flagWrite = writes)
    (happart : fd ≠ s.controlfd) : ∃ events, Heard fd writes s next events := by
  cases hround with
  | @hangup c p chunk hp hend hclose =>
      refine ⟨[.read p.fd chunk], heard_of_beside (closePort_trace hclose) ?_ ?_ writes⟩
      · rw [List.forall_mem_singleton]
        refine ⟨?_, rfl⟩
        rcases chunk with _ | _ | ⟨b, line⟩
        · rfl
        · rfl
        · cases hend
      · intro q hq hfd
        rcases closePort_cases hclose with ⟨_, _, ⟨_, rfl⟩ | ⟨found, _, _, rfl⟩⟩
        · exact ⟨q, hq, hfd, rfl⟩
        · exact ⟨q, List.mem_of_mem_eraseIdx hq, hfd, rfl⟩
  | @command c p line closed hp hline hparse =>
      cases hword : keyword line with
      | none =>
          rcases parseIncoming_heard_other hp hline hinv hword
            (hrights p (List.mem_of_getElem? hp)) happart hparse with ⟨answers, hheard⟩
          exact ⟨_, hheard⟩
      | some word =>
          rcases parseIncoming_heard_word hp hline hinv hword hparse with ⟨answers, hheard⟩
          exact ⟨_, hheard⟩

theorem portServer_heard
    {env : Env} {fuel : ℕ} {s next : Server} (hrun : (portServer env fuel).run s = .ok ((), next))
    (hinv : QueueInv s) {fd : Int} {writes : Bool}
    (hrights : ∀ p ∈ s.pq, p.fd = fd → p.has flagWrite = writes) (happart : fd ≠ s.controlfd) :
    ∃ events, Heard fd writes s next events := by
  have hall : QueueInv next ∧ Descends s next ∧ ∃ events, Heard fd writes s next events := by
    have hrounds := portServer_rounds hrun
    clear hrun
    induction hrounds with
    | refl => exact ⟨hinv, descends_of_pq rfl rfl rfl, [], heard_refl fd writes s⟩
    | @tail mid next _ hround ih =>
        rcases ih with ⟨hqueue, hdescends, first, hfirst⟩
        have hrights' : ∀ p ∈ mid.pq, p.fd = fd → p.has flagWrite = writes := by
          intro p hp hfd
          rcases hdescends.ports p hp with ⟨q, hq, hsame⟩
          rw [hsame.write]
          exact hrights q hq (hsame.fd.symm.trans hfd)
        rcases hround.heard hqueue hrights' (hdescends.controlfd ▸ happart) with ⟨later, hlater⟩
        exact ⟨hqueue.serveEffect hround.effect, hdescends.trans hround.effect.descends, _,
          hfirst.trans hlater hdescends.controlfd⟩
  exact hall.2.2

/-- What the relay leaves of the ports and of the descriptors. -/
structure Narrows (s t : Server) : Prop where
  ports : ∀ q ∈ t.pq, q ∈ s.pq
  controlfd : t.controlfd = s.controlfd
  monitorfd : t.monitorfd = s.monitorfd ∨ t.monitorfd = -1

theorem RelayEffect.narrows {s next : Server} (heffect : RelayEffect s next) : Narrows s next := by
  cases heffect with
  | drained chunk => exact ⟨fun q hq => hq, rfl, Or.inl rfl⟩
  | relayed chunk result _ _ => exact ⟨fun q hq => hq, rfl, Or.inl rfl⟩
  | close hclose =>
      rcases closePort_cases hclose with ⟨_, _, ⟨_, rfl⟩ | ⟨found, _, _, rfl⟩⟩
      · exact ⟨fun q hq => hq, rfl, Or.inl rfl⟩
      · exact ⟨fun q hq => List.mem_of_mem_eraseIdx hq, rfl, Or.inl rfl⟩
  | monitorClose _ _ => exact ⟨fun q hq => hq, rfl, Or.inr rfl⟩

theorem RelayEffect.heard
    {s next : Server} (heffect : RelayEffect s next) {fd : Int} (hfd : s.monitorfd ≠ fd)
    (writes : Bool) : ∃ events, Heard fd writes s next events := by
  have hports : ∀ q ∈ next.pq, q.fd = fd →
      ∃ p ∈ s.pq, p.fd = fd ∧ q.has flagMonitor = p.has flagMonitor :=
    fun q hq hqfd => ⟨q, heffect.narrows.ports q hq, hqfd, rfl⟩
  cases heffect with
  | drained chunk =>
      refine ⟨[.read s.monitorfd chunk], heard_of_beside rfl ?_ hports writes⟩
      rw [List.forall_mem_singleton]
      exact beside_read hfd _ _
  | @relayed c p chunk result _ _ =>
      refine ⟨[.write .fifoServer p.fd chunk result], heard_of_beside rfl ?_ hports writes⟩
      rw [List.forall_mem_singleton]
      exact beside_write _ _ (fun q heq => by cases heq) _ _ _
  | close hclose =>
      refine ⟨[], heard_of_beside ?_ (by simp) hports writes⟩
      rw [closePort_trace hclose, List.append_nil]
  | monitorClose _ _ =>
      have htrace : s.monitorClosed.trace = s.trace ++ [] := (List.append_nil s.trace).symm
      exact ⟨[], heard_of_beside htrace (by simp) hports writes⟩

theorem fifoServer_heard
    {env : Env} {fuel : ℕ} {s next : Server} (hrun : (fifoServer env fuel).run s = .ok ((), next))
    {fd : Int} (hfd : s.monitorfd ≠ fd) (hnonneg : 0 ≤ fd) (writes : Bool) :
    next.controlfd = s.controlfd ∧ ∃ events, Heard fd writes s next events := by
  have hall : next.controlfd = s.controlfd ∧ next.monitorfd ≠ fd ∧
      ∃ events, Heard fd writes s next events := by
    have heffects := fifoServer_effects hrun
    clear hrun
    induction heffects with
    | refl => exact ⟨rfl, hfd, [], heard_refl fd writes s⟩
    | tail _ heffect ih =>
        rcases ih with ⟨hcontrolfd, hmonitorfd, first, hfirst⟩
        rcases heffect.heard hmonitorfd writes with ⟨later, hlater⟩
        refine ⟨heffect.narrows.controlfd.trans hcontrolfd, ?_, _, hfirst.trans hlater hcontrolfd⟩
        rcases heffect.narrows.monitorfd with heq | heq
        · rw [heq]
          exact hmonitorfd
        · rw [heq]
          omega
  exact ⟨hall.1, hall.2.2⟩

/-- Between the two states nothing is read from these descriptors. -/
def ReadsBeside (fds : Finset Int) (s t : Server) : Prop :=
  ∃ events, t.trace = s.trace ++ events ∧
    ∀ source chunk, .read source chunk ∈ events → source ∉ fds

theorem ReadsBeside.trans {fds : Finset Int} {s t u : Server} (hst : ReadsBeside fds s t)
    (htu : ReadsBeside fds t u) : ReadsBeside fds s u := by
  rcases hst with ⟨first, hfirst, hreads⟩
  rcases htu with ⟨later, hlater, hreads'⟩
  refine ⟨first ++ later, by rw [hlater, hfirst, List.append_assoc], ?_⟩
  intro source chunk hmem
  rcases List.mem_append.mp hmem with hmem | hmem
  · exact hreads source chunk hmem
  · exact hreads' source chunk hmem

theorem afterIdent_reads
    {env : Env} {userid : List Byte} {s next : Server}
    (hrun : (afterIdent env userid).run s = .ok ((), next)) (fds : Finset Int) :
    ReadsBeside fds s next := by
  by_cases hfits : NameFits userid s.sIn.sa.sinAddr (grants s.aq userid s.sIn.sa.sinAddr)
  · rw [afterIdent_run_fits env rfl hfits] at hrun
    rcases Server.greeted_trace s env userid (grants s.aq userid s.sIn.sa.sinAddr) with
      ⟨result, hgreeted⟩
    exact ⟨_, (enqueueIncoming_cases hrun).trace.trans hgreeted, by simp⟩
  · rw [afterIdent_run_overflow env rfl hfits] at hrun
    cases hrun

theorem askIdent_reads
    {env : Env} {sIdent : Int} {s next : Server} {userid : List Byte}
    (hrun : (askIdent env sIdent).run s = .ok (userid, next)) {fds : Finset Int}
    (hfds : sIdent ∉ fds) : ReadsBeside fds s next := by
  rw [askIdent_run] at hrun
  cases hextract : extract (env.stack (s.replied env sIdent)) s.sIn.sa (s.reply env sIdent) with
  | error reason =>
      rw [hextract] at hrun
      cases hrun
  | ok user =>
      rw [hextract] at hrun
      cases hrun
      rcases Server.identified_trace s env sIdent userid with ⟨result, reply, htrace⟩
      refine ⟨_, htrace, ?_⟩
      intro source chunk hmem
      simp only [List.mem_cons, List.not_mem_nil, reduceCtorEq, Event.read.injEq, or_false,
        false_or] at hmem
      rw [hmem.1]
      exact hfds

/-- While a connection is admitted, the only reply which is read is that of identd. -/
theorem portDaemon_reads
    {env : Env} {s next : Server} {fd : Int} {sa : SockAddr}
    (haccept : env.accept s = some (fd, sa)) (hfresh : s.fresh fd)
    (hrun : (portDaemon env).run s = .ok ((), next)) :
    ReadsBeside (insert fd s.kernel) s next := by
  let t := s.accepted fd sa
  have hfirst : ReadsBeside (insert fd s.kernel) s (t.asked env) := by
    have hasked : (t.asked env).trace = s.trace ++
        [.connect (t.withSocket env).1 sa.sinAddr (IdentAnswers env t)] := by
      rw [Server.asked_eq]
      rfl
    exact ⟨_, hasked, by simp⟩
  rw [portDaemon_run_of_acceptPort (acceptPort_run haccept hfresh)] at hrun
  split at hrun
  next hanswers =>
    rw [Prog.run_bind_eq_ok] at hrun
    rcases hrun with ⟨userid, mid, hask, hafter⟩
    have hopen : (t.withSocket env).1 ∉ insert fd s.kernel := fun hmem =>
      Server.withSocket_ne hanswers.1 hmem rfl
    exact hfirst.trans ((askIdent_reads hask hopen).trans (afterIdent_reads hafter _))
  next =>
    rcases Server.withoutIdent_trace (t.asked env) env with ⟨result, hresult⟩
    exact hfirst.trans ⟨_, (enqueueIncoming_cases hrun).trace.trans hresult, by simp⟩

theorem portDaemon_heard
    {env : Env} {s next : Server} {fd : Int} (hopen : fd ∈ s.kernel) (haccepts : Accepts env s)
    (hrun : (portDaemon env).run s = .ok ((), next)) (writes : Bool) :
    ∃ events, Heard fd writes s next events := by
  rcases portDaemon_cases haccepts hrun with
    ⟨q, events, kernel, hfresh, _, hwrites, haccept, _, hadmitted⟩
  have htrace : next.trace = s.trace ++ events := hadmitted.trace
  rcases portDaemon_reads haccept hfresh hrun with ⟨events', htrace', hreads⟩
  rw [htrace, List.append_cancel_left_eq] at htrace'
  subst events'
  refine ⟨events, heard_of_beside htrace ?_ ?_ writes⟩
  · intro event hevent
    cases event with
    | read source chunk =>
        apply beside_read
        intro heq
        rw [heq] at hevent
        exact hreads fd chunk hevent (Finset.mem_insert_of_mem hopen)
    | write writer other text result =>
        refine beside_write _ _ ?_ _ _ _
        intro port heq
        have hwriter := (hwrites writer other text result hevent).1
        rw [hwriter] at heq
        cases heq
    | connect other addr success => exact ⟨rfl, rfl⟩
  · intro r hr hrfd
    cases hadmitted with
    | queued _ =>
        rcases List.mem_cons.mp hr with heq | hr
        · rw [heq] at hrfd
          rw [hrfd] at hfresh
          exact absurd hopen hfresh.2
        · exact ⟨r, hr, hrfd, rfl⟩
    | refused => exact ⟨r, hr, hrfd, rfl⟩

theorem ReloadWrites.beside
    {aq : List AuthData} {ports : List Port} {events : List Event}
    (hwrites : ReloadWrites aq ports events) (fd target : Int) :
    ∀ event ∈ events, event.Beside fd target := by
  induction hwrites with
  | nil => simp
  | cons hfirst _ ih =>
      rcases hfirst with ⟨granted, result, _, rfl⟩
      intro event hevent
      rcases List.mem_cons.mp hevent with rfl | hevent
      · exact beside_write _ _ (fun q heq => by cases heq) _ _ _
      · exact ih event hevent

theorem DescriptorInv.ne_monitorfd
    {s : Server} (hinv : DescriptorInv s) {p : Port} (hp : p ∈ s.pq) : s.monitorfd ≠ p.fd := by
  have hport : p.fd ∈ s.pq.map Port.fd := List.mem_map_of_mem hp
  intro heq
  have hheld : p.fd ∈ s.held := by
    simp only [Server.held, List.mem_cons, List.mem_append]
    exact Or.inr (Or.inr hport)
  have hopen : s.monitorfd ≠ -1 := by
    have hnonneg := hinv.nonneg p.fd (hinv.isOpen p.fd hheld)
    omega
  have hdistinct := (List.nodup_append.mp (List.nodup_cons.mp hinv.distinct).2).2.2
  have hmem : s.monitorfd ∈ heldIn s.controlfd ++ heldIn s.monitorfd := by
    simp [heldIn, hopen]
  exact hdistinct s.monitorfd hmem p.fd hport heq

/-- A step at whose beginning the client is connected. -/
theorem ServerStep.heard
    {daemon : Env → Server → Prop} {relayed : Server → Server → Prop} {s next : Server}
    (hstep : ServerStep daemon relayed s next) (hinv : ServerInv s) {p : Port} (hp : p ∈ s.pq) :
    next.controlfd = s.controlfd ∧
      ∃ events, Heard p.fd (p.has flagWrite) s next events := by
  cases hstep with
  | doSelect hrun =>
      have hserver := (doSelect_cases hrun).server
      have hpq : next.pq = s.pq := by rw [hserver]
      refine ⟨by rw [hserver], [], heard_of_beside ?_ (by simp) ?_ _⟩
      · rw [hserver, List.append_nil]
      · intro q hq hfd
        rw [hpq] at hq
        exact ⟨q, hq, hfd, rfl⟩
  | portDaemon haccepts _ hrun =>
      refine ⟨?_, portDaemon_heard (hinv.isOpen hp) haccepts hrun _⟩
      rcases portDaemon_cases haccepts hrun with ⟨q, events, kernel, _, _, _, _, _, hadmitted⟩
      cases hadmitted with
      | queued _ => rfl
      | refused => rfl
  | portServer ready count hrun =>
      have hqueue : QueueInv { s with ps := { s.ps with sel := ready, selcount := count } } :=
        { hinv.queue with }
      have hrights : ∀ q ∈ s.pq, q.fd = p.fd → q.has flagWrite = p.has flagWrite := by
        intro q hq hfd
        rw [hinv.queue.port_unique hq hp hfd]
      rcases portServer_heard hrun hqueue hrights (hinv.portsApart p hp) with ⟨events, hheard⟩
      refine ⟨?_, events, hheard.trace, hheard.passed, hheard.monitors⟩
      have hdescends := invariant_of_effects (fun _ _ heffect hs => hs.trans heffect.descends)
        (portServer_effects hrun) (descends_of_pq rfl rfl rfl)
      exact hdescends.controlfd
  | fifoServer hrun _ =>
      have hnonneg := (hinv.queue.inRange p hp).1
      exact fifoServer_heard hrun (hinv.descriptors.ne_monitorfd hp) hnonneg _
  | rereadConf hrun =>
      rcases rereadConf_cases hrun with ⟨aq, events, hwrites, rfl⟩
      refine ⟨rfl, events, heard_of_beside rfl (hwrites.beside _ _) ?_ _⟩
      intro q hq hfd
      rcases List.mem_map.mp hq with ⟨r, hr, rfl⟩
      exact ⟨r, hr, hfd, r.regraded_has_monitor aq⟩

/-! ## A connection -/

/-- A step at whose beginning the client on `fd` is connected, with or without the
right to write. -/
def StepWith (fd : Int) (writes : Bool) (s t : Server) : Prop :=
  (∃ p ∈ s.pq, p.fd = fd ∧ p.has flagWrite = writes) ∧
    ServerStep (fun _ _ => True) (fun _ _ => True) s t

theorem heard_of_steps
    {fd : Int} {writes : Bool} {s next : Server} (hinv : ServerInv s)
    (hsteps : ReflTransGen (StepWith fd writes) s next) :
    ∃ events, Heard fd writes s next events := by
  have hall : ServerInv next ∧ next.controlfd = s.controlfd ∧
      ∃ events, Heard fd writes s next events := by
    induction hsteps with
    | refl => exact ⟨hinv, rfl, [], heard_refl fd writes s⟩
    | tail _ hstep ih =>
        rcases ih with ⟨hmid, hcontrolfd, first, hfirst⟩
        rcases hstep with ⟨⟨p, hp, rfl, rfl⟩, hstep⟩
        rcases hstep.heard hmid hp with ⟨hcontrolfd', later, hlater⟩
        exact ⟨hmid.serverStep hstep, hcontrolfd'.trans hcontrolfd, _,
          hfirst.trans hlater hcontrolfd⟩
  exact hall.2.2

/-! ## The stream of a client -/

namespace Monitor

/-- What is written for the lines typed at the prompt. -/
def commandWrites (typed : List (List Byte)) : List (List Byte) :=
  typed.flatMap fun line => fifoCommand (validateCommand line)

/-- What a remote client writes: the request of `init_fifo`, and the commands. -/
def clientWrites (typed : List (List Byte)) : List (List Byte) :=
  fifoCommand (bytes "monitor on") ++ commandWrites typed

/-- No keyword begins in the text: it has no `m`, and no `l` behind a `c`. -/
def Plain (text : List Byte) : Prop :=
  (∀ c ∈ text, tolower c ≠ 109) ∧ text.IsChain fun c d => ¬ (tolower c = 99 ∧ tolower d = 108)

-- Bytes are finitely many: without the search through the text all of them are tried.
instance (text : List Byte) : Decidable (Plain text) :=
  @instDecidableAnd _ _ (List.decidableBAll _ text) inferInstance

theorem Plain.part {text part : List Byte} (h : Plain text) (hpart : part <:+: text) :
    Plain part := by
  refine ⟨fun c hc => h.1 c (hpart.subset hc), ?_⟩
  rcases hpart with ⟨front, rest, rfl⟩
  exact h.2.left_of_append.right_of_append

theorem Plain.keyword {chunk : List Byte} (h : Plain chunk) : keyword chunk = none := by
  have hmonitor : ∀ word, ¬ BeginsWith chunk (109 :: word) := by
    intro word hbegins
    have hmem : (109 : Byte) ∈ chunk.map tolower := by
      apply hbegins.subset
      rw [List.map_cons]
      exact List.mem_cons_self
    rcases List.mem_map.mp hmem with ⟨c, hc, heq⟩
    exact h.1 c hc heq
  have hclose : ¬ BeginsWith chunk (bytes "close") := by
    intro hbegins
    rcases chunk with _ | ⟨c, _ | ⟨d, chunk⟩⟩
    · revert hbegins
      decide
    · have hlength := hbegins.length_le
      simp at hlength
      revert hlength
      decide
    · have hsplit : (bytes "close").map tolower = 99 :: 108 :: bytes "ose" := by decide
      rw [BeginsWith, hsplit, List.map_cons, List.map_cons, List.cons_prefix_cons,
        List.cons_prefix_cons] at hbegins
      exact (List.isChain_cons_cons.mp h.2).1 ⟨hbegins.1.symm, hbegins.2.1.symm⟩
  have hoff : ¬ (BeginsWith chunk (bytes "monitor off" ++ [carriageReturn]) ∨
      BeginsWith chunk (bytes "monitor" ++ [carriageReturn])) := by
    rw [not_or]
    exact ⟨hmonitor _, hmonitor _⟩
  have hon : ¬ BeginsWith chunk (bytes "monitor ") := hmonitor _
  rw [keyword_eq, if_neg hoff, if_neg hon, if_neg hclose]

/-- Lines may follow each other: no keyword begins in a newline. -/
theorem Plain.append {line rest : List Byte} (hline : Plain (line ++ [newline]))
    (hrest : Plain rest) : Plain (line ++ [newline] ++ rest) := by
  refine ⟨?_, hline.2.append hrest.2 ?_⟩
  · intro c hc
    rcases List.mem_append.mp hc with hc | hc
    · exact hline.1 c hc
    · exact hrest.1 c hc
  · intro c hc d _ hbegins
    rw [List.getLast?_concat, Option.mem_some_iff] at hc
    have hnewline : tolower newline ≠ 99 := by decide
    rw [← hc] at hbegins
    exact hnewline hbegins.1

theorem cmd_plain : ∀ entry ∈ cmd, Plain (entry ++ [newline]) := by decide

theorem plain_commandWrites (typed : List (List Byte)) : Plain (commandWrites typed).flatten := by
  induction typed with
  | nil => exact ⟨by simp [commandWrites], .nil⟩
  | cons line typed ih =>
      rw [commandWrites, List.flatMap_cons, List.flatten_append, fifoCommand]
      by_cases hempty : (validateCommand line).length = 0
      · rw [if_pos hempty]
        exact ih
      · rw [if_neg hempty, List.flatten_singleton]
        have hentry : validateCommand line ≠ [] := fun h => hempty (by rw [h]; rfl)
        exact (cmd_plain _ (validateCommand_begins rfl hentry).1).append ih

theorem keyword_monitor {tail rest : List Byte} (htail : tail <+: bytes "on\n" ++ rest) :
    keyword (bytes "monitor " ++ tail) = some .monitor := by
  have hbegins : BeginsWith (bytes "monitor " ++ tail) (bytes "monitor ") := by
    rw [BeginsWith, List.map_append]
    exact List.prefix_append _ _
  have hbare : ¬ BeginsWith (bytes "monitor " ++ tail) (bytes "monitor" ++ [carriageReturn]) := by
    have hword : (bytes "monitor" ++ [carriageReturn]).map tolower =
        (bytes "monitor").map tolower ++ [carriageReturn] := by decide
    have hline : (bytes "monitor ").map tolower =
        (bytes "monitor").map tolower ++ [blank] := by decide
    rw [BeginsWith, hword, List.map_append, hline, List.append_assoc,
      List.prefix_append_right_inj]
    simp [carriageReturn, blank]
  -- `on` and `off` differ in their second letter.
  have hoff :
      ¬ BeginsWith (bytes "monitor " ++ tail) (bytes "monitor off" ++ [carriageReturn]) := by
    have hword : (bytes "monitor off" ++ [carriageReturn]).map tolower =
        (bytes "monitor ").map tolower ++ (111 :: 102 :: bytes "f\r") := by decide
    have hstart : (bytes "on\n" ++ rest).map tolower =
        111 :: 110 :: newline :: rest.map tolower := by
      rfl
    rw [BeginsWith, hword, List.map_append, List.prefix_append_right_inj]
    intro hbegins
    have hon := hbegins.trans (htail.map tolower)
    rw [hstart, List.cons_prefix_cons, List.cons_prefix_cons] at hon
    exact absurd hon.2.1 (by decide)
  have hneither :
      ¬ (BeginsWith (bytes "monitor " ++ tail) (bytes "monitor off" ++ [carriageReturn]) ∨
        BeginsWith (bytes "monitor " ++ tail) (bytes "monitor" ++ [carriageReturn])) := by
    rw [not_or]
    exact ⟨hoff, hbare⟩
  rw [keyword_eq, if_neg hneither, if_pos hbegins]

/-- Of the first chunk the server has to have the blank behind `monitor`. -/
theorem keyword_request
    {chunk rest : List Byte} (hchunk : chunk <+: bytes "monitor on\n" ++ rest) (hne : chunk ≠ []) :
    keyword chunk = if 8 ≤ chunk.length then some .monitor else none := by
  split
  next hlong =>
    have hlength : (bytes "monitor ").length = 8 := by decide
    have hsplit : bytes "monitor on\n" = bytes "monitor " ++ bytes "on\n" := by decide
    rw [hsplit, List.append_assoc] at hchunk
    have hrequest : bytes "monitor " <+: chunk :=
      List.prefix_of_prefix_length_le (List.prefix_append _ _) hchunk (by rw [hlength]; exact hlong)
    rcases hrequest with ⟨tail, rfl⟩
    rw [List.prefix_append_right_inj] at hchunk
    exact keyword_monitor hchunk
  next hshort =>
    have hrequest : chunk <+: bytes "monitor on\n" := by
      refine List.prefix_of_prefix_length_le hchunk (List.prefix_append _ _) ?_
      have hwhole : (bytes "monitor on\n").length = 11 := by decide
      omega
    have hshorter : ∀ n ∈ List.range 8, 0 < n → keyword ((bytes "monitor on\n").take n) = none := by
      decide
    rw [List.prefix_iff_eq_take.mp hrequest]
    exact hshorter _ (List.mem_range.mpr (by omega)) (List.length_pos_iff.mpr hne)

/-- The server has found the request in the first chunk. -/
def startsFeed : List (List Byte) → Bool
  | [] => false
  | chunk :: _ => 8 ≤ chunk.length

/-- The chunks behind the request. -/
def behindRequest (chunks : List (List Byte)) : List (List Byte) :=
  if startsFeed chunks then chunks.tail else chunks

theorem keyword_later
    {chunk later rest : List Byte} (hne : chunk ≠ []) (hrest : Plain rest)
    (hstream : chunk ++ later <+: bytes "monitor on\n" ++ rest) : Plain later := by
  rcases chunk with _ | ⟨c, chunk⟩
  · exact absurd rfl hne
  · have hsplit : bytes "monitor on\n" = 109 :: (bytes "onitor on" ++ [newline]) := by decide
    rw [hsplit, List.cons_append, List.cons_append, List.cons_prefix_cons] at hstream
    have hplain : Plain (bytes "onitor on" ++ [newline] ++ rest) :=
      Plain.append (by decide) hrest
    exact hplain.part ((List.infix_append' chunk later []).trans (by simpa using hstream.2.isInfix))

/-- Only the first chunk of the stream begins with a keyword. -/
theorem keyword_chunks
    {chunks : List (List Byte)} (hne : ∀ chunk ∈ chunks, chunk ≠ []) {rest : List Byte}
    (hrest : Plain rest) (hstream : chunks.flatten <+: bytes "monitor on\n" ++ rest) :
    passable true chunks = behindRequest chunks ∧
      chunks.foldl listens false = startsFeed chunks := by
  cases chunks with
  | nil => exact ⟨rfl, rfl⟩
  | cons chunk later =>
      rw [List.forall_mem_cons] at hne
      rw [List.flatten_cons] at hstream
      have hplain := keyword_later hne.1 hrest hstream
      have hnone : ∀ other ∈ later, keyword other = none := fun other hother =>
        (hplain.part (List.infix_of_mem_flatten hother)).keyword
      have hlater : later.filter (fun other => keyword other = none) = later :=
        List.filter_eq_self.mpr fun other hother => decide_eq_true (hnone other hother)
      have hfeed : ∀ monitors, later.foldl listens monitors = monitors := by
        intro monitors
        clear hplain hlater hstream hne
        induction later with
        | nil => rfl
        | cons other later ih =>
            rw [List.forall_mem_cons] at hnone
            rw [List.foldl_cons, listens, hnone.1]
            exact ih hnone.2
      have hkeyword := keyword_request ((List.prefix_append _ _).trans hstream) hne.1
      rw [passable, if_pos rfl, List.filter_cons, List.foldl_cons, hfeed, hlater, listens, hkeyword]
      by_cases hlong : 8 ≤ chunk.length
      · simp [behindRequest, startsFeed, hlong]
      · simp [behindRequest, startsFeed, hlong]

theorem clientWrites_flatten (typed : List (List Byte)) :
    (clientWrites typed).flatten = bytes "monitor on\n" ++ (commandWrites typed).flatten := by
  rw [clientWrites, List.flatten_append]
  rfl

end Monitor

theorem chunksFrom_ne_nil {fd : Int} {events : List Event} :
    ∀ chunk ∈ chunksFrom fd events, chunk ≠ [] := by
  intro chunk hmem
  rcases List.mem_filterMap.mp hmem with ⟨event, _, heq⟩
  cases event with
  | connect fd addr success => cases heq
  | write writer other text result => cases heq
  | read source line =>
      rcases line with _ | _ | ⟨b, line⟩
      · cases heq
      · cases heq
      · rw [Event.chunkFrom] at heq
        split at heq
        next => cases heq; simp
        next => cases heq

/-- A client which has just been admitted does not monitor yet. -/
theorem ServerInv.admitted_not_monitor
    {env : Env} {s next : Server} (hinv : ServerInv s) {fd : Int} {sa : SockAddr}
    (haccept : env.accept s = some (fd, sa)) (hfresh : s.fresh fd)
    (hrun : (portDaemon env).run s = .ok ((), next)) :
    ∀ p ∈ next.pq, p.fd = fd → p.has flagMonitor = false := by
  rcases portDaemon_cases ⟨fd, sa, haccept, hfresh⟩ hrun with
    ⟨q, events, kernel, _, hgraded, _, _, _, hadmitted⟩
  have hold : ∀ p ∈ s.pq, p.fd ≠ fd := by
    intro p hp hfd
    apply hfresh.2
    rw [← hfd]
    exact hinv.isOpen hp
  intro p hp hfd
  cases hadmitted with
  | queued _ =>
      rcases List.mem_cons.mp hp with rfl | hp
      · exact hgraded.not_monitor
      · exact absurd hfd (hold p hp)
  | refused => exact absurd hfd (hold p hp)

/-- However the stream of a client is cut into reads, and whoever else is served in
between, diald is given what follows the request, and nothing without the right to
write.  Nothing of the commands is lost if the request has been read on its own. -/
theorem commands_reach_diald
    {env : Env} {s first next : Server} {fd : Int} {sa : SockAddr} {writes : Bool}
    (hreachable : Reachable s) (haccept : env.accept s = some (fd, sa)) (hfresh : s.fresh fd)
    (hdaemon : (portDaemon env).run s = .ok ((), first))
    (hsteps : ReflTransGen (StepWith fd writes) first next) :
    ∃ events, next.trace = first.trace ++ events ∧ ∀ typed,
      (chunksFrom fd events).flatten <+: (Monitor.clientWrites typed).flatten →
      (∀ p ∈ next.pq, p.fd = fd →
        p.has flagMonitor = Monitor.startsFeed (chunksFrom fd events)) ∧
      passedFrom fd first.controlfd events =
        (if writes then Monitor.behindRequest (chunksFrom fd events) else []) ∧
      (writes = true → (chunksFrom fd events).head? = some (bytes "monitor on\n") →
        (passedFrom fd first.controlfd events).flatten <+:
            (Monitor.commandWrites typed).flatten ∧
          ((chunksFrom fd events).flatten = (Monitor.clientWrites typed).flatten →
            (passedFrom fd first.controlfd events).flatten =
              (Monitor.commandWrites typed).flatten)) := by
  have hinv := hreachable.serverInv
  have hadmitted : ServerStep (fun _ _ => True) (fun _ _ => True) s first :=
    .portDaemon ⟨fd, sa, haccept, hfresh⟩ trivial hdaemon
  have hsilent := hinv.admitted_not_monitor haccept hfresh hdaemon
  rcases heard_of_steps (hinv.serverStep hadmitted) hsteps with ⟨events, hheard⟩
  refine ⟨events, hheard.trace, ?_⟩
  intro typed hstream
  rw [Monitor.clientWrites_flatten] at hstream
  rcases Monitor.keyword_chunks chunksFrom_ne_nil (Monitor.plain_commandWrites typed) hstream with
    ⟨hpassable, hlistens⟩
  have hpassed : passedFrom fd first.controlfd events =
      if writes then Monitor.behindRequest (chunksFrom fd events) else [] := by
    rw [hheard.passed]
    cases writes with
    | true => exact hpassable
    | false => rfl
  refine ⟨?_, hpassed, ?_⟩
  · intro q hq hfd
    rcases hheard.monitors q hq hfd with ⟨p, hp, hpfd, hmonitor⟩
    rw [hmonitor, hsilent p hp hpfd, hlistens]
  · intro hwrites hrequest
    rcases List.head?_eq_some_iff.mp hrequest with ⟨later, hchunks⟩
    have hlater : passedFrom fd first.controlfd events = later := by
      rw [hpassed, if_pos hwrites, hchunks]
      rfl
    rw [hchunks, List.flatten_cons] at hstream ⊢
    rw [hlater, Monitor.clientWrites_flatten]
    exact ⟨(List.prefix_append_right_inj _).mp hstream, List.append_cancel_left⟩

/-- A user with full access has connected. -/
def Server.trusted : Server :=
  finalState ((portDaemon .trusting).run (finalState ((start .trusting).run .blank)))

/-- One chunk has been read from the client on descriptor 3. -/
def Server.typed (s : Server) (chunk : List Byte) : Server :=
  finalState ((portServer (.relaying chunk []) 2).run
    { s with ps := { s.ps with sel := {3}, selcount := 1 } })

/-- The user asks for the feed and types `up`. -/
theorem commands_reach_diald_up :
    let next := (Server.trusted.typed (bytes "monitor on\n")).typed (bytes "up\n")
    ∃ events, next.trace = Server.trusted.trace ++ events ∧
      (passedFrom 3 Server.trusted.controlfd events).flatten = bytes "up\n" := by
  let s := finalState ((start .trusting).run .blank)
  have hstart : (start .trusting).run .blank = .ok ((), s) := by decide +kernel
  have hreachable : Reachable s := ⟨.trusting, s, hstart, .refl⟩
  have haccept : Env.trusting.accept s = some (3, ⟨0x7f000001, 1024⟩) := by decide +kernel
  have hfresh : s.fresh 3 := by decide +kernel
  have hdaemon : (portDaemon .trusting).run s = .ok ((), .trusted) := by decide +kernel
  let asked := Server.trusted.typed (bytes "monitor on\n")
  have hasked : (portServer (.relaying (bytes "monitor on\n") []) 2).run
      { Server.trusted with ps := { Server.trusted.ps with sel := {3}, selcount := 1 } } =
        .ok ((), asked) := by
    decide +kernel
  let next := asked.typed (bytes "up\n")
  have hnext : (portServer (.relaying (bytes "up\n") []) 2).run
      { asked with ps := { asked.ps with sel := {3}, selcount := 1 } } = .ok ((), next) := by
    decide +kernel
  have hfirst : StepWith 3 true .trusted asked := ⟨by decide +kernel, .portServer {3} 1 hasked⟩
  have hsecond : StepWith 3 true asked next := ⟨by decide +kernel, .portServer {3} 1 hnext⟩
  have hchunks : chunksFrom 3 (next.trace.drop Server.trusted.trace.length) =
      [bytes "monitor on\n", bytes "up\n"] := by
    decide +kernel
  have hwrites : (Monitor.clientWrites [bytes "up"]).flatten =
      [bytes "monitor on\n", bytes "up\n"].flatten := by
    decide +kernel
  rcases commands_reach_diald hreachable haccept hfresh hdaemon
    ((ReflTransGen.single hfirst).tail hsecond) with ⟨events, htrace, hstream⟩
  rw [htrace, List.drop_left] at hchunks
  have harrived := hstream [bytes "up"]
  rw [hchunks, hwrites] at harrived
  refine ⟨events, htrace, (((harrived (List.prefix_refl _)).2.2 rfl rfl).2 rfl).trans ?_⟩
  decide +kernel

end DialdTop
