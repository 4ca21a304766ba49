import DialdTop.QueueInvariant
import DialdTop.RestartWalk

/-!
# Fan-out of the monitor stream

For one chunk, the loop of `fifo_server` is a walk along the monitoring ports
which restarts at the head of the queue after every port it closes.  The budget
of the walk is what the counter leaves of `monitorcount`.
-/

namespace DialdTop

open Program
open RestartWalk

/-- Each write of the chunk succeeds in full or fails with EPIPE. -/
def WritesWhole (env : Env) (chunk : List Byte) : Prop :=
  ∀ s fd, env.write s fd chunk = .wrote chunk.length ∨ env.write s fd chunk = .error .epipe

def relayEvent (chunk : List Byte) (visit : Port × Bool) : Event :=
  .write .fifoServer visit.1.fd chunk
    (if visit.2 then .wrote chunk.length else .error .epipe)

theorem relayEvent_failure (chunk : List Byte) (p : Port) :
    relayEvent chunk (p, false) = .write .fifoServer p.fd chunk (.error .epipe) :=
  rfl

/-- The state after the writes of a walk, and the answers to them. -/
inductive Sent (env : Env) (chunk : List Byte) :
    Server → List (Port × Bool) → Server → Prop
  | done {s : Server} : Sent env chunk s [] s
  | success {s next : Server} {p : Port} {visits : List (Port × Bool)} :
      env.write s p.fd chunk = .wrote chunk.length →
        Sent env chunk (s.log (relayEvent chunk (p, true))) visits next →
          Sent env chunk s ((p, true) :: visits) next
  | failure {s next : Server} {c : ℕ} {p : Port} {visits : List (Port × Bool)} :
      env.write s p.fd chunk = .error .epipe → s.pq[c]? = some p →
        Sent env chunk ((s.log (relayEvent chunk (p, false))).closed c p) visits next →
          Sent env chunk s ((p, false) :: visits) next

def monitoring (ports : List Port) : List Port :=
  ports.filter fun p => p.has flagMonitor

theorem relay_run_stop
    (env : Env) (chunk : List Byte) (fuel : ℕ) {s : Server} {i : Int} (c : ℕ)
    (hi : ¬ i < s.monitorcount) :
    (relay env chunk (fuel + 1) (some c) i).run s = .ok ((), s) := by
  simp [relay, hi]

theorem relay_run_skip
    (env : Env) (chunk : List Byte) (fuel : ℕ) {s : Server} {i : Int}
    {front rest : List Port} {p : Port} (hpq : s.pq = front ++ p :: rest)
    (hi : i < s.monitorcount) (hp : p.has flagMonitor = false) :
    (relay env chunk (fuel + 1) (some front.length) i).run s =
      (relay env chunk fuel (cursor (front ++ [p]) rest) i).run s := by
  have hnode : s.pq[front.length]? = some p := by simp [hpq]
  simp [relay, hi, node_run hnode, hp, advance_run_some hpq]

theorem relay_run_written
    {env : Env} {chunk : List Byte} (fuel : ℕ) {s : Server} {i : Int}
    {front rest : List Port} {p : Port} (hpq : s.pq = front ++ p :: rest)
    (hi : i < s.monitorcount) (hp : p.has flagMonitor = true) {result : WriteResult}
    (hwrite : env.write s p.fd chunk = result) (hresult : result ≠ .error .epipe) :
    (relay env chunk (fuel + 1) (some front.length) i).run s =
      (relay env chunk fuel (cursor (front ++ [p]) rest) (i + 1)).run
        (s.log (.write .fifoServer p.fd chunk result)) := by
  have hnode : s.pq[front.length]? = some p := by simp [hpq]
  have hpq' : (s.log (.write .fifoServer p.fd chunk result)).pq = front ++ p :: rest := hpq
  have hadvance := advance_run_some hpq'
  simp [relay, hi, node_run hnode, hp, sysWrite, hwrite, hresult, hadvance]

theorem relay_run_failure
    {env : Env} {chunk : List Byte} (fuel : ℕ) {s : Server} {i : Int}
    {front rest : List Port} {p : Port} (hinv : QueueInv s)
    (hpq : s.pq = front ++ p :: rest)
    (hi : i < s.monitorcount) (hp : p.has flagMonitor = true)
    (hwrite : env.write s p.fd chunk = .error .epipe) :
    (relay env chunk (fuel + 1) (some front.length) i).run s =
      (relay env chunk fuel (cursor [] (front ++ rest)) (i + 1)).run
        ((s.log (relayEvent chunk (p, false))).closed front.length p) := by
  have hnode : s.pq[front.length]? = some p := by simp [hpq]
  let t := s.log (relayEvent chunk (p, false))
  have hclose : (closePort front.length).run t = .ok ((), t.closed front.length p) :=
    (hinv.log _).closePort_run hnode
  have hrest : (t.closed front.length p).pq = front ++ rest := by
    have ht : t.pq = front ++ p :: rest := hpq
    simp only [Server.closed, ht, eraseIdx_append_cons]
  have hadvance := advance_run_none hrest
  simp only [t, relayEvent_failure] at hclose hadvance
  rw [relayEvent_failure]
  simp [relay, hi, node_run hnode, hp, sysWrite, hwrite, hclose, hadvance]

/-- A bound for the rounds of the loop: after a port has been closed, the walk
along the rest of the queue begins again. -/
def rounds (queue rest : ℕ) : ℕ :=
  queue * (queue + 1) + rest

theorem rounds_le_succ (queue rest : ℕ) : rounds queue queue ≤ rounds (queue + 1) rest := by
  simp only [rounds, Nat.add_mul, Nat.mul_add]
  omega

theorem monitoring_append (front rest : List Port) :
    monitoring (front ++ rest) = monitoring front ++ monitoring rest :=
  List.filter_append _ _

theorem monitoring_cons_of_pos {p : Port} (hp : p.has flagMonitor = true) (rest : List Port) :
    monitoring (p :: rest) = p :: monitoring rest :=
  List.filter_cons_of_pos hp

theorem monitoring_cons_of_neg {p : Port} (hp : p.has flagMonitor = false) (rest : List Port) :
    monitoring (p :: rest) = monitoring rest :=
  List.filter_cons_of_neg (by simp [hp])

/-- The loop ends in the state `next` when it may go more than `bound` rounds. -/
def RelayEnds (env : Env) (chunk : List Byte) (curr : Option ℕ) (i : Int) (s next : Server)
    (bound : ℕ) : Prop :=
  ∀ fuel, bound < fuel → (relay env chunk fuel curr i).run s = .ok ((), next)

theorem relayEnds_of_stop
    {env : Env} {chunk : List Byte} {curr : Option ℕ} {i : Int} {s next : Server}
    (hstop : ∀ fuel, (relay env chunk (fuel + 1) curr i).run s = .ok ((), next)) (bound : ℕ) :
    RelayEnds env chunk curr i s next bound := by
  intro fuel hfuel
  cases fuel with
  | zero => omega
  | succ fuel => exact hstop fuel

theorem RelayEnds.step
    {env : Env} {chunk : List Byte} {curr curr' : Option ℕ} {i i' : Int} {s s' next : Server}
    {bound bound' : ℕ} (hrest : RelayEnds env chunk curr' i' s' next bound')
    (hround : ∀ fuel, (relay env chunk (fuel + 1) curr i).run s =
      (relay env chunk fuel curr' i').run s') (hbound : bound' ≤ bound) :
    RelayEnds env chunk curr i s next (bound + 1) := by
  intro fuel hfuel
  cases fuel with
  | zero => omega
  | succ fuel =>
      rw [hround]
      exact hrest fuel (by omega)

/-- The loop makes the visits of a walk along the monitoring ports. -/
theorem relay_walk
    {env : Env} {chunk : List Byte} (hwrites : WritesWhole env chunk) (bound : ℕ)
    {s : Server} {front rest : List Port} {i : Int} {budget : ℕ} (hinv : QueueInv s)
    (hpq : s.pq = front ++ rest) (hbudget : budget = (s.monitorcount - i).toNat)
    (hbound : rounds s.pq.length rest.length ≤ bound) :
    ∃ visits next, Walk budget (monitoring front) (monitoring rest) visits ∧
      Sent env chunk s visits next ∧
        RelayEnds env chunk (cursor front rest) i s next (rounds s.pq.length rest.length) := by
  induction bound generalizing s front rest i budget with
  | zero =>
      have hempty : rest = [] := by
        rw [← List.length_eq_zero_iff]
        unfold rounds at hbound
        omega
      subst rest
      exact ⟨[], s, .finished, .done, relayEnds_of_stop (fun _ => rfl) _⟩
  | succ bound ih =>
      cases rest with
      | nil => exact ⟨[], s, .finished, .done, relayEnds_of_stop (fun _ => rfl) _⟩
      | cons p rest =>
          have hcursor : cursor front (p :: rest) = some front.length := rfl
          rw [hcursor]
          have hstep : rounds s.pq.length (p :: rest).length =
              rounds s.pq.length rest.length + 1 := rfl
          rw [hstep] at hbound ⊢
          by_cases hi : i < s.monitorcount
          · have hnext : s.pq = (front ++ [p]) ++ rest := by simp [hpq]
            cases hp : p.has flagMonitor with
            | false =>
                rcases ih hinv hnext hbudget (by omega) with
                  ⟨visits, next, hwalk, hsent, hends⟩
                rw [monitoring_append, monitoring_cons_of_neg hp] at hwalk
                rw [monitoring_cons_of_neg hp]
                refine ⟨visits, next, by simpa [monitoring] using hwalk, hsent, ?_⟩
                exact hends.step (fun fuel => relay_run_skip env chunk fuel hpq hi hp) le_rfl
            | true =>
                have hpositive : budget = budget - 1 + 1 := by omega
                rw [monitoring_cons_of_pos hp, hpositive]
                rcases hwrites s p.fd with hwrite | hwrite
                · let sent := s.log (relayEvent chunk (p, true))
                  have hleft : budget - 1 = (sent.monitorcount - (i + 1)).toNat := by
                    simp only [sent, Server.log]
                    omega
                  have hbound' : rounds sent.pq.length rest.length ≤ bound :=
                    Nat.le_of_succ_le_succ hbound
                  rcases ih (hinv.log _) hnext hleft hbound' with
                    ⟨visits, next, hwalk, hsent, hends⟩
                  rw [monitoring_append, monitoring_cons_of_pos hp] at hwalk
                  refine ⟨_, next, .success hwalk, .success hwrite hsent, ?_⟩
                  exact hends.step
                    (fun fuel => relay_run_written fuel hpq hi hp hwrite (by simp)) le_rfl
                · let closed := (s.log (relayEvent chunk (p, false))).closed front.length p
                  have hnode : s.pq[front.length]? = some p := by simp [hpq]
                  have hclosed : closed.pq = [] ++ (front ++ rest) := by
                    simp only [closed, Server.closed, Server.log, hpq,
                      eraseIdx_append_cons, List.nil_append]
                  have hleft : budget - 1 - 1 = (closed.monitorcount - (i + 1)).toNat := by
                    simp only [closed, Server.closed, Server.log, hp, if_true]
                    omega
                  have hrounds : rounds closed.pq.length (front ++ rest).length ≤
                      rounds s.pq.length rest.length := by
                    have hlength : s.pq.length = (front ++ rest).length + 1 := by
                      rw [hpq]
                      simp only [List.length_append, List.length_cons]
                      omega
                    rw [hclosed, List.nil_append, hlength]
                    exact rounds_le_succ _ _
                  have hbound' : rounds closed.pq.length (front ++ rest).length ≤ bound :=
                    hrounds.trans (Nat.le_of_succ_le_succ hbound)
                  rcases ih ((hinv.log _).closed hnode) hclosed hleft hbound' with
                    ⟨visits, next, hwalk, hsent, hends⟩
                  rw [monitoring_append] at hwalk
                  refine ⟨_, next, .failure hwalk, .failure hwrite hnode hsent, ?_⟩
                  exact hends.step
                    (fun fuel => relay_run_failure fuel hinv hpq hi hp hwrite) hrounds
          · have hzero : budget = 0 := by omega
            rw [hzero]
            exact ⟨[], s, .spent, .done,
              relayEnds_of_stop (fun fuel => relay_run_stop env chunk fuel _ hi) _⟩

/-! ## The events of a walk -/

theorem Sent.trace
    {env : Env} {chunk : List Byte} {s next : Server} {visits : List (Port × Bool)}
    (hsent : Sent env chunk s visits next) :
    next.trace = s.trace ++ visits.map (relayEvent chunk) := by
  induction hsent with
  | done => simp
  | success _ _ ih =>
      rw [ih]
      simp [Server.log]
  | failure _ _ _ ih =>
      rw [ih]
      simp [Server.log, Server.closed]

theorem Sent.shrinks
    {env : Env} {chunk : List Byte} {s next : Server} {visits : List (Port × Bool)}
    (hsent : Sent env chunk s visits next) :
    next.pq ⊆ s.pq ∧ next.kernel ⊆ s.kernel := by
  induction hsent with
  | done => exact ⟨List.Subset.refl _, Finset.Subset.refl _⟩
  | success _ _ ih => exact ih
  | failure _ _ _ ih =>
      constructor
      · intro p hp
        exact List.mem_of_mem_eraseIdx (ih.1 hp)
      · exact Finset.Subset.trans ih.2 (Finset.erase_subset _ _)

/-- A port whose write failed is closed. -/
theorem Sent.closed
    {env : Env} {chunk : List Byte} {s next : Server} {visits : List (Port × Bool)}
    (hsent : Sent env chunk s visits next) (hinv : QueueInv s) {p : Port}
    (hp : (p, false) ∈ visits) : p ∉ next.pq ∧ p.fd ∉ next.kernel := by
  induction hsent with
  | done => cases hp
  | success _ _ ih =>
      apply ih (hinv.log _)
      simpa using hp
  | @failure s next c q visits _ hq hrest ih =>
      rcases List.mem_cons.mp hp with hp | hp
      · cases hp
        have hlogged := hinv.log (relayEvent chunk (p, false))
        constructor
        · intro hmem
          apply hlogged.fd_not_mem_closed hq
          exact List.mem_map_of_mem (hrest.shrinks.1 hmem)
        · intro hmem
          have hkernel := hrest.shrinks.2 hmem
          simp [Server.closed] at hkernel
      · exact ih ((hinv.log _).closed hq) hp

theorem QueueInv.port_unique {s : Server} (hinv : QueueInv s) {p q : Port}
    (hp : p ∈ s.pq) (hq : q ∈ s.pq) (hfd : p.fd = q.fd) : p = q :=
  List.inj_on_of_nodup_map hinv.distinct hp hq hfd

theorem relayEvent_eq_iff
    {s : Server} (hinv : QueueInv s) {p q : Port} (hp : p ∈ s.pq) (hq : q ∈ s.pq)
    (chunk : List Byte) (first second : Bool) :
    relayEvent chunk (p, first) = relayEvent chunk (q, second) ↔
      (p, first) = (q, second) := by
  constructor
  · intro heq
    rw [relayEvent, relayEvent, Event.write.injEq] at heq
    have hport : p = q := hinv.port_unique hp hq heq.2.1
    have houtcome : first = second := by
      cases first <;> cases second <;> simp_all
    rw [hport, houtcome]
  · intro heq
    rw [heq]

/-- The visits are to monitoring ports, each of which is on the queue. -/
theorem Walk.queued
    {s : Server} {budget : ℕ} {visits : List (Port × Bool)}
    (hwalk : Walk budget [] (monitoring s.pq) visits) {visit : Port × Bool}
    (hvisit : visit ∈ visits) : visit.1 ∈ s.pq ∧ visit.1.has flagMonitor = true := by
  have hmem := hwalk.mem hvisit
  rw [List.nil_append, monitoring, List.mem_filter] at hmem
  exact hmem

theorem count_relayEvent
    {s : Server} (hinv : QueueInv s) {chunk : List Byte} {budget : ℕ}
    {visits : List (Port × Bool)} (hwalk : Walk budget [] (monitoring s.pq) visits)
    {p : Port} (hp : p ∈ s.pq) (outcome : Bool) :
    (visits.map (relayEvent chunk)).count (relayEvent chunk (p, outcome)) =
      visits.count (p, outcome) := by
  rw [List.count, List.countP_map, List.count]
  apply List.countP_congr
  rintro ⟨q, success⟩ hvisit
  have hiff := relayEvent_eq_iff hinv (Walk.queued hwalk hvisit).1 hp chunk success outcome
  simpa using hiff

theorem mem_relayEvent
    {s : Server} (hinv : QueueInv s) {chunk : List Byte} {budget : ℕ}
    {visits : List (Port × Bool)} (hwalk : Walk budget [] (monitoring s.pq) visits)
    {p : Port} (hp : p ∈ s.pq) (outcome : Bool) :
    relayEvent chunk (p, outcome) ∈ visits.map (relayEvent chunk) ↔
      (p, outcome) ∈ visits := by
  rw [← List.count_pos_iff, count_relayEvent hinv hwalk hp, List.count_pos_iff]

/-! ## Delivery of one chunk -/

/-- The events which end in the state `next` bring the chunk to every monitoring
port of `s` whose connection is not broken exactly once, a port on which a write
fails is closed, and the other ports receive nothing. -/
structure FansOut (broken : Int → Prop) (chunk : List Byte) (s : Server)
    (events : List Event) (next : Server) : Prop where
  once : ∀ p ∈ s.pq, p.has flagMonitor = true → ¬ broken p.fd →
    events.count (.write .fifoServer p.fd chunk (.wrote chunk.length)) = 1
  closed : ∀ p ∈ s.pq, .write .fifoServer p.fd chunk (.error .epipe) ∈ events →
    p ∉ next.pq ∧ p.fd ∉ next.kernel
  others : ∀ p ∈ s.pq, p.has flagMonitor = false → ∀ writer text result,
    .write writer p.fd text result ∉ events

/-- In the order of the queue, every write but possibly the last succeeds. -/
def AllButLastAccept (env : Env) (chunk : List Byte) : Server → List Port → Prop
  | _, [] => True
  | _, [_] => True
  | s, p :: q :: rest =>
      env.write s p.fd chunk ≠ .error .epipe ∧
        AllButLastAccept env chunk (s.log (relayEvent chunk (p, true))) (q :: rest)

theorem allButLastAccept_iff
    {env : Env} {chunk : List Byte} {rest : List Port} {s next : Server} {budget : ℕ}
    {front : List Port} {visits : List (Port × Bool)}
    (hwalk : Walk budget front rest visits) (hbudget : rest.length ≤ budget)
    (hsent : Sent env chunk s visits next) :
    AllButLastAccept env chunk s rest ↔
      ∀ visit ∈ visits.take (rest.length - 1), visit.2 = true := by
  induction rest generalizing s budget front visits with
  | nil => simp [AllButLastAccept]
  | cons p rest ih =>
      cases rest with
      | nil => simp [AllButLastAccept]
      | cons q rest =>
          rw [List.length_cons, Nat.add_sub_cancel, List.length_cons] at *
          cases hwalk with
          | spent => omega
          | success hwalk =>
              cases hsent with
              | success hwrite hsent =>
                  rw [AllButLastAccept, ih hwalk (by omega) hsent,
                    List.take_succ_cons]
                  simp [hwrite]
          | failure hwalk =>
              cases hsent with
              | failure hwrite _ _ =>
                  rw [AllButLastAccept, List.take_succ_cons]
                  simp [hwrite]

theorem Sent.reflects
    {env : Env} {chunk : List Byte} {s next : Server} {visits : List (Port × Bool)}
    {broken : Int → Prop} (hsent : Sent env chunk s visits next)
    (hbroken : ∀ t fd, env.write t fd chunk = .error .epipe ↔ broken fd) :
    Reflects (fun p : Port => broken p.fd) visits := by
  induction hsent with
  | done =>
      intro visit hvisit
      cases hvisit
  | @success s next p visits hwrite _ ih =>
      have hsound : ¬ broken p.fd := by
        rw [← hbroken s, hwrite]
        simp
      intro visit hvisit
      rcases List.mem_cons.mp hvisit with hvisit | hvisit
      · simp [hvisit, hsound]
      · exact ih visit hvisit
  | @failure s next c p visits hwrite _ _ ih =>
      have hfails : broken p.fd := (hbroken s p.fd).mp hwrite
      intro visit hvisit
      rcases List.mem_cons.mp hvisit with hvisit | hvisit
      · simp [hvisit, hfails]
      · exact ih visit hvisit

/-- Only the first of the three demands can fail. -/
theorem fansOut_iff_once
    {env : Env} {chunk : List Byte} {s next : Server} {visits : List (Port × Bool)}
    {budget : ℕ} (broken : Int → Prop) (hinv : QueueInv s)
    (hwalk : Walk budget [] (monitoring s.pq) visits)
    (hsent : Sent env chunk s visits next) :
    FansOut broken chunk s (visits.map (relayEvent chunk)) next ↔
      ∀ p ∈ monitoring s.pq, ¬ broken p.fd → visits.count (p, true) = 1 := by
  constructor
  · intro hfans p hp hsound
    rw [monitoring, List.mem_filter] at hp
    rw [← count_relayEvent hinv hwalk hp.1 true]
    exact hfans.once p hp.1 hp.2 hsound
  · intro honce
    refine ⟨?_, ?_, ?_⟩
    · intro p hp hmonitor hsound
      have hmem : p ∈ monitoring s.pq := List.mem_filter.mpr ⟨hp, hmonitor⟩
      rw [← honce p hmem hsound, ← count_relayEvent hinv hwalk hp true]
      rfl
    · intro p hp hfailed
      exact hsent.closed hinv ((mem_relayEvent hinv hwalk hp false).mp hfailed)
    · intro p hp hmonitor writer text result hmem
      rw [List.mem_map] at hmem
      rcases hmem with ⟨visit, hvisit, heq⟩
      rw [relayEvent, Event.write.injEq] at heq
      have hqueued := Walk.queued hwalk hvisit
      rw [hinv.port_unique hqueued.1 hp heq.2.1, hmonitor] at hqueued
      cases hqueued.2

/-- The relay of a chunk terminates.  If a connection counts as broken when a
write to it fails, the chunk fans out if and only if no write but possibly that
to the last monitoring port fails.  If connections are broken from the beginning,
it fans out if and only if the broken ones stand around the others. -/
theorem relayChunk_fansOut_iff
    (env : Env) (chunk : List Byte) (s : Server) (hinv : QueueInv s)
    (hwrites : WritesWhole env chunk) :
    ∃ next events,
      (∀ walk, rounds s.pq.length s.pq.length < walk →
        (relayChunk env chunk walk).run s = .ok ((), next)) ∧
      next.trace = s.trace ++ events ∧
      (FansOut (fun fd => .write .fifoServer fd chunk (.error .epipe) ∈ events)
          chunk s events next ↔
        AllButLastAccept env chunk s (monitoring s.pq)) ∧
      ∀ broken : Int → Prop,
        (∀ t fd, env.write t fd chunk = .error .epipe ↔ broken fd) →
          (FansOut broken chunk s events next ↔
            Sandwiched (fun p : Port => broken p.fd) (monitoring s.pq)) := by
  have hsplit : s.pq = [] ++ s.pq := rfl
  have hbudget : (monitoring s.pq).length = (s.monitorcount - 0).toNat := by
    rw [hinv.monitorcount, List.countP_eq_length_filter, monitoring]
    simp
  rcases relay_walk hwrites _ hinv hsplit hbudget le_rfl with
    ⟨visits, next, hwalk, hsent, hrun⟩
  have hnodup : (monitoring s.pq).Nodup := hinv.distinct.of_map.filter _
  refine ⟨next, visits.map (relayEvent chunk), ?_, hsent.trace, ?_, ?_⟩
  · intro walk hbound
    unfold relayChunk
    rw [Prog.run_bind, advance_run_none rfl]
    exact hrun walk hbound
  · rw [fansOut_iff_once _ hinv hwalk hsent,
      allButLastAccept_iff hwalk le_rfl hsent, ← hwalk.once_iff hnodup]
    have hfailed : ∀ p ∈ monitoring s.pq,
        .write .fifoServer p.fd chunk (.error .epipe) ∈ visits.map (relayEvent chunk) ↔
          (p, false) ∈ visits := by
      intro p hp
      exact mem_relayEvent hinv hwalk (List.mem_filter.mp hp).1 false
    constructor
    · intro honce p hp hsound
      exact honce p hp (mt (hfailed p hp).mp hsound)
    · intro honce p hp hsound
      exact honce p hp (mt (hfailed p hp).mpr hsound)
  · intro broken hbroken
    rw [fansOut_iff_once _ hinv hwalk hsent]
    exact hwalk.sound_once_iff hnodup (hsent.reflects hbroken)

/-! ## Three clients -/

def client (fd : Int) : Port :=
  { fd := fd, sa := ⟨0x7f000001, 1024⟩, flag := flagRead ||| flagMonitor, userid := none }

/-- Three monitoring clients, and the monitor FIFO on descriptor 4. -/
def threeClients : Server :=
  { Server.blank with
    pq := [client 5, client 6, client 7]
    ps := { ThreadFds.empty with fullcount := 3, full := {5, 6, 7}, maxfd := 7 }
    fs := { ThreadFds.empty with fullcount := 1, full := {4}, maxfd := 4 }
    monitorfd := 4
    monitorcount := 3
    kernel := {4, 5, 6, 7} }

theorem threeClients_repInv : RepInv threeClients where
  distinct := by decide
  inRange := by decide
  fullcount := by decide
  full := by decide
  maxfd := Or.inr ⟨by decide, by intro x hx; revert x; decide⟩
  monitorcount := by decide
  fifoClosed := by decide
  fifoOpen := by decide
  feed := by decide

theorem relayChunk_fansOut_iff_obliging :
    ∃ next events, next.trace = threeClients.trace ++ events ∧
      FansOut (fun _ => False) (bytes "STATUS up\n") threeClients events next := by
  have hwrites : WritesWhole .obliging (bytes "STATUS up\n") := fun _ _ => Or.inl rfl
  rcases relayChunk_fansOut_iff .obliging (bytes "STATUS up\n") threeClients
    threeClients_repInv.toQueueInv hwrites with ⟨next, events, _, htrace, _, hfans⟩
  refine ⟨next, events, htrace, (hfans (fun _ => False) ?_).mpr ?_⟩
  · intro t fd
    simp [Env.obliging]
  · right
    exact ⟨[], monitoring threeClients.pq, [], by simp, by simp, by simp, by simp, by simp,
      by simp⟩

/-- The connection on descriptor 6 is broken. -/
def Env.brokenSix : Env :=
  { Env.obliging with
    write := fun _ fd text => if fd = 6 then .error .epipe else .wrote text.length }

theorem exists_skipped_client :
    ∃ next events, RepInv threeClients ∧
      (∀ t fd, Env.brokenSix.write t fd (bytes "STATUS up\n") = .error .epipe ↔ fd = 6) ∧
      (relayChunk .brokenSix (bytes "STATUS up\n") 20).run threeClients = .ok ((), next) ∧
      next.trace = threeClients.trace ++ events ∧
      ¬ FansOut (· = 6) (bytes "STATUS up\n") threeClients events next := by
  let next :=
    finalState ((relayChunk .brokenSix (bytes "STATUS up\n") 20).run threeClients)
  refine ⟨next, next.trace, threeClients_repInv, ?_, by decide +kernel, rfl, ?_⟩
  · intro t fd
    simp only [Env.brokenSix]
    split <;> simp_all
  · intro hfans
    have honce := hfans.once (client 7) (by decide) (by decide) (by decide)
    revert honce
    decide +kernel

end DialdTop
