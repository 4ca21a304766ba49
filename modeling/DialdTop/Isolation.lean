import DialdTop.ServerInvariant
import DialdTop.Service

/-!
# Isolation of the clients

A command, or the end of a connection, concerns the port it comes from.  What
it leaves of the queue, the bit set, the kernel and the monitor counter is
compared with the state before, for any place of the port in the queue.
-/

namespace DialdTop

open Program

/-! ## States in which a port is served -/

/-- The states of `port_server`, between its rounds and within them. -/
inductive Serving : Server → Prop
  | enter {s : Server} (ready : Finset Int) (count : Int) : Reachable s →
      Serving { s with ps := { s.ps with sel := ready, selcount := count } }
  | read {s : Server} (fd : Int) (chunk : Option (List Byte)) : Serving s →
      Serving (s.log (.read fd chunk))
  | round {env : Env} {s next : Server} : Serving s → ServeEffect env s next →
      Serving next

theorem ServerInv.serveEffect
    {env : Env} {s next : Server} (heffect : ServeEffect env s next)
    (hinv : ServerInv s) : ServerInv next := by
  have hbalanced : Balanced s.leaked s := ⟨hinv.descriptors, rfl⟩
  exact ⟨hinv.queue.serveEffect heffect, (hbalanced.serveEffect heffect).toDescriptorInv⟩

theorem Serving.serverInv {s : Server} (hserving : Serving s) : ServerInv s := by
  induction hserving with
  | enter ready count hreachable =>
      have hinv := hreachable.serverInv
      exact ⟨{ hinv.queue with }, { hinv.descriptors with }⟩
  | read fd chunk _ ih => exact ⟨{ ih.queue with }, { ih.descriptors with }⟩
  | round _ heffect ih => exact ih.serveEffect heffect

/-! ## What the other ports see -/

/-- What a port, if it is still queued, adds to `monitorcount`. -/
def contribution : Option Port → Int
  | none => 0
  | some p => if p.has flagMonitor then 1 else 0

def Event.writesTo (fd : Int) : Event → Prop
  | .write _ target _ _ => target = fd
  | _ => False

/-- From `s` to `t` nothing has changed for the ports in `front` and `rest`.
The port `p` between them has become `left`. -/
structure Undisturbed (s : Server) (front : List Port) (p : Port) (rest : List Port)
    (left : Option Port) (t : Server) : Prop where
  queue : t.pq = front ++ left.toList ++ rest
  rights : ∀ q ∈ left, SameRights q p
  registered : ∀ q ∈ front ++ rest, q.fd ∈ t.ps.full
  isOpen : ∀ q ∈ front ++ rest, q.fd ∈ t.kernel
  silent : ∃ events, t.trace = s.trace ++ events ∧
    ∀ event ∈ events, ∀ q ∈ front ++ rest, ¬ event.writesTo q.fd
  monitorcount : t.monitorcount - s.monitorcount = contribution left - contribution (some p)

section Frame

variable {s t : Server} {front rest : List Port} {p : Port} {left : Option Port}
  (hinv : ServerInv s) (hpq : s.pq = front ++ p :: rest)

include hinv hpq in
theorem ServerInv.fd_ne {q : Port} (hq : q ∈ front ++ rest) : q.fd ≠ p.fd := by
  have hp : s.pq[front.length]? = some p := by simp [hpq]
  have hother := hinv.queue.fd_not_mem_closed hp
  simp only [Server.closed, hpq, eraseIdx_append_cons] at hother
  intro hfd
  exact hother (List.mem_map.mpr ⟨q, hq, hfd⟩)

/-- The monitor counter follows the flags of the queue. -/
theorem monitorcount_change
    (hs : QueueInv s) (ht : QueueInv t) (hpq : s.pq = front ++ p :: rest)
    (hqueue : t.pq = front ++ left.toList ++ rest) :
    t.monitorcount - s.monitorcount = contribution left - contribution (some p) := by
  have hone : ∀ q : Option Port,
      contribution q = (q.toList.countP (·.has flagMonitor) : Int) := by
    intro q
    cases q with
    | none => rfl
    | some q =>
        by_cases hmonitor : q.has flagMonitor
        · simp [contribution, hmonitor]
        · simp [contribution, hmonitor]
  have hsplit : s.pq = front ++ (some p).toList ++ rest := by
    rw [hpq]
    simp
  rw [hs.monitorcount, ht.monitorcount, hqueue, hsplit, hone, hone]
  simp only [List.countP_append]
  omega

include hinv hpq in
theorem Obeyed.undisturbed
    (hobeyed : Obeyed s front p rest left t) (hnext : ServerInv t) :
    Undisturbed s front p rest left t where
  queue := hobeyed.queue
  rights := hobeyed.rights
  registered := by
    intro q hq
    apply hnext.queue.mem_full
    rw [hobeyed.queue]
    simp only [List.mem_append] at hq ⊢
    exact hq.imp_left Or.inl
  isOpen := by
    intro q hq
    apply hnext.isOpen
    rw [hobeyed.queue]
    simp only [List.mem_append] at hq ⊢
    exact hq.imp_left Or.inl
  silent := by
    rcases hobeyed.answers with ⟨events, htrace, hanswers⟩
    refine ⟨events, htrace, ?_⟩
    intro event hevent q hq hwrites
    rcases hanswers event hevent with ⟨writer, fd, text, result, heq, hfd⟩
    subst event
    have htarget : fd = q.fd := hwrites
    rw [htarget] at hfd
    have hmem : q ∈ s.pq := by
      rw [hpq]
      simp only [List.mem_append, List.mem_cons] at hq ⊢
      exact hq.imp_right Or.inr
    rcases hfd with hself | hcontrol
    · exact hinv.fd_ne hpq hq hself
    · exact hinv.portsApart q hmem hcontrol
  monitorcount := monitorcount_change hinv.queue hnext.queue hpq hobeyed.queue

end Frame

theorem ServerInv.closed
    {s : Server} (hinv : ServerInv s) {c : ℕ} {p : Port} (hp : s.pq[c]? = some p) :
    ServerInv (s.closed c p) := by
  have hrun := hinv.queue.closePort_run hp
  have hbalanced : Balanced s.leaked s := ⟨hinv.descriptors, rfl⟩
  exact ⟨hinv.queue.closed hp, (hbalanced.closePort hrun).toDescriptorInv⟩

theorem ServerInv.command
    {env : Env} {line : List Byte} {c : ℕ} {p : Port} {s next : Server} {closed : Bool}
    (hinv : ServerInv s) (hp : s.pq[c]? = some p)
    (hcommand : Command env line c p s closed next) : ServerInv next := by
  have hbalanced : Balanced s.leaked s := ⟨hinv.descriptors, rfl⟩
  exact ⟨hinv.queue.command hp hcommand, (hbalanced.command hcommand).toDescriptorInv⟩

theorem undisturbed_by_client
    {s : Server} (hserving : Serving s) {front rest : List Port} {p : Port}
    (hpq : s.pq = front ++ p :: rest) :
    (∀ env chunk closed next,
      (parseIncoming env chunk front.length).run s = .ok (closed, next) →
        ∃ left : Option Port, (closed = true ↔ left = none) ∧
          Undisturbed s front p rest left next) ∧
      (∀ env chunk, ¬ Overruns env chunk front.length p s →
        ∃ closed next, (parseIncoming env chunk front.length).run s = .ok (closed, next)) ∧
      ∃ next, (closePort front.length).run s = .ok ((), next) ∧
        Undisturbed s front p rest none next := by
  have hinv := hserving.serverInv
  have hp : s.pq[front.length]? = some p := by simp [hpq]
  refine ⟨?_, ?_, ?_⟩
  · intro env chunk closed next hrun
    rcases parseIncoming_cases hrun with ⟨q, hq, hcommand⟩
    have hsame : q = p := Option.some.inj (hq.symm.trans hp)
    subst q
    rcases hcommand.obeyed hinv.queue hpq with ⟨left, hclosed, hobeyed⟩
    exact ⟨left, hclosed, hobeyed.undisturbed hinv hpq (hinv.command hp hcommand)⟩
  · intro env chunk hfits
    exact parseIncoming_completes hinv.queue hp hfits
  · exact ⟨_, hinv.queue.closePort_run hp,
      (obeyed_closed hpq).undisturbed hinv hpq (hinv.closed hp)⟩

/-- Two clients are connected, and the later one has sent something. -/
def Server.shared : Server :=
  let admitted := finalState ((portDaemon .obliging).run
    (finalState ((portDaemon .obliging).run (finalState ((start .obliging).run .blank)))))
  { admitted with ps := { admitted.ps with sel := {4}, selcount := 1 } }

theorem serving_shared : Serving .shared := by
  let started := finalState ((start .obliging).run .blank)
  let admitted := finalState ((portDaemon .obliging).run started)
  let both := finalState ((portDaemon .obliging).run admitted)
  have hstart : (start .obliging).run .blank = .ok ((), started) := by decide +kernel
  have hfirst : (portDaemon .obliging).run started = .ok ((), admitted) := by
    decide +kernel
  have hsecond : (portDaemon .obliging).run admitted = .ok ((), both) := by
    decide +kernel
  have haccepts : ∀ s, Accepts .obliging s := by
    intro s
    exact ⟨nextFd s, _, rfl, nextFd_fresh s⟩
  have hreachable : Reachable both :=
    ⟨.obliging, started, hstart, .tail (.single (.portDaemon (haccepts _) trivial hfirst))
      (.portDaemon (haccepts _) trivial hsecond)⟩
  exact .enter {4} 1 hreachable

theorem undisturbed_by_client_shared :
    (finalState ((parseIncoming .obliging (bytes "close\n") 0).run .shared)).pq =
      [⟨3, ⟨0x7f000001, 1024⟩, flagRead, some []⟩] := by
  let next := finalState ((parseIncoming .obliging (bytes "close\n") 0).run .shared)
  have hpq : Server.shared.pq =
      [] ++ ⟨4, ⟨0x7f000001, 1024⟩, flagRead, some []⟩ ::
        [⟨3, ⟨0x7f000001, 1024⟩, flagRead, some []⟩] := by
    decide +kernel
  have hrun : (parseIncoming .obliging (bytes "close\n") 0).run .shared =
      .ok (true, next) := by
    decide +kernel
  rcases (undisturbed_by_client serving_shared hpq).1 _ _ _ _ hrun with
    ⟨left, hclosed, hleft⟩
  rw [hclosed.mp rfl] at hleft
  exact hleft.queue

end DialdTop
