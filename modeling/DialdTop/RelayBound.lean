import DialdTop.FanOut

/-!
# The work of the relay

Whatever the writes answer, a round of the loop either goes on to the next port or
closes one and begins again, and a write brings the counter closer to
`monitorcount`.  A walk is therefore finite and writes at most `monitorcount` times.
-/

namespace DialdTop

open Program

/-- The event is a write of the chunk by `fifo_server`. -/
def IsRelayWrite (chunk : List Byte) (event : Event) : Prop :=
  ∃ fd result, event = .write .fifoServer fd chunk result

/-- The loop ends in the state `next` after writes of the chunk, at most `left` of them. -/
structure RelayWrites (env : Env) (chunk : List Byte) (curr : Option ℕ) (i : Int)
    (s next : Server) (bound left : ℕ) (events : List Event) : Prop where
  ends : RelayEnds env chunk curr i s next bound
  trace : next.trace = s.trace ++ events
  writes : ∀ event ∈ events, IsRelayWrite chunk event
  length_le : events.length ≤ left

theorem relayWrites_of_stop
    {env : Env} {chunk : List Byte} {curr : Option ℕ} {i : Int} {s : Server}
    (hstop : ∀ fuel, (relay env chunk (fuel + 1) curr i).run s = .ok ((), s))
    (bound left : ℕ) : RelayWrites env chunk curr i s s bound left [] where
  ends := relayEnds_of_stop hstop bound
  trace := (List.append_nil _).symm
  writes := by simp
  length_le := Nat.zero_le _

/-- A round without a write. -/
theorem RelayWrites.skip
    {env : Env} {chunk : List Byte} {curr curr' : Option ℕ} {i : Int} {s next : Server}
    {bound left : ℕ} {events : List Event}
    (h : RelayWrites env chunk curr' i s next bound left events)
    (hround : ∀ fuel, (relay env chunk (fuel + 1) curr i).run s =
      (relay env chunk fuel curr' i).run s) :
    RelayWrites env chunk curr i s next (bound + 1) left events where
  ends := h.ends.step hround le_rfl
  trace := h.trace
  writes := h.writes
  length_le := h.length_le

/-- A round with a write. -/
theorem RelayWrites.write
    {env : Env} {chunk : List Byte} {curr curr' : Option ℕ} {i : Int} {s s' next : Server}
    {bound bound' left left' : ℕ} {event : Event} {events : List Event}
    (h : RelayWrites env chunk curr' (i + 1) s' next bound' left' events)
    (hround : ∀ fuel, (relay env chunk (fuel + 1) curr i).run s =
      (relay env chunk fuel curr' (i + 1)).run s')
    (hevent : IsRelayWrite chunk event) (htrace : s'.trace = s.trace ++ [event])
    (hbound : bound' ≤ bound) (hleft : left' + 1 ≤ left) :
    RelayWrites env chunk curr i s next (bound + 1) left (event :: events) where
  ends := h.ends.step hround hbound
  trace := by rw [h.trace, htrace, List.append_assoc, List.singleton_append]
  writes := List.forall_mem_cons.mpr ⟨hevent, h.writes⟩
  length_le := by
    have hlength := h.length_le
    rw [List.length_cons]
    omega

/-- The loop ends from every place in the queue. -/
theorem relay_bounded
    (env : Env) (chunk : List Byte) (bound : ℕ) {s : Server} {front rest : List Port} {i : Int}
    (hinv : QueueInv s) (hpq : s.pq = front ++ rest)
    (hbound : rounds s.pq.length rest.length ≤ bound) :
    ∃ next events, RelayWrites env chunk (cursor front rest) i s next
      (rounds s.pq.length rest.length) (s.monitorcount - i).toNat events := by
  induction bound generalizing s front rest i with
  | zero =>
      have hempty : rest = [] := by
        rw [← List.length_eq_zero_iff]
        unfold rounds at hbound
        omega
      subst rest
      exact ⟨s, [], relayWrites_of_stop (fun _ => rfl) _ _⟩
  | succ bound ih =>
      cases rest with
      | nil => exact ⟨s, [], relayWrites_of_stop (fun _ => rfl) _ _⟩
      | cons p rest =>
          have hcursor : cursor front (p :: rest) = some front.length := rfl
          have hstep : rounds s.pq.length (p :: rest).length =
              rounds s.pq.length rest.length + 1 := rfl
          rw [hcursor, hstep]
          rw [hstep] at hbound
          by_cases hi : i < s.monitorcount
          case neg =>
            exact ⟨s, [], relayWrites_of_stop
              (fun fuel => relay_run_stop env chunk fuel _ hi) _ _⟩
          have hnext : s.pq = (front ++ [p]) ++ rest := by simp [hpq]
          cases hp : p.has flagMonitor with
          | false =>
              rcases ih (i := i) hinv hnext (by omega) with ⟨next, events, h⟩
              exact ⟨next, events, h.skip fun fuel => relay_run_skip env chunk fuel hpq hi hp⟩
          | true =>
              by_cases hwrite : env.write s p.fd chunk = .error .epipe
              · -- The port is closed, and with it `monitorcount` shrinks.
                let closed := (s.log (relayEvent chunk (p, false))).closed front.length p
                have hnode : s.pq[front.length]? = some p := by simp [hpq]
                have hclosed : closed.pq = [] ++ (front ++ rest) := by
                  simp only [closed, Server.closed, Server.log, hpq, eraseIdx_append_cons,
                    List.nil_append]
                have hcount : closed.monitorcount = s.monitorcount - 1 := by
                  simp only [closed, Server.closed, Server.log, hp, if_true]
                have hrounds : rounds closed.pq.length (front ++ rest).length ≤
                    rounds s.pq.length rest.length := by
                  have hlength : s.pq.length = (front ++ rest).length + 1 := by
                    rw [hpq]
                    simp only [List.length_append, List.length_cons]
                    omega
                  rw [hclosed, List.nil_append, hlength]
                  exact rounds_le_succ _ _
                have hleft : (closed.monitorcount - (i + 1)).toNat + 1 ≤
                    (s.monitorcount - i).toNat := by
                  rw [hcount]
                  omega
                rcases ih (i := i + 1) ((hinv.log _).closed hnode) hclosed
                    (hrounds.trans (Nat.le_of_succ_le_succ hbound)) with ⟨next, events, h⟩
                exact ⟨next, _, h.write
                  (fun fuel => relay_run_failure fuel hinv hpq hi hp hwrite)
                  ⟨p.fd, .error .epipe, rfl⟩ rfl hrounds hleft⟩
              · let sent := s.log (.write .fifoServer p.fd chunk (env.write s p.fd chunk))
                have hleft : (sent.monitorcount - (i + 1)).toNat + 1 ≤
                    (s.monitorcount - i).toNat := by
                  simp only [sent, Server.log]
                  omega
                rcases ih (s := sent) (i := i + 1) (hinv.log _) hnext
                    (Nat.le_of_succ_le_succ hbound) with ⟨next, events, h⟩
                exact ⟨next, _, h.write (fun fuel => relay_run_written fuel hpq hi hp rfl hwrite)
                  ⟨p.fd, _, rfl⟩ rfl le_rfl hleft⟩

/-- The relay of a chunk ends, and writes the chunk at most as often as there are
monitoring ports when it begins. -/
theorem relayChunk_bounded
    (env : Env) (chunk : List Byte) (s : Server) (hinv : QueueInv s) :
    ∃ next events,
      (∀ walk, rounds s.pq.length s.pq.length < walk →
        (relayChunk env chunk walk).run s = .ok ((), next)) ∧
      next.trace = s.trace ++ events ∧
      (∀ event ∈ events, IsRelayWrite chunk event) ∧
      (events.length : Int) ≤ s.monitorcount := by
  have hsplit : s.pq = [] ++ s.pq := rfl
  rcases relay_bounded env chunk _ (i := 0) hinv hsplit le_rfl with ⟨next, events, h⟩
  have hcount : 0 ≤ s.monitorcount := by
    rw [hinv.monitorcount]
    exact Int.natCast_nonneg _
  have hlength := h.length_le
  refine ⟨next, events, ?_, h.trace, h.writes, by omega⟩
  intro walk hwalk
  unfold relayChunk
  rw [Prog.run_bind, advance_run_none rfl]
  exact h.ends walk hwalk

/-- With the second of three connections broken there are two writes. -/
theorem relayChunk_bounded_broken :
    let chunk := bytes "STATUS up\n"
    let next := finalState ((relayChunk .brokenSix chunk 20).run threeClients)
    let events := [.write .fifoServer 5 chunk (.wrote 10),
      .write .fifoServer 6 chunk (.error .epipe)]
    (relayChunk .brokenSix chunk 20).run threeClients = .ok ((), next) ∧
      next.trace = threeClients.trace ++ events ∧
      (events.length : Int) ≤ threeClients.monitorcount := by
  intro chunk next events
  rcases relayChunk_bounded .brokenSix chunk threeClients threeClients_repInv.toQueueInv with
    ⟨last, written, hends, htrace, _, hlength⟩
  have hrun := hends 20 (by decide)
  have hlast : next = last := congrArg finalState hrun
  subst last
  have hnext : next.trace = threeClients.trace ++ events := by decide +kernel
  have hwritten : written = events := by
    rw [hnext] at htrace
    exact (List.append_cancel_left htrace).symm
  subst written
  exact ⟨hrun, hnext, hlength⟩

end DialdTop
