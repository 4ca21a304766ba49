import DialdTop.ServerMessages

/-!
# Records from the monitor FIFO to a client

A client which stays connected receives a stream of records: those which diald
has written to the monitor FIFO while the client was monitoring, complete and in
order, and between them messages of the server.  However these bytes arrive, the
client calls for each record the function which it prescribes.
-/

namespace DialdTop

open Program
open Relation (ReflTransGen)

/-! ## The greeting -/

theorem portDaemon_run_of_acceptPort
    {env : Env} {s t : Server} (haccept : (acceptPort env).run s = .ok ((), t)) :
    (portDaemon env).run s =
      if IdentAnswers env t then
        (askIdent env (t.withSocket env).1 >>= afterIdent env).run (t.asked env)
      else (enqueueIncoming env).run ((t.asked env).withoutIdent env) := by
  have hsuccess : (decide ((t.withSocket env).1 ≠ -1) &&
      env.connect (t.withSocket env).2 (t.withSocket env).1) = decide (IdentAnswers env t) := by
    rw [Bool.eq_iff_iff, Bool.and_eq_true, decide_eq_true_iff, decide_eq_true_iff]
    exact Iff.rfl
  have hconnect : (sysConnect env (t.withSocket env).1 t.sIn.sa.sinAddr).run
      (t.withSocket env).2 = .ok (decide (IdentAnswers env t), t.asked env) := by
    simp only [sysConnect, Prog.run_act, hsuccess]
    rfl
  rw [← admitWithoutIdent_run, portDaemon, Prog.run_bind, haccept]
  simp only [Prog.run_bind, run_look, allocate_socket_run, hconnect]
  by_cases hanswers : IdentAnswers env t
  · simp only [hanswers, decide_true, if_true]
    rw [Prog.run_bind]
    rfl
  · simp only [hanswers, decide_false, Bool.false_eq_true, if_false]

theorem Server.withSocket_ne
    {s : Server} {env : Env} (hsocket : (s.withSocket env).1 ≠ -1) {fd : Int}
    (hfd : fd ∈ s.kernel) : (s.withSocket env).1 ≠ fd := by
  unfold Server.withSocket at hsocket ⊢
  split
  next socket hanswer =>
    simp only [hanswer] at hsocket
    split
    next hfresh =>
      intro heq
      have hsame : socket = fd := heq
      rw [hsame] at hfresh
      exact hfresh.2 hfd
    next hstale =>
      rw [if_neg hstale] at hsocket
      exact absurd rfl hsocket
  next hanswer =>
    simp only [hanswer] at hsocket
    exact absurd rfl hsocket

theorem Server.identified_trace (s : Server) (env : Env) (sIdent : Int) (userid : List Byte) :
    ∃ result reply, (s.identified env sIdent userid).trace = s.trace ++
      [.write .portDaemon sIdent (identRequest s.sIn.sa) result, .read sIdent reply] := by
  refine ⟨env.write s sIdent (identRequest s.sIn.sa), s.reply env sIdent, ?_⟩
  simp only [Server.identified, Server.replied, Server.requested, Server.log, List.append_assoc]
  rfl

theorem Server.greeted_trace (s : Server) (env : Env) (userid : List Byte) (granted : Bool) :
    ∃ result, (s.greeted env userid granted).trace = s.trace ++
      [.write .portDaemon s.sIn.fd (greeting userid s.sIn.sa.sinAddr granted) result] :=
  ⟨_, rfl⟩

theorem afterIdent_converses
    {env : Env} {userid : List Byte} {s next : Server} (hline : newline ∉ userid)
    (hrun : (afterIdent env userid).run s = .ok ((), next)) (fd : Int) :
    Converses fd s next := by
  by_cases hfits : NameFits userid s.sIn.sa.sinAddr (grants s.aq userid s.sIn.sa.sinAddr)
  · rw [afterIdent_run_fits env rfl hfits] at hrun
    have htrace := (enqueueIncoming_cases hrun).trace
    rcases Server.greeted_trace s env userid (grants s.aq userid s.sIn.sa.sinAddr) with
      ⟨result, hgreeted⟩
    refine ⟨_, htrace.trans hgreeted, ?_⟩
    intro event hevent
    rw [List.mem_singleton] at hevent
    rw [hevent]
    exact says_message (greeting_isMessageRecord hline _ _) _ _ _ _
  · rw [afterIdent_run_overflow env rfl hfits] at hrun
    cases hrun

theorem askIdent_converses
    {env : Env} {sIdent : Int} {s next : Server} {userid : List Byte}
    (hrun : (askIdent env sIdent).run s = .ok (userid, next)) {fd : Int} (hfd : sIdent ≠ fd) :
    newline ∉ userid ∧ Converses fd s next := by
  rw [askIdent_run] at hrun
  cases hextract : extract (env.stack (s.replied env sIdent)) s.sIn.sa (s.reply env sIdent) with
  | error reason =>
      rw [hextract] at hrun
      cases hrun
  | ok user =>
      rw [hextract] at hrun
      cases hrun
      rcases Server.identified_trace s env sIdent userid with ⟨result, reply, htrace⟩
      refine ⟨newline_notMem_extract hextract, _, htrace, ?_⟩
      intro event hevent
      simp only [List.mem_cons, List.not_mem_nil, or_false] at hevent
      rcases hevent with rfl | rfl
      · exact says_elsewhere hfd _ _ _
      · exact says_read _ _ _

/-- While a connection is admitted, it receives nothing but MESSAGE records. -/
theorem portDaemon_converses
    {env : Env} {s next : Server} {fd : Int} {sa : SockAddr}
    (haccept : env.accept s = some (fd, sa)) (hfresh : s.fresh fd)
    (hrun : (portDaemon env).run s = .ok ((), next)) : Converses fd s next := by
  let t := s.accepted fd sa
  have hfirst : Converses fd s (t.asked env) := by
    have hasked : (t.asked env).trace = s.trace ++
        [.connect (t.withSocket env).1 sa.sinAddr (IdentAnswers env t)] := by
      rw [Server.asked_eq]
      rfl
    refine ⟨_, hasked, ?_⟩
    intro event hevent
    rw [List.mem_singleton] at hevent
    rw [hevent]
    exact says_connect _ _ _ _
  rw [portDaemon_run_of_acceptPort (acceptPort_run haccept hfresh)] at hrun
  split at hrun
  next hanswers =>
    have hopen : (t.withSocket env).1 ≠ fd :=
      Server.withSocket_ne hanswers.1 (Finset.mem_insert_self fd s.kernel)
    rw [Prog.run_bind_eq_ok] at hrun
    rcases hrun with ⟨userid, mid, hask, hafter⟩
    rcases askIdent_converses hask hopen with ⟨hline, hasked⟩
    exact hfirst.trans (hasked.trans (afterIdent_converses hline hafter fd))
  next =>
    have htrace := (enqueueIncoming_cases hrun).trace
    rcases Server.withoutIdent_trace (t.asked env) env with ⟨result, hresult⟩
    refine hfirst.trans ⟨_, htrace.trans hresult, ?_⟩
    intro event hevent
    rw [List.mem_singleton] at hevent
    rw [hevent]
    exact says_message unauthorizedLine_isMessageRecord _ _ _ _

/-! ## A client which does not monitor -/

def NotMonitoring (fd : Int) (s : Server) : Prop :=
  ∀ p ∈ s.pq, p.fd = fd → p.has flagMonitor = false

theorem NotMonitoring.closePort
    {fd : Int} {s next : Server} {c : ℕ} (h : NotMonitoring fd s)
    (hrun : (closePort c).run s = .ok ((), next)) : NotMonitoring fd next := by
  rcases closePort_cases hrun with ⟨p, _, ⟨_, rfl⟩ | ⟨found, _, _, rfl⟩⟩
  · exact h
  · intro q hq
    exact h q (List.mem_of_mem_eraseIdx hq)

/-- Between the two states the descriptor receives nothing. -/
def Silent (fd : Int) (s t : Server) : Prop :=
  ∃ events, t.trace = s.trace ++ events ∧ delivered fd events = []

theorem RelayEffect.unfed
    {s next : Server} (heffect : RelayEffect s next) {fd : Int} (h : NotMonitoring fd s) :
    NotMonitoring fd next ∧ Silent fd s next := by
  cases heffect with
  | drained chunk => exact ⟨h, [.read s.monitorfd chunk], rfl, rfl⟩
  | @relayed c p chunk result hp hmonitor =>
      refine ⟨h, [.write .fifoServer p.fd chunk result], rfl, ?_⟩
      have hfd : p.fd ≠ fd := by
        intro hfd
        rw [h p (List.mem_of_getElem? hp) hfd] at hmonitor
        cases hmonitor
      rw [delivered_cons, Event.delivered_eq_nil]
      · rfl
      · intro writer text result' heq
        rw [Event.write.injEq] at heq
        exact hfd heq.2.1
  | close hclose =>
      refine ⟨h.closePort hclose, [], ?_, rfl⟩
      rw [closePort_trace hclose, List.append_nil]
  | monitorClose _ _ => exact ⟨h, [], (List.append_nil _).symm, rfl⟩

theorem fifoServer_silent
    {env : Env} {fuel : ℕ} {s next : Server}
    (hrun : (fifoServer env fuel).run s = .ok ((), next)) {fd : Int} (h : NotMonitoring fd s) :
    Silent fd s next := by
  have hboth : NotMonitoring fd next ∧ Silent fd s next := by
    have heffects := fifoServer_effects hrun
    clear hrun
    induction heffects with
    | refl => exact ⟨h, [], (List.append_nil _).symm, rfl⟩
    | tail _ heffect ih =>
        rcases heffect.unfed ih.1 with ⟨hidle, second, hsecond, hnothing⟩
        rcases ih.2 with ⟨first, hfirst, hsilent⟩
        refine ⟨hidle, first ++ second, ?_, ?_⟩
        · rw [hsecond, hfirst, List.append_assoc]
        · rw [delivered_append, hsilent, hnothing]
          rfl
  exact hboth.2

/-! ## A session -/

/-- What a client receives: a message of the server, or a record of the FIFO. -/
inductive Delivery
  | own (line : Monitor.Message)
  | relayed (r : Monitor.Record)

def Delivery.record : Delivery → Monitor.Record
  | .own line => messageRecord line
  | .relayed r => r

def Delivery.fromFifo : Delivery → Option Monitor.Record
  | .own _ => none
  | .relayed r => some r

def records (ds : List Delivery) : List Monitor.Record := ds.map Delivery.record

/-- The records of the FIFO among them. -/
def relayedRecords (ds : List Delivery) : List Monitor.Record := ds.filterMap Delivery.fromFifo

/-- Between the two states the descriptor receives these records, if its writes
succeed. -/
def Receives (fd : Int) (s : Server) (rs : List Monitor.Record) (t : Server) : Prop :=
  ∃ events ds, t.trace = s.trace ++ events ∧
    delivered fd events = Monitor.stream (records ds) ∧ relayedRecords ds = rs

/-- The server reads these records from the FIFO, and no write fails with EPIPE. -/
def DrainsRecords (s next : Server) (rs : List Monitor.Record) : Prop :=
  ∀ events, next.trace = s.trace ++ events →
    drained events = Monitor.stream rs ∧ Unfailing events

/-- A step of the server at whose beginning the client on `fd` is connected, with
the records which the step brings to it.  A call of `fifo_server` reads whole
records while the client is monitoring. -/
inductive SessionStep (fd : Int) : Server → List Monitor.Record → Server → Prop
  | relayed {env : Env} {fuel : ℕ} {s next : Server} {rs : List Monitor.Record} {p : Port} :
      p ∈ s.pq → p.fd = fd → p.has flagMonitor = true →
        (fifoServer env fuel).run s = .ok ((), next) → DrainsRecords s next rs →
          SessionStep fd s rs next
  | unfed {env : Env} {fuel : ℕ} {s next : Server} {p : Port} :
      p ∈ s.pq → p.fd = fd → p.has flagMonitor = false →
        (fifoServer env fuel).run s = .ok ((), next) → SessionStep fd s [] next
  | other {s next : Server} {p : Port} : p ∈ s.pq → p.fd = fd →
      ServerStep (fun _ _ => True) (fun _ _ => False) s next → SessionStep fd s [] next

/-- All writes to the client succeed in full. -/
def AllWritten (fd : Int) (s next : Server) : Prop :=
  ∀ events, next.trace = s.trace ++ events → Complete fd events

/-- The run of the server since it has accepted the connection on `fd`, with the
records it has relayed to it. -/
inductive Session (fd : Int) (s : Server) : List Monitor.Record → Server → Prop
  | accepted {env : Env} {sa : SockAddr} {next : Server} :
      env.accept s = some (fd, sa) → s.fresh fd →
        (portDaemon env).run s = .ok ((), next) → AllWritten fd s next → Session fd s [] next
  | step {rs rs' : List Monitor.Record} {mid next : Server} : Session fd s rs mid →
      SessionStep fd mid rs' next → AllWritten fd mid next → Session fd s (rs ++ rs') next

theorem SessionStep.serverStep
    {fd : Int} {s next : Server} {rs : List Monitor.Record} (hstep : SessionStep fd s rs next) :
    ServerStep (fun _ _ => True) (fun _ _ => True) s next := by
  cases hstep with
  | relayed _ _ _ hrun _ => exact .fifoServer hrun trivial
  | unfed _ _ _ hrun => exact .fifoServer hrun trivial
  | other _ _ hstep =>
      cases hstep with
      | doSelect hrun => exact .doSelect hrun
      | portDaemon haccepts _ hrun => exact .portDaemon haccepts trivial hrun
      | portServer ready count hrun => exact .portServer ready count hrun
      | fifoServer _ hnever => exact hnever.elim
      | rereadConf hrun => exact .rereadConf hrun

theorem Session.serverInv
    {fd : Int} {s next : Server} {rs : List Monitor.Record} (hinv : ServerInv s)
    (hsession : Session fd s rs next) : ServerInv next := by
  induction hsession with
  | accepted haccept hfresh hrun _ =>
      have hstep : ServerStep (fun _ _ => True) (fun _ _ => True) s _ :=
        .portDaemon ⟨_, _, haccept, hfresh⟩ trivial hrun
      exact hinv.serverStep hstep
  | step _ hstep _ ih => exact ih.serverStep hstep.serverStep

theorem records_own (lines : List Monitor.Message) :
    records (lines.map .own) = lines.map messageRecord := by
  rw [records, List.map_map]
  rfl

theorem relayedRecords_own (lines : List Monitor.Message) :
    relayedRecords (lines.map .own) = [] := by
  rw [relayedRecords, List.filterMap_map, List.filterMap_eq_nil_iff]
  intro line _
  rfl

theorem records_relayed (rs : List Monitor.Record) : records (rs.map .relayed) = rs := by
  rw [records, List.map_map]
  exact List.map_id rs

theorem relayedRecords_relayed (rs : List Monitor.Record) :
    relayedRecords (rs.map .relayed) = rs := by
  rw [relayedRecords, List.filterMap_map]
  exact List.filterMap_some

theorem Converses.receives
    {fd : Int} {s next : Server} (hconverses : Converses fd s next)
    (hwritten : AllWritten fd s next) : Receives fd s [] next := by
  rcases hconverses with ⟨events, htrace, hmessages⟩
  rcases delivered_of_says hmessages (hwritten events htrace) with ⟨lines, hlines⟩
  refine ⟨events, lines.map .own, htrace, ?_, relayedRecords_own lines⟩
  rw [hlines, records_own]

theorem Silent.receives {fd : Int} {s next : Server} (hsilent : Silent fd s next) :
    Receives fd s [] next := by
  rcases hsilent with ⟨events, htrace, hnothing⟩
  exact ⟨events, [], htrace, hnothing, rfl⟩

theorem Receives.trans
    {fd : Int} {s mid next : Server} {rs rs' : List Monitor.Record}
    (hfirst : Receives fd s rs mid) (hlater : Receives fd mid rs' next) :
    Receives fd s (rs ++ rs') next := by
  rcases hfirst with ⟨events, ds, htrace, hdelivered, rfl⟩
  rcases hlater with ⟨events', ds', htrace', hdelivered', rfl⟩
  refine ⟨events ++ events', ds ++ ds', ?_, ?_, List.filterMap_append⟩
  · rw [htrace', htrace, List.append_assoc]
  · rw [delivered_append, hdelivered, hdelivered', records, records, records, List.map_append]
    exact List.flatMap_append.symm

theorem ServerInv.notMonitoring
    {s : Server} (hinv : ServerInv s) {p : Port} (hp : p ∈ s.pq)
    (hmonitor : p.has flagMonitor = false) : NotMonitoring p.fd s := by
  intro q hq hfd
  rw [hinv.queue.port_unique hq hp hfd]
  exact hmonitor

theorem SessionStep.receives
    {fd : Int} {s next : Server} {rs : List Monitor.Record} (hinv : ServerInv s)
    (hstep : SessionStep fd s rs next) (hwritten : AllWritten fd s next) :
    Receives fd s rs next := by
  cases hstep with
  | relayed hp hfd hmonitor hrun hdrains =>
      rcases fifoServer_forwards hinv.queue hrun with ⟨events, htrace, _, hforwards⟩
      rcases hdrains events htrace with ⟨hdrained, hunfailing⟩
      refine ⟨events, rs.map .relayed, htrace, ?_, relayedRecords_relayed rs⟩
      subst hfd
      rw [hforwards hunfailing _ hp hmonitor (hwritten events htrace), hdrained,
        records_relayed]
  | unfed hp hfd hmonitor hrun =>
      subst hfd
      exact (fifoServer_silent hrun (hinv.notMonitoring hp hmonitor)).receives
  | @other _ _ p hp hfd hstep =>
      have happart : fd ≠ s.controlfd := by
        rw [← hfd]
        exact hinv.portsApart p hp
      apply Converses.receives _ hwritten
      cases hstep with
      | doSelect hrun =>
          apply converses_of_trace
          rw [(doSelect_cases hrun).server]
      | portDaemon haccepts _ hrun =>
          rcases portDaemon_cases haccepts hrun with
            ⟨q, events, kernel, _, _, hfresh, _, _, hadmitted⟩
          refine ⟨events, hadmitted.trace, ?_⟩
          intro event hevent writer text result heq
          subst event
          have hclosed := (hfresh writer fd text result hevent).2.2
          rw [← hfd] at hclosed
          exact absurd (hinv.isOpen hp) hclosed
      | portServer ready count hrun => exact portServer_converses hrun happart
      | fifoServer _ hnever => exact hnever.elim
      | rereadConf hrun =>
          rcases rereadConf_cases hrun with ⟨aq, events, hwrites, rfl⟩
          exact ⟨events, rfl, hwrites.says fd⟩

theorem Session.receives
    {fd : Int} {s next : Server} {rs : List Monitor.Record} (hinv : ServerInv s)
    (hsession : Session fd s rs next) : Receives fd s rs next := by
  induction hsession with
  | accepted haccept hfresh hrun hwritten =>
      exact (portDaemon_converses haccept hfresh hrun).receives hwritten
  | step hsession hstep hwritten ih =>
      exact ih.trans (hstep.receives (hsession.serverInv hinv) hwritten)

/-- From the FIFO to the calls of the client.  The time-outs of the client fall
between the records, or between the lines of a queue. -/
theorem calls_of_session
    {fd : Int} {s next : Server} {rs : List Monitor.Record} (hreachable : Reachable s)
    (hsession : Session fd s rs next) :
    ∃ events ds, next.trace = s.trace ++ events ∧ relayedRecords ds = rs ∧
      delivered fd events = Monitor.stream (records ds) ∧
      ∀ (w : Monitor.Surroundings) (input : List (Scanner.Arrival Byte)),
        Monitor.received input = delivered fd events →
          Monitor.TimesOutBetweenParts (records ds) input →
            ∃ n, ∀ fuel, n ≤ fuel →
              Monitor.madeCalls (Monitor.readToEof w fuel (.start input) .none) =
                  some (Monitor.prescribed (records ds)) ∧
                Monitor.madeCalls (Monitor.parseToEof w fuel (.start input) .none) =
                  some (Monitor.prescribed (records ds)) := by
  rcases hsession.receives hreachable.serverInv with ⟨events, ds, htrace, hdelivered, hrelayed⟩
  refine ⟨events, ds, htrace, hrelayed, hdelivered, ?_⟩
  intro w input hinput hbetween
  exact Monitor.exists_calls (hinput.trans hdelivered) hbetween w

/-! ## One record -/

def Event.writtenTo (fd : Int) : Event → Bool
  | .write _ target text result => target ≠ fd || result = .wrote text.length
  | _ => true

theorem complete_of_all {fd : Int} {events : List Event}
    (h : events.all (Event.writtenTo fd) = true) : Complete fd events := by
  intro writer text result hmem
  have hwritten := List.all_eq_true.mp h _ hmem
  simpa [Event.writtenTo] using hwritten

theorem allWritten_of_trace {fd : Int} {s next : Server} (events : List Event)
    (htrace : next.trace = s.trace ++ events) (h : events.all (Event.writtenTo fd) = true) :
    AllWritten fd s next := by
  intro events' htrace'
  rw [htrace] at htrace'
  rw [← List.append_cancel_left htrace']
  exact complete_of_all h

/-- The client on descriptor 3 turns its monitoring on and receives a record. -/
theorem session_hello :
    let s := finalState ((start .obliging).run .blank)
    let next := finalState
      ((fifoServer (.relaying Monitor.hello.text []) 3).run .watched)
    Reachable s ∧ Session 3 s [Monitor.hello] next := by
  let s := finalState ((start .obliging).run .blank)
  let admitted := finalState ((portDaemon .obliging).run s)
  let next := finalState ((fifoServer (.relaying Monitor.hello.text []) 3).run .watched)
  have hstart : (start .obliging).run .blank = .ok ((), s) := by decide +kernel
  have hreachable : Reachable s := ⟨.obliging, s, hstart, .refl⟩
  have haccepted : Session 3 s [] admitted := by
    have haccept : Env.obliging.accept s = some (3, ⟨0x7f000001, 1024⟩) := by decide +kernel
    refine .accepted haccept (by decide +kernel) (by decide +kernel) ?_
    exact allWritten_of_trace (admitted.trace.drop s.trace.length) (by decide +kernel)
      (by decide +kernel)
  have hport : ∃ p ∈ admitted.pq, p.fd = 3 := by decide +kernel
  have hserved : (portServer (.relaying (bytes "monitor on\n") []) 2).run
      { admitted with ps := { admitted.ps with sel := {3}, selcount := 1 } } =
        .ok ((), .watched) := by
    decide +kernel
  have hwatched : Session 3 s [] .watched := by
    rcases hport with ⟨p, hp, hfd⟩
    refine .step haccepted (.other hp hfd (.portServer {3} 1 hserved)) ?_
    exact allWritten_of_trace (Server.watched.trace.drop admitted.trace.length)
      (by decide +kernel) (by decide +kernel)
  have hmonitor : ∃ p ∈ Server.watched.pq, p.fd = 3 ∧ p.has flagMonitor = true := by
    decide +kernel
  have hrelayed : (fifoServer (.relaying Monitor.hello.text []) 3).run .watched =
      .ok ((), next) := by
    decide +kernel
  let relay : List Event :=
    [.read 4 (some Monitor.hello.text), .write .fifoServer 3 Monitor.hello.text (.wrote 14),
      .read 4 (some [])]
  have htrace : next.trace = Server.watched.trace ++ relay := by decide +kernel
  have hdrains : DrainsRecords .watched next [Monitor.hello] := by
    intro events hevents
    rw [htrace] at hevents
    rw [← List.append_cancel_left hevents]
    refine ⟨by decide, ?_⟩
    intro writer fd text hmem
    simp [relay] at hmem
  rcases hmonitor with ⟨p, hp, hfd, hmonitor⟩
  exact ⟨hreachable, .step hwatched (.relayed hp hfd hmonitor hrelayed hdrains)
    (allWritten_of_trace relay htrace (by decide +kernel))⟩

/-- The greeting, and the record from the FIFO. -/
def helloArrivals : List (Scanner.Arrival Byte) :=
  [.data 77 (bytes "ESSAGE\nUser @127.0.0.1 connected -- Mon"),
    .data 105 (bytes "tor access\nMESSAGE\nhello\n")]

/-- It is what the server sends in the session. -/
theorem received_helloArrivals
    {events : List Event}
    (htrace : (finalState
      ((fifoServer (.relaying Monitor.hello.text []) 3).run .watched)).trace =
        (finalState ((start .obliging).run .blank)).trace ++ events) :
    Monitor.received helloArrivals = delivered 3 events := by
  have hsent : Monitor.received helloArrivals =
      delivered 3 ((finalState
        ((fifoServer (.relaying Monitor.hello.text []) 3).run .watched)).trace.drop
          (finalState ((start .obliging).run .blank)).trace.length) := by
    decide +kernel
  rw [hsent, htrace, List.drop_left]

theorem calls_of_session_hello :
    let s := finalState ((start .obliging).run .blank)
    let next := finalState
      ((fifoServer (.relaying Monitor.hello.text []) 3).run .watched)
    ∃ events ds, next.trace = s.trace ++ events ∧ relayedRecords ds = [Monitor.hello] ∧
      delivered 3 events = Monitor.stream (records ds) ∧
      ∃ n, ∀ fuel, n ≤ fuel →
        Monitor.madeCalls (Monitor.readToEof Monitor.quiet fuel (.start helloArrivals) .none) =
            some (Monitor.prescribed (records ds)) ∧
          Monitor.madeCalls (Monitor.parseToEof Monitor.quiet fuel (.start helloArrivals) .none) =
            some (Monitor.prescribed (records ds)) := by
  intro s next
  rcases calls_of_session session_hello.1 session_hello.2 with
    ⟨events, ds, htrace, hrelayed, hdelivered, hcalls⟩
  have hbetween : Monitor.TimesOutBetweenParts (records ds) helloArrivals :=
    Monitor.timesOutBetweenParts_of_data _ (by decide)
  exact ⟨events, ds, htrace, hrelayed, hdelivered,
    hcalls Monitor.quiet helloArrivals (received_helloArrivals htrace) hbetween⟩

end DialdTop
